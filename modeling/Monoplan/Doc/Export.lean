import Monoplan.Doc.Events
import Monoplan.Doc.Formats
import Monoplan.Doc.Mutate
import Monoplan.Doc.ProjectionLaw

/-!
# JSON export and import

`exportJson` walks the projections: the lists as they are shown, the items grouped by list in
resolved order, the live Focus refs.  `importJson` rebuilds containers from such a file: it keeps
well-formed ids and skips a row whose id is there already, drops what it cannot read, and writes
every item under a fresh placement at the end of its list.

The ids and placements an import mints are `mint 0`, `mint 1`, ... in the order they are drawn,
and `now` is the time.
-/

namespace Monoplan.Doc

open Monoplan.Base

/-- The display names of the reserved lists. -/
def INBOX_NAME : String := "Inbox"

def EVENTS_NAME : String := "Events"

/-- A document with everything an export reads: its containers, the raw `focus` container (a slot
that is no string is empty) and its settings. -/
structure Account where
  content : Content
  focus : List String
  settings : Settings

/-! ## Focus -/

/-- `FocusRef`: no document names this one. -/
structure FocusRef where
  docId : Option String
  itemId : String
  deriving DecidableEq

namespace FocusRef

/-- `FocusRef::encode`. -/
def encode (r : FocusRef) : String :=
  match r.docId with
  | some docId => docId ++ ":" ++ r.itemId
  | none => r.itemId

/-- `FocusRef::parse`. -/
def parse (s : String) : Option FocusRef :=
  if s = "" then none
  else
    match splitOnce s with
    | some (docId, itemId) => if docId = "" ∨ itemId = "" then none else some ⟨some docId, itemId⟩
    | none => some ⟨none, s⟩

def isLocal (r : FocusRef) : Bool := r.docId.isNone

end FocusRef

namespace Account

variable (a : Account)

/-- The index, as `rebuild_index` leaves it. -/
def index : ProjectionIndex := a.content.computeIndex

/-- The live entries of `scan_focus`: foreign refs and refs to open items, the first of every
item. -/
def focusEntries : List FocusRef :=
  firstsOn FocusRef.itemId <|
    (a.focus.filterMap FocusRef.parse).filter fun r => !r.isLocal || a.index.isOpenItem r.itemId

/-- `visible_item_ids`. -/
def visibleItemIds : List String := (a.focusEntries.filter FocusRef.isLocal).map FocusRef.itemId

/-- `iter_items`. -/
def iterItems : List ItemView :=
  (a.index.iterItems a.content.allListIds).filterMap fun id => (a.content.item id).bind itemView

end Account

/-! ## The file -/

structure ExportSettings where
  showListCounts : Bool
  inboxView : Option String
  deriving DecidableEq

structure ExportList where
  id : String
  name : String
  icon : Option String
  view : Option String
  archivedAt : Option ℤ
  createdAt : Option ℤ
  builtin : Bool
  deriving DecidableEq

structure ExportLifecycle where
  state : String
  since : ℤ
  deriving DecidableEq

structure ExportItem where
  id : String
  text : String
  notes : String
  listId : String
  lifecycle : ExportLifecycle
  deadline : Option String
  when : Option String
  duration : Option ℕ
  place : Option Place
  createdAt : ℤ
  createdBy : Option String
  startedAt : Option ℤ
  doneAt : Option ℤ
  binnedAt : Option ℤ
  deriving DecidableEq

structure JsonExport where
  version : ℕ
  settings : ExportSettings
  lists : List ExportList
  items : List ExportItem
  focus : List String
  deriving DecidableEq

/-! ## Export -/

/-- The row of a reserved list. -/
def builtinList (id name : String) : ExportList := ⟨id, name, none, none, none, none, true⟩

/-- The row of a list of the user's. -/
def ListView.toExport (v : ListView) : ExportList :=
  { id := v.id, name := v.name, icon := v.icon,
    view := (v.defaultView.bind DefaultView.parse).map DefaultView.encode,
    archivedAt := v.archivedAt, createdAt := some v.createdAt, builtin := false }

def ItemView.toExport (v : ItemView) : ExportItem :=
  { id := v.id, text := v.text, notes := v.notes, listId := v.listId,
    lifecycle := ⟨v.state.name, v.lifecycleAt⟩, deadline := v.deadline, when := v.when,
    duration := v.duration, place := v.place, createdAt := v.createdAt, createdBy := v.createdBy,
    startedAt := v.startedAt, doneAt := v.doneAt, binnedAt := v.binnedAt }

/-- The reserved lists of an export: `events` only when something is located there. -/
def Account.builtinLists (a : Account) : List ExportList :=
  builtinList LIST_INBOX INBOX_NAME ::
    if (a.index.members.get LIST_EVENTS).isSome then [builtinList LIST_EVENTS EVENTS_NAME] else []

/-- `export_json`. -/
def Account.exportJson (a : Account) : JsonExport where
  version := 1
  settings :=
    ⟨a.settings.showListCounts,
      (a.settings.inboxView.bind DefaultView.parse).map DefaultView.encode⟩
  lists := a.builtinLists ++ a.content.allLists.map ListView.toExport
  items := a.iterItems.map ItemView.toExport
  focus := a.visibleItemIds

/-! ## Import -/

structure ImportSummary where
  listsAdded : ℕ := 0
  itemsAdded : ℕ := 0
  itemsSkipped : ℕ := 0
  focusAdded : ℕ := 0
  listsExisting : ℕ := 0
  itemsExisting : ℕ := 0
  deriving DecidableEq

/-- An import under way: the containers as written, how many ids are minted, the ids of the
file's lists, and of the items added their id here and whether they are open. -/
structure Importing where
  content : Content
  minted : ℕ
  idMap : FMap String String
  itemIdMap : FMap String (String × Bool)
  summary : ImportSummary

section Import

variable (mint : ℕ → String) (now : ℤ)

/-- The `lists` row written for a row of the file. -/
def ExportList.toRow (src : ExportList) (id : String) : ListRow where
  id := some id
  name := some (trim src.name)
  icon := (src.icon.map trim).filter fun s => s ≠ ""
  view := (src.view.bind DefaultView.parse).map DefaultView.encode
  archivedAt := src.archivedAt
  createdAt := some (src.createdAt.getD now)

/-- The item map written for an item of the file. -/
def ExportItem.toMap (src : ExportItem) (id listId placement : String) : ItemMap :=
  let state := (WorkflowState.parseName src.lifecycle.state).getD .backlog
  { id := some id
    text := some (trim src.text)
    notes := if trim src.notes = "" then none else some (trim src.notes)
    location := some (Location.encode ⟨listId, placement⟩)
    lifecycle :=
      if state ≠ .backlog ∨ src.lifecycle.since ≠ src.createdAt then
        some (state.code, src.lifecycle.since)
      else none
    deadline := src.deadline.bind parseDeadline
    when := src.when.bind parseWhen
    duration := src.duration.filter validDuration
    place := src.place.bind Place.normalized
    createdAt := some src.createdAt
    createdBy := (src.createdBy.map trim).filter fun s => s ≠ ""
    startedAt := src.startedAt
    doneAt := src.doneAt
    binnedAt := src.binnedAt }

/-- One row of the file's lists. -/
def importList (s : Importing) (src : ExportList) : Importing :=
  if src.id = LIST_EVENTS then s
  else if src.builtin ∨ src.id = LIST_INBOX then
    if src.id = "" then s else { s with idMap := s.idMap.insert src.id LIST_INBOX }
  else if trim src.name = "" then s
  else if isWellFormedId src.id ∧ (s.content.findList src.id).isSome then
    { s with
      idMap := s.idMap.insert src.id src.id
      summary := { s.summary with listsExisting := s.summary.listsExisting + 1 } }
  else
    let newListId := if isWellFormedId src.id then src.id else mint s.minted
    { s with
      content := { s.content with lists := s.content.lists ++ [some (src.toRow now newListId)] }
      minted := if isWellFormedId src.id then s.minted else s.minted + 1
      idMap := if src.id = "" then s.idMap else s.idMap.insert src.id newListId
      summary := { s.summary with listsAdded := s.summary.listsAdded + 1 } }

/-- One item of the file; `find_item` also asks the index as it was before the import. -/
def importItem (idx : ProjectionIndex) (s : Importing) (src : ExportItem) : Importing :=
  if trim src.text = "" then
    { s with summary := { s.summary with itemsSkipped := s.summary.itemsSkipped + 1 } }
  else if isWellFormedId src.id ∧ (idx.metas.get src.id).isSome ∧ (s.content.item src.id).isSome then
    { s with summary := { s.summary with itemsExisting := s.summary.itemsExisting + 1 } }
  else
    let targetListId := (s.idMap.get src.listId).getD LIST_INBOX
    let newItemId := if isWellFormedId src.id then src.id else mint s.minted
    let minted := if isWellFormedId src.id then s.minted else s.minted + 1
    let placement := mint minted
    let state := (WorkflowState.parseName src.lifecycle.state).getD .backlog
    { content :=
        (s.content.setItem newItemId (src.toMap newItemId targetListId placement)).setOrder
          targetListId
          (s.content.orders targetListId ++ [some (OrderEntry.encode ⟨newItemId, placement⟩)])
      minted := minted + 1
      idMap := s.idMap
      itemIdMap :=
        if src.id = "" then s.itemIdMap
        else s.itemIdMap.insert src.id (newItemId, src.binnedAt.isNone && state.isOpen)
      summary := { s.summary with itemsAdded := s.summary.itemsAdded + 1 } }

end Import

/-- The focus refs of a file that are appended, given the items local refs name already. -/
def importFocus (itemIdMap : FMap String (String × Bool)) (seen : Finset String) :
    List String → List String
  | [] => []
  | raw :: rest =>
    match ((FocusRef.parse raw).filter FocusRef.isLocal).bind fun r => itemIdMap.get r.itemId with
    | some (newItemId, true) =>
      if newItemId ∈ seen then importFocus itemIdMap seen rest
      else
        FocusRef.encode ⟨none, newItemId⟩ :: importFocus itemIdMap (insert newItemId seen) rest
    | _ => importFocus itemIdMap seen rest

/-- The ids of the file's reserved lists. -/
def reservedIds : FMap String String :=
  (FMap.empty.insert LIST_INBOX LIST_INBOX).insert LIST_EVENTS LIST_EVENTS

namespace Account

/-- What an import starts from. -/
def importing (a : Account) : Importing := ⟨a.content, 0, reservedIds, .empty, {}⟩

/-- The items the local refs of the `focus` container name. -/
def focusSeen (a : Account) : Finset String :=
  (((a.focus.filterMap FocusRef.parse).filter FocusRef.isLocal).map FocusRef.itemId).toFinset

/-- `import_json`. -/
def importJson (mint : ℕ → String) (now : ℤ) (a : Account) (export_ : JsonExport) :
    Except String (Account × ImportSummary) :=
  if export_.version ≠ 1 then
    .error ("unsupported export version: " ++ toString export_.version ++ " (expected 1)")
  else
    let s := export_.lists.foldl (importList mint now) a.importing
    let s := export_.items.foldl (importItem mint a.index) s
    let added := importFocus s.itemIdMap a.focusSeen export_.focus
    .ok ({ a with content := s.content, focus := a.focus ++ added },
      { s.summary with focusAdded := added.length })

/-- A document nothing was written to. -/
def empty : Account := ⟨⟨.empty, fun _ => [], []⟩, [], {}⟩

end Account

end Monoplan.Doc
