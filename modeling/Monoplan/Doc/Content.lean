import Mathlib.Data.List.TakeWhile
import Mathlib.Data.Prod.Lex
import Mathlib.Data.Rat.Defs
import Mathlib.Data.String.Basic
import Monoplan.Base.FMap
import Monoplan.Base.Firsts

/-!
# The containers of a document

What a document's index reads from the CRDT: the `items` map, one `order/<list-id>` list per
list, and the `lists` rows.  Nothing is assumed about how they fit together, because items,
order entries and list rows merge independently: an entry may be stale, repeated, unparseable
or missing, an item may sit in a list that has no row, and a row may be repeated.
-/

namespace Monoplan.Doc

open Monoplan.Base

/-- The reserved inbox. -/
def LIST_INBOX : String := "inbox"

/-- The reserved list of calendar events. -/
def LIST_EVENTS : String := "events"

/-! ## Registers -/

/-- The workflow register's state. -/
inductive WorkflowState
  | backlog | todo | inProgress | review | done | cancelled
  deriving DecidableEq

namespace WorkflowState

/-- The stored code. -/
def code : WorkflowState → ℤ
  | backlog => 0
  | todo => 1
  | inProgress => 2
  | review => 3
  | done => 4
  | cancelled => 5

/-- `from_code`: an unknown code is a newer client's state. -/
def fromCode (n : ℤ) : Option WorkflowState :=
  if n = 0 then some backlog
  else if n = 1 then some todo
  else if n = 2 then some inProgress
  else if n = 3 then some review
  else if n = 4 then some done
  else if n = 5 then some cancelled
  else none

/-- `is_open`: everything up to Review. -/
def isOpen (s : WorkflowState) : Bool := decide (s.code ≤ review.code)

theorem fromCode_code (s : WorkflowState) : fromCode s.code = some s := by
  cases s <;> rfl

end WorkflowState

/-! ## Placements -/

/-- Split at the first colon. -/
def splitOnce (s : String) : Option (String × String) :=
  match s.toList.dropWhile (· != ':') with
  | [] => none
  | _ :: right => some (String.ofList (s.toList.takeWhile (· != ':')), String.ofList right)

/-- An item's placement: its list, and which order entry there is the canonical one. -/
structure Location where
  listId : String
  placementId : String
  deriving DecidableEq

/-- `Location::encode`. -/
def Location.encode (loc : Location) : String := loc.listId ++ ":" ++ loc.placementId

/-- `Location::parse`. -/
def Location.parse (s : String) : Option Location :=
  match splitOnce s with
  | some (listId, placementId) => if listId = "" then none else some ⟨listId, placementId⟩
  | none => none

/-- One element of an order container. -/
structure OrderEntry where
  itemId : String
  placementId : String
  deriving DecidableEq

/-- `OrderEntry::encode`. -/
def OrderEntry.encode (e : OrderEntry) : String := e.itemId ++ ":" ++ e.placementId

/-- `OrderEntry::parse`. -/
def OrderEntry.parse (s : String) : Option OrderEntry :=
  match splitOnce s with
  | some (itemId, placementId) => if itemId = "" then none else some ⟨itemId, placementId⟩
  | none => none

/-- An id of the grammar the program mints: not empty, and without the reserved colon. -/
def PlainId (s : String) : Prop := s ≠ "" ∧ ':' ∉ s.toList

instance (s : String) : Decidable (PlainId s) := inferInstanceAs (Decidable (_ ∧ _))

theorem splitOnce_append {a : String} (h : ':' ∉ a.toList) (b : String) :
    splitOnce (a ++ ":" ++ b) = some (a, b) := by
  have hlist : (a ++ ":" ++ b).toList = a.toList ++ ':' :: b.toList := by
    simp [String.toList_append]
  have hne : ∀ x ∈ a.toList, (x != ':') = true := fun x hx => by
    have : x ≠ ':' := fun he => h (he ▸ hx)
    simpa using this
  unfold splitOnce
  rw [hlist, List.dropWhile_append_of_pos hne, List.takeWhile_append_of_pos hne]
  simp [String.ofList_toList]

theorem splitOnce_eq_none {s : String} (h : ':' ∉ s.toList) : splitOnce s = none := by
  have hall : s.toList.dropWhile (· != ':') = [] := by
    refine List.dropWhile_eq_nil_iff.2 fun x hx => ?_
    have hne : x ≠ ':' := fun heq => h (heq ▸ hx)
    simpa using hne
  rw [splitOnce, hall]

theorem Location.parse_encode {loc : Location} (h : PlainId loc.listId) :
    Location.parse loc.encode = some loc := by
  rw [parse, encode, splitOnce_append h.2]
  simp [h.1]

theorem OrderEntry.parse_encode {e : OrderEntry} (h : PlainId e.itemId) :
    OrderEntry.parse e.encode = some e := by
  rw [parse, encode, splitOnce_append h.2]
  simp [h.1]

/-! ## Rows -/

/-- A place as `read_place` returns it: no text is empty, coordinates come as a pair. -/
structure Place where
  label : String
  coordinates : Option (ℚ × ℚ)
  address : Option String
  reference : Option String
  label_ne : label ≠ ""
  address_ne : address ≠ some ""
  reference_ne : reference ≠ some ""
  deriving DecidableEq

/-- The registers of an item map.  A register of another type than expected reads as absent;
`lifecycle` is the pair of a well-shaped workflow register. -/
structure ItemMap where
  id : Option String := none
  text : Option String := none
  notes : Option String := none
  location : Option String := none
  lifecycle : Option (ℤ × ℤ) := none
  deadline : Option String := none
  when : Option String := none
  duration : Option ℕ := none
  place : Option Place := none
  createdAt : Option ℤ := none
  createdBy : Option String := none
  startedAt : Option ℤ := none
  doneAt : Option ℤ := none
  binnedAt : Option ℤ := none
  deriving DecidableEq

namespace ItemMap

/-- `read_workflow`. -/
def readWorkflow (m : ItemMap) : Option (WorkflowState × ℤ) :=
  m.lifecycle.bind fun p => (WorkflowState.fromCode p.1).map fun s => (s, p.2)

/-- `workflow_of`: an absent or unknown register is Backlog since creation. -/
def workflowOf (m : ItemMap) : WorkflowState × ℤ :=
  m.readWorkflow.getD (.backlog, m.createdAt.getD 0)

/-- `is_open`: not binned, and in an open workflow state. -/
def isOpen (m : ItemMap) : Bool := m.binnedAt.isNone && m.workflowOf.1.isOpen

/-- The list the location register names; the inbox when it is absent or unparseable. -/
def locatedIn (m : ItemMap) : Location :=
  (m.location.bind Location.parse).getD ⟨LIST_INBOX, ""⟩

end ItemMap

/-- The slice of an item that the index mirrors. -/
structure ItemMeta where
  listId : String
  placementId : String
  isOpen : Bool
  createdAt : ℤ
  deriving DecidableEq

/-- `item_meta`. -/
def itemMeta (m : ItemMap) : ItemMeta :=
  ⟨m.locatedIn.listId, m.locatedIn.placementId, m.isOpen, m.createdAt.getD 0⟩

/-- What a consumer is shown of an item. -/
structure ItemView where
  id : String
  text : String
  notes : String
  listId : String
  state : WorkflowState
  lifecycleAt : ℤ
  deadline : Option String
  when : Option String
  duration : Option ℕ
  place : Option Place
  createdAt : ℤ
  createdBy : Option String
  startedAt : Option ℤ
  doneAt : Option ℤ
  binnedAt : Option ℤ
  deriving DecidableEq

/-- The item is open. -/
def ItemView.isOpen (v : ItemView) : Bool := v.binnedAt.isNone && v.state.isOpen

/-- A register that reads as absent when it is empty. -/
def nonempty (s : Option String) : Option String := s.filter fun t => t ≠ ""

/-- `item_view`: an item is shown once its id, text and creation time are there. -/
def itemView (m : ItemMap) : Option ItemView :=
  m.id.bind fun id => m.text.bind fun text => m.createdAt.map fun createdAt =>
    { id, text, notes := m.notes.getD "", listId := m.locatedIn.listId,
      state := m.workflowOf.1, lifecycleAt := m.workflowOf.2,
      deadline := nonempty m.deadline, when := nonempty m.when, duration := m.duration,
      place := m.place, createdAt, createdBy := nonempty m.createdBy,
      startedAt := m.startedAt, doneAt := m.doneAt, binnedAt := m.binnedAt }

/-- The registers of a `lists` row; `view` is a default view in a form this build reads. -/
structure ListRow where
  id : Option String := none
  name : Option String := none
  icon : Option String := none
  view : Option String := none
  archivedAt : Option ℤ := none
  createdAt : Option ℤ := none
  deriving DecidableEq

/-- What a consumer is shown of a list. -/
structure ListView where
  id : String
  name : String
  icon : Option String
  defaultView : Option String
  archivedAt : Option ℤ
  createdAt : ℤ
  deriving DecidableEq

/-- `list_view`: a row reads as a list once its id, name and creation time are there. -/
def listView (r : ListRow) : Option ListView :=
  r.id.bind fun id => r.name.bind fun name => r.createdAt.map fun createdAt =>
    { id, name, icon := nonempty r.icon, defaultView := r.view, archivedAt := r.archivedAt,
      createdAt }

/-- The containers.  A map value or list element of another kind than expected is `none`. -/
structure Content where
  items : FMap String (Option ItemMap)
  orders : String → List (Option String)
  lists : List (Option ListRow)

namespace Content

/-- `item_map_of`. -/
def item (c : Content) (id : String) : Option ItemMap := (c.items.get id).join

/-- What the index should know about an item. -/
def metaOf (c : Content) (id : String) : Option ItemMeta := (c.item id).map itemMeta

/-- The parsed elements of an order container, with `none` where nothing parses. -/
def slots (c : Content) (listId : String) : List (Option OrderEntry) :=
  (c.orders listId).map fun v => v.bind OrderEntry.parse

/-- `all_lists`: the rows that read as lists, the first of every id. -/
def allLists (c : Content) : List ListView :=
  firstsOn ListView.id ((c.lists.filterMap id).filterMap listView)

/-- The ids of `all_lists`. -/
def allListIds (c : Content) : List String := c.allLists.map ListView.id

theorem allListIds_nodup (c : Content) : c.allListIds.Nodup := by
  rw [allListIds, allLists, map_firstsOn]
  exact firsts_nodup _

end Content

end Monoplan.Doc
