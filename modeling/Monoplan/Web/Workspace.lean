import Monoplan.Base.Reposition
import Monoplan.Doc.Events

/-!
# The workspace a client shows

The store of one document: rows by id and the orders in which they are shown.  It is
materialised once from a snapshot and from then on follows the document's events.

* `materialize` is what a snapshot gives.
* `dispatch` brings the workspace up to date with one event, `dispatchAll` with a queue.
-/

namespace Monoplan.Web

open Monoplan.Base Monoplan.Doc

/-- `WorkspaceState`.  A list without open items has an empty order here, whether or not the
record has a key for it. -/
structure WorkspaceState where
  itemsById : String → Option ItemView
  listOpen : String → List String
  binCount : ℤ
  focusOrder : List String
  listsOrder : List String
  listsById : String → Option ListView
  settings : Settings

/-- `isBinned`. -/
def isBinned (v : ItemView) : Bool := v.binnedAt.isSome

/-- The rows of a sequence by id.  The sequence does not name an id twice. -/
def rowsById {α : Type*} (key : α → String) (rows : List α) (id : String) : Option α :=
  rows.find? fun row => key row = id

/-- `materializeEngineSnapshot`. -/
def materialize (items : List ItemView) (lists : List ListView) (settings : Settings)
    (focus : List String) : WorkspaceState where
  itemsById := rowsById ItemView.id items
  listOpen listId := (items.filter fun v => v.isOpen && v.listId == listId).map ItemView.id
  binCount := (items.filter isBinned).length
  focusOrder := focus
  listsOrder := lists.map ListView.id
  listsById := rowsById ListView.id lists
  settings := settings

namespace WorkspaceState

/-! ## Helpers of the store -/

/-- `insertOpen`: at the index, or at the end. -/
def insertOpen (s : WorkspaceState) (listId id : String) (index : Option ℕ) : WorkspaceState :=
  let next := (s.listOpen listId).filter fun x => x ≠ id
  { s with
    listOpen := Function.update s.listOpen listId (placeAt next (index.getD next.length) id) }

/-- `removeOpen`. -/
def removeOpen (s : WorkspaceState) (listId id : String) : WorkspaceState :=
  { s with
    listOpen := Function.update s.listOpen listId
      ((s.listOpen listId).filter fun x => x ≠ id) }

/-- `adjustBinCount`. -/
def adjustBinCount (s : WorkspaceState) (delta : ℤ) : WorkspaceState :=
  { s with binCount := s.binCount + delta }

/-- Change the row of an item, if there is one. -/
def editItem (s : WorkspaceState) (id : String) (f : ItemView → ItemView) : WorkspaceState :=
  { s with itemsById := Function.update s.itemsById id ((s.itemsById id).map f) }

/-- Change the row of a list, if there is one. -/
def editList (s : WorkspaceState) (id : String) (f : ListView → ListView) : WorkspaceState :=
  { s with listsById := Function.update s.listsById id ((s.listsById id).map f) }

/-! ## Events -/

/-- Take an item out of its open order and the bin count. -/
def dropItem (s : WorkspaceState) (v : ItemView) : WorkspaceState :=
  let s := if v.isOpen then s.removeOpen v.listId v.id else s
  if isBinned v then s.adjustBinCount (-1) else s

/-- `dispatch` of `itemAdded`. -/
def addItem (s : WorkspaceState) (item : ItemView) (openIndex : Option ℕ) : WorkspaceState :=
  let s := match s.itemsById item.id with
    | none => s
    | some prev => s.dropItem { prev with id := item.id }
  let s := { s with itemsById := Function.update s.itemsById item.id (some item) }
  let s := if item.isOpen then s.insertOpen item.listId item.id openIndex else s
  if isBinned item then s.adjustBinCount 1 else s

/-- `dispatch` of `itemLifecycleChanged`.  An item that is closed leaves the focus order at
once, a binned one with the next derivation of it. -/
def changeLifecycle (s : WorkspaceState) (id : String) (state : WorkflowState) (lifecycleAt : ℤ)
    (startedAt doneAt binnedAt : Option ℤ) (openIndex : Option ℕ) : WorkspaceState :=
  match s.itemsById id with
  | none => s
  | some prev =>
    let next := { prev with state, lifecycleAt, startedAt, doneAt, binnedAt }
    let s := if prev.isOpen && !next.isOpen && binnedAt.isNone then
        { s with focusOrder := s.focusOrder.filter fun x => x ≠ id }
      else s
    let s := if prev.isOpen && !next.isOpen then s.removeOpen prev.listId id else s
    let s := if !prev.isOpen && next.isOpen then s.insertOpen prev.listId id openIndex else s
    let s := { s with itemsById := Function.update s.itemsById id (some next) }
    s.adjustBinCount ((if binnedAt.isSome then 1 else 0) - (if isBinned prev then 1 else 0))

/-- `dispatch` of `itemListChanged`. -/
def changeItemList (s : WorkspaceState) (id listId : String) (openIndex : Option ℕ) :
    WorkspaceState :=
  match s.itemsById id with
  | none => s
  | some prev =>
    let s := if prev.isOpen then s.removeOpen prev.listId id else s
    let s := { s with itemsById := Function.update s.itemsById id (some { prev with listId }) }
    if prev.isOpen then s.insertOpen listId id openIndex else s

/-- `dispatch` of `listAdded`.  Writing a row merges it into the one that is there. -/
def addList (s : WorkspaceState) (id name : String) (createdAt : ℤ) (archivedAt : Option ℤ)
    (index : ℕ) : WorkspaceState :=
  let old := s.listsById id
  { s with
    listsById := Function.update s.listsById id
      (some { id, name, icon := old.bind ListView.icon,
              defaultView := old.bind ListView.defaultView, archivedAt, createdAt })
    listsOrder := reposition s.listsOrder index id }

/-- `dispatch` of `listRemoved`. -/
def removeList (s : WorkspaceState) (id : String) : WorkspaceState :=
  { s with
    listsOrder := s.listsOrder.filter fun x => x ≠ id
    listsById := Function.update s.listsById id none
    listOpen := Function.update s.listOpen id [] }

/-- `dispatch`, but for the editors' text deltas. -/
def dispatch (s : WorkspaceState) : AppEvent → WorkspaceState
  | .fullResync => s
  | .itemAdded item openIndex => s.addItem item openIndex
  | .itemRemoved id =>
    match s.itemsById id with
    | none => s
    | some prev =>
      let s := s.dropItem { prev with id }
      { s with itemsById := Function.update s.itemsById id none }
  | .itemMoved id openIndex =>
    match s.itemsById id, openIndex with
    | some prev, some i => if prev.isOpen then s.insertOpen prev.listId id (some i) else s
    | _, _ => s
  | .itemTextChanged id text => s.editItem id fun v => { v with text }
  | .itemNotesChanged id notes => s.editItem id fun v => { v with notes }
  | .itemDeadlineChanged id deadline => s.editItem id fun v => { v with deadline }
  | .itemWhenChanged id when => s.editItem id fun v => { v with when }
  | .itemDurationChanged id duration => s.editItem id fun v => { v with duration }
  | .itemPlaceChanged id place => s.editItem id fun v => { v with place }
  | .itemLifecycleChanged id state lifecycleAt startedAt doneAt binnedAt openIndex =>
    s.changeLifecycle id state lifecycleAt startedAt doneAt binnedAt openIndex
  | .itemListChanged id listId openIndex => s.changeItemList id listId openIndex
  | .listAdded id name createdAt archivedAt index => s.addList id name createdAt archivedAt index
  | .listRemoved id => s.removeList id
  | .listMoved id index =>
    if id ∈ s.listsOrder then { s with listsOrder := reposition s.listsOrder index id } else s
  | .listRenamed id name => s.editList id fun v => { v with name }
  | .listIconChanged id icon => s.editList id fun v => { v with icon }
  | .listDefaultViewChanged id defaultView => s.editList id fun v => { v with defaultView }
  | .listArchivedChanged id archivedAt => s.editList id fun v => { v with archivedAt }
  | .settingsChanged settings => { s with settings }
  | .focusChanged => s

/-- The events of a queue, one after the other. -/
def dispatchAll (s : WorkspaceState) (events : List AppEvent) : WorkspaceState :=
  events.foldl dispatch s

@[simp] theorem dispatchAll_nil (s : WorkspaceState) : s.dispatchAll [] = s := rfl

@[simp] theorem dispatchAll_cons (s : WorkspaceState) (ev : AppEvent) (events : List AppEvent) :
    s.dispatchAll (ev :: events) = (s.dispatch ev).dispatchAll events := rfl

theorem dispatchAll_append (s : WorkspaceState) (evs evs' : List AppEvent) :
    s.dispatchAll (evs ++ evs') = (s.dispatchAll evs).dispatchAll evs' := List.foldl_append

end WorkspaceState

end Monoplan.Web
