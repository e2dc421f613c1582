import Monoplan.Doc.Patch

/-!
# Local mutations

Every local mutation writes the containers and patches the index in place.

* `addItemsAt`, `moveItem` (`reorderInList`, `replaceEntry`, `moveAcrossLists`),
  `setItemsLifecycle` (`syncItemOpenness`) and `hardDeleteItems` patch.
* Bulk lifecycle writes and `deleteList` rebuild the index from the containers.
* List rows are written without touching the index.

A fresh id, a fresh placement and the current time are arguments.  `none` is an error; nothing
has been written then.
-/

namespace Monoplan.Doc

open Monoplan.Base

/-- An open document. -/
structure Document where
  content : Content
  index : ProjectionIndex

namespace Content

/-- Set an item map. -/
def setItem (c : Content) (id : String) (m : ItemMap) : Content :=
  { c with items := c.items.insert id (some m) }

/-- Write an order container. -/
def setOrder (c : Content) (listId : String) (vs : List (Option String)) : Content :=
  { c with orders := Function.update c.orders listId vs }

/-- The reserved list ids. -/
def isReservedList (listId : String) : Bool := listId = LIST_INBOX || listId = LIST_EVENTS

/-- The row names the list. -/
def rowIs (listId : String) (row : Option ListRow) : Bool :=
  row.any fun r => r.id = some listId

/-- `find_list`: the raw index of the first row with the id. -/
def findList (c : Content) (listId : String) : Option ℕ := c.lists.findIdx? (rowIs listId)

/-- `assert_list_exists`. -/
def listExists (c : Content) (listId : String) : Bool :=
  isReservedList listId || (c.findList listId).isSome

end Content

/-! ## Adding -/

/-- One text of a batch with the ids minted for it. -/
structure NewItem where
  id : String
  placement : String
  text : String
  now : ℤ
  deriving DecidableEq

namespace NewItem

/-- The order entry of the new item. -/
def entry (n : NewItem) : OrderEntry := ⟨n.id, n.placement⟩

/-- The registers `add_items_at_impl` writes. -/
def toMap (n : NewItem) (listId : String) (state : WorkflowState) (author : Option String) :
    ItemMap where
  id := some n.id
  text := some n.text
  createdAt := some n.now
  createdBy := author
  location := some (Location.encode ⟨listId, n.placement⟩)
  lifecycle := if state = .backlog then none else some (state.code, n.now)
  startedAt := if state = .inProgress then some n.now else none

/-- The slice of the new item that the index mirrors. -/
def toMeta (n : NewItem) (listId : String) : ItemMeta := ⟨listId, n.placement, true, n.now⟩

end NewItem

/-- The container writes of one new item. -/
def Content.addOne (c : Content) (listId : String) (state : WorkflowState)
    (author : Option String) (pos : ℕ) (n : NewItem) : Content :=
  (c.setItem n.id (n.toMap listId state author)).setOrder listId
    (placeAt (c.orders listId) pos (some n.entry.encode))

/-- The container writes of a batch, from a raw position on. -/
def Content.addRun (c : Content) (listId : String) (state : WorkflowState)
    (author : Option String) : ℕ → List NewItem → Content
  | _, [] => c
  | pos, n :: ns => (c.addOne listId state author pos n).addRun listId state author (pos + 1) ns

namespace ProjectionIndex

/-- The slice, the mirror and the visible count of one new item. -/
def addOne (idx : ProjectionIndex) (listId : String) (pos : ℕ) (n : NewItem) : ProjectionIndex :=
  let idx := idx.setMeta n.id (n.toMeta listId)
  let idx := idx.setRaw listId (placeAt (idx.rawOf listId) pos (some n.entry))
  idx.bumpVisible listId 1

/-- The slices, mirrors and visible counts of a batch. -/
def addRun (idx : ProjectionIndex) (listId : String) : ℕ → List NewItem → ProjectionIndex
  | _, [] => idx
  | pos, n :: ns => (idx.addOne listId pos n).addRun listId (pos + 1) ns

/-- The splices of a batch. -/
def spliceRun (idx : ProjectionIndex) (listId : String) : OpenPos → List String → ProjectionIndex
  | _, [] => idx
  | pos, id :: ids => (idx.spliceOpenIn listId id pos).spliceRun listId pos.next ids

end ProjectionIndex

namespace Document

/-- `add_items_at` and `add_item_in_state_at`, of trimmed texts. -/
def addItemsAt (d : Document) (listId : String) (news : List NewItem) (target : ℕ)
    (state : WorkflowState) (author : Option String) : Option Document :=
  if !state.isOpen then none
  else if news.any fun n => n.text = "" then none
  else if !d.content.listExists listId then none
  else if news = [] then some d
  else
    let plan := d.index.planTarget listId target true none
    let index := d.index.addRun listId plan.rawPos news
    some {
      content := d.content.addRun listId state author plan.rawPos news
      index :=
        if plan.openPos = .refresh then index.refreshOpen listId
        else index.spliceRun listId plan.openPos (news.map NewItem.id) }

/-! ## Moving -/

end Document

/-- Where the moved entry ends up: taking it out shifts what is after it. -/
def moveDest (source rawPos : ℕ) : ℕ := if source < rawPos then rawPos - 1 else rawPos

namespace Document

/-- `replace_entry`: a fresh placement and entry for an item that has no live one. -/
def replaceEntry (d : Document) (id : String) (m : ItemMap) (listId : String) (target : ℕ)
    (isOpen : Bool) (placement : String) : Document :=
  let rawPos := (d.index.planTarget listId target isOpen (some id)).rawPos
  let entry : OrderEntry := ⟨id, placement⟩
  let content := d.content.setItem id
    { m with location := some (Location.encode ⟨listId, placement⟩) }
  let metas := match d.index.metas.get id with
    | none => d.index.metas
    | some slice => d.index.metas.insert id { slice with placementId := placement }
  let index := { d.index with metas }
  { content := content.setOrder listId (placeAt (content.orders listId) rawPos (some entry.encode))
    index := (index.setRaw listId (placeAt (index.rawOf listId) rawPos (some entry))).refreshOpen
      listId }

/-- `reorder_in_list`. -/
def reorderInList (d : Document) (id : String) (m : ItemMap) (listId : String) (target : ℕ)
    (isOpen : Bool) (placement : String) : Document :=
  match d.index.canonicalRawPos listId id with
  | none => d.replaceEntry id m listId target isOpen placement
  | some source =>
    let plan := d.index.planTarget listId target isOpen (some id)
    let dest := moveDest source plan.rawPos
    if source = dest then d
    else
      let index := d.index.mapRaw listId fun raw => moveWithin raw source dest
      { content := d.content.setOrder listId (moveWithin (d.content.orders listId) source dest)
        index :=
          if !isOpen then index
          else if plan.openPos = .refresh then index.refreshOpen listId
          else index.spliceOpenIn listId id plan.openPos }

/-- `move_across_lists`. -/
def moveAcrossLists (d : Document) (id : String) (m : ItemMap) (current listId : String) (target : ℕ)
    (isOpen : Bool) (placement : String) : Document :=
  let plan := d.index.planTarget listId target isOpen none
  let positions := d.index.entryPositions current id
  let wasVisible := (d.index.canonicalRawPos current id).isSome
  let entry : OrderEntry := ⟨id, placement⟩
  let content := d.content.setItem id
    { m with location := some (Location.encode ⟨listId, placement⟩) }
  let content := content.setOrder listId
    (placeAt (content.orders listId) plan.rawPos (some entry.encode))
  let content := content.setOrder current (removeAt positions (content.orders current))
  let index := d.index.setMeta id ⟨listId, placement, isOpen, m.createdAt.getD 0⟩
  let index := index.mapRaw current (removeAt positions)
  let index := if wasVisible && isOpen then index.bumpVisible current (-1) else index
  let index := index.setRaw listId (placeAt (index.rawOf listId) plan.rawPos (some entry))
  let index := if isOpen then index.bumpVisible listId 1 else index
  { content
    index :=
      if !isOpen then index
      else
        let index := index.spliceOpenOut current id
        if plan.openPos = .refresh then index.refreshOpen listId
        else index.spliceOpenIn listId id plan.openPos }

/-- `move_item`. -/
def moveItem (d : Document) (id listId : String) (target : ℕ) (placement : String) : Option Document :=
  if !d.content.listExists listId then none
  else match d.index.metas.get id, d.content.item id with
    | some slice, some m =>
      if slice.listId = listId then
        some (d.reorderInList id m listId target slice.isOpen placement)
      else some (d.moveAcrossLists id m slice.listId listId target slice.isOpen placement)
    | _, _ => none

end Document

/-! ## Lifecycle -/

/-- `LifecycleWrite`; a target of `none` is the bin. -/
inductive LifecycleWrite
  | set (target : Option WorkflowState)
  | restore
  | unDone
  deriving DecidableEq

/-- `apply_lifecycle`; `none` when nothing is written. -/
def applyLifecycle (m : ItemMap) (target : Option WorkflowState) (now : ℤ) : Option ItemMap :=
  match target with
  | none => if m.binnedAt.isSome then none else some { m with binnedAt := some now }
  | some want =>
    if m.binnedAt.isNone ∧ m.workflowOf.1 = want then none
    else some { m with
      binnedAt := none
      lifecycle := some (want.code, now)
      startedAt := if want = .inProgress ∧ m.startedAt.isNone then some now else m.startedAt
      doneAt := if want = .done then some now else m.doneAt }

/-- `apply_lifecycle_write`. -/
def applyLifecycleWrite (m : ItemMap) (write : LifecycleWrite) (now : ℤ) : Option ItemMap :=
  match write with
  | .set target => applyLifecycle m target now
  | .restore => if m.binnedAt.isNone then none else some { m with binnedAt := none }
  | .unDone =>
    if m.binnedAt.isSome ∨ m.workflowOf.1.isOpen then none
    else applyLifecycle m (some .backlog) now

/-- `sync_item_openness`. -/
def ProjectionIndex.syncItemOpenness (idx : ProjectionIndex) (id : String) (openNow : Bool) :
    ProjectionIndex :=
  match idx.setOpen id openNow with
  | none => idx
  | some (listId, wasOpen, idx) =>
    if !openNow then
      let idx :=
        if wasOpen && (idx.canonicalRawPos listId id).isSome then idx.bumpVisible listId (-1)
        else idx
      idx.spliceOpenOut listId id
    else if wasOpen then idx
    else idx.refreshOpen listId

/-- From here on a batch rebuilds instead of patching. -/
def BULK_LIFECYCLE_EVENT_THRESHOLD : ℕ := 64

namespace Document

/-- `rebuild_index`. -/
def rebuildIndex (d : Document) : Document := { d with index := d.content.computeIndex }

/-- Write one item's lifecycle and bring the index up to date with it. -/
def syncLifecycle (write : LifecycleWrite) (now : ℤ) (d : Document) (id : String) : Document :=
  match (d.content.item id).bind fun m => applyLifecycleWrite m write now with
  | none => d
  | some m =>
    { content := d.content.setItem id m, index := d.index.syncItemOpenness id m.isOpen }

/-- Write one item's lifecycle. -/
def writeLifecycle (write : LifecycleWrite) (now : ℤ) (c : Content) (id : String) : Content :=
  match (c.item id).bind fun m => applyLifecycleWrite m write now with
  | none => c
  | some m => c.setItem id m

/-- `find_item`: the index knows the item and its map is there. -/
def hasItem (d : Document) (id : String) : Bool :=
  (d.index.metas.get id).isSome && (d.content.item id).isSome

/-- The write changes the item. -/
def writes (write : LifecycleWrite) (now : ℤ) (c : Content) (id : String) : Bool :=
  ((c.item id).bind fun m => applyLifecycleWrite m write now).isSome

/-- The branch for few items: write and sync each. -/
def patchLifecycle (d : Document) (ids : List String) (write : LifecycleWrite) (now : ℤ) :
    Document :=
  ids.foldl (syncLifecycle write now) d

/-- The branch for many items: write all of them, then rebuild. -/
def rebuildLifecycle (d : Document) (ids : List String) (write : LifecycleWrite) (now : ℤ) :
    Document :=
  if ids.any (writes write now d.content) then
    rebuildIndex { d with content := ids.foldl (writeLifecycle write now) d.content }
  else d

/-- `set_items_lifecycle_impl`.  The items are distinct, so writing and syncing one after the
other is what writing all of them first and syncing them then does. -/
def setItemsLifecycle (d : Document) (ids : List String) (write : LifecycleWrite) (now : ℤ) :
    Option Document :=
  if ids = [] then some d
  else if ¬ ids.Nodup ∨ !ids.all d.hasItem then none
  else if BULK_LIFECYCLE_EVENT_THRESHOLD ≤ ids.length then
    some (d.rebuildLifecycle ids write now)
  else some (d.patchLifecycle ids write now)

/-! ## Deleting -/

/-- The ids among `ids` that the index locates in the list. -/
def locatedAmong (idx : ProjectionIndex) (ids : List String) (listId : String) : List String :=
  ids.filter fun id => (idx.metas.get id).any fun m => m.listId = listId

/-- The entries to delete from a list's container, sorted and without repetitions. -/
def deletedPositions (idx : ProjectionIndex) (ids : List String) (listId : String) : List ℕ :=
  sortOn id Function.injective_id
    ((locatedAmong idx ids listId).flatMap (idx.entryPositions listId)).toFinset

/-- Take one deleted item out of its list's open projection. -/
def withdraw (before idx : ProjectionIndex) (id : String) : ProjectionIndex :=
  match before.metas.get id with
  | none => idx
  | some m =>
    let idx := idx.spliceOpenOut m.listId id
    if m.isOpen && (before.canonicalRawPos m.listId id).isSome then idx.bumpVisible m.listId (-1)
    else idx

/-- `hard_delete_items`. -/
def hardDeleteItems (d : Document) (ids : List String) : Document :=
  let positions := deletedPositions d.index ids
  let index := ids.foldl ProjectionIndex.removeItem d.index
  let index := { index with
    rawOrders := index.rawOrders.mapWithKey fun l raw => removeAt (positions l) raw }
  { content := { d.content with
      items := ids.foldl FMap.erase d.content.items
      orders := fun l => removeAt (positions l) (d.content.orders l) }
    index := ids.foldl (withdraw d.index) index }

/-- `delete_binned_items`. -/
def deleteBinnedItems (d : Document) (ids : List String) : Option Document :=
  if ids = [] then some d
  else if ¬ ids.Nodup then none
  else if !ids.all d.hasItem then none
  else if !ids.all fun id => (d.content.item id).any fun m => m.binnedAt.isSome then none
  else some (d.hardDeleteItems ids)

/-- `iter_items`. -/
def iterItems (d : Document) : List ItemView :=
  (d.index.iterItems d.content.allListIds).filterMap fun id => (d.content.item id).bind itemView

/-- `empty_bin`. -/
def emptyBin (d : Document) : Document :=
  let binned := (d.iterItems.filter fun v => v.binnedAt.isSome).map ItemView.id
  if binned = [] then d else d.hardDeleteItems binned

end Document

/-! ## Lists -/

/-- Relocate one item of a deleted list to the inbox, binned. -/
def Content.discard (placement : String → String) (now : ℤ) (c : Content) (id : String) :
    Content :=
  match c.item id with
  | none => c
  | some m =>
    let m := { m with
      location := some (Location.encode ⟨LIST_INBOX, placement id⟩)
      binnedAt := m.binnedAt.orElse fun _ => some now }
    (c.setItem id m).setOrder LIST_INBOX
      (c.orders LIST_INBOX ++ [some (OrderEntry.encode ⟨id, placement id⟩)])

namespace Document

/-- `delete_list`. -/
def deleteList (d : Document) (listId : String) (placement : String → String) (now : ℤ) : Option Document :=
  if Content.isReservedList listId then none
  else match d.content.findList listId with
    | none => none
    | some row =>
      let content := (d.index.resolved listId).foldl (Content.discard placement now) d.content
      some (rebuildIndex { d with content := { content with lists := content.lists.eraseIdx row } })

/-- `add_list`, of a trimmed name. -/
def addList (d : Document) (id name : String) (now : ℤ) : Option Document :=
  if name = "" then none
  else
    let row : ListRow := { id := some id, name := some name, createdAt := some now }
    some { d with content := { d.content with lists := d.content.lists ++ [some row] } }

/-- A write to one register of a list row. -/
inductive RowEdit
  | name (name : String)
  | icon (icon : Option String)
  | view (view : Option String)
  | archivedAt (since : Option ℤ)

/-- The row with the register written. -/
def RowEdit.apply (r : ListRow) : RowEdit → ListRow
  | name n => { r with name := some n }
  | icon i => { r with icon := i }
  | view v => { r with view := v }
  | archivedAt t => { r with archivedAt := t }

/-- `rename_list`, `set_list_icon`, `set_list_default_view` and `set_list_archived`. -/
def editList (d : Document) (listId : String) (edit : RowEdit) : Option Document :=
  if Content.isReservedList listId then none
  else (d.content.findList listId).map fun row =>
    { d with content := { d.content with
        lists := d.content.lists.modify row (Option.map fun r => edit.apply r) } }

/-- `move_list`, to a raw position. -/
def moveList (d : Document) (listId : String) (dest : ℕ) : Option Document :=
  if Content.isReservedList listId then none
  else (d.content.findList listId).map fun row =>
    { d with content := { d.content with lists := moveWithin d.content.lists row dest } }

end Document

end Monoplan.Doc
