import Monoplan.Doc.Content

/-!
# The projection index

The in-memory mirror of everything about order, and its computation from the containers.

* `visibleIds` are a list's live entries: the entry's item exists, its placement is the
  item's own, and no earlier entry already named the item.
* `tail` are the list's remaining items by creation time and id.
* `resolved` is the one followed by the other; `refreshOpen` stores the open part of it.
* `computeIndexOver` is `compute_index` with the iteration orders of its two hash tables as
  arguments.
-/

namespace Monoplan.Doc

open Monoplan.Base

/-- `ProjectionIndex`. -/
structure ProjectionIndex where
  /-- Item id to its location and lifecycle slice. -/
  metas : FMap String ItemMeta
  /-- List id to the items located there. -/
  members : FMap String (Finset String)
  /-- List id to the open items located there; no key where there is none. -/
  openMembers : FMap String (Finset String)
  /-- List id to the positional mirror of its order container. -/
  rawOrders : FMap String (List (Option OrderEntry))
  /-- List id to its open projection; no key where it is empty. -/
  openByList : FMap String (List String)
  /-- List id to how many open items are visible through an entry; no key for zero. -/
  openVisibleCounts : FMap String ℕ

namespace ProjectionIndex

/-- `ProjectionIndex::default`. -/
def empty : ProjectionIndex where
  metas := .empty
  members := .empty
  openMembers := .empty
  rawOrders := .empty
  openByList := .empty
  openVisibleCounts := .empty

/-! ## Projections -/

/-- The mirror of a list's order container. -/
def rawOf (idx : ProjectionIndex) (listId : String) : List (Option OrderEntry) :=
  (idx.rawOrders.get listId).getD []

def membersOf (idx : ProjectionIndex) (listId : String) : Finset String :=
  (idx.members.get listId).getD ∅

def openMembersOf (idx : ProjectionIndex) (listId : String) : Finset String :=
  (idx.openMembers.get listId).getD ∅

/-- The entry's item is located in the list under exactly this placement. -/
def matches_ (idx : ProjectionIndex) (listId : String) (e : OrderEntry) : Bool :=
  match idx.metas.get e.itemId with
  | some m => decide (m.listId = listId ∧ m.placementId = e.placementId)
  | none => false

/-- `visible_ids`: the items of the matching entries in container order, each once. -/
def visibleIds (idx : ProjectionIndex) (listId : String) : List String :=
  firsts ((((idx.rawOf listId).filterMap id).filter (idx.matches_ listId)).map OrderEntry.itemId)

/-- What the fallback tail is sorted by. -/
def tailKey (idx : ProjectionIndex) (id : String) : ℤ ×ₗ String :=
  toLex (((idx.metas.get id).map ItemMeta.createdAt).getD 0, id)

theorem tailKey_injective (idx : ProjectionIndex) : Function.Injective idx.tailKey := by
  intro a b h
  exact congrArg (fun p => (ofLex p).2) h

/-- `tail`: the located items that are not `seen`, by creation time and id. -/
def tail (idx : ProjectionIndex) (listId : String) (seen : List String) : List String :=
  sortOn idx.tailKey idx.tailKey_injective ((idx.membersOf listId).filter fun id => id ∉ seen)

/-- `open_tail`: the same over the open members. -/
def openTail (idx : ProjectionIndex) (listId : String) (seen : List String) : List String :=
  sortOn idx.tailKey idx.tailKey_injective
    ((idx.openMembersOf listId).filter fun id => id ∉ seen)

/-- `resolved`: visible entries in container order, then the tail. -/
def resolved (idx : ProjectionIndex) (listId : String) : List String :=
  idx.visibleIds listId ++ idx.tail listId (idx.visibleIds listId)

/-- The item is known and open. -/
def isOpenItem (idx : ProjectionIndex) (id : String) : Bool :=
  ((idx.metas.get id).map ItemMeta.isOpen).getD false

/-- The visible entries whose item is open. -/
def openVisible (idx : ProjectionIndex) (listId : String) : List String :=
  (idx.visibleIds listId).filter idx.isOpenItem

/-- The open projection as `refresh_open` computes it. -/
def openOf (idx : ProjectionIndex) (listId : String) : List String :=
  idx.openVisible listId ++ idx.openTail listId (idx.visibleIds listId)

/-- Store a list, or no key for the empty one. -/
def setOpenList (idx : ProjectionIndex) (listId : String) (ids : List String) :
    ProjectionIndex :=
  if ids = [] then { idx with openByList := idx.openByList.erase listId }
  else { idx with openByList := idx.openByList.insert listId ids }

/-- Store a count, or no key for zero. -/
def setOpenCount (idx : ProjectionIndex) (listId : String) (n : ℕ) : ProjectionIndex :=
  if n = 0 then { idx with openVisibleCounts := idx.openVisibleCounts.erase listId }
  else { idx with openVisibleCounts := idx.openVisibleCounts.insert listId n }

/-- `refresh_open`: recompute and store a list's open projection and its visible count. -/
def refreshOpen (idx : ProjectionIndex) (listId : String) : ProjectionIndex :=
  (idx.setOpenCount listId (idx.openVisible listId).length).setOpenList listId (idx.openOf listId)

/-- `open_item_ids`. -/
def openItemIds (idx : ProjectionIndex) (listId : String) : List String :=
  (idx.openByList.get listId).getD []

/-! ## Membership -/

/-- `entry(list_id).or_default().insert(id)`. -/
def insertMember (sets : FMap String (Finset String)) (listId id : String) :
    FMap String (Finset String) :=
  sets.insert listId (insert id ((sets.get listId).getD ∅))

/-- `unset_member`: remove the id, and the key with its last id. -/
def unsetMember (sets : FMap String (Finset String)) (listId id : String) :
    FMap String (Finset String) :=
  match sets.get listId with
  | none => sets
  | some s => if s.erase id = ∅ then sets.erase listId else sets.insert listId (s.erase id)

/-- The first half of `set_meta`: take the item out of the sets it leaves. -/
def leaveSets (idx : ProjectionIndex) (id : String) (new : ItemMeta) : ProjectionIndex :=
  match idx.metas.get id with
  | none => idx
  | some old =>
    let idx :=
      if old.listId ≠ new.listId then
        { idx with members := unsetMember idx.members old.listId id }
      else idx
    if old.isOpen ∧ (¬ new.isOpen ∨ old.listId ≠ new.listId) then
      { idx with openMembers := unsetMember idx.openMembers old.listId id }
    else idx

/-- `set_meta`. -/
def setMeta (idx : ProjectionIndex) (id : String) (new : ItemMeta) : ProjectionIndex :=
  let idx := idx.leaveSets id new
  let idx := { idx with members := insertMember idx.members new.listId id }
  let idx :=
    if new.isOpen then { idx with openMembers := insertMember idx.openMembers new.listId id }
    else idx
  { idx with metas := idx.metas.insert id new }

end ProjectionIndex

/-! ## Recomputation -/

namespace Content

/-- The first loop of `compute_index`: every item map in the given key order. -/
def indexItems (c : Content) (keys : List String) : ProjectionIndex :=
  keys.foldl
    (fun idx id => match c.item id with
      | some m => idx.setMeta id (itemMeta m)
      | none => idx)
    .empty

/-- The lists whose order container is read: where an item is, the inbox, and every row. -/
def candidates (c : Content) (idx : ProjectionIndex) : Finset String :=
  insert LIST_INBOX (idx.members.keys ∪ c.allListIds.toFinset)

/-- Mirror a list's order container. -/
def loadOrder (c : Content) (idx : ProjectionIndex) (listId : String) : ProjectionIndex :=
  { idx with rawOrders := idx.rawOrders.insert listId (c.slots listId) }

/-- `compute_index`, with the item map enumerated as `keys` and the candidates as `cands`. -/
def computeIndexOver (c : Content) (keys cands : List String) : ProjectionIndex :=
  cands.foldl ProjectionIndex.refreshOpen (cands.foldl c.loadOrder (c.indexItems keys))

/-- `keys` and `cands` enumerate what `compute_index` iterates over. -/
def Enumerates (c : Content) (keys cands : List String) : Prop :=
  keys.toFinset = c.items.keys ∧ cands.toFinset = c.candidates (c.indexItems keys)

/-- The index computed with both tables enumerated in sorted order. -/
def computeIndex (c : Content) : ProjectionIndex :=
  let keys := sortOn id Function.injective_id c.items.keys
  c.computeIndexOver keys (sortOn id Function.injective_id (c.candidates (c.indexItems keys)))

instance (c : Content) (keys cands : List String) : Decidable (c.Enumerates keys cands) :=
  inferInstanceAs (Decidable (_ ∧ _))

end Content

/-! ## The canonical walk -/

namespace ProjectionIndex

/-- `ordered_list_ids`: the inbox, the other lists in row order, then the lists that have
items but no row, sorted. -/
def orderedListIds (idx : ProjectionIndex) (rows : List String) : List String :=
  let known := firsts (LIST_INBOX :: rows)
  known ++ sortOn id Function.injective_id (idx.members.keys.filter fun l => l ∉ known)

/-- The ids `iter_items` materializes: every list in walk order, each in its resolved order. -/
def iterItems (idx : ProjectionIndex) (rows : List String) : List String :=
  (idx.orderedListIds rows).flatMap idx.resolved

end ProjectionIndex

end Monoplan.Doc
