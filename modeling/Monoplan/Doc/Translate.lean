import Monoplan.Doc.Events
import Monoplan.Doc.Mutate

/-!
# Translating a captured frame

`translate_captured_diffs` brings the index and the consumers up to date with an import or an
undo step from the captured diffs alone.

* `plan` reads the diffs, checks that the mirrors it edits come out as long as the containers
  are, and collects what changed of which item.
* `Plan.commit` patches the index.
* `Plan.events` turns the plan into events.  The open projections are brought over by the
  fewest moves that a simulated consumer gets right.

`none` at any point is a frame beyond the fast path: the index is rebuilt and the consumer is
told to start over (`importFrame`).
-/

namespace Monoplan.Doc

open Monoplan.Base

/-- From here on a frame is not translated. -/
def DIFF_TRANSLATE_MAX_DIRTY : ℕ := 64

/-- The parsed element of an order container. -/
def parseSlot (v : Option String) : Option OrderEntry := v.bind OrderEntry.parse

/-! ## Planning -/

/-- What the first pass over the diffs collects. -/
structure Gathered where
  listsDirty : Bool := false
  settingsDirty : Bool := false
  focusDirty : Bool := false
  upserts : Finset String := ∅
  removals : Finset String := ∅
  /-- The written item maps, by what their id register reads, with their keys. -/
  mapDirty : List (Option String × List ItemKey) := []
  /-- List id to its mirror with the frame's positional edits applied. -/
  shadows : FMap String (List (Option OrderEntry)) := .empty
  /-- List id to the items whose entries were inserted. -/
  active : FMap String (Finset String) := .empty
  entryChurn : ℕ := 0

namespace Gathered

/-- One edit of an order container. -/
def order (g : Gathered) (idx : ProjectionIndex) (listId : String)
    (ops : List (DeltaOp (Option String))) : Option Gathered :=
  let ops := ops.map (DeltaOp.map parseSlot)
  let entered := ((ops.flatMap DeltaOp.inserted).filterMap id).map OrderEntry.itemId
  (applyDelta ((g.shadows.get listId).getD (idx.rawOf listId)) ops).map fun shadow =>
    { g with
      shadows := g.shadows.insert listId shadow
      active := g.active.insert listId ((g.active.get listId).getD ∅ ∪ entered.toFinset)
      entryChurn := g.entryChurn + deltaChurn ops }

/-- One captured diff. -/
def read (g : Gathered) (idx : ProjectionIndex) : CapturedDiff → Option Gathered
  | .untranslated => none
  | .lists => some { g with listsDirty := true }
  | .settings => some { g with settingsDirty := true }
  | .focus => some { g with focusDirty := true }
  | .itemsRoot upserted removed =>
    some { g with
      upserts := g.upserts ∪ upserted.toFinset
      removals := g.removals ∪ removed.toFinset }
  | .itemMap owner keys => some { g with mapDirty := g.mapDirty ++ [(owner, keys)] }
  | .itemText owner key => some { g with mapDirty := g.mapDirty ++ [(owner, [key])] }
  | .order listId ops => g.order idx listId ops

/-- All captured diffs, in frame order. -/
def readAll (idx : ProjectionIndex) : Gathered → List CapturedDiff → Option Gathered
  | g, [] => some g
  | g, diff :: diffs => (g.read idx diff).bind fun g => g.readAll idx diffs

/-- A key that was deleted and set again counts as set. -/
def settled (g : Gathered) : Gathered := { g with removals := g.removals \ g.upserts }

/-- The items that were written to without being set or removed. -/
def dirtyIds (g : Gathered) : Finset String :=
  (g.mapDirty.filterMap Prod.fst).toFinset \ (g.removals ∪ g.upserts)

/-- The keys written of an item. -/
def dirtyKeys (g : Gathered) (id : String) : Finset ItemKey :=
  ((g.mapDirty.filter fun p => p.1 = some id).flatMap Prod.snd).toFinset

end Gathered

/-- What changed of one item. -/
structure Change where
  old : Option ItemMeta
  new : Option ItemMeta
  keys : Finset ItemKey
  brandNew : Bool
  deriving DecidableEq

/-- The keys that count as written when a known item's map was set again. -/
def rewrittenKeys : Finset ItemKey :=
  {.text, .notes, .deadline, .when, .duration, .place, .lifecycle, .startedAt, .doneAt,
    .binnedAt, .location}

/-- The change of one item, from the index before the frame and the containers after it. -/
def changeOf (g : Gathered) (idx : ProjectionIndex) (post : Content) (id : String) :
    Option Change :=
  let old := idx.metas.get id
  if id ∈ g.upserts then
    (post.item id).map fun m =>
      ⟨old, some (itemMeta m), if old.isNone then ∅ else rewrittenKeys, old.isNone⟩
  else if id ∈ g.dirtyIds then
    (post.item id).map fun m => ⟨old, some (itemMeta m), g.dirtyKeys id, false⟩
  else some ⟨old, none, ∅, false⟩

/-- The items of a frame. -/
def Gathered.changedIds (g : Gathered) : List String :=
  sortOn id Function.injective_id (g.upserts ∪ g.dirtyIds ∪ g.removals)

/-- The changes of a run of items. -/
def changesOf (g : Gathered) (idx : ProjectionIndex) (post : Content) :
    List String → Option (List (String × Change))
  | [] => some []
  | id :: ids => (changeOf g idx post id).bind fun ch =>
      (changesOf g idx post ids).map fun rest => (id, ch) :: rest

/-- A frame within reach of the fast path. -/
structure Plan where
  gathered : Gathered
  changes : List (String × Change)

/-- The mirrors come out as long as the containers are. -/
def Gathered.landed (g : Gathered) (post : Content) : Prop :=
  ∀ l ∈ g.shadows.keys, ∀ shadow, g.shadows.get l = some shadow →
    shadow.length = (post.orders l).length

instance (g : Gathered) (post : Content) : Decidable (g.landed post) :=
  decidable_of_iff
    (∀ l ∈ g.shadows.keys, (g.shadows.get l).all fun shadow =>
      decide (shadow.length = (post.orders l).length)) (by
    refine forall₂_congr fun l _ => ?_
    cases g.shadows.get l <;> simp)

/-- The first phase. -/
def plan (idx : ProjectionIndex) (post : Content) (diffs : List CapturedDiff) : Option Plan :=
  (Gathered.readAll idx {} diffs).bind fun g =>
    let g := g.settled
    if ¬ g.landed post then none
    else if DIFF_TRANSLATE_MAX_DIRTY ≤
        g.upserts.card + g.removals.card + g.dirtyIds.card + g.entryChurn then none
    else (changesOf g idx post g.changedIds).map fun changes => ⟨g, changes⟩

namespace Plan

/-- The change of an item. -/
def change (p : Plan) (id : String) : Option Change :=
  (p.changes.find? fun q => q.1 = id).map Prod.snd

/-- The lists whose open projection may have changed. -/
def affected (p : Plan) : Finset String :=
  p.gathered.shadows.keys ∪
    (p.changes.flatMap fun q =>
      (q.2.old.map ItemMeta.listId).toList ++ (q.2.new.map ItemMeta.listId).toList).toFinset

/-- The affected lists in the order they are walked. -/
def affectedSorted (p : Plan) : List String := sortOn id Function.injective_id p.affected

/-! ## Committing -/

/-- Bring one item's slice and sets up to date. -/
def commitChange (idx : ProjectionIndex) (q : String × Change) : ProjectionIndex :=
  match q.2.new with
  | some m => idx.setMeta q.1 m
  | none => idx.removeItem q.1

/-- Install one edited mirror. -/
def commitShadow (p : Plan) (idx : ProjectionIndex) (l : String) : ProjectionIndex :=
  match p.gathered.shadows.get l with
  | some shadow => idx.setRaw l shadow
  | none => idx

/-- The second phase: the slices, the mirrors, then the affected projections. -/
def commit (p : Plan) (idx : ProjectionIndex) : ProjectionIndex :=
  let idx := p.changes.foldl commitChange idx
  let idx := (sortOn id Function.injective_id p.gathered.shadows.keys).foldl p.commitShadow idx
  p.affectedSorted.foldl ProjectionIndex.refreshOpen idx

end Plan

/-! ## Events of one item -/

namespace Change

def has (ch : Change) (key : ItemKey) : Bool := decide (key ∈ ch.keys)

/-- One of the lifecycle registers was written. -/
def hasLifecycle (ch : Change) : Bool :=
  ch.has .lifecycle || ch.has .startedAt || ch.has .doneAt || ch.has .binnedAt

/-- The item was known and is in another list now. -/
def leftList (ch : Change) (new : ItemMeta) : Bool :=
  ch.old.any fun o => o.listId ≠ new.listId

/-- The registers of a known item. -/
def contentEvents (ch : Change) (id : String) (v : ItemView) : List AppEvent :=
  (if ch.has .text then [.itemTextChanged id v.text] else []) ++
  (if ch.has .notes then [.itemNotesChanged id v.notes] else []) ++
  (if ch.has .deadline then [.itemDeadlineChanged id v.deadline] else []) ++
  (if ch.has .when then [.itemWhenChanged id v.when] else []) ++
  (if ch.has .duration then [.itemDurationChanged id v.duration] else []) ++
  (if ch.has .place then [.itemPlaceChanged id v.place] else [])

/-- A known open item that stays open. -/
def flipEvents (ch : Change) (id : String) (new : ItemMeta) (v : ItemView)
    (opens : List String) : List AppEvent :=
  if new.isOpen && ch.old.any ItemMeta.isOpen && ch.hasLifecycle then
    [v.lifecycleChanged id (opens.idxOf? id)]
  else []

/-- Leaving a list, for a known item. -/
def listEvents (ch : Change) (id : String) (new : ItemMeta) : List AppEvent :=
  if ch.has .location && ch.leftList new then [.itemListChanged id new.listId none] else []

/-- What is told of an item before the lists are walked; `opens` is the open projection of its
list after the frame. -/
def itemEvents (ch : Change) (id : String) (new : ItemMeta) (v : ItemView)
    (opens : List String) : List AppEvent :=
  if ch.brandNew then (if new.isOpen then [] else [.itemAdded v none])
  else
    ch.contentEvents id v ++ ch.flipEvents id new v opens ++
      (if new.isOpen then []
        else if ch.hasLifecycle then [v.lifecycleChanged id none] else []) ++
      ch.listEvents id new

end Change

/-- A view is needed of every item that is told of before the walk. -/
def viewOf (post : Content) (id : String) : Option ItemView := (post.item id).bind itemView

/-- The events of one change before the lists are walked. -/
def changeEvents (idx' : ProjectionIndex) (post : Content) (q : String × Change) :
    Option (List AppEvent) :=
  match q.2.new with
  | none => some []
  | some new =>
    if q.2.brandNew && new.isOpen then some []
    else (viewOf post q.1).map fun v => q.2.itemEvents q.1 new v (idx'.openItemIds new.listId)

/-- The events of a run of changes. -/
def allChangeEvents (idx' : ProjectionIndex) (post : Content) :
    List (String × Change) → Option (List AppEvent)
  | [] => some []
  | q :: qs => (changeEvents idx' post q).bind fun evs =>
      (allChangeEvents idx' post qs).map fun rest => evs ++ rest

/-! ## The walk over one list -/

namespace Plan

/-- The item of the list's new open projection is not in the consumer's array yet: it is new,
or was hidden. -/
def entering (p : Plan) (list id : String) : Bool :=
  (p.change id).any fun ch => ch.new.any fun new =>
    new.isOpen && new.listId = list &&
      (ch.brandNew ||
        (ch.old.any (fun o => !o.isOpen) && (ch.has .lifecycle || ch.has .binnedAt)))

/-- The event that inserts an entering item at its place. -/
def entryEvent (p : Plan) (post : Content) (id : String) (i : ℕ) : Option AppEvent :=
  (viewOf post id).map fun v =>
    if (p.change id).any Change.brandNew then .itemAdded v (some i)
    else v.lifecycleChanged id (some i)

end Plan

/-- One remove-then-insert event as the consumer applies it. -/
def reposition (arr : List String) (p : String × ℕ) : List String :=
  placeAt (arr.filter fun x => x ≠ p.1) p.2 p.1

/-- The items that satisfy `sel`, at their places in `post`, ascending. -/
def repositions (post : List String) (sel : String → Bool) : List (String × ℕ) :=
  post.zipIdx.filter fun p => sel p.1

/-- Replay the events of the entering and the moved items the way a consumer does. -/
def simulate (base post : List String) (entering moved : String → Bool) : List String :=
  (repositions post fun id => entering id || moved id).foldl reposition
    (base.filter fun id => !entering id)

/-- Every item whose place among the surviving ones changed. -/
def widened (base post : List String) (entering : String → Bool) (id : String) : Bool :=
  post.zipIdx.any fun p => p.1 = id && !entering id && decide (base[p.2]? ≠ some id)

namespace Plan

/-- The items a list's walk moves: those whose entry was inserted, or, where that does not
come out right, every item that changed its place.  `planned` events are planned already. -/
def moved (p : Plan) (pre post : List String) (list : String) (planned : ℕ) :
    Option (String → Bool) :=
  let base := pre.filter fun id => id ∈ post
  let entering := p.entering list
  let minimal := fun id =>
    decide (id ∈ (p.gathered.active.get list).getD ∅) && decide (id ∈ post) && !entering id
  if simulate base post entering minimal = post then some minimal
  else
    let widened := widened base post entering
    if DIFF_TRANSLATE_MAX_DIRTY ≤ (post.filter widened).length + planned then none
    else if simulate base post entering widened = post then some widened
    else none

/-- The events that bring a list's array over. -/
def walkEvents (p : Plan) (post : Content) (list : String) (moved : String → Bool) :
    List (String × ℕ) → Option (List AppEvent)
  | [] => some []
  | (id, i) :: rest =>
    if p.entering list id then
      (p.entryEvent post id i).bind fun ev =>
        (p.walkEvents post list moved rest).map fun evs => ev :: evs
    else if moved id then
      (p.walkEvents post list moved rest).map fun evs => .itemMoved id (some i) :: evs
    else p.walkEvents post list moved rest

/-- One list's walk. -/
def walk (p : Plan) (idx idx' : ProjectionIndex) (post : Content) (list : String)
    (planned : ℕ) : Option (List AppEvent) :=
  (p.moved (idx.openItemIds list) (idx'.openItemIds list) list planned).bind fun moved =>
    p.walkEvents post list moved (idx'.openItemIds list).zipIdx

/-- The walks of all affected lists. -/
def walks (p : Plan) (idx idx' : ProjectionIndex) (post : Content) :
    List AppEvent → List String → Option (List AppEvent)
  | planned, [] => some planned
  | planned, list :: lists =>
    (p.walk idx idx' post list planned.length).bind fun evs =>
      p.walks idx idx' post (planned ++ evs) lists

/-- The item events of the third phase. -/
def itemEvents (p : Plan) (idx idx' : ProjectionIndex) (post : Content) :
    Option (List AppEvent) :=
  (allChangeEvents idx' post p.changes).bind fun told =>
    (p.walks idx idx' post [] p.affectedSorted).bind fun planned =>
      if DIFF_TRANSLATE_MAX_DIRTY ≤ planned.length + p.gathered.removals.card then none
      else some
        ((sortOn id Function.injective_id p.gathered.removals).map AppEvent.itemRemoved ++
          told ++ planned)

end Plan

/-! ## The whole frame -/

/-- What the frame's consumers read besides the item and list containers. -/
structure Workspace where
  content : Content
  settings : Settings
  focus : List (Option String)

namespace Plan

/-- The events about lists, settings and focus. -/
def otherEvents (p : Plan) (preLists : List ListView) (preSettings : Settings)
    (post : Workspace) : List AppEvent :=
  (if p.gathered.settingsDirty then diffSettings preSettings post.settings else []) ++
  (if p.gathered.listsDirty then diffLists preLists post.content.allLists else []) ++
  (if p.gathered.focusDirty then [.focusChanged] else [])

end Plan

/-- `translate_captured_diffs`. -/
def translate (idx : ProjectionIndex) (preLists : List ListView) (preSettings : Settings)
    (post : Workspace) (diffs : List CapturedDiff) :
    Option (ProjectionIndex × List AppEvent) :=
  (plan idx post.content diffs).bind fun p =>
    (p.itemEvents idx (p.commit idx) post.content).map fun evs =>
      (p.commit idx, evs ++ p.otherEvents preLists preSettings post)

/-- `import_translated` and `apply_undo_op`: the index and the events of a frame that leaves
the containers as `post`, with `emit_diff_fallback` where it is not translated. -/
def importFrame (idx : ProjectionIndex) (preLists : List ListView) (preSettings : Settings)
    (post : Workspace) (diffs : List CapturedDiff) : ProjectionIndex × List AppEvent :=
  (translate idx preLists preSettings post diffs).getD
    (post.content.computeIndex, [.fullResync])

end Monoplan.Doc
