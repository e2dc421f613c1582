import Monoplan.Doc.Formats
import Monoplan.Doc.ItemMoves
import Monoplan.Doc.LifecycleEvents

/-!
# What an operation leaves in place

Where an item stands is decided by its placement, its creation time and the order entries that
name it.  A closed item keeps all three.

* `Operation`: the mutations of `documents`, and the writes to an item's other registers.
* `SamePlaces p c c'`: nothing of this has changed for the items of a kind.  They then stand in
  the same order in every list (`SamePlaces.order`).
* `Lags c idx`: every mirror is a beginning of its container.  Every operation keeps this, sound
  or not (`lags_act`), so a position read off a mirror is that of the same entry in the
  container.
* `act_samePlaces`: an operation changes the place of no item but those it moves.
-/

namespace Monoplan.Doc

open Monoplan.Base ProjectionIndex

/-! ## Register edits -/

/-- What a start time without a length gets. -/
def DEFAULT_DURATION_MINUTES : ℕ := 60

/-- `when_is_timed`. -/
def whenIsTimed (normalized : String) : Bool := normalized.utf8ByteSize = 16

/-- A write to one of an item's own registers. -/
inductive ItemEdit
  /-- `edit_item_text`. -/
  | text (text : String)
  /-- `apply_notes_delta`, of an accepted delta that leaves these notes. -/
  | notes (notes : String)
  /-- `set_item_deadline`. -/
  | deadline (deadline : Option String)
  /-- `set_item_when`. -/
  | when (when : Option String)
  /-- `set_item_duration`. -/
  | duration (duration : Option ℕ)
  /-- `set_item_place`. -/
  | place (place : Option Place)

/-- The item with the register written; `none` where the value is rejected. -/
def ItemEdit.apply (m : ItemMap) : ItemEdit → Option ItemMap
  | text t => if trim t = "" then none else some { m with text := some (trim t) }
  | notes n => some { m with notes := some n }
  | deadline none => some { m with deadline := none }
  | deadline (some raw) => (parseDeadline raw).map fun v => { m with deadline := some v }
  | when none => some { m with when := none, duration := none }
  | when (some raw) => (parseWhen raw).map fun v =>
      { m with
        when := some v
        duration :=
          if whenIsTimed v && m.duration.isNone then some DEFAULT_DURATION_MINUTES
          else m.duration }
  | duration none => some { m with duration := none }
  | duration (some n) => if validDuration n then some { m with duration := some n } else none
  | place none => some { m with place := none }
  | place (some v) => v.normalized.map fun v => { m with place := some v }

/-- The setters of an item's registers; the index has nothing of them. -/
def Document.editItem (d : Document) (id : String) (edit : ItemEdit) : Option Document :=
  if !d.hasItem id then none
  else ((d.content.item id).bind edit.apply).map fun m =>
    { d with content := d.content.setItem id m }

/-- What a register edit leaves alone. -/
theorem ItemEdit.apply_keeps {m m' : ItemMap} {edit : ItemEdit} (h : edit.apply m = some m') :
    m'.location = m.location ∧ m'.createdAt = m.createdAt ∧ m'.startedAt = m.startedAt ∧
      m'.doneAt = m.doneAt := by
  unfold ItemEdit.apply at h
  split at h
  · split at h
    · cases h
    · cases h
      exact ⟨rfl, rfl, rfl, rfl⟩
  · cases h
    exact ⟨rfl, rfl, rfl, rfl⟩
  · cases h
    exact ⟨rfl, rfl, rfl, rfl⟩
  · obtain ⟨v, -, rfl⟩ := Option.map_eq_some_iff.1 h
    exact ⟨rfl, rfl, rfl, rfl⟩
  · cases h
    exact ⟨rfl, rfl, rfl, rfl⟩
  · obtain ⟨v, -, rfl⟩ := Option.map_eq_some_iff.1 h
    exact ⟨rfl, rfl, rfl, rfl⟩
  · cases h
    exact ⟨rfl, rfl, rfl, rfl⟩
  · split at h
    · cases h
      exact ⟨rfl, rfl, rfl, rfl⟩
    · cases h
  · cases h
    exact ⟨rfl, rfl, rfl, rfl⟩
  · obtain ⟨v, -, rfl⟩ := Option.map_eq_some_iff.1 h
    exact ⟨rfl, rfl, rfl, rfl⟩

/-! ## Operations -/

/-- What happens to an open document, register edits included. -/
inductive Operation
  | mutate (m : Mutation)
  | edit (id : String) (edit : ItemEdit)

namespace Document

/-- One operation; `none` is an error, which writes nothing. -/
def act (d : Document) : Operation → Option Document
  | .mutate m => d.apply m
  | .edit id edit => d.editItem id edit

/-- What the callers and the CRDT promise.  Items that `delete_list` enters anew have ids of the
plain grammar. -/
def Trusts (d : Document) : Operation → Prop
  | .mutate (.deleteList l _ _) => ∀ id ∈ d.index.resolved l, PlainId id
  | .mutate m => d.Promised m
  | .edit _ _ => True

/-- The items that `empty_bin` deletes. -/
def binnedIds (d : Document) : List String :=
  (d.iterItems.filter fun v => v.binnedAt.isSome).map ItemView.id

end Document

/-- One open document under all its operations, booted from any content. -/
def openDocuments : Machine Document Operation where
  init d := ∃ c : Content, d = ⟨c, c.computeIndex⟩
  step := Document.act

/-! ## Places -/

/-- Nothing that decides where an item of the kind stands has changed. -/
structure Content.SamePlaces (p : String → Bool) (c c' : Content) : Prop where
  place : ∀ id, p id = true →
    (c'.metaOf id).map ItemMeta.place = (c.metaOf id).map ItemMeta.place
  entries : ∀ l, Content.entriesOf p (c'.slots l) = Content.entriesOf p (c.slots l)

/-- The operation moves, adds and removes no item of the kind. -/
def Document.Spares (d : Document) (p : String → Bool) : Operation → Prop
  | .mutate (.add _ news _ _ _) => ∀ n ∈ news, p n.id = false
  | .mutate (.move id _ _ _) => p id = false
  | .mutate (.deleteBinned ids) => ∀ id ∈ ids, p id = false
  | .mutate .emptyBin => ∀ id ∈ d.binnedIds, p id = false
  | .mutate (.deleteList l _ _) => ∀ id ∈ d.index.resolved l, p id = false
  | .mutate (.rebuilt content) => d.content.SamePlaces p content
  | .mutate (.frame _ post _) => d.content.SamePlaces p post.content
  | _ => True

section Places

variable {p : String → Bool} {c c' c'' : Content}

namespace Content.SamePlaces

theorem refl (p : String → Bool) (c : Content) : SamePlaces p c c :=
  ⟨fun _ _ => rfl, fun _ => rfl⟩

theorem trans (h : SamePlaces p c c') (h' : SamePlaces p c' c'') : SamePlaces p c c'' where
  place id hid := (h'.place id hid).trans (h.place id hid)
  entries l := (h'.entries l).trans (h.entries l)

/-- Where neither a location nor an order container is written. -/
theorem of_orders (horders : c'.orders = c.orders)
    (hplace : ∀ id, (c'.metaOf id).map ItemMeta.place = (c.metaOf id).map ItemMeta.place) :
    SamePlaces p c c' where
  place id _ := hplace id
  entries l := by
    rw [Content.slots, horders]
    rfl

theorem located (h : SamePlaces p c c') {id : String} (hid : p id = true) (l : String) :
    c'.Located l id ↔ c.Located l id := by
  have hiff : ∀ c : Content, c.Located l id ↔
      ((c.metaOf id).map ItemMeta.place).any (fun q => decide (q.1 = l)) = true := by
    intro c
    rw [Content.Located, Content.metaOf]
    cases c.item id <;> simp [ItemMeta.place]
  rw [hiff, hiff, h.place id hid]

theorem ageKey (h : SamePlaces p c c') {id : String} (hid : p id = true) :
    c'.ageKey id = c.ageKey id := by
  have hage : ∀ c : Content, (c.metaOf id).map ItemMeta.createdAt =
      ((c.metaOf id).map ItemMeta.place).map fun q => q.2.2 := by
    intro c
    rw [Option.map_map]
    rfl
  rw [Content.ageKey, Content.ageKey, hage, hage, h.place id hid]

/-- **Same places, same order.**  The items of the kind stand in every list as they stood. -/
theorem order (h : SamePlaces p c c') (l : String) :
    (c'.order l).filter p = (c.order l).filter p :=
  (mirrors_computeIndex c).resolved_filter (mirrors_computeIndex c') p
    (fun _ hid => h.located hid l) (fun _ hid => h.ageKey hid)
    (liveIds_filterOf h.place (h.entries l))

/-- The items of the kind that are open before and after stand in every open projection as they
stood. -/
theorem openOrder (h : SamePlaces p c c') (l : String) :
    (c'.openOrder l).filter (fun y => p y && c.openNow y) =
      (c.openOrder l).filter fun y => p y && c'.openNow y := by
  have hopen : ∀ c : Content, c.openOrder l = (c.order l).filter c.openNow := fun c => by
    rw [Content.openOrder, (mirrors_computeIndex c).openOf_eq_filter]
  rw [hopen, hopen, List.filter_filter, List.filter_filter]
  have hboth : ∀ (ids : List String) (q r : String → Bool),
      ids.filter (fun y => (p y && q y) && r y) = (ids.filter p).filter fun y => q y && r y := by
    intro ids q r
    rw [List.filter_filter]
    refine List.filter_congr fun y _ => ?_
    cases p y <;> cases q y <;> cases r y <;> rfl
  rw [hboth, hboth, h.order l]
  exact List.filter_congr fun y _ => Bool.and_comm _ _

end Content.SamePlaces

end Places

/-! ## Mirrors that lag -/

section Lags

variable {p : String → Bool} {c c' : Content} {idx idx' : ProjectionIndex} {d d' : Document}
  {l id placement : String} {m : ItemMap} {target : ℕ} {isOpen : Bool}

theorem lags_computeIndex (c : Content) : Lags c c.computeIndex := (agrees_computeIndex c).lags

theorem Lags.congr (h : Lags c idx) (hraw : ∀ l, idx'.rawOf l = idx.rawOf l)
    (hslots : ∀ l, c'.slots l = c.slots l) : Lags c' idx' := by
  intro l
  rw [hraw, hslots]
  exact h l

theorem Lags.of_sameBase (h : Lags c idx) (hs : SameBase idx idx') : Lags c idx' :=
  h.congr hs.rawOf fun _ => rfl

/-- An entry is put into the mirrored part. -/
theorem Lags.placed (h : Lags c idx) {s : Option OrderEntry} {pos : ℕ}
    (hpos : pos ≤ (idx.rawOf l).length)
    (hraw : ∀ l', idx'.rawOf l' = if l' = l then placeAt (idx.rawOf l) pos s else idx.rawOf l')
    (hslots : ∀ l', c'.slots l' = if l' = l then placeAt (c.slots l) pos s else c.slots l') :
    Lags c' idx' := by
  intro l'
  rw [hraw, hslots]
  by_cases hl : l' = l
  · rw [if_pos hl, if_pos hl]
    obtain ⟨rest, hrest⟩ := h l
    rw [← hrest, placeAt_append_of_le hpos]
    exact List.prefix_append _ _
  · rw [if_neg hl, if_neg hl]
    exact h l'

/-- The entries of some items are taken out of both, and no others. -/
theorem Lags.slots_removed (h : Lags c idx) (q : String → Bool) (l : String) :
    ∃ rest, c.slots l = idx.rawOf l ++ rest ∧
      removeAt (positionsOf (fun s => s.any fun e => q e.itemId) (idx.rawOf l)) (c.slots l) =
        ((idx.rawOf l).filter fun s => !s.any fun e => q e.itemId) ++ rest := by
  obtain ⟨rest, hrest⟩ := h l
  exact ⟨rest, hrest.symm, by rw [← hrest, removeAt_positionsOf_append]⟩

namespace Content.SamePlaces

/-- Another item's map is written, and an entry that names it is put into a container. -/
theorem placed {e : OrderEntry} {pos : ℕ} (he : p e.itemId = false)
    (hmeta : ∀ y, y ≠ e.itemId → c'.metaOf y = c.metaOf y)
    (hslots : ∀ l', c'.slots l' = if l' = l then placeAt (c.slots l) pos (some e)
      else c.slots l') : c.SamePlaces p c' where
  place y hy := by
    rw [hmeta y fun heq => by rw [heq, he] at hy; cases hy]
  entries l' := by
    rw [hslots]
    split
    · rename_i hl
      rw [hl, entriesOf_placeAt _ _ he]
    · rfl

end Content.SamePlaces

/-- Entries of items of another kind go from the mirrored part. -/
theorem Lags.entriesOf_removed (h : Lags c idx) {q : String → Bool}
    (hq : ∀ y, p y = true → q y = false) (l : String) :
    Content.entriesOf p
        (removeAt (positionsOf (fun s => s.any fun e => q e.itemId) (idx.rawOf l)) (c.slots l)) =
      Content.entriesOf p (c.slots l) := by
  obtain ⟨rest, hslots, hremoved⟩ := h.slots_removed q l
  rw [hremoved, entriesOf_append, entriesOf_filter hq, ← entriesOf_append, ← hslots]

/-! ### Adding -/

theorem rawOf_addOne (idx : ProjectionIndex) (l : String) (pos : ℕ) (n : NewItem) (l' : String) :
    (idx.addOne l pos n).rawOf l' =
      if l' = l then placeAt (idx.rawOf l) pos (some n.entry) else idx.rawOf l' := by
  rw [addOne_eq, (sameBase_bumpVisible _ _ _).rawOf, rawOf_setRaw, rawOf_setMeta]

theorem metaOf_addOne (c : Content) (state : WorkflowState) (author : Option String) (pos : ℕ)
    (n : NewItem) {y : String} (hy : y ≠ n.id) :
    (c.addOne l state author pos n).metaOf y = c.metaOf y := by
  rw [Content.metaOf, Content.addOne, Content.item_setOrder, Content.item_setItem, if_neg hy]
  rfl

theorem lags_addRun (state : WorkflowState) (author : Option String) (news : List NewItem)
    (hplain : ∀ n ∈ news, PlainId n.id) {pos : ℕ} (h : Lags c idx)
    (hpos : pos ≤ (idx.rawOf l).length) :
    Lags (c.addRun l state author pos news) (idx.addRun l pos news) := by
  induction news generalizing c idx pos with
  | nil => exact h
  | cons n news ih =>
    have hone : Lags (c.addOne l state author pos n) (idx.addOne l pos n) :=
      h.placed hpos (rawOf_addOne idx l pos n)
        (slots_addOne (hplain n List.mem_cons_self) state author pos)
    refine ih (fun n' hn' => hplain n' (List.mem_cons_of_mem _ hn')) hone ?_
    rw [rawOf_addOne, if_pos rfl, length_placeAt]
    exact Nat.succ_le_succ hpos

theorem samePlaces_addRun (state : WorkflowState) (author : Option String) (news : List NewItem)
    (hplain : ∀ n ∈ news, PlainId n.id) (hnot : ∀ n ∈ news, p n.id = false) (c : Content)
    (pos : ℕ) : c.SamePlaces p (c.addRun l state author pos news) := by
  induction news generalizing c pos with
  | nil => exact .refl p c
  | cons n news ih =>
    have hone : c.SamePlaces p (c.addOne l state author pos n) :=
      .placed (e := n.entry) (hnot n List.mem_cons_self)
        (fun y hy => metaOf_addOne c state author pos n hy)
        (slots_addOne (hplain n List.mem_cons_self) state author pos)
    exact hone.trans (ih (fun n' hn' => hplain n' (List.mem_cons_of_mem _ hn'))
      (fun n' hn' => hnot n' (List.mem_cons_of_mem _ hn')) _ _)

theorem sameBase_spliceRun (idx : ProjectionIndex) (l : String) (pos : OpenPos)
    (ids : List String) : SameBase idx (idx.spliceRun l pos ids) := by
  induction ids generalizing idx pos with
  | nil => exact .refl idx
  | cons id ids ih => exact (sameBase_spliceOpenIn idx l id pos).trans (ih _ _)

theorem addItemsAt_keeps (h : Lags d.content d.index) {news : List NewItem} {state : WorkflowState}
    {author : Option String} (hplain : ∀ n ∈ news, PlainId n.id)
    (hadd : d.addItemsAt l news target state author = some d') :
    Lags d'.content d'.index ∧
      ((∀ n ∈ news, p n.id = false) → d.content.SamePlaces p d'.content) := by
  unfold Document.addItemsAt at hadd
  split at hadd
  · cases hadd
  split at hadd
  · cases hadd
  split at hadd
  · cases hadd
  split at hadd
  · cases hadd
    exact ⟨h, fun _ => .refl p _⟩
  cases hadd
  refine ⟨?_, fun hnot => samePlaces_addRun state author news hplain hnot _ _⟩
  have hrun := lags_addRun state author news hplain h
    (planTarget_rawPos_le d.index l target true none)
  dsimp only
  split
  · exact hrun.of_sameBase (sameBase_refreshOpen _ _)
  · exact hrun.of_sameBase (sameBase_spliceRun _ _ _ _)

/-! ### Moving -/

theorem moveDest_lt {source pos n : ℕ} (hsource : source < n) (hpos : pos ≤ n) :
    moveDest source pos < n := by
  unfold moveDest
  split
  · omega
  · omega

theorem replaceEntry_keeps (h : Lags d.content d.index) (hid : PlainId id) :
    Lags (d.replaceEntry id m l target isOpen placement).content
        (d.replaceEntry id m l target isOpen placement).index ∧
      (p id = false →
        d.content.SamePlaces p (d.replaceEntry id m l target isOpen placement).content) := by
  have hslots : ∀ l', (d.replaceEntry id m l target isOpen placement).content.slots l' =
      if l' = l then placeAt (d.content.slots l)
        (d.index.planTarget l target isOpen (some id)).rawPos (some ⟨id, placement⟩)
      else d.content.slots l' := by
    intro l'
    rw [Document.replaceEntry, Content.slots_setOrder, map_placeAt, Option.bind_some,
      OrderEntry.parse_encode (e := ⟨id, placement⟩) hid]
    rfl
  constructor
  · have hbase : Lags (d.replaceEntry id m l target isOpen placement).content
        (d.index.replaced id placement l
          (d.index.planTarget l target isOpen (some id)).rawPos) :=
      h.placed (planTarget_rawPos_le _ _ _ _ _) (rawOf_replaced _ _ _ _ · _) hslots
    exact hbase.of_sameBase (sameBase_refreshOpen _ _)
  · intro hp
    refine .placed (e := ⟨id, placement⟩) hp (fun y hy => ?_) hslots
    rw [Document.replaceEntry, Content.metaOf, Content.item_setOrder, Content.item_setItem,
      if_neg hy]
    rfl

theorem reorderInList_keeps (h : Lags d.content d.index) (hid : PlainId id) :
    Lags (d.reorderInList id m l target isOpen placement).content
        (d.reorderInList id m l target isOpen placement).index ∧
      (p id = false →
        d.content.SamePlaces p (d.reorderInList id m l target isOpen placement).content) := by
  unfold Document.reorderInList
  cases hsource : d.index.canonicalRawPos l id with
  | none => exact replaceEntry_keeps h hid
  | some source =>
    dsimp only
    have hpos := planTarget_rawPos_le d.index l target isOpen (some id)
    generalize d.index.planTarget l target isOpen (some id) = plan at hpos
    obtain ⟨slice, -, -, hget, -⟩ := canonicalRawPos_eq_some hsource
    have hlt : source < (d.index.rawOf l).length := (List.getElem?_eq_some_iff.1 hget).1
    have hdest := moveDest_lt hlt hpos
    generalize moveDest source plan.rawPos = dest at hdest
    split
    · exact ⟨h, fun _ => .refl p _⟩
    obtain ⟨rest, hrest⟩ := h l
    have hmoved : ∀ l', (d.content.setOrder l
        (moveWithin (d.content.orders l) source dest)).slots l' =
          if l' = l then moveWithin (d.content.slots l) source dest else d.content.slots l' := by
      intro l'
      rw [Content.slots_setOrder, map_moveWithin]
      rfl
    constructor
    · have hbase : Lags (d.content.setOrder l (moveWithin (d.content.orders l) source dest))
          (d.index.mapRaw l fun raw => moveWithin raw source dest) := by
        intro l'
        rw [hmoved, rawOf_mapRaw _ _ _ rfl]
        by_cases hl : l' = l
        · rw [if_pos hl, if_pos hl, ← hrest, moveWithin_append hlt hdest]
          exact List.prefix_append _ _
        · rw [if_neg hl, if_neg hl]
          exact h l'
      dsimp only
      split
      · exact hbase
      split
      · exact hbase.of_sameBase (sameBase_refreshOpen _ _)
      · exact hbase.of_sameBase (sameBase_spliceOpenIn _ _ _ _)
    · intro hp
      refine ⟨fun _ _ => rfl, fun l' => ?_⟩
      dsimp only
      rw [hmoved]
      split
      · rename_i hl
        rw [hl]
        refine entriesOf_moveWithin (e := ⟨id, slice.placementId⟩) ?_ hp
        rw [← hrest, List.getElem?_append_left hlt]
        exact hget
      · rfl

theorem moveAcrossLists_keeps (h : Lags d.content d.index) (hid : PlainId id) {current : String}
    (hne : current ≠ l) :
    Lags (d.moveAcrossLists id m current l target isOpen placement).content
        (d.moveAcrossLists id m current l target isOpen placement).index ∧
      (p id = false →
        d.content.SamePlaces p
          (d.moveAcrossLists id m current l target isOpen placement).content) := by
  rw [moveAcrossLists_eq]
  dsimp only
  have hpos := planTarget_rawPos_le d.index l target isOpen none
  generalize d.index.planTarget l target isOpen none = plan at hpos
  have hslots := d.content.slots_cross hid hne m placement plan.rawPos
    (d.index.entryPositions current id)
  obtain ⟨-, hraw, -, -⟩ := cross_get d.index id
    ⟨l, placement, isOpen, m.createdAt.getD 0⟩ current plan.rawPos
    (d.index.entryPositions current id)
  constructor
  · have hbase : Lags
        (d.content.cross id m current l placement plan.rawPos (d.index.entryPositions current id))
        (d.index.cross id ⟨l, placement, isOpen, m.createdAt.getD 0⟩ current plan.rawPos
          (d.index.entryPositions current id)) := by
      intro l'
      rw [hslots, rawOf, hraw hne]
      by_cases hl : l' = l
      · rw [if_pos hl, if_pos hl, Option.getD_some]
        obtain ⟨rest, hrest⟩ := h l
        rw [← hrest, placeAt_append_of_le hpos]
        exact List.prefix_append _ _
      rw [if_neg hl, if_neg hl]
      by_cases hcur : l' = current
      · rw [if_pos hcur, if_pos hcur, entryPositions]
        obtain ⟨rest, -, hremoved⟩ := h.slots_removed (fun y => decide (y = id)) current
        rw [hremoved]
        cases hget : d.index.rawOrders.get current with
        | none => exact List.nil_prefix
        | some raw =>
          rw [rawOf, hget, Option.getD_some, Option.map_some, Option.getD_some,
            removeAt_positionsOf]
          exact List.prefix_append _ _
      · rw [if_neg hcur, if_neg hcur]
        exact h l'
    split
    · have hspliced : ∀ base : ProjectionIndex, SameBase base
          (((if (d.index.canonicalRawPos current id).isSome then base.bumpVisible current (-1)
            else base).bumpVisible l 1).spliceOpenOut current id) := by
        intro base
        refine SameBase.trans ?_ (sameBase_spliceOpenOut _ current id)
        split
        · exact (sameBase_bumpVisible _ _ _).trans (sameBase_bumpVisible _ _ _)
        · exact sameBase_bumpVisible _ _ _
      split
      · exact hbase.of_sameBase ((hspliced _).trans (sameBase_refreshOpen _ _))
      · exact hbase.of_sameBase ((hspliced _).trans (sameBase_spliceOpenIn _ _ _ _))
    · exact hbase
  · intro hp
    refine ⟨fun y hy => ?_, fun l' => ?_⟩
    · have hy' : y ≠ id := fun heq => by
        rw [heq, hp] at hy
        cases hy
      rw [Content.metaOf, Content.cross, Content.item_setOrder, Content.item_setOrder,
        Content.item_setItem, if_neg hy']
      rfl
    · rw [hslots]
      split
      · rename_i hl
        rw [hl, entriesOf_placeAt _ _ (e := ⟨id, placement⟩) hp]
      split
      · rename_i hcur
        rw [hcur, entryPositions]
        refine h.entriesOf_removed (q := fun y => decide (y = id)) (fun y hy => ?_) current
        refine decide_eq_false fun heq => ?_
        rw [heq, hp] at hy
        cases hy
      · rfl

theorem moveItem_keeps (h : Lags d.content d.index) (hid : PlainId id)
    (hmove : d.moveItem id l target placement = some d') :
    Lags d'.content d'.index ∧ (p id = false → d.content.SamePlaces p d'.content) := by
  unfold Document.moveItem at hmove
  split at hmove
  · cases hmove
  split at hmove
  · split at hmove
    · cases hmove
      exact reorderInList_keeps h hid
    · rename_i hne
      cases hmove
      exact moveAcrossLists_keeps h hid hne
  · cases hmove

/-! ### Lifecycle -/

theorem rawOrders_syncItemOpenness (idx : ProjectionIndex) (id : String) (openNow : Bool) :
    (idx.syncItemOpenness id openNow).rawOrders = idx.rawOrders := by
  unfold syncItemOpenness
  cases hm : idx.metas.get id with
  | none =>
    rw [setOpen, hm]
    rfl
  | some slice =>
    obtain ⟨base, hset, -, -, hraw, -⟩ := setOpen_eq hm openNow
    rw [hset]
    dsimp only
    split
    · split
      · rw [(sameBase_spliceOpenOut _ _ _).rawOrders, (sameBase_bumpVisible _ _ _).rawOrders, hraw]
      · rw [(sameBase_spliceOpenOut _ _ _).rawOrders, hraw]
    · split
      · exact hraw
      · rw [(sameBase_refreshOpen _ _).rawOrders, hraw]

theorem lags_patchLifecycle {write : LifecycleWrite} {now : ℤ} (h : Lags d.content d.index)
    (ids : List String) :
    Lags (d.patchLifecycle ids write now).content (d.patchLifecycle ids write now).index := by
  unfold Document.patchLifecycle
  induction ids generalizing d with
  | nil => exact h
  | cons id ids ih =>
    refine ih ?_
    unfold Document.syncLifecycle
    cases (d.content.item id).bind fun m => applyLifecycleWrite m write now with
    | none => exact h
    | some m =>
      refine h.congr (fun l => ?_) fun l => rfl
      rw [rawOf, rawOrders_syncItemOpenness]
      rfl

theorem setItemsLifecycle_keeps {write : LifecycleWrite} {now : ℤ} {ids : List String}
    (h : Lags d.content d.index) (hset : d.setItemsLifecycle ids write now = some d') :
    Lags d'.content d'.index ∧ d.content.SamePlaces p d'.content := by
  constructor
  · unfold Document.setItemsLifecycle at hset
    split at hset
    · cases hset
      exact h
    split at hset
    · cases hset
    split at hset
    · cases hset
      unfold Document.rebuildLifecycle
      split
      · exact lags_computeIndex _
      · exact h
    · cases hset
      exact lags_patchLifecycle h ids
  · have honly : Content.LifecycleOnly d.content
        (ids.foldl (Document.writeLifecycle write now) d.content) :=
      .foldl_writeLifecycle d.content ids
    rw [← (setItemsLifecycle_content hset).2] at honly
    exact .of_orders honly.orders honly.meta_

/-! ### Deleting -/

theorem rawOrders_foldl_removeItem (ids : List String) (idx : ProjectionIndex) :
    (ids.foldl removeItem idx).rawOrders = idx.rawOrders := by
  induction ids generalizing idx with
  | nil => rfl
  | cons id ids ih => exact (ih _).trans (removeItem_rest idx id).1

theorem sameBase_foldl_withdraw (before : ProjectionIndex) (ids : List String)
    (idx : ProjectionIndex) : SameBase idx (ids.foldl (Document.withdraw before) idx) := by
  induction ids generalizing idx with
  | nil => exact .refl idx
  | cons id ids ih =>
    refine SameBase.trans ?_ (ih _)
    unfold Document.withdraw
    split
    · exact .refl idx
    · dsimp only
      split
      · exact (sameBase_spliceOpenOut _ _ _).trans (sameBase_bumpVisible _ _ _)
      · exact sameBase_spliceOpenOut _ _ _

theorem item_hardDeleteItems (d : Document) (ids : List String) (y : String) :
    (d.hardDeleteItems ids).content.item y = if y ∈ ids then none else d.content.item y := by
  rw [Document.hardDeleteItems, Content.item]
  dsimp only
  rw [foldl_erase_get]
  split <;> rfl

theorem slots_hardDeleteItems (d : Document) (ids : List String) (l : String) :
    (d.hardDeleteItems ids).content.slots l =
      removeAt (positionsOf (fun s => s.any fun e =>
        decide (e.itemId ∈ Document.locatedAmong d.index ids l)) (d.index.rawOf l))
        (d.content.slots l) := by
  rw [← deletedPositions_eq]
  exact map_removeAt _ _ _

theorem hardDeleteItems_keeps (h : Lags d.content d.index) (ids : List String) :
    Lags (d.hardDeleteItems ids).content (d.hardDeleteItems ids).index ∧
      ((∀ id ∈ ids, p id = false) → d.content.SamePlaces p (d.hardDeleteItems ids).content) := by
  constructor
  · intro l
    have hraw : (d.hardDeleteItems ids).index.rawOf l = ((d.index.rawOf l).filter fun s =>
        !s.any fun e => decide (e.itemId ∈ Document.locatedAmong d.index ids l)) := by
      rw [← removeAt_positionsOf, ← deletedPositions_eq, Document.hardDeleteItems]
      dsimp only
      rw [(sameBase_foldl_withdraw _ _ _).rawOf, rawOf, rawOrders_foldl_removeItem,
        FMap.get_mapWithKey, rawOf]
      cases hget : d.index.rawOrders.get l with
      | none =>
        rw [deletedPositions_eq, rawOf, hget]
        rfl
      | some raw => rfl
    obtain ⟨rest, -, hremoved⟩ := h.slots_removed
      (fun y => decide (y ∈ Document.locatedAmong d.index ids l)) l
    rw [hraw, slots_hardDeleteItems, hremoved]
    exact List.prefix_append _ _
  · intro hnot
    have hin : ∀ y, p y = true → y ∉ ids := fun y hy hmem => by
      rw [hnot y hmem] at hy
      cases hy
    refine ⟨fun y hy => ?_, fun l => ?_⟩
    · rw [Content.metaOf, item_hardDeleteItems, if_neg (hin y hy)]
      rfl
    · rw [slots_hardDeleteItems]
      refine h.entriesOf_removed
        (q := fun y => decide (y ∈ Document.locatedAmong d.index ids l)) (fun y hy => ?_) l
      exact decide_eq_false fun hmem => hin y hy (mem_locatedAmong.1 hmem).1

theorem discard_samePlaces {placing : String → String} {now : ℤ} (hid : PlainId id)
    (hp : p id = false) (c : Content) : c.SamePlaces p (c.discard placing now id) := by
  unfold Content.discard
  cases hm : c.item id with
  | none => exact .refl p c
  | some m =>
    dsimp only
    refine Content.SamePlaces.placed (e := ⟨id, placing id⟩) (l := LIST_INBOX) hp
      (fun y hy => ?_) fun l' => (?_ : _ = if l' = LIST_INBOX then
        placeAt (c.slots LIST_INBOX) (c.slots LIST_INBOX).length (some ⟨id, placing id⟩)
      else c.slots l')
    · rw [Content.metaOf, Content.item_setOrder, Content.item_setItem, if_neg hy]
      rfl
    · rw [Content.slots_setOrder, placeAt_of_length_le le_rfl, List.map_append, List.map_singleton,
        Option.bind_some, OrderEntry.parse_encode (e := ⟨id, placing id⟩) hid]
      rfl

theorem deleteList_keeps {placing : String → String} {now : ℤ}
    (hplain : ∀ id ∈ d.index.resolved l, PlainId id)
    (hdel : d.deleteList l placing now = some d') :
    Lags d'.content d'.index ∧
      ((∀ id ∈ d.index.resolved l, p id = false) → d.content.SamePlaces p d'.content) := by
  unfold Document.deleteList at hdel
  split at hdel
  · cases hdel
  split at hdel
  · cases hdel
  cases hdel
  refine ⟨lags_computeIndex _, fun hnot => ?_⟩
  have hrun : ∀ (ids : List String) (c : Content), (∀ id ∈ ids, PlainId id) →
      (∀ id ∈ ids, p id = false) → c.SamePlaces p (ids.foldl (Content.discard placing now) c) := by
    intro ids
    induction ids with
    | nil => exact fun c _ _ => .refl p c
    | cons id ids ih =>
      intro c hids hout
      exact (discard_samePlaces (hids id List.mem_cons_self) (hout id List.mem_cons_self) c).trans
        (ih _ (fun y hy => hids y (List.mem_cons_of_mem _ hy))
          fun y hy => hout y (List.mem_cons_of_mem _ hy))
  refine (hrun _ d.content hplain hnot).trans ?_
  exact .of_orders rfl fun _ => rfl

/-! ### Frames -/

theorem lags_importFrame {preSettings : Settings} {post : Workspace} {diffs : List CapturedDiff}
    (h : Lags c idx) (hc : Captures c post.content diffs) :
    Lags post.content (importFrame idx c.allLists preSettings post diffs).1 := by
  unfold importFrame
  cases ht : translate idx c.allLists preSettings post diffs with
  | none => exact lags_computeIndex _
  | some r =>
    obtain ⟨pl, hplan, hpl⟩ := Option.bind_eq_some_iff.1 ht
    obtain ⟨evs, -, rfl⟩ := Option.map_eq_some_iff.1 hpl
    have hplanned := planned_of_plan hplan
    intro l
    show ((pl.commit idx).rawOrders.get l).getD [] <+: _
    rw [pl.commit_rawOrders]
    cases hs : pl.gathered.shadows.get l with
    | some shadow =>
      rw [hplanned.shadow_eq hc h hs]
      exact List.prefix_rfl
    | none =>
      have hsame := hc.orders l
      rw [(hplanned.noShadow l).1 hs, applyDeltas, Option.some.injEq] at hsame
      rw [Content.slots, ← hsame]
      exact h l

/-! ### One operation -/

theorem lists_samePlaces {rows : List (Option ListRow)} :
    c.SamePlaces p { c with lists := rows } :=
  .of_orders rfl fun _ => rfl

theorem editItem_keeps {edit : ItemEdit} (h : Lags d.content d.index)
    (hedit : d.editItem id edit = some d') :
    Lags d'.content d'.index ∧ d.content.SamePlaces p d'.content := by
  unfold Document.editItem at hedit
  split at hedit
  · cases hedit
  obtain ⟨m', hm', rfl⟩ := Option.map_eq_some_iff.1 hedit
  obtain ⟨m, hm, happly⟩ := Option.bind_eq_some_iff.1 hm'
  obtain ⟨hloc, hcreated, -⟩ := ItemEdit.apply_keeps happly
  refine ⟨h, .of_orders rfl fun y => ?_⟩
  rw [Content.metaOf, Content.metaOf, Content.item_setItem]
  by_cases hy : y = id
  · rw [if_pos hy, hy, hm, Option.map_some, Option.map_some, itemMeta_congr hloc hcreated]
    rfl
  · rw [if_neg hy]

/-- **One operation** changes the place of no item but those it moves, adds or removes, and no
mirror gets ahead of its container. -/
theorem act_keeps {op : Operation} (h : Lags d.content d.index) (htrust : d.Trusts op)
    (hact : d.act op = some d') :
    Lags d'.content d'.index ∧ (d.Spares p op → d.content.SamePlaces p d'.content) := by
  cases op with
  | edit id edit =>
    obtain ⟨hlags, hplaces⟩ := editItem_keeps h hact
    exact ⟨hlags, fun _ => hplaces⟩
  | mutate m =>
    cases m with
    | add l news target state author =>
      exact addItemsAt_keeps h (fun n hn => (htrust.2.2 n hn).plain) hact
    | move id l target placement => exact moveItem_keeps h htrust.1 hact
    | lifecycle ids write now =>
      obtain ⟨hlags, hplaces⟩ := setItemsLifecycle_keeps h hact
      exact ⟨hlags, fun _ => hplaces⟩
    | deleteBinned ids =>
      replace hact : d.deleteBinnedItems ids = some d' := hact
      unfold Document.deleteBinnedItems at hact
      split at hact
      · cases hact
        exact ⟨h, fun _ => .refl p _⟩
      split at hact
      · cases hact
      split at hact
      · cases hact
      split at hact
      · cases hact
      · cases hact
        exact hardDeleteItems_keeps h ids
    | emptyBin =>
      obtain rfl : d.emptyBin = d' := Option.some.inj hact
      unfold Document.emptyBin
      dsimp only
      split
      · exact ⟨h, fun _ => .refl p _⟩
      · exact hardDeleteItems_keeps h d.binnedIds
    | deleteList l placing now => exact deleteList_keeps htrust hact
    | addList id name now =>
      replace hact : d.addList id name now = some d' := hact
      unfold Document.addList at hact
      split at hact
      · cases hact
      · cases hact
        exact ⟨h, fun _ => lists_samePlaces⟩
    | editList l edit =>
      replace hact : d.editList l edit = some d' := hact
      unfold Document.editList at hact
      split at hact
      · cases hact
      · obtain ⟨row, -, rfl⟩ := Option.map_eq_some_iff.1 hact
        exact ⟨h, fun _ => lists_samePlaces⟩
    | moveList l dest =>
      replace hact : d.moveList l dest = some d' := hact
      unfold Document.moveList at hact
      split at hact
      · cases hact
      · obtain ⟨row, -, rfl⟩ := Option.map_eq_some_iff.1 hact
        exact ⟨h, fun _ => lists_samePlaces⟩
    | rebuilt content =>
      cases hact
      exact ⟨lags_computeIndex content, id⟩
    | frame preSettings post diffs =>
      cases hact
      exact ⟨lags_importFrame h htrust.1, id⟩

/-- No mirror is ever ahead of its container. -/
theorem reach_lags (h : openDocuments.Reach Document.Trusts d) : Lags d.content d.index := by
  induction h with
  | init h0 =>
    obtain ⟨c, rfl⟩ := h0
    exact lags_computeIndex c
  | step _ htrust hact ih =>
    exact (act_keeps (p := fun _ => true) ih htrust hact).1

end Lags

end Monoplan.Doc
