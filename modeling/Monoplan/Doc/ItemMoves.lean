import Monoplan.Doc.Incremental

/-!
# Where a move puts an item

Positions are given in the open projection, and written to a container that also holds closed,
stale and repeated entries.

* `openOrder c l` and `order c l` are what a freshly computed index shows of a list.
* `ItemMovedTo`: the other items keep their order in every list, the item is in the target list
  only, and it stands at the position it was moved to.
* `openOrder_filter`: entries that name the item do not matter to the order of the others.
* `moveItem_iff`: a move does this exactly if no other open item is first shown between another
  live entry of the item and its destination (`KeepsPlace`).
-/

namespace Monoplan.Doc

open Monoplan.Base ProjectionIndex

namespace Content

/-- The resolved order of a list, as an index that is computed from the containers shows it. -/
def order (c : Content) (l : String) : List String := c.computeIndex.resolved l

/-- The open projection of a list, as an index that is computed from the containers shows it. -/
def openOrder (c : Content) (l : String) : List String := c.computeIndex.openOf l

/-- No other open item of the list is in the fallback tail. -/
def NoTail (c : Content) (l id : String) : Prop :=
  ∀ y, c.Located l y → c.openNow y = true → y ≠ id → y ∈ c.liveIds l

/-- The item was moved to a position of the open projection of a list. -/
structure ItemMovedTo (c c' : Content) (id l : String) (target : ℕ) : Prop where
  /-- The other open items of every list stand as they stood. -/
  others : ∀ k, (c'.openOrder k).filter (fun y => y ≠ id) =
    (c.openOrder k).filter fun y => y ≠ id
  /-- The item is in the target list and in no other. -/
  only : ∀ k, id ∈ c'.order k ↔ k = l
  /-- It stands at the target, or last. -/
  position : c.openNow id = true → c.NoTail l id →
    (c'.openOrder l)[min target ((c.openOrder l).filter fun y => y ≠ id).length]? = some id

/-- The entries that name items of a kind. -/
def entriesOf (p : String → Bool) (raw : List (Option OrderEntry)) : List OrderEntry :=
  (raw.filterMap fun s => s).filter fun e => p e.itemId

/-- The entries that name other items. -/
def entriesBut (id : String) (raw : List (Option OrderEntry)) : List OrderEntry :=
  (raw.filterMap fun s => s).filter fun e => e.itemId ≠ id

end Content

/-- All that decides where an item stands, apart from the entries that name it. -/
def ItemMeta.place (s : ItemMeta) : String × String × ℤ := (s.listId, s.placementId, s.createdAt)

/-! ## What an index that mirrors the containers shows -/

section Shown

variable {c c' : Content} {idx : ProjectionIndex} {l id : String}

theorem mirrors_computeIndex (c : Content) : Mirrors c c.computeIndex :=
  (computed_computeIndex c).mirrors

theorem Mirrors.openOf_eq_filter (h : Mirrors c idx) (l : String) :
    idx.openOf l = (c.order l).filter c.openNow := by
  rw [openOf_eq h.membership, h.isOpenItem_eq, (mirrors_computeIndex c).resolved_eq h]
  rfl

theorem Mirrors.openOf_eq (h : Mirrors c idx) (l : String) : idx.openOf l = c.openOrder l := by
  rw [h.openOf_eq_filter, Content.openOrder, (mirrors_computeIndex c).openOf_eq_filter]

theorem mem_order : id ∈ c.order l ↔ c.Located l id := (mirrors_computeIndex c).mem_resolved

theorem mem_openOrder : id ∈ c.openOrder l ↔ c.Located l id ∧ c.openNow id = true := by
  rw [Content.openOrder, (mirrors_computeIndex c).openOf_eq_filter, List.mem_filter, mem_order]

theorem openOrder_nodup (c : Content) (l : String) : (c.openOrder l).Nodup :=
  openOf_nodup (mirrors_computeIndex c).membership l

/-- The open part of what the entries show. -/
theorem Mirrors.mem_openVisible (h : Mirrors c idx) :
    id ∈ idx.openVisible l ↔ id ∈ c.liveIds l ∧ c.openNow id = true := by
  rw [openVisible, List.mem_filter, h.visibleIds_eq, h.isOpenItem_eq]

/-- Without a fallback tail the other open items are those the entries show. -/
theorem Mirrors.filter_openOf (h : Mirrors c idx) (hno : c.NoTail l id) :
    (idx.openOf l).filter (fun y => y ≠ id) = (idx.openVisible l).filter fun y => y ≠ id := by
  rw [openOf_eq_append h.membership, List.filter_append]
  refine (congrArg _ (List.filter_eq_nil_iff.2 fun y hy => ?_)).trans (List.append_nil _)
  obtain ⟨hmem, hout⟩ := Finset.mem_filter.1 (mem_sortOn.1 hy)
  have hboth := (h.openOf_eq l) ▸ (mem_openOf h.membership).2 hmem
  obtain ⟨hloc, hopen⟩ := mem_openOrder.1 hboth
  simp only [decide_eq_true_eq]
  exact fun hne => hout (h.mem_openVisible.2 ⟨hno y hloc hopen hne, hopen⟩)

theorem Mirrors.openOf_of_noTail (h : Mirrors c idx) (hno : c.NoTail l id)
    (hid : id ∈ idx.openVisible l) : idx.openOf l = idx.openVisible l := by
  rw [openOf_eq_append h.membership]
  refine (congrArg _ ?_).trans (List.append_nil _)
  refine List.eq_nil_iff_forall_not_mem.2 fun y hy => ?_
  obtain ⟨hmem, hout⟩ := Finset.mem_filter.1 (mem_sortOn.1 hy)
  have hboth := (h.openOf_eq l) ▸ (mem_openOf h.membership).2 hmem
  obtain ⟨hloc, hopen⟩ := mem_openOrder.1 hboth
  exact hout (h.mem_openVisible.2 ⟨hno y hloc hopen fun heq => hout (heq ▸ hid), hopen⟩)

/-- What the entries show stands in the open projection where it stands among them. -/
theorem getElem?_openOf (h : idx.Membership) (hid : id ∈ idx.openVisible l) (k : ℕ) :
    (idx.openOf l)[k]? = some id ↔ (idx.openVisible l)[k]? = some id := by
  have hnodup := openOf_nodup h l
  rw [openOf_eq_append h] at hnodup ⊢
  generalize sortOn idx.tailKey idx.tailKey_injective _ = rest at *
  constructor
  · intro hat
    obtain ⟨j, hj, hget⟩ := List.mem_iff_getElem.1 hid
    have hat' : (idx.openVisible l ++ rest)[j]? = some id := by
      rw [List.getElem?_append_left hj, List.getElem?_eq_getElem hj, hget]
    obtain ⟨_, hget₁⟩ := List.getElem?_eq_some_iff.1 hat
    obtain ⟨_, hget₂⟩ := List.getElem?_eq_some_iff.1 hat'
    rw [(List.Nodup.getElem_inj_iff hnodup).1 (hget₁.trans hget₂.symm),
      List.getElem?_eq_getElem hj, hget]
  · intro hat
    rw [List.getElem?_append_left (List.getElem?_eq_some_iff.1 hat).1, hat]

theorem ItemMeta.place_eq {s s' : ItemMeta} (h : s'.place = s.place) :
    s'.listId = s.listId ∧ s'.placementId = s.placementId ∧ s'.createdAt = s.createdAt := by
  simpa [ItemMeta.place] using h

variable {p : String → Bool}

/-- Only the entries that name items of a kind matter to which of these are shown, and in what
order. -/
theorem liveIds_filterOf
    (hplace : ∀ y, p y = true → (c'.metaOf y).map ItemMeta.place = (c.metaOf y).map ItemMeta.place)
    (hentries : Content.entriesOf p (c'.slots l) = Content.entriesOf p (c.slots l)) :
    (c'.liveIds l).filter p = (c.liveIds l).filter p := by
  have hshown : ∀ c : Content, (c.liveIds l).filter p =
      firsts (((Content.entriesOf p (c.slots l)).filter (c.live l)).map OrderEntry.itemId) := by
    intro c
    rw [Content.liveIds, filter_firsts, List.filter_map, Content.liveEntries, Content.entriesOf,
      List.filter_comm]
    rfl
  rw [hshown, hshown, hentries]
  congr 2
  refine List.filter_congr fun e he => ?_
  have hsame := hplace e.itemId (List.mem_filter.1 he).2
  rw [Content.live, Content.live]
  cases hs : c.metaOf e.itemId with
  | none =>
    rw [hs, Option.map_none, Option.map_eq_none_iff] at hsame
    rw [hsame]
  | some s =>
    rw [hs, Option.map_some] at hsame
    obtain ⟨s', hs', hplaces⟩ := Option.map_eq_some_iff.1 hsame
    obtain ⟨hlist, hplacement, -⟩ := ItemMeta.place_eq hplaces
    rw [hs']
    dsimp only
    rw [hlist, hplacement]

/-- Entries that name an item do not matter to the others. -/
theorem liveIds_filter (hitem : ∀ y, y ≠ id → c'.item y = c.item y)
    (hentries : Content.entriesBut id (c'.slots l) = Content.entriesBut id (c.slots l)) :
    (c'.liveIds l).filter (fun y => y ≠ id) = (c.liveIds l).filter fun y => y ≠ id := by
  refine liveIds_filterOf (fun y hy => ?_) hentries
  rw [Content.metaOf, hitem y (of_decide_eq_true hy)]
  rfl

/-- **The others.**  Where only the item and entries that name it have changed, every other open
item stands as it stood. -/
theorem openOrder_filter (hitem : ∀ y, y ≠ id → c'.item y = c.item y)
    (hentries : Content.entriesBut id (c'.slots l) = Content.entriesBut id (c.slots l)) :
    (c'.openOrder l).filter (fun y => y ≠ id) = (c.openOrder l).filter fun y => y ≠ id := by
  have hres := (mirrors_computeIndex c).resolved_filter (mirrors_computeIndex c') (l := l)
    (fun y => decide (y ≠ id)) (fun y hy => ?_) (fun y hy => ?_) (liveIds_filter hitem hentries)
  · rw [Content.openOrder, Content.openOrder, (mirrors_computeIndex c).openOf_eq_filter,
      (mirrors_computeIndex c').openOf_eq_filter, List.filter_comm, List.filter_comm (q := c.openNow),
      Content.order, Content.order, hres]
    refine List.filter_congr fun y hy => ?_
    have hne : y ≠ id := of_decide_eq_true (List.mem_filter.1 hy).2
    rw [Content.openNow, hitem y hne]
    rfl
  · rw [Content.Located, hitem y (of_decide_eq_true hy)]
    rfl
  · rw [Content.ageKey, Content.metaOf, hitem y (of_decide_eq_true hy)]
    rfl

theorem entriesOf_append (p : String → Bool) (xs ys : List (Option OrderEntry)) :
    Content.entriesOf p (xs ++ ys) = Content.entriesOf p xs ++ Content.entriesOf p ys := by
  rw [Content.entriesOf, List.filterMap_append, List.filter_append]
  rfl

@[simp] theorem entriesOf_placeAt (raw : List (Option OrderEntry)) (i : ℕ) {e : OrderEntry}
    (he : p e.itemId = false) :
    Content.entriesOf p (placeAt raw i (some e)) = Content.entriesOf p raw := by
  have hsplit : raw = raw.take i ++ raw.drop i := (List.take_append_drop _ _).symm
  have hout : Content.entriesOf p (some e :: raw.drop i) = Content.entriesOf p (raw.drop i) := by
    rw [Content.entriesOf, List.filterMap_cons_some (f := fun s => s) (b := e) rfl,
      List.filter_cons_of_neg (by simp [he])]
    rfl
  rw [placeAt, entriesOf_append, hout, ← entriesOf_append, ← hsplit]

theorem entriesOf_moveWithin {raw : List (Option OrderEntry)} {source dest : ℕ} {e : OrderEntry}
    (hget : raw[source]? = some (some e)) (he : p e.itemId = false) :
    Content.entriesOf p (moveWithin raw source dest) = Content.entriesOf p raw := by
  have hback : raw = placeAt (raw.eraseIdx source) source (some e) := by
    have hself := moveWithin_self raw source
    rw [moveWithin, hget] at hself
    exact hself.symm
  rw [moveWithin, hget]
  dsimp only
  rw [entriesOf_placeAt _ _ he]
  conv_rhs => rw [hback, entriesOf_placeAt _ _ he]

/-- Entries that name items of another kind may go. -/
theorem entriesOf_filter {q : String → Bool} (hq : ∀ y, p y = true → q y = false)
    (raw : List (Option OrderEntry)) :
    Content.entriesOf p (raw.filter fun s => !s.any fun e => q e.itemId) =
      Content.entriesOf p raw := by
  induction raw with
  | nil => rfl
  | cons s raw ih =>
    cases s with
    | none => simpa [Content.entriesOf] using ih
    | some e =>
      by_cases he : q e.itemId = true
      · have hout : p e.itemId = false := Bool.eq_false_iff.2 fun hp => by
          rw [hq _ hp] at he
          cases he
        simpa [Content.entriesOf, he, hout] using ih
      · by_cases hp : p e.itemId = true
        · simpa [Content.entriesOf, he, hp] using ih
        · simpa [Content.entriesOf, he, hp] using ih

@[simp] theorem entriesBut_placeAt (raw : List (Option OrderEntry)) (i : ℕ) {e : OrderEntry}
    (he : e.itemId = id) :
    Content.entriesBut id (placeAt raw i (some e)) = Content.entriesBut id raw :=
  entriesOf_placeAt (p := fun y => y ≠ id) raw i (by simpa using he)

theorem entriesBut_moveWithin {raw : List (Option OrderEntry)} {source dest : ℕ} {e : OrderEntry}
    (hget : raw[source]? = some (some e)) (he : e.itemId = id) :
    Content.entriesBut id (moveWithin raw source dest) = Content.entriesBut id raw :=
  entriesOf_moveWithin (p := fun y => y ≠ id) hget (by simpa using he)

theorem entriesBut_filter (raw : List (Option OrderEntry)) :
    Content.entriesBut id (raw.filter fun s => !s.any fun e => decide (e.itemId = id)) =
      Content.entriesBut id raw :=
  entriesOf_filter (p := fun y => y ≠ id) (q := fun y => y = id) (fun y hy => by simpa using hy) raw

end Shown

/-! ## The condition -/

/-- Before an open item that moves within its list would get behind another of its live entries,
no other open item is first shown. -/
def Document.KeepsPlace (d : Document) (id l : String) (target : ℕ) : Prop :=
  d.content.openNow id = true → d.content.NoTail l id →
    ∀ source, d.index.canonicalRawPos l id = some source →
      d.index.KeepsFirst l id source
        (moveDest source (d.index.planTarget l target true (some id)).rawPos)

section Moves

variable {d : Document} {id l placement : String} {m : ItemMap} {target : ℕ} {slice : ItemMeta}

theorem openNow_eq (h : Agrees d.content d.index) (hslice : d.index.metas.get id = some slice) :
    d.content.openNow id = slice.isOpen := by
  rw [← h.mirrors.isOpenItem_eq, isOpenItem, hslice]
  rfl

theorem located_iff {c : Content} {s : ItemMeta} (hmeta : c.metaOf id = some s) (k : String) :
    c.Located k id ↔ k = s.listId := by
  rw [Content.metaOf] at hmeta
  obtain ⟨m, hm, rfl⟩ := Option.map_eq_some_iff.1 hmeta
  rw [Content.Located, hm]
  simp [eq_comm]

/-- **Within a list**, through the entry that shows the item. -/
theorem reordered_iff (h : Agrees d.content d.index)
    (hslice : d.index.metas.get id = some slice) {source : ℕ}
    (hsource : d.index.canonicalRawPos l id = some source) (target : ℕ) :
    let dest := moveDest source (d.index.planTarget l target slice.isOpen (some id)).rawPos
    d.content.ItemMovedTo
        (d.content.setOrder l (moveWithin (d.content.orders l) source dest)) id l target ↔
      d.KeepsPlace id l target := by
  intro dest
  obtain ⟨htracks, -, hget, -⟩ := reorder_tracks h hslice hsource dest
  obtain ⟨s, hs, hlist, -⟩ := canonicalRawPos_eq_some hsource
  rw [hslice, Option.some.injEq] at hs
  subst hs
  have hmeta : d.content.metaOf id = some slice := by rw [← h.metas, hslice]
  have hslots : d.index.rawOf l = d.content.slots l :=
    h.rawOf_eq (.inr (.inr ⟨id, (located_iff hmeta l).2 hlist.symm⟩))
  generalize hc' : d.content.setOrder l (moveWithin (d.content.orders l) source dest) = c' at htracks
  have hothers : ∀ k, (c'.openOrder k).filter (fun y => y ≠ id) =
      (d.content.openOrder k).filter fun y => y ≠ id := by
    intro k
    refine openOrder_filter (fun y _ => by rw [← hc']; rfl) ?_
    rw [← hc', Content.slots_setOrder]
    split
    · rename_i hk
      rw [hslots] at hget
      rw [map_moveWithin, hk]
      exact entriesBut_moveWithin hget rfl
    · rfl
  have honly : ∀ k, id ∈ c'.order k ↔ k = l := by
    intro k
    rw [mem_order, located_iff (c := c') (s := slice) (by rw [← hc']; exact hmeta), hlist]
  have hiff : (d.content.openNow id = true → d.content.NoTail l id →
      (c'.openOrder l)[min target ((d.content.openOrder l).filter fun y => y ≠ id).length]? =
        some id) ↔ d.KeepsPlace id l target := by
    refine forall_congr' fun hopen => forall_congr' fun hno => ?_
    have ho : slice.isOpen = true := (openNow_eq h hslice).symm.trans hopen
    have hx : d.index.isOpenItem id = true := isOpenItem_iff.2 ⟨slice, hslice, ho⟩
    have hmem : id ∈ d.index.openVisible l := (isSome_canonicalRawPos hx).1 (by rw [hsource]; rfl)
    have hmoves := reorder_moves h hslice ho hsource dest
    have hmem' : id ∈ (d.index.mapRaw l fun raw => moveWithin raw source dest).openVisible l := by
      rw [hmoves.openVisible_eq, mem_firsts]
      exact List.mem_append_right _ List.mem_cons_self
    have hall := h.mirrors.openOf_of_noTail hno hmem
    have hdest : dest = moveDest source (d.index.planTarget l target true (some id)).rawPos := by
      rw [← ho]
    have hat := planTarget_moving h.membership (h.opens l) hall hsource hx target
      (hdest ▸ hmoves.length_passed_le)
    rw [← hdest] at hat
    rw [← h.mirrors.openOf_eq, hall, ← htracks.mirrors.openOf_eq,
      getElem?_openOf htracks.membership hmem', ← hat]
    constructor
    · intro hshown source' hsource'
      obtain rfl : source = source' := Option.some.inj (hsource.symm.trans hsource')
      rw [← hdest]
      exact hmoves.keepsFirst hshown
    · intro hkeep
      have hfirst := hkeep source hsource
      rw [← hdest] at hfirst
      rw [(openOf_moves h.membership hmoves hfirst).1]
      exact getElem?_placeAt_self hmoves.length_passed_le id
  exact ⟨fun hmoved => hiff.1 hmoved.position, fun hkeep => ⟨hothers, honly, hiff.2 hkeep⟩⟩

/-- **Into a list that no entry shows the item in**: the new entry, under a fresh placement, is
the one that shows it. -/
theorem entered (h : Mirrors d.content d.index) (hopens : d.index.OpenAt l) {c' : Content}
    {base : ProjectionIndex} (hbase : Mirrors c' base) {exclude : Option String}
    (hunseen : id ∉ d.index.openVisible l) (hexclude : ∀ x, exclude = some x → x = id)
    (henters : Enters d.index base l ⟨id, placement⟩
      (d.index.planTarget l target true exclude).rawPos)
    (hno : d.content.NoTail l id) :
    (c'.openOrder l)[min target ((d.content.openOrder l).filter fun y => y ≠ id).length]? =
      some id := by
  have hshown := planTarget_shown h.membership hopens target
    (fun x hx => (hexclude x hx).symm ▸ hunseen)
  have hvis := openVisible_enters henters
  have hself : (d.index.openVisible l).filter (fun y => y ≠ id) = d.index.openVisible l :=
    List.filter_eq_self.2 fun y hy => decide_eq_true fun heq : y = id => hunseen (heq ▸ hy)
  have hmem : id ∈ base.openVisible l := by
    rw [hvis]
    exact mem_placeAt.2 (.inl rfl)
  rw [← h.openOf_eq, h.filter_openOf hno, hself, ← hbase.openOf_eq,
    getElem?_openOf hbase.membership hmem, hvis, hshown]
  exact getElem?_placeAt_self (Nat.min_le_right _ _) id

/-- An entry under a placement that no entry of the item has. -/
theorem replaced_enters (h : Agrees d.content d.index)
    (hslice : d.index.metas.get id = some slice) (hlist : slice.listId = l)
    (hopen : slice.isOpen = true) (hunseen : id ∉ d.index.openVisible l)
    (hfresh : ∀ e, some e ∈ d.content.slots l → e.itemId = id → e.placementId ≠ placement)
    (pos : ℕ) : Enters d.index (d.index.replaced id placement l pos) l ⟨id, placement⟩ pos := by
  have hmeta : d.content.metaOf id = some slice := by rw [← h.metas, hslice]
  have hslots : d.index.rawOf l = d.content.slots l :=
    h.rawOf_eq (.inr (.inr ⟨id, (located_iff hmeta l).2 hlist.symm⟩))
  have hmetas : ∀ y, (d.index.replaced id placement l pos).metas.get y = _ :=
    get_replaced hslice pos
  generalize hbase : d.index.replaced id placement l pos = base at hmetas
  have hnew : base.metas.get id = some { slice with placementId := placement } :=
    (hmetas id).trans (if_pos rfl)
  have hopen' : base.isOpenItem id = true := isOpenItem_iff.2 ⟨_, hnew, hopen⟩
  have hunseen' : ∀ raw, (∀ s ∈ raw, s ∈ d.index.rawOf l) → id ∉ d.index.openIds l raw := by
    intro raw hraw hmem
    obtain ⟨e, he, hei, hmatch, ho⟩ := mem_openIds.1 hmem
    exact hunseen (by
      rw [openVisible_eq, mem_firsts]
      exact mem_openIds.2 ⟨e, hraw _ he, hei, hmatch, ho⟩)
  refine ⟨by rw [← hbase, rawOf_replaced, if_pos rfl], ?_, hunseen', fun raw hraw => ?_⟩
  · have hmatch : base.matches_ l ⟨id, placement⟩ = true := matches_iff.2 ⟨_, hnew, hlist, rfl⟩
    simp [openSlot, hmatch, hopen']
  · refine openIds_congr fun e he => ?_
    by_cases hei : e.itemId = id
    · have hstale : base.matches_ l e = false := by
        rw [Bool.eq_false_iff]
        intro hmatch
        obtain ⟨s, hs, -, hp⟩ := matches_iff.1 hmatch
        rw [hei, hnew, Option.some.injEq] at hs
        refine hfresh e (hslots ▸ hraw _ he) hei (hp.symm.trans ?_)
        rw [← hs]
      have hold : d.index.openSlot l (some e) = none := by
        by_contra hne
        obtain ⟨a, ha⟩ := Option.ne_none_iff_exists'.1 hne
        have hmem : a ∈ d.index.openIds l [some e] :=
          List.mem_filterMap.2 ⟨some e, List.mem_singleton_self _, ha⟩
        obtain ⟨e', he', hei', -⟩ := mem_openIds.1 hmem
        obtain rfl := Option.some.inj (List.mem_singleton.1 he')
        refine hunseen' [some e'] (fun s hs => List.mem_singleton.1 hs ▸ hraw _ he) ?_
        rwa [← hei, hei']
      rw [hold]
      simp [openSlot, hstale]
    · exact (SameFor.of_eq ((hmetas e.itemId).trans (if_neg hei))).openSlot

/-- **Within a list** whose entries do not show the item. -/
theorem replaced_moved (h : Agrees d.content d.index) (hid : PlainId id) (hl : PlainId l)
    (hm : d.content.item id = some m) (hslice : d.index.metas.get id = some slice)
    (hlist : slice.listId = l) (hnone : d.index.canonicalRawPos l id = none)
    (hfresh : ∀ e, some e ∈ d.content.slots l → e.itemId = id → e.placementId ≠ placement) :
    d.content.ItemMovedTo (d.replaceEntry id m l target slice.isOpen placement).content id l
      target := by
  obtain ⟨htracks, -⟩ := replaceEntry_tracks h hid hl hm hslice hlist target slice.isOpen placement
  have hmetas : ∀ y, (d.index.replaced id placement l (d.index.planTarget l target slice.isOpen
      (some id)).rawPos).metas.get y = _ := get_replaced hslice _
  refine ⟨fun k => ?_, fun k => ?_, fun hopen hno => ?_⟩
  · refine openOrder_filter (fun y hy => ?_) ?_
    · rw [Document.replaceEntry, Content.item_setOrder, Content.item_setItem, if_neg hy]
    · rw [Document.replaceEntry, Content.slots_setOrder]
      split
      · rename_i hk
        rw [map_placeAt, Option.bind_some, OrderEntry.parse_encode (e := ⟨id, placement⟩) hid, hk]
        exact entriesBut_placeAt _ _ rfl
      · rfl
  · rw [mem_order, located_iff ((htracks.metas id).symm.trans ((hmetas id).trans (if_pos rfl))),
      hlist]
  · have ho : slice.isOpen = true := (openNow_eq h hslice).symm.trans hopen
    have hx : d.index.isOpenItem id = true := isOpenItem_iff.2 ⟨slice, hslice, ho⟩
    have hunseen : id ∉ d.index.openVisible l := fun hmem => by
      have hsome := (isSome_canonicalRawPos hx).2 hmem
      rw [hnone] at hsome
      cases hsome
    have henters := replaced_enters h hslice hlist ho hunseen hfresh
      (d.index.planTarget l target true (some id)).rawPos
    rw [ho] at htracks ⊢
    exact entered h.mirrors (h.opens l) htracks.mirrors hunseen
      (fun x hx => (Option.some.inj hx).symm) henters hno

/-- **Into another list.** -/
theorem crossed_moved (h : Agrees d.content d.index) (hid : PlainId id) (hl : PlainId l)
    (hm : d.content.item id = some m) (hslice : d.index.metas.get id = some slice)
    (hne : slice.listId ≠ l)
    (hfresh : ∀ e, some e ∈ d.content.slots l → e.itemId = id → e.placementId ≠ placement) :
    d.content.ItemMovedTo
      (d.moveAcrossLists id m slice.listId l target slice.isOpen placement).content id l
      target := by
  rw [moveAcrossLists_eq]
  dsimp only
  have hcurrent : d.index.rawOf slice.listId = d.content.slots slice.listId :=
    h.rawOf_eq (.inr (.inr ⟨id, (located_iff (by rw [← h.metas, hslice]) _).2 rfl⟩))
  have hslots := d.content.slots_cross hid hne m placement
    (d.index.planTarget l target slice.isOpen none).rawPos
    (d.index.entryPositions slice.listId id)
  generalize hcross : d.content.cross id m slice.listId l placement
    (d.index.planTarget l target slice.isOpen none).rawPos
    (d.index.entryPositions slice.listId id) = c' at hslots
  have hitem : ∀ y, c'.item y = if y = id then
      some { m with location := some (Location.encode ⟨l, placement⟩) } else d.content.item y := by
    intro y
    rw [← hcross, Content.cross, Content.item_setOrder, Content.item_setOrder, Content.item_setItem]
  have hmeta : c'.metaOf id = some (slice.movedTo l placement) := by
    rw [Content.metaOf, hitem, if_pos rfl, Option.map_some, itemMeta_of_location hl rfl,
      ItemMeta.movedTo, ← h.slice_eq hm hslice]
    rfl
  have hothers : ∀ y, y ≠ id → c'.item y = d.content.item y := fun y hy =>
    (hitem y).trans (if_neg hy)
  refine ⟨fun k => openOrder_filter hothers ?_, fun k => ?_, fun hopen hno => ?_⟩
  · rw [hslots]
    split
    · rename_i hk
      rw [hk]
      exact entriesBut_placeAt _ _ rfl
    · split
      · rename_i hk
        rw [entryPositions, hcurrent, removeAt_positionsOf, hk]
        exact entriesBut_filter _
      · rfl
  · rw [mem_order, located_iff hmeta]
    rfl
  · have ho : slice.isOpen = true := (openNow_eq h hslice).symm.trans hopen
    by_cases hcand : d.content.Candidate l
    · have hraw := h.rawOf_eq hcand
      obtain ⟨htracks, -, -, hjoins⟩ := cross_spec
        (d.index.planTarget l target slice.isOpen none).rawPos h hid hl hm hslice rfl hne hraw hfresh
      rw [hcross] at htracks
      rw [ho, if_pos rfl] at hjoins
      rw [ho] at htracks
      have hunseen : id ∉ d.index.openVisible l := fun hmem =>
        hjoins.absent (mem_openVisible_members h.membership hmem)
      exact entered h.mirrors (h.opens l) htracks.mirrors hunseen
        (fun x hx => absurd hx (by simp)) (hjoins.enters h.membership) hno
    · -- the list had no items: the moved one is alone, whatever stale entries there are
      have hempty : d.content.openOrder l = [] :=
        List.eq_nil_iff_forall_not_mem.2 fun y hy =>
          hcand (.inr (.inr ⟨y, (mem_openOrder.1 hy).1⟩))
      have halone : c'.openOrder l = [id] := by
        refine List.perm_singleton.1 ?_
        refine (List.perm_ext_iff_of_nodup (openOrder_nodup c' l) (List.nodup_singleton id)).2
          fun y => ?_
        rw [mem_openOrder, List.mem_singleton]
        constructor
        · rintro ⟨⟨my, hmy, hloc⟩, -⟩
          by_contra hy
          rw [hothers y hy] at hmy
          exact hcand (.inr (.inr ⟨y, my, hmy, hloc⟩))
        · rintro rfl
          refine ⟨(located_iff hmeta l).2 rfl, ?_⟩
          rw [Content.openNow, hitem, if_pos rfl]
          rw [Content.openNow, hm] at hopen
          exact hopen
      rw [halone, hempty]
      rw [List.filter_nil, List.length_nil, Nat.min_zero]
      rfl

end Moves

/-- **`move_item`** puts an item where it was moved to exactly if, among the entries that show it,
the one that moves does not get behind another. -/
theorem moveItem_iff {d d' : Document} {id l placement : String} {target : ℕ}
    (h : Agrees d.content d.index) (hid : PlainId id) (hl : PlainId l)
    (hfresh : ∀ e, some e ∈ d.content.slots l → e.itemId = id → e.placementId ≠ placement)
    (hmove : d.moveItem id l target placement = some d') :
    d.content.ItemMovedTo d'.content id l target ↔ d.KeepsPlace id l target := by
  unfold Document.moveItem at hmove
  split at hmove
  · cases hmove
  split at hmove
  · rename_i slice m hslice hm
    split at hmove
    · rename_i hlist
      obtain rfl := Option.some.inj hmove
      unfold Document.reorderInList
      cases hsource : d.index.canonicalRawPos l id with
      | none =>
        refine iff_of_true (replaced_moved h hid hl hm hslice hlist hsource hfresh) ?_
        intro _ _ source hsome
        rw [hsource] at hsome
        cases hsome
      | some source =>
        have hiff := reordered_iff h hslice hsource target
        dsimp only at hiff ⊢
        split
        · rename_i hself
          rw [← hself, moveWithin_self, Content.setOrder, Function.update_eq_self] at hiff
          exact hiff
        · exact hiff
    · rename_i hlist
      obtain rfl := Option.some.inj hmove
      refine iff_of_true (crossed_moved h hid hl hm hslice hlist hfresh) ?_
      intro _ _ source hsome
      obtain ⟨s, hs, hin, -⟩ := canonicalRawPos_eq_some hsome
      rw [hslice, Option.some.injEq] at hs
      exact absurd (hs ▸ hin) hlist
  · cases hmove

/-- `x` has two entries under its placement, and every item has one. -/
theorem noTail_repeated (id : String) : repeatedContent.NoTail "inbox" id := by
  rintro y ⟨m, hm, -⟩ - -
  have hy : y = "b" ∨ y = "a" ∨ y = "x" := by
    by_contra hnot
    obtain ⟨hb, ha, hx⟩ := not_or.1 hnot |>.imp_right not_or.1
    have hnone : repeatedContent.item y = none := by
      simp [Content.item, repeatedContent, FMap.get_insert, hb, ha, hx]
    rw [hnone] at hm
    cases hm
  rcases hy with rfl | rfl | rfl <;> decide

/-- Moving `b`, which has one entry, to the front. -/
theorem moveItem_repeated : ∃ d', repeatedDocument.moveItem "b" "inbox" 0 "s" = some d' ∧
    repeatedDocument.content.ItemMovedTo d'.content "b" "inbox" 0 := by
  have hsome : (repeatedDocument.moveItem "b" "inbox" 0 "s").isSome = true := by decide
  obtain ⟨d', hmove⟩ := Option.isSome_iff_exists.1 hsome
  obtain ⟨hid, hl, hfresh⟩ := promised_move "b" 0 (by decide)
  refine ⟨d', hmove, (moveItem_iff (agrees_computeIndex _) hid hl hfresh hmove).2 ?_⟩
  intro _ _ source hsource
  obtain rfl : 3 = source := Option.some.inj ((by decide : some 3 = _).trans hsource)
  decide

/-- **Past its second entry.**  Moved to the end, `x` still stands where its second entry does. -/
theorem moveItem_behind :
    ¬∀ (d d' : Document) (id l placement : String) (target : ℕ), Agrees d.content d.index →
      PlainId id → PlainId l →
      (∀ e, some e ∈ d.content.slots l → e.itemId = id → e.placementId ≠ placement) →
      d.moveItem id l target placement = some d' →
        d.content.ItemMovedTo d'.content id l target := by
  intro hclaim
  obtain ⟨hid, hl, hfresh⟩ := promised_move "x" 2 (by decide)
  have hrun : (repeatedDocument.moveItem "x" "inbox" 2 "s").map
      (fun d => (d.content.openOrder "inbox")[2]?) = some (some "b") := by decide
  obtain ⟨d', hmove, hshown⟩ := Option.map_eq_some_iff.1 hrun
  have hat := (hclaim _ d' "x" "inbox" "s" 2 (agrees_computeIndex _) hid hl hfresh
    hmove).position (by decide) (noTail_repeated "x")
  have hlen : ((repeatedDocument.content.openOrder "inbox").filter fun y => y ≠ "x").length = 2 := by
    decide
  rw [hlen, Nat.min_self, hshown] at hat
  exact absurd hat (by decide)

end Monoplan.Doc
