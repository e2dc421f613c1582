import Monoplan.Doc.Moving

/-!
# Closing, reopening and deleting keep the agreement

* `agrees_syncLifecycle`: one lifecycle write, followed by `sync_item_openness`; a batch is a
  run of them (`agrees_setItemsLifecycle`).
* `agrees_hardDeleteItems`: items leave their lists, their entries go with them, and they are
  taken out of the open projections one by one.
-/

namespace Monoplan.Doc

open Monoplan.Base

namespace ProjectionIndex

variable {idx idx' : ProjectionIndex} {l id : String}

theorem filter_not_eq_erase {ids : List String} (h : ids.Nodup) (x : String) :
    ids.filter (fun y => !decide (y = x)) = ids.erase x := by
  rw [← filter_ne_eq_erase h]
  exact List.filter_congr fun y _ => decide_not.symm

/-! ## Flipping the open flag -/

theorem setOpen_eq {slice : ItemMeta} (hslice : idx.metas.get id = some slice) (isOpen : Bool) :
    ∃ idx', idx.setOpen id isOpen = some (slice.listId, slice.isOpen, idx') ∧
      idx'.metas = idx.metas.insert id { slice with isOpen } ∧ idx'.members = idx.members ∧
      idx'.rawOrders = idx.rawOrders ∧ idx'.openByList = idx.openByList ∧
      idx'.openVisibleCounts = idx.openVisibleCounts ∧
      idx'.openMembers =
        if isOpen && !slice.isOpen then insertMember idx.openMembers slice.listId id
        else if !isOpen && slice.isOpen then unsetMember idx.openMembers slice.listId id
        else idx.openMembers := by
  unfold setOpen
  rw [hslice]
  exact ⟨_, rfl, rfl, rfl, rfl, rfl, rfl, rfl⟩

theorem Membership.setOpen (h : idx.Membership) {slice : ItemMeta}
    (hslice : idx.metas.get id = some slice) {isOpen : Bool}
    (hmetas : idx'.metas = idx.metas.insert id { slice with isOpen })
    (hmembers : idx'.members = idx.members)
    (hopen : idx'.openMembers =
      if isOpen && !slice.isOpen then insertMember idx.openMembers slice.listId id
      else if !isOpen && slice.isOpen then unsetMember idx.openMembers slice.listId id
      else idx.openMembers) : idx'.Membership := by
  have hget : ∀ y, idx'.metas.get y =
      if y = id then some { slice with isOpen } else idx.metas.get y := fun y => by
    rw [hmetas, FMap.get_insert]
  have hmem : ∀ l y, y ∈ idx'.openMembersOf l ↔
      (y ∈ idx.openMembersOf l ∧ (y = id → isOpen = true)) ∨
        (y = id ∧ l = slice.listId ∧ isOpen = true) := by
    intro l y
    have hold : id ∈ (idx.openMembers.get l).getD ∅ ↔ l = slice.listId ∧ slice.isOpen = true := by
      have : id ∈ (idx.openMembers.get l).getD ∅ ↔ _ := h.openMembers l id
      rw [hslice] at this
      rw [eq_comm (a := l)]
      simpa using this
    rw [openMembersOf, hopen, openMembersOf]
    by_cases hy : y = id
    · subst hy
      cases isOpen <;> cases hs : slice.isOpen <;>
        simp only [hs, Bool.not_true, Bool.not_false, Bool.and_true, Bool.and_false, if_true,
          Bool.false_eq_true, if_false, mem_insertMember, mem_unsetMember, hold] <;> tauto
    · cases isOpen <;> cases slice.isOpen <;>
        simp only [Bool.not_true, Bool.not_false, Bool.and_true, Bool.and_false, if_true,
          Bool.false_eq_true, if_false, mem_insertMember, mem_unsetMember] <;> tauto
  refine ⟨fun l y => ?_, fun l y => ?_, fun l => ?_, fun l => ?_⟩
  · rw [membersOf, hmembers, hget]
    by_cases hy : y = id
    · subst hy
      have := h.members l y
      rw [hslice] at this
      simpa [membersOf] using this
    · rw [if_neg hy]
      exact h.members l y
  · rw [hmem, hget]
    by_cases hy : y = id
    · subst hy
      have hold : y ∈ idx.openMembersOf l → slice.listId = l := by
        intro hm
        obtain ⟨m, hm, hl, -⟩ := (h.openMembers l y).1 hm
        rw [hslice, Option.some.injEq] at hm
        exact hm ▸ hl
      simp only [forall_const, true_and, if_true, Option.some.injEq, exists_eq_left']
      constructor
      · rintro (⟨hm, ho⟩ | ⟨hl, ho⟩)
        · exact ⟨hold hm, ho⟩
        · exact ⟨hl.symm, ho⟩
      · rintro ⟨hl, ho⟩
        exact .inr ⟨hl.symm, ho⟩
    · simp [hy, h.openMembers l y]
  · rw [hmembers]
    exact h.membersKey l
  · rw [hopen]
    split_ifs
    · exact insertMember_ne_empty h.openMembersKey _ _ l
    · exact unsetMember_ne_empty h.openMembersKey _ _ l
    · exact h.openMembersKey l

end ProjectionIndex

open ProjectionIndex

variable {c : Content} {idx : ProjectionIndex} {l id : String} {m m' : ItemMap}
  {d d' : Document} {write : LifecycleWrite} {now : ℤ}

/-! ## Lifecycle -/

theorem applyLifecycle_keeps {target : Option WorkflowState}
    (h : applyLifecycle m target now = some m') :
    m'.location = m.location ∧ m'.createdAt = m.createdAt := by
  unfold applyLifecycle at h
  split at h <;> split at h <;> cases h <;> exact ⟨rfl, rfl⟩

/-- A lifecycle write leaves placement and creation time alone. -/
theorem applyLifecycleWrite_keeps (h : applyLifecycleWrite m write now = some m') :
    m'.location = m.location ∧ m'.createdAt = m.createdAt := by
  unfold applyLifecycleWrite at h
  split at h
  · exact applyLifecycle_keeps h
  · split at h <;> cases h
    exact ⟨rfl, rfl⟩
  · split at h
    · cases h
    · exact applyLifecycle_keeps h

theorem itemMeta_congr (hloc : m'.location = m.location) (hcreated : m'.createdAt = m.createdAt) :
    itemMeta m' = { itemMeta m with isOpen := m'.isOpen } := by
  rw [itemMeta, itemMeta, ItemMap.locatedIn, ItemMap.locatedIn, hloc, hcreated]

/-- **One lifecycle write** keeps the agreement. -/
theorem agrees_syncOpenness (h : Agrees c idx) (hm : c.item id = some m)
    (hloc : m'.location = m.location) (hcreated : m'.createdAt = m.createdAt) :
    Agrees (c.setItem id m') (idx.syncItemOpenness id m'.isOpen) := by
  have hslice : idx.metas.get id = some (itemMeta m) := by
    rw [h.metas, Content.metaOf, hm]
    rfl
  obtain ⟨base, hset, hmetas, hmembers, hraws, hlists, hcounts, hopens⟩ :=
    setOpen_eq hslice m'.isOpen
  have hmember : base.Membership := h.membership.setOpen hslice hmetas hmembers hopens
  have hget : ∀ y, base.metas.get y =
      if y = id then some { itemMeta m with isOpen := m'.isOpen } else idx.metas.get y := fun y => by
    rw [hmetas, FMap.get_insert]
  have hrawOf : ∀ l, base.rawOf l = idx.rawOf l := fun l => by
    rw [rawOf, hraws]
    rfl
  have hsame : ∀ l y, y ≠ id → SameFor idx base l y := fun l y hy =>
    .of_eq ((hget y).trans (if_neg hy))
  have htracks : Tracks (c.setItem id m') base := by
    refine ⟨fun y => ?_, hmember, fun l => ?_⟩
    · rw [hget, Content.metaOf, Content.item_setItem]
      split
      · rw [Option.map_some, itemMeta_congr hloc hcreated]
      · exact h.metas y
    · unfold RawAt
      rw [hraws, Content.slots_setItem]
      refine (h.raw l).imp_right fun hmiss => ⟨hmiss.1, fun hcand => hmiss.2 ?_⟩
      refine hcand.of_items rfl fun y hy => ?_
      obtain ⟨my, hmy, hly⟩ := hy
      rw [Content.item_setItem] at hmy
      split at hmy
      · rename_i hy
        rw [Option.some.injEq] at hmy
        subst hmy
        rw [itemMeta_congr hloc hcreated] at hly
        exact ⟨m, hy ▸ hm, hly⟩
      · exact ⟨my, hmy, hly⟩
  have hothers : ∀ l', l' ≠ (itemMeta m).listId → base.OpenAt l' := by
    intro l' hl'
    refine (h.opens l').frame h.membership hmember (hrawOf l') (fun y => ?_) (by rw [hlists])
      (by rw [hcounts])
    by_cases hy : y = id
    · rw [hy]
      refine sameFor_of_elsewhere (fun m₁ hm₁ => ?_) fun m₁ hm₁ => ?_
      · rw [hslice, Option.some.injEq] at hm₁
        exact fun heq => hl' (heq.symm.trans (congrArg ItemMeta.listId hm₁.symm))
      · rw [hget, if_pos rfl, Option.some.injEq] at hm₁
        exact fun heq => hl' (heq.symm.trans (by rw [← hm₁]))
    · exact hsame l' y hy
  unfold syncItemOpenness
  rw [hset]
  dsimp only
  cases hnow : m'.isOpen with
  | false =>
    rw [Bool.not_false, if_pos rfl]
    have hleaves : Leaves idx base (itemMeta m).listId fun y => decide (y = id) := by
      refine ⟨.inl (hrawOf _), fun y hy hmem => ?_, fun y hy => hsame _ y (of_decide_eq_false hy)⟩
      rw [of_decide_eq_true hy] at hmem
      obtain ⟨m₁, hm₁, -, ho⟩ := (hmember.openMembers _ _).1 hmem
      rw [hget, if_pos rfl, Option.some.injEq] at hm₁
      rw [← hm₁, hnow] at ho
      cases ho
    obtain ⟨hvis, hof⟩ := openOf_leaves h.membership hmember hleaves
    have hcanonical : base.canonicalRawPos (itemMeta m).listId id =
        idx.canonicalRawPos (itemMeta m).listId id := by
      unfold canonicalRawPos
      rw [hget, if_pos rfl, hslice, hrawOf]
    rw [hcanonical]
    generalize hbumped : (if ((itemMeta m).isOpen &&
      (idx.canonicalRawPos (itemMeta m).listId id).isSome) = true then
        base.bumpVisible (itemMeta m).listId (-1) else base) = bumped
    have hbase : SameBase base bumped ∧ bumped.openByList = idx.openByList ∧
        ∀ l', l' ≠ (itemMeta m).listId →
          bumped.openVisibleCounts.get l' = base.openVisibleCounts.get l' := by
      rw [← hbumped]
      split
      · exact ⟨sameBase_bumpVisible _ _ _, (openByList_bumpVisible _ _ _).trans hlists,
          fun l' hl' => get_bumpVisible_ne hl' _⟩
      · exact ⟨.refl base, hlists, fun _ _ => rfl⟩
    have hcount : bumped.openVisibleCounts.get (itemMeta m).listId =
        unlessZero (base.openVisible (itemMeta m).listId).length := by
      have hold : base.openVisibleCounts.get (itemMeta m).listId =
          unlessZero (idx.openVisible (itemMeta m).listId).length := by
        rw [hcounts]
        exact (h.opens _).2
      rw [hvis, filter_not_eq_erase (openVisible_nodup idx _), ← hbumped]
      split
      · rename_i hboth
        rw [Bool.and_eq_true] at hboth
        have hx : idx.isOpenItem id = true := isOpenItem_iff.2 ⟨_, hslice, hboth.1⟩
        have hmem := (isSome_canonicalRawPos hx).1 hboth.2
        have hpos := List.length_pos_of_mem hmem
        rw [getD_openVisibleCounts_bumpVisible (-1) hold, List.length_erase_of_mem hmem]
        congr 1
        omega
      · rename_i hnot
        have hnotmem : id ∉ idx.openVisible (itemMeta m).listId := by
          intro hmem
          have hopen := (List.mem_filter.1 hmem).2
          obtain ⟨m₁, hm₁, ho⟩ := isOpenItem_iff.1 hopen
          rw [hslice, Option.some.injEq] at hm₁
          refine hnot ?_
          rw [Bool.and_eq_true]
          exact ⟨hm₁ ▸ ho, (isSome_canonicalRawPos hopen).2 hmem⟩
        rw [List.erase_of_not_mem hnotmem]
        exact hold
    have hlist : bumped.openByList.get (itemMeta m).listId =
        unlessNil (idx.openOf (itemMeta m).listId) := by
      rw [hbase.2.1]
      exact (h.opens _).1
    have hspliced := sameBase_spliceOpenOut bumped (itemMeta m).listId id
    refine ⟨(htracks.of_sameBase hbase.1).of_sameBase hspliced, fun l' => ?_⟩
    rw [OpenAt, hspliced.openOf, hspliced.openVisible, hbase.1.openOf, hbase.1.openVisible,
      get_spliceOpenOut hlist, openVisibleCounts_spliceOpenOut]
    by_cases hl' : l' = (itemMeta m).listId
    · rw [if_pos hl', hl', hof]
      exact ⟨congrArg unlessNil (List.filter_congr fun y _ => by simp), hcount⟩
    · rw [if_neg hl', hbase.2.2 l' hl', hbase.2.1, ← hlists]
      exact hothers l' hl'
  | true =>
    rw [Bool.not_true, if_neg Bool.false_ne_true]
    split
    · rename_i hwas
      refine ⟨htracks, fun l' => ?_⟩
      refine (h.opens l').frame h.membership hmember (hrawOf l') (fun y => .of_eq ?_)
        (by rw [hlists]) (by rw [hcounts])
      rw [hget]
      split
      · rename_i hy
        rw [hy, hslice, hnow, ← hwas]
      · rfl
    · exact htracks.refresh hothers

theorem agrees_syncLifecycle (h : Agrees d.content d.index) (id : String) :
    Agrees (Document.syncLifecycle write now d id).content
      (Document.syncLifecycle write now d id).index := by
  unfold Document.syncLifecycle
  cases hm : d.content.item id with
  | none => exact h
  | some m =>
    rw [Option.bind_some]
    cases hw : applyLifecycleWrite m write now with
    | none => exact h
    | some m' =>
      obtain ⟨hloc, hcreated⟩ := applyLifecycleWrite_keeps hw
      exact agrees_syncOpenness h hm hloc hcreated

theorem agrees_patchLifecycle (h : Agrees d.content d.index) (ids : List String) :
    Agrees (d.patchLifecycle ids write now).content (d.patchLifecycle ids write now).index := by
  unfold Document.patchLifecycle
  induction ids generalizing d with
  | nil => exact h
  | cons id ids ih => exact ih (agrees_syncLifecycle h id)

theorem agrees_rebuildLifecycle (h : Agrees d.content d.index) (ids : List String) :
    Agrees (d.rebuildLifecycle ids write now).content
      (d.rebuildLifecycle ids write now).index := by
  unfold Document.rebuildLifecycle
  split
  · exact agrees_computeIndex _
  · exact h

/-- **Lifecycle writes** keep the agreement, in a batch of any size. -/
theorem agrees_setItemsLifecycle (h : Agrees d.content d.index) {ids : List String}
    (hset : d.setItemsLifecycle ids write now = some d') : Agrees d'.content d'.index := by
  unfold Document.setItemsLifecycle at hset
  split at hset
  · cases hset
    exact h
  split at hset
  · cases hset
  split at hset
  · cases hset
    exact agrees_rebuildLifecycle h ids
  · cases hset
    exact agrees_patchLifecycle h ids

/-! ## Hard deletion -/

namespace ProjectionIndex

variable {idx : ProjectionIndex}

theorem removeItem_metas (idx : ProjectionIndex) (id y : String) :
    (idx.removeItem id).metas.get y = if y = id then none else idx.metas.get y := by
  unfold removeItem
  cases hm : idx.metas.get id with
  | none =>
    by_cases hy : y = id
    · rw [if_pos hy, hy]
      exact hm
    · rw [if_neg hy]
  | some m => exact FMap.get_erase _ _ _

theorem Membership.removeItem (h : idx.Membership) (id : String) :
    (idx.removeItem id).Membership := by
  have hget := removeItem_metas idx id
  unfold ProjectionIndex.removeItem at hget ⊢
  cases hm : idx.metas.get id with
  | none => exact h
  | some m =>
    rw [hm] at hget
    refine ⟨fun l y => ?_, fun l y => ?_, fun l => ?_, fun l => ?_⟩
    · rw [hget, membersOf, mem_unsetMember]
      have hold : y ∈ (idx.members.get l).getD ∅ ↔ _ := h.members l y
      by_cases hy : y = id
      · subst hy
        rw [hm] at hold
        refine iff_of_false (fun hboth => ?_) (by simp)
        obtain ⟨hin, hnot⟩ := hboth
        obtain ⟨m', hm', hl⟩ := hold.1 hin
        rw [Option.some.injEq] at hm'
        exact hnot ⟨hm' ▸ hl.symm, rfl⟩
      · simp only [hy, and_false, not_false_eq_true, and_true, if_false]
        exact hold
    · have hold : y ∈ (idx.openMembers.get l).getD ∅ ↔ _ := h.openMembers l y
      rw [hget, openMembersOf]
      by_cases hy : y = id
      · subst hy
        rw [hm] at hold
        refine iff_of_false (fun hin => ?_) (by simp)
        dsimp only at hin
        split at hin
        · obtain ⟨hin, hnot⟩ := (mem_unsetMember _ _ _ _ _).1 hin
          obtain ⟨m', hm', hl, -⟩ := hold.1 hin
          rw [Option.some.injEq] at hm'
          exact hnot ⟨hm' ▸ hl.symm, rfl⟩
        · rename_i hclosed
          obtain ⟨m', hm', -, ho⟩ := hold.1 hin
          rw [Option.some.injEq] at hm'
          exact hclosed (hm' ▸ ho)
      · rw [if_neg hy, ← hold]
        dsimp only
        split
        · simp [mem_unsetMember, hy]
        · rfl
    · exact unsetMember_ne_empty h.membersKey _ _ l
    · dsimp only
      split
      · exact unsetMember_ne_empty h.openMembersKey _ _ l
      · exact h.openMembersKey l

theorem removeItem_rest (idx : ProjectionIndex) (id : String) :
    (idx.removeItem id).rawOrders = idx.rawOrders ∧
      (idx.removeItem id).openByList = idx.openByList ∧
      (idx.removeItem id).openVisibleCounts = idx.openVisibleCounts := by
  unfold removeItem
  split <;> exact ⟨rfl, rfl, rfl⟩

theorem foldl_removeItem_metas (ids : List String) (idx : ProjectionIndex) (y : String) :
    (ids.foldl removeItem idx).metas.get y = if y ∈ ids then none else idx.metas.get y := by
  induction ids generalizing idx with
  | nil => simp
  | cons id ids ih =>
    rw [List.foldl_cons, ih, removeItem_metas]
    by_cases hy : y = id
    · simp [hy]
    · simp [hy]

/-- Removing a batch of items from the slices and sets. -/
theorem foldl_removeItem (ids : List String) (h : idx.Membership) :
    (ids.foldl removeItem idx).Membership ∧
      (ids.foldl removeItem idx).rawOrders = idx.rawOrders ∧
      (ids.foldl removeItem idx).openByList = idx.openByList ∧
      (ids.foldl removeItem idx).openVisibleCounts = idx.openVisibleCounts ∧
      ∀ y, (ids.foldl removeItem idx).metas.get y =
        if y ∈ ids then none else idx.metas.get y := by
  induction ids generalizing idx with
  | nil => exact ⟨h, rfl, rfl, rfl, foldl_removeItem_metas [] idx⟩
  | cons id ids ih =>
    obtain ⟨hmem, hraw, hlist, hcount, -⟩ := ih (h.removeItem id)
    obtain ⟨hraw', hlist', hcount'⟩ := removeItem_rest idx id
    exact ⟨hmem, hraw.trans hraw', hlist.trans hlist', hcount.trans hcount',
      foldl_removeItem_metas (id :: ids) idx⟩

end ProjectionIndex

theorem foldl_erase_get {V : Type*} (ids : List String) (items : FMap String V) (y : String) :
    (ids.foldl FMap.erase items).get y = if y ∈ ids then none else items.get y := by
  induction ids generalizing items with
  | nil => simp
  | cons id ids ih =>
    rw [List.foldl_cons, ih, FMap.get_erase]
    by_cases hy : y = id
    · simp [hy]
    · simp [hy]

theorem mem_locatedAmong {ids : List String} {y : String} :
    y ∈ Document.locatedAmong idx ids l ↔
      y ∈ ids ∧ ∃ m, idx.metas.get y = some m ∧ m.listId = l := by
  rw [Document.locatedAmong, List.mem_filter]
  cases idx.metas.get y <;> simp

/-- The sorted positions are those of the entries that name an item of the list. -/
theorem deletedPositions_eq (idx : ProjectionIndex) (ids : List String) (l : String) :
    Document.deletedPositions idx ids l =
      positionsOf (fun s => s.any fun e => decide (e.itemId ∈ Document.locatedAmong idx ids l))
        (idx.rawOf l) := by
  refine eq_of_ascending sortOn_ascending (positionsFrom_ascending _ 0 _) fun i => ?_
  rw [Document.deletedPositions, mem_sortOn, List.mem_toFinset, List.mem_flatMap, positionsOf,
    mem_positionsFrom]
  constructor
  · rintro ⟨y, hy, hi⟩
    obtain ⟨s, hs, hle, hget⟩ := mem_positionsFrom.1 hi
    refine ⟨s, ?_, hle, hget⟩
    cases s with
    | none => cases hs
    | some e =>
      have he : e.itemId = y := by simpa using hs
      simpa [he] using hy
  · rintro ⟨s, hs, hle, hget⟩
    cases s with
    | none => cases hs
    | some e =>
      have he : e.itemId ∈ Document.locatedAmong idx ids l := by simpa using hs
      exact ⟨e.itemId, he, mem_positionsFrom.2 ⟨some e, by simp, hle, hget⟩⟩

/-- The stored projections after some of the deleted items have been taken out. -/
structure Withdrawn (before base idx : ProjectionIndex) (ids : List String) : Prop where
  same : SameBase base idx
  openByList : ∀ l, idx.openByList.get l = unlessNil ((before.openOf l).filter
    fun y => !decide (y ∈ Document.locatedAmong before ids l))
  counts : ∀ l, idx.openVisibleCounts.get l = unlessZero ((before.openVisible l).filter
    fun y => !decide (y ∈ Document.locatedAmong before ids l)).length

theorem locatedAmong_append (idx : ProjectionIndex) (ids ids' : List String) (l : String) :
    Document.locatedAmong idx (ids ++ ids') l =
      Document.locatedAmong idx ids l ++ Document.locatedAmong idx ids' l :=
  List.filter_append _ _

/-- Taking out one more item. -/
theorem Withdrawn.step {before base idx : ProjectionIndex} {ids : List String}
    (h : Withdrawn before base idx ids) (hid : id ∉ ids) :
    Withdrawn before base (Document.withdraw before idx id) (ids ++ [id]) := by
  unfold Document.withdraw
  cases hm : before.metas.get id with
  | none =>
    have hsame : ∀ l, Document.locatedAmong before (ids ++ [id]) l =
        Document.locatedAmong before ids l := fun l => by
      rw [locatedAmong_append]
      simp [Document.locatedAmong, hm]
    refine ⟨h.same, fun l => ?_, fun l => ?_⟩
    · rw [hsame]
      exact h.openByList l
    · rw [hsame]
      exact h.counts l
  | some m =>
    have hmem : ∀ l y, y ∈ Document.locatedAmong before (ids ++ [id]) l ↔
        y ∈ Document.locatedAmong before ids l ∨ (y = id ∧ m.listId = l) := fun l y => by
      rw [locatedAmong_append, List.mem_append]
      refine or_congr_right ?_
      rw [mem_locatedAmong, List.mem_singleton]
      constructor
      · rintro ⟨rfl, m', hm', hl⟩
        rw [hm, Option.some.injEq] at hm'
        exact ⟨rfl, hm' ▸ hl⟩
      · rintro ⟨rfl, hl⟩
        exact ⟨rfl, m, hm, hl⟩
    have hnew : ∀ (l : String) (xs : List String), l = m.listId →
        xs.filter (fun y => !decide (y ∈ Document.locatedAmong before (ids ++ [id]) l)) =
          (xs.filter fun y => !decide (y ∈ Document.locatedAmong before ids l)).filter
            fun y => decide (y ≠ id) := by
      intro l xs hl
      rw [List.filter_filter]
      refine List.filter_congr fun y _ => ?_
      rw [Bool.eq_iff_iff]
      simp only [Bool.not_eq_true', decide_eq_false_iff_not, hmem, Bool.and_eq_true,
        decide_eq_true_eq]
      tauto
    have hold : ∀ (l : String) (xs : List String), l ≠ m.listId →
        xs.filter (fun y => !decide (y ∈ Document.locatedAmong before (ids ++ [id]) l)) =
          xs.filter fun y => !decide (y ∈ Document.locatedAmong before ids l) := by
      intro l xs hl
      refine List.filter_congr fun y _ => ?_
      rw [Bool.eq_iff_iff]
      simp only [Bool.not_eq_true', decide_eq_false_iff_not, hmem]
      have : m.listId ≠ l := Ne.symm hl
      tauto
    have hspliced := get_spliceOpenOut (h.openByList m.listId)
    have hcounts : ∀ l, (idx.spliceOpenOut m.listId id).openVisibleCounts.get l =
        unlessZero ((before.openVisible l).filter
          fun y => !decide (y ∈ Document.locatedAmong before ids l)).length := fun l => by
      rw [openVisibleCounts_spliceOpenOut]
      exact h.counts l
    have hlists : ∀ l, (idx.spliceOpenOut m.listId id).openByList.get l =
        unlessNil ((before.openOf l).filter
          fun y => !decide (y ∈ Document.locatedAmong before (ids ++ [id]) l)) := by
      intro l
      rw [hspliced]
      by_cases hl : l = m.listId
      · rw [if_pos hl, hnew l _ hl, hl]
      · rw [if_neg hl, hold l _ hl]
        exact h.openByList l
    have hnotmem : id ∉ Document.locatedAmong before ids m.listId := fun hin =>
      hid (mem_locatedAmong.1 hin).1
    have hcount : ∀ l, l = m.listId →
        ((before.openVisible l).filter
          fun y => !decide (y ∈ Document.locatedAmong before (ids ++ [id]) l)) =
        ((before.openVisible l).filter
          fun y => !decide (y ∈ Document.locatedAmong before ids l)).erase id := by
      intro l hl
      rw [hnew l _ hl, ← filter_not_eq_erase ((openVisible_nodup before l).filter _)]
      exact List.filter_congr fun y _ => by simp
    dsimp only
    split
    · rename_i hboth
      rw [Bool.and_eq_true] at hboth
      have hx : before.isOpenItem id = true := isOpenItem_iff.2 ⟨m, hm, hboth.1⟩
      have hvis := (isSome_canonicalRawPos hx).1 hboth.2
      refine ⟨(h.same.trans (sameBase_spliceOpenOut _ _ _)).trans (sameBase_bumpVisible _ _ _),
        fun l => ?_, fun l => ?_⟩
      · rw [openByList_bumpVisible]
        exact hlists l
      · by_cases hl : l = m.listId
        · subst hl
          have hin : id ∈ (before.openVisible m.listId).filter
              fun y => !decide (y ∈ Document.locatedAmong before ids m.listId) := by
            rw [List.mem_filter]
            simp [hvis, hnotmem]
          have hpos := List.length_pos_of_mem hin
          rw [hcount _ rfl, List.length_erase_of_mem hin,
            getD_openVisibleCounts_bumpVisible (-1) (hcounts _)]
          congr 1
          omega
        · rw [get_bumpVisible_ne hl, hcounts, hold l _ hl]
    · rename_i hnot
      refine ⟨h.same.trans (sameBase_spliceOpenOut _ _ _), hlists, fun l => ?_⟩
      rw [hcounts]
      by_cases hl : l = m.listId
      · have hnotvis : id ∉ before.openVisible l := by
          intro hvis
          have hopen := (List.mem_filter.1 hvis).2
          obtain ⟨m', hm', ho⟩ := isOpenItem_iff.1 hopen
          rw [hm, Option.some.injEq] at hm'
          refine hnot ?_
          rw [Bool.and_eq_true]
          exact ⟨hm' ▸ ho, hl ▸ (isSome_canonicalRawPos hopen).2 hvis⟩
        rw [hcount l hl, List.erase_of_not_mem fun hin => hnotvis (List.mem_filter.1 hin).1]
      · rw [hold l _ hl]

/-- Taking out a batch. -/
theorem Withdrawn.run {before base idx : ProjectionIndex} (rest : List String) {ids : List String}
    (h : Withdrawn before base idx ids) (hnodup : (ids ++ rest).Nodup) :
    Withdrawn before base (rest.foldl (Document.withdraw before) idx) (ids ++ rest) := by
  induction rest generalizing idx ids with
  | nil => simpa using h
  | cons id rest ih =>
    have hid : id ∉ ids := fun hmem =>
      (List.nodup_append.1 hnodup).2.2 id hmem id List.mem_cons_self rfl
    have hsplit : ids ++ id :: rest = (ids ++ [id]) ++ rest := by simp
    rw [hsplit] at hnodup ⊢
    exact ih (h.step hid) hnodup

/-- **Hard deletion** keeps the agreement. -/
theorem agrees_hardDeleteItems (h : Agrees d.content d.index) {ids : List String}
    (hnodup : ids.Nodup) :
    Agrees (d.hardDeleteItems ids).content (d.hardDeleteItems ids).index := by
  unfold Document.hardDeleteItems
  dsimp only
  obtain ⟨hmember, hraw, hlist, hcount, hget⟩ := foldl_removeItem ids h.membership
  generalize hbase : ({ ids.foldl removeItem d.index with
    rawOrders := (ids.foldl removeItem d.index).rawOrders.mapWithKey
      fun l raw => removeAt (Document.deletedPositions d.index ids l) raw } :
        ProjectionIndex) = base
  have hmetas : ∀ y, base.metas.get y = if y ∈ ids then none else d.index.metas.get y := by
    rw [← hbase]
    exact hget
  have hbmember : base.Membership := by
    rw [← hbase]
    exact ⟨hmember.members, hmember.openMembers, hmember.membersKey, hmember.openMembersKey⟩
  have hbraw : ∀ l, base.rawOrders.get l = (d.index.rawOrders.get l).map
      (removeAt (Document.deletedPositions d.index ids l)) := by
    intro l
    rw [← hbase, ← hraw]
    exact FMap.get_mapWithKey _ _ _
  have hrawOf : ∀ l, base.rawOf l = (d.index.rawOf l).filter
      fun s => !s.any fun e => decide (e.itemId ∈ Document.locatedAmong d.index ids l) := by
    intro l
    rw [← removeAt_positionsOf, ← deletedPositions_eq, rawOf, hbraw, rawOf]
    cases hr : d.index.rawOrders.get l with
    | some raw => rfl
    | none =>
      rw [deletedPositions_eq, rawOf, hr]
      rfl
  have hleaves : ∀ l, Leaves d.index base l
      fun y => decide (y ∈ Document.locatedAmong d.index ids l) := by
    intro l
    refine ⟨.inr (hrawOf l), fun y hy hmem => ?_, fun y hy => ?_⟩
    · obtain ⟨m, hm, -⟩ := (hbmember.openMembers l y).1 hmem
      rw [hmetas, if_pos (mem_locatedAmong.1 (of_decide_eq_true hy)).1] at hm
      cases hm
    · have hnot := of_decide_eq_false hy
      by_cases hin : y ∈ ids
      · refine sameFor_of_elsewhere (fun m hm hl => hnot (mem_locatedAmong.2 ⟨hin, m, hm, hl⟩))
          fun m hm => ?_
        rw [hmetas, if_pos hin] at hm
        cases hm
      · exact .of_eq ((hmetas y).trans (if_neg hin))
  have hitem : ∀ y, ({ d.content with
      items := ids.foldl FMap.erase d.content.items
      orders := fun l => removeAt (Document.deletedPositions d.index ids l)
        (d.content.orders l) } : Content).item y =
      if y ∈ ids then none else d.content.item y := by
    intro y
    unfold Content.item
    dsimp only
    rw [foldl_erase_get]
    split <;> rfl
  have htracks : Tracks { d.content with
      items := ids.foldl FMap.erase d.content.items
      orders := fun l => removeAt (Document.deletedPositions d.index ids l)
        (d.content.orders l) } base := by
    refine ⟨fun y => ?_, hbmember, fun l => ?_⟩
    · rw [hmetas, Content.metaOf, hitem]
      split
      · rfl
      · exact h.metas y
    · unfold RawAt Content.slots
      rw [hbraw, map_removeAt]
      refine (h.raw l).imp (fun hsome => by rw [hsome]; rfl) fun hmiss => ?_
      obtain ⟨hnone, himp⟩ := hmiss
      rw [hnone]
      refine ⟨rfl, fun hcand => ?_⟩
      have hnil : d.content.slots l = [] := by
        refine himp (hcand.of_items rfl fun y hy => ?_)
        obtain ⟨m, hm, hl⟩ := hy
        rw [hitem] at hm
        split at hm
        · cases hm
        · exact ⟨m, hm, hl⟩
      have hpos : Document.deletedPositions d.index ids l = [] := by
        rw [deletedPositions_eq, rawOf, hnone]
        rfl
      rw [hpos]
      exact hnil
  have hstart : Withdrawn d.index base base [] := by
    refine ⟨.refl base, fun l => ?_, fun l => ?_⟩
    · rw [← hbase]
      show (ids.foldl removeItem d.index).openByList.get l = _
      rw [hlist, (h.opens l).1]
      simp [Document.locatedAmong]
    · rw [← hbase]
      show (ids.foldl removeItem d.index).openVisibleCounts.get l = _
      rw [hcount, (h.opens l).2]
      simp [Document.locatedAmong]
  have hend := hstart.run ids (by simpa using hnodup)
  refine ⟨htracks.of_sameBase hend.same, fun l => ?_⟩
  obtain ⟨hvis, hof⟩ := openOf_leaves h.membership hbmember (hleaves l)
  rw [OpenAt, hend.same.openOf, hend.same.openVisible, hend.openByList, hend.counts, hvis, hof]
  exact ⟨rfl, rfl⟩

end Monoplan.Doc
