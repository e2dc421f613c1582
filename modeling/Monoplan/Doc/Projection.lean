import Monoplan.Doc.Index

/-!
# What a projection index holds

`Computed c idx` says field by field what an index of the containers `c` holds.  It
determines the index (`Computed.unique`), and `compute_index` satisfies it whatever order it
walks its hash tables in (`computed_computeIndexOver`).  Under the membership part alone a
list's resolved order has exactly the items located there, each once, and the open projection
is its open part.
-/

namespace Monoplan.Doc

open Monoplan.Base

namespace ProjectionIndex

variable {idx : ProjectionIndex} {l id : String}

/-! ## Membership -/

/-- The membership sets are what the item slices say, and hold no empty set. -/
structure Membership (idx : ProjectionIndex) : Prop where
  members : ∀ l id, id ∈ idx.membersOf l ↔ ∃ m, idx.metas.get id = some m ∧ m.listId = l
  openMembers : ∀ l id, id ∈ idx.openMembersOf l ↔
    ∃ m, idx.metas.get id = some m ∧ m.listId = l ∧ m.isOpen = true
  membersKey : ∀ l, idx.members.get l ≠ some ∅
  openMembersKey : ∀ l, idx.openMembers.get l ≠ some ∅

theorem membership_empty : Membership empty where
  members l id := by simp [empty, membersOf]
  openMembers l id := by simp [empty, openMembersOf]
  membersKey l := by simp [empty]
  openMembersKey l := by simp [empty]

theorem mem_unsetMember (sets : FMap String (Finset String)) (k a l id : String) :
    id ∈ ((unsetMember sets k a).get l).getD ∅ ↔
      id ∈ (sets.get l).getD ∅ ∧ ¬ (l = k ∧ id = a) := by
  unfold unsetMember
  split
  · rename_i hnone
    by_cases hl : l = k
    · subst hl
      simp [hnone]
    · simp [hl]
  · rename_i s hs
    by_cases hl : l = k
    · subst hl
      split
      · rename_i hempty
        have : id ∈ s ∧ ¬ id = a ↔ id ∈ s.erase a := by
          rw [Finset.mem_erase]
          exact and_comm
        simp [hs, this, hempty]
      · simp [hs, and_comm]
    · split <;> simp [FMap.get_erase, FMap.get_insert, hl]

theorem unsetMember_ne_empty {sets : FMap String (Finset String)}
    (h : ∀ l, sets.get l ≠ some ∅) (k a l : String) : (unsetMember sets k a).get l ≠ some ∅ := by
  unfold unsetMember
  split
  · exact h l
  · split
    · rw [FMap.get_erase]
      split
      · simp
      · exact h l
    · rename_i hne
      rw [FMap.get_insert]
      split
      · simpa using hne
      · exact h l

theorem mem_insertMember (sets : FMap String (Finset String)) (k a l id : String) :
    id ∈ ((insertMember sets k a).get l).getD ∅ ↔
      id ∈ (sets.get l).getD ∅ ∨ (l = k ∧ id = a) := by
  unfold insertMember
  rw [FMap.get_insert]
  by_cases hl : l = k
  · subst hl
    simp [or_comm]
  · simp [hl]

theorem insertMember_ne_empty {sets : FMap String (Finset String)}
    (h : ∀ l, sets.get l ≠ some ∅) (k a l : String) : (insertMember sets k a).get l ≠ some ∅ := by
  unfold insertMember
  rw [FMap.get_insert]
  split
  · simp
  · exact h l

@[simp] theorem setMeta_metas (idx : ProjectionIndex) (id : String) (m : ItemMeta) :
    (idx.setMeta id m).metas = idx.metas.insert id m := by
  have hleave : (idx.leaveSets id m).metas = idx.metas := by
    unfold leaveSets
    split
    · rfl
    · dsimp only
      split_ifs <;> rfl
  simp only [setMeta]
  split <;> simp [hleave]

/-- What leaving the sets does to each of them. -/
theorem leaveSets_spec (h : idx.Membership) (id : String) (m : ItemMeta) :
    (∀ l a, a ∈ (idx.leaveSets id m).membersOf l ↔
      a ∈ idx.membersOf l ∧ (a = id → l = m.listId)) ∧
    (∀ l a, a ∈ (idx.leaveSets id m).openMembersOf l ↔
      a ∈ idx.openMembersOf l ∧ (a = id → l = m.listId ∧ m.isOpen = true)) ∧
    (∀ l, (idx.leaveSets id m).members.get l ≠ some ∅) ∧
    ∀ l, (idx.leaveSets id m).openMembers.get l ≠ some ∅ := by
  unfold leaveSets
  cases hold : idx.metas.get id with
  | none =>
    refine ⟨fun l a => ⟨fun ha => ⟨ha, ?_⟩, And.left⟩, fun l a => ⟨fun ha => ⟨ha, ?_⟩, And.left⟩,
      h.membersKey, h.openMembersKey⟩
    · rintro rfl
      obtain ⟨old, hget, -⟩ := (h.members l a).1 ha
      rw [hold] at hget
      cases hget
    · rintro rfl
      obtain ⟨old, hget, -⟩ := (h.openMembers l a).1 ha
      rw [hold] at hget
      cases hget
  | some old =>
    have hmem : ∀ l, id ∈ idx.membersOf l ↔ l = old.listId := by
      intro l
      rw [h.members l id, hold, eq_comm]
      simp
    have hopen : ∀ l, id ∈ idx.openMembersOf l ↔ l = old.listId ∧ old.isOpen = true := by
      intro l
      rw [h.openMembers l id, hold, eq_comm (a := l)]
      simp
    -- the membership sets after the first `if`, then the open ones after the second
    have hone : ∀ l a, a ∈ ((if old.listId ≠ m.listId then
          unsetMember idx.members old.listId id else idx.members).get l).getD ∅ ↔
        a ∈ idx.membersOf l ∧ (a = id → l = m.listId) := by
      intro l a
      split
      · rename_i hne
        rw [mem_unsetMember]
        refine and_congr_right fun ha => ⟨fun hnot hid => ?_, fun himp ⟨hl, hid⟩ => ?_⟩
        · exact absurd ⟨(hmem l).1 (hid ▸ ha), hid⟩ hnot
        · exact hne (hl ▸ himp hid)
      · rename_i heq
        rw [ne_eq, not_not] at heq
        refine ⟨fun ha => ⟨ha, fun hid => ?_⟩, And.left⟩
        exact heq ▸ (hmem l).1 (hid ▸ ha)
    have htwo : ∀ l a, a ∈ ((if old.isOpen ∧ (¬ m.isOpen ∨ old.listId ≠ m.listId) then
          unsetMember idx.openMembers old.listId id else idx.openMembers).get l).getD ∅ ↔
        a ∈ idx.openMembersOf l ∧ (a = id → l = m.listId ∧ m.isOpen = true) := by
      intro l a
      split
      · rename_i hleaves
        rw [mem_unsetMember]
        refine and_congr_right fun ha => ⟨fun hnot hid => ?_, fun himp ⟨hl, hid⟩ => ?_⟩
        · exact absurd ⟨((hopen l).1 (hid ▸ ha)).1, hid⟩ hnot
        · obtain ⟨hlist, hopn⟩ := himp hid
          rcases hleaves.2 with hclosed | hne
          · exact hclosed hopn
          · exact hne (hl ▸ hlist)
      · rename_i hstays
        refine ⟨fun ha => ⟨ha, fun hid => ?_⟩, And.left⟩
        obtain ⟨hl, hopn⟩ := (hopen l).1 (hid ▸ ha)
        by_contra hnot
        refine hstays ⟨hopn, ?_⟩
        by_cases hm : m.isOpen = true
        · exact .inr fun heq => hnot ⟨hl.trans heq, hm⟩
        · exact .inl hm
    refine ⟨fun l a => ?_, fun l a => ?_, fun l => ?_, fun l => ?_⟩
    · rw [← hone l a]
      dsimp only
      split_ifs <;> rfl
    · rw [← htwo l a]
      dsimp only
      split_ifs <;> rfl
    · dsimp only
      split_ifs
      all_goals first
        | exact unsetMember_ne_empty h.membersKey _ _ l
        | exact h.membersKey l
    · dsimp only
      split_ifs
      all_goals first
        | exact unsetMember_ne_empty h.openMembersKey _ _ l
        | exact h.openMembersKey l

/-- `set_meta` keeps the membership sets true. -/
theorem Membership.setMeta (h : idx.Membership) (id : String) (m : ItemMeta) :
    (idx.setMeta id m).Membership := by
  obtain ⟨hmem, hopen, hkey, hokey⟩ := leaveSets_spec h id m
  have hget : ∀ a, (idx.setMeta id m).metas.get a =
      if a = id then some m else idx.metas.get a := fun a => by
    rw [setMeta_metas, FMap.get_insert]
  have hmembers : (idx.setMeta id m).members =
      insertMember (idx.leaveSets id m).members m.listId id := by
    simp only [ProjectionIndex.setMeta]
    split <;> rfl
  have hopens : (idx.setMeta id m).openMembers = if m.isOpen then
      insertMember (idx.leaveSets id m).openMembers m.listId id
      else (idx.leaveSets id m).openMembers := by
    simp only [ProjectionIndex.setMeta]
    split <;> rfl
  refine ⟨fun l a => ?_, fun l a => ?_, fun l => ?_, fun l => ?_⟩
  · rw [membersOf, hmembers, mem_insertMember, hget]
    show a ∈ (idx.leaveSets id m).membersOf l ∨ _ ↔ _
    rw [hmem]
    by_cases ha : a = id
    · subst ha
      simp only [forall_const, and_true, if_true, Option.some.injEq, exists_eq_left']
      constructor
      · rintro (⟨-, hl⟩ | hl)
        · exact hl.symm
        · exact hl.symm
      · exact fun hl => .inr hl.symm
    · simp [ha, h.members l a]
  · rw [openMembersOf, hopens, hget]
    have hsplit : a ∈ ((if m.isOpen then
          insertMember (idx.leaveSets id m).openMembers m.listId id
          else (idx.leaveSets id m).openMembers).get l).getD ∅ ↔
        a ∈ (idx.leaveSets id m).openMembersOf l ∨
          (m.isOpen = true ∧ l = m.listId ∧ a = id) := by
      split
      · rename_i hm
        rw [mem_insertMember]
        simp [hm, openMembersOf]
      · rename_i hm
        simp [hm, openMembersOf]
    rw [hsplit, hopen]
    by_cases ha : a = id
    · subst ha
      simp only [forall_const, and_true, if_true, Option.some.injEq, exists_eq_left']
      constructor
      · rintro (⟨-, hl, hm⟩ | ⟨hm, hl⟩)
        · exact ⟨hl.symm, hm⟩
        · exact ⟨hl.symm, hm⟩
      · exact fun ⟨hl, hm⟩ => .inr ⟨hm, hl.symm⟩
    · simp [ha, h.openMembers l a]
  · rw [hmembers]
    exact insertMember_ne_empty hkey _ _ l
  · rw [hopens]
    split
    · exact insertMember_ne_empty hokey _ _ l
    · exact hokey l

/-! ## Live entries and the tail -/

theorem matches_iff {e : OrderEntry} : idx.matches_ l e = true ↔
    ∃ m, idx.metas.get e.itemId = some m ∧ m.listId = l ∧ m.placementId = e.placementId := by
  unfold matches_
  split
  · rename_i m hm
    simp [hm]
  · rename_i hm
    simp [hm]

theorem visibleIds_nodup (idx : ProjectionIndex) (l : String) : (idx.visibleIds l).Nodup :=
  firsts_nodup _

/-- What is visible in a list is located there. -/
theorem visible_located (h : idx.Membership) (hid : id ∈ idx.visibleIds l) :
    id ∈ idx.membersOf l := by
  rw [visibleIds, mem_firsts, List.mem_map] at hid
  obtain ⟨e, he, rfl⟩ := hid
  obtain ⟨m, hm, hl, -⟩ := matches_iff.1 (List.mem_filter.1 he).2
  exact (h.members l _).2 ⟨m, hm, hl⟩

@[simp] theorem mem_tail {seen : List String} :
    id ∈ idx.tail l seen ↔ id ∈ idx.membersOf l ∧ id ∉ seen := by
  simp [tail]

theorem tail_nodup (seen : List String) : (idx.tail l seen).Nodup := sortOn_nodup

/-- **No loss.**  The resolved order of a list lists exactly the items located there. -/
theorem mem_resolved (h : idx.Membership) : id ∈ idx.resolved l ↔ id ∈ idx.membersOf l := by
  rw [resolved, List.mem_append, mem_tail]
  constructor
  · rintro (hvis | ⟨hmem, -⟩)
    · exact visible_located h hvis
    · exact hmem
  · intro hmem
    by_cases hvis : id ∈ idx.visibleIds l
    · exact .inl hvis
    · exact .inr ⟨hmem, hvis⟩

/-- **No duplication.** -/
theorem resolved_nodup (idx : ProjectionIndex) (l : String) : (idx.resolved l).Nodup := by
  refine List.nodup_append.2 ⟨idx.visibleIds_nodup l, tail_nodup _, ?_⟩
  rintro a ha b hb rfl
  exact (mem_tail.1 hb).2 ha

theorem isOpenItem_iff : idx.isOpenItem id = true ↔
    ∃ m, idx.metas.get id = some m ∧ m.isOpen = true := by
  cases hm : idx.metas.get id <;> simp [isOpenItem, hm]

/-- **The open projection** is the open part of the resolved order. -/
theorem openOf_eq (h : idx.Membership) (l : String) :
    idx.openOf l = (idx.resolved l).filter idx.isOpenItem := by
  rw [openOf, resolved, List.filter_append, openVisible, tail, openTail, filter_sortOn]
  congr 2
  ext a
  simp only [Finset.mem_filter, h.openMembers, h.members, isOpenItem_iff]
  constructor
  · rintro ⟨⟨m, hm, hl, ho⟩, hseen⟩
    exact ⟨⟨⟨m, hm, hl⟩, hseen⟩, m, hm, ho⟩
  · rintro ⟨⟨⟨m, hm, hl⟩, hseen⟩, m', hm', ho⟩
    rw [hm, Option.some.injEq] at hm'
    subst hm'
    exact ⟨⟨m, hm, hl, ho⟩, hseen⟩

/-! ## What `refresh_open` stores -/

/-- A value under its key, or no key where the value is trivial. -/
def unlessNil (ids : List String) : Option (List String) := if ids = [] then none else some ids

/-- The same for a count. -/
def unlessZero (n : ℕ) : Option ℕ := if n = 0 then none else some n

theorem get_setOpenList (idx : ProjectionIndex) (k l : String) (ids : List String) :
    (idx.setOpenList k ids).openByList.get l =
      if l = k then unlessNil ids else idx.openByList.get l := by
  unfold setOpenList unlessNil
  by_cases hids : ids = []
  · simp [hids, FMap.get_erase]
  · simp [hids, FMap.get_insert]

theorem get_setOpenCount (idx : ProjectionIndex) (k l : String) (n : ℕ) :
    (idx.setOpenCount k n).openVisibleCounts.get l =
      if l = k then unlessZero n else idx.openVisibleCounts.get l := by
  unfold setOpenCount unlessZero
  by_cases hn : n = 0
  · simp [hn, FMap.get_erase]
  · simp [hn, FMap.get_insert]

/-- Two indices with the same slices, sets and mirrors: all that a projection reads. -/
structure SameBase (idx idx' : ProjectionIndex) : Prop where
  metas : idx'.metas = idx.metas
  members : idx'.members = idx.members
  openMembers : idx'.openMembers = idx.openMembers
  rawOrders : idx'.rawOrders = idx.rawOrders

theorem SameBase.refl (idx : ProjectionIndex) : SameBase idx idx := ⟨rfl, rfl, rfl, rfl⟩

theorem SameBase.trans {a b c : ProjectionIndex} (h : SameBase a b) (h' : SameBase b c) :
    SameBase a c :=
  ⟨h'.metas.trans h.metas, h'.members.trans h.members, h'.openMembers.trans h.openMembers,
    h'.rawOrders.trans h.rawOrders⟩

section SameBase

variable {idx' : ProjectionIndex} (h : SameBase idx idx')
include h

theorem SameBase.membersOf (l : String) : idx'.membersOf l = idx.membersOf l := by
  rw [ProjectionIndex.membersOf, h.members]
  rfl

theorem SameBase.openMembersOf (l : String) : idx'.openMembersOf l = idx.openMembersOf l := by
  rw [ProjectionIndex.openMembersOf, h.openMembers]
  rfl

theorem SameBase.visibleIds (l : String) : idx'.visibleIds l = idx.visibleIds l := by
  have hmatches : idx'.matches_ l = idx.matches_ l := by
    funext e
    rw [matches_, h.metas]
    rfl
  rw [ProjectionIndex.visibleIds, ProjectionIndex.visibleIds, rawOf, rawOf, h.rawOrders, hmatches]

theorem SameBase.tailKey : idx'.tailKey = idx.tailKey := by
  funext a
  rw [ProjectionIndex.tailKey, h.metas]
  rfl

theorem SameBase.isOpenItem : idx'.isOpenItem = idx.isOpenItem := by
  funext a
  rw [ProjectionIndex.isOpenItem, h.metas]
  rfl

theorem SameBase.resolved (l : String) : idx'.resolved l = idx.resolved l := by
  simp only [ProjectionIndex.resolved, tail, h.visibleIds, h.tailKey, h.membersOf]

theorem SameBase.openVisible (l : String) : idx'.openVisible l = idx.openVisible l := by
  rw [ProjectionIndex.openVisible, ProjectionIndex.openVisible, h.visibleIds, h.isOpenItem]

theorem SameBase.openOf (l : String) : idx'.openOf l = idx.openOf l := by
  simp only [ProjectionIndex.openOf, openTail, h.openVisible, h.visibleIds, h.tailKey,
    h.openMembersOf]

theorem SameBase.membership (hidx : idx.Membership) : idx'.Membership where
  members l id := by
    rw [h.membersOf, h.metas]
    exact hidx.members l id
  openMembers l id := by
    rw [h.openMembersOf, h.metas]
    exact hidx.openMembers l id
  membersKey l := by
    rw [h.members]
    exact hidx.membersKey l
  openMembersKey l := by
    rw [h.openMembers]
    exact hidx.openMembersKey l

end SameBase

theorem sameBase_setOpenList (idx : ProjectionIndex) (k : String) (ids : List String) :
    SameBase idx (idx.setOpenList k ids) := by
  unfold setOpenList
  split <;> exact ⟨rfl, rfl, rfl, rfl⟩

theorem sameBase_setOpenCount (idx : ProjectionIndex) (k : String) (n : ℕ) :
    SameBase idx (idx.setOpenCount k n) := by
  unfold setOpenCount
  split <;> exact ⟨rfl, rfl, rfl, rfl⟩

theorem sameBase_refreshOpen (idx : ProjectionIndex) (k : String) :
    SameBase idx (idx.refreshOpen k) :=
  (sameBase_setOpenCount idx k _).trans (sameBase_setOpenList _ k _)

theorem get_openByList_refreshOpen (idx : ProjectionIndex) (k l : String) :
    (idx.refreshOpen k).openByList.get l =
      if l = k then unlessNil (idx.openOf k) else idx.openByList.get l := by
  rw [refreshOpen, get_setOpenList]
  have : (idx.setOpenCount k (idx.openVisible k).length).openByList = idx.openByList := by
    unfold setOpenCount
    split <;> rfl
  rw [this]

theorem get_openVisibleCounts_refreshOpen (idx : ProjectionIndex) (k l : String) :
    (idx.refreshOpen k).openVisibleCounts.get l =
      if l = k then unlessZero (idx.openVisible k).length
      else idx.openVisibleCounts.get l := by
  rw [← get_setOpenCount idx k l, refreshOpen]
  unfold setOpenList
  split <;> rfl

/-- `refresh_open` over a list of list ids stores each one's projection and count. -/
theorem foldl_refreshOpen (cands : List String) (idx : ProjectionIndex) :
    SameBase idx (cands.foldl refreshOpen idx) ∧ ∀ l,
      (cands.foldl refreshOpen idx).openByList.get l =
          (if l ∈ cands then unlessNil (idx.openOf l) else idx.openByList.get l) ∧
        (cands.foldl refreshOpen idx).openVisibleCounts.get l =
          if l ∈ cands then unlessZero (idx.openVisible l).length
          else idx.openVisibleCounts.get l := by
  induction cands generalizing idx with
  | nil => exact ⟨.refl idx, fun l => by simp⟩
  | cons k cands ih =>
    obtain ⟨hbase, hget⟩ := ih (idx.refreshOpen k)
    have hk := sameBase_refreshOpen idx k
    refine ⟨hk.trans hbase, fun l => ?_⟩
    obtain ⟨hlist, hcount⟩ := hget l
    rw [List.foldl_cons, hlist, hcount, hk.openOf, hk.openVisible, get_openByList_refreshOpen,
      get_openVisibleCounts_refreshOpen]
    by_cases hl : l ∈ cands
    · simp [hl]
    · by_cases hlk : l = k
      · simp [hlk]
      · simp [hl, hlk]

end ProjectionIndex

/-! ## The computed index -/

/-- What an index of the containers `c` holds, field by field. -/
structure Computed (c : Content) (idx : ProjectionIndex) : Prop where
  metas : ∀ id, idx.metas.get id = c.metaOf id
  membership : idx.Membership
  rawOrders : ∀ l, idx.rawOrders.get l =
    if l ∈ c.candidates idx then some (c.slots l) else none
  openByList : ∀ l, idx.openByList.get l = ProjectionIndex.unlessNil (idx.openOf l)
  openVisibleCounts : ∀ l, idx.openVisibleCounts.get l =
    ProjectionIndex.unlessZero (idx.openVisible l).length

namespace ProjectionIndex

/-- Membership sets are determined by the item slices. -/
theorem Membership.unique {i j : ProjectionIndex} (hi : i.Membership) (hj : j.Membership)
    (hmetas : i.metas = j.metas) : i.members = j.members ∧ i.openMembers = j.openMembers := by
  have hget : ∀ {a b : Option (Finset String)}, a ≠ some ∅ → b ≠ some ∅ →
      (∀ x, x ∈ a.getD ∅ ↔ x ∈ b.getD ∅) → a = b := by
    rintro (- | s) (- | t) ha hb hab
    · rfl
    · exact absurd (congrArg some (Finset.ext fun x => (hab x).symm)) hb
    · exact absurd (congrArg some (Finset.ext hab)) ha
    · exact congrArg some (Finset.ext hab)
  constructor
  · refine FMap.ext_get fun l => hget (hi.membersKey l) (hj.membersKey l) fun id => ?_
    exact (hi.members l id).trans (hmetas ▸ (hj.members l id).symm)
  · refine FMap.ext_get fun l => hget (hi.openMembersKey l) (hj.openMembersKey l) fun id => ?_
    exact (hi.openMembers l id).trans (hmetas ▸ (hj.openMembers l id).symm)

end ProjectionIndex

/-- **The containers determine the index.** -/
theorem Computed.unique {c : Content} {i j : ProjectionIndex} (hi : Computed c i)
    (hj : Computed c j) : i = j := by
  have hmetas : i.metas = j.metas := FMap.ext_get fun id => (hi.metas id).trans (hj.metas id).symm
  obtain ⟨hmembers, hopens⟩ := hi.membership.unique hj.membership hmetas
  have hraw : i.rawOrders = j.rawOrders := FMap.ext_get fun l => by
    rw [hi.rawOrders, hj.rawOrders, Content.candidates, Content.candidates, hmembers]
  have hsame : ProjectionIndex.SameBase j i := ⟨hmetas, hmembers, hopens, hraw⟩
  have hlist : i.openByList = j.openByList := FMap.ext_get fun l => by
    rw [hi.openByList, hj.openByList, hsame.openOf]
  have hcount : i.openVisibleCounts = j.openVisibleCounts := FMap.ext_get fun l => by
    rw [hi.openVisibleCounts, hj.openVisibleCounts, hsame.openVisible]
  cases i
  cases j
  simp only at hmetas hmembers hopens hraw hlist hcount
  subst hmetas hmembers hopens hraw hlist hcount
  rfl

namespace Content

open ProjectionIndex

variable {c : Content}

/-- Indexing one more key of the item map. -/
def indexItem (c : Content) (idx : ProjectionIndex) (id : String) : ProjectionIndex :=
  match c.item id with
  | some m => idx.setMeta id (itemMeta m)
  | none => idx

theorem indexItems_eq (c : Content) (keys : List String) :
    c.indexItems keys = keys.foldl c.indexItem .empty := rfl

/-- Only the first loop's fields are set. -/
structure OnlyItems (idx : ProjectionIndex) : Prop where
  rawOrders : idx.rawOrders = .empty
  openByList : idx.openByList = .empty
  openVisibleCounts : idx.openVisibleCounts = .empty

theorem OnlyItems.setMeta {idx : ProjectionIndex} (h : OnlyItems idx) (id : String)
    (m : ItemMeta) : OnlyItems (idx.setMeta id m) := by
  have hleave : OnlyItems (idx.leaveSets id m) := by
    unfold leaveSets
    split
    · exact h
    · dsimp only
      split_ifs <;> exact ⟨h.1, h.2, h.3⟩
  simp only [ProjectionIndex.setMeta]
  split <;> exact ⟨hleave.1, hleave.2, hleave.3⟩

/-- The first loop mirrors every item whose key it has seen. -/
theorem foldl_indexItem (c : Content) (keys : List String) {idx : ProjectionIndex}
    (h : idx.Membership) (honly : OnlyItems idx) :
    (keys.foldl c.indexItem idx).Membership ∧ OnlyItems (keys.foldl c.indexItem idx) ∧
      ∀ id, (keys.foldl c.indexItem idx).metas.get id =
        if id ∈ keys ∧ (c.item id).isSome then c.metaOf id else idx.metas.get id := by
  induction keys generalizing idx with
  | nil => exact ⟨h, honly, fun id => by simp⟩
  | cons k keys ih =>
    rw [List.foldl_cons]
    cases hk : c.item k with
    | none =>
      have : c.indexItem idx k = idx := by simp [indexItem, hk]
      rw [this]
      obtain ⟨hmem, ho, hget⟩ := ih h honly
      refine ⟨hmem, ho, fun id => ?_⟩
      rw [hget]
      by_cases hid : id = k
      · subst hid
        simp [hk]
      · simp [hid]
    | some m =>
      have : c.indexItem idx k = idx.setMeta k (itemMeta m) := by simp [indexItem, hk]
      rw [this]
      obtain ⟨hmem, ho, hget⟩ := ih (h.setMeta k _) (honly.setMeta k _)
      refine ⟨hmem, ho, fun id => ?_⟩
      rw [hget, setMeta_metas, FMap.get_insert]
      by_cases hid : id = k
      · subst hid
        simp [hk, metaOf]
      · simp [hid]

theorem foldl_loadOrder (c : Content) (cands : List String) (idx : ProjectionIndex) :
    (cands.foldl c.loadOrder idx).metas = idx.metas ∧
      (cands.foldl c.loadOrder idx).members = idx.members ∧
      (cands.foldl c.loadOrder idx).openMembers = idx.openMembers ∧
      (cands.foldl c.loadOrder idx).openByList = idx.openByList ∧
      (cands.foldl c.loadOrder idx).openVisibleCounts = idx.openVisibleCounts ∧
      ∀ l, (cands.foldl c.loadOrder idx).rawOrders.get l =
        if l ∈ cands then some (c.slots l) else idx.rawOrders.get l := by
  induction cands generalizing idx with
  | nil => simp
  | cons k cands ih =>
    obtain ⟨h₁, h₂, h₃, h₄, h₅, hget⟩ := ih (c.loadOrder idx k)
    refine ⟨h₁, h₂, h₃, h₄, h₅, fun l => ?_⟩
    rw [List.foldl_cons, hget]
    by_cases hl : l ∈ cands
    · simp [hl]
    · by_cases hlk : l = k
      · simp [hlk, loadOrder]
      · simp [hl, hlk, loadOrder, FMap.get_insert]

theorem indexItems_spec (c : Content) {keys : List String}
    (hkeys : keys.toFinset = c.items.keys) :
    (c.indexItems keys).Membership ∧ OnlyItems (c.indexItems keys) ∧
      ∀ id, (c.indexItems keys).metas.get id = c.metaOf id := by
  obtain ⟨hmem, honly, hget⟩ := foldl_indexItem c keys membership_empty ⟨rfl, rfl, rfl⟩
  refine ⟨hmem, honly, fun id => ?_⟩
  rw [indexItems_eq, hget]
  cases hid : c.item id with
  | none => simp [metaOf, hid, ProjectionIndex.empty]
  | some m =>
    have : id ∈ keys := by
      rw [← List.mem_toFinset, hkeys, c.items.mem_keys]
      unfold item at hid
      cases hget' : c.items.get id with
      | none => simp [hget'] at hid
      | some v => rfl
    simp [this]

end Content

open ProjectionIndex in
/-- **`compute_index` is correct** in whatever order it walks its tables. -/
theorem computed_computeIndexOver {c : Content} {keys cands : List String}
    (h : c.Enumerates keys cands) : Computed c (c.computeIndexOver keys cands) := by
  obtain ⟨hkeys, hcands⟩ := h
  obtain ⟨hmem, honly, hmetas⟩ := c.indexItems_spec hkeys
  obtain ⟨h₁, h₂, h₃, h₄, h₅, hraw⟩ := c.foldl_loadOrder cands (c.indexItems keys)
  obtain ⟨hbase, hget⟩ := foldl_refreshOpen cands (cands.foldl c.loadOrder (c.indexItems keys))
  have hload : (cands.foldl c.loadOrder (c.indexItems keys)).Membership := by
    refine ⟨fun l id => ?_, fun l id => ?_, fun l => ?_, fun l => ?_⟩
    · rw [membersOf, h₁, h₂]
      exact hmem.members l id
    · rw [openMembersOf, h₁, h₃]
      exact hmem.openMembers l id
    · rw [h₂]
      exact hmem.membersKey l
    · rw [h₃]
      exact hmem.openMembersKey l
  have hcandidates : ∀ l, l ∈ c.candidates (c.computeIndexOver keys cands) ↔ l ∈ cands := by
    intro l
    rw [← List.mem_toFinset, hcands, Content.candidates, Content.candidates,
      Content.computeIndexOver, hbase.members, h₂]
  -- a list that is no candidate has neither members nor a mirror
  have hoff : ∀ l, l ∉ cands → (c.computeIndexOver keys cands).visibleIds l = [] ∧
      (c.computeIndexOver keys cands).openMembersOf l = ∅ := by
    intro l hl
    constructor
    · rw [Content.computeIndexOver, hbase.visibleIds, visibleIds, rawOf, hraw, if_neg hl,
        honly.rawOrders]
      rfl
    · rw [Content.computeIndexOver, hbase.openMembersOf, openMembersOf, h₃]
      refine Finset.eq_empty_of_forall_notMem fun id hid => hl ?_
      obtain ⟨m, hm, hlist, -⟩ := (hmem.openMembers l id).1 hid
      have hidm : id ∈ (c.indexItems keys).membersOf l := (hmem.members l id).2 ⟨m, hm, hlist⟩
      rw [← List.mem_toFinset, hcands]
      refine Finset.mem_insert_of_mem (Finset.mem_union_left _ ?_)
      rw [FMap.mem_keys]
      unfold membersOf at hidm
      cases hsome : (c.indexItems keys).members.get l with
      | none => simp [hsome] at hidm
      | some s => rfl
  refine ⟨fun id => ?_, hbase.membership hload, fun l => ?_, fun l => ?_, fun l => ?_⟩
  · rw [Content.computeIndexOver, hbase.metas, h₁]
    exact hmetas id
  · rw [if_congr (hcandidates l) rfl rfl, Content.computeIndexOver, hbase.rawOrders, hraw,
      honly.rawOrders]
    rfl
  · by_cases hl : l ∈ cands
    · rw [Content.computeIndexOver, (hget l).1, if_pos hl, hbase.openOf]
    · obtain ⟨hvis, hopen⟩ := hoff l hl
      have hnil : (c.computeIndexOver keys cands).openOf l = [] := by
        rw [openOf, openVisible, hvis, openTail, hopen]
        rfl
      rw [hnil, Content.computeIndexOver, (hget l).1, if_neg hl, h₄, honly.openByList]
      rfl
  · by_cases hl : l ∈ cands
    · rw [Content.computeIndexOver, (hget l).2, if_pos hl, hbase.openVisible]
    · have hnil : (c.computeIndexOver keys cands).openVisible l = [] := by
        rw [openVisible, (hoff l hl).1]
        rfl
      rw [hnil, Content.computeIndexOver, (hget l).2, if_neg hl, h₅, honly.openVisibleCounts]
      rfl

theorem toFinset_sortOn (s : Finset String) :
    (sortOn id Function.injective_id s).toFinset = s := by
  ext a
  simp

theorem computed_computeIndex (c : Content) : Computed c c.computeIndex :=
  computed_computeIndexOver ⟨toFinset_sortOn _, toFinset_sortOn _⟩

end Monoplan.Doc
