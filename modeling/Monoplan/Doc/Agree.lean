import Monoplan.Doc.Mutate

/-!
# The index agrees with the containers

* `Tracks c idx`: the slices, the membership sets and the mirrored containers are right.
* `OpenAt idx l`: the stored open projection and visible count of a list are what
  `refresh_open` would store.
* `Agrees c idx`: both, for every list.  It is what every mutation has to keep, and it makes
  the index equal to a recomputation (`Agrees.matches`).
-/

namespace Monoplan.Doc

open Monoplan.Base

/-! ## Agreement -/

/-- `compute_index` reads the list's container. -/
def Content.Candidate (c : Content) (l : String) : Prop :=
  l = LIST_INBOX ∨ l ∈ c.allListIds ∨ ∃ id, c.Located l id

/-- The mirror of a list is its container.  It may be missing when the container is empty, or
when a recomputation would not read it. -/
def RawAt (c : Content) (idx : ProjectionIndex) (l : String) : Prop :=
  idx.rawOrders.get l = some (c.slots l) ∨
    (idx.rawOrders.get l = none ∧ (c.Candidate l → c.slots l = []))

/-- The slices, the sets and the mirrors are right. -/
structure Tracks (c : Content) (idx : ProjectionIndex) : Prop where
  metas : ∀ id, idx.metas.get id = c.metaOf id
  membership : idx.Membership
  raw : ∀ l, RawAt c idx l

/-- Every mirror is a beginning of its container. -/
def Lags (c : Content) (idx : ProjectionIndex) : Prop := ∀ l, idx.rawOf l <+: c.slots l

/-- What `refresh_open` would store for the list is what is stored. -/
def ProjectionIndex.OpenAt (idx : ProjectionIndex) (l : String) : Prop :=
  idx.openByList.get l = ProjectionIndex.unlessNil (idx.openOf l) ∧
    idx.openVisibleCounts.get l = ProjectionIndex.unlessZero (idx.openVisible l).length

/-- The index agrees with the containers. -/
structure Agrees (c : Content) (idx : ProjectionIndex) : Prop extends Tracks c idx where
  opens : ∀ l, idx.OpenAt l

namespace ProjectionIndex

variable {idx idx' : ProjectionIndex} {l : String}

theorem getD_unlessNil (ids : List String) : (unlessNil ids).getD [] = ids := by
  unfold unlessNil
  split
  · rename_i h
    exact h.symm
  · rfl

theorem getD_unlessZero (n : ℕ) : (unlessZero n).getD 0 = n := by
  unfold unlessZero
  split
  · rename_i h
    exact h.symm
  · rfl

theorem OpenAt.openItemIds (h : idx.OpenAt l) : idx.openItemIds l = idx.openOf l := by
  rw [ProjectionIndex.openItemIds, h.1, getD_unlessNil]

theorem OpenAt.congr (hlist : idx'.openByList.get l = idx.openByList.get l)
    (hcount : idx'.openVisibleCounts.get l = idx.openVisibleCounts.get l)
    (hof : idx'.openVisible l = idx.openVisible l ∧ idx'.openOf l = idx.openOf l)
    (h : idx.OpenAt l) : idx'.OpenAt l := by
  rw [OpenAt, hlist, hcount, hof.1, hof.2]
  exact h

end ProjectionIndex

open ProjectionIndex

variable {c c' : Content} {idx idx' : ProjectionIndex} {l : String}

namespace Tracks

theorem rawOf_eq (h : Tracks c idx) (hl : c.Candidate l) : idx.rawOf l = c.slots l := by
  unfold rawOf
  rcases h.raw l with hsome | ⟨hnone, hnil⟩
  · rw [hsome]
    rfl
  · rw [hnone, hnil hl]
    rfl

theorem lags (h : Tracks c idx) : Lags c idx := by
  intro l
  rcases h.raw l with hsome | ⟨hnone, -⟩
  · rw [rawOf, hsome]
    exact List.prefix_rfl
  · rw [rawOf, hnone]
    exact List.nil_prefix

theorem located (h : Tracks c idx) {id : String} : id ∈ idx.membersOf l ↔ c.Located l id := by
  rw [h.membership.members, h.metas, Content.metaOf, Content.Located]
  cases c.item id <;> simp

theorem mirrors (h : Tracks c idx) : Mirrors c idx where
  metas := h.metas
  membership := h.membership
  raw l hl := by
    obtain ⟨s, hs⟩ := Option.isSome_iff_exists.1 ((FMap.mem_keys _ _).1 hl)
    obtain ⟨id, hid⟩ : s.Nonempty := Finset.nonempty_iff_ne_empty.2 fun he =>
      h.membership.membersKey l (he ▸ hs)
    refine h.rawOf_eq (.inr (.inr ⟨id, h.located.1 ?_⟩))
    rw [membersOf, hs]
    exact hid

/-- A list under which nothing is mirrored shows nothing through entries. -/
theorem of_sameBase (h : Tracks c idx) (hs : SameBase idx idx') : Tracks c idx' where
  metas id := by rw [hs.metas, h.metas]
  membership := hs.membership h.membership
  raw l := by
    rw [RawAt, hs.rawOrders]
    exact h.raw l

/-- Refreshing the one list that may be wrong makes all right. -/
theorem refresh (h : Tracks c idx) (hopen : ∀ l', l' ≠ l → idx.OpenAt l') :
    Agrees c (idx.refreshOpen l) := by
  have hs := sameBase_refreshOpen idx l
  refine ⟨h.of_sameBase hs, fun l' => ?_⟩
  rw [OpenAt, hs.openOf, hs.openVisible, get_openByList_refreshOpen,
    get_openVisibleCounts_refreshOpen]
  by_cases hl : l' = l
  · subst hl
    simp
  · rw [if_neg hl, if_neg hl]
    exact hopen l' hl

end Tracks

namespace Computed

theorem exists_located (h : Computed c idx) (hl : l ∈ idx.members.keys) :
    ∃ id, c.Located l id := by
  obtain ⟨s, hs⟩ := Option.isSome_iff_exists.1 ((FMap.mem_keys _ _).1 hl)
  obtain ⟨id, hid⟩ : s.Nonempty := Finset.nonempty_iff_ne_empty.2 fun he =>
    h.membership.membersKey l (he ▸ hs)
  refine ⟨id, h.mirrors.mem_membersOf.1 ?_⟩
  rw [membersOf, hs]
  exact hid

theorem mem_candidates (h : Computed c idx) : l ∈ c.candidates idx ↔ c.Candidate l := by
  rw [Content.candidates, Finset.mem_insert, Finset.mem_union, List.mem_toFinset,
    Content.Candidate]
  have hkeys : l ∈ idx.members.keys ↔ ∃ id, c.Located l id :=
    ⟨h.exists_located, fun hid => mem_members_keys (h.mirrors.mem_membersOf.2 hid.choose_spec)⟩
  rw [hkeys]
  tauto

theorem agrees (h : Computed c idx) : Agrees c idx where
  metas := h.metas
  membership := h.membership
  raw l := by
    unfold RawAt
    rw [h.rawOrders]
    by_cases hl : l ∈ c.candidates idx
    · exact .inl (if_pos hl)
    · exact .inr ⟨if_neg hl, fun hc => absurd (h.mem_candidates.2 hc) hl⟩
  opens l := ⟨h.openByList l, h.openVisibleCounts l⟩

end Computed

/-- The rebuilt index agrees. -/
theorem agrees_computeIndex (c : Content) : Agrees c c.computeIndex := (computed_computeIndex c).agrees

/-- **Recomputation.**  The index equals what `compute_index` computes from the containers: the
slices, the sets, the open projections and the counts exactly, and the mirrors up to lists
whose container is empty. -/
structure MatchesRecomputation (c : Content) (idx : ProjectionIndex) : Prop where
  metas : idx.metas = c.computeIndex.metas
  members : idx.members = c.computeIndex.members
  openMembers : idx.openMembers = c.computeIndex.openMembers
  openByList : idx.openByList = c.computeIndex.openByList
  openVisibleCounts : idx.openVisibleCounts = c.computeIndex.openVisibleCounts
  /-- Every mirror is its container. -/
  mirror : ∀ l raw, idx.rawOrders.get l = some raw → raw = c.slots l
  /-- A mirror that a recomputation would have and that is missing is one of nothing. -/
  missing : ∀ l raw, c.computeIndex.rawOrders.get l = some raw → idx.rawOrders.get l = none →
    raw = []

theorem Agrees.matches_recomputation (h : Agrees c idx) : MatchesRecomputation c idx := by
  have hfresh := computed_computeIndex c
  have hagrees := hfresh.agrees
  have hmetas : idx.metas = c.computeIndex.metas :=
    FMap.ext_get fun id => (h.metas id).trans (hfresh.metas id).symm
  obtain ⟨hmembers, hopens⟩ := h.membership.unique hfresh.membership hmetas
  have hsame : ∀ l, c.computeIndex.openVisible l = idx.openVisible l ∧
      c.computeIndex.openOf l = idx.openOf l := by
    intro l
    have hvis : c.computeIndex.visibleIds l = idx.visibleIds l := by
      rw [hfresh.mirrors.visibleIds_eq, h.mirrors.visibleIds_eq]
    have hkey : c.computeIndex.tailKey = idx.tailKey := by
      rw [hfresh.mirrors.tailKey_eq, h.mirrors.tailKey_eq]
    have hopen : c.computeIndex.isOpenItem = idx.isOpenItem := by
      rw [hfresh.mirrors.isOpenItem_eq, h.mirrors.isOpenItem_eq]
    have hmem : c.computeIndex.openMembersOf l = idx.openMembersOf l := by
      rw [openMembersOf, ← hopens]
      rfl
    have hov : c.computeIndex.openVisible l = idx.openVisible l := by
      rw [openVisible, openVisible, hvis, hopen]
    exact ⟨hov, by simp only [openOf, openTail, hov, hvis, hkey, hmem]⟩
  refine ⟨hmetas, hmembers, hopens, FMap.ext_get fun l => ?_, FMap.ext_get fun l => ?_,
    fun l raw hraw => ?_, fun l raw hraw hnone => ?_⟩
  · rw [(h.opens l).1, (hagrees.opens l).1, (hsame l).2]
  · rw [(h.opens l).2, (hagrees.opens l).2, (hsame l).1]
  · rcases h.raw l with hsome | ⟨hnone, -⟩
    · rw [hsome, Option.some.injEq] at hraw
      exact hraw.symm
    · rw [hnone] at hraw
      cases hraw
  · rw [hfresh.rawOrders] at hraw
    split at hraw
    · rename_i hl
      rw [Option.some.injEq] at hraw
      rcases h.raw l with hsome | ⟨-, hnil⟩
      · rw [hsome] at hnone
        cases hnone
      · rw [← hraw, hnil (hfresh.mem_candidates.1 hl)]
    · cases hraw

end Monoplan.Doc
