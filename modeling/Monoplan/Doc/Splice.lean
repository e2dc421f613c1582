import Monoplan.Doc.Agree

/-!
# Planning and splicing

* `planTarget_fits`, `planTarget_fits_moving`: a plan with an exact position splices where the
  entry will show the item.
* `setOpenCount`, `spliceOpenIn` and `spliceOpenOut` change one key each.
* `agrees_of_splice`, `agrees_of_leave`: when the base is right and every other list is, the
  spliced list is right too.
-/

namespace Monoplan.Doc

open Monoplan.Base

namespace ProjectionIndex

variable {idx idx' : ProjectionIndex} {l id : String}

/-! ## Canonical entries -/

theorem canonicalRawPos_eq_some {pos : ℕ} (h : idx.canonicalRawPos l id = some pos) :
    ∃ m, idx.metas.get id = some m ∧ m.listId = l ∧
      (idx.rawOf l)[pos]? = some (some ⟨id, m.placementId⟩) ∧
      ∀ e, some e ∈ (idx.rawOf l).take pos → e.itemId = id → e.placementId ≠ m.placementId := by
  unfold canonicalRawPos at h
  split at h
  · cases h
  · rename_i m hm
    split at h
    · cases h
    · rename_i hl
      rw [ne_eq, not_not] at hl
      rw [List.findIdx?_eq_some_iff_getElem] at h
      obtain ⟨hlt, hhit, hbefore⟩ := h
      refine ⟨m, hm, hl, ?_, fun e he hid hp => ?_⟩
      · rw [List.getElem?_eq_getElem hlt, Option.some.injEq]
        cases hs : (idx.rawOf l)[pos] with
        | none => simp [hs] at hhit
        | some e =>
          rw [hs] at hhit
          obtain ⟨hid, hp⟩ : e.itemId = id ∧ e.placementId = m.placementId := by
            simpa using hhit
          obtain ⟨i, p⟩ := e
          simp only at hid hp
          rw [hid, hp]
      · obtain ⟨i, hi, hget⟩ := List.mem_take_iff_getElem.1 he
        have hi' : i < pos := (Nat.lt_min.1 hi).1
        refine hbefore i hi' ?_
        rw [hget]
        simp [hid, hp]

/-- An open item's canonical entry shows it, and no earlier entry does. -/
theorem canonical_shown {pos : ℕ} (h : idx.canonicalRawPos l id = some pos)
    (ho : idx.isOpenItem id = true) :
    ∃ e : OrderEntry, e.itemId = id ∧ (idx.rawOf l)[pos]? = some (some e) ∧
      idx.openSlot l (some e) = some e.itemId ∧
      id ∉ idx.openIds l ((idx.rawOf l).take pos) := by
  obtain ⟨m, hm, hl, hget, hbefore⟩ := canonicalRawPos_eq_some h
  refine ⟨⟨id, m.placementId⟩, rfl, hget, ?_, fun hmem => ?_⟩
  · have hmatch : idx.matches_ l ⟨id, m.placementId⟩ = true := matches_iff.2 ⟨m, hm, hl, rfl⟩
    simp [openSlot, hmatch, ho]
  · obtain ⟨e, he, hid, hmatch, -⟩ := mem_openIds.1 hmem
    obtain ⟨m', hm', -, hp⟩ := matches_iff.1 hmatch
    rw [hid, hm, Option.some.injEq] at hm'
    subst hm'
    exact hbefore e he hid hp.symm

/-- The item is visible through an entry exactly when it has a canonical one. -/
theorem isSome_canonicalRawPos (ho : idx.isOpenItem id = true) :
    (idx.canonicalRawPos l id).isSome = true ↔ id ∈ idx.openVisible l := by
  constructor
  · intro h
    obtain ⟨pos, hpos⟩ := Option.isSome_iff_exists.1 h
    obtain ⟨e, rfl, hget, hshown, -⟩ := canonical_shown hpos ho
    rw [openVisible_eq, mem_firsts, openIds, List.mem_filterMap]
    exact ⟨some e, List.mem_of_getElem? hget, hshown⟩
  · intro h
    rw [openVisible_eq, mem_firsts, mem_openIds] at h
    obtain ⟨e, he, rfl, hmatch, -⟩ := h
    obtain ⟨m, hm, hl, hp⟩ := matches_iff.1 hmatch
    unfold canonicalRawPos
    rw [hm]
    simp only [hl, ne_eq, not_true_eq_false, if_false]
    rw [List.findIdx?_isSome, List.any_eq_true]
    exact ⟨some e, he, by simp [hp]⟩

/-! ## Plans -/

/-- The visible part of a list at a canonical entry. -/
theorem openVisible_at {pos : ℕ} (h : idx.canonicalRawPos l id = some pos)
    (ho : idx.isOpenItem id = true) :
    ∃ rest, idx.openVisible l =
      firsts (idx.openIds l ((idx.rawOf l).take pos)) ++ id :: rest := by
  obtain ⟨e, rfl, hget, hshown, hnot⟩ := canonical_shown h ho
  obtain ⟨hlt, hget'⟩ := List.getElem?_eq_some_iff.1 hget
  have hdrop : (idx.rawOf l).drop pos = some e :: (idx.rawOf l).drop (pos + 1) := by
    rw [← hget', List.getElem_cons_drop]
  have hcons : idx.openIds l ((idx.rawOf l).drop pos) =
      [e.itemId] ++ idx.openIds l ((idx.rawOf l).drop (pos + 1)) := by
    rw [hdrop, openIds, List.filterMap_cons_some hshown]
    rfl
  rw [openVisible_split idx l pos, hcons, firsts_append [e.itemId],
    firsts_of_nodup (List.nodup_singleton _), List.singleton_append,
    List.filter_cons_of_pos (by simpa using hnot)]
  exact ⟨_, rfl⟩

/-- No open item is in the fallback tail. -/
theorem openOf_eq_openVisible (h : idx.Membership)
    (hcard : (idx.openMembersOf l).card = (idx.openVisible l).length) :
    idx.openOf l = idx.openVisible l := by
  have hsub : (idx.openVisible l).toFinset ⊆ idx.openMembersOf l := fun y hy =>
    mem_openVisible_members h (List.mem_toFinset.1 hy)
  have heq : (idx.openVisible l).toFinset = idx.openMembersOf l := by
    refine Finset.eq_of_subset_of_card_le hsub ?_
    rw [hcard, List.toFinset_card_of_nodup (openVisible_nodup idx l)]
  have hempty : ((idx.openMembersOf l).filter fun id => id ∉ idx.openVisible l) = ∅ := by
    rw [← heq]
    refine Finset.filter_eq_empty_iff.2 fun y hy hnot => hnot (List.mem_toFinset.1 hy)
  rw [openOf_eq_append h, hempty]
  exact List.append_nil _

theorem openOf_eq_of_tailIsEmpty (h : idx.Membership) (hopen : idx.OpenAt l)
    (htail : idx.tailIsEmpty l = true) : idx.openOf l = idx.openVisible l := by
  refine openOf_eq_openVisible h ?_
  rw [tailIsEmpty, hopen.2, getD_unlessZero] at htail
  simpa using htail

/-- The position a plan names is where an entry written at its raw position is shown. -/
def Fits (pos : OpenPos) (shown length : ℕ) : Prop :=
  match pos with
  | .refresh => True
  | .at p => p = shown
  | .append => shown = length

theorem planTarget_rawPos_le (idx : ProjectionIndex) (l : String) (target : ℕ) (isOpen : Bool)
    (exclude : Option String) :
    (idx.planTarget l target isOpen exclude).rawPos ≤ (idx.rawOf l).length := by
  have hpos : ∀ a pos, idx.canonicalRawPos l a = some pos → pos ≤ (idx.rawOf l).length := by
    intro a pos h
    obtain ⟨m, -, -, hget, -⟩ := canonicalRawPos_eq_some h
    exact (List.getElem?_eq_some_iff.1 hget).1.le
  unfold planTarget
  dsimp only
  split
  · split
    · split
      · rename_i h
        exact hpos _ _ h
      · exact le_rfl
    · exact le_rfl
  · cases hbind : (idx.resolved l)[anchorIndex (idx.resolved l) target exclude]?.bind
      (idx.canonicalRawPos l) with
    | none => exact le_rfl
    | some pos =>
      obtain ⟨a, -, ha⟩ := Option.bind_eq_some_iff.1 hbind
      exact hpos a pos ha

/-- The entry of the open item at a position follows the entries of those before it. -/
theorem shownBefore_anchor (h : idx.Membership) {i pos : ℕ} {anchor : String}
    (hanchor : (idx.openOf l)[i]? = some anchor) (hpos : idx.canonicalRawPos l anchor = some pos) :
    idx.shownBefore l pos = i ∧ i < (idx.openVisible l).length := by
  have ho : idx.isOpenItem anchor = true :=
    isOpenItem_of_mem h ((mem_openOf h).1 (List.mem_of_getElem? hanchor))
  obtain ⟨rest, hsplit⟩ := openVisible_at hpos ho
  have hlt : idx.shownBefore l pos < (idx.openVisible l).length := by
    rw [hsplit, shownBefore, List.length_append, List.length_cons]
    omega
  have hat : (idx.openOf l)[idx.shownBefore l pos]? = some anchor := by
    rw [openOf_eq_append h, List.getElem?_append_left hlt, hsplit, shownBefore,
      List.getElem?_append_right le_rfl, Nat.sub_self]
    rfl
  obtain ⟨_, hget⟩ := List.getElem?_eq_some_iff.1 hanchor
  obtain ⟨_, hget'⟩ := List.getElem?_eq_some_iff.1 hat
  have hsame := (List.Nodup.getElem_inj_iff (openOf_nodup h l)).1 (hget'.trans hget.symm)
  exact ⟨hsame, hsame ▸ hlt⟩

theorem shownBefore_length (idx : ProjectionIndex) (l : String) :
    idx.shownBefore l (idx.rawOf l).length = (idx.openVisible l).length := by
  rw [shownBefore, List.take_length, openVisible_eq]

/-- An item that no entry shows is passed over by the anchor in the fallback tail only. -/
theorem anchorIndex_cases (h : idx.Membership) (target : ℕ) {exclude : Option String}
    (hout : ∀ x, exclude = some x → x ∉ idx.openVisible l) :
    anchorIndex (idx.openOf l) target exclude = target ∨
      ((idx.openVisible l).length ≤ target ∧
        anchorIndex (idx.openOf l) target exclude = target + 1) := by
  unfold anchorIndex
  split
  · rename_i c hc
    split
    · rename_i hle
      obtain ⟨x, hx, hfind⟩ := Option.bind_eq_some_iff.1 hc
      obtain ⟨hlt, hget, -⟩ := List.findIdx?_eq_some_iff_getElem.1 hfind
      refine .inr ⟨le_trans ?_ hle, rfl⟩
      by_contra hin
      rw [not_le] at hin
      have hmem : (idx.openOf l)[c]? = some x := by
        rw [List.getElem?_eq_getElem hlt]
        simpa using hget
      rw [openOf_eq_append h, List.getElem?_append_left hin] at hmem
      exact hout x hx (List.mem_of_getElem? hmem)
    · exact .inl rfl
  · exact .inl rfl

/-- **Planning an entry** for an item that no entry shows: it follows the entries of as many
open items as the target says, or of all. -/
theorem planTarget_shown (h : idx.Membership) (hopen : idx.OpenAt l) (target : ℕ)
    {exclude : Option String} (hout : ∀ x, exclude = some x → x ∉ idx.openVisible l) :
    idx.shownBefore l (idx.planTarget l target true exclude).rawPos =
      min target (idx.openVisible l).length := by
  have hcases := anchorIndex_cases h target hout
  unfold planTarget
  simp only [if_true, hopen.openItemIds]
  generalize anchorIndex (idx.openOf l) target exclude = i at hcases
  split
  · rename_i anchor hanchor
    split
    · rename_i pos hpos
      obtain ⟨hshown, hlt⟩ := shownBefore_anchor h hanchor hpos
      show idx.shownBefore l pos = _
      omega
    · rename_i hnone
      have hge : (idx.openVisible l).length ≤ i := by
        by_contra hin
        rw [not_le] at hin
        have ho : idx.isOpenItem anchor = true :=
          isOpenItem_of_mem h ((mem_openOf h).1 (List.mem_of_getElem? hanchor))
        rw [openOf_eq_append h, List.getElem?_append_left hin] at hanchor
        have hsome := (isSome_canonicalRawPos ho).2 (List.mem_of_getElem? hanchor)
        rw [hnone] at hsome
        cases hsome
      show idx.shownBefore l (idx.rawOf l).length = _
      rw [shownBefore_length]
      omega
  · rename_i hnone
    have hge : (idx.openVisible l).length ≤ i := by
      refine le_trans ?_ (List.getElem?_eq_none_iff.1 hnone)
      rw [openOf_eq_append h, List.length_append]
      exact Nat.le_add_right _ _
    show idx.shownBefore l (idx.rawOf l).length = _
    rw [shownBefore_length]
    omega

/-- **Planning an insertion.** -/
theorem planTarget_fits (h : idx.Membership) (hopen : idx.OpenAt l) (target : ℕ) :
    Fits (idx.planTarget l target true none).openPos
      (idx.shownBefore l (idx.planTarget l target true none).rawPos) (idx.openOf l).length := by
  unfold planTarget
  simp only [if_true, anchorIndex, Option.bind_none, hopen.openItemIds]
  split
  · rename_i anchor hanchor
    split
    · rename_i pos hpos
      exact (shownBefore_anchor h hanchor hpos).1.symm
    · trivial
  · split
    · rename_i htail
      show idx.shownBefore l _ = _
      rw [openOf_eq_of_tailIsEmpty h hopen htail, shownBefore_length]
    · trivial

/-- A slot that shows the item may be taken out where the item is filtered out. -/
theorem filter_openIds_eraseIdx {raw : List (Option OrderEntry)} {i : ℕ} {e : OrderEntry}
    (hget : raw[i]? = some (some e)) (hshown : idx.openSlot l (some e) = some e.itemId) :
    (idx.openIds l (raw.eraseIdx i)).filter (fun y => y ≠ e.itemId) =
      (idx.openIds l raw).filter fun y => y ≠ e.itemId := by
  obtain ⟨hlt, hget'⟩ := List.getElem?_eq_some_iff.1 hget
  have hraw : raw = raw.take i ++ some e :: raw.drop (i + 1) := by
    rw [← hget', List.getElem_cons_drop, List.take_append_drop]
  rw [List.eraseIdx_eq_take_drop_succ]
  conv_rhs => rw [hraw]
  rw [openIds, openIds, List.filterMap_append, List.filterMap_append,
    List.filterMap_cons_some hshown, List.filter_append, List.filter_append,
    List.filter_cons_of_neg (by simp)]

/-- The members before one that stands at `n`, without one that stands at `c`. -/
theorem length_filter_before {F rest : List String} {x a : String} {c : ℕ}
    (hnodup : (F ++ a :: rest).Nodup) (hc : (F ++ a :: rest)[c]? = some x) :
    (F.filter fun y => y ≠ x).length = if c < F.length then F.length - 1 else F.length := by
  have hF : F.Nodup := (List.nodup_append.1 hnodup).1
  split
  · rename_i hlt
    rw [List.getElem?_append_left hlt] at hc
    have hmem : x ∈ F := List.mem_of_getElem? hc
    rw [filter_ne_eq_erase hF, List.length_erase_of_mem hmem]
  · rename_i hge
    have hnot : x ∉ F := by
      intro hmem
      obtain ⟨j, hj, hget⟩ := List.mem_iff_getElem.1 hmem
      obtain ⟨hlt, hget'⟩ := List.getElem?_eq_some_iff.1 hc
      have hj' : j < (F ++ a :: rest).length := by
        rw [List.length_append]
        omega
      have : (F ++ a :: rest)[j] = (F ++ a :: rest)[c] := by
        rw [hget', List.getElem_append_left hj, hget]
      have := (List.Nodup.getElem_inj_iff hnodup).1 this
      omega
    rw [List.filter_eq_self.2]
    intro y hy
    have : y ≠ x := fun h => hnot (h ▸ hy)
    simpa using this

/-- **Planning a move within the list.** -/
theorem planTarget_fits_moving (h : idx.Membership) (hopen : idx.OpenAt l) {x : String}
    {source : ℕ} (hsource : idx.canonicalRawPos l x = some source)
    (hx : idx.isOpenItem x = true) (target : ℕ) :
    let plan := idx.planTarget l target true (some x)
    Fits plan.openPos
      ((idx.passed l source (moveDest source plan.rawPos)).filter fun y => y ≠ x).length
      ((idx.openOf l).filter fun y => y ≠ x).length := by
  intro plan
  obtain ⟨e, rfl, hget, hshown, -⟩ := canonical_shown hsource hx
  have hmem : e.itemId ∈ idx.openOf l := by
    rw [openOf_eq_append h, List.mem_append]
    exact .inl ((isSome_canonicalRawPos hx).1 (by rw [hsource]; rfl))
  have hpassed : ∀ dest, (idx.passed l source dest).filter (fun y => y ≠ e.itemId) =
      firsts ((idx.openIds l (((idx.rawOf l).eraseIdx source).take dest)).filter
        fun y => y ≠ e.itemId) := fun dest => by rw [passed, filter_firsts]
  obtain ⟨c, hc⟩ : ∃ c, (idx.openOf l).findIdx? (fun y => y = e.itemId) = some c := by
    rw [← Option.isSome_iff_exists, List.findIdx?_isSome, List.any_eq_true]
    exact ⟨e.itemId, hmem, by simp⟩
  have hcget : (idx.openOf l)[c]? = some e.itemId := by
    obtain ⟨hlt, heq, -⟩ := List.findIdx?_eq_some_iff_getElem.1 hc
    rw [List.getElem?_eq_getElem hlt]
    simpa using heq
  have hlt : source < (idx.rawOf l).length := (List.getElem?_eq_some_iff.1 hget).1
  show Fits plan.openPos _ _
  rw [hpassed]
  show Fits (idx.planTarget l target true (some e.itemId)).openPos
    (firsts ((idx.openIds l (((idx.rawOf l).eraseIdx source).take
      (moveDest source (idx.planTarget l target true (some e.itemId)).rawPos))).filter
        fun y => y ≠ e.itemId)).length _
  unfold planTarget
  simp only [if_true, anchorIndex, hopen.openItemIds, Option.bind_some, hc]
  split
  · rename_i anchor hanchor
    split
    · rename_i pos hpos
      have ho : idx.isOpenItem anchor = true :=
        isOpenItem_of_mem h ((mem_openOf h).1 (List.mem_of_getElem? hanchor))
      obtain ⟨rest, hsplit⟩ := openVisible_at hpos ho
      obtain ⟨ea, rfl, hgeta, -, -⟩ := canonical_shown hpos ho
      generalize hF : firsts (idx.openIds l ((idx.rawOf l).take pos)) = F at hsplit
      obtain ⟨rest', hof⟩ : ∃ rest', idx.openOf l = F ++ ea.itemId :: rest' := by
        rw [openOf_eq_append h]
        conv in idx.openVisible l ++ _ => rw [hsplit]
        exact ⟨_, by rw [List.append_assoc, List.cons_append]⟩
      have hnodup := openOf_nodup h l
      rw [hof] at hnodup hcget hanchor
      -- the anchor stands right after `F`
      have hF' : F.length = if c ≤ target then target + 1 else target := by
        have hat : (F ++ ea.itemId :: rest')[F.length]? = some ea.itemId := by
          rw [List.getElem?_append_right le_rfl]
          simp
        obtain ⟨h₁, hget₁⟩ := List.getElem?_eq_some_iff.1 hat
        obtain ⟨h₂, hget₂⟩ := List.getElem?_eq_some_iff.1 hanchor
        exact (List.Nodup.getElem_inj_iff hnodup).1 (hget₁.trans hget₂.symm)
      have hne : source ≠ pos := by
        intro heq
        rw [heq, hgeta] at hget
        simp only [Option.some.injEq] at hget
        obtain ⟨h₁, hget₁⟩ := List.getElem?_eq_some_iff.1 hcget
        obtain ⟨h₂, hget₂⟩ := List.getElem?_eq_some_iff.1 hanchor
        have := (List.Nodup.getElem_inj_iff hnodup).1
          (hget₁.trans ((congrArg OrderEntry.itemId hget).symm.trans hget₂.symm))
        split at this <;> omega
      -- taking the moved entry out does not change the other open ids before the anchor
      have hbefore : (idx.openIds l (((idx.rawOf l).eraseIdx source).take (moveDest source pos))).filter
            (fun y => y ≠ e.itemId) =
          (idx.openIds l ((idx.rawOf l).take pos)).filter fun y => y ≠ e.itemId := by
        unfold moveDest
        split
        · rename_i hsp
          have htake : ((idx.rawOf l).eraseIdx source).take (pos - 1) =
              ((idx.rawOf l).take pos).eraseIdx source := by
            rw [List.eraseIdx_eq_take_drop_succ, List.eraseIdx_eq_take_drop_succ, List.take_append,
              List.take_take, List.take_take, List.length_take, List.drop_take,
              Nat.min_eq_left hlt.le, Nat.min_eq_right (by omega), Nat.min_eq_left hsp.le]
            congr 2
            omega
          rw [htake]
          refine filter_openIds_eraseIdx ?_ hshown
          rw [List.getElem?_take_of_lt hsp]
          exact hget
        · rename_i hsp
          have htake : ((idx.rawOf l).eraseIdx source).take pos = (idx.rawOf l).take pos := by
            rw [List.eraseIdx_eq_take_drop_succ, List.take_append_of_le_length, List.take_take,
              Nat.min_eq_left (by omega)]
            rw [List.length_take]
            omega
          rw [htake]
      show target = (firsts _).length
      rw [hbefore, ← filter_firsts, hF, length_filter_before hnodup hcget, hF']
      split <;> split <;> omega
    · trivial
  · split
    · rename_i htail
      show (firsts _).length = _
      have hall : ((idx.rawOf l).eraseIdx source).take (moveDest source (idx.rawOf l).length) =
          (idx.rawOf l).eraseIdx source := by
        refine List.take_of_length_le ?_
        rw [moveDest, if_pos hlt, List.length_eraseIdx_of_lt hlt]
      rw [hall, filter_openIds_eraseIdx hget hshown, openOf_eq_of_tailIsEmpty h hopen htail,
        openVisible_eq, filter_firsts]
    · trivial

/-- Without a fallback tail a plan names the target, or the end when the target is past it. -/
theorem planTarget_openPos (h : idx.Membership) (hopen : idx.OpenAt l)
    (hall : idx.openOf l = idx.openVisible l) (target : ℕ) (exclude : Option String) :
    (idx.planTarget l target true exclude).openPos = .at target ∨
      ((idx.planTarget l target true exclude).openPos = .append ∧
        (idx.openOf l).length ≤ anchorIndex (idx.openOf l) target exclude) := by
  unfold planTarget
  simp only [if_true, hopen.openItemIds]
  split
  · rename_i anchor hanchor
    have hmem := List.mem_of_getElem? hanchor
    have ho : idx.isOpenItem anchor = true := isOpenItem_of_mem h ((mem_openOf h).1 hmem)
    rw [hall] at hmem
    split
    · exact .inl rfl
    · rename_i hnone
      have hsome := (isSome_canonicalRawPos ho).2 hmem
      rw [hnone] at hsome
      cases hsome
  · rename_i hnone
    have htail : idx.tailIsEmpty l = true := by
      have hset : (idx.openVisible l).toFinset = idx.openMembersOf l := by
        ext y
        rw [List.mem_toFinset, ← hall, mem_openOf h]
      rw [tailIsEmpty, hopen.2, getD_unlessZero, ← hset,
        List.toFinset_card_of_nodup (openVisible_nodup idx l)]
      exact decide_eq_true rfl
    exact .inr ⟨if_pos htail, List.getElem?_eq_none_iff.1 hnone⟩

theorem length_le_of_anchorIndex {seq : List String} {x : String} (hx : x ∈ seq) {target : ℕ}
    (h : seq.length ≤ anchorIndex seq target (some x)) : seq.length ≤ target + 1 := by
  obtain ⟨c, hc⟩ : ∃ c, seq.findIdx? (fun y => y = x) = some c := by
    rw [← Option.isSome_iff_exists, List.findIdx?_isSome, List.any_eq_true]
    exact ⟨x, hx, by simp⟩
  obtain ⟨hlt, -, -⟩ := List.findIdx?_eq_some_iff_getElem.1 hc
  simp only [anchorIndex, Option.bind_some, hc] at h
  split at h <;> omega

/-- **Planning a move within a list** that has no fallback tail: the entry is to follow those of
as many other open items as the target says, or of all. -/
theorem planTarget_moving (h : idx.Membership) (hopen : idx.OpenAt l)
    (hall : idx.openOf l = idx.openVisible l) {x : String} {source : ℕ}
    (hsource : idx.canonicalRawPos l x = some source) (hx : idx.isOpenItem x = true) (target : ℕ)
    (hle : ((idx.passed l source (moveDest source
      (idx.planTarget l target true (some x)).rawPos)).filter fun y => y ≠ x).length ≤
        ((idx.openVisible l).filter fun y => y ≠ x).length) :
    ((idx.passed l source (moveDest source
      (idx.planTarget l target true (some x)).rawPos)).filter fun y => y ≠ x).length =
        min target ((idx.openVisible l).filter fun y => y ≠ x).length := by
  have hfits := planTarget_fits_moving h hopen hsource hx target
  have hmem : x ∈ idx.openVisible l := (isSome_canonicalRawPos hx).1 (by rw [hsource]; rfl)
  have hlen : ((idx.openVisible l).filter fun y => y ≠ x).length + 1 =
      (idx.openVisible l).length := by
    rw [filter_ne_eq_erase (openVisible_nodup idx l), List.length_erase_of_mem hmem]
    have := List.length_pos_of_mem hmem
    omega
  dsimp only at hfits
  rcases planTarget_openPos h hopen hall target (some x) with hat | ⟨happend, hend⟩
  · rw [hat] at hfits
    obtain hfits : target = _ := hfits
    omega
  · rw [happend, hall] at hfits
    obtain hfits : _ = _ := hfits
    have hpast := length_le_of_anchorIndex (hall ▸ hmem) hend
    rw [hall] at hpast
    omega

/-! ## One key at a time -/

theorem getD_openVisibleCounts_bumpVisible {n : ℕ} (delta : ℤ)
    (hcount : idx.openVisibleCounts.get l = unlessZero n) :
    (idx.bumpVisible l delta).openVisibleCounts.get l = unlessZero ((n : ℤ) + delta).toNat := by
  rw [bumpVisible, get_setOpenCount, if_pos rfl, hcount, getD_unlessZero]

theorem get_bumpVisible_ne {l' : String} (h : l' ≠ l) (delta : ℤ) :
    (idx.bumpVisible l delta).openVisibleCounts.get l' = idx.openVisibleCounts.get l' := by
  rw [bumpVisible, get_setOpenCount, if_neg h]

theorem sameBase_bumpVisible (idx : ProjectionIndex) (l : String) (delta : ℤ) :
    SameBase idx (idx.bumpVisible l delta) := sameBase_setOpenCount idx l _

@[simp] theorem openByList_bumpVisible (idx : ProjectionIndex) (l : String) (delta : ℤ) :
    (idx.bumpVisible l delta).openByList = idx.openByList := by
  unfold bumpVisible setOpenCount
  split <;> rfl

theorem sameBase_spliceOpenIn (idx : ProjectionIndex) (l id : String) (pos : OpenPos) :
    SameBase idx (idx.spliceOpenIn l id pos) := ⟨rfl, rfl, rfl, rfl⟩

theorem sameBase_spliceOpenOut (idx : ProjectionIndex) (l id : String) :
    SameBase idx (idx.spliceOpenOut l id) := by
  unfold spliceOpenOut
  split
  · exact .refl idx
  · exact sameBase_setOpenList idx l _

@[simp] theorem openVisibleCounts_spliceOpenOut (idx : ProjectionIndex) (l id : String) :
    (idx.spliceOpenOut l id).openVisibleCounts = idx.openVisibleCounts := by
  unfold spliceOpenOut setOpenList
  split
  · rfl
  · split <;> rfl

@[simp] theorem openVisibleCounts_spliceOpenIn (idx : ProjectionIndex) (l id : String)
    (pos : OpenPos) : (idx.spliceOpenIn l id pos).openVisibleCounts = idx.openVisibleCounts := rfl

theorem get_spliceOpenIn (idx : ProjectionIndex) (l l' id : String) (pos : OpenPos) :
    (idx.spliceOpenIn l id pos).openByList.get l' =
      if l' = l then some (placeAt ((idx.openItemIds l).filter fun x => x ≠ id)
        (pos.index ((idx.openItemIds l).filter fun x => x ≠ id).length) id)
      else idx.openByList.get l' := by
  rw [spliceOpenIn, FMap.get_insert]

theorem unlessNil_placeAt (ids : List String) (i : ℕ) (id : String) :
    unlessNil (placeAt ids i id) = some (placeAt ids i id) := by
  refine if_neg fun h => ?_
  have := congrArg List.length h
  rw [length_placeAt] at this
  cases this

theorem get_spliceOpenOut {arr : List String} (h : idx.openByList.get l = unlessNil arr)
    (l' id : String) : (idx.spliceOpenOut l id).openByList.get l' =
      if l' = l then unlessNil (arr.filter fun x => x ≠ id) else idx.openByList.get l' := by
  unfold spliceOpenOut
  cases hget : idx.openByList.get l with
  | none =>
    have hnil : arr = [] := by
      by_contra hne
      rw [hget, unlessNil, if_neg hne] at h
      cases h
    dsimp only
    by_cases hl : l' = l
    · subst hl
      rw [if_pos rfl, hget, hnil]
      rfl
    · rw [if_neg hl]
  | some arr' =>
    have harr : arr' = arr := by
      rw [hget] at h
      unfold unlessNil at h
      split at h
      · cases h
      · exact Option.some.inj h
    subst harr
    exact get_setOpenList idx l l' _

end ProjectionIndex

end Monoplan.Doc
