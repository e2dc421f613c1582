import Monoplan.Base.Firsts

/-!
# Sweeping a list by position

A sweep keeps the first element under every key and takes the later ones out, by position; when
it is strict it takes out what has no key as well.

* `removeAt_eq`: taking ascending positions out, last first, leaves the elements at the others
  (`dropPositions`).
* `filterMap_dropPositions`: what a sweep leaves are the first occurrences of the keys.
* `mem_dead_union`: the positions that two strict sweeps of one list take out, each with keys of
  its own, are those of a sweep with the keys that both keep.
-/

namespace Monoplan.Base

variable {α β κ : Type*}

/-! ## Positions -/

/-- The elements at the other positions, counted from `n`. -/
def dropFrom (n : ℕ) (ps : List ℕ) (l : List α) : List α :=
  ((l.zipIdx n).filter fun q => q.2 ∉ ps).map Prod.fst

/-- The elements at the other positions. -/
def dropPositions (ps : List ℕ) (l : List α) : List α := dropFrom 0 ps l

theorem dropFrom_congr {n : ℕ} {ps qs : List ℕ} (h : ∀ i, n ≤ i → (i ∈ ps ↔ i ∈ qs))
    (l : List α) : dropFrom n ps l = dropFrom n qs l := by
  unfold dropFrom
  congr 1
  refine List.filter_congr fun q hq => ?_
  have hge := (List.mem_zipIdx hq).1
  simp only [h q.2 hge]

theorem dropFrom_cons_dead (n : ℕ) (ps : List ℕ) (a : α) (l : List α) :
    dropFrom n (n :: ps) (a :: l) = dropFrom (n + 1) ps l := by
  have hrest : dropFrom (n + 1) (n :: ps) l = dropFrom (n + 1) ps l := by
    refine dropFrom_congr (fun i hi => ?_) l
    rw [List.mem_cons, or_iff_right (by omega)]
  rw [← hrest, dropFrom, dropFrom, List.zipIdx_cons, List.filter_cons_of_neg (by simp)]

theorem dropFrom_cons_kept {n : ℕ} {ps : List ℕ} (h : n ∉ ps) (a : α) (l : List α) :
    dropFrom n ps (a :: l) = a :: dropFrom (n + 1) ps l := by
  rw [dropFrom, dropFrom, List.zipIdx_cons, List.filter_cons_of_pos (by simpa using h)]
  rfl

theorem map_dropFrom (f : α → β) (n : ℕ) (ps : List ℕ) (l : List α) :
    (dropFrom n ps l).map f = dropFrom n ps (l.map f) := by
  induction l generalizing n with
  | nil => rfl
  | cons a l ih =>
    by_cases h : n ∈ ps
    · have hps : ∀ xs : List α, dropFrom n ps xs = dropFrom n (n :: ps) xs := fun xs =>
        dropFrom_congr (fun i _ => by simpa using fun heq => heq ▸ h) xs
      have hps' : ∀ xs : List β, dropFrom n ps xs = dropFrom n (n :: ps) xs := fun xs =>
        dropFrom_congr (fun i _ => by simpa using fun heq => heq ▸ h) xs
      rw [List.map_cons, hps, hps', dropFrom_cons_dead, dropFrom_cons_dead, ih]
    · rw [List.map_cons, dropFrom_cons_kept h, dropFrom_cons_kept h, List.map_cons, ih]

theorem map_dropPositions (f : α → β) (ps : List ℕ) (l : List α) :
    (dropPositions ps l).map f = dropPositions ps (l.map f) := map_dropFrom f 0 ps l

theorem dropFrom_append (n : ℕ) (ps : List ℕ) (xs ys : List α) :
    dropFrom n ps (xs ++ ys) = dropFrom n ps xs ++ dropFrom (n + xs.length) ps ys := by
  rw [dropFrom, dropFrom, dropFrom, List.zipIdx_append, List.filter_append, List.map_append]

/-- Nothing is taken out before the first position. -/
theorem dropFrom_of_lt {n : ℕ} {ps : List ℕ} {l : List α}
    (h : ∀ i ∈ ps, i < n ∨ n + l.length ≤ i) : dropFrom n ps l = l := by
  have hall : (l.zipIdx n).filter (fun q => q.2 ∉ ps) = l.zipIdx n := by
    refine List.filter_eq_self.2 fun q hq => decide_eq_true fun hin => ?_
    obtain ⟨hge, hlt, -⟩ := List.mem_zipIdx hq
    have := h q.2 hin
    omega
  rw [dropFrom, hall, List.zipIdx_map_fst]

theorem dropPositions_nil (l : List α) : dropPositions [] l = l :=
  dropFrom_of_lt fun _ hi => absurd hi List.not_mem_nil

theorem dropPositions_sublist (ps : List ℕ) (l : List α) : (dropPositions ps l).Sublist l := by
  have hsub : (l.zipIdx.filter fun q => decide (q.2 ∉ ps)).Sublist l.zipIdx := List.filter_sublist
  have hmap := hsub.map Prod.fst
  rwa [List.zipIdx_map_fst] at hmap

/-- A list without holes. -/
theorem exists_map_some {l : List (Option α)} (h : ∀ s ∈ l, s.isSome = true) :
    ∃ xs : List α, l = xs.map some := by
  induction l with
  | nil => exact ⟨[], rfl⟩
  | cons s l ih =>
    obtain ⟨x, rfl⟩ := Option.isSome_iff_exists.1 (h s List.mem_cons_self)
    obtain ⟨xs, rfl⟩ := ih fun s hs => h s (List.mem_cons_of_mem _ hs)
    exact ⟨x :: xs, rfl⟩

/-- Taking out, besides, the elements that do not satisfy `p`. -/
theorem filter_dropFrom {n : ℕ} {ps qs : List ℕ} {p : α → Bool} {l : List α}
    (h : ∀ i a, l[i]? = some a → (n + i ∈ qs ↔ n + i ∈ ps ∨ p a = false)) :
    (dropFrom n ps l).filter p = dropFrom n qs l := by
  unfold dropFrom
  rw [List.filter_map, List.filter_filter]
  congr 1
  refine List.filter_congr fun q hq => ?_
  obtain ⟨hge, hlt, hget⟩ := List.mem_zipIdx hq
  have hmem := h (q.2 - n) q.1 (by rw [List.getElem?_eq_getElem (by omega), hget])
  rw [Nat.add_sub_cancel' hge] at hmem
  cases hp : p q.1 <;> simp [hmem, hp]

/-- **Taking ascending positions out, last first**, leaves the elements at the others. -/
theorem removeAt_eq {ps : List ℕ} (h : ps.Pairwise (· < ·)) (l : List α) :
    removeAt ps l = dropPositions ps l := by
  induction ps with
  | nil => exact (dropFrom_of_lt (fun i hi => absurd hi List.not_mem_nil)).symm
  | cons i ps ih =>
    obtain ⟨hlt, hps⟩ := List.pairwise_cons.1 h
    show (removeAt ps l).eraseIdx i = _
    rw [ih hps]
    by_cases hi : i < l.length
    · obtain ⟨xs, a, ys, rfl, rfl⟩ : ∃ xs a ys, l = xs ++ a :: ys ∧ i = xs.length := by
        refine ⟨l.take i, l[i], l.drop (i + 1), ?_, ?_⟩
        · rw [List.getElem_cons_drop, List.take_append_drop]
        · rw [List.length_take, Nat.min_eq_left (Nat.le_of_lt hi)]
      have hkept : ∀ qs : List ℕ, (∀ j ∈ qs, xs.length ≤ j) → dropFrom 0 qs xs = xs :=
        fun qs hqs => dropFrom_of_lt fun j hj => .inr (by have := hqs j hj; omega)
      have hout : xs.length ∉ ps := fun hin => Nat.lt_irrefl _ (hlt _ hin)
      rw [dropPositions, dropPositions, dropFrom_append, dropFrom_append, Nat.zero_add,
        dropFrom_cons_kept hout, dropFrom_cons_dead, hkept ps fun j hj => Nat.le_of_lt (hlt j hj),
        hkept (xs.length :: ps) fun j hj => (List.mem_cons.1 hj).elim
          (fun heq => heq ▸ Nat.le_refl _) fun hj => Nat.le_of_lt (hlt j hj),
        List.eraseIdx_append_of_length_le (Nat.le_refl _), Nat.sub_self, List.eraseIdx_zero,
        List.tail_cons]
    · have hsame : dropPositions (i :: ps) l = dropPositions ps l := by
        rw [dropPositions, dropFrom_of_lt fun j hj => .inr ?_, dropPositions,
          dropFrom_of_lt fun j hj => .inr ?_]
        · have := hlt j hj
          omega
        · rcases List.mem_cons.1 hj with rfl | hj
          · omega
          · have := hlt j hj
            omega
      have hself : dropPositions ps l = l := dropFrom_of_lt fun j hj => .inr (by
        have := hlt j hj
        omega)
      rw [hsame, hself, List.eraseIdx_of_length_le (by omega)]

/-! ## What a sweep takes out -/

variable [DecidableEq κ] {f : α → Option κ} {strict : Bool}

/-- The positions from `n` on of the elements whose key has occurred and, where the sweep is
strict, of those without a key. -/
def deadFrom (f : α → Option κ) (strict : Bool) : Finset κ → ℕ → List α → List ℕ
  | _, _, [] => []
  | seen, n, a :: l =>
    match f a with
    | none =>
      if strict then n :: deadFrom f strict seen (n + 1) l else deadFrom f strict seen (n + 1) l
    | some k =>
      if k ∈ seen then n :: deadFrom f strict seen (n + 1) l
      else deadFrom f strict (insert k seen) (n + 1) l

/-- The positions a sweep takes out. -/
def dead (f : α → Option κ) (strict : Bool) (l : List α) : List ℕ := deadFrom f strict ∅ 0 l

theorem le_of_mem_deadFrom {seen : Finset κ} {n i : ℕ} {l : List α}
    (h : i ∈ deadFrom f strict seen n l) : n ≤ i := by
  induction l generalizing seen n with
  | nil => cases h
  | cons a l ih =>
    have hrest : ∀ seen, i ∈ deadFrom f strict seen (n + 1) l → n ≤ i := fun seen hi =>
      Nat.le_of_succ_le (ih hi)
    have hcons : ∀ seen, i ∈ n :: deadFrom f strict seen (n + 1) l → n ≤ i := fun seen hi =>
      (List.mem_cons.1 hi).elim (fun heq => Nat.le_of_eq heq.symm) (hrest seen)
    unfold deadFrom at h
    split at h
    · split at h
      · exact hcons _ h
      · exact hrest _ h
    · split at h
      · exact hcons _ h
      · exact hrest _ h

theorem deadFrom_ascending (seen : Finset κ) (n : ℕ) (l : List α) :
    (deadFrom f strict seen n l).Pairwise (· < ·) := by
  induction l generalizing seen n with
  | nil => exact List.Pairwise.nil
  | cons a l ih =>
    have hcons : ∀ seen, (n :: deadFrom f strict seen (n + 1) l).Pairwise (· < ·) := fun seen =>
      List.pairwise_cons.2 ⟨fun i hi => le_of_mem_deadFrom hi, ih seen (n + 1)⟩
    unfold deadFrom
    split
    · split
      · exact hcons _
      · exact ih _ _
    · split
      · exact hcons _
      · exact ih _ _

theorem notMem_deadFrom_succ (seen : Finset κ) (n : ℕ) (l : List α) :
    n ∉ deadFrom f strict seen (n + 1) l := fun h => Nat.not_succ_le_self n (le_of_mem_deadFrom h)

theorem removeAt_dead (f : α → Option κ) (strict : Bool) (l : List α) (xs : List β) :
    removeAt (dead f strict l) xs = dropPositions (dead f strict l) xs :=
  removeAt_eq (deadFrom_ascending _ _ _) xs

theorem filterMap_dropFrom {g : α → Option β} {key : β → κ} {l : List α}
    (hkey : ∀ a ∈ l, f a = (g a).map key) (seen : Finset κ) (n : ℕ) :
    (dropFrom n (deadFrom f strict seen n l) l).filterMap g =
      firstsOnFrom key seen (l.filterMap g) := by
  induction l generalizing seen n with
  | nil => rfl
  | cons a l ih =>
    have ha := hkey a List.mem_cons_self
    replace ih := fun seen => ih (fun b hb => hkey b (List.mem_cons_of_mem _ hb)) seen
    unfold deadFrom
    cases hg : g a with
    | none =>
      rw [hg, Option.map_none] at ha
      rw [ha, List.filterMap_cons_none hg]
      dsimp only
      split
      · rw [dropFrom_cons_dead, ih]
      · rw [dropFrom_cons_kept (notMem_deadFrom_succ _ _ _), List.filterMap_cons_none hg, ih]
    | some b =>
      rw [hg, Option.map_some] at ha
      rw [ha, List.filterMap_cons_some hg, firstsOnFrom]
      dsimp only
      split
      · rw [dropFrom_cons_dead, ih]
      · rw [dropFrom_cons_kept (notMem_deadFrom_succ _ _ _), List.filterMap_cons_some hg, ih]

/-- **What a sweep leaves**: the first element under every key. -/
theorem filterMap_dropPositions_on {g : α → Option β} {key : β → κ} {l : List α}
    (hkey : ∀ a ∈ l, f a = (g a).map key) (strict : Bool) :
    (dropPositions (dead f strict l) l).filterMap g = firstsOn key (l.filterMap g) :=
  filterMap_dropFrom hkey ∅ 0

theorem filterMap_dropPositions (f : α → Option κ) (strict : Bool) (l : List α) :
    (dropPositions (dead f strict l) l).filterMap f = firsts (l.filterMap f) := by
  have hself := map_firstsOn (fun k : κ => k) (l.filterMap f)
  rw [List.map_id', List.map_id'] at hself
  rw [← hself]
  exact filterMap_dropPositions_on (fun a _ => Option.map_id'.symm ▸ rfl) strict

/-- A strict sweep leaves nothing without a key. -/
theorem isSome_of_mem_dropFrom {seen : Finset κ} {n : ℕ} {l : List α} {a : α}
    (h : a ∈ dropFrom n (deadFrom f true seen n l) l) : (f a).isSome = true := by
  induction l generalizing seen n with
  | nil => cases h
  | cons b l ih =>
    unfold deadFrom at h
    split at h
    · rw [if_pos rfl, dropFrom_cons_dead] at h
      exact ih h
    · rename_i k hk
      split at h
      · rw [dropFrom_cons_dead] at h
        exact ih h
      · rw [dropFrom_cons_kept (notMem_deadFrom_succ _ _ _)] at h
        rcases List.mem_cons.1 h with rfl | h
        · rw [hk]
          rfl
        · exact ih h

theorem isSome_of_mem_dropPositions {l : List α} {a : α}
    (h : a ∈ dropPositions (dead f true l) l) : (f a).isSome = true := isSome_of_mem_dropFrom h

/-- **A clean list**: nothing is to be taken out. -/
theorem dead_eq_nil {l : List α} (hkeyed : strict = true → ∀ a ∈ l, (f a).isSome = true)
    (hnodup : (l.filterMap f).Nodup) : dead f strict l = [] := by
  suffices h : ∀ (seen : Finset κ) (n : ℕ), (∀ k ∈ l.filterMap f, k ∉ seen) →
      deadFrom f strict seen n l = [] from h ∅ 0 fun k _ => Finset.notMem_empty k
  induction l with
  | nil => exact fun _ _ _ => rfl
  | cons a l ih =>
    intro seen n hseen
    have hkeyed' : strict = true → ∀ a ∈ l, (f a).isSome = true := fun hs b hb =>
      hkeyed hs b (List.mem_cons_of_mem _ hb)
    cases hk : f a with
    | none =>
      rw [List.filterMap_cons_none hk] at hnodup hseen
      have hloose : strict = false := by
        cases strict with
        | false => rfl
        | true =>
          have hsome := hkeyed rfl a List.mem_cons_self
          rw [hk] at hsome
          cases hsome
      unfold deadFrom
      rw [hk]
      dsimp only
      rw [if_neg (by simp [hloose])]
      exact ih hkeyed' hnodup seen (n + 1) hseen
    | some k =>
      rw [List.filterMap_cons_some hk] at hnodup hseen
      obtain ⟨hout, hnodup⟩ := List.nodup_cons.1 hnodup
      unfold deadFrom
      rw [hk]
      dsimp only
      rw [if_neg (hseen k List.mem_cons_self)]
      refine ih hkeyed' hnodup _ (n + 1) fun j hj => ?_
      rw [Finset.mem_insert, not_or]
      exact ⟨fun heq => hout (heq ▸ hj), hseen j (List.mem_cons_of_mem _ hj)⟩

/-- **A second sweep** finds nothing. -/
theorem dead_dropPositions (f : α → Option κ) (strict : Bool) (l : List α) :
    dead f strict (dropPositions (dead f strict l) l) = [] := by
  refine dead_eq_nil (fun hstrict a ha => ?_) ?_
  · subst hstrict
    exact isSome_of_mem_dropPositions ha
  · rw [filterMap_dropPositions]
    exact firsts_nodup _

/-- What was seen of the keys that count. -/
def SeenAs (p : κ → Bool) (seen seenP : Finset κ) : Prop := ∀ k, p k = true → (k ∈ seenP ↔ k ∈ seen)

theorem SeenAs.insert {p : κ → Bool} {seen seenP : Finset κ} (h : SeenAs p seen seenP) (k : κ) :
    SeenAs p (insert k seen) (if p k = true ∧ k ∉ seenP then insert k seenP else seenP) := by
  intro j hj
  split
  · rw [Finset.mem_insert, Finset.mem_insert, h j hj]
  · rename_i hk
    rw [Finset.mem_insert, h j hj]
    refine (or_iff_right_of_imp fun heq => ?_).symm
    subst heq
    by_contra hout
    exact hk ⟨hj, fun hin => hout ((h j hj).1 hin)⟩

/-- One step of a strict sweep with the keys that count. -/
theorem deadFrom_cons (p : κ → Bool) (seen : Finset κ) (n : ℕ) (a : α) (l : List α) :
    deadFrom (fun a => (f a).filter p) true seen n (a :: l) =
      match f a with
      | none => n :: deadFrom (fun a => (f a).filter p) true seen (n + 1) l
      | some k =>
        let rest := deadFrom (fun a => (f a).filter p) true
          (if p k = true ∧ k ∉ seen then insert k seen else seen) (n + 1) l
        if p k = true ∧ k ∉ seen then rest else n :: rest := by
  rw [deadFrom]
  cases hk : f a with
  | none => rfl
  | some k =>
    by_cases hp : p k = true
    · by_cases hin : k ∈ seen
      · simp [Option.filter, hp, hin]
      · simp [Option.filter, hp, hin]
    · simp [Option.filter, hp]

theorem mem_ite_cons_or {cp cq cpq : Prop} [Decidable cp] [Decidable cq] [Decidable cpq]
    (h : cpq ↔ cp ∧ cq) {rp rq rpq : List ℕ} {i n : ℕ} (hrest : i ∈ rpq ↔ i ∈ rp ∨ i ∈ rq) :
    (i ∈ if cpq then rpq else n :: rpq) ↔
      (i ∈ if cp then rp else n :: rp) ∨ i ∈ if cq then rq else n :: rq := by
  by_cases hp : cp
  · by_cases hq : cq
    · rw [if_pos (h.2 ⟨hp, hq⟩), if_pos hp, if_pos hq, hrest]
    · rw [if_neg fun hpq => hq (h.1 hpq).2, if_pos hp, if_neg hq, List.mem_cons, List.mem_cons,
        hrest]
      exact or_left_comm
  · rw [if_neg fun hpq => hp (h.1 hpq).1, if_neg hp, List.mem_cons, List.mem_cons, hrest]
    by_cases hq : cq
    · rw [if_pos hq, or_assoc]
    · rw [if_neg hq, List.mem_cons]
      tauto

/-- **Two sweeps** of one list take out what one with the common keys takes out. -/
theorem mem_dead_union (f : α → Option κ) (p q : κ → Bool) (l : List α) (i : ℕ) :
    i ∈ dead (fun a => (f a).filter fun k => p k && q k) true l ↔
      i ∈ dead (fun a => (f a).filter p) true l ∨ i ∈ dead (fun a => (f a).filter q) true l := by
  suffices h : ∀ (seen sp sq spq : Finset κ) (n : ℕ), SeenAs p seen sp → SeenAs q seen sq →
      SeenAs (fun k => p k && q k) seen spq →
      (i ∈ deadFrom (fun a => (f a).filter fun k => p k && q k) true spq n l ↔
        i ∈ deadFrom (fun a => (f a).filter p) true sp n l ∨
          i ∈ deadFrom (fun a => (f a).filter q) true sq n l) from
    h ∅ ∅ ∅ ∅ 0 (fun _ _ => Iff.rfl) (fun _ _ => Iff.rfl) fun _ _ => Iff.rfl
  induction l with
  | nil => simp [deadFrom]
  | cons a l ih =>
    intro seen sp sq spq n hp hq hpq
    rw [deadFrom_cons, deadFrom_cons, deadFrom_cons]
    cases hk : f a with
    | none =>
      have hrest := ih seen sp sq spq (n + 1) hp hq hpq
      simp only [List.mem_cons, hrest]
      tauto
    | some k =>
      have hrest := ih _ _ _ _ (n + 1) (hp.insert k) (hq.insert k) (hpq.insert k)
      have hiff : ((p k && q k) = true ∧ k ∉ spq) ↔
          (p k = true ∧ k ∉ sp) ∧ (q k = true ∧ k ∉ sq) := by
        rw [Bool.and_eq_true]
        constructor
        · rintro ⟨⟨hpk, hqk⟩, hout⟩
          have hseen : k ∉ seen := fun hin => hout ((hpq k (by simp [hpk, hqk])).2 hin)
          exact ⟨⟨hpk, fun hin => hseen ((hp k hpk).1 hin)⟩, hqk,
            fun hin => hseen ((hq k hqk).1 hin)⟩
        · rintro ⟨⟨hpk, hout⟩, hqk, -⟩
          exact ⟨⟨hpk, hqk⟩, fun hin => hout ((hp k hpk).2 ((hpq k (by simp [hpk, hqk])).1 hin))⟩
      exact mem_ite_cons_or hiff hrest

end Monoplan.Base
