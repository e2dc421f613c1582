import Mathlib.Data.List.Sort

/-!
# Stable sorting and runs

Sorting by a comparison, and cutting a sorted list into runs of one key, for arbitrary types.

* `sortBy cmp l`: the stable sort; elements that compare equal keep their order.  It commutes
  with `filter` (`sortBy_filter`) and with `map` (`sortBy_map`), depends on the comparison of the
  list's own elements alone (`sortBy_congr`), and falls apart where one part of a list lies
  before the rest (`sortBy_split`).
* `runs k rows l`: the runs of a keyed list, of which the first has begun with `rows`.  It is
  what a loop computes that adds each element to the last run or opens a new one
  (`foldl_pushRun`), and on a sorted list it commutes with leaving elements out
  (`prune_runs`).
-/

namespace Monoplan.Base

variable {α β : Type*}

/-! ## Sorting -/

/-- Sort by a comparison; equal elements keep their order. -/
def sortBy (cmp : α → α → Ordering) (l : List α) : List α :=
  l.insertionSort fun a b => (cmp a b).isLE = true

theorem sortBy_cons (cmp : α → α → Ordering) (a : α) (l : List α) :
    sortBy cmp (a :: l) = (sortBy cmp l).orderedInsert (fun a b => (cmp a b).isLE = true) a := rfl

@[simp] theorem mem_sortBy {cmp : α → α → Ordering} {l : List α} {a : α} :
    a ∈ sortBy cmp l ↔ a ∈ l :=
  List.mem_insertionSort _

theorem sortBy_map {cmp : α → α → Ordering} {cmp' : β → β → Ordering} (f : α → β) {l : List α}
    (h : ∀ a ∈ l, ∀ b ∈ l, cmp a b = cmp' (f a) (f b)) :
    (sortBy cmp l).map f = sortBy cmp' (l.map f) := by
  unfold sortBy
  apply List.map_insertionSort
  intro a ha b hb
  rw [h a ha b hb]

theorem sortBy_congr {cmp cmp' : α → α → Ordering} {l : List α}
    (h : ∀ a ∈ l, ∀ b ∈ l, cmp a b = cmp' a b) : sortBy cmp l = sortBy cmp' l := by
  have hmap : (sortBy cmp l).map id = sortBy cmp' (l.map id) := sortBy_map id h
  rwa [List.map_id, List.map_id] at hmap

section Insert

variable {r : α → α → Prop} [DecidableRel r] {a : α} {l l₁ l₂ : List α}

/-- What lies before everything goes to the front. -/
theorem orderedInsert_of_forall (h : ∀ b ∈ l, r a b) : l.orderedInsert r a = a :: l := by
  cases l with
  | nil => rfl
  | cons b l => exact List.orderedInsert_cons_of_le r l (h b List.mem_cons_self)

theorem filter_orderedInsert [IsTrans α r] (p : α → Bool) (hl : l.Pairwise r) :
    (l.orderedInsert r a).filter p =
      if p a then (l.filter p).orderedInsert r a else l.filter p := by
  induction l with
  | nil => simp [List.filter_cons]
  | cons b l ih =>
    obtain ⟨hb, hl⟩ := List.pairwise_cons.1 hl
    by_cases hab : r a b
    · have hall : ∀ c ∈ (b :: l).filter p, r a c := by
        intro c hc
        rcases List.mem_cons.1 (List.mem_filter.1 hc).1 with rfl | hc
        · exact hab
        · exact IsTrans.trans _ _ _ hab (hb c hc)
      rw [List.orderedInsert_cons_of_le r l hab, List.filter_cons, orderedInsert_of_forall hall]
    · rw [List.orderedInsert_of_not_le r l hab, List.filter_cons, ih hl, List.filter_cons]
      by_cases hpb : p b = true
      · by_cases hpa : p a = true
        · rw [if_pos hpb, if_pos hpb, if_pos hpa, if_pos hpa, List.orderedInsert_of_not_le r _ hab]
        · rw [if_pos hpb, if_pos hpb, if_neg hpa, if_neg hpa]
      · rw [if_neg hpb, if_neg hpb]

/-- Insert before a part that lies behind. -/
theorem orderedInsert_append_left (h : ∀ b ∈ l₂, r a b) :
    (l₁ ++ l₂).orderedInsert r a = l₁.orderedInsert r a ++ l₂ := by
  induction l₁ with
  | nil => exact orderedInsert_of_forall h
  | cons b l₁ ih =>
    by_cases hab : r a b
    · simp [hab]
    · simp [hab, ih]

/-- Insert behind a part that lies before. -/
theorem orderedInsert_append_right (h : ∀ b ∈ l₁, ¬r a b) :
    (l₁ ++ l₂).orderedInsert r a = l₁ ++ l₂.orderedInsert r a := by
  induction l₁ with
  | nil => rfl
  | cons b l₁ ih =>
    obtain ⟨hb, h⟩ := List.forall_mem_cons.1 h
    simp [hb, ih h]

end Insert

section Compare

variable {cmp : α → α → Ordering} [Std.TransCmp cmp] {l : List α}

instance isTrans_isLE : IsTrans α fun a b => (cmp a b).isLE = true :=
  ⟨fun _ _ _ => Std.TransCmp.isLE_trans⟩

instance total_isLE : Std.Total fun a b => (cmp a b).isLE = true := by
  constructor
  intro a b
  cases hab : cmp a b with
  | lt => exact .inl rfl
  | eq => exact .inl rfl
  | gt =>
    have hswap : cmp b a = (cmp a b).swap := Std.OrientedCmp.eq_swap
    exact .inr (by rw [hswap, hab]; rfl)

theorem sortBy_pairwise : (sortBy cmp l).Pairwise fun a b => (cmp a b).isLE = true :=
  List.pairwise_insertionSort _ l

/-- **Leaving elements out and sorting commute.** -/
theorem sortBy_filter (p : α → Bool) : (sortBy cmp l).filter p = sortBy cmp (l.filter p) := by
  induction l with
  | nil => rfl
  | cons a l ih =>
    rw [sortBy_cons, filter_orderedInsert p sortBy_pairwise, ih, List.filter_cons]
    split <;> rfl

/-- Elements that lie before all others come first. -/
theorem sortBy_split (p : α → Bool)
    (h : ∀ a ∈ l, ∀ b ∈ l, p a = true → p b = false → cmp a b = .lt) :
    sortBy cmp l = sortBy cmp (l.filter p) ++ sortBy cmp (l.filter fun a => !p a) := by
  induction l with
  | nil => rfl
  | cons a l ih =>
    have hl : ∀ b ∈ l, ∀ c ∈ l, p b = true → p c = false → cmp b c = .lt := fun b hb c hc =>
      h b (List.mem_cons_of_mem _ hb) c (List.mem_cons_of_mem _ hc)
    rw [sortBy_cons, ih hl, List.filter_cons, List.filter_cons]
    cases hpa : p a with
    | true =>
      rw [if_pos rfl, if_neg (by simp), sortBy_cons]
      apply orderedInsert_append_left
      intro b hb
      obtain ⟨hb, hpb⟩ := List.mem_filter.1 (mem_sortBy.1 hb)
      rw [h a List.mem_cons_self b (List.mem_cons_of_mem _ hb) hpa (by simpa using hpb)]
      rfl
    | false =>
      rw [if_neg (by simp), if_pos (by simp), sortBy_cons]
      apply orderedInsert_append_right
      intro b hb
      obtain ⟨hb, hpb⟩ := List.mem_filter.1 (mem_sortBy.1 hb)
      have hswap : cmp a b = (cmp b a).swap := Std.OrientedCmp.eq_swap
      rw [hswap, h b (List.mem_cons_of_mem _ hb) a List.mem_cons_self hpb hpa]
      exact Bool.false_ne_true

end Compare

/-! ## Runs -/

section Runs

variable {κ ρ : Type*} [LinearOrder κ]

/-- Add to the last run if it is of this key, or open a new one. -/
def pushRun : List (κ × List ρ) → κ × ρ → List (κ × List ρ)
  | [], (d, r) => [(d, [r])]
  | [(k, rows)], (d, r) => if k = d then [(k, rows ++ [r])] else [(k, rows), (d, [r])]
  | g :: g' :: gs, p => g :: pushRun (g' :: gs) p

/-- The runs of a keyed list, of which the first has begun. -/
def runs (k : κ) (rows : List ρ) : List (κ × ρ) → List (κ × List ρ)
  | [] => [(k, rows)]
  | (d, r) :: l => if k = d then runs k (rows ++ [r]) l else (k, rows) :: runs d [r] l

theorem pushRun_append (gs : List (κ × List ρ)) (g : κ × List ρ) (p : κ × ρ) :
    pushRun (gs ++ [g]) p = gs ++ pushRun [g] p := by
  induction gs with
  | nil => rfl
  | cons g' gs ih =>
    cases gs with
    | nil => rfl
    | cons g'' gs => exact congrArg (g' :: ·) ih

theorem foldl_pushRun_append (gs : List (κ × List ρ)) (k : κ) (rows : List ρ)
    (l : List (κ × ρ)) : l.foldl pushRun (gs ++ [(k, rows)]) = gs ++ runs k rows l := by
  induction l generalizing gs k rows with
  | nil => rfl
  | cons p l ih =>
    obtain ⟨d, r⟩ := p
    rw [List.foldl_cons, pushRun_append, pushRun, runs]
    split
    · exact ih gs k (rows ++ [r])
    · have h := ih (gs ++ [(k, rows)]) d [r]
      simpa only [List.append_assoc, List.singleton_append, List.cons_append, List.nil_append]
        using h

/-- **The loop computes the runs.** -/
theorem foldl_pushRun (k : κ) (rows : List ρ) (l : List (κ × ρ)) :
    l.foldl pushRun [(k, rows)] = runs k rows l :=
  foldl_pushRun_append [] k rows l

/-- Rows of the first run's own key go to it. -/
theorem runs_same (k : κ) (rows rs : List ρ) (l : List (κ × ρ)) :
    runs k rows (rs.map (fun r => (k, r)) ++ l) = runs k (rows ++ rs) l := by
  induction rs generalizing rows with
  | nil => rw [List.append_nil]; rfl
  | cons r rs ih =>
    rw [List.map_cons, List.cons_append, runs, if_pos rfl, ih, List.append_assoc]
    rfl

/-- The runs of a keyed list. -/
def allRuns : List (κ × ρ) → List (κ × List ρ)
  | [] => []
  | (d, r) :: l => runs d [r] l

/-- A run with some rows left out, gone where it lies behind the last key or where this empties it
and it is not the one to keep. -/
def pruned (keep last : κ) (p : ρ → Bool) (g : κ × List ρ) : List (κ × List ρ) :=
  if g.1 ≤ last ∧ (g.1 = keep ∨ g.2.filter p ≠ []) then [(g.1, g.2.filter p)] else []

/-- What is left of all runs. -/
def prune (keep last : κ) (p : ρ → Bool) (gs : List (κ × List ρ)) : List (κ × List ρ) :=
  gs.flatMap (pruned keep last p)

variable {keep last k : κ} {p : ρ → Bool} {rows : List ρ} {l : List (κ × ρ)}

theorem prune_cons (g : κ × List ρ) (gs : List (κ × List ρ)) :
    prune keep last p (g :: gs) = pruned keep last p g ++ prune keep last p gs :=
  List.flatMap_cons

/-- Behind the last key nothing is left. -/
theorem prune_runs_behind (hk : last < k) (hl : ∀ a ∈ l, last < a.1) :
    prune keep last p (runs k rows l) = [] := by
  have hnone (rows : List ρ) : pruned keep last p (k, rows) = [] :=
    if_neg fun h => not_lt_of_ge h.1 hk
  induction l generalizing k rows with
  | nil => rw [runs, prune_cons, hnone]; rfl
  | cons a l ih =>
    obtain ⟨ha, hl⟩ := List.forall_mem_cons.1 hl
    rw [runs]
    split
    · exact ih hk hl hnone
    · rw [prune_cons, hnone]
      exact ih ha hl fun rows => if_neg fun h => not_lt_of_ge h.1 ha

/-- A run whose key is over. -/
theorem runs_of_ne (h : ∀ a ∈ l, k ≠ a.1) : runs k rows l = (k, rows) :: allRuns l := by
  cases l with
  | nil => rfl
  | cons a l => rw [runs, if_neg (h a List.mem_cons_self)]; rfl

/-- **On a sorted list, leaving rows out of the runs is leaving elements out of the list**: a run
stays open as long as its key lasts, and is gone if it stays empty. -/
theorem prune_runs (hsorted : l.Pairwise fun a b => a.1 ≤ b.1) (hk : ∀ a ∈ l, k ≤ a.1)
    (hkeep : keep ≤ k) (hlast : k ≤ last) :
    prune keep last p (runs k rows l) =
      if k = keep ∨ rows.filter p ≠ [] then
        runs k (rows.filter p) (l.filter fun a => decide (a.1 ≤ last) && p a.2)
      else allRuns (l.filter fun a => decide (a.1 ≤ last) && p a.2) := by
  induction l generalizing k rows with
  | nil =>
    rw [runs, prune_cons, pruned]
    simp only [hlast, true_and]
    split <;> rfl
  | cons a l ih =>
    obtain ⟨d, r⟩ := a
    obtain ⟨hd, htail⟩ := List.pairwise_cons.1 hsorted
    obtain ⟨hkd, hkl⟩ := List.forall_mem_cons.1 hk
    rw [runs]
    split
    · rename_i heq
      subst heq
      rw [ih htail hkl hkeep hlast, List.filter_append, List.filter_cons, List.filter_cons]
      simp only [hlast, decide_true, Bool.true_and, List.filter_nil]
      cases hp : p r with
      | false => simp
      | true =>
        have hne : k = keep ∨ rows.filter p ++ [r] ≠ [] := .inr (by simp)
        simp only [if_true]
        rw [if_pos hne]
        split
        · rw [runs, if_pos rfl]
        · rename_i hnot
          rw [not_or, not_not] at hnot
          rw [hnot.2]
          rfl
    · rename_i hne
      have hlt : k < d := lt_of_le_of_ne hkd hne
      have hdkeep : d ≠ keep := (hkeep.trans_lt hlt).ne'
      have hrest : prune keep last p (runs d [r] l) =
          allRuns (((d, r) :: l).filter fun a => decide (a.1 ≤ last) && p a.2) := by
        by_cases hdlast : d ≤ last
        · rw [ih htail hd (hkeep.trans hlt.le) hdlast, List.filter_cons, List.filter_cons]
          simp only [hdlast, decide_true, Bool.true_and, List.filter_nil, hdkeep, false_or]
          cases hp : p r with
          | false => simp
          | true => simp [allRuns]
        · have hbehind : ∀ a ∈ (d, r) :: l, last < a.1 :=
            List.forall_mem_cons.2 ⟨not_le.1 hdlast, fun a ha => (not_le.1 hdlast).trans_le (hd a ha)⟩
          have hnil : ((d, r) :: l).filter (fun a => decide (a.1 ≤ last) && p a.2) = [] := by
            refine List.filter_eq_nil_iff.2 fun a ha => ?_
            simp [not_le.2 (hbehind a ha)]
          rw [hnil, prune_runs_behind (not_le.1 hdlast) fun a ha =>
            hbehind a (List.mem_cons_of_mem _ ha)]
          rfl
      have hover : ∀ a ∈ ((d, r) :: l).filter (fun a => decide (a.1 ≤ last) && p a.2), k ≠ a.1 := by
        intro a ha
        rcases List.mem_cons.1 (List.mem_filter.1 ha).1 with rfl | ha
        · exact hlt.ne
        · exact (hlt.trans_le (hd a ha)).ne
      rw [prune_cons, hrest, pruned, runs_of_ne hover]
      simp only [hlast, true_and]
      split <;> rfl

theorem le_of_mem_runs (hsorted : l.Pairwise fun a b => a.1 ≤ b.1) (hk : ∀ a ∈ l, k ≤ a.1)
    {g : κ × List ρ} (hg : g ∈ runs k rows l) : k ≤ g.1 := by
  induction l generalizing k rows with
  | nil => rw [List.mem_singleton.1 hg]
  | cons a l ih =>
    obtain ⟨d, r⟩ := a
    obtain ⟨hd, htail⟩ := List.pairwise_cons.1 hsorted
    obtain ⟨hkd, hkl⟩ := List.forall_mem_cons.1 hk
    rw [runs] at hg
    split at hg
    · exact ih htail hkl hg
    · rcases List.mem_cons.1 hg with rfl | hg
      · exact le_rfl
      · exact hkd.trans (ih htail hd hg)

/-- **Rows ahead of the first run**, where the later runs are of other keys. -/
theorem runs_prefix (pre : List ρ) (hsorted : l.Pairwise fun a b => a.1 ≤ b.1)
    (hk : ∀ a ∈ l, k ≤ a.1) :
    ((runs k rows l).map fun g => if g.1 = k then (g.1, pre ++ g.2) else g) =
      runs k (pre ++ rows) l := by
  induction l generalizing rows with
  | nil => simp [runs]
  | cons a l ih =>
    obtain ⟨d, r⟩ := a
    obtain ⟨hd, htail⟩ := List.pairwise_cons.1 hsorted
    obtain ⟨hkd, hkl⟩ := List.forall_mem_cons.1 hk
    rw [runs, runs]
    split
    · rw [ih htail hkl, List.append_assoc]
    · rename_i hne
      have hlater : ∀ g ∈ runs d [r] l, g.1 ≠ k := by
        intro g hg
        have hle := le_of_mem_runs htail hd hg
        exact ((lt_of_le_of_ne hkd hne).trans_le hle).ne'
      have hrest : (runs d [r] l).map (fun g => if g.1 = k then (g.1, pre ++ g.2) else g) =
          runs d [r] l := by
        rw [List.map_congr_left fun g hg => if_neg (hlater g hg), List.map_id']
      rw [List.map_cons, hrest, if_pos rfl]

end Runs

end Monoplan.Base
