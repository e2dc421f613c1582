import Monoplan.Base.Firsts

/-!
# Shuffles

`Shuffle xs ys zs`: `zs` runs through `xs` and `ys`, each in its own order.  It is what becomes of
two runs that were put in at one place at the same time.  However they are shuffled, two copies
of a run have the run as their first occurrences (`firsts_shuffle_self`).
-/

namespace Monoplan.Base

variable {α β : Type*}

/-- A list made of two others, each in its own order. -/
inductive Shuffle : List α → List α → List α → Prop
  | nil : Shuffle [] [] []
  | left {xs ys zs : List α} (a : α) : Shuffle xs ys zs → Shuffle (a :: xs) ys (a :: zs)
  | right {xs ys zs : List α} (a : α) : Shuffle xs ys zs → Shuffle xs (a :: ys) (a :: zs)

namespace Shuffle

variable {xs ys zs : List α}

theorem nil_left (ys : List α) : Shuffle [] ys ys := by
  induction ys with
  | nil => exact .nil
  | cons a ys ih => exact .right a ih

theorem nil_right (xs : List α) : Shuffle xs [] xs := by
  induction xs with
  | nil => exact .nil
  | cons a xs ih => exact .left a ih

/-- One after the other. -/
theorem append (xs ys : List α) : Shuffle xs ys (xs ++ ys) := by
  induction xs with
  | nil => exact nil_left ys
  | cons a xs ih => exact .left a ih

theorem mem_iff (h : Shuffle xs ys zs) {a : α} : a ∈ zs ↔ a ∈ xs ∨ a ∈ ys := by
  induction h with
  | nil => simp
  | left b _ ih =>
    rw [List.mem_cons, List.mem_cons, ih, or_assoc]
  | right b _ ih =>
    rw [List.mem_cons, List.mem_cons, ih]
    exact or_left_comm

theorem map (h : Shuffle xs ys zs) (f : α → β) : Shuffle (xs.map f) (ys.map f) (zs.map f) := by
  induction h with
  | nil => exact .nil
  | left a _ ih => exact .left (f a) ih
  | right a _ ih => exact .right (f a) ih

theorem filter (h : Shuffle xs ys zs) (p : α → Bool) :
    Shuffle (xs.filter p) (ys.filter p) (zs.filter p) := by
  induction h with
  | nil => exact .nil
  | left a _ ih =>
    by_cases ha : p a = true
    · rw [List.filter_cons_of_pos ha, List.filter_cons_of_pos ha]
      exact .left a ih
    · rw [List.filter_cons_of_neg ha, List.filter_cons_of_neg ha]
      exact ih
  | right a _ ih =>
    by_cases ha : p a = true
    · rw [List.filter_cons_of_pos ha, List.filter_cons_of_pos ha]
      exact .right a ih
    · rw [List.filter_cons_of_neg ha, List.filter_cons_of_neg ha]
      exact ih

end Shuffle

variable [DecidableEq α]

/-- One copy is ahead of the other by what has been seen. -/
def Ahead (seen : Finset α) (todo behind : List α) : Prop :=
  ∃ pre, behind = pre ++ todo ∧ (∀ a ∈ pre, a ∈ seen) ∧ (∀ a ∈ todo, a ∉ seen) ∧ todo.Nodup

theorem Ahead.step {seen : Finset α} {a : α} {todo behind : List α}
    (h : Ahead seen (a :: todo) behind) : a ∉ seen ∧ Ahead (insert a seen) todo behind := by
  obtain ⟨pre, rfl, hpre, hout, hnodup⟩ := h
  obtain ⟨ha, hnodup⟩ := List.nodup_cons.1 hnodup
  refine ⟨hout a List.mem_cons_self, pre ++ [a], by simp, fun b hb => ?_, fun b hb hin => ?_,
    hnodup⟩
  · rw [Finset.mem_insert]
    rcases List.mem_append.1 hb with hb | hb
    · exact .inr (hpre b hb)
    · exact .inl (List.mem_singleton.1 hb)
  · rcases Finset.mem_insert.1 hin with rfl | hin
    · exact ha hb
    · exact hout b (List.mem_cons_of_mem _ hb) hin

/-- The copy that is behind repeats what was seen, or catches up and takes the lead. -/
theorem Ahead.catchUp {seen : Finset α} {a : α} {todo behind : List α}
    (h : Ahead seen todo (a :: behind)) :
    (a ∈ seen ∧ Ahead seen todo behind) ∨
      (todo = a :: behind ∧ a ∉ seen ∧ Ahead (insert a seen) behind (a :: behind)) := by
  obtain ⟨pre, hbehind, hpre, hout, hnodup⟩ := h
  cases pre with
  | nil =>
    rw [List.nil_append] at hbehind
    subst hbehind
    have hself : Ahead seen (a :: behind) (a :: behind) :=
      ⟨[], rfl, fun _ hb => absurd hb List.not_mem_nil, hout, hnodup⟩
    exact .inr ⟨rfl, hself.step⟩
  | cons b pre =>
    rw [List.cons_append, List.cons.injEq] at hbehind
    obtain ⟨rfl, rfl⟩ := hbehind
    exact .inl ⟨hpre a List.mem_cons_self, pre, rfl,
      fun c hc => hpre c (List.mem_cons_of_mem _ hc), hout, hnodup⟩

theorem firstsFrom_shuffle {xs ys zs : List α} (h : Shuffle xs ys zs) (seen : Finset α) :
    (Ahead seen xs ys → firstsFrom seen zs = xs) ∧ (Ahead seen ys xs → firstsFrom seen zs = ys) := by
  induction h generalizing seen with
  | nil => exact ⟨fun _ => rfl, fun _ => rfl⟩
  | left a _ ih =>
    constructor
    · intro hahead
      obtain ⟨hout, hnext⟩ := hahead.step
      rw [firstsFrom, if_neg hout, (ih _).1 hnext]
    · intro hahead
      rcases hahead.catchUp with ⟨hin, hnext⟩ | ⟨rfl, hout, hnext⟩
      · rw [firstsFrom, if_pos hin, (ih _).2 hnext]
      · rw [firstsFrom, if_neg hout, (ih _).1 hnext]
  | right a _ ih =>
    constructor
    · intro hahead
      rcases hahead.catchUp with ⟨hin, hnext⟩ | ⟨rfl, hout, hnext⟩
      · rw [firstsFrom, if_pos hin, (ih _).1 hnext]
      · rw [firstsFrom, if_neg hout, (ih _).2 hnext]
    · intro hahead
      obtain ⟨hout, hnext⟩ := hahead.step
      rw [firstsFrom, if_neg hout, (ih _).2 hnext]

/-- **Two copies of a run**, however they are shuffled. -/
theorem firsts_shuffle_self {xs zs : List α} (h : Shuffle xs xs zs) (hnodup : xs.Nodup) :
    firsts zs = xs :=
  (firstsFrom_shuffle h ∅).1 ⟨[], rfl, fun _ ha => absurd ha List.not_mem_nil,
    fun a _ => Finset.notMem_empty a, hnodup⟩

end Monoplan.Base
