import Mathlib.Data.List.Basic
import Mathlib.Order.Lattice
import Mathlib.Tactic.Common

/-!
# Streams of numbers that never skip forward

A receiver of a numbered stream keeps the highest number it has accounted for.  It raises
this mark by asking for everything after some number (`Mark.start`) and by every number that
is delivered to it (`Mark.item`).  A stream *never skips* when each delivered number is at
most one above the mark at that point.

The first `start` is where the receiver begins, also for what reached it before it asked.
-/

namespace Monoplan.Base

/-- One entry of a numbered stream. -/
inductive Mark
  /-- The receiver asks for everything after `n`. -/
  | start (n : ℕ)
  /-- Number `n` is delivered. -/
  | item (n : ℕ)
  deriving DecidableEq

namespace Mark

/-- The mark after a stream, from the mark `t`. -/
def reach (t : ℕ) : List Mark → ℕ
  | [] => t
  | start n :: ms => reach (max t n) ms
  | item n :: ms => reach (max t n) ms

/-- No delivered number skips, from the mark `t`. -/
def Dense (t : ℕ) : List Mark → Prop
  | [] => True
  | start n :: ms => Dense (max t n) ms
  | item n :: ms => n ≤ t + 1 ∧ Dense (max t n) ms

/-- Where the receiver begins: its first `start`. -/
def origin : List Mark → Option ℕ
  | [] => none
  | start n :: _ => some n
  | item _ :: ms => origin ms

/-- The stream never skips forward.  A receiver that never asked is promised nothing. -/
def NeverSkips (ms : List Mark) : Prop :=
  ∀ t, origin ms = some t → Dense t ms

/-- The mark of a whole stream. -/
def top (ms : List Mark) : ℕ :=
  reach ((origin ms).getD 0) ms

instance decidableDense : (t : ℕ) → (ms : List Mark) → Decidable (Dense t ms)
  | _, [] => inferInstanceAs (Decidable True)
  | t, start n :: ms => decidableDense (max t n) ms
  | t, item n :: ms =>
    have := decidableDense (max t n) ms
    inferInstanceAs (Decidable (_ ∧ _))

/-! ## Appending -/

theorem reach_append (t : ℕ) (ms ns : List Mark) :
    reach t (ms ++ ns) = reach (reach t ms) ns := by
  induction ms generalizing t with
  | nil => rfl
  | cons m ms ih => cases m <;> exact ih _

theorem dense_append (t : ℕ) (ms ns : List Mark) :
    Dense t (ms ++ ns) ↔ Dense t ms ∧ Dense (reach t ms) ns := by
  induction ms generalizing t with
  | nil => simp [Dense, reach]
  | cons m ms ih =>
    cases m with
    | start n => exact ih _
    | item n => simp only [List.cons_append, Dense, reach, ih, and_assoc]

theorem origin_append {ms : List Mark} {t : ℕ} (h : origin ms = some t) (ns : List Mark) :
    origin (ms ++ ns) = some t := by
  induction ms with
  | nil => simp [origin] at h
  | cons m ms ih =>
    cases m with
    | start n => exact h
    | item n => exact ih h

theorem top_append {ms : List Mark} {t : ℕ} (h : origin ms = some t) (ns : List Mark) :
    top (ms ++ ns) = reach (top ms) ns := by
  rw [top, top, origin_append h, h, Option.getD_some, reach_append]

theorem NeverSkips.append {ms ns : List Mark} {t : ℕ} (h : origin ms = some t)
    (hms : NeverSkips ms) (hns : Dense (top ms) ns) : NeverSkips (ms ++ ns) := by
  intro u hu
  rw [origin_append h, Option.some.injEq] at hu
  subst hu
  rw [top, h] at hns
  exact (dense_append t ms ns).2 ⟨hms t h, hns⟩

/-! ## Asking again -/

theorem origin_start (ms : List Mark) (k : ℕ) : origin (ms ++ [start k]) ≠ none := by
  induction ms with
  | nil => simp [origin]
  | cons m ms ih =>
    cases m with
    | start n => simp [origin]
    | item n => exact ih

/-- Asking again raises the mark to what was asked for. -/
theorem top_start {ms : List Mark} (h : origin ms = none → ms = []) (k : ℕ) :
    top ms ≤ top (ms ++ [start k]) ∧ k ≤ top (ms ++ [start k]) := by
  cases ho : origin ms with
  | none =>
    rw [h ho]
    simp [top, origin, reach]
  | some t =>
    rw [top_append ho]
    exact ⟨le_max_left _ _, le_max_right _ _⟩

theorem NeverSkips.start {ms : List Mark} (h : NeverSkips ms)
    (hshape : origin ms = none → ms = []) (k : ℕ) : NeverSkips (ms ++ [Mark.start k]) := by
  cases ho : origin ms with
  | none =>
    rw [hshape ho]
    exact fun _ _ => trivial
  | some t => exact h.append ho trivial

/-! ## Delivered numbers -/

/-- The marks of delivered numbers. -/
def items (ns : List ℕ) : List Mark := ns.map item

theorem le_reach_items (t : ℕ) (ns : List ℕ) : t ≤ reach t (items ns) := by
  induction ns generalizing t with
  | nil => exact le_rfl
  | cons n ns ih => exact le_trans (le_max_left t n) (ih _)

theorem mem_le_reach_items (t : ℕ) {ns : List ℕ} {n : ℕ} (hn : n ∈ ns) :
    n ≤ reach t (items ns) := by
  induction ns generalizing t with
  | nil => simp at hn
  | cons m ns ih =>
    rcases List.mem_cons.1 hn with rfl | hn
    · exact le_trans (le_max_right t n) (le_reach_items _ ns)
    · exact ih _ hn

theorem reach_items_le {t b : ℕ} {ns : List ℕ} (ht : t ≤ b) (hns : ∀ n ∈ ns, n ≤ b) :
    reach t (items ns) ≤ b := by
  induction ns generalizing t with
  | nil => exact ht
  | cons n ns ih =>
    exact ih (max_le ht (hns n (List.mem_cons_self ..)))
      fun m hm => hns m (List.mem_cons_of_mem _ hm)

/-- A higher mark admits what a lower one does. -/
theorem dense_mono {t u : ℕ} {ms : List Mark} (htu : t ≤ u) (h : Dense t ms) : Dense u ms := by
  induction ms generalizing t u with
  | nil => trivial
  | cons m ms ih =>
    cases m with
    | start n => exact ih (by omega) h
    | item n => exact ⟨h.1.trans (by omega), ih (by omega) h.2⟩

/-- What has been accounted for is dense. -/
theorem dense_of_le {t : ℕ} {ns : List ℕ} (h : ∀ n ∈ ns, n ≤ t) : Dense t (items ns) := by
  induction ns generalizing t with
  | nil => trivial
  | cons n ns ih =>
    have hn : n ≤ t := h n (List.mem_cons_self ..)
    refine ⟨by omega, ih fun m hm => ?_⟩
    exact (h m (List.mem_cons_of_mem _ hm)).trans (le_max_left _ _)

/-- Counting on from the mark is dense. -/
theorem dense_range' (t k : ℕ) : Dense t (items (List.range' (t + 1) k)) := by
  induction k generalizing t with
  | zero => trivial
  | succ k ih =>
    rw [List.range'_succ]
    refine ⟨le_rfl, ?_⟩
    rw [max_eq_right (Nat.le_succ t)]
    exact ih (t + 1)

/-- **What keeps a delivery dense.**  Each number that the receiver has not accounted for
below a delivered one is delivered before it. -/
theorem dense_items {t : ℕ} {ns : List ℕ}
    (h : ∀ l₁ a l₂, ns = l₁ ++ a :: l₂ → ∀ n, t < n → n < a → n ∈ l₁) : Dense t (items ns) := by
  induction ns generalizing t with
  | nil => trivial
  | cons a ns ih =>
    refine ⟨?_, ih ?_⟩
    · by_contra hgap
      exact List.not_mem_nil (h [] a ns rfl (t + 1) (by omega) (by omega))
    · intro l₁ b l₂ heq n htn hnb
      have hmem := h (a :: l₁) b l₂ (by rw [heq]; rfl) n (by omega) hnb
      rcases List.mem_cons.1 hmem with rfl | hmem
      · omega
      · exact hmem

end Mark

end Monoplan.Base
