import Mathlib.Data.List.Basic
import Mathlib.Data.List.Range

/-!
# Consecutive runs of numbers

A list of numbers is *consecutive up to* `n` when it is `a, a+1, …, n-1` for some `a`.  A
log that only appends the next number and only deletes a prefix keeps this shape, whatever
the order of the two.
-/

namespace Monoplan.Base

/-- `l` counts upwards by one and ends just below `n`; it starts above `0`. -/
def Consecutive (n : ℕ) (l : List ℕ) : Prop :=
  l.length < n ∧ l = List.range' (n - l.length) l.length

namespace Consecutive

variable {n : ℕ} {l : List ℕ}

theorem nil (hn : 0 < n) : Consecutive n [] := ⟨hn, rfl⟩

theorem mem_iff (h : Consecutive n l) (m : ℕ) : m ∈ l ↔ n - l.length ≤ m ∧ m < n := by
  have hlen := h.1
  rw [h.2, List.length_range', List.mem_range'_1]
  omega

theorem lt_of_mem (h : Consecutive n l) {m : ℕ} (hm : m ∈ l) : m < n :=
  ((h.mem_iff m).1 hm).2

theorem pos_of_mem (h : Consecutive n l) {m : ℕ} (hm : m ∈ l) : 0 < m := by
  have := (h.mem_iff m).1 hm
  have := h.1
  omega

/-- Between a member and the end there is no gap. -/
theorem mem_of_le (h : Consecutive n l) {a m : ℕ} (ha : a ∈ l) (ham : a ≤ m) (hm : m < n) :
    m ∈ l := by
  rw [h.mem_iff] at ha ⊢
  omega

theorem pairwise_lt (h : Consecutive n l) : l.Pairwise (· < ·) := by
  rw [h.2]
  exact List.pairwise_lt_range'

/-- Appending the next number keeps the run. -/
theorem append (h : Consecutive n l) : Consecutive (n + 1) (l ++ [n]) := by
  obtain ⟨hlen, heq⟩ := h
  refine ⟨by simp; omega, ?_⟩
  have hstart : n + 1 - (l ++ [n]).length = n - l.length := by simp
  have hend : n - l.length + l.length = n := by omega
  rw [hstart, List.length_append, List.length_singleton, List.range'_1_concat, hend, ← heq]

/-- Deleting everything up to a floor keeps the run. -/
theorem filter_gt (h : Consecutive n l) (floor : ℕ) :
    Consecutive n (l.filter fun m => decide (floor < m)) := by
  obtain ⟨hlen, heq⟩ := h
  rw [heq]
  generalize l.length = k at hlen
  clear heq
  induction k with
  | zero => exact nil hlen
  | succ k ih =>
    have ih := ih (by omega)
    have hcons : List.range' (n - (k + 1)) (k + 1) =
        (n - (k + 1)) :: List.range' (n - k) k := by
      rw [List.range'_succ]
      congr 2
      omega
    rw [hcons]
    by_cases hf : floor < n - (k + 1)
    · -- nothing is deleted: the floor is below the first number
      have hall : (List.range' (n - k) k).filter (fun m => decide (floor < m)) =
          List.range' (n - k) k := by
        rw [List.filter_eq_self]
        intro m hm
        rw [List.mem_range'_1] at hm
        simp
        omega
      rw [List.filter_cons_of_pos (by simpa using hf), hall]
      refine ⟨by simp; omega, ?_⟩
      rw [List.length_cons, List.length_range', hcons]
    · rw [List.filter_cons_of_neg (by simpa using hf)]
      exact ih

/-- What lies above a cut starts right after it, or the run has nothing above it. -/
theorem filter_gt_eq (h : Consecutive n l) {cut : ℕ} (hcut : n - l.length ≤ cut + 1) :
    l.filter (fun m => decide (cut < m)) = List.range' (cut + 1) (n - (cut + 1)) := by
  have hlen := h.1
  obtain ⟨-, heq⟩ := h.filter_gt cut
  rw [heq]
  have hcount : (l.filter fun m => decide (cut < m)).length = n - (cut + 1) := by
    rw [h.2]
    generalize l.length = k at *
    clear heq h
    induction k with
    | zero => simp; omega
    | succ k ih =>
      have hcons : List.range' (n - (k + 1)) (k + 1) =
          (n - (k + 1)) :: List.range' (n - k) k := by
        rw [List.range'_succ]
        congr 2
        omega
      by_cases hk : n - k ≤ cut + 1
      · rw [hcons, List.filter_cons_of_neg (by simp; omega)]
        exact ih hk (by omega)
      · have hall : (List.range' (n - (k + 1)) (k + 1)).filter (fun m => decide (cut < m)) =
            List.range' (n - (k + 1)) (k + 1) := by
          rw [List.filter_eq_self]
          intro m hm
          rw [List.mem_range'_1] at hm
          simp
          omega
        rw [hall, List.length_range']
        omega
  rw [hcount]
  by_cases hz : n ≤ cut + 1
  · simp [Nat.sub_eq_zero_of_le hz]
  · congr 1
    omega

theorem filter_le_range' (a k top : ℕ) :
    (List.range' a k).filter (fun m => decide (m ≤ top)) =
      List.range' a (min k (top + 1 - a)) := by
  induction k generalizing a with
  | zero => simp
  | succ k ih =>
    rw [List.range'_succ]
    by_cases ha : a ≤ top
    · have hmin : min (k + 1) (top + 1 - a) = min k (top + 1 - (a + 1)) + 1 := by omega
      rw [List.filter_cons_of_pos (by simpa using ha), ih, hmin, List.range'_succ]
    · have hmin : min (k + 1) (top + 1 - a) = 0 := by omega
      have hnone : min k (top + 1 - (a + 1)) = 0 := by omega
      rw [List.filter_cons_of_neg (by simpa using ha), ih, hmin, hnone]
      rfl

/-- What lies between two cuts is a run again. -/
theorem filter_between (h : Consecutive n l) (cut top : ℕ) :
    ∃ a k, l.filter (fun m => decide (cut < m ∧ m ≤ top)) = List.range' a k := by
  obtain ⟨-, heq⟩ := h.filter_gt cut
  have hboth : l.filter (fun m => decide (cut < m ∧ m ≤ top)) =
      (l.filter fun m => decide (cut < m)).filter fun m => decide (m ≤ top) := by
    rw [List.filter_filter]
    congr 1
    funext m
    rw [Bool.decide_and, Bool.and_comm]
  rw [hboth, heq, filter_le_range']
  exact ⟨_, _, rfl⟩

end Consecutive

end Monoplan.Base
