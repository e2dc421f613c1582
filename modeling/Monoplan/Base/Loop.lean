import Mathlib.Data.List.Range
import Mathlib.Logic.Function.Iterate

/-!
# Loops that step

`for (let x = a; p(x); x = f(x))`, for an arbitrary step and test, run under fuel.

* `visits` is the list of what the loop sees; `none` is a loop that has not ended.
* `visits_eq_some_iff`: the loop ends after `n` steps if the test first fails there, and has seen
  the iterates before.
* `visits_mono`: more fuel changes nothing.
-/

namespace Monoplan.Base

variable {α : Type*} (f : α → α) (p : α → Prop) [DecidablePred p]

/-- What a loop sees. -/
def visits : ℕ → α → Option (List α)
  | 0, _ => none
  | fuel + 1, x => if p x then (visits fuel (f x)).map (x :: ·) else some []

variable {f p} {fuel n : ℕ} {x : α} {xs : List α}

/-- **A loop ends where its test first fails.** -/
theorem visits_eq_some_iff : visits f p fuel x = some xs ↔
    ∃ n < fuel, xs = (List.range n).map (fun i => f^[i] x) ∧ (∀ i < n, p (f^[i] x)) ∧
      ¬p (f^[n] x) := by
  induction fuel generalizing x xs with
  | zero => simp [visits]
  | succ fuel ih =>
    rw [visits]
    split
    · rename_i hx
      rw [Option.map_eq_some_iff]
      constructor
      · rintro ⟨ys, hys, rfl⟩
        obtain ⟨n, hn, rfl, hall, hend⟩ := ih.1 hys
        refine ⟨n + 1, Nat.succ_lt_succ hn, ?_, fun i hi => ?_, hend⟩
        · rw [List.range_succ_eq_map, List.map_cons, List.map_map]
          rfl
        · cases i with
          | zero => exact hx
          | succ i => exact hall i (Nat.lt_of_succ_lt_succ hi)
      · rintro ⟨n, hn, rfl, hall, hend⟩
        cases n with
        | zero => exact absurd hx hend
        | succ n =>
          refine ⟨_, ih.2 ⟨n, Nat.lt_of_succ_lt_succ hn, rfl, fun i hi =>
            hall (i + 1) (Nat.succ_lt_succ hi), hend⟩, ?_⟩
          rw [List.range_succ_eq_map, List.map_cons, List.map_map]
          rfl
    · rename_i hx
      constructor
      · intro h
        exact ⟨0, Nat.succ_pos _, (Option.some.inj h).symm,
          fun i hi => absurd hi (Nat.not_lt_zero i), hx⟩
      · rintro ⟨n, hn, rfl, hall, -⟩
        cases n with
        | zero => rfl
        | succ n => exact absurd (hall 0 (Nat.succ_pos n)) hx

/-- A loop that ends does so with more fuel, too. -/
theorem visits_mono {fuel' : ℕ} (h : visits f p fuel x = some xs) (hle : fuel ≤ fuel') :
    visits f p fuel' x = some xs := by
  obtain ⟨n, hn, hxs⟩ := visits_eq_some_iff.1 h
  exact visits_eq_some_iff.2 ⟨n, hn.trans_le hle, hxs⟩

/-- A loop that ends has ended once. -/
theorem visits_unique {fuel' : ℕ} {ys : List α} (h : visits f p fuel x = some xs)
    (h' : visits f p fuel' x = some ys) : xs = ys :=
  Option.some.inj ((visits_mono h (le_max_left fuel fuel')).symm.trans
    (visits_mono h' (le_max_right fuel fuel')))

end Monoplan.Base
