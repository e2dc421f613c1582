import Mathlib.Data.List.Basic

/-!
# Programs over atomic calls that may fail

A *program* computes, and now and then makes a call to a store.  A call is atomic: it fails
and changes nothing, or it is performed.  Between two calls the machine may die, and then only
the store is left.  Everything here is about arbitrary calls `κ`, answers `ρ` and stores `σ`.

* `Program.run` runs a program with a list that says which calls fail.
* `Program.crash` is the store that is left when the machine dies after a number of calls.
* `run_bind`, `crash_bind`: a sequence runs, and dies, part by part.
* `Program.wp I Q` is the weakest precondition: whatever fails, `I` holds of the store before
  the first call and after every one, and `Q` of the store and the result at the end.
* `wp_bind`, `wp_mono`: the rules a proof follows; `run_of_wp` and `crash_of_wp`: what a proof
  says about runs.
-/

namespace Monoplan.Base

variable {κ ρ σ α γ : Type*}

/-- A computation that makes calls.  A failed call answers `none`. -/
inductive Program (κ ρ α : Type*)
  | pure (a : α)
  | call (c : κ) (k : Option ρ → Program κ ρ α)

namespace Program

/-- First one program, then another on its result. -/
def bind : Program κ ρ α → (α → Program κ ρ γ) → Program κ ρ γ
  | pure a, f => f a
  | call c k, f => call c fun r => (k r).bind f

/-- Apply a function to the result. -/
def map (f : α → γ) (p : Program κ ρ α) : Program κ ρ γ := p.bind fun a => pure (f a)

/-- One call. -/
def perform (c : κ) : Program κ ρ (Option ρ) := call c pure

/-- Run a program; the list says which calls succeed, and a call past its end succeeds. -/
def run (act : κ → σ → σ × ρ) : Program κ ρ α → List Bool → σ → σ × α
  | pure a, _, s => (s, a)
  | call c k, outcomes, s =>
    if outcomes.headD true then
      (k (some (act c s).2)).run act outcomes.tail (act c s).1
    else (k none).run act outcomes.tail s

/-- The store after the first `n` calls. -/
def crash (act : κ → σ → σ × ρ) : Program κ ρ α → List Bool → ℕ → σ → σ
  | call c k, outcomes, n + 1, s =>
    if outcomes.headD true then
      (k (some (act c s).2)).crash act outcomes.tail n (act c s).1
    else (k none).crash act outcomes.tail n s
  | _, _, _, s => s

/-- How many calls a run makes. -/
def calls (act : κ → σ → σ × ρ) : Program κ ρ α → List Bool → σ → ℕ
  | pure _, _, _ => 0
  | call c k, outcomes, s =>
    if outcomes.headD true then (k (some (act c s).2)).calls act outcomes.tail (act c s).1 + 1
    else (k none).calls act outcomes.tail s + 1

/-- **A sequence runs part by part**: the second part sees the outcomes the first has left. -/
theorem run_bind (act : κ → σ → σ × ρ) (p : Program κ ρ α) (f : α → Program κ ρ γ)
    (outcomes : List Bool) (s : σ) :
    (p.bind f).run act outcomes s =
      (f (p.run act outcomes s).2).run act (outcomes.drop (p.calls act outcomes s))
        (p.run act outcomes s).1 := by
  induction p generalizing outcomes s with
  | pure a => rfl
  | call c k ih =>
    rw [bind, run, run, calls]
    split
    · rw [ih, ← List.drop_one, List.drop_drop, Nat.add_comm]
    · rw [ih, ← List.drop_one, List.drop_drop, Nat.add_comm]

/-- **A sequence dies in its first part or in its second.** -/
theorem crash_bind (act : κ → σ → σ × ρ) (p : Program κ ρ α) (f : α → Program κ ρ γ)
    (outcomes : List Bool) (n : ℕ) (s : σ) :
    (p.bind f).crash act outcomes n s =
      if n < p.calls act outcomes s then p.crash act outcomes n s
      else (f (p.run act outcomes s).2).crash act (outcomes.drop (p.calls act outcomes s))
        (n - p.calls act outcomes s) (p.run act outcomes s).1 := by
  induction p generalizing outcomes n s with
  | pure a => rfl
  | call c k ih =>
    cases n with
    | zero =>
      have hpos : 0 < (call c k).calls act outcomes s := by
        rw [calls]
        split <;> omega
      rw [if_pos hpos]
      rfl
    | succ n =>
      rw [bind, crash, crash, run, calls]
      split
      · rw [ih]
        simp only [Nat.add_lt_add_iff_right, Nat.add_sub_add_right, ← List.drop_one,
          List.drop_drop, Nat.add_comm 1]
      · rw [ih]
        simp only [Nat.add_lt_add_iff_right, Nat.add_sub_add_right, ← List.drop_one,
          List.drop_drop, Nat.add_comm 1]

theorem bind_assoc {δ : Type*} (p : Program κ ρ α) (f : α → Program κ ρ γ)
    (g : γ → Program κ ρ δ) : (p.bind f).bind g = p.bind fun a => (f a).bind g := by
  induction p with
  | pure a => rfl
  | call c k ih =>
    rw [bind, bind, bind]
    congr 1
    funext r
    exact ih r

theorem bind_pure (p : Program κ ρ α) : p.bind pure = p := by
  induction p with
  | pure a => rfl
  | call c k ih =>
    rw [bind]
    congr 1
    funext r
    exact ih r

/-- **The weakest precondition.**  `I` holds of every store on the way, `Q` at the end. -/
def wp (act : κ → σ → σ × ρ) (I : σ → Prop) (Q : σ → α → Prop) : Program κ ρ α → σ → Prop
  | pure a, s => I s ∧ Q s a
  | call c k, s =>
    I s ∧ (k none).wp act I Q s ∧ (k (some (act c s).2)).wp act I Q (act c s).1

variable {act : κ → σ → σ × ρ} {I : σ → Prop} {Q : σ → α → Prop}

theorem wp_start {p : Program κ ρ α} {s : σ} (h : p.wp act I Q s) : I s := by
  cases p with
  | pure a => exact h.1
  | call c k => exact h.1

theorem wp_mono {Q' : σ → α → Prop} {p : Program κ ρ α} {s : σ} (h : p.wp act I Q s)
    (himp : ∀ t a, I t → Q t a → Q' t a) : p.wp act I Q' s := by
  induction p generalizing s with
  | pure a => exact ⟨h.1, himp s a h.1 h.2⟩
  | call c k ih => exact ⟨h.1, ih _ h.2.1, ih _ h.2.2⟩

theorem wp_weaken {J : σ → Prop} {p : Program κ ρ α} {s : σ} (h : p.wp act I Q s)
    (himp : ∀ t, I t → J t) : p.wp act J Q s := by
  induction p generalizing s with
  | pure a => exact ⟨himp s h.1, h.2⟩
  | call c k ih => exact ⟨himp s h.1, ih _ h.2.1, ih _ h.2.2⟩

/-- **The rule of sequence.** -/
theorem wp_bind {Q : σ → γ → Prop} {p : Program κ ρ α} {f : α → Program κ ρ γ} {s : σ} :
    (p.bind f).wp act I Q s ↔ p.wp act I (fun t a => (f a).wp act I Q t) s := by
  induction p generalizing s with
  | pure a => exact ⟨fun h => ⟨wp_start h, h⟩, fun h => h.2⟩
  | call c k ih =>
    refine and_congr_right fun _ => and_congr ?_ ?_
    · exact ih none
    · exact ih _

theorem wp_map {Q : σ → γ → Prop} {p : Program κ ρ α} {f : α → γ} {s : σ} :
    (p.map f).wp act I Q s ↔ p.wp act I (fun t a => Q t (f a)) s := by
  rw [map, wp_bind]
  constructor
  · intro h
    exact wp_mono h fun _ _ _ hq => hq.2
  · intro h
    exact wp_mono h fun _ _ hi hq => ⟨hi, hq⟩

theorem wp_and {J : σ → Prop} {R : σ → α → Prop} {p : Program κ ρ α} {s : σ}
    (h : p.wp act I Q s) (h' : p.wp act J R s) :
    p.wp act (fun t => I t ∧ J t) (fun t a => Q t a ∧ R t a) s := by
  induction p generalizing s with
  | pure a => exact ⟨⟨h.1, h'.1⟩, h.2, h'.2⟩
  | call c k ih => exact ⟨⟨h.1, h'.1⟩, ih _ h.2.1 h'.2.1, ih _ h.2.2 h'.2.2⟩

/-- What a proof says about a run. -/
theorem run_of_wp {p : Program κ ρ α} {s : σ} (h : p.wp act I Q s) (outcomes : List Bool) :
    I (p.run act outcomes s).1 ∧ Q (p.run act outcomes s).1 (p.run act outcomes s).2 := by
  induction p generalizing s outcomes with
  | pure a => exact h
  | call c k ih =>
    rw [run]
    split
    · exact ih _ h.2.2 _
    · exact ih _ h.2.1 _

/-- What a proof says about a crash. -/
theorem crash_of_wp {p : Program κ ρ α} {s : σ} (h : p.wp act I Q s) (outcomes : List Bool)
    (n : ℕ) : I (p.crash act outcomes n s) := by
  induction p generalizing s outcomes n with
  | pure a => exact h.1
  | call c k ih =>
    cases n with
    | zero => exact h.1
    | succ n =>
      rw [crash]
      split
      · exact ih _ h.2.2 _ _
      · exact ih _ h.2.1 _ _

/-- A postcondition that needs nothing of the store on the way. -/
theorem run_of_wp_true {p : Program κ ρ α} {s : σ} (h : p.wp act (fun _ => True) Q s)
    (outcomes : List Bool) : Q (p.run act outcomes s).1 (p.run act outcomes s).2 :=
  (run_of_wp h outcomes).2

end Program

end Monoplan.Base
