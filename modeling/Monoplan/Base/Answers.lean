import Mathlib.Data.List.Basic

/-!
# Stores that answer alike

A *store* is a step function that returns an answer with the next state.  Two stores are compared
by what they answer to the same requests, in whatever states that takes them through.

* `answers` runs a list of requests.
* `answers_eq`: a relation between the states that every step keeps, and under which the steps
  answer alike, makes the runs answer alike.  It may speak of the requests to come.
-/

namespace Monoplan.Base

variable {σ τ ℓ α : Type*}

/-- The answers to a list of requests. -/
def answers (step : σ → ℓ → σ × α) (s : σ) : List ℓ → List α
  | [] => []
  | l :: ls => (step s l).2 :: answers step (step s l).1 ls

/-- The state after a list of requests. -/
def after (step : σ → ℓ → σ × α) (s : σ) (ls : List ℓ) : σ := ls.foldl (fun s l => (step s l).1) s

variable {step : σ → ℓ → σ × α} {step' : τ → ℓ → τ × α} {R : List ℓ → σ → τ → Prop}

/-- **The simulation rule.** -/
theorem answers_eq
    (hstep : ∀ l ls s t, R (l :: ls) s t →
      (step s l).2 = (step' t l).2 ∧ R ls (step s l).1 (step' t l).1)
    {ls : List ℓ} {s : σ} {t : τ} (h : R ls s t) : answers step s ls = answers step' t ls := by
  induction ls generalizing s t with
  | nil => rfl
  | cons l ls ih =>
    obtain ⟨hans, hrest⟩ := hstep l ls s t h
    rw [answers, answers, hans, ih hrest]

end Monoplan.Base
