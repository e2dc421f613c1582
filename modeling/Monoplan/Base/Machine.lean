import Mathlib.Data.List.Basic

/-!
# Labelled machines and their invariants

A *machine* is a set of initial states and a partial step function: `step s l` is the
state after the step `l`, or `none` when `s` cannot take it.  Everything here is about an
arbitrary state type `σ` and label type `ℓ`.

* `Machine.exec` runs a list of labels; it is a function, so a concrete run evaluates.
* `Machine.Reach ok` are the states reached by steps that each meet the condition `ok` on
  the state before the step and the label.
* `Machine.Reach.invariant` is the induction every safety result uses: a predicate that
  holds initially and that every admissible step preserves holds of every reachable state.
* `Machine.reach_of_exec` turns an evaluated run into a reachability proof.
-/

namespace Monoplan.Base

variable {σ ℓ : Type*}

/-- A labelled transition system with a deterministic, partial step. -/
structure Machine (σ ℓ : Type*) where
  /-- The states a run may begin in. -/
  init : σ → Prop
  /-- The state after a step, `none` where the step is not enabled. -/
  step : σ → ℓ → Option σ

namespace Machine

variable (M : Machine σ ℓ)

/-- Run a list of labels, failing at the first step that is not enabled. -/
def exec (s : σ) : List ℓ → Option σ
  | [] => some s
  | l :: ls => (M.step s l).bind fun s' => exec s' ls

/-- The condition `ok` holds at every step of a run from `s`. -/
def AllSteps (ok : σ → ℓ → Prop) (s : σ) : List ℓ → Prop
  | [] => True
  | l :: ls => ok s l ∧ ∀ s', M.step s l = some s' → AllSteps ok s' ls

/-- The states reached by steps that each meet `ok`. -/
inductive Reach (ok : σ → ℓ → Prop) : σ → Prop
  | init {s : σ} : M.init s → Reach ok s
  | step {s s' : σ} {l : ℓ} : Reach ok s → ok s l → M.step s l = some s' → Reach ok s'

/-- The states of unrestricted runs. -/
abbrev Reachable : σ → Prop := M.Reach fun _ _ => True

variable {M} {ok : σ → ℓ → Prop}

/-- **The invariant rule.**  What holds initially and is kept by every admissible step from
a reachable state holds of every reachable state. -/
theorem Reach.invariant {Inv : σ → Prop} (hinit : ∀ s, M.init s → Inv s)
    (hstep : ∀ s l s', M.Reach ok s → Inv s → ok s l → M.step s l = some s' → Inv s')
    {s : σ} (h : M.Reach ok s) : Inv s := by
  induction h with
  | init h0 => exact hinit _ h0
  | step hr hok hs ih => exact hstep _ _ _ hr ih hok hs

theorem Reach.mono {ok' : σ → ℓ → Prop} (himp : ∀ s l, ok s l → ok' s l) {s : σ}
    (h : M.Reach ok s) : M.Reach ok' s := by
  induction h with
  | init h0 => exact .init h0
  | step _ hok hs ih => exact .step ih (himp _ _ hok) hs

theorem Reach.reachable {s : σ} (h : M.Reach ok s) : M.Reachable s :=
  h.mono fun _ _ _ => trivial

/-- A run from a reachable state whose steps meet the condition ends in a reachable state. -/
theorem Reach.exec {s s' : σ} {ls : List ℓ} (h : M.Reach ok s) (hok : M.AllSteps ok s ls)
    (hrun : M.exec s ls = some s') : M.Reach ok s' := by
  induction ls generalizing s with
  | nil =>
    simp only [Machine.exec, Option.some.injEq] at hrun
    exact hrun ▸ h
  | cons l ls ih =>
    obtain ⟨t, ht, hrest⟩ := Option.bind_eq_some_iff.1 hrun
    exact ih (.step h hok.1 ht) (hok.2 t ht) hrest

/-- What every step of a run keeps holds at its end. -/
theorem exec_keeps {P : σ → Prop} {s s' : σ} {ls : List ℓ}
    (hstep : ∀ t l t', l ∈ ls → P t → M.step t l = some t' → P t') (h : P s)
    (hrun : M.exec s ls = some s') : P s' := by
  induction ls generalizing s with
  | nil =>
    simp only [Machine.exec, Option.some.injEq] at hrun
    exact hrun ▸ h
  | cons l ls ih =>
    obtain ⟨t, ht, hrest⟩ := Option.bind_eq_some_iff.1 hrun
    exact ih (fun u k u' hk => hstep u k u' (List.mem_cons_of_mem _ hk))
      (hstep s l t List.mem_cons_self h ht) hrest

/-- A Boolean test of every step of a run. -/
def allStepsb (M : Machine σ ℓ) (okb : σ → ℓ → Bool) (s : σ) : List ℓ → Bool
  | [] => true
  | l :: ls => okb s l && (M.step s l).all fun s' => M.allStepsb okb s' ls

/-- **The test is sound.** -/
theorem allSteps_of_allStepsb {okb : σ → ℓ → Bool} (hok : ∀ s l, okb s l = true → ok s l)
    {s : σ} {ls : List ℓ} (h : M.allStepsb okb s ls = true) : M.AllSteps ok s ls := by
  induction ls generalizing s with
  | nil => trivial
  | cons l ls ih =>
    rw [allStepsb, Bool.and_eq_true] at h
    refine ⟨hok s l h.1, fun s' hs => ih ?_⟩
    have hrest := h.2
    rw [hs] at hrest
    exact hrest

theorem allSteps_true (s : σ) (ls : List ℓ) : M.AllSteps (fun _ _ => True) s ls := by
  induction ls generalizing s with
  | nil => trivial
  | cons l ls ih => exact ⟨trivial, fun s' _ => ih s'⟩

/-- An evaluated run of an unrestricted machine is a proof of reachability. -/
theorem reach_of_exec {s s' : σ} {ls : List ℓ} (h0 : M.init s)
    (hrun : M.exec s ls = some s') : M.Reachable s' :=
  Reach.exec (.init h0) (allSteps_true s ls) hrun

end Machine

end Monoplan.Base
