import Mathlib.Data.Set.Basic

/-!
# Symbolic messages and what can be derived from them

Messages as terms over perfect cryptography: a one-way function is a constructor, and a sealed
text opens with its key alone.  The tags of the one-way functions are an arbitrary type `τ`.

* `Derives known t`: whoever holds the terms `known` can make or open up `t`.
* `Term.Harmless`: a term that may be told.  Nothing harmful can be derived from harmless terms
  (`Derives.harmless`), so a secret stays one as long as everything told is harmless.
-/

namespace Monoplan.Base

/-- A message. -/
inductive Term (τ : Type)
  /-- What anyone can write down. -/
  | literal (n : ℕ)
  /-- A random value, or what a person keeps. -/
  | secret (n : ℕ)
  | oneWay (tag : τ) (t u : Term τ)
  | sealed (key nonce text : Term τ)
  deriving DecidableEq

variable {τ : Type}

/-- What can be made from the terms that are known. -/
inductive Derives (known : Set (Term τ)) : Term τ → Prop
  | known {t : Term τ} (h : t ∈ known) : Derives known t
  | literal (n : ℕ) : Derives known (.literal n)
  | oneWay {t u : Term τ} (tag : τ) (ht : Derives known t) (hu : Derives known u) :
    Derives known (.oneWay tag t u)
  | lock {key nonce text : Term τ} (hkey : Derives known key) (hnonce : Derives known nonce)
    (htext : Derives known text) : Derives known (.sealed key nonce text)
  | unlock {key nonce text : Term τ} (h : Derives known (.sealed key nonce text))
    (hkey : Derives known key) : Derives known text

/-- The term may be told.  `shown` are the one-way functions whose values may be told whatever they
were made from; a text sealed under a key that may not be told may. -/
def Term.Harmless (shown : τ → Bool) : Term τ → Prop
  | literal _ => True
  | secret _ => False
  | oneWay tag t u => shown tag = true ∨ t.Harmless shown ∧ u.Harmless shown
  | sealed key _ text => key.Harmless shown → text.Harmless shown

/-- **Harmless terms yield harmless terms.** -/
theorem Derives.harmless {shown : τ → Bool} {known : Set (Term τ)}
    (hknown : ∀ t ∈ known, t.Harmless shown) {t : Term τ} (h : Derives known t) :
    t.Harmless shown := by
  induction h with
  | known h => exact hknown _ h
  | literal n => trivial
  | oneWay tag _ _ iht ihu => exact .inr ⟨iht, ihu⟩
  | lock _ _ _ _ _ ihtext => exact fun _ => ihtext
  | unlock _ _ ih ihkey => exact ih ihkey

end Monoplan.Base
