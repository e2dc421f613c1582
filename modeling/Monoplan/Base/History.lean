import Mathlib.Data.List.Basic

/-!
# What a history says about the past

Histories grow at the end.  Two ways to speak of the past of an event, for arbitrary events:

* `Since p q h`: `p` happened, and `q` has not happened after it.
* `Always p h`: every event of the history had `p` of the history before it.
-/

namespace Monoplan.Base

variable {ε : Type*}

/-- An event with `p` happened, and none with `q` since. -/
def Since (p q : ε → Prop) (h : List ε) : Prop :=
  ∃ before e after, h = before ++ e :: after ∧ p e ∧ ∀ e' ∈ after, ¬q e'

/-- Each event stood in the relation `p` to what came before it. -/
def Always (p : List ε → ε → Prop) (h : List ε) : Prop :=
  ∀ before e after, h = before ++ e :: after → p before e

variable {p q : ε → Prop} {h : List ε} {e : ε}

theorem since_last (hp : p e) : Since p q (h ++ [e]) :=
  ⟨h, e, [], rfl, hp, fun _ he => absurd he List.not_mem_nil⟩

theorem Since.append (hs : Since p q h) (hq : ¬q e) : Since p q (h ++ [e]) := by
  obtain ⟨before, d, after, rfl, hp, hafter⟩ := hs
  refine ⟨before, d, after ++ [e], by simp, hp, fun e' he' => ?_⟩
  rcases List.mem_append.1 he' with hmem | hmem
  · exact hafter e' hmem
  · rwa [List.mem_singleton.1 hmem]

theorem Since.mono {p' q' : ε → Prop} (hs : Since p q h) (hp : ∀ e, p e → p' e)
    (hq : ∀ e, q' e → q e) : Since p' q' h := by
  obtain ⟨before, d, after, rfl, hd, hafter⟩ := hs
  exact ⟨before, d, after, rfl, hp d hd, fun e' he' h' => hafter e' he' (hq e' h')⟩

theorem always_nil (p : List ε → ε → Prop) : Always p [] := by
  intro before e after h
  simp at h

theorem Always.append {p : List ε → ε → Prop} (ha : Always p h) (he : p h e) :
    Always p (h ++ [e]) := by
  intro before d after heq
  rcases List.eq_nil_or_concat after with rfl | ⟨after', d', rfl⟩
  · obtain ⟨rfl, hlast⟩ := List.append_inj' heq rfl
    cases hlast
    exact he
  · rw [List.concat_eq_append, ← List.cons_append, ← List.append_assoc] at heq
    obtain ⟨rfl, -⟩ := List.append_inj' heq rfl
    exact ha before d after' rfl

end Monoplan.Base
