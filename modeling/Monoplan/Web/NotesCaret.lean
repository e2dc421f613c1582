import Mathlib.Tactic.Ring
import Monoplan.Doc.NotesDelta

/-!
# The caret of the notes editor

Before a delta from elsewhere is applied to the buffer, the caret is moved along.

* `transformOffset` counts kept and deleted text in one loop, whose position passes kept text only.
* `caretAfter` is where the caret belongs: behind what is kept of the text in front of it, and
  behind what is inserted up to it.
* `transformOffset_tracks_iff` says when they agree.  After a deletion the position lags behind,
  so that text which lies behind the caret is counted as lying in front of it.
-/

namespace Monoplan.Web

open Monoplan.Base Monoplan.Doc

/-- The loop of `transformOffset`. -/
def transformFrom (offset : ℕ) : ℕ → ℤ → List (DeltaOp UInt16) → ℤ
  | _, out, [] => out
  | pos, out, op :: ops =>
    if offset < pos then out
    else match op with
      | .retain n => transformFrom offset (pos + n) out ops
      | .delete n => transformFrom offset pos (out - (min n (offset - pos) : ℕ)) ops
      | .insert text => transformFrom offset pos (out + text.length) ops

/-- `transformOffset`. -/
def transformOffset (offset : ℕ) (ops : List (DeltaOp UInt16)) : ℕ :=
  (transformFrom offset 0 offset ops).toNat

/-! ## Where the caret belongs -/

section Caret

variable {α : Type*} {caret ahead pos kept : ℕ} {l r : List α} {ops front back : List (DeltaOp α)}

/-- How many of the next units of the text are kept; what follows the delta is. -/
def keptBefore : ℕ → List (DeltaOp α) → ℕ
  | ahead, [] => ahead
  | ahead, .retain n :: ops => min n ahead + keptBefore (ahead - n) ops
  | ahead, .delete n :: ops => keptBefore (ahead - n) ops
  | ahead, .insert _ :: ops => keptBefore ahead ops

/-- What is inserted behind at most `kept` kept units; `pos` of them have been passed. -/
def insertedUpTo (kept : ℕ) : ℕ → List (DeltaOp α) → ℕ
  | _, [] => 0
  | pos, .retain n :: ops => insertedUpTo kept (pos + n) ops
  | pos, .delete _ :: ops => insertedUpTo kept pos ops
  | pos, .insert text :: ops =>
    (if pos ≤ kept then text.length else 0) + insertedUpTo kept pos ops

/-- Where the caret belongs. An insertion with nothing but deleted units between it and the caret
is at the caret. -/
def caretAfter (caret : ℕ) (ops : List (DeltaOp α)) : ℕ :=
  keptBefore caret ops + insertedUpTo (keptBefore caret ops) 0 ops

/-- How many units of the text the operations pass. -/
def consumed : List (DeltaOp α) → ℕ
  | [] => 0
  | .retain n :: ops | .delete n :: ops => n + consumed ops
  | .insert _ :: ops => consumed ops

/-- How many units of the text the operations keep. -/
def retained : List (DeltaOp α) → ℕ
  | [] => 0
  | .retain n :: ops => n + retained ops
  | .delete _ :: ops | .insert _ :: ops => retained ops

theorem insertedUpTo_eq_zero (h : kept < pos) (ops : List (DeltaOp α)) :
    insertedUpTo kept pos ops = 0 := by
  induction ops generalizing pos with
  | nil => rfl
  | cons op ops ih =>
    cases op with
    | retain n => exact ih (by omega)
    | delete n => exact ih h
    | insert text =>
      rw [insertedUpTo, if_neg (by omega), ih h]

theorem insertedUpTo_append (kept pos : ℕ) (front back : List (DeltaOp α)) :
    insertedUpTo kept pos (front ++ back) =
      insertedUpTo kept pos front + insertedUpTo kept (pos + retained front) back := by
  induction front generalizing pos with
  | nil => simp [insertedUpTo, retained]
  | cons op front ih =>
    cases op with
    | retain n => simp [insertedUpTo, retained, ih, Nat.add_assoc]
    | delete n => simp [insertedUpTo, retained, ih]
    | insert text => simp [insertedUpTo, retained, ih, Nat.add_assoc]

/-- What is kept in front of the caret beyond the first operations is kept by the others. -/
theorem keptBefore_append (ahead : ℕ) (front back : List (DeltaOp α)) :
    keptBefore ahead (front ++ back) + (ahead - consumed front) =
      keptBefore ahead front + keptBefore (ahead - consumed front) back := by
  induction front generalizing ahead with
  | nil =>
    simp only [List.nil_append, consumed, keptBefore, Nat.sub_zero]
    omega
  | cons op front ih =>
    cases op with
    | retain n =>
      have hrest := ih (ahead - n)
      simp only [List.cons_append, keptBefore, consumed] at hrest ⊢
      rw [Nat.sub_sub] at hrest
      omega
    | delete n =>
      have hrest := ih (ahead - n)
      rw [Nat.sub_sub] at hrest
      exact hrest
    | insert text => exact ih ahead

theorem keptBefore_zero (ops : List (DeltaOp α)) : keptBefore 0 ops = 0 := by
  induction ops with
  | nil => rfl
  | cons op ops ih =>
    cases op with
    | retain n => simp [keptBefore, ih]
    | delete n => simp [keptBefore, ih]
    | insert text => exact ih

theorem keptBefore_le (ahead : ℕ) (ops : List (DeltaOp α)) :
    keptBefore ahead ops ≤ retained ops + (ahead - consumed ops) := by
  induction ops generalizing ahead with
  | nil => simp [keptBefore, retained, consumed]
  | cons op ops ih =>
    cases op with
    | retain n =>
      have hrest := ih (ahead - n)
      simp only [keptBefore, retained, consumed]
      omega
    | delete n =>
      have hrest := ih (ahead - n)
      simp only [keptBefore, retained, consumed]
      omega
    | insert text => exact ih ahead

/-- **What follows a kept unit behind the caret** does not move it. -/
theorem caretAfter_append {n : ℕ} (hn : 0 < n) (hbeyond : caret < consumed front + n) :
    caretAfter caret (front ++ .retain n :: back) = caretAfter caret front := by
  have hkept : keptBefore caret (front ++ .retain n :: back) = keptBefore caret front := by
    have happend := keptBefore_append caret front (.retain n :: back)
    have hnone : caret - consumed front - n = 0 := by omega
    rw [keptBefore, hnone, keptBefore_zero] at happend
    omega
  have hbehind : keptBefore caret front < retained front + n := by
    have hle := keptBefore_le caret front
    omega
  rw [caretAfter, caretAfter, hkept, insertedUpTo_append, Nat.zero_add, insertedUpTo,
    insertedUpTo_eq_zero hbehind, Nat.add_zero]

/-- Where the delta fits, the caret stays within the text. -/
theorem keptBefore_le_length {q : ℕ} (h : deltaFrom l pos ops = some (r, q))
    (hahead : pos + ahead ≤ l.length) (kept k : ℕ) :
    pos + keptBefore ahead ops + insertedUpTo kept k ops ≤ r.length := by
  induction ops generalizing l pos ahead k with
  | nil =>
    obtain ⟨rfl, rfl⟩ := Prod.mk.inj (Option.some.inj h)
    exact hahead
  | cons op ops ih =>
    obtain ⟨⟨m, p⟩, hstep, h⟩ := Option.bind_eq_some_iff.1 h
    cases op with
    | retain n =>
      simp only [deltaStep] at hstep
      split at hstep
      · obtain ⟨rfl, rfl⟩ := Prod.mk.inj (Option.some.inj hstep)
        have hrest := ih h (show pos + n + (ahead - n) ≤ l.length by omega) (k + n)
        rw [keptBefore, insertedUpTo]
        dsimp only at hrest
        omega
      · cases hstep
    | delete n =>
      simp only [deltaStep] at hstep
      split at hstep
      · obtain ⟨rfl, rfl⟩ := Prod.mk.inj (Option.some.inj hstep)
        refine ih h ?_ k
        rw [List.length_append, List.length_take, List.length_drop]
        omega
      · cases hstep
    | insert text =>
      simp only [deltaStep] at hstep
      obtain ⟨rfl, rfl⟩ := Prod.mk.inj (Option.some.inj hstep)
      have hroom : pos + text.length + ahead ≤ (placeRun l pos text).length := by
        rw [length_placeRun]
        omega
      have hrest := ih h hroom k
      rw [keptBefore, insertedUpTo]
      dsimp only at hrest
      split <;> omega

theorem caretAfter_le_length (h : applyDelta l ops = some r) (hcaret : caret ≤ l.length) :
    caretAfter caret ops ≤ r.length := by
  obtain ⟨⟨r', q⟩, hfrom, rfl⟩ := Option.map_eq_some_iff.1 h
  have hle := keptBefore_le_length hfrom (show 0 + caret ≤ l.length by omega)
    (keptBefore caret ops) 0
  rw [Nat.zero_add] at hle
  exact hle

/-- What is deleted of the next units of the text. -/
def deletedBefore : ℕ → List (DeltaOp α) → ℕ
  | _, [] => 0
  | ahead, .retain n :: ops => deletedBefore (ahead - n) ops
  | ahead, .delete n :: ops => min n ahead + deletedBefore (ahead - n) ops
  | ahead, .insert _ :: ops => deletedBefore ahead ops

theorem keptBefore_add_deletedBefore (ahead : ℕ) (ops : List (DeltaOp α)) :
    keptBefore ahead ops + deletedBefore ahead ops = ahead := by
  induction ops generalizing ahead with
  | nil => rfl
  | cons op ops ih =>
    cases op with
    | retain n =>
      have hrest := ih (ahead - n)
      rw [keptBefore, deletedBefore]
      omega
    | delete n =>
      have hrest := ih (ahead - n)
      rw [keptBefore, deletedBefore]
      omega
    | insert text => exact ih ahead

/-! ## What the loop counts too much -/

/-- The deleted units that lie behind the caret, and in front of it if the text deleted before them
is left out of the count. -/
def overDeleted (caret : ℕ) : ℕ → ℕ → List (DeltaOp α) → ℕ
  | _, _, [] => 0
  | pos, ahead, .retain n :: ops => overDeleted caret (pos + n) (ahead - n) ops
  | pos, ahead, .delete n :: ops =>
    (min n (caret - pos) - min n ahead) + overDeleted caret pos (ahead - n) ops
  | pos, ahead, .insert _ :: ops => overDeleted caret pos ahead ops

/-- The inserted units that lie behind the caret, and up to it if the text deleted before them is
left out of the count. -/
def overInserted (caret : ℕ) (ops : List (DeltaOp α)) : ℕ :=
  insertedUpTo caret 0 ops - insertedUpTo (keptBefore caret ops) 0 ops

/-- The two do not show in the sum. -/
def Evens (caret : ℕ) (ops : List (DeltaOp α)) : Prop :=
  overInserted caret ops = overDeleted caret 0 caret ops ∨
    keptBefore caret ops = 0 ∧ insertedUpTo 0 0 ops = 0 ∧
      overInserted caret ops ≤ overDeleted caret 0 caret ops

/-- What the loop takes off. -/
def takenOff (caret : ℕ) : ℕ → List (DeltaOp α) → ℕ
  | _, [] => 0
  | pos, .retain n :: ops => takenOff caret (pos + n) ops
  | pos, .delete n :: ops => min n (caret - pos) + takenOff caret pos ops
  | pos, .insert _ :: ops => takenOff caret pos ops

theorem takenOff_eq (h : ahead ≤ caret - pos) (ops : List (DeltaOp α)) :
    takenOff caret pos ops = deletedBefore ahead ops + overDeleted caret pos ahead ops := by
  induction ops generalizing pos ahead with
  | nil => rfl
  | cons op ops ih =>
    cases op with
    | retain n =>
      have hrest : ahead - n ≤ caret - (pos + n) := by omega
      exact ih hrest
    | delete n =>
      have hrest := ih (show ahead - n ≤ caret - pos by omega)
      rw [takenOff, deletedBefore, overDeleted, hrest]
      omega
    | insert text => exact ih h

theorem takenOff_eq_zero (h : caret < pos) (ops : List (DeltaOp α)) :
    takenOff caret pos ops = 0 := by
  induction ops generalizing pos with
  | nil => rfl
  | cons op ops ih =>
    cases op with
    | retain n => exact ih (by omega)
    | delete n =>
      rw [takenOff, ih h]
      omega
    | insert text => exact ih h

theorem insertedUpTo_mono {k k' : ℕ} (h : k ≤ k') (pos : ℕ) (ops : List (DeltaOp α)) :
    insertedUpTo k pos ops ≤ insertedUpTo k' pos ops := by
  induction ops generalizing pos with
  | nil => exact le_rfl
  | cons op ops ih =>
    cases op with
    | retain n => exact ih (pos + n)
    | delete n => exact ih pos
    | insert text =>
      have hrest := ih pos
      rw [insertedUpTo, insertedUpTo]
      split <;> split <;> omega

end Caret

/-! ## The loop -/

section Loop

variable {caret pos : ℕ} {us vs : List UInt16} {ops : List (DeltaOp UInt16)}

theorem transformFrom_eq (caret pos : ℕ) (out : ℤ) (ops : List (DeltaOp UInt16)) :
    transformFrom caret pos out ops =
      out - takenOff caret pos ops + insertedUpTo caret pos ops := by
  induction ops generalizing pos out with
  | nil => simp [transformFrom, takenOff, insertedUpTo]
  | cons op ops ih =>
    unfold transformFrom
    split
    · rename_i hlt
      rw [takenOff_eq_zero hlt, insertedUpTo_eq_zero hlt]
      simp
    · rename_i hle
      cases op with
      | retain n => exact ih (pos + n) out
      | delete n =>
        dsimp only
        rw [ih, takenOff, insertedUpTo]
        push_cast
        ring
      | insert text =>
        dsimp only
        rw [ih, takenOff, insertedUpTo, if_pos (Nat.le_of_not_lt hle)]
        push_cast
        ring

/-- The loop's result, by what it counts rightly and what it counts too much. -/
theorem transformOffset_eq (caret : ℕ) (ops : List (DeltaOp UInt16)) :
    transformOffset caret ops =
      caretAfter caret ops + overInserted caret ops - overDeleted caret 0 caret ops := by
  have hkept := keptBefore_add_deletedBefore caret ops
  have htaken := takenOff_eq (show caret ≤ caret - 0 by omega) ops
  have hmono := insertedUpTo_mono (show keptBefore caret ops ≤ caret by omega) 0 ops
  rw [transformOffset, transformFrom_eq, htaken, caretAfter, overInserted]
  omega

theorem transformOffset_eq_iff (caret : ℕ) (ops : List (DeltaOp UInt16)) :
    transformOffset caret ops = caretAfter caret ops ↔ Evens caret ops := by
  rw [transformOffset_eq, Evens]
  constructor
  · intro h
    by_cases hsame : overInserted caret ops = overDeleted caret 0 caret ops
    · exact .inl hsame
    · have hnone : caretAfter caret ops = 0 := by omega
      rw [caretAfter, Nat.add_eq_zero_iff] at hnone
      exact .inr ⟨hnone.1, hnone.1 ▸ hnone.2, by omega⟩
  · rintro (hsame | ⟨hkept, hinserted, hle⟩)
    · omega
    · have hnone : caretAfter caret ops = 0 := by rw [caretAfter, hkept, hinserted]
      omega

/-- Two units are deleted in front of the caret, and one is inserted behind it. -/
def aheadOfCaret : List NotesDeltaOp := [.delete 2, .retain 2, .insert ['x']]

end Loop

end Monoplan.Web
