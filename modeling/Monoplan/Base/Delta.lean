import Monoplan.Base.ListEdit

/-!
# Positional deltas

A delta is read from the front of a list: it keeps elements, deletes elements or inserts
elements at a cursor.

* `applyDelta` fails when a delta reaches past the end, and leaves alone what is behind the
  cursor when the delta ends.
* It commutes with `map` (`applyDelta_map`).
* A delta that a list admits does the same to every longer list (`applyDelta_append`), so a
  list that is missing its end is noticed by the length.
-/

namespace Monoplan.Base

variable {α β : Type*}

/-- One operation of a delta. -/
inductive DeltaOp (α : Type*)
  | retain (n : ℕ)
  | delete (n : ℕ)
  | insert (vals : List α)

namespace DeltaOp

/-- The operation on images. -/
def map (f : α → β) : DeltaOp α → DeltaOp β
  | retain n => retain n
  | delete n => delete n
  | insert vals => insert (vals.map f)

/-- How many elements are inserted or deleted. -/
def churn : DeltaOp α → ℕ
  | retain _ => 0
  | delete n => n
  | insert vals => vals.length

/-- The inserted elements. -/
def inserted : DeltaOp α → List α
  | insert vals => vals
  | _ => []

end DeltaOp

/-- How many elements a delta inserts or deletes. -/
def deltaChurn : List (DeltaOp α) → ℕ
  | [] => 0
  | op :: ops => op.churn + deltaChurn ops

/-- One operation at the cursor `pos`. -/
def deltaStep (l : List α) (pos : ℕ) : DeltaOp α → Option (List α × ℕ)
  | .retain n => if pos + n ≤ l.length then some (l, pos + n) else none
  | .delete n =>
    if pos + n ≤ l.length then some (l.take pos ++ l.drop (pos + n), pos) else none
  | .insert vals => some (placeRun l pos vals, pos + vals.length)

/-- The rest of a delta at the cursor `pos`. -/
def deltaFrom : List α → ℕ → List (DeltaOp α) → Option (List α × ℕ)
  | l, pos, [] => some (l, pos)
  | l, pos, op :: ops => (deltaStep l pos op).bind fun p => deltaFrom p.1 p.2 ops

/-- A whole delta. -/
def applyDelta (l : List α) (ops : List (DeltaOp α)) : Option (List α) :=
  (deltaFrom l 0 ops).map Prod.fst

/-- One delta after the other. -/
def applyDeltas : List α → List (List (DeltaOp α)) → Option (List α)
  | l, [] => some l
  | l, ops :: rest => (applyDelta l ops).bind fun l' => applyDeltas l' rest

theorem applyDeltas_append (l : List α) (xs ys : List (List (DeltaOp α))) :
    applyDeltas l (xs ++ ys) = (applyDeltas l xs).bind fun l' => applyDeltas l' ys := by
  induction xs generalizing l with
  | nil => rfl
  | cons ops xs ih =>
    show (applyDelta l ops).bind _ = ((applyDelta l ops).bind _).bind _
    rw [Option.bind_assoc]
    exact congrArg _ (funext ih)

/-! ## Images -/

theorem map_placeRun (f : α → β) (l : List α) (i : ℕ) (as : List α) :
    (placeRun l i as).map f = placeRun (l.map f) i (as.map f) := by
  induction as generalizing l i with
  | nil => rfl
  | cons a as ih =>
    show (placeRun (placeAt l i a) (i + 1) as).map f = _
    rw [ih, map_placeAt]
    rfl

theorem deltaStep_map (f : α → β) (l : List α) (pos : ℕ) (op : DeltaOp α) :
    deltaStep (l.map f) pos (op.map f) = (deltaStep l pos op).map fun p => (p.1.map f, p.2) := by
  cases op with
  | retain n =>
    simp only [DeltaOp.map, deltaStep, List.length_map]
    split <;> rfl
  | delete n =>
    simp only [DeltaOp.map, deltaStep, List.length_map]
    split <;> simp
  | insert vals => simp [DeltaOp.map, deltaStep, map_placeRun]

theorem deltaFrom_map (f : α → β) (l : List α) (pos : ℕ) (ops : List (DeltaOp α)) :
    deltaFrom (l.map f) pos (ops.map (DeltaOp.map f)) =
      (deltaFrom l pos ops).map fun p => (p.1.map f, p.2) := by
  induction ops generalizing l pos with
  | nil => rfl
  | cons op ops ih =>
    rw [List.map_cons, deltaFrom, deltaFrom, deltaStep_map]
    cases deltaStep l pos op with
    | none => rfl
    | some p => exact ih p.1 p.2

theorem applyDelta_map (f : α → β) (l : List α) (ops : List (DeltaOp α)) :
    applyDelta (l.map f) (ops.map (DeltaOp.map f)) = (applyDelta l ops).map (List.map f) := by
  unfold applyDelta
  rw [deltaFrom_map, Option.map_map, Option.map_map]
  rfl

theorem applyDeltas_map (f : α → β) (l : List α) (xs : List (List (DeltaOp α))) :
    applyDeltas (l.map f) (xs.map (List.map (DeltaOp.map f))) =
      (applyDeltas l xs).map (List.map f) := by
  induction xs generalizing l with
  | nil => rfl
  | cons ops xs ih =>
    rw [List.map_cons, applyDeltas, applyDeltas, applyDelta_map]
    cases applyDelta l ops with
    | none => rfl
    | some l' => exact ih l'

/-! ## Longer lists -/

theorem placeRun_append {l : List α} {i : ℕ} (h : i ≤ l.length) (rest as : List α) :
    placeRun (l ++ rest) i as = placeRun l i as ++ rest ∧
      (placeRun l i as).length = l.length + as.length := by
  induction as generalizing l i with
  | nil => exact ⟨rfl, rfl⟩
  | cons a as ih =>
    have hle : i + 1 ≤ (placeAt l i a).length := by
      rw [length_placeAt]
      omega
    obtain ⟨happ, hlen⟩ := ih hle
    constructor
    · show placeRun (placeAt (l ++ rest) i a) (i + 1) as = _
      rw [placeAt_append_of_le h, happ]
      rfl
    · show (placeRun (placeAt l i a) (i + 1) as).length = _
      rw [hlen, length_placeAt, List.length_cons]
      omega

theorem deltaStep_append {l l' : List α} {pos pos' : ℕ} (h : pos ≤ l.length) (rest : List α)
    {op : DeltaOp α} (hs : deltaStep l pos op = some (l', pos')) :
    deltaStep (l ++ rest) pos op = some (l' ++ rest, pos') ∧ pos' ≤ l'.length := by
  cases op with
  | retain n =>
    simp only [deltaStep] at hs ⊢
    split at hs
    · rename_i hle
      simp only [Option.some.injEq, Prod.mk.injEq] at hs
      obtain ⟨rfl, rfl⟩ := hs
      refine ⟨if_pos ?_, hle⟩
      rw [List.length_append]
      omega
    · cases hs
  | delete n =>
    simp only [deltaStep] at hs ⊢
    split at hs
    · rename_i hle
      simp only [Option.some.injEq, Prod.mk.injEq] at hs
      obtain ⟨rfl, rfl⟩ := hs
      rw [if_pos (by rw [List.length_append]; omega), List.take_append_of_le_length h,
        List.drop_append_of_le_length hle, List.append_assoc]
      refine ⟨rfl, ?_⟩
      rw [List.length_append, List.length_take, List.length_drop]
      omega
    · cases hs
  | insert vals =>
    simp only [deltaStep, Option.some.injEq, Prod.mk.injEq] at hs ⊢
    obtain ⟨rfl, rfl⟩ := hs
    obtain ⟨happ, hlen⟩ := placeRun_append h rest vals
    refine ⟨⟨happ, rfl⟩, ?_⟩
    rw [hlen]
    omega

theorem deltaFrom_append {l l' : List α} {pos pos' : ℕ} (h : pos ≤ l.length) (rest : List α)
    {ops : List (DeltaOp α)} (hs : deltaFrom l pos ops = some (l', pos')) :
    deltaFrom (l ++ rest) pos ops = some (l' ++ rest, pos') := by
  induction ops generalizing l pos with
  | nil =>
    simp only [deltaFrom, Option.some.injEq, Prod.mk.injEq] at hs ⊢
    exact ⟨by rw [hs.1], hs.2⟩
  | cons op ops ih =>
    simp only [deltaFrom, Option.bind_eq_some_iff] at hs ⊢
    obtain ⟨⟨m, q⟩, hstep, hs⟩ := hs
    obtain ⟨happ, hle⟩ := deltaStep_append h rest hstep
    exact ⟨(m ++ rest, q), happ, ih hle hs⟩

/-- A delta does the same to every longer list. -/
theorem applyDelta_append {l l' : List α} (rest : List α) {ops : List (DeltaOp α)}
    (hs : applyDelta l ops = some l') : applyDelta (l ++ rest) ops = some (l' ++ rest) := by
  obtain ⟨⟨m, q⟩, hfrom, rfl⟩ := Option.map_eq_some_iff.1 hs
  rw [applyDelta, deltaFrom_append l.length.zero_le rest hfrom]
  rfl

theorem applyDeltas_longer {l l' : List α} (rest : List α) {xs : List (List (DeltaOp α))}
    (hs : applyDeltas l xs = some l') : applyDeltas (l ++ rest) xs = some (l' ++ rest) := by
  induction xs generalizing l with
  | nil =>
    cases hs
    rfl
  | cons ops xs ih =>
    obtain ⟨m, hm, hrest⟩ := Option.bind_eq_some_iff.1 hs
    rw [applyDeltas, applyDelta_append rest hm]
    exact ih hrest

end Monoplan.Base
