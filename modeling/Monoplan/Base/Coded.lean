import Mathlib.Data.List.Induction
import Monoplan.Base.Delta

/-!
# Deltas over a variable-length code

A text whose elements are one or more units long, edited by deltas that count units and insert
whole elements.

* `Edits code l ops r`: the delta cuts the units of `l` between elements only and leads to `r`.
* Such a delta does to the units what it says (`Edits.applyDelta_eq`).
* Composing two of them gives a third (`Edits.composeDeltas`), also where runs are merged, the
  inserted units are read back as elements and trailing retains are dropped.
-/

namespace Monoplan.Base

variable {α β : Type*}

/-- The units of a text. -/
def encode (code : α → List β) (l : List α) : List β := l.flatMap code

/-- How many units a text has. -/
def unitLength (code : α → List β) (l : List α) : ℕ := (encode code l).length

@[simp] theorem encode_nil (code : α → List β) : encode code [] = [] := rfl

@[simp] theorem encode_append (code : α → List β) (l r : List α) :
    encode code (l ++ r) = encode code l ++ encode code r := List.flatMap_append

@[simp] theorem unitLength_nil (code : α → List β) : unitLength code [] = 0 := rfl

@[simp] theorem unitLength_append (code : α → List β) (l r : List α) :
    unitLength code (l ++ r) = unitLength code l + unitLength code r := by
  simp [unitLength]

/-- A text without units is empty. -/
theorem eq_nil_of_unitLength {code : α → List β} (hcode : ∀ a, code a ≠ []) {l : List α}
    (h : unitLength code l = 0) : l = [] := by
  cases l with
  | nil => rfl
  | cons a l =>
    have hnil : code a = [] := by
      rw [← List.length_eq_zero_iff]
      have hcons : unitLength code (a :: l) = (code a).length + unitLength code l :=
        List.length_append
      omega
    exact absurd hnil (hcode a)

namespace DeltaOp

/-- The inserted elements as units. -/
def units (code : α → List β) : DeltaOp α → DeltaOp β
  | retain n => retain n
  | delete n => delete n
  | insert vals => insert (encode code vals)

/-- The inserted units as elements. -/
def decoded (decode : List β → List α) : DeltaOp β → DeltaOp α
  | retain n => retain n
  | delete n => delete n
  | insert vals => insert (decode vals)

/-- The operation keeps what it passes. -/
def isRetain : DeltaOp α → Bool
  | retain _ => true
  | _ => false

end DeltaOp

/-! ## Deltas that cut between elements -/

/-- The delta keeps, deletes and inserts whole elements, and leads from `l` to `r`. -/
inductive Edits (code : α → List β) : List α → List (DeltaOp β) → List α → Prop
  | done (l : List α) : Edits code l [] l
  | retain (k : List α) {l r : List α} {ops : List (DeltaOp β)} (h : Edits code l ops r) :
    Edits code (k ++ l) (.retain (unitLength code k) :: ops) (k ++ r)
  | delete (k : List α) {l r : List α} {ops : List (DeltaOp β)} (h : Edits code l ops r) :
    Edits code (k ++ l) (.delete (unitLength code k) :: ops) r
  | insert (v : List α) {l r : List α} {ops : List (DeltaOp β)} (h : Edits code l ops r) :
    Edits code l (.insert (encode code v) :: ops) (v ++ r)

namespace Edits

variable {code : α → List β} {l r x y z : List α} {ops a b : List (DeltaOp β)}

/-- At a cursor, with what was edited already in front of it. -/
theorem deltaFrom_eq (h : Edits code l ops r) (pre : List β) :
    ∃ pos, deltaFrom (pre ++ encode code l) pre.length ops =
      some (pre ++ encode code r, pos) := by
  induction h generalizing pre with
  | done l => exact ⟨_, rfl⟩
  | @retain k l r ops h ih =>
    obtain ⟨pos, hpos⟩ := ih (pre ++ encode code k)
    refine ⟨pos, ?_⟩
    have hle : pre.length + unitLength code k ≤ (pre ++ encode code (k ++ l)).length := by
      simp [unitLength]
    rw [deltaFrom, deltaStep, if_pos hle, Option.bind_some]
    simpa [unitLength] using hpos
  | @delete k l r ops h ih =>
    obtain ⟨pos, hpos⟩ := ih pre
    refine ⟨pos, ?_⟩
    have hle : pre.length + unitLength code k ≤ (pre ++ encode code (k ++ l)).length := by
      simp [unitLength]
    have hdrop : (pre ++ encode code (k ++ l)).drop (pre.length + unitLength code k) =
        encode code l := by
      rw [encode_append, ← List.append_assoc]
      exact List.drop_left' (by simp [unitLength])
    rw [deltaFrom, deltaStep, if_pos hle, Option.bind_some, List.take_left, hdrop]
    exact hpos
  | @insert v l r ops h ih =>
    obtain ⟨pos, hpos⟩ := ih (pre ++ encode code v)
    refine ⟨pos, ?_⟩
    rw [deltaFrom, deltaStep, Option.bind_some, placeRun_append_length]
    simpa using hpos

/-- **The delta does to the units what it says.** -/
theorem applyDelta_eq (h : Edits code l ops r) :
    applyDelta (encode code l) ops = some (encode code r) := by
  obtain ⟨pos, hpos⟩ := h.deltaFrom_eq []
  rw [applyDelta]
  exact congrArg (Option.map Prod.fst) hpos

/-- The end of a delta may be replaced by one that does the same. -/
theorem replace (hsame : ∀ l r, Edits code l a r → Edits code l b r)
    (h : Edits code l (ops ++ a) r) : Edits code l (ops ++ b) r := by
  induction ops generalizing l r with
  | nil => exact hsame l r h
  | cons op ops ih =>
    cases h with
    | retain k h => exact .retain k (ih h)
    | delete k h => exact .delete k (ih h)
    | insert v h => exact .insert v (ih h)

end Edits

/-! ## Composition -/

/-- What is left of a retain of which `k` were used. -/
def leftRetain (n k : ℕ) (ops : List (DeltaOp β)) : List (DeltaOp β) :=
  if k < n then .retain (n - k) :: ops else ops

/-- What is left of a delete of which `k` were used. -/
def leftDelete (n k : ℕ) (ops : List (DeltaOp β)) : List (DeltaOp β) :=
  if k < n then .delete (n - k) :: ops else ops

/-- What is left of an insert of which `k` were used. -/
def leftInsert (vals : List β) (k : ℕ) (ops : List (DeltaOp β)) : List (DeltaOp β) :=
  if k < vals.length then .insert (vals.drop k) :: ops else ops

theorem length_leftRetain (n k : ℕ) (ops : List (DeltaOp β)) :
    (leftRetain n k ops).length = ops.length + if k < n then 1 else 0 := by
  unfold leftRetain
  split <;> rfl

theorem length_leftDelete (n k : ℕ) (ops : List (DeltaOp β)) :
    (leftDelete n k ops).length = ops.length + if k < n then 1 else 0 := by
  unfold leftDelete
  split <;> rfl

theorem length_leftInsert (vals : List β) (k : ℕ) (ops : List (DeltaOp β)) :
    (leftInsert vals k ops).length = ops.length + if k < vals.length then 1 else 0 := by
  unfold leftInsert
  split <;> rfl

/-- Two deltas read side by side: the first one's deletes and the second one's inserts pass, and
what the second one does to what the first one kept or inserted is worked out run by run. -/
def composeOps : List (DeltaOp β) → List (DeltaOp β) → List (DeltaOp β)
  | [], b => b
  | a, [] => a
  | .delete n :: a, b => .delete n :: composeOps a b
  | a, .insert s :: b => .insert s :: composeOps a b
  | .retain n :: a, .retain m :: b =>
    .retain (min n m) :: composeOps (leftRetain n (min n m) a) (leftRetain m (min n m) b)
  | .retain n :: a, .delete m :: b =>
    .delete (min n m) :: composeOps (leftRetain n (min n m) a) (leftDelete m (min n m) b)
  | .insert s :: a, .retain m :: b =>
    .insert (s.take (min s.length m)) ::
      composeOps (leftInsert s (min s.length m) a) (leftRetain m (min s.length m) b)
  | .insert s :: a, .delete m :: b =>
    composeOps (leftInsert s (min s.length m) a) (leftDelete m (min s.length m) b)
termination_by a b => a.length + b.length
decreasing_by
  all_goals
    simp only [List.length_cons, length_leftRetain, length_leftDelete, length_leftInsert]
    repeat' split
    all_goals omega

/-- Merge an operation into the last one, which heads the list. -/
def pushOp : List (DeltaOp β) → DeltaOp β → List (DeltaOp β)
  | .retain x :: out, .retain y => .retain (x + y) :: out
  | .delete x :: out, .delete y => .delete (x + y) :: out
  | .insert x :: out, .insert y => .insert (x ++ y) :: out
  | out, op => op :: out

/-- Merge neighbours of a kind. -/
def mergeOps (ops : List (DeltaOp β)) : List (DeltaOp β) := (ops.foldl pushOp []).reverse

/-- Drop trailing retains. -/
def trimDelta (ops : List (DeltaOp α)) : List (DeltaOp α) :=
  (ops.reverse.dropWhile DeltaOp.isRetain).reverse

/-- One delta that does what two do one after the other. -/
def composeDeltas (code : α → List β) (decode : List β → List α) (a b : List (DeltaOp α)) :
    List (DeltaOp α) :=
  if a = [] then trimDelta b
  else if b = [] then trimDelta a
  else
    trimDelta ((mergeOps (composeOps (a.map (DeltaOp.units code)) (b.map (DeltaOp.units code)))).map
      (DeltaOp.decoded decode))

namespace Edits

variable {code : α → List β} {l r x y z : List α} {ops a b : List (DeltaOp β)}

/-! ### Runs of two deltas -/

theorem retain_inv {n : ℕ} (h : Edits code l (.retain n :: ops) r) :
    ∃ k l' r', n = unitLength code k ∧ l = k ++ l' ∧ r = k ++ r' ∧ Edits code l' ops r' := by
  cases h with
  | retain k h => exact ⟨k, _, _, rfl, rfl, rfl, h⟩

theorem delete_inv {n : ℕ} (h : Edits code l (.delete n :: ops) r) :
    ∃ k l', n = unitLength code k ∧ l = k ++ l' ∧ Edits code l' ops r := by
  cases h with
  | delete k h => exact ⟨k, _, rfl, rfl, h⟩

theorem insert_inv {s : List β} (h : Edits code l (.insert s :: ops) r) :
    ∃ v r', s = encode code v ∧ r = v ++ r' ∧ Edits code l ops r' := by
  cases h with
  | insert v h => exact ⟨v, _, rfl, rfl, h⟩

theorem nil_inv (h : Edits code l [] r) : r = l := by
  cases h
  rfl

/-- A retain of which a first run of elements was used. -/
theorem leftRetain_rest (hcode : ∀ a, code a ≠ []) (k d : List α) (h : Edits code l ops r) :
    Edits code (d ++ l) (leftRetain (unitLength code (k ++ d)) (unitLength code k) ops)
      (d ++ r) := by
  unfold leftRetain
  rw [unitLength_append]
  split
  · rw [Nat.add_sub_cancel_left]
    exact .retain d h
  · have hd : d = [] := eq_nil_of_unitLength hcode (by omega)
    rw [hd]
    exact h

theorem leftDelete_rest (hcode : ∀ a, code a ≠ []) (k d : List α) (h : Edits code l ops r) :
    Edits code (d ++ l) (leftDelete (unitLength code (k ++ d)) (unitLength code k) ops) r := by
  unfold leftDelete
  rw [unitLength_append]
  split
  · rw [Nat.add_sub_cancel_left]
    exact .delete d h
  · have hd : d = [] := eq_nil_of_unitLength hcode (by omega)
    rw [hd]
    exact h

theorem leftInsert_rest (hcode : ∀ a, code a ≠ []) (k d : List α) (h : Edits code l ops r) :
    Edits code l (leftInsert (encode code (k ++ d)) (unitLength code k) ops) (d ++ r) := by
  unfold leftInsert
  rw [encode_append]
  split
  · rw [unitLength, List.drop_left]
    exact .insert d h
  · rename_i hlt
    have hd : d = [] := by
      refine eq_nil_of_unitLength hcode ?_
      rw [List.length_append] at hlt
      unfold unitLength at hlt ⊢
      omega
    rw [hd]
    exact h

theorem min_unitLength (k d : List α) :
    min (unitLength code k) (unitLength code (k ++ d)) = unitLength code k ∧
      min (unitLength code (k ++ d)) (unitLength code k) = unitLength code k := by
  rw [unitLength_append]
  omega

/-- **Composition.**  The composed delta leads straight to the end. -/
theorem composeOps (hcode : ∀ a, code a ≠ []) (h₁ : Edits code x a y) (h₂ : Edits code y b z) :
    Edits code x (composeOps a b) z := by
  fun_induction Base.composeOps a b generalizing x y z with
  | case1 b => exact nil_inv h₁ ▸ h₂
  | case2 a _ => exact nil_inv h₂ ▸ h₁
  | case3 n a b _ ih =>
    obtain ⟨k, x', rfl, rfl, g₁⟩ := delete_inv h₁
    exact .delete k (ih g₁ h₂)
  | case4 a s b _ _ ih =>
    obtain ⟨v, z', rfl, rfl, g₂⟩ := insert_inv h₂
    exact .insert v (ih h₁ g₂)
  | case5 n a m b ih =>
    obtain ⟨k, x', y', rfl, rfl, rfl, g₁⟩ := retain_inv h₁
    obtain ⟨j, y'', z', rfl, hy, rfl, g₂⟩ := retain_inv h₂
    rcases List.append_eq_append_iff.1 hy with ⟨d, rfl, rfl⟩ | ⟨d, rfl, rfl⟩
    · rw [(min_unitLength k d).1] at ih ⊢
      have hrest := leftRetain_rest hcode k [] g₁
      rw [List.append_nil] at hrest
      rw [List.append_assoc]
      exact .retain k (ih hrest (leftRetain_rest hcode k d g₂))
    · rw [(min_unitLength j d).2] at ih ⊢
      have hrest := leftRetain_rest hcode j [] g₂
      rw [List.append_nil] at hrest
      rw [List.append_assoc]
      exact .retain j (ih (leftRetain_rest hcode j d g₁) hrest)
  | case6 n a m b ih =>
    obtain ⟨k, x', y', rfl, rfl, rfl, g₁⟩ := retain_inv h₁
    obtain ⟨j, y'', rfl, hy, g₂⟩ := delete_inv h₂
    rcases List.append_eq_append_iff.1 hy with ⟨d, rfl, rfl⟩ | ⟨d, rfl, rfl⟩
    · rw [(min_unitLength k d).1] at ih ⊢
      have hrest := leftRetain_rest hcode k [] g₁
      rw [List.append_nil] at hrest
      exact .delete k (ih hrest (leftDelete_rest hcode k d g₂))
    · rw [(min_unitLength j d).2] at ih ⊢
      have hrest := leftDelete_rest hcode j [] g₂
      rw [List.append_nil] at hrest
      rw [List.append_assoc]
      exact .delete j (ih (leftRetain_rest hcode j d g₁) hrest)
  | case7 s a m b ih =>
    obtain ⟨v, y', rfl, rfl, g₁⟩ := insert_inv h₁
    obtain ⟨j, y'', z', rfl, hy, rfl, g₂⟩ := retain_inv h₂
    rcases List.append_eq_append_iff.1 hy with ⟨d, rfl, rfl⟩ | ⟨d, rfl, rfl⟩
    · have hmin : min (encode code v).length (unitLength code (v ++ d)) = unitLength code v :=
        (min_unitLength v d).1
      rw [hmin] at ih ⊢
      have hrest := leftInsert_rest hcode v [] g₁
      rw [List.append_nil] at hrest
      rw [List.append_assoc, unitLength, List.take_length]
      exact .insert v (ih hrest (leftRetain_rest hcode v d g₂))
    · have hmin : min (encode code (j ++ d)).length (unitLength code j) = unitLength code j :=
        (min_unitLength j d).2
      rw [hmin] at ih ⊢
      have hrest := leftRetain_rest hcode j [] g₂
      rw [List.append_nil] at hrest
      have htake : (encode code (j ++ d)).take (unitLength code j) = encode code j := by
        rw [encode_append, unitLength, List.take_left]
      rw [htake]
      exact .insert j (ih (leftInsert_rest hcode j d g₁) hrest)
  | case8 s a m b ih =>
    obtain ⟨v, y', rfl, rfl, g₁⟩ := insert_inv h₁
    obtain ⟨j, y'', rfl, hy, g₂⟩ := delete_inv h₂
    rcases List.append_eq_append_iff.1 hy with ⟨d, rfl, rfl⟩ | ⟨d, rfl, rfl⟩
    · have hmin : min (encode code v).length (unitLength code (v ++ d)) = unitLength code v :=
        (min_unitLength v d).1
      rw [hmin] at ih ⊢
      have hrest := leftInsert_rest hcode v [] g₁
      rw [List.append_nil] at hrest
      exact ih hrest (leftDelete_rest hcode v d g₂)
    · have hmin : min (encode code (j ++ d)).length (unitLength code j) = unitLength code j :=
        (min_unitLength j d).2
      rw [hmin] at ih ⊢
      have hrest := leftDelete_rest hcode j [] g₂
      rw [List.append_nil] at hrest
      exact ih (leftInsert_rest hcode j d g₁) hrest

/-! ### Tidying up -/

theorem pushOp_step {op : DeltaOp β} {out : List (DeltaOp β)}
    (h : Edits code l (out.reverse ++ op :: ops) r) :
    Edits code l ((pushOp out op).reverse ++ ops) r := by
  unfold pushOp
  split
  · rename_i m out n
    rw [List.reverse_cons, List.append_assoc] at h ⊢
    refine h.replace fun l r h => ?_
    obtain ⟨k, _, _, rfl, rfl, rfl, g⟩ := retain_inv h
    obtain ⟨j, _, _, rfl, rfl, rfl, g'⟩ := retain_inv g
    rw [← unitLength_append, ← List.append_assoc, ← List.append_assoc]
    exact .retain (k ++ j) g'
  · rename_i m out n
    rw [List.reverse_cons, List.append_assoc] at h ⊢
    refine h.replace fun l r h => ?_
    obtain ⟨k, _, rfl, rfl, g⟩ := delete_inv h
    obtain ⟨j, _, rfl, rfl, g'⟩ := delete_inv g
    rw [← unitLength_append, ← List.append_assoc]
    exact .delete (k ++ j) g'
  · rename_i s out t
    rw [List.reverse_cons, List.append_assoc] at h ⊢
    refine h.replace fun l r h => ?_
    obtain ⟨k, _, rfl, rfl, g⟩ := insert_inv h
    obtain ⟨j, _, rfl, rfl, g'⟩ := insert_inv g
    rw [← encode_append, ← List.append_assoc]
    exact .insert (k ++ j) g'
  · rw [List.reverse_cons, List.append_assoc]
    exact h

theorem mergeOps (h : Edits code l ops r) : Edits code l (mergeOps ops) r := by
  suffices hfold : ∀ out, Edits code l (out.reverse ++ ops) r →
      Edits code l (ops.foldl pushOp out).reverse r from hfold [] h
  clear h
  induction ops with
  | nil =>
    intro out h
    rwa [List.append_nil] at h
  | cons op ops ih =>
    intro out h
    exact ih _ (pushOp_step h)

/-- What is inserted reads back as the elements it is made of. -/
theorem units_decoded {decode : List β → List α} (hdec : ∀ v, decode (encode code v) = v)
    (h : Edits code l ops r) :
    (ops.map (DeltaOp.decoded decode)).map (DeltaOp.units code) = ops := by
  induction h with
  | done _ => rfl
  | retain k _ ih => exact congrArg _ ih
  | delete k _ ih => exact congrArg _ ih
  | insert v _ ih =>
    rw [List.map_cons, List.map_cons, ih]
    show DeltaOp.insert (encode code (decode (encode code v))) :: _ = _
    rw [hdec]

theorem of_append_retain {n : ℕ} (h : Edits code l (ops ++ [DeltaOp.retain n]) r) :
    Edits code l ops r := by
  rw [← List.append_nil ops]
  refine h.replace fun l r h => ?_
  obtain ⟨k, _, _, rfl, rfl, rfl, g⟩ := retain_inv h
  exact nil_inv g ▸ .done _

end Edits

theorem trimDelta_concat (ops : List (DeltaOp α)) (op : DeltaOp α) :
    trimDelta (ops ++ [op]) = if op.isRetain then trimDelta ops else ops ++ [op] := by
  unfold trimDelta
  rw [List.reverse_append, List.reverse_singleton, List.singleton_append, List.dropWhile_cons]
  split
  · rfl
  · simp

namespace Edits

variable {code : α → List β} {x y z l r : List α}

theorem trimDelta {ops : List (DeltaOp α)} (h : Edits code l (ops.map (DeltaOp.units code)) r) :
    Edits code l ((trimDelta ops).map (DeltaOp.units code)) r := by
  induction ops using List.reverseRecOn with
  | nil => exact h
  | append_singleton ops op ih =>
    rw [trimDelta_concat]
    split
    · rename_i hretain
      rw [List.map_append] at h
      cases op with
      | retain n => exact ih h.of_append_retain
      | delete n => cases hretain
      | insert vals => cases hretain
    · exact h

/-- **Composition** of deltas with whole elements. -/
theorem composeDeltas {decode : List β → List α} (hcode : ∀ a, code a ≠ [])
    (hdec : ∀ v, decode (encode code v) = v) {a b : List (DeltaOp α)}
    (h₁ : Edits code x (a.map (DeltaOp.units code)) y)
    (h₂ : Edits code y (b.map (DeltaOp.units code)) z) :
    Edits code x ((composeDeltas code decode a b).map (DeltaOp.units code)) z := by
  unfold Base.composeDeltas
  split
  · rename_i hnil
    subst hnil
    rw [nil_inv h₁] at h₂
    exact h₂.trimDelta
  split
  · rename_i hnil
    subst hnil
    rw [nil_inv h₂]
    exact h₁.trimDelta
  · have hmerged := (composeOps hcode h₁ h₂).mergeOps
    refine trimDelta ?_
    rw [hmerged.units_decoded hdec]
    exact hmerged

end Edits

end Monoplan.Base
