import Mathlib.Algebra.Group.Nat.Defs
import Mathlib.Data.List.Infix

/-!
# Bytes

* `takeBytes` reads a number of bytes from the front of a stream that ends.
* `toBe` and `ofBe` write and read numbers in a fixed number of bytes, the highest first.
-/

namespace Monoplan.Base

/-- The next `n` bytes, and what follows; `none` where the stream ends before. -/
def takeBytes (n : ℕ) (s : List UInt8) : Option (List UInt8 × List UInt8) :=
  if n ≤ s.length then some (s.take n, s.drop n) else none

/-- The last `k` bytes of a number. -/
def toBe : ℕ → ℕ → List UInt8
  | 0, _ => []
  | k + 1, n => toBe k (n / 256) ++ [UInt8.ofNat n]

/-- The number that bytes are. -/
def ofBe (bs : List UInt8) : ℕ := bs.foldl (fun n b => 256 * n + b.toNat) 0

variable {n k : ℕ} {p s : List UInt8}

theorem takeBytes_append (h : p.length = n) (s : List UInt8) :
    takeBytes n (p ++ s) = some (p, s) := by
  rw [takeBytes, if_pos (by rw [List.length_append]; omega), ← h, List.take_left, List.drop_left]

theorem takeBytes_eq_none (h : s.length < n) : takeBytes n s = none :=
  if_neg (Nat.not_le_of_lt h)

theorem takeBytes_eq_some {r : List UInt8 × List UInt8} (h : takeBytes n s = some r) :
    s = r.1 ++ r.2 ∧ r.1.length = n := by
  rw [takeBytes] at h
  split at h
  · rename_i hle
    cases h
    exact ⟨(List.take_append_drop n s).symm, by rw [List.length_take]; omega⟩
  · cases h

@[simp] theorem length_toBe (k n : ℕ) : (toBe k n).length = k := by
  induction k generalizing n with
  | zero => rfl
  | succ k ih => rw [toBe, List.length_append, ih, List.length_singleton]

theorem ofBe_concat (bs : List UInt8) (b : UInt8) : ofBe (bs ++ [b]) = 256 * ofBe bs + b.toNat := by
  rw [ofBe, List.foldl_append]
  rfl

/-- A number that fits is read as it was written. -/
theorem ofBe_toBe (h : n < 256 ^ k) : ofBe (toBe k n) = n := by
  induction k generalizing n with
  | zero =>
    rw [pow_zero] at h
    obtain rfl : n = 0 := by omega
    rfl
  | succ k ih =>
    have hdiv : n / 256 < 256 ^ k := by
      rw [pow_succ] at h
      exact Nat.div_lt_of_lt_mul (by rwa [Nat.mul_comm])
    rw [toBe, ofBe_concat, ih hdiv, UInt8.toNat_ofNat']
    exact Nat.div_add_mod n 256

theorem ofBe_lt (bs : List UInt8) : ofBe bs < 256 ^ bs.length := by
  induction bs using List.reverseRecOn with
  | nil => exact Nat.one_pos
  | append_singleton bs b ih =>
    have hb := b.toNat_lt
    rw [ofBe_concat, List.length_append, List.length_singleton, pow_succ]
    omega

end Monoplan.Base
