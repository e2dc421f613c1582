import Mathlib.Data.List.Basic
import Mathlib.Data.List.InsertIdx
import Mathlib.Data.List.Nodup

/-!
# Editing lists by position

* `placeAt l i a` inserts before position `i`, at the end when there is no such position.
* `positionsOf p l` are the positions of the elements that satisfy `p`, and `removeAt` takes
  positions out from the last to the first; together they filter (`removeAt_positionsOf`).
* Both commute with `map`, so a list and its image can be edited by the same positions.
-/

namespace Monoplan.Base

variable {α β : Type*}

/-! ## Insertion -/

/-- Insert before position `i`, or at the end. -/
def placeAt (l : List α) (i : ℕ) (a : α) : List α := l.take i ++ a :: l.drop i

@[simp] theorem map_placeAt (f : α → β) (l : List α) (i : ℕ) (a : α) :
    (placeAt l i a).map f = placeAt (l.map f) i (f a) := by
  simp [placeAt]

@[simp] theorem length_placeAt (l : List α) (i : ℕ) (a : α) :
    (placeAt l i a).length = l.length + 1 := by
  simp only [placeAt, List.length_append, List.length_cons, List.length_take, List.length_drop]
  omega

@[simp] theorem mem_placeAt {l : List α} {i : ℕ} {a b : α} :
    b ∈ placeAt l i a ↔ b = a ∨ b ∈ l := by
  have hsplit : b ∈ l ↔ b ∈ l.take i ∨ b ∈ l.drop i := by
    rw [← List.mem_append, List.take_append_drop]
  simp only [placeAt, List.mem_append, List.mem_cons, hsplit]
  tauto

theorem placeAt_perm (l : List α) (i : ℕ) (a : α) : (placeAt l i a).Perm (a :: l) := by
  unfold placeAt
  refine List.perm_middle.trans ?_
  rw [List.take_append_drop]

/-- Inserting at a position that is the length of a first part. -/
theorem placeAt_append (xs ys : List α) (a : α) :
    placeAt (xs ++ ys) xs.length a = xs ++ a :: ys := by
  simp [placeAt]

theorem placeAt_append_of_le {xs : List α} {i : ℕ} (h : i ≤ xs.length) (ys : List α) (a : α) :
    placeAt (xs ++ ys) i a = placeAt xs i a ++ ys := by
  simp [placeAt, List.take_append_of_le_length h, List.drop_append_of_le_length h]

/-- Inserting behind an element. -/
theorem placeAt_append_cons {xs : List α} {i : ℕ} (h : xs.length < i) (x : α) (ys : List α) (a : α) :
    placeAt (xs ++ x :: ys) i a = xs ++ x :: placeAt ys (i - xs.length - 1) a := by
  obtain ⟨k, rfl⟩ := Nat.exists_eq_add_of_lt h
  have hk : xs.length + k + 1 - xs.length - 1 = k := by omega
  have hi : xs.length + k + 1 = xs.length + (k + 1) := Nat.add_assoc _ _ _
  rw [hk, hi, placeAt, placeAt, List.take_length_add_append, List.drop_length_add_append]
  simp

/-- A position past the end is the end. -/
theorem placeAt_of_length_le {l : List α} {i : ℕ} (h : l.length ≤ i) (a : α) :
    placeAt l i a = l ++ [a] := by
  simp [placeAt, List.take_of_length_le h, List.drop_of_length_le h]

/-- An element that is not in the list stands at one position only. -/
theorem placeAt_inj [DecidableEq α] {l : List α} {i j : ℕ} {a b : α} (ha : a ∉ l) (hi : i ≤ l.length)
    (hj : j ≤ l.length) (h : placeAt l i a = placeAt l j b) : i = j ∧ a = b := by
  have hmem : a ∈ placeAt l j b := h ▸ mem_placeAt.2 (.inl rfl)
  obtain rfl := (mem_placeAt.1 hmem).resolve_right ha
  have hidx : ∀ k, k ≤ l.length → (placeAt l k a).idxOf a = k := fun k hk => by
    rw [placeAt, List.idxOf_append_of_notMem fun hin => ha (List.mem_of_mem_take hin),
      List.idxOf_cons_self, List.length_take, Nat.min_eq_left hk, Nat.add_zero]
  exact ⟨by rw [← hidx i hi, h, hidx j hj], rfl⟩

/-- The element stands where it was put in. -/
theorem getElem?_placeAt_self {l : List α} {i : ℕ} (h : i ≤ l.length) (a : α) :
    (placeAt l i a)[i]? = some a := by
  have hlen : (l.take i).length = i := by rw [List.length_take, Nat.min_eq_left h]
  rw [placeAt, List.getElem?_append_right (Nat.le_of_eq hlen), hlen, Nat.sub_self]
  rfl

/-- Insert a run of elements, each after the one before. -/
def placeRun (l : List α) (i : ℕ) : List α → List α
  | [] => l
  | a :: as => placeRun (placeAt l i a) (i + 1) as

@[simp] theorem length_placeRun (l : List α) (i : ℕ) (as : List α) :
    (placeRun l i as).length = l.length + as.length := by
  induction as generalizing l i with
  | nil => rfl
  | cons a as ih =>
    rw [placeRun, ih, length_placeAt, List.length_cons]
    omega

theorem placeRun_append_length (xs ys as : List α) :
    placeRun (xs ++ ys) xs.length as = xs ++ as ++ ys := by
  induction as generalizing xs with
  | nil => simp [placeRun]
  | cons a as ih =>
    show placeRun (placeAt (xs ++ ys) xs.length a) (xs.length + 1) as = _
    rw [placeAt_append]
    have hstep := ih (xs ++ [a])
    rw [List.length_append, List.length_singleton, List.append_assoc xs [a],
      List.singleton_append] at hstep
    rw [hstep]
    simp

/-- The others stay in their order. -/
theorem filter_placeAt {p : α → Bool} {a : α} (ha : p a = false) (l : List α) (i : ℕ) :
    (placeAt l i a).filter p = l.filter p := by
  rw [placeAt, List.filter_append, List.filter_cons_of_neg (by simp [ha]), ← List.filter_append,
    List.take_append_drop]

/-! ## Moving -/

/-- Take the element at `source` out and put it in at `dest`. -/
def moveWithin (l : List α) (source dest : ℕ) : List α :=
  match l[source]? with
  | none => l
  | some a => placeAt (l.eraseIdx source) dest a

@[simp] theorem map_moveWithin (f : α → β) (l : List α) (source dest : ℕ) :
    (moveWithin l source dest).map f = moveWithin (l.map f) source dest := by
  unfold moveWithin
  rw [List.getElem?_map]
  cases l[source]? with
  | none => rfl
  | some a => simp [List.eraseIdx_map]

@[simp] theorem moveWithin_self (l : List α) (i : ℕ) : moveWithin l i i = l := by
  unfold moveWithin
  cases h : l[i]? with
  | none => rfl
  | some a =>
    obtain ⟨hlt, rfl⟩ := List.getElem?_eq_some_iff.1 h
    have hlen : (l.take i).length = i := by rw [List.length_take, Nat.min_eq_left (Nat.le_of_lt hlt)]
    dsimp only
    rw [placeAt, List.eraseIdx_eq_take_drop_succ, List.take_left' hlen, List.drop_left' hlen,
      List.getElem_cons_drop, List.take_append_drop]

/-- Moving keeps the elements. -/
theorem moveWithin_perm (l : List α) (source dest : ℕ) : (moveWithin l source dest).Perm l := by
  unfold moveWithin
  cases h : l[source]? with
  | none => exact .refl l
  | some a =>
    obtain ⟨hlt, rfl⟩ := List.getElem?_eq_some_iff.1 h
    refine (placeAt_perm _ _ _).trans ?_
    rw [List.eraseIdx_eq_take_drop_succ]
    refine List.perm_middle.symm.trans ?_
    rw [List.getElem_cons_drop, List.take_append_drop]

/-- A move within a first part leaves the rest alone. -/
theorem moveWithin_append {l : List α} {source dest : ℕ} (hsource : source < l.length)
    (hdest : dest < l.length) (rest : List α) :
    moveWithin (l ++ rest) source dest = moveWithin l source dest ++ rest := by
  have hlen : dest ≤ (l.eraseIdx source).length := by
    rw [List.length_eraseIdx_of_lt hsource]
    omega
  unfold moveWithin
  rw [List.getElem?_append_left hsource, List.getElem?_eq_getElem hsource]
  dsimp only
  rw [List.eraseIdx_append_of_lt_length hsource, placeAt_append_of_le hlen]

/-! ## Another element in a place -/

/-- Nothing is seen of an element that looks the same. -/
theorem map_set_same (f : α → β) {l : List α} {i : ℕ} {a b : α} (hget : l[i]? = some a)
    (h : f b = f a) : (l.set i b).map f = l.map f := by
  obtain ⟨hlt, rfl⟩ := List.getElem?_eq_some_iff.1 hget
  rw [List.map_set, h, ← List.map_set, List.set_getElem_self]

/-! ## Removal -/

theorem filter_ne_eq_erase [DecidableEq α] {l : List α} (h : l.Nodup) (a : α) :
    l.filter (fun b => b ≠ a) = l.erase a := by
  rw [h.erase_eq_filter]
  refine List.filter_congr fun b _ => ?_
  by_cases hb : b = a <;> simp [hb]

/-- Take the positions out, last first. -/
def removeAt (ps : List ℕ) (l : List α) : List α := ps.foldr (fun i l => l.eraseIdx i) l

theorem map_removeAt (f : α → β) (ps : List ℕ) (l : List α) :
    (removeAt ps l).map f = removeAt ps (l.map f) := by
  induction ps with
  | nil => rfl
  | cons i ps ih =>
    show ((removeAt ps l).eraseIdx i).map f = (removeAt ps (l.map f)).eraseIdx i
    rw [← ih, List.eraseIdx_map]

/-- The positions from `n` on of the elements that satisfy `p`. -/
def positionsFrom (p : α → Bool) : ℕ → List α → List ℕ
  | _, [] => []
  | n, a :: l => if p a then n :: positionsFrom p (n + 1) l else positionsFrom p (n + 1) l

/-- The positions of the elements that satisfy `p`, ascending. -/
def positionsOf (p : α → Bool) (l : List α) : List ℕ := positionsFrom p 0 l

theorem mem_positionsFrom {p : α → Bool} {n i : ℕ} {l : List α} :
    i ∈ positionsFrom p n l ↔ ∃ a, p a = true ∧ n ≤ i ∧ l[i - n]? = some a := by
  induction l generalizing n with
  | nil => simp [positionsFrom]
  | cons b l ih =>
    have hstep : (∃ a, p a = true ∧ n + 1 ≤ i ∧ l[i - (n + 1)]? = some a) ↔
        ∃ a, p a = true ∧ n < i ∧ (b :: l)[i - n]? = some a := by
      refine exists_congr fun a => and_congr_right fun _ => and_congr_right fun hlt => ?_
      have : i - n = (i - (n + 1)) + 1 := by omega
      rw [this, List.getElem?_cons_succ]
    have hsplit : (∃ a, p a = true ∧ n ≤ i ∧ (b :: l)[i - n]? = some a) ↔
        (i = n ∧ p b = true) ∨ ∃ a, p a = true ∧ n < i ∧ (b :: l)[i - n]? = some a := by
      constructor
      · rintro ⟨a, ha, hle, hget⟩
        rcases Nat.eq_or_lt_of_le hle with rfl | hlt
        · simp only [Nat.sub_self, List.getElem?_cons_zero, Option.some.injEq] at hget
          exact .inl ⟨rfl, hget ▸ ha⟩
        · exact .inr ⟨a, ha, hlt, hget⟩
      · rintro (⟨rfl, hb⟩ | ⟨a, ha, hlt, hget⟩)
        · exact ⟨b, hb, (Nat.le_refl _), by simp⟩
        · exact ⟨a, ha, Nat.le_of_lt hlt, hget⟩
    rw [hsplit, ← hstep, ← ih, positionsFrom]
    by_cases hb : p b = true
    · simp [hb]
    · simp [hb]

theorem positionsFrom_ascending (p : α → Bool) (n : ℕ) (l : List α) :
    (positionsFrom p n l).Pairwise (· < ·) := by
  induction l generalizing n with
  | nil => exact List.Pairwise.nil
  | cons b l ih =>
    unfold positionsFrom
    split
    · refine List.pairwise_cons.2 ⟨fun i hi => ?_, ih _⟩
      obtain ⟨-, -, hle, -⟩ := mem_positionsFrom.1 hi
      omega
    · exact ih _

/-- Taking out the positions of the elements that satisfy `p` leaves the others, and what is
behind the list they were found in. -/
theorem removeAt_positionsOf_append (p : α → Bool) (l rest : List α) :
    removeAt (positionsOf p l) (l ++ rest) = (l.filter fun a => !p a) ++ rest := by
  suffices h : ∀ pre : List α, removeAt (positionsFrom p pre.length l) (pre ++ (l ++ rest)) =
      pre ++ ((l.filter fun a => !p a) ++ rest) by
    exact h []
  induction l with
  | nil => simp [positionsFrom, removeAt]
  | cons b l ih =>
    intro pre
    have hrest := ih (pre ++ [b])
    rw [List.length_append, List.length_singleton, List.append_assoc, List.singleton_append] at hrest
    unfold positionsFrom
    by_cases hb : p b = true
    · rw [if_pos hb]
      show (removeAt (positionsFrom p (pre.length + 1) l)
        (pre ++ (b :: (l ++ rest)))).eraseIdx pre.length = _
      rw [hrest, List.append_assoc, List.eraseIdx_append_of_length_le (Nat.le_refl _)]
      simp [hb]
    · rw [if_neg hb, List.cons_append, hrest]
      simp [hb]

theorem removeAt_positionsOf (p : α → Bool) (l : List α) :
    removeAt (positionsOf p l) l = l.filter fun a => !p a := by
  have h := removeAt_positionsOf_append p l []
  rwa [List.append_nil, List.append_nil] at h

end Monoplan.Base
