import Mathlib.Data.Finset.Union

/-!
# A log of rows

A log is a list of rows, each a finite set of items; rows are numbered from `1`.  Everything here
is about items of an arbitrary type.

* `row L n` is the row at a number, `upTo L n` what the first `n` rows hold, `all L` what the
  whole log holds.
* `Covers L n X`: the log has `n` rows, and `X` holds everything in them.  A reader that has
  all of the first `n` rows and takes the next one has `n + 1` (`Covers.succ`), and a longer log
  changes nothing (`Covers.append`).
* `Ordered dep L`: whatever an item depends on is in its own row or an earlier one.
-/

namespace Monoplan.Base

variable {α : Type*} [DecidableEq α]

/-- Rows, oldest first. -/
abbrev RowLog (α : Type*) := List (Finset α)

namespace RowLog

/-- What the rows hold. -/
def all : RowLog α → Finset α
  | [] => ∅
  | r :: L => r ∪ all L

/-- The row at a number. -/
def row (L : RowLog α) : ℕ → Option (Finset α)
  | 0 => none
  | n + 1 => L[n]?

/-- What the first rows hold. -/
def upTo (L : RowLog α) (n : ℕ) : Finset α := all (L.take n)

variable {L M : RowLog α} {r X Y : Finset α} {m n : ℕ} {a : α}

theorem mem_all : a ∈ all L ↔ ∃ r ∈ L, a ∈ r := by
  induction L with
  | nil => simp [all]
  | cons r L ih => simp [all, ih]

theorem all_append (L M : RowLog α) : all (L ++ M) = all L ∪ all M := by
  induction L with
  | nil => simp [all]
  | cons r L ih => rw [List.cons_append, all, ih, all, Finset.union_assoc]

@[simp] theorem all_nil : all ([] : RowLog α) = ∅ := rfl

@[simp] theorem all_singleton (r : Finset α) : all [r] = r := by
  rw [all, all_nil, Finset.union_empty]

theorem row_subset (h : L.row n = some r) : r ⊆ all L := by
  cases n with
  | zero => exact absurd h (by simp [row])
  | succ n =>
    intro a ha
    exact mem_all.2 ⟨r, List.mem_of_getElem? h, ha⟩

omit [DecidableEq α] in
theorem row_le_length (h : L.row n = some r) : n ≤ L.length := by
  cases n with
  | zero => exact Nat.zero_le _
  | succ n =>
    obtain ⟨hlt, _⟩ := List.getElem?_eq_some_iff.1 h
    exact hlt

omit [DecidableEq α] in
theorem row_append (M : RowLog α) (h : L.row n = some r) : row (L ++ M) n = some r := by
  cases n with
  | zero => exact absurd h (by simp [row])
  | succ n =>
    rw [row, List.getElem?_append_left (row_le_length h)]
    exact h

@[simp] theorem upTo_zero : L.upTo 0 = ∅ := rfl

theorem upTo_length : L.upTo L.length = all L := by
  rw [upTo, List.take_length]

theorem upTo_subset_all : L.upTo n ⊆ all L := by
  intro a ha
  obtain ⟨r, hr, har⟩ := mem_all.1 ha
  exact mem_all.2 ⟨r, List.mem_of_mem_take hr, har⟩

theorem upTo_mono (h : m ≤ n) : L.upTo m ⊆ L.upTo n := by
  intro a ha
  obtain ⟨r, hr, har⟩ := mem_all.1 ha
  exact mem_all.2 ⟨r, (List.take_sublist_take_left h).subset hr, har⟩

theorem upTo_succ (h : L.row (n + 1) = some r) : L.upTo (n + 1) = L.upTo n ∪ r := by
  have h' : L[n]? = some r := h
  rw [upTo, List.take_add_one, all_append, h']
  show _ ∪ all [r] = _
  rw [all_singleton]
  rfl

theorem upTo_append (h : n ≤ L.length) : upTo (L ++ M) n = L.upTo n := by
  rw [upTo, List.take_append_of_le_length h]
  rfl

/-! ## What a reader has -/

/-- The log has `n` rows, and `X` holds everything in them. -/
structure Covers (L : RowLog α) (n : ℕ) (X : Finset α) : Prop where
  length : n ≤ L.length
  held : L.upTo n ⊆ X

namespace Covers

theorem zero : L.Covers 0 X := ⟨Nat.zero_le _, by simp⟩

theorem mono (h : L.Covers n X) (hX : X ⊆ Y) : L.Covers n Y := ⟨h.length, h.held.trans hX⟩

theorem of_le (h : L.Covers n X) (hm : m ≤ n) : L.Covers m X :=
  ⟨hm.trans h.length, (upTo_mono hm).trans h.held⟩

/-- The next row is taken. -/
theorem succ (h : L.Covers n X) (hrow : L.row (n + 1) = some r) (hr : r ⊆ X) :
    L.Covers (n + 1) X :=
  ⟨row_le_length hrow, upTo_succ hrow ▸ Finset.union_subset h.held hr⟩

theorem append (M : RowLog α) (h : L.Covers n X) : Covers (L ++ M) n X := by
  refine ⟨?_, (upTo_append h.length).subset.trans h.held⟩
  rw [List.length_append]
  exact h.length.trans (Nat.le_add_right _ _)

theorem max (h : L.Covers n X) (h' : L.Covers m X) : L.Covers (Max.max n m) X := by
  rcases Nat.le_total n m with hle | hle
  · rwa [Nat.max_eq_right hle]
  · rwa [Nat.max_eq_left hle]

end Covers

/-! ## Rows that come after what they depend on -/

/-- A set that holds what its items depend on. -/
def Closed (dep : α → Finset α) (X : Finset α) : Prop := ∀ a ∈ X, dep a ⊆ X

/-- Whatever an item depends on is in its own row or an earlier one. -/
def Ordered (dep : α → Finset α) (L : RowLog α) : Prop := ∀ n, Closed dep (L.upTo n)

variable {dep : α → Finset α}

theorem Closed.union (hX : Closed dep X) (hY : ∀ a ∈ Y, dep a ⊆ X ∪ Y) :
    Closed dep (X ∪ Y) := by
  intro a ha
  rcases Finset.mem_union.1 ha with ha | ha
  · exact (hX a ha).trans Finset.subset_union_left
  · exact hY a ha

theorem Ordered.nil : Ordered dep ([] : RowLog α) := by
  intro n a ha
  rw [upTo, List.take_nil] at ha
  exact absurd ha (by simp)

theorem Ordered.all (h : Ordered dep L) : Closed dep (RowLog.all L) := by
  rw [← upTo_length]
  exact h _

theorem Ordered.append (h : Ordered dep L) (hr : ∀ a ∈ r, dep a ⊆ RowLog.all L ∪ r) :
    Ordered dep (L ++ [r]) := by
  intro n
  rcases Nat.lt_or_ge L.length n with hlt | hle
  · have hall : upTo (L ++ [r]) n = RowLog.all L ∪ r := by
      rw [upTo, List.take_of_length_le (by rw [List.length_append]; exact hlt), all_append, all_singleton]
    rw [hall]
    exact h.all.union hr
  · rw [upTo_append hle]
    exact h n

end RowLog

end Monoplan.Base
