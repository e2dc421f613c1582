import Mathlib.Data.List.Basic
import Mathlib.Data.List.Sort
import Mathlib.Order.Lattice

/-!
# Tables with uniqueness constraints

What a program over an SQL table rests on, for arbitrary rows.  `conflict` is the relation the
primary key and the unique indexes of the table forbid between two of its rows.

* `Table.insert` fails where a row in the table conflicts with the new one.
* `Table.select`, `Table.delete`: the rows that meet a condition, and the table without them.
* `coalesceMax`: the maximum of a column, 0 where there is no row.
-/

namespace Monoplan.Base

/-- A table: rows no two of which conflict. -/
structure Table (ρ : Type*) (conflict : ρ → ρ → Prop) where
  rows : List ρ
  /-- The constraints hold. -/
  unique : rows.Pairwise fun a b => ¬conflict a b

namespace Table

variable {ρ : Type*} {conflict : ρ → ρ → Prop}

/-- The table with no rows. -/
def empty : Table ρ conflict := ⟨[], .nil⟩

/-- `SELECT … WHERE p`. -/
def select (t : Table ρ conflict) (p : ρ → Bool) : List ρ := t.rows.filter p

/-- `DELETE … WHERE p`. -/
def delete (t : Table ρ conflict) (p : ρ → Bool) : Table ρ conflict where
  rows := t.rows.filter fun r => !p r
  unique := t.unique.filter _

/-- `INSERT`: fails where the row conflicts with one that is there. -/
def insert [DecidableRel conflict] (t : Table ρ conflict) (r : ρ) : Option (Table ρ conflict) :=
  if h : ∀ q ∈ t.rows, ¬conflict q r then
    some
      { rows := t.rows ++ [r]
        unique := List.pairwise_append.2
          ⟨t.unique, List.pairwise_singleton _ r, fun q hq _ hs => List.mem_singleton.1 hs ▸ h q hq⟩ }
  else none

variable {t t' : Table ρ conflict} {r : ρ} {p q : ρ → Bool}

theorem mem_select : r ∈ t.select p ↔ r ∈ t.rows ∧ p r = true := List.mem_filter

theorem select_delete :
    (t.delete q).select p = (t.select p).filter fun r => !q r := by
  rw [select, delete, select, List.filter_filter, List.filter_filter]
  exact List.filter_congr fun r _ => Bool.and_comm _ _

/-- Rows that are deleted elsewhere leave a selection as it is. -/
theorem select_delete_of_disjoint (h : ∀ r, p r = true → q r = false) :
    (t.delete q).select p = t.select p := by
  rw [select_delete]
  refine List.filter_eq_self.2 fun r hr => ?_
  rw [h r (mem_select.1 hr).2]
  rfl

theorem select_append (h : t'.rows = t.rows ++ [r]) (hr : p r = true) :
    t'.select p = t.select p ++ [r] := by
  rw [select, h, List.filter_append, List.filter_cons_of_pos hr, List.filter_nil, select]

theorem select_append_ne (h : t'.rows = t.rows ++ [r]) (hr : p r = false) :
    t'.select p = t.select p := by
  rw [select, h, List.filter_append, List.filter_cons_of_neg (by simp [hr]), List.filter_nil,
    List.append_nil, select]

/-- A lookup under two conditions searches a selection. -/
theorem find_select : (t.rows.find? fun r => p r && q r) = (t.select p).find? q := by
  rw [select, List.find?_filter]
  congr 1
  funext r
  simp

/-- A row that conflicts with none is inserted. -/
theorem insert_eq_some [DecidableRel conflict] (h : ∀ q ∈ t.rows, ¬conflict q r) :
    ∃ t', t.insert r = some t' ∧ t'.rows = t.rows ++ [r] :=
  ⟨_, dif_pos h, rfl⟩

end Table

/-! ## The maximum of a column -/

/-- `COALESCE((SELECT MAX(…)), 0)`. -/
def coalesceMax (column : List ℤ) : ℤ := column.max?.getD 0

variable {column : List ℤ} {n : ℤ}

theorem coalesceMax_le (h0 : 0 ≤ n) (h : ∀ x ∈ column, x ≤ n) : coalesceMax column ≤ n := by
  unfold coalesceMax
  cases hmax : column.max? with
  | none => exact h0
  | some m => exact h m (List.max?_mem hmax)

theorem le_coalesceMax (h : n ∈ column) : n ≤ coalesceMax column := by
  unfold coalesceMax
  cases hmax : column.max? with
  | none =>
    rw [List.max?_eq_none_iff.1 hmax] at h
    exact absurd h List.not_mem_nil
  | some m => exact (List.max?_eq_some_iff.1 hmax).2 n h

theorem coalesceMax_nonneg (h : ∀ x ∈ column, 0 ≤ x) : 0 ≤ coalesceMax column := by
  unfold coalesceMax
  cases hmax : column.max? with
  | none => exact le_rfl
  | some m => exact h m (List.max?_mem hmax)

/-- An upper bound of two columns that one of them reaches is their maximum. -/
theorem max_coalesceMax {column' : List ℤ} (h0 : 0 ≤ n) (hpos : ∀ x ∈ column, 0 ≤ x)
    (h : ∀ x ∈ column, x ≤ n) (h' : ∀ x ∈ column', x ≤ n)
    (hmem : n = 0 ∨ n ∈ column ∨ n ∈ column') :
    max (coalesceMax column) (coalesceMax column') = n := by
  apply le_antisymm
  · exact max_le (coalesceMax_le h0 h) (coalesceMax_le h0 h')
  · rcases hmem with rfl | hmem | hmem
    · exact (coalesceMax_nonneg hpos).trans (le_max_left _ _)
    · exact (le_coalesceMax hmem).trans (le_max_left _ _)
    · exact (le_coalesceMax hmem).trans (le_max_right _ _)

end Monoplan.Base
