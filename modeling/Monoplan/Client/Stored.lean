import Monoplan.Client.Storage

/-!
# The operations in storage

Which operations a stored snapshot and the WAL rows after it hold between them.  A payload that
does not open holds none.
-/

namespace Monoplan.Client

/-- The operations a blob holds. -/
def Blob.held (b : Blob) : Finset OpId := b.ops.getD ∅

/-- The operations of a stored snapshot. -/
def snapshotOps (snapshot : Option SnapshotRow) : Finset OpId :=
  snapshot.elim ∅ fun row => row.payload.held

/-- The operations of WAL rows. -/
def walOps : List WalRow → Finset OpId
  | [] => ∅
  | row :: rows => row.payload.held ∪ walOps rows

/-- The operations on disk. -/
def Disk.stored (s : Disk) : Finset OpId := snapshotOps s.snapshot ∪ walOps s.wal

variable {rows rows' : List WalRow} {o : OpId}

theorem mem_walOps : o ∈ walOps rows ↔ ∃ row ∈ rows, o ∈ row.payload.held := by
  induction rows with
  | nil => simp [walOps]
  | cons row rows ih => simp [walOps, ih]

theorem walOps_append : walOps (rows ++ rows') = walOps rows ∪ walOps rows' := by
  ext o
  simp [mem_walOps, or_and_right, exists_or]

theorem walOps_mono (h : rows ⊆ rows') : walOps rows ⊆ walOps rows' := by
  intro o ho
  obtain ⟨row, hrow, hmem⟩ := mem_walOps.1 ho
  exact mem_walOps.2 ⟨row, h hrow, hmem⟩

@[simp] theorem walOps_singleton (row : WalRow) : walOps [row] = row.payload.held := by
  simp [walOps]

/-- A row that is appended adds its operations. -/
theorem stored_append (s : Disk) (seq : Option ℕ) (payload : Blob) :
    (s.append seq payload).stored = s.stored ∪ payload.held := by
  show snapshotOps s.snapshot ∪ walOps (s.wal ++ [_]) = _
  rw [walOps_append, walOps_singleton, Disk.stored, Finset.union_assoc]

end Monoplan.Client
