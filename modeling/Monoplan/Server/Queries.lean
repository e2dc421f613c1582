import Mathlib.Data.Int.Notation
import Mathlib.Logic.Function.Basic
import Monoplan.Base.Consecutive
import Monoplan.Protocol.Frames

/-!
# The server's tables, on one document

The rows the sync server keeps for a document and the queries that read and write them.
Each query is one database call, hence atomic; what the sessions do between two calls is
modelled in `Monoplan.Server.Ws`.

* `UpdateLog` is the `updates` table with the document's `next_seq` counter.  Its field
  `dense` is the table's invariant: the live rows are numbered consecutively up to the
  counter, because an insert takes the next number and `compact_doc` only ever deletes from
  the bottom.
* `insertUpdates` deduplicates on `(device, push_id)` before it reserves a number.
* `docHorizon` is the smallest frontier over the devices of the active members, with the
  calling device's value replaced by what it is known to hold already.
-/

namespace Monoplan.Server

open Monoplan.Base Monoplan.Protocol

variable {β : Type*}

/-! ## Tables -/

/-- One row of `updates`. -/
structure UpdateRow (β : Type*) where
  seq : ℕ
  epoch : ℕ
  deviceId : DeviceId
  pushId : PushId
  blob : β
  deriving DecidableEq

/-- The `updates` rows of the document in `seq` order, with its `next_seq` counter. -/
structure UpdateLog (β : Type*) where
  rows : List (UpdateRow β)
  nextSeq : ℕ
  /-- The live rows are numbered consecutively up to the counter. -/
  dense : Consecutive nextSeq (rows.map UpdateRow.seq)

/-- One row of `snapshots`.  The rows are kept in `id` order, so `id` itself is not. -/
structure SnapshotRow (β : Type*) where
  upToSeq : ℕ
  compactionFloorSeq : ℕ
  epoch : ℕ
  fromSeq : Option ℕ
  upToVv : β
  blob : β
  deriving DecidableEq

/-- One row of `devices`. -/
structure Device where
  id : DeviceId
  accountId : AccountId
  deriving DecidableEq

/-- What the database holds about the document. -/
structure Db (β : Type*) where
  updates : UpdateLog β
  epoch : ℕ
  snapshots : List (SnapshotRow β)
  /-- `device_doc_frontiers`; a device that never acked has no row. -/
  frontiers : DeviceId → Option ℕ
  /-- The accounts with an active `doc_members` row. -/
  members : List AccountId
  devices : List Device

namespace UpdateLog

/-- A document nothing has been pushed to. -/
def empty : UpdateLog β where
  rows := []
  nextSeq := 1
  dense := .nil Nat.one_pos

/-- The numbers of the live rows. -/
def seqs (log : UpdateLog β) : List ℕ :=
  log.rows.map UpdateRow.seq

/-- Append a row under the next number. -/
def append (log : UpdateLog β) (epoch : ℕ) (device : DeviceId) (u : PushBlob β) :
    UpdateLog β where
  rows := log.rows ++ [⟨log.nextSeq, epoch, device, u.pushId, u.blob⟩]
  nextSeq := log.nextSeq + 1
  dense := by
    rw [List.map_append]
    exact log.dense.append

/-- Delete the rows at or below a floor. -/
def deleteUpTo (log : UpdateLog β) (floor : ℕ) : UpdateLog β where
  rows := log.rows.filter fun r => decide (floor < r.seq)
  nextSeq := log.nextSeq
  dense := by
    have h := log.dense.filter_gt floor
    rwa [List.filter_map] at h

@[simp] theorem append_nextSeq (log : UpdateLog β) (e : ℕ) (d : DeviceId) (u : PushBlob β) :
    (log.append e d u).nextSeq = log.nextSeq + 1 := rfl

@[simp] theorem append_rows (log : UpdateLog β) (e : ℕ) (d : DeviceId) (u : PushBlob β) :
    (log.append e d u).rows = log.rows ++ [⟨log.nextSeq, e, d, u.pushId, u.blob⟩] := rfl

@[simp] theorem deleteUpTo_nextSeq (log : UpdateLog β) (floor : ℕ) :
    (log.deleteUpTo floor).nextSeq = log.nextSeq := rfl

@[simp] theorem deleteUpTo_rows (log : UpdateLog β) (floor : ℕ) :
    (log.deleteUpTo floor).rows = log.rows.filter fun r => decide (floor < r.seq) := rfl

@[simp] theorem append_seqs (log : UpdateLog β) (e : ℕ) (d : DeviceId) (u : PushBlob β) :
    (log.append e d u).seqs = log.seqs ++ [log.nextSeq] := by
  simp [seqs]

theorem mem_deleteUpTo_seqs (log : UpdateLog β) (floor n : ℕ) :
    n ∈ (log.deleteUpTo floor).seqs ↔ n ∈ log.seqs ∧ floor < n := by
  simp only [seqs, deleteUpTo_rows, List.mem_map, List.mem_filter, decide_eq_true_eq]
  constructor
  · rintro ⟨r, ⟨hr, hf⟩, rfl⟩
    exact ⟨⟨r, hr, rfl⟩, hf⟩
  · rintro ⟨⟨r, hr, rfl⟩, hf⟩
    exact ⟨r, ⟨hr, hf⟩, rfl⟩

theorem seq_lt (log : UpdateLog β) {r : UpdateRow β} (hr : r ∈ log.rows) :
    r.seq < log.nextSeq :=
  log.dense.lt_of_mem (List.mem_map_of_mem hr)

theorem lt_of_mem_seqs (log : UpdateLog β) {n : ℕ} (hn : n ∈ log.seqs) : n < log.nextSeq :=
  log.dense.lt_of_mem hn

end UpdateLog

/-! ## Pushing -/

/-- What `insert_updates` returns: one ack a pushed blob, in input order, and the rows that
were inserted rather than recognised. -/
structure InsertedUpdates (β : Type*) where
  acks : List PushAck
  fresh : List (StoredBlob β)
  deriving DecidableEq

namespace Db

/-- The number an already inserted push of this device has. -/
def existingSeq (db : Db β) (device : DeviceId) (push : PushId) : Option ℕ :=
  (db.updates.rows.find? fun r => r.deviceId = device ∧ r.pushId = push).map UpdateRow.seq

/-- The body of the loop over one push: recognise it, or take the next number for it. -/
def insertUpdate (db : Db β) (device : DeviceId) (u : PushBlob β) :
    Db β × PushAck × Option (StoredBlob β) :=
  match db.existingSeq device u.pushId with
  | some seq => (db, ⟨u.pushId, seq⟩, none)
  | none =>
    ({ db with updates := db.updates.append db.epoch device u },
      ⟨u.pushId, db.updates.nextSeq⟩, some ⟨db.updates.nextSeq, u.blob⟩)

/-- `insert_updates`: every pushed blob in order, in one transaction. -/
def insertUpdates (db : Db β) (device : DeviceId) :
    List (PushBlob β) → Db β × InsertedUpdates β
  | [] => (db, ⟨[], []⟩)
  | u :: us =>
    let (db₁, ack, fresh) := db.insertUpdate device u
    let (db₂, rest) := db₁.insertUpdates device us
    (db₂, ⟨ack :: rest.acks, fresh.toList ++ rest.fresh⟩)

theorem existingSeq_lt {db : Db β} {device : DeviceId} {push : PushId} {n : ℕ}
    (h : db.existingSeq device push = some n) : n < db.updates.nextSeq := by
  obtain ⟨r, hr, rfl⟩ := Option.map_eq_some_iff.1 h
  exact db.updates.seq_lt (List.mem_of_find?_eq_some hr)

/-- What inserting one push does: it is recognised under an older number, or it takes the
next one. -/
theorem insertUpdate_cases (db : Db β) (device : DeviceId) (u : PushBlob β) :
    (∃ n < db.updates.nextSeq, db.insertUpdate device u = (db, ⟨u.pushId, n⟩, none)) ∨
    db.insertUpdate device u =
      ({ db with updates := db.updates.append db.epoch device u },
        ⟨u.pushId, db.updates.nextSeq⟩, some ⟨db.updates.nextSeq, u.blob⟩) := by
  cases h : db.existingSeq device u.pushId with
  | some n => exact .inl ⟨n, existingSeq_lt h, by simp [insertUpdate, h]⟩
  | none => exact .inr (by simp [insertUpdate, h])

/-- An insert changes the `updates` table only. -/
theorem insertUpdates_frame (db : Db β) (device : DeviceId) (us : List (PushBlob β)) :
    (db.insertUpdates device us).1 =
      { db with updates := (db.insertUpdates device us).1.updates } := by
  induction us generalizing db with
  | nil => rfl
  | cons u us ih =>
    simp only [insertUpdates]
    rw [ih]
    obtain ⟨n, -, h⟩ | h := db.insertUpdate_cases device u <;> rw [h]

/-- The fresh rows take the next numbers, in order. -/
theorem insertUpdates_fresh (db : Db β) (device : DeviceId) (us : List (PushBlob β)) :
    (db.insertUpdates device us).2.fresh.map StoredBlob.seq =
        List.range' db.updates.nextSeq (db.insertUpdates device us).2.fresh.length ∧
      (db.insertUpdates device us).1.updates.nextSeq =
        db.updates.nextSeq + (db.insertUpdates device us).2.fresh.length := by
  induction us generalizing db with
  | nil => exact ⟨rfl, rfl⟩
  | cons u us ih =>
    obtain ⟨n, -, h⟩ | h := db.insertUpdate_cases device u
    · simp only [insertUpdates, h, Option.toList_none, List.nil_append]
      exact ih db
    · obtain ⟨ihs, ihn⟩ := ih { db with updates := db.updates.append db.epoch device u }
      simp only [UpdateLog.append_nextSeq] at ihs ihn
      simp only [insertUpdates, h, Option.toList_some, List.singleton_append, List.map_cons,
        List.length_cons, List.range'_succ, ihs, ihn, true_and]
      omega

theorem mem_fresh_iff (db : Db β) (device : DeviceId) (us : List (PushBlob β)) (n : ℕ) :
    n ∈ (db.insertUpdates device us).2.fresh.map StoredBlob.seq ↔
      db.updates.nextSeq ≤ n ∧ n < (db.insertUpdates device us).1.updates.nextSeq := by
  obtain ⟨hf, hn⟩ := db.insertUpdates_fresh device us
  rw [hf, hn, List.mem_range'_1]

theorem fresh_pairwise (db : Db β) (device : DeviceId) (us : List (PushBlob β)) :
    ((db.insertUpdates device us).2.fresh.map StoredBlob.seq).Pairwise (· < ·) := by
  rw [(db.insertUpdates_fresh device us).1]
  exact List.pairwise_lt_range'

theorem insertUpdates_nextSeq_le (db : Db β) (device : DeviceId) (us : List (PushBlob β)) :
    db.updates.nextSeq ≤ (db.insertUpdates device us).1.updates.nextSeq := by
  rw [(db.insertUpdates_fresh device us).2]
  exact Nat.le_add_right _ _

/-- Every ack names a number below the counter. -/
theorem ack_lt (db : Db β) (device : DeviceId) (us : List (PushBlob β)) {n : ℕ}
    (hn : n ∈ (db.insertUpdates device us).2.acks.map PushAck.seq) :
    n < (db.insertUpdates device us).1.updates.nextSeq := by
  induction us generalizing db with
  | nil => simp [insertUpdates] at hn
  | cons u us ih =>
    have hle := fun d : Db β => d.insertUpdates_nextSeq_le device us
    obtain ⟨k, hk, h⟩ | h := db.insertUpdate_cases device u
    · simp only [insertUpdates, h, List.map_cons, List.mem_cons] at hn ⊢
      rcases hn with rfl | hn
      · exact lt_of_lt_of_le hk (hle db)
      · exact ih db hn
    · simp only [insertUpdates, h, List.map_cons, List.mem_cons] at hn ⊢
      rcases hn with rfl | hn
      · exact hle { db with updates := db.updates.append db.epoch device u }
      · exact ih _ hn

/-- Every new number is acked. -/
theorem mem_acks_of_new (db : Db β) (device : DeviceId) (us : List (PushBlob β)) {n : ℕ}
    (hlo : db.updates.nextSeq ≤ n)
    (hhi : n < (db.insertUpdates device us).1.updates.nextSeq) :
    n ∈ (db.insertUpdates device us).2.acks.map PushAck.seq := by
  induction us generalizing db with
  | nil => simp only [insertUpdates] at hhi; omega
  | cons u us ih =>
    obtain ⟨k, -, h⟩ | h := db.insertUpdate_cases device u
    · simp only [insertUpdates, h] at hhi ⊢
      exact List.mem_cons_of_mem _ (ih db hlo hhi)
    · simp only [insertUpdates, h] at hhi ⊢
      rcases Nat.eq_or_lt_of_le hlo with heq | hlt
      · exact heq ▸ List.mem_cons_self ..
      · exact List.mem_cons_of_mem _ (ih _ hlt hhi)

/-- A new number is acked before any larger one. -/
theorem new_acked_in_order (db : Db β) (device : DeviceId) (us : List (PushBlob β))
    {l₁ l₂ : List ℕ} {a : ℕ}
    (hsplit : (db.insertUpdates device us).2.acks.map PushAck.seq = l₁ ++ a :: l₂) {n : ℕ}
    (hlo : db.updates.nextSeq ≤ n) (hna : n < a) : n ∈ l₁ := by
  induction us generalizing db l₁ with
  | nil => simp [insertUpdates] at hsplit
  | cons u us ih =>
    obtain ⟨k, hk, h⟩ | h := db.insertUpdate_cases device u
    · simp only [insertUpdates, h, List.map_cons] at hsplit
      cases l₁ with
      | nil =>
        rw [List.nil_append, List.cons.injEq] at hsplit
        omega
      | cons b l₁ =>
        rw [List.cons_append, List.cons.injEq] at hsplit
        exact List.mem_cons_of_mem _ (ih db hsplit.2 hlo)
    · simp only [insertUpdates, h, List.map_cons] at hsplit
      cases l₁ with
      | nil =>
        rw [List.nil_append, List.cons.injEq] at hsplit
        omega
      | cons b l₁ =>
        rw [List.cons_append, List.cons.injEq] at hsplit
        rcases Nat.eq_or_lt_of_le hlo with heq | hlt
        · rw [← heq, hsplit.1]
          exact List.mem_cons_self ..
        · exact List.mem_cons_of_mem _ (ih _ hsplit.2 hlt)

/-! ## Pulling -/

end Db

/-- The most rows one `UpdatesBatch` carries. -/
def MAX_UPDATES_PER_BATCH : ℕ := 500

/-- The most bytes one `UpdatesBatch` carries, unless its first row alone is larger. -/
def MAX_BYTES_PER_BATCH : ℕ := 256 * 1024

/-- What `fetch_updates_batch` returns. -/
structure FetchedBatch (β : Type*) where
  updates : List (StoredBlob β)
  hasMore : Bool
  deriving DecidableEq

/-- The loop over the selected rows, with the number and the bytes taken so far. -/
def takeBatch [WireSize β] (taken bytes : ℕ) : List (UpdateRow β) → FetchedBatch β
  | [] => ⟨[], false⟩
  | r :: rs =>
    if MAX_UPDATES_PER_BATCH ≤ taken then ⟨[], true⟩
    else if taken ≠ 0 ∧ MAX_BYTES_PER_BATCH < bytes + WireSize.size r.blob then ⟨[], true⟩
    else
      let rest := takeBatch (taken + 1) (bytes + WireSize.size r.blob) rs
      ⟨⟨r.seq, r.blob⟩ :: rest.updates, rest.hasMore⟩

/-- `n as i64`: an unsigned 64-bit number as it is bound to a statement. -/
def asI64 (n : ℕ) : ℤ := (BitVec.ofNat 64 n).toInt

theorem asI64_eq (n : ℕ) :
    asI64 n =
      if 2 * (n % 18446744073709551616) < 18446744073709551616 then
        ((n % 18446744073709551616 : ℕ) : ℤ)
      else (n % 18446744073709551616 : ℕ) - 18446744073709551616 := by
  rw [asI64, BitVec.toInt_eq_toNat_cond, BitVec.toNat_ofNat]
  rfl

theorem asI64_of_lt {n : ℕ} (h : n < 9223372036854775808) : asI64 n = n := by
  rw [asI64_eq]
  omega

theorem asI64_le (n : ℕ) : asI64 n ≤ n := by
  rw [asI64_eq]
  omega

/-- The upper half of the numbers is bound as negative ones. -/
theorem asI64_neg {n : ℕ} (hlow : 9223372036854775808 ≤ n) (hhigh : n < 18446744073709551616) :
    asI64 n < 0 := by
  rw [asI64_eq]
  omega

namespace Db

/-- `fetch_updates_batch`: the rows after `since`, at most one past the cap. -/
def fetchUpdatesBatch [WireSize β] (db : Db β) (since : ℕ) : FetchedBatch β :=
  takeBatch 0 0 ((db.updates.rows.filter fun r => decide (asI64 since < r.seq)).take
    (MAX_UPDATES_PER_BATCH + 1))

end Db

/-- A batch is a prefix of the selected rows; it is all of them when there is no more, and
then they are within the count cap. -/
theorem takeBatch_spec [WireSize β] (taken bytes : ℕ) (rows : List (UpdateRow β)) :
    (∃ rest, rows.map UpdateRow.seq =
        (takeBatch taken bytes rows).updates.map StoredBlob.seq ++ rest ∧
        ((takeBatch taken bytes rows).hasMore = false → rest = [])) ∧
      ((takeBatch taken bytes rows).hasMore = false →
        rows = [] ∨ taken + rows.length ≤ MAX_UPDATES_PER_BATCH) := by
  induction rows generalizing taken bytes with
  | nil => exact ⟨⟨[], rfl, fun _ => rfl⟩, fun _ => .inl rfl⟩
  | cons r rs ih =>
    unfold takeBatch
    split_ifs with hcount hbytes
    · exact ⟨⟨_, rfl, fun h => by simp at h⟩, fun h => by simp at h⟩
    · exact ⟨⟨_, rfl, fun h => by simp at h⟩, fun h => by simp at h⟩
    · obtain ⟨⟨rest, hrest, hall⟩, hcap⟩ := ih (taken + 1) (bytes + WireSize.size r.blob)
      refine ⟨⟨rest, by simp [hrest], hall⟩, fun h => .inr ?_⟩
      rcases hcap h with rfl | hle
      · simp
        omega
      · simp only [List.length_cons]
        omega

namespace Db

/-- **What a pulled batch holds**: the first of the numbers after the cursor, and without more
to come all of them. -/
theorem fetchUpdatesBatch_spec [WireSize β] (db : Db β) (since : ℕ) :
    ∃ rest, (db.updates.rows.filter fun r => decide (asI64 since < r.seq)).map UpdateRow.seq =
        (db.fetchUpdatesBatch since).updates.map StoredBlob.seq ++ rest ∧
      ((db.fetchUpdatesBatch since).hasMore = false → rest = []) := by
  obtain ⟨⟨rest, hrest, hall⟩, hcap⟩ := takeBatch_spec 0 0
    ((db.updates.rows.filter fun r => decide (asI64 since < r.seq)).take
      (MAX_UPDATES_PER_BATCH + 1))
  refine ⟨rest ++ ((db.updates.rows.filter fun r => decide (asI64 since < r.seq)).drop
    (MAX_UPDATES_PER_BATCH + 1)).map UpdateRow.seq, ?_, ?_⟩
  · rw [← List.append_assoc, fetchUpdatesBatch, ← hrest, ← List.map_append,
      List.take_append_drop]
  · intro hmore
    rw [hall hmore, List.nil_append, List.map_eq_nil_iff, List.drop_eq_nil_iff]
    rcases hcap hmore with hnil | hle
    · rw [List.take_eq_nil_iff] at hnil
      rcases hnil with h0 | hnil
      · omega
      · simp [hnil]
    · rw [List.length_take] at hle
      omega

/-! ## Frontiers -/

/-- `advance_last_acked_seq`: the first ack makes the row, later ones only raise it. -/
def advanceLastAckedSeq (db : Db β) (device : DeviceId) (lastAcked : ℕ) : Db β :=
  match db.frontiers device with
  | none => { db with frontiers := Function.update db.frontiers device (some lastAcked) }
  | some old =>
    if old < lastAcked then
      { db with frontiers := Function.update db.frontiers device (some lastAcked) }
    else db

/-- `get_last_acked_seq`. -/
def getLastAckedSeq (db : Db β) (device : DeviceId) : ℕ :=
  (db.frontiers device).getD 0

/-- The devices of the accounts with an active membership. -/
def memberDevices (db : Db β) : List Device :=
  db.devices.filter fun d => decide (d.accountId ∈ db.members)

/-- The frontier `doc_horizon` counts a device at. -/
def horizonOf (db : Db β) (override : DeviceId) (value : ℕ) (d : Device) : ℕ :=
  if d.id = override then value else db.getLastAckedSeq d.id

/-- `doc_horizon`: the minimum over the members' devices, `0` where there is none. -/
def docHorizon (db : Db β) (override : DeviceId) (value : ℕ) : ℕ :=
  ((db.memberDevices.map (db.horizonOf override value)).min?).getD 0

/-- `is_member`. -/
def isMember (db : Db β) (account : AccountId) : Bool :=
  decide (account ∈ db.members)

/-! ## Snapshots and compaction -/

/-- `latest_snapshot` and `latest_snapshot_meta`: the row with the highest id. -/
def latestSnapshot (db : Db β) : Option (SnapshotRow β) :=
  db.snapshots.getLast?

/-- The link check of `insert_snapshot`: a delta must start at the latest row's frontier and
not end below it; a full snapshot always links. -/
def chains (db : Db β) (upload : SnapshotUpload β) : Bool :=
  match upload.fromSeq with
  | none => true
  | some from_ =>
    decide ((db.latestSnapshot.map SnapshotRow.upToSeq) = some from_ ∧ from_ ≤ upload.upToSeq)

/-- The row an upload is stored as. -/
def snapshotRow (db : Db β) (upload : SnapshotUpload β) : SnapshotRow β where
  upToSeq := upload.upToSeq
  compactionFloorSeq := upload.compactionFloorSeq
  epoch := db.epoch
  fromSeq := upload.fromSeq
  upToVv := upload.upToVv
  blob := upload.blob

/-- `insert_snapshot`: `none` is `ChainMismatch`, and nothing is written. -/
def insertSnapshot (db : Db β) (upload : SnapshotUpload β) : Option (Db β) :=
  if db.chains upload then
    some { db with snapshots := db.snapshots ++ [db.snapshotRow upload] }
  else none

/-- The rows `snapshot_chain` reads: from the last full snapshot on. -/
def fromLastFull : List (SnapshotRow β) → List (SnapshotRow β)
  | [] => []
  | r :: rs =>
    if rs.any (fun s => s.fromSeq.isNone) then fromLastFull rs
    else if r.fromSeq.isNone then r :: rs
    else fromLastFull rs

/-- The linked prefix: each row's `from_seq` is the frontier reached so far. -/
def linked (upTo : ℕ) : List (SnapshotRow β) → List (SnapshotRow β)
  | [] => []
  | r :: rs => if r.fromSeq = some upTo then r :: linked r.upToSeq rs else []

/-- `snapshot_chain`: the latest full snapshot and the deltas linked after it.  The rows
are read from the last full one on (or all of them when there is none, and then the first
has no full head). -/
def snapshotChain (db : Db β) : List (SnapshotRow β) :=
  match fromLastFull db.snapshots with
  | [] => []
  | r :: rs => r :: linked r.upToSeq rs

/-- `compact_doc`: delete what the latest snapshot's floor allows. -/
def compactDoc (db : Db β) : Db β :=
  match db.latestSnapshot with
  | none => db
  | some s => { db with updates := db.updates.deleteUpTo s.compactionFloorSeq }

/-- `latest_doc_seq`: the highest live number, `0` where there is none. -/
def latestDocSeq (db : Db β) : ℕ :=
  ((db.updates.rows.map UpdateRow.seq).getLast?).getD 0

end Db

end Monoplan.Server
