import Mathlib.Data.Int.Order.Basic
import Monoplan.Base.FMap
import Monoplan.Base.Table
import Monoplan.Storage.Mem

/-!
# `SqliteStorage`

The tables of `001_init.sql` and the trait's methods over them.  A table whose primary key is the
document is a finite map; `wal` has a key of two columns and a unique index.  An integer column is
a signed word, so every `u64` is cast on its way in and out.
-/

namespace Monoplan.Storage

open Monoplan.Base

/-- `as i64`. -/
def asI64 (n : UInt64) : ℤ := n.toInt64.toInt

/-- `as u64`. -/
def asU64 (n : ℤ) : UInt64 := (Int64.ofInt n).toUInt64

/-! ## The tables -/

structure DocsRow where
  lastAckedServerSeq : ℤ
  serverKnownVv : Option Bytes
  deriving DecidableEq

structure WalRecord where
  docId : Bytes
  localSeq : ℤ
  serverSeq : Option ℤ
  payload : Bytes
  payloadNonce : Bytes
  deriving DecidableEq

/-- `PRIMARY KEY (doc_id, local_seq)` and `wal_server_seq_idx`. -/
def WalConflict (a b : WalRecord) : Prop :=
  a.docId = b.docId ∧ (a.localSeq = b.localSeq ∨ a.serverSeq ≠ none ∧ a.serverSeq = b.serverSeq)

instance : DecidableRel WalConflict := fun _ _ => inferInstanceAs (Decidable (_ ∧ _))

structure SnapshotRecord where
  upToLocalSeq : ℤ
  payload : Bytes
  payloadNonce : Bytes
  deriving DecidableEq

structure InFlightRecord where
  pushId : Bytes
  payload : Bytes
  payloadNonce : Bytes
  fromVv : Bytes
  toVv : Bytes
  deriving DecidableEq

/-- The database file. -/
structure Db where
  migrations : List String
  docs : FMap Bytes DocsRow
  wal : Table WalRecord WalConflict
  snapshots : FMap Bytes SnapshotRecord
  inFlightPush : FMap Bytes InFlightRecord

/-- `blob_from`. -/
def blobFrom (ciphertext nonce : Bytes) : EncryptedBlob := ⟨nonce, ciphertext⟩

def SnapshotRecord.row (r : SnapshotRecord) : SnapshotRow :=
  ⟨asU64 r.upToLocalSeq, blobFrom r.payload r.payloadNonce⟩

def WalRecord.row (r : WalRecord) : WalRow :=
  ⟨asU64 r.localSeq, blobFrom r.payload r.payloadNonce⟩

def InFlightRecord.push (r : InFlightRecord) : Option InFlightPush :=
  (Uuid.fromSlice r.pushId).map fun id =>
    ⟨id, blobFrom r.payload r.payloadNonce, r.fromVv, r.toVv⟩

namespace Db

/-- A file nothing has been written to. -/
def blank : Db := ⟨[], .empty, .empty, .empty, .empty⟩

variable (db : Db) (id : Bytes)

/-- `SqliteStorage::open`: the migration runs unless the ledger has it. -/
def opened : Db :=
  if "001_init" ∈ db.migrations then db
  else ⟨"001_init" :: db.migrations, .empty, .empty, .empty, .empty⟩

/-- `ensure_doc`. -/
def ensureDoc : Db :=
  match db.docs.get id with
  | some _ => db
  | none => { db with docs := db.docs.insert id ⟨0, none⟩ }

/-- The WAL rows of a document. -/
def walOf : List WalRecord := db.wal.select fun r => decide (r.docId = id)

/-- `max_local_seq`. -/
def maxLocalSeq : UInt64 :=
  asU64 (max (coalesceMax ((db.walOf id).map WalRecord.localSeq))
    (coalesceMax ((db.snapshots.get id).map SnapshotRecord.upToLocalSeq).toList))

/-- `UPDATE docs SET … WHERE id`. -/
def updateDoc (f : DocsRow → DocsRow) : Db :=
  { db with docs := db.docs.mapWithKey fun key row => if key = id then f row else row }

/-- `INSERT INTO wal`. -/
def insertWal (localSeq : UInt64) (serverSeq : Option ServerSeq) (payload : EncryptedBlob) :
    Option Db :=
  (db.wal.insert
    ⟨id, asI64 localSeq, serverSeq.map asI64, payload.ciphertext, payload.nonce⟩).map
      fun wal => { db with wal }

end Db

/-! ## The methods -/

namespace SqliteStorage

variable (db : Db) (docId : DocId)

def boot : Except StorageError BootState := do
  let id := docId.bytes
  let rows := (db.walOf id).insertionSort fun a b => a.localSeq ≤ b.localSeq
  let replay := rows.map WalRecord.row
  let cursors := ((db.docs.get id).map fun r => (r.lastAckedServerSeq, r.serverKnownVv)).getD
    (0, none)
  let inFlightPush ← match db.inFlightPush.get id with
    | none => .ok none
    | some record => match record.push with
      | none => .error .invalidUuidBytes
      | some push => .ok (some push)
  .ok
    { snapshot := (db.snapshots.get id).map SnapshotRecord.row
      replay
      lastLocalSeq := db.maxLocalSeq id
      lastAckedServerSeq := asU64 cursors.1
      serverKnownVv := cursors.2.getD []
      inFlightPush
      walBytes := replay.foldl (fun n r => n + r.payload.size) 0 }

def appendLocalWal (payload : EncryptedBlob) : Db × Returned :=
  let id := docId.bytes
  let db := db.ensureDoc id
  let next := db.maxLocalSeq id + 1
  match db.insertWal id next none payload with
  | none => (db, .error (.backend .uniqueConstraintFailed))
  | some db => (db, .ok (.appended next))

/-- A transaction: an insert that fails rolls all of it back. -/
def appendRemoteWal (row : RemoteWalRow) (serverKnownVv : Bytes) : Db × Returned :=
  let id := docId.bytes
  let tx := (db.ensureDoc id).updateDoc id fun r => { r with serverKnownVv := some serverKnownVv }
  let existing := tx.wal.rows.find? fun r =>
    decide (r.docId = id) && decide (r.serverSeq = some (asI64 row.serverSeq))
  match existing with
  | some r => (tx, .ok (.received (asU64 r.localSeq) false))
  | none =>
    let next := tx.maxLocalSeq id + 1
    match tx.insertWal id next (some row.serverSeq) row.payload with
    | none => (db, .error (.backend .uniqueConstraintFailed))
    | some tx => (tx, .ok (.received next true))

def writeSnapshot (cutoff : LocalSeq) (payload : EncryptedBlob) : Db :=
  let id := docId.bytes
  let tx := db.ensureDoc id
  -- The high-water of the rows before any of them is pruned.
  let highWater := asI64 (tx.maxLocalSeq id)
  { tx with
    snapshots := tx.snapshots.insert id ⟨highWater, payload.ciphertext, payload.nonce⟩
    wal := tx.wal.delete fun r => decide (r.docId = id) && decide (r.localSeq ≤ asI64 cutoff) }

def writeAckedSeq (seq : ServerSeq) : Db :=
  (db.ensureDoc docId.bytes).updateDoc docId.bytes fun r =>
    { r with lastAckedServerSeq := asI64 seq }

def writeServerKnownVv (vv : Bytes) : Db :=
  (db.ensureDoc docId.bytes).updateDoc docId.bytes fun r => { r with serverKnownVv := some vv }

def putInFlightPush (push : InFlightPush) : Db :=
  let tx := db.ensureDoc docId.bytes
  { tx with
    inFlightPush := tx.inFlightPush.insert docId.bytes
      ⟨push.pushId.bytes, push.payload.ciphertext, push.payload.nonce, push.fromVv, push.toVv⟩ }

def completePush (push : PushId) (serverKnownVv : Bytes) : Db :=
  let id := docId.bytes
  let tx := (db.ensureDoc id).updateDoc id fun r => { r with serverKnownVv := some serverKnownVv }
  { tx with
    inFlightPush :=
      if (tx.inFlightPush.get id).map InFlightRecord.pushId = some push.bytes then
        tx.inFlightPush.erase id
      else tx.inFlightPush }

/-- One call. -/
def act : Call → Db × Returned
  | .boot => (db, (boot db docId).map .booted)
  | .appendLocalWal payload => appendLocalWal db docId payload
  | .appendRemoteWal row vv => appendRemoteWal db docId row vv
  | .writeSnapshot cutoff payload => (writeSnapshot db docId cutoff payload, .ok .done)
  | .writeAckedSeq seq => (writeAckedSeq db docId seq, .ok .done)
  | .writeServerKnownVv vv => (writeServerKnownVv db docId vv, .ok .done)
  | .putInFlightPush push => (putInFlightPush db docId push, .ok .done)
  | .completePush push vv => (completePush db docId push vv, .ok .done)

end SqliteStorage

end Monoplan.Storage
