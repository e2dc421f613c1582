import Mathlib.Algebra.Group.Nat.Defs
import Mathlib.Data.List.Basic

/-!
# `LocalStorage` and its in-memory implementation

The calls of the trait with what they take and return, and `MemStorage`, which keeps one document
in vectors and fields and ignores the document it is called for.
-/

namespace Monoplan.Storage

abbrev Bytes := List UInt8

/-- A uuid is sixteen bytes. -/
structure Uuid where
  bytes : Bytes
  sixteen : bytes.length = 16
  deriving DecidableEq

/-- `Uuid::from_slice`. -/
def Uuid.fromSlice (b : Bytes) : Option Uuid := if h : b.length = 16 then some ⟨b, h⟩ else none

@[simp] theorem Uuid.fromSlice_bytes (u : Uuid) : Uuid.fromSlice u.bytes = some u :=
  dif_pos u.sixteen

theorem Uuid.bytes_injective : Function.Injective Uuid.bytes := by
  rintro ⟨b, hb⟩ ⟨c, hc⟩ h
  cases h
  rfl

abbrev DocId := Uuid
abbrev PushId := Uuid
abbrev LocalSeq := UInt64
abbrev ServerSeq := UInt64

structure EncryptedBlob where
  nonce : Bytes
  ciphertext : Bytes
  deriving DecidableEq

structure SnapshotRow where
  upToLocalSeq : LocalSeq
  payload : EncryptedBlob
  deriving DecidableEq

structure WalRow where
  localSeq : LocalSeq
  payload : EncryptedBlob
  deriving DecidableEq

structure RemoteWalRow where
  serverSeq : ServerSeq
  payload : EncryptedBlob
  deriving DecidableEq

structure InFlightPush where
  pushId : PushId
  payload : EncryptedBlob
  fromVv : Bytes
  toVv : Bytes
  deriving DecidableEq

structure BootState where
  snapshot : Option SnapshotRow
  replay : List WalRow
  lastLocalSeq : LocalSeq
  lastAckedServerSeq : ServerSeq
  serverKnownVv : Bytes
  inFlightPush : Option InFlightPush
  walBytes : ℕ
  deriving DecidableEq

/-- What sqlite reports for a row that a constraint forbids. -/
inductive SqlError
  | uniqueConstraintFailed
  deriving DecidableEq

inductive StorageError
  | backend (error : SqlError)
  | invalidUuidBytes
  deriving DecidableEq

/-- The methods of the trait, without the document. -/
inductive Call
  | boot
  | appendLocalWal (payload : EncryptedBlob)
  | appendRemoteWal (row : RemoteWalRow) (serverKnownVv : Bytes)
  | writeSnapshot (cutoff : LocalSeq) (payload : EncryptedBlob)
  | writeAckedSeq (seq : ServerSeq)
  | writeServerKnownVv (vv : Bytes)
  | putInFlightPush (push : InFlightPush)
  | completePush (push : PushId) (serverKnownVv : Bytes)
  deriving DecidableEq

/-- What a call returns. -/
inductive Answer
  | booted (boot : BootState)
  | appended (seq : LocalSeq)
  | received (seq : LocalSeq) (inserted : Bool)
  | done
  deriving DecidableEq

abbrev Returned := Except StorageError Answer

/-- The bytes of a payload. -/
def EncryptedBlob.size (b : EncryptedBlob) : ℕ := b.ciphertext.length + b.nonce.length

/-! ## `MemStorage` -/

structure MemWalRow where
  localSeq : LocalSeq
  serverSeq : Option ServerSeq
  payload : EncryptedBlob
  deriving DecidableEq

structure MemInner where
  nextLocalSeq : UInt64
  snapshot : Option SnapshotRow
  wal : List MemWalRow
  lastAckedServerSeq : UInt64
  serverKnownVv : Bytes
  inFlight : Option InFlightPush
  deriving DecidableEq

namespace MemInner

/-- `MemInner::default`. -/
def new : MemInner := ⟨0, none, [], 0, [], none⟩

variable (m : MemInner)

def boot : BootState where
  snapshot := m.snapshot
  replay := m.wal.map fun r => ⟨r.localSeq, r.payload⟩
  lastLocalSeq := m.nextLocalSeq
  lastAckedServerSeq := m.lastAckedServerSeq
  serverKnownVv := m.serverKnownVv
  inFlightPush := m.inFlight
  walBytes := m.wal.foldl (fun n r => n + r.payload.size) 0

/-- Push a row under the next local seq. -/
def push (serverSeq : Option ServerSeq) (payload : EncryptedBlob) : MemInner :=
  { m with
    nextLocalSeq := m.nextLocalSeq + 1
    wal := m.wal ++ [⟨m.nextLocalSeq + 1, serverSeq, payload⟩] }

def appendLocalWal (payload : EncryptedBlob) : MemInner × Answer :=
  (m.push none payload, .appended (m.nextLocalSeq + 1))

def appendRemoteWal (row : RemoteWalRow) (serverKnownVv : Bytes) : MemInner × Answer :=
  let m := { m with serverKnownVv }
  match m.wal.find? fun r => decide (r.serverSeq = some row.serverSeq) with
  | some existing => (m, .received existing.localSeq false)
  | none => (m.push (some row.serverSeq) row.payload, .received (m.nextLocalSeq + 1) true)

def writeSnapshot (cutoff : LocalSeq) (payload : EncryptedBlob) : MemInner :=
  { m with
    snapshot := some ⟨m.nextLocalSeq, payload⟩
    wal := m.wal.filter fun r => decide (cutoff < r.localSeq) }

def writeAckedSeq (seq : ServerSeq) : MemInner := { m with lastAckedServerSeq := seq }

def writeServerKnownVv (vv : Bytes) : MemInner := { m with serverKnownVv := vv }

def putInFlightPush (push : InFlightPush) : MemInner := { m with inFlight := some push }

def completePush (push : PushId) (serverKnownVv : Bytes) : MemInner :=
  { m with
    serverKnownVv
    inFlight := if m.inFlight.map InFlightPush.pushId = some push then none else m.inFlight }

/-- One call. -/
def act : Call → MemInner × Returned
  | .boot => (m, .ok (.booted m.boot))
  | .appendLocalWal payload => ((m.appendLocalWal payload).1, .ok (m.appendLocalWal payload).2)
  | .appendRemoteWal row vv => ((m.appendRemoteWal row vv).1, .ok (m.appendRemoteWal row vv).2)
  | .writeSnapshot cutoff payload => (m.writeSnapshot cutoff payload, .ok .done)
  | .writeAckedSeq seq => (m.writeAckedSeq seq, .ok .done)
  | .writeServerKnownVv vv => (m.writeServerKnownVv vv, .ok .done)
  | .putInFlightPush push => (m.putInFlightPush push, .ok .done)
  | .completePush push vv => (m.completePush push vv, .ok .done)

end MemInner

end Monoplan.Storage
