import Monoplan.Base.Program
import Monoplan.Client.Replica

/-!
# Local storage

What a device keeps of the document on disk: one encrypted snapshot, the WAL rows after it, the
resume cursor, the server-known vector and the push in flight.  Every `LocalStorage` method is
one transaction, so an engine is a program over these calls.
-/

namespace Monoplan.Client

open Monoplan.Base Monoplan.Protocol

/-- One WAL row: `serverSeq` is `none` for a local capture. -/
structure WalRow where
  localSeq : ℕ
  serverSeq : Option ℕ
  payload : Blob
  deriving DecidableEq

/-- The stored snapshot. -/
structure SnapshotRow where
  upToLocalSeq : ℕ
  payload : Blob
  deriving DecidableEq

/-- The durable in-flight push. -/
structure InFlightPush where
  pushId : PushId
  payload : Blob
  fromVv : VersionVector
  toVv : VersionVector
  deriving DecidableEq

/-- What is on disk for the document. -/
structure Disk where
  nextLocalSeq : ℕ
  snapshot : Option SnapshotRow
  wal : List WalRow
  lastAckedServerSeq : ℕ
  serverKnownVv : VersionVector
  inFlight : Option InFlightPush
  deriving DecidableEq

/-- The calls of `LocalStorage`. -/
inductive StorageCall
  | appendLocalWal (payload : Blob)
  | appendRemoteWal (serverSeq : ℕ) (payload : Blob) (serverKnownVv : VersionVector)
  | writeSnapshot (cutoff : ℕ) (payload : Blob)
  | writeAckedSeq (seq : ℕ)
  | writeServerKnownVv (vv : VersionVector)
  | putInFlightPush (push : InFlightPush)
  | completePush (push : PushId) (serverKnownVv : VersionVector)
  deriving DecidableEq

/-- What a call answers: the local seq of an appended row and whether it is new. -/
structure Appended where
  localSeq : ℕ
  inserted : Bool
  deriving DecidableEq

namespace Disk

/-- Storage nothing has been written to. -/
def empty : Disk where
  nextLocalSeq := 0
  snapshot := none
  wal := []
  lastAckedServerSeq := 0
  serverKnownVv := .new
  inFlight := none

variable (s : Disk)

/-- Add a WAL row under the next local seq. -/
def append (serverSeq : Option ℕ) (payload : Blob) : Disk :=
  { s with
    nextLocalSeq := s.nextLocalSeq + 1,
    wal := s.wal ++ [⟨s.nextLocalSeq + 1, serverSeq, payload⟩] }

/-- `append_local_wal`. -/
def appendLocalWal (payload : Blob) : Disk × Appended :=
  (s.append none payload, ⟨s.nextLocalSeq + 1, true⟩)

/-- `append_remote_wal`: the vector is written also where the row is there already. -/
def appendRemoteWal (serverSeq : ℕ) (payload : Blob) (vv : VersionVector) : Disk × Appended :=
  let s := { s with serverKnownVv := vv }
  match s.wal.find? fun r => decide (r.serverSeq = some serverSeq) with
  | some row => (s, ⟨row.localSeq, false⟩)
  | none => (s.append (some serverSeq) payload, ⟨s.nextLocalSeq + 1, true⟩)

/-- `write_snapshot`: replace the snapshot and prune the WAL up to the cutoff. -/
def writeSnapshot (cutoff : ℕ) (payload : Blob) : Disk :=
  { s with
    snapshot := some ⟨s.nextLocalSeq, payload⟩,
    wal := s.wal.filter fun r => decide (cutoff < r.localSeq) }

/-- `write_acked_seq`. -/
def writeAckedSeq (seq : ℕ) : Disk := { s with lastAckedServerSeq := seq }

/-- `write_server_known_vv`. -/
def writeServerKnownVv (vv : VersionVector) : Disk := { s with serverKnownVv := vv }

/-- `put_in_flight_push`. -/
def putInFlightPush (push : InFlightPush) : Disk := { s with inFlight := some push }

/-- `complete_push`: the record goes if it is the named one. -/
def completePush (push : PushId) (vv : VersionVector) : Disk :=
  { s with
    serverKnownVv := vv,
    inFlight := if s.inFlight.map InFlightPush.pushId = some push then none else s.inFlight }

end Disk

/-- Perform one call. -/
def act : StorageCall → Disk → Disk × Appended
  | .appendLocalWal payload, s => s.appendLocalWal payload
  | .appendRemoteWal seq payload vv, s => s.appendRemoteWal seq payload vv
  | .writeSnapshot cutoff payload, s => (s.writeSnapshot cutoff payload, ⟨0, false⟩)
  | .writeAckedSeq seq, s => (s.writeAckedSeq seq, ⟨0, false⟩)
  | .writeServerKnownVv vv, s => (s.writeServerKnownVv vv, ⟨0, false⟩)
  | .putInFlightPush push, s => (s.putInFlightPush push, ⟨0, false⟩)
  | .completePush push vv, s => (s.completePush push vv, ⟨0, false⟩)

/-- A computation of the engine. -/
abbrev Run (α : Type) := Program StorageCall Appended α

end Monoplan.Client
