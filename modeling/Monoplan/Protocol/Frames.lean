import Mathlib.Data.List.Basic

/-!
# The sync frames, on one document's slice of a connection

Every payload frame names the document it is about, and the server keeps every table,
subscription and lease per document, so a run of the whole service restricted to one
document is a run of that document's slice.  The frames below are the slice's: they carry
every field of the wire frame except `doc_id`.

Encrypted payloads are opaque to the server.  They are an arbitrary type `β` of which only
the wire size is known (`WireSize`).
-/

namespace Monoplan.Protocol

/-- Accounts, devices, connections and durable push ids: uuids in the source, here any number.
Subscriber and lease ids are counters and stay plain numbers. -/
abbrev AccountId := ℕ
abbrev DeviceId := ℕ
abbrev ConnId := ℕ
abbrev PushId := ℕ

/-- The size of a stored payload: nonce bytes plus ciphertext bytes. -/
class WireSize (β : Type*) where
  size : β → ℕ

/-- A sealed payload as it travels: what `β` is in the running system. -/
structure EncryptedBlob where
  nonce : List UInt8
  ciphertext : List UInt8
  deriving DecidableEq

instance : WireSize EncryptedBlob where
  size b := b.nonce.length + b.ciphertext.length

variable {β : Type*}

/-- A server-assigned sequence number with its payload. -/
structure StoredBlob (β : Type*) where
  seq : ℕ
  blob : β
  deriving DecidableEq

/-- A pushed update: the retry key the client minted, and the payload. -/
structure PushBlob (β : Type*) where
  pushId : PushId
  blob : β
  deriving DecidableEq

/-- Which push landed, and the sequence number it has. -/
structure PushAck where
  pushId : PushId
  seq : ℕ
  deriving DecidableEq

/-- The starting point of a delta snapshot: the previous row's frontier and its sealed
version vector, returned as they were uploaded. -/
structure SnapshotBase (β : Type*) where
  seq : ℕ
  vv : β
  deriving DecidableEq

/-- One account with the document open. -/
structure PresentAccount where
  accountId : AccountId
  email : String
  deriving DecidableEq

/-- The body of a `PushSnapshot`. -/
structure SnapshotUpload (β : Type*) where
  upToSeq : ℕ
  compactionFloorSeq : ℕ
  fromSeq : Option ℕ
  upToVv : β
  blob : β
  deriving DecidableEq

/-- The body of a `SnapshotRequest`. -/
structure SnapshotAsk (β : Type*) where
  upToSeq : ℕ
  compactionFloorSeq : ℕ
  base : Option (SnapshotBase β)
  deriving DecidableEq

/-- Client to server. -/
inductive ClientFrame (β : Type*)
  | openDoc
  | pushUpdates (updates : List (PushBlob β))
  | pullUpdates (sinceSeq : ℕ)
  | ack (lastAckedSeq : ℕ)
  | pushSnapshot (upload : SnapshotUpload β)
  | pullSnapshot
  deriving DecidableEq

/-- Server to client. -/
inductive ServerFrame (β : Type*)
  | docOpened (epoch : ℕ)
  | docRejected (reason : String)
  | docClosed (reason : String)
  | updatesAck (acks : List PushAck)
  | updatesBatch (updates : List (StoredBlob β)) (complete : Bool)
  | updatesBroadcast (updates : List (StoredBlob β))
  | snapshotRequest (ask : SnapshotAsk β)
  | snapshot (upToSeq : ℕ) (blob : β) (complete : Bool)
  | snapshotRequired (upToSeq : ℕ)
  | presence (accounts : List PresentAccount)
  deriving DecidableEq

/-- The sequence numbers a frame delivers to its client: the rows of a pulled batch or of a
broadcast, and the numbers an ack assigns. -/
def ServerFrame.seqs : ServerFrame β → List ℕ
  | .updatesAck acks => acks.map PushAck.seq
  | .updatesBatch updates _ => updates.map StoredBlob.seq
  | .updatesBroadcast updates => updates.map StoredBlob.seq
  | _ => []

end Monoplan.Protocol
