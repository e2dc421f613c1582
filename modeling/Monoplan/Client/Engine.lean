import Monoplan.Client.Storage

/-!
# The sync engine

One engine drives one document: it queues frames for the socket, handles the frames that come
in, and writes to local storage on the way.  Every method below is the source's, as a function
from the engine before it to a program over the storage calls it makes, in their order.

Exports and encodings do not fail.  What else can go wrong becomes an `Event.error`; its text is
kept as a value (`Fault`).  `queuedAcks` and `gap` are history: no method reads them.
-/

namespace Monoplan.Client

open Monoplan.Base Monoplan.Protocol

/-! ## State -/

inductive ConnState
  | disconnected
  | opening
  | pulling
  | bootstrapping
  | idle
  | pushing
  | pushingDirty
  deriving DecidableEq

/-- The frames an engine may find itself unprepared for. -/
inductive FrameKind
  | docOpened
  | updatesAck
  | snapshotRequired
  | snapshot
  deriving DecidableEq

/-- The storage method a failure is reported for. -/
inductive StorageMethod
  | appendLocalWal
  | appendRemoteWal
  | writeSnapshot
  | writeAckedSeq
  | writeServerKnownVv
  | putInFlightPush
  | completePush
  deriving DecidableEq

/-- What an `Event::Error` reports. -/
inductive Fault
  | alreadyConnected
  | bytesWhileDisconnected
  | handshakeTimedOut
  | undecodable
  | unexpected (frame : FrameKind) (state : ConnState)
  | batchDuringBootstrap
  | ackWithoutPush
  | ackMismatch (expected : PushId) (got : List PushId)
  | applyRemoteBlob (seq : ℕ)
  | applySnapshot
  | baseOutside (seq : ℕ)
  | baseUnreadable
  | storage (method : StorageMethod)
  deriving DecidableEq

inductive Event
  | connStateChanged (online : Bool)
  | presence (accounts : List PresentAccount)
  | docClosed (reason : String)
  | pulledInitial
  | frontierAdvanced (seq : ℕ)
  | pushed
  | error (fault : Fault)
  deriving DecidableEq

/-- The push in flight, in memory. -/
structure InFlightState where
  pushId : PushId
  payload : Blob
  toVv : VersionVector
  deriving DecidableEq

structure Engine where
  doc : Doc
  serverKnownVv : VersionVector
  inFlight : Option InFlightState
  lastLocalSeq : ℕ
  walRows : ℕ
  walBytes : ℕ
  state : ConnState
  lastContiguousSeq : ℕ
  serverEpoch : Option ℕ
  lastDurableSeq : ℕ
  lastSentAck : ℕ
  outbox : List (ClientFrame Blob)
  events : List Event
  /-- History: every `Ack` ever queued, oldest first. -/
  queuedAcks : List ℕ
  /-- History: the assertion in `ingest_seq` has failed. -/
  gap : Bool
  deriving DecidableEq

namespace Engine

/-- `new`. -/
def new (doc : Doc) (lastAckedSeq : ℕ) : Engine where
  doc := doc
  serverKnownVv := .new
  inFlight := none
  lastLocalSeq := 0
  walRows := 0
  walBytes := 0
  state := .disconnected
  lastContiguousSeq := lastAckedSeq
  serverEpoch := none
  lastDurableSeq := lastAckedSeq
  lastSentAck := lastAckedSeq
  outbox := []
  events := []
  queuedAcks := []
  gap := false

variable (H : History) (e : Engine)

/-- `push_back` on the event queue. -/
def emit (ev : Event) : Engine := { e with events := e.events ++ [ev] }

/-- Report a fault to the host. -/
def report (f : Fault) : Engine := e.emit (.error f)

/-- `encode_into_outbox`. -/
def send (f : ClientFrame Blob) : Engine := { e with outbox := e.outbox ++ [f] }

/-- `go_disconnected`. -/
def goDisconnected : Engine :=
  { e with state := .disconnected, outbox := [] }.emit (.connStateChanged false)

/-- `is_online`. -/
def isOnline : Bool := decide (e.state ≠ .disconnected)

/-- `has_unsynced_ops`. -/
def hasUnsyncedOps : Bool := e.inFlight.isSome || !e.serverKnownVv.includesVv (e.doc.oplogVv H)

/-! ## Durability -/

/-- `capture_local_ops`. -/
def captureLocalOps : Run (Engine × Except Fault (Option ℕ)) :=
  match e.doc.pendingExport H with
  | none => .pure (e, .ok none)
  | some blob =>
    .call (.appendLocalWal blob) fun
      | none => .pure (e, .error (.storage .appendLocalWal))
      | some row =>
        .pure ({ e with
          lastLocalSeq := row.localSeq,
          walRows := e.walRows + 1,
          walBytes := e.walBytes + blob.len,
          doc := e.doc.markPersistedAt (e.doc.oplogVv H) }, .ok (some row.localSeq))

/-- `write_local_snapshot`. -/
def writeLocalSnapshot : Run (Engine × Except Fault Bool) :=
  .call (.writeSnapshot e.lastLocalSeq (e.doc.snapshotBlob H)) fun
    | none => .pure (e, .error (.storage .writeSnapshot))
    | some _ => .pure ({ e with walRows := 0, walBytes := 0 }, .ok true)

/-- `snapshot_if_wal_exceeds`. -/
def snapshotIfWalExceeds (maxRows maxBytes : ℕ) : Run (Engine × Except Fault Bool) :=
  (e.captureLocalOps H).bind fun
    | (e, .error f) => .pure (e, .error f)
    | (e, .ok _) =>
      if e.walRows < max maxRows 1 ∧ e.walBytes ≤ maxBytes then .pure (e, .ok false)
      else e.writeLocalSnapshot H

/-- `force_snapshot`. -/
def forceSnapshot : Run (Engine × Except Fault Bool) :=
  (e.captureLocalOps H).bind fun
    | (e, .error f) => .pure (e, .error f)
    | (e, .ok _) => if e.walRows = 0 then .pure (e, .ok false) else e.writeLocalSnapshot H

/-- `queue_ack_if_advanced`. -/
def queueAckIfAdvanced : Engine :=
  if e.lastSentAck < e.lastDurableSeq then
    { e.send (.ack e.lastDurableSeq) with
      lastSentAck := e.lastDurableSeq, queuedAcks := e.queuedAcks ++ [e.lastDurableSeq] }
  else e

/-- `notify_oplog_durable`. -/
def notifyOplogDurable (seq : ℕ) : Run Engine :=
  let clamped := min seq e.lastContiguousSeq
  if e.lastDurableSeq < clamped then
    let e := { e with lastDurableSeq := clamped }
    .call (.writeAckedSeq clamped) fun
      | none => .pure (e.report (.storage .writeAckedSeq)).queueAckIfAdvanced
      | some _ => .pure e.queueAckIfAdvanced
  else .pure e

/-! ## Connecting -/

/-- `handle_connected`. -/
def handleConnected : Engine :=
  if e.state = .disconnected then
    ({ e with state := .opening }.emit (.connStateChanged true)).send .openDoc
  else e.report .alreadyConnected

/-- `handle_disconnected`. -/
def handleDisconnected : Engine :=
  if e.state = .disconnected then e else e.goDisconnected

/-- `handle_timeout`. -/
def handleTimeout : Engine :=
  if e.state = .opening then e.report .handshakeTimedOut else e

/-! ## Pushing -/

/-- The tail of `try_start_push`: put the push in flight on the wire. -/
def sendInFlight (p : InFlightState) : Engine :=
  { e.send (.pushUpdates [⟨p.pushId, p.payload⟩]) with state := .pushing }

/-- `try_start_push`; `mint` is the id `PushId::generate` would return. -/
def tryStartPush (mint : PushId) : Run Engine :=
  if e.state = .idle then
    match e.inFlight with
    | some p => .pure (e.sendInFlight p)
    | none =>
      (e.captureLocalOps H).bind fun
        | (e, .error f) => .pure (e.report f)
        | (e, .ok _) =>
          let toVv := e.doc.oplogVv H
          match e.doc.exportUpdatesSince H e.serverKnownVv with
          | none => .pure e
          | some blob =>
            .call (.putInFlightPush ⟨mint, blob, e.serverKnownVv, toVv⟩) fun
              | none => .pure (e.report (.storage .putInFlightPush))
              | some _ =>
                let p : InFlightState := ⟨mint, blob, toVv⟩
                .pure ({ e with inFlight := some p }.sendInFlight p)
  else .pure e

/-- `flush`. -/
def flush (mint : PushId) : Run Engine :=
  match e.state with
  | .idle => e.tryStartPush H mint
  | .pushing => .pure { e with state := .pushingDirty }
  | _ => .pure e

/-! ## Server seqs -/

/-- `ingest_seq`: the next seq advances the cursor, a lower one is a duplicate, and a higher one
fails the assertion and is ignored in a release build. -/
def ingestSeq (n : ℕ) : Engine :=
  if n = e.lastContiguousSeq + 1 then { e with lastContiguousSeq := n }
  else { e with gap := e.gap || decide (e.lastContiguousSeq < n) }

/-- `ingest_seq` on each seq in order. -/
def ingestSeqs (e : Engine) : List ℕ → Engine
  | [] => e
  | n :: ns => (e.ingestSeq n).ingestSeqs ns

/-- Report an advance of the cursor. -/
def emitFrontier (prev : ℕ) : Engine :=
  if prev < e.lastContiguousSeq then e.emit (.frontierAdvanced e.lastContiguousSeq) else e

/-- The seq an import error names. -/
def failedSeq (updates : List (StoredBlob Blob)) : ℕ :=
  match updates.find? fun u => decide (e.lastContiguousSeq < u.seq) with
  | some u => u.seq
  | none => ((updates.map StoredBlob.seq).max?).getD 0

/-- Mirror each applied blob into the WAL; an error is reported and the rest goes on. -/
def appendRemoteRows (vv : VersionVector) : List (StoredBlob Blob) → Engine → Run Engine
  | [], e => .pure e
  | u :: us, e =>
    .call (.appendRemoteWal u.seq u.blob vv) fun
      | none => appendRemoteRows vv us (e.report (.storage .appendRemoteWal))
      | some row =>
        appendRemoteRows vv us
          (if row.inserted then
            { e with
              lastLocalSeq := row.localSeq,
              walRows := e.walRows + 1,
              walBytes := e.walBytes + u.blob.len }
          else e)

/-- `apply_remote_updates`. -/
def applyRemoteUpdates (updates : List (StoredBlob Blob)) : Run Engine :=
  if updates.isEmpty then .pure e
  else
    match e.doc.applyRemoteBatch (updates.map StoredBlob.blob) with
    | (doc, none) =>
      .pure ({ e with doc := doc }.report (.applyRemoteBlob (e.failedSeq updates)))
    | (doc, some vv) =>
      let known := e.serverKnownVv.merge vv
      (appendRemoteRows known updates { e with doc := doc, serverKnownVv := known }).map fun e' =>
        (e'.ingestSeqs (updates.map StoredBlob.seq)).emitFrontier e'.lastContiguousSeq

/-! ## Server frames -/

/-- `DocOpened`. -/
def docOpened (epoch : ℕ) : Engine :=
  if e.state = .opening then
    { e with serverEpoch := some epoch, state := .pulling }.send (.pullUpdates e.lastContiguousSeq)
  else e.report (.unexpected .docOpened e.state)

/-- `DocRejected` and `DocClosed`. -/
def docClosed (reason : String) : Engine := (e.emit (.docClosed reason)).goDisconnected

/-- The initial pull is answered to its end. -/
def pulled (mint : PushId) : Run Engine :=
  ({ e with state := .idle }.emit .pulledInitial).tryStartPush H mint

/-- `UpdatesBatch`. -/
def updatesBatch (updates : List (StoredBlob Blob)) (complete : Bool) (mint : PushId) :
    Run Engine :=
  if e.state = .bootstrapping then .pure (e.report .batchDuringBootstrap)
  else
    (e.applyRemoteUpdates updates).bind fun e =>
      if complete = true ∧ e.state = .pulling then e.pulled H mint else .pure e

/-- `UpdatesBroadcast`. -/
def updatesBroadcast (updates : List (StoredBlob Blob)) : Run Engine :=
  if e.state = .bootstrapping then .pure e else e.applyRemoteUpdates updates

/-- The ack of the push in flight. -/
def pushAcked (p : InFlightState) (seq : ℕ) (mint : PushId) : Run Engine :=
  let known := e.serverKnownVv.merge p.toVv
  let e := { e with serverKnownVv := known, inFlight := none }
  let finish (e : Engine) : Run Engine :=
    { ((e.ingestSeq seq).emitFrontier e.lastContiguousSeq).emit .pushed with
      state := .idle }.tryStartPush H mint
  .call (.completePush p.pushId known) fun
    | none => finish (e.report (.storage .completePush))
    | some _ => finish e

/-- `UpdatesAck`. -/
def updatesAck (acks : List PushAck) (mint : PushId) : Run Engine :=
  if e.state = .pushing ∨ e.state = .pushingDirty then
    match e.inFlight with
    | none => .pure { e.report .ackWithoutPush with state := .idle }
    | some p =>
      match acks with
      | [ack] =>
        if ack.pushId = p.pushId then e.pushAcked H p ack.seq mint
        else .pure (e.report (.ackMismatch p.pushId [ack.pushId]))
      | _ => .pure (e.report (.ackMismatch p.pushId (acks.map PushAck.pushId)))
  else .pure (e.report (.unexpected .updatesAck e.state))

/-- `SnapshotRequired`. -/
def snapshotRequired : Engine :=
  if e.state = .pulling then { e with state := .bootstrapping }.send .pullSnapshot
  else e.report (.unexpected .snapshotRequired e.state)

/-- The checkpoint of a completed chain is written: resume the catch-up. -/
def checkpointed (upToSeq : ℕ) : Engine :=
  let e' := { e with
    doc := e.doc.markPersisted H,
    walRows := 0,
    walBytes := 0,
    lastContiguousSeq := max e.lastContiguousSeq upToSeq }.emitFrontier e.lastContiguousSeq
  { e' with state := .pulling }.send (.pullUpdates e'.lastContiguousSeq)

/-- `Snapshot`. -/
def snapshot (upToSeq : ℕ) (blob : Blob) (complete : Bool) : Run Engine :=
  if e.state = .bootstrapping then
    match e.doc.applyRemoteBatch [blob] with
    | (doc, none) => .pure ({ e with doc := doc }.report .applySnapshot).goDisconnected
    | (doc, some vv) =>
      let e := { e with doc := doc, serverKnownVv := e.serverKnownVv.merge vv }
      if complete then
        .call (.writeServerKnownVv e.serverKnownVv) fun
          | none => .pure (e.report (.storage .writeServerKnownVv)).goDisconnected
          | some _ =>
            .call (.writeSnapshot e.lastLocalSeq (e.doc.snapshotBlob H)) fun
              | none => .pure (e.report (.storage .writeSnapshot)).goDisconnected
              | some _ => .pure (e.checkpointed H upToSeq)
      else .pure e
  else .pure (e.report (.unexpected .snapshot e.state))

/-- The snapshot an engine is asked for: at the server-known vector, and past the base where
there is one. -/
def produce (base : Option (SnapshotBase Blob)) : Except Fault Blob :=
  match base with
  | none => .ok (e.doc.snapshotBlobAt H e.serverKnownVv)
  | some b =>
    match b.vv.openVv with
    | none => .error .baseUnreadable
    | some from_ =>
      match e.doc.deltaBlobBetween H from_ e.serverKnownVv with
      | some blob => .ok blob
      | none => .error (.baseOutside b.seq)

/-- `SnapshotRequest`. -/
def snapshotRequest (ask : SnapshotAsk Blob) : Engine :=
  match e.produce H ask.base with
  | .error f => e.report f
  | .ok blob =>
    e.send (.pushSnapshot
      ⟨e.lastContiguousSeq, ask.compactionFloorSeq, ask.base.map SnapshotBase.seq,
        H.seal (.vv e.serverKnownVv), blob⟩)

/-- `handle_server_frame`. -/
def handleServerFrame (mint : PushId) : ServerFrame Blob → Run Engine
  | .docOpened epoch => .pure (e.docOpened epoch)
  | .docRejected reason => .pure (e.docClosed ("doc rejected: " ++ reason))
  | .docClosed reason => .pure (e.docClosed ("doc closed: " ++ reason))
  | .presence accounts => .pure (e.emit (.presence accounts))
  | .updatesBatch updates complete => e.updatesBatch H updates complete mint
  | .updatesBroadcast updates => e.updatesBroadcast updates
  | .updatesAck acks => e.updatesAck H acks mint
  | .snapshotRequired _ => .pure e.snapshotRequired
  | .snapshot upToSeq blob complete => e.snapshot H upToSeq blob complete
  | .snapshotRequest ask => .pure (e.snapshotRequest H ask)

/-- `handle_server_bytes`; `none` are bytes that do not decode. -/
def handleServerBytes (mint : PushId) (bytes : Option (ServerFrame Blob)) : Run Engine :=
  if e.state = .disconnected then .pure (e.report .bytesWhileDisconnected)
  else
    match bytes with
    | none => .pure (e.report .undecodable)
    | some f => e.handleServerFrame H mint f

end Engine

/-! ## Booting -/

/-- The blobs a boot replays: the snapshot, then the WAL. -/
def Disk.blobs (s : Disk) : List Blob :=
  (s.snapshot.map SnapshotRow.payload).toList ++ s.wal.map WalRow.payload

/-- `boot_doc`: a blob that does not import fails the boot. -/
def bootDoc (s : Disk) : Option Doc :=
  match Doc.empty.applyRemoteBatch s.blobs with
  | (_, none) => none
  | (doc, some _) => some doc

/-- The payload bytes of the surviving WAL rows. -/
def walLen : List WalRow → ℕ
  | [] => 0
  | r :: rs => r.payload.len + walLen rs

/-- `new` and `seed_boot` on what `boot_doc` returns. -/
def boot (s : Disk) : Option Engine :=
  (bootDoc s).map fun doc =>
    { Engine.new doc s.lastAckedServerSeq with
      lastLocalSeq := s.nextLocalSeq,
      walRows := s.wal.length,
      walBytes := walLen s.wal,
      serverKnownVv := s.serverKnownVv,
      inFlight := s.inFlight.map fun p => ⟨p.pushId, p.payload, p.toVv⟩ }

end Monoplan.Client
