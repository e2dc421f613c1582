import Monoplan.Base.Machine
import Monoplan.Server.Queries
import Monoplan.Server.Sessions
import Monoplan.Server.Snapshot

/-!
# Sessions, and the server as a machine

One task serves one connection.  Between two database calls of a handler any other task may
run, so a session is a program counter (`Pc`) that stands before the handler's next call;
`World.step` advances one session by one call together with the code that follows it up to
the next.  The labels are

* `connect`, `close`, `abort`: a connection is accepted, ends in the session loop, or ends by
  an error inside a handler;
* `recv c f`: the loop of `c` picks a client frame and runs its handler up to the second
  database call;
* `resume c`: the handler of `c` goes on;
* `deliver c`: the loop of `c` picks the broadcast channel;
* `compact`: a spawned compaction runs;
* the rest is the environment: the clock, membership and device changes, other documents
  taking subscriber and lease ids, and a restart of the process.

Both sides of every socket are written down in `Session.log`, in socket order.
-/

namespace Monoplan.Server

open Monoplan.Base Monoplan.Protocol

variable {β : Type*}

/-! ## Sessions -/

/-- What a connection authenticated as. -/
structure DeviceAuth where
  accountId : AccountId
  deviceId : DeviceId
  email : String
  deriving DecidableEq

/-- The document bound to a connection. -/
structure OpenDoc where
  sub : ℕ
  snapshotLease : Option ℕ
  /-- History: a pull has been answered to its end since the subscription. -/
  pulled : Bool
  deriving DecidableEq

/-- One frame on a socket, seen from the server. -/
inductive Event (β : Type*)
  | received (f : ClientFrame β)
  | sent (f : ServerFrame β)
  deriving DecidableEq

/-- What a `PushSnapshot` was let in with: the connection's lease slot, the lease that was
running then, and the time.  History only. -/
structure Grant (β : Type*) where
  slot : ℕ
  lease : ActiveLease β
  at_ : ℕ
  deriving DecidableEq

/-- The frame an evaluation belongs to: an `Ack`, or a push whose acks it precedes. -/
inductive After
  | ack (lastAcked : ℕ)
  | push (acks : List PushAck)
  deriving DecidableEq

/-- The frontier an evaluation runs with. -/
def After.deviceLastAcked : After → ℕ
  | .ack n => n
  | .push acks => (acks.getLast?.map PushAck.seq).getD 0

/-- How far `evaluate_snapshot_decision` has read. -/
inductive Stage (β : Type*)
  | latestSnapshot
  | latestSeq (prev : Option (PrevSnapshot β))
  | horizon (prev : Option (PrevSnapshot β)) (serverLast : ℕ)
  | decide (prev : Option (PrevSnapshot β)) (serverLast horizon : ℕ)
  deriving DecidableEq

/-- Where a session's task stands. -/
inductive Pc (β : Type*)
  /-- In the loop, waiting for a frame or a broadcast. -/
  | ready
  /-- `open_doc` passed the access check; the epoch is read next. -/
  | opening
  /-- `open_doc` read the epoch; subscribing comes next. -/
  | subscribing (epoch : ℕ)
  /-- `push_updates` committed its rows; the broadcast comes next. -/
  | committed (inserted : InsertedUpdates β)
  /-- An evaluation is reading. -/
  | evaluating (after : After) (stage : Stage β)
  /-- The acks are sent; a `SnapshotRequest` may follow. -/
  | requesting (decision : Decision β)
  /-- `pull_updates` passed the floor check; the batch after `cursor` is next. -/
  | pulling (cursor : ℕ)
  /-- `push_snapshot` released its lease; the insert comes next. -/
  | storing (upload : SnapshotUpload β) (grant : Grant β)
  /-- The task is over. -/
  | ended
  deriving DecidableEq

/-- The task is in the session loop. -/
def Pc.isReady : Pc β → Bool
  | .ready => true
  | _ => false

theorem Pc.eq_ready {pc : Pc β} (h : pc.isReady = true) : pc = .ready := by
  cases pc <;> first | rfl | cases h

/-- A connection's task. -/
structure Session (β : Type*) where
  auth : DeviceAuth
  openDoc : Option OpenDoc
  pc : Pc β
  log : List (Event β)

namespace Session

def new (auth : DeviceAuth) : Session β where
  auth := auth
  openDoc := none
  pc := .ready
  log := []

def goto (s : Session β) (pc : Pc β) : Session β := { s with pc := pc }

def record (s : Session β) (es : List (Event β)) : Session β := { s with log := s.log ++ es }

def withDoc (s : Session β) (o : Option OpenDoc) : Session β := { s with openDoc := o }

/-- Send one frame. -/
def send (s : Session β) (f : ServerFrame β) : Session β := s.record [.sent f]

@[simp] theorem goto_log (s : Session β) (pc : Pc β) : (s.goto pc).log = s.log := rfl
@[simp] theorem goto_openDoc (s : Session β) (pc : Pc β) : (s.goto pc).openDoc = s.openDoc := rfl
@[simp] theorem goto_pc (s : Session β) (pc : Pc β) : (s.goto pc).pc = pc := rfl
@[simp] theorem goto_auth (s : Session β) (pc : Pc β) : (s.goto pc).auth = s.auth := rfl
@[simp] theorem record_log (s : Session β) (es : List (Event β)) :
    (s.record es).log = s.log ++ es := rfl
@[simp] theorem record_openDoc (s : Session β) (es : List (Event β)) :
    (s.record es).openDoc = s.openDoc := rfl
@[simp] theorem record_pc (s : Session β) (es : List (Event β)) : (s.record es).pc = s.pc := rfl
@[simp] theorem record_auth (s : Session β) (es : List (Event β)) :
    (s.record es).auth = s.auth := rfl
@[simp] theorem withDoc_log (s : Session β) (o : Option OpenDoc) :
    (s.withDoc o).log = s.log := rfl
@[simp] theorem withDoc_openDoc (s : Session β) (o : Option OpenDoc) :
    (s.withDoc o).openDoc = o := rfl
@[simp] theorem withDoc_pc (s : Session β) (o : Option OpenDoc) : (s.withDoc o).pc = s.pc := rfl
@[simp] theorem withDoc_auth (s : Session β) (o : Option OpenDoc) :
    (s.withDoc o).auth = s.auth := rfl
@[simp] theorem send_log (s : Session β) (f : ServerFrame β) :
    (s.send f).log = s.log ++ [.sent f] := rfl
@[simp] theorem send_openDoc (s : Session β) (f : ServerFrame β) :
    (s.send f).openDoc = s.openDoc := rfl
@[simp] theorem send_pc (s : Session β) (f : ServerFrame β) : (s.send f).pc = s.pc := rfl
@[simp] theorem send_auth (s : Session β) (f : ServerFrame β) : (s.send f).auth = s.auth := rfl

end Session

/-! ## The world -/

/-- The server process, its database and its connections, on one document. -/
structure World (β : Type*) where
  db : Db β
  registry : SyncSessions β
  coordinator : SnapshotCoordinator β
  now : ℕ
  sessions : ConnId → Option (Session β)
  /-- Spawned compactions that have not run yet. -/
  compactions : ℕ
  /-- History: every upload stored so far, with what it was let in with. -/
  stored : List (SnapshotUpload β × Grant β)

/-- A step of the server. -/
inductive Label (β : Type*)
  | connect (c : ConnId) (auth : DeviceAuth)
  | recv (c : ConnId) (f : ClientFrame β)
  | resume (c : ConnId)
  | deliver (c : ConnId)
  | close (c : ConnId)
  | abort (c : ConnId)
  | compact
  | tick
  | addMember (account : AccountId)
  | removeMember (account : AccountId)
  | closeForAccount (account : AccountId) (reason : String)
  | addDevice (device : Device)
  | removeDevice (device : DeviceId)
  | elsewhere (subIds leaseIds : ℕ)
  | restart
  deriving DecidableEq

namespace World

/-- Replace one session. -/
def put (w : World β) (c : ConnId) (s : Session β) : World β :=
  { w with sessions := Function.update w.sessions c (some s) }

@[simp] theorem put_db (w : World β) (c : ConnId) (s : Session β) : (w.put c s).db = w.db := rfl
@[simp] theorem put_registry (w : World β) (c : ConnId) (s : Session β) :
    (w.put c s).registry = w.registry := rfl
@[simp] theorem put_coordinator (w : World β) (c : ConnId) (s : Session β) :
    (w.put c s).coordinator = w.coordinator := rfl
@[simp] theorem put_now (w : World β) (c : ConnId) (s : Session β) :
    (w.put c s).now = w.now := rfl
@[simp] theorem put_stored (w : World β) (c : ConnId) (s : Session β) :
    (w.put c s).stored = w.stored := rfl
@[simp] theorem put_compactions (w : World β) (c : ConnId) (s : Session β) :
    (w.put c s).compactions = w.compactions := rfl
@[simp] theorem put_sessions_self (w : World β) (c : ConnId) (s : Session β) :
    (w.put c s).sessions c = some s := by simp [put]
theorem put_sessions_ne (w : World β) {c d : ConnId} (s : Session β) (h : d ≠ c) :
    (w.put c s).sessions d = w.sessions d := by simp [put, h]

/-- Take the document off a connection without touching the coordinator: the subscription
goes with the entry. -/
def dropDoc (w : World β) (c : ConnId) (s : Session β) : World β :=
  match s.openDoc with
  | none => w.put c s
  | some o =>
    { w.put c (s.withDoc none) with registry := w.registry.unsubscribe o.sub }

/-- Give a connection's lease back. -/
def releaseLease (w : World β) (s : Session β) : World β :=
  match s.openDoc.bind OpenDoc.snapshotLease with
  | none => w
  | some id => { w with coordinator := w.coordinator.release id }

/-- `unbind_doc`: the subscription goes with the entry, and the lease goes back. -/
def unbindDoc (w : World β) (c : ConnId) (s : Session β) : World β :=
  (w.releaseLease s).dropDoc c s

/-- A handler returned an error: the task ends and drops its subscription; the drain that
releases leases is after the loop and is not reached. -/
def endByError (w : World β) (c : ConnId) (s : Session β) : World β :=
  w.dropDoc c (s.goto .ended)

/-- The loop ended: leases go back and the subscription is dropped. -/
def endLoop (w : World β) (c : ConnId) (s : Session β) : World β :=
  (w.releaseLease s).dropDoc c (s.goto .ended)

/-! ## Handlers -/

variable [WireSize β]

/-- The frames `pull_snapshot` sends: one row a frame, the last marked complete. -/
def snapshotFrames : List (SnapshotRow β) → List (ServerFrame β)
  | [] => []
  | [r] => [.snapshot r.upToSeq r.blob true]
  | r :: rs => .snapshot r.upToSeq r.blob false :: snapshotFrames rs

/-- `issue_snapshot_request`: note the lease in the connection's slot and send the request. -/
def issueSnapshotRequest (s : Session β) : Decision β → Session β
  | .skip => s
  | .issue id ask =>
    (s.withDoc (s.openDoc.map fun o => { o with snapshotLease := some id })).send
      (.snapshotRequest ask)

/-- `push_updates`, up to the commit of the insert. -/
def pushUpdates (w : World β) (c : ConnId) (s : Session β) (updates : List (PushBlob β)) :
    World β :=
  if updates.isEmpty then w.put c (s.send (.updatesAck []))
  else
    let r := w.db.insertUpdates s.auth.deviceId updates
    { w.put c (s.goto (.committed r.2)) with db := r.1 }

/-- `pull_updates`, the floor check. -/
def pullUpdates (w : World β) (c : ConnId) (s : Session β) (since : ℕ) : World β :=
  match w.db.latestSnapshot with
  | some latest =>
    if since < latest.compactionFloorSeq then
      w.put c (s.send (.snapshotRequired latest.upToSeq))
    else w.put c (s.goto (.pulling since))
  | none => w.put c (s.goto (.pulling since))

/-- `pull_snapshot`. -/
def pullSnapshot (w : World β) (c : ConnId) (s : Session β) : World β :=
  w.put c (s.record ((snapshotFrames w.db.snapshotChain).map Event.sent))

/-- `push_snapshot`, up to the insert: no lease in the slot, or a lease that `release` does
not accept, and the frame is ignored. -/
def pushSnapshot (w : World β) (c : ConnId) (s : Session β) (o : OpenDoc)
    (upload : SnapshotUpload β) : World β :=
  match o.snapshotLease with
  | none => w.put c s
  | some id =>
    match w.coordinator.heldBy id with
    | none => w.put c s
    | some lease =>
      { w.put c ((s.withDoc (some { o with snapshotLease := none })).goto
          (.storing upload ⟨id, lease, w.now⟩)) with
        coordinator := w.coordinator.release id }

/-- `handle_frame` and the handlers up to their second suspension.  A payload frame with no
document open is `DocNotOpen` and ends the session. -/
def handleFrame (w : World β) (c : ConnId) (s : Session β) : ClientFrame β → World β
  | .openDoc =>
    if w.db.isMember s.auth.accountId then w.put c (s.goto .opening)
    else w.endByError c (s.send (.docRejected "not a member of this doc"))
  | .pushUpdates updates =>
    match s.openDoc with
    | none => w.endByError c s
    | some _ => w.pushUpdates c s updates
  | .pullUpdates since =>
    match s.openDoc with
    | none => w.endByError c s
    | some _ => w.pullUpdates c s since
  | .ack n =>
    match s.openDoc with
    | none => w.endByError c s
    | some _ =>
      { w.put c (s.goto (.evaluating (.ack n) .latestSnapshot)) with
        db := w.db.advanceLastAckedSeq s.auth.deviceId n }
  | .pullSnapshot =>
    match s.openDoc with
    | none => w.endByError c s
    | some _ => w.pullSnapshot c s
  | .pushSnapshot upload =>
    match s.openDoc with
    | none => w.endByError c s
    | some o => w.pushSnapshot c s o upload

/-- The end of `open_doc`: subscribe unless the document is open already, then reply. -/
def subscribe (w : World β) (c : ConnId) (s : Session β) (epoch : ℕ) : World β :=
  match s.openDoc with
  | some _ => w.put c ((s.goto .ready).send (.docOpened epoch))
  | none =>
    let r := w.registry.subscribe s.auth.deviceId s.auth.accountId s.auth.email
    { w.put c (((s.withDoc (some ⟨r.2, none, false⟩)).goto .ready).send (.docOpened epoch)) with
      registry := r.1 }

/-- `push_updates` after the commit: fan the fresh rows out, then evaluate. -/
def broadcast (w : World β) (c : ConnId) (s : Session β) (inserted : InsertedUpdates β) :
    World β :=
  match s.openDoc with
  | none => w.endByError c s
  | some o =>
    { w.put c (s.goto (.evaluating (.push inserted.acks) .latestSnapshot)) with
      registry := w.registry.broadcast o.sub inserted.fresh }

/-- The next read of `evaluate_snapshot_decision`; after the last one the decision, and on a
push the acks. -/
def evaluate (cfg : SnapshotConfig) (w : World β) (c : ConnId) (s : Session β)
    (after : After) : Stage β → World β
  | .latestSnapshot =>
    let prev := w.db.latestSnapshot.map fun m => ⟨m.upToSeq, m.compactionFloorSeq, m.upToVv⟩
    w.put c (s.goto (.evaluating after (.latestSeq prev)))
  | .latestSeq prev => w.put c (s.goto (.evaluating after (.horizon prev w.db.latestDocSeq)))
  | .horizon prev last =>
    let horizon := w.db.docHorizon s.auth.deviceId after.deviceLastAcked
    w.put c (s.goto (.evaluating after (.decide prev last horizon)))
  | .decide prev last horizon =>
    let r := w.coordinator.evaluate cfg prev last horizon after.deviceLastAcked w.now
    match after with
    | .ack _ =>
      { w.put c ((issueSnapshotRequest s r.2).goto .ready) with coordinator := r.1 }
    | .push acks =>
      { w.put c ((s.send (.updatesAck acks)).goto (.requesting r.2)) with coordinator := r.1 }

/-- `pull_updates`: one batch; the last one ends the handler. -/
def pullBatch (w : World β) (c : ConnId) (s : Session β) (cursor : ℕ) : World β :=
  let batch := w.db.fetchUpdatesBatch cursor
  let next := (batch.updates.getLast?.map StoredBlob.seq).getD cursor
  let s := s.send (.updatesBatch batch.updates !batch.hasMore)
  if batch.hasMore then w.put c (s.goto (.pulling next))
  else
    w.put c ((s.withDoc (s.openDoc.map fun o => { o with pulled := true })).goto .ready)

/-- `push_snapshot` after the release: insert, and spawn a compaction if a row landed. -/
def storeSnapshot (w : World β) (c : ConnId) (s : Session β) (upload : SnapshotUpload β)
    (grant : Grant β) : World β :=
  match w.db.insertSnapshot upload with
  | none => w.put c (s.goto .ready)
  | some db =>
    { w.put c (s.goto .ready) with
      db := db,
      compactions := w.compactions + 1,
      stored := w.stored ++ [(upload, grant)] }

/-- Let a suspended handler go on. -/
def resume (cfg : SnapshotConfig) (w : World β) (c : ConnId) (s : Session β) :
    Option (World β) :=
  match s.pc with
  | .ready => none
  | .opening => some (w.put c (s.goto (.subscribing w.db.epoch)))
  | .subscribing epoch => some (w.subscribe c s epoch)
  | .committed inserted => some (w.broadcast c s inserted)
  | .evaluating after stage => some (w.evaluate cfg c s after stage)
  | .requesting decision => some (w.put c ((issueSnapshotRequest s decision).goto .ready))
  | .pulling cursor => some (w.pullBatch c s cursor)
  | .storing upload grant => some (w.storeSnapshot c s upload grant)
  | .ended => none

/-- The loop picks the broadcast channel: forward a frame, unbind on `Close` and `Unbind`,
and end the session when the channel is closed and drained. -/
def deliver (w : World β) (c : ConnId) (s : Session β) (o : OpenDoc) : Option (World β) :=
  match w.registry.channels o.sub with
  | [] => if w.registry.Registered o.sub then none else some (w.endByError c s)
  | m :: rest =>
    let w := { w with registry := w.registry.pop o.sub rest }
    match m with
    | .frame f => some (w.put c (s.send f))
    | .close f => some (w.unbindDoc c (s.send f))
    | .unbind => some (w.unbindDoc c s)

/-! ## Steps -/

/-- The process dies and starts again: every task, channel and lease is gone. -/
def restart (w : World β) : World β :=
  { w with
    registry := .new,
    coordinator := .new,
    compactions := 0,
    sessions := fun c =>
      (w.sessions c).map fun s => (s.goto .ended).withDoc none }

/-- One step of the server. -/
def step (cfg : SnapshotConfig) (w : World β) : Label β → Option (World β)
  | .connect c auth =>
    match w.sessions c with
    | some _ => none
    | none =>
      if (⟨auth.deviceId, auth.accountId⟩ : Device) ∈ w.db.devices then
        some (w.put c (.new auth))
      else none
  | .recv c f =>
    match w.sessions c with
    | some s => if s.pc.isReady then some (w.handleFrame c (s.record [.received f]) f) else none
    | none => none
  | .resume c =>
    match w.sessions c with
    | some s => w.resume cfg c s
    | none => none
  | .deliver c =>
    match w.sessions c with
    | some s =>
      if s.pc.isReady then
        match s.openDoc with
        | some o => w.deliver c s o
        | none => none
      else none
    | none => none
  | .close c =>
    match w.sessions c with
    | some s => if s.pc.isReady then some (w.endLoop c s) else none
    | none => none
  | .abort c =>
    match w.sessions c with
    | some s =>
      match s.pc with
      | .committed _ => none
      | .ended => none
      | _ => some (w.endByError c s)
    | none => none
  | .compact =>
    if w.compactions = 0 then none
    else some { w with db := w.db.compactDoc, compactions := w.compactions - 1 }
  | .tick => some { w with now := w.now + 1 }
  | .addMember a => some { w with db := { w.db with members := a :: w.db.members } }
  | .removeMember a =>
    some { w with
      db := { w.db with members := w.db.members.filter fun b => decide (b ≠ a) } }
  | .closeForAccount a reason =>
    some { w with registry := w.registry.closeForAccount a reason }
  | .addDevice d => some { w with db := { w.db with devices := d :: w.db.devices } }
  | .removeDevice d =>
    some { w with
      db := { w.db with devices := w.db.devices.filter fun e => decide (e.id ≠ d) } }
  | .elsewhere subIds leaseIds =>
    some { w with
      registry := { w.registry with nextSubId := w.registry.nextSubId + subIds },
      coordinator :=
        { w.coordinator with nextLeaseId := w.coordinator.nextLeaseId + leaseIds } }
  | .restart => some w.restart

/-! ## A step moves one session -/

section Frame

variable {w w' : World β} {c d : ConnId} {s : Session β}

omit [WireSize β]

theorem dropDoc_sessions_ne (h : d ≠ c) : (w.dropDoc c s).sessions d = w.sessions d := by
  unfold dropDoc
  split <;> exact w.put_sessions_ne _ h

theorem releaseLease_sessions : (w.releaseLease s).sessions = w.sessions := by
  unfold releaseLease
  split <;> rfl

theorem unbindDoc_sessions_ne (h : d ≠ c) : (w.unbindDoc c s).sessions d = w.sessions d := by
  rw [unbindDoc, dropDoc_sessions_ne h, releaseLease_sessions]

theorem pushSnapshot_sessions_ne (h : d ≠ c) (o : OpenDoc) (upload : SnapshotUpload β) :
    (w.pushSnapshot c s o upload).sessions d = w.sessions d := by
  unfold pushSnapshot
  split
  · exact w.put_sessions_ne _ h
  · split <;> exact w.put_sessions_ne _ h

theorem handleFrame_sessions_ne (h : d ≠ c) (f : ClientFrame β) :
    (w.handleFrame c s f).sessions d = w.sessions d := by
  cases f <;> simp only [handleFrame]
  case openDoc =>
    split
    · exact w.put_sessions_ne _ h
    · exact dropDoc_sessions_ne h
  all_goals split
  all_goals first
    | exact dropDoc_sessions_ne h
    | exact w.put_sessions_ne _ h
    | exact pushSnapshot_sessions_ne h _ _
    | skip
  · unfold pushUpdates
    split <;> exact w.put_sessions_ne _ h
  · unfold pullUpdates
    split
    · split <;> exact w.put_sessions_ne _ h
    · exact w.put_sessions_ne _ h

theorem resume_sessions_ne [WireSize β] {cfg : SnapshotConfig} (h : d ≠ c)
    (hstep : w.resume cfg c s = some w') : w'.sessions d = w.sessions d := by
  have hput : ∀ t : Session β, (w.put c t).sessions d = w.sessions d :=
    fun t => w.put_sessions_ne t h
  unfold resume at hstep
  cases hpc : s.pc <;> simp only [hpc, Option.some.injEq, reduceCtorEq] at hstep <;> subst hstep
  case opening => exact hput _
  case subscribing epoch =>
    unfold subscribe
    split <;> exact hput _
  case committed inserted =>
    unfold broadcast
    split
    · exact dropDoc_sessions_ne h
    · exact hput _
  case evaluating after stage =>
    cases stage <;> cases after <;> exact hput _
  case requesting decision => exact hput _
  case pulling cursor =>
    simp only [pullBatch]
    split <;> exact hput _
  case storing upload grant =>
    unfold storeSnapshot
    split <;> exact hput _

theorem deliver_sessions_ne (h : d ≠ c) {o : OpenDoc} (hstep : w.deliver c s o = some w') :
    w'.sessions d = w.sessions d := by
  unfold deliver at hstep
  split at hstep
  · split at hstep
    · cases hstep
    · exact Option.some.inj hstep ▸ dropDoc_sessions_ne h
  · split at hstep
    · exact Option.some.inj hstep ▸ put_sessions_ne _ _ h
    · exact Option.some.inj hstep ▸ unbindDoc_sessions_ne h
    · exact Option.some.inj hstep ▸ unbindDoc_sessions_ne h

/-- Connections come from `connect` only. -/
theorem step_sessions_none [WireSize β] {cfg : SnapshotConfig} {l : Label β}
    (hstep : step cfg w l = some w') (hnone : w.sessions d = none)
    (hl : ∀ auth, l ≠ .connect d auth) : w'.sessions d = none := by
  have hne : ∀ {c s}, w.sessions c = some s → d ≠ c := by
    rintro c s hs rfl
    rw [hnone] at hs
    cases hs
  cases l <;> simp only [step] at hstep
  case connect c auth =>
    have hd : d ≠ c := fun he => hl auth (he ▸ rfl)
    split at hstep
    · cases hstep
    · split at hstep
      · rw [← Option.some.inj hstep, put_sessions_ne _ _ hd, hnone]
      · cases hstep
  case recv c f =>
    split at hstep
    · rename_i s hs
      split at hstep
      · rw [← Option.some.inj hstep, handleFrame_sessions_ne (hne hs), hnone]
      · cases hstep
    · cases hstep
  case resume c =>
    split at hstep
    · rename_i s hs
      rw [resume_sessions_ne (hne hs) hstep, hnone]
    · cases hstep
  case deliver c =>
    split at hstep
    · rename_i s hs
      split at hstep
      · split at hstep
        · rw [deliver_sessions_ne (hne hs) hstep, hnone]
        · cases hstep
      · cases hstep
    · cases hstep
  case close c =>
    split at hstep
    · rename_i s hs
      split at hstep
      · rw [← Option.some.inj hstep, endLoop, dropDoc_sessions_ne (hne hs),
          releaseLease_sessions, hnone]
      · cases hstep
    · cases hstep
  case abort c =>
    split at hstep
    · rename_i s hs
      split at hstep
      · cases hstep
      · cases hstep
      · rw [← Option.some.inj hstep, endByError, dropDoc_sessions_ne (hne hs), hnone]
    · cases hstep
  case compact =>
    split at hstep
    · cases hstep
    · rw [← Option.some.inj hstep]
      exact hnone
  case restart =>
    rw [← Option.some.inj hstep]
    simp [restart, hnone]
  all_goals exact Option.some.inj hstep ▸ hnone

end Frame

/-- A process that has just started on a document nobody has pushed to. -/
def fresh (members : List AccountId) (devices : List Device) : World β where
  db :=
    { updates := .empty, epoch := 0, snapshots := [], frontiers := fun _ => none,
      members := members, devices := devices }
  registry := .new
  coordinator := .new
  now := 0
  sessions := fun _ => none
  compactions := 0
  stored := []

end World

/-- **The server** as a machine: any members, any devices, any number of connections. -/
def server [WireSize β] (cfg : SnapshotConfig) :
    Machine (World β) (Label β) where
  init w := ∃ members devices, w = World.fresh members devices
  step := World.step cfg

/-- A connection that a run does not make is not there after it. -/
theorem exec_sessions_none [WireSize β] {cfg : SnapshotConfig} {w w' : World β} {d : ConnId}
    {ls : List (Label β)} (hrun : (server cfg).exec w ls = some w')
    (hnone : w.sessions d = none) (hl : ∀ auth, .connect d auth ∉ ls) :
    w'.sessions d = none := by
  induction ls generalizing w with
  | nil =>
    simp only [Machine.exec, Option.some.injEq] at hrun
    exact hrun ▸ hnone
  | cons l ls ih =>
    obtain ⟨u, hstep, hrest⟩ := Option.bind_eq_some_iff.1 hrun
    refine ih hrest (World.step_sessions_none hstep hnone ?_) ?_
    · rintro auth rfl
      exact hl auth List.mem_cons_self
    · exact fun auth hmem => hl auth (List.mem_cons_of_mem _ hmem)

/-- Connect as `device` of account `0`, open the document and pull from the start. -/
def joinRun (c : ConnId) (device : DeviceId) : List (Label EncryptedBlob) :=
  [.connect c ⟨0, device, ""⟩, .recv c .openDoc, .resume c, .resume c, .recv c (.pullUpdates 0),
    .resume c]

end Monoplan.Server
