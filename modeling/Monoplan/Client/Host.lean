import Mathlib.Logic.Relation
import Monoplan.Base.Machine
import Monoplan.Client.Wire

/-!
# The host and its socket

The host owns the socket and the storage of one engine: it calls the engine's methods in any
order, hands it the bytes that come in, and pops what the engine has queued.  `Host.log` is what
has happened on the socket so far.

A step is one call, with a list that says which of its storage calls fail.  `step_cases` says
what a step can do: only popping, connecting and a durable notice touch the two ends of the
outbox; everything else is a chain of `Move`s.
-/

namespace Monoplan.Client

open Monoplan.Base Monoplan.Protocol

/-! ## Calls and steps -/

/-- The calls a host makes.  `mint` is what `PushId::generate` returns if it is asked. -/
inductive HostCall
  | commit (o : OpId)
  | captureLocalOps
  | snapshotIfWalExceeds (maxRows maxBytes : ℕ)
  | forceSnapshot
  | notifyOplogDurable (seq : ℕ)
  | handleConnected
  | handleDisconnected
  | handleTimeout
  | handleServerBytes (bytes : Option (ServerFrame Blob)) (mint : PushId)
  | flush (mint : PushId)
  | popOutbox
  | popEvent
  deriving DecidableEq

/-- What happens on the socket, as the host sees it. -/
inductive SocketMark
  | connected
  | popped (f : ClientFrame Blob)
  | disconnected
  deriving DecidableEq

/-- One call, and which of its storage calls succeed. -/
structure HostStep where
  call : HostCall
  outcomes : List Bool
  deriving DecidableEq

structure Host where
  engine : Engine
  disk : Disk
  log : List SocketMark
  /-- The durable cursor the engine was booted with. -/
  seed : ℕ
  deriving DecidableEq

variable (H : History)

/-- The method behind a call. -/
def HostCall.program (e : Engine) : HostCall → Run Engine
  | .commit o => .pure { e with doc := e.doc.commit o }
  | .captureLocalOps => (e.captureLocalOps H).map Prod.fst
  | .snapshotIfWalExceeds maxRows maxBytes =>
    (e.snapshotIfWalExceeds H maxRows maxBytes).map Prod.fst
  | .forceSnapshot => (e.forceSnapshot H).map Prod.fst
  | .notifyOplogDurable seq => e.notifyOplogDurable seq
  | .handleConnected => .pure e.handleConnected
  | .handleDisconnected => .pure e.handleDisconnected
  | .handleTimeout => .pure e.handleTimeout
  | .handleServerBytes bytes mint => e.handleServerBytes H mint bytes
  | .flush mint => e.flush H mint
  | .popOutbox => .pure { e with outbox := e.outbox.tail }
  | .popEvent => .pure { e with events := e.events.tail }

/-- What a call between two engines means for the socket. -/
def HostCall.marks (e e' : Engine) : HostCall → List SocketMark
  | .popOutbox => (e.outbox.head?.map .popped).toList
  | _ =>
    if e.isOnline = e'.isOnline then []
    else if e'.isOnline then [.connected] else [.disconnected]

namespace Host

/-- Make a call. -/
def step (h : Host) (l : HostStep) : Option Host :=
  let r := (l.call.program H h.engine).run act l.outcomes h.disk
  some { h with engine := r.2, disk := r.1, log := h.log ++ l.call.marks h.engine r.2 }

/-- Nothing has happened since the engine was booted. -/
def Booted (h : Host) : Prop :=
  boot h.disk = some h.engine ∧ h.log = [] ∧ h.seed = h.disk.lastAckedServerSeq

end Host

/-- Every order of host calls on one engine. -/
def hosting : Machine Host HostStep := ⟨Host.Booted, Host.step H⟩

/-! ## Moves -/

/-- A frame that is neither the opening one nor an ack. -/
def Plainly (f : ClientFrame Blob) : Prop := f ≠ .openDoc ∧ ∀ n, f ≠ .ack n

/-- What a method does in the middle of the outbox: nothing of it happens offline. -/
inductive Move : Engine → Engine → Prop
  | quiet {e e' : Engine} (h : Quiet e e') : Move e e'
  | events (e : Engine) (evs : List Event) : Move e { e with events := evs }
  | send {e : Engine} {f : ClientFrame Blob} (hon : e.isOnline = true) (hf : Plainly f) :
    Move e (e.send f)
  | goto {e : Engine} {st : ConnState} (hon : e.isOnline = true) (hst : st ≠ .disconnected) :
    Move e { e with state := st }
  | ingest {e : Engine} {n : ℕ} (hon : e.isOnline = true) : Move e (e.ingestSeq n)
  | raise {e : Engine} {n : ℕ} (hon : e.isOnline = true) (hn : e.lastContiguousSeq ≤ n) :
    Move e { e with lastContiguousSeq := n }
  | down {e : Engine} (hon : e.isOnline = true) : Move e e.goDisconnected

/-- Any number of moves. -/
abbrev Moves : Engine → Engine → Prop := Relation.ReflTransGen Move

section Moves

variable {H} {e e' e'' : Engine}

theorem Move.enter (st : ConnState) (hon : e.isOnline = true) (hst : st ≠ .disconnected) :
    Move e { e with state := st } := .goto hon hst

theorem Move.emit (e : Engine) (ev : Event) : Move e (e.emit ev) := .events e _

theorem Move.one (h : Move e e') : Moves e e' := .single h

theorem Moves.quiet (h : Moves e e') (hq : Quiet e' e'') : Moves e e'' := h.tail (.quiet hq)

theorem Quiet.moves (h : Quiet e e') : Moves e e' := .single (.quiet h)

theorem isOnline_iff : e.isOnline = true ↔ e.state ≠ .disconnected := by
  rw [Engine.isOnline, decide_eq_true_eq]

theorem Quiet.isOnline (h : Quiet e e') : e'.isOnline = e.isOnline := by
  rw [Engine.isOnline, Engine.isOnline, h.state]

theorem ingestSeq_state (e : Engine) (n : ℕ) : (e.ingestSeq n).state = e.state := by
  unfold Engine.ingestSeq
  split <;> rfl

theorem ingestSeqs_state (e : Engine) (ns : List ℕ) : (e.ingestSeqs ns).state = e.state := by
  induction ns generalizing e with
  | nil => rfl
  | cons n ns ih => exact (ih _).trans (ingestSeq_state e n)

theorem took_state (e : Engine) (us : List (StoredBlob Blob)) : (e.took us).state = e.state := by
  unfold Engine.took
  split
  · exact ingestSeqs_state e _
  · rfl

theorem moves_ingestSeqs (hon : e.isOnline = true) (ns : List ℕ) : Moves e (e.ingestSeqs ns) := by
  induction ns generalizing e with
  | nil => exact .refl
  | cons n ns ih =>
    have hon' : (e.ingestSeq n).isOnline = true := by
      rw [isOnline_iff, ingestSeq_state]
      exact isOnline_iff.1 hon
    exact .head (.ingest hon) (ih hon')

theorem moves_took (hon : e.isOnline = true) (us : List (StoredBlob Blob)) :
    Moves e (e.took us) := by
  unfold Engine.took
  split
  · exact moves_ingestSeqs hon _
  · exact .refl

theorem moves_sendInFlight (hon : e.isOnline = true) (p : InFlightState) :
    Moves e (e.sendInFlight p) := by
  have hsend : Move e (e.send (.pushUpdates [⟨p.pushId, p.payload⟩])) :=
    .send hon ⟨by simp, by simp⟩
  exact .head hsend (.single (.goto hon (by simp)))

theorem Pushed.moves (h : Pushed e e') : Moves e e' := by
  rcases h with hq | ⟨hidle, p, hq⟩
  · exact hq.moves
  · have hon : e.isOnline = true := isOnline_iff.2 (by simp [hidle])
    exact (moves_sendInFlight hon p).quiet hq

theorem moves_resumed (hon : e.isOnline = true) (upToSeq : ℕ) :
    Moves e (e.resumed upToSeq) := by
  have hraise : Move e { e with lastContiguousSeq := max e.lastContiguousSeq upToSeq } :=
    .raise hon (Nat.le_max_left _ _)
  refine .head hraise (.head (.enter .pulling hon (by simp)) (.single (.send ?_ ?_)))
  · exact isOnline_iff.2 (by simp)
  · exact ⟨by simp, by simp⟩

theorem docOpened_moves (e : Engine) (epoch : ℕ) : Moves e (e.docOpened epoch) := by
  unfold Engine.docOpened
  split
  · rename_i hst
    have hon : e.isOnline = true := isOnline_iff.2 (by simp [hst])
    have hset : Quiet e { e with serverEpoch := some epoch } :=
      .of_eq rfl rfl rfl rfl rfl rfl rfl rfl
    refine .head (.quiet hset) (.head (.enter .pulling hon (by simp)) (.single (.send ?_ ?_)))
    · exact isOnline_iff.2 (by simp)
    · exact ⟨by simp, by simp⟩
  · exact .single (.emit e _)

theorem docClosed_moves (hon : e.isOnline = true) (reason : String) :
    Moves e (e.docClosed reason) :=
  .head (.emit e _) (.single (.down hon))

theorem snapshotRequired_moves (e : Engine) : Moves e e.snapshotRequired := by
  unfold Engine.snapshotRequired
  split
  · rename_i hst
    have hon : e.isOnline = true := isOnline_iff.2 (by simp [hst])
    refine .head (.enter .bootstrapping hon (by simp)) (.single (.send ?_ ?_))
    · exact isOnline_iff.2 (by simp)
    · exact ⟨by simp, by simp⟩
  · exact .single (.emit e _)

theorem snapshotRequest_moves (hon : e.isOnline = true) (ask : SnapshotAsk Blob) :
    Moves e (e.snapshotRequest H ask) := by
  rcases snapshotRequest_spec H e ask with hq | ⟨snap, heq⟩
  · exact hq.moves
  · rw [heq]
    exact .single (.send hon ⟨by simp, by simp⟩)

theorem handleServerFrame_moves (hon : e.isOnline = true) (mint : PushId)
    (f : ServerFrame Blob) (s : Disk) : Ends (Moves e) (e.handleServerFrame H mint f) s := by
  cases f with
  | docOpened epoch => exact ends_pure (docOpened_moves e epoch)
  | docRejected reason => exact ends_pure (docClosed_moves hon _)
  | docClosed reason => exact ends_pure (docClosed_moves hon _)
  | presence accounts => exact ends_pure (.single (.emit e _))
  | updatesBatch us complete =>
    by_cases hboot : e.state = .bootstrapping
    · show Ends (Moves e) (e.updatesBatch H us complete mint) s
      rw [Engine.updatesBatch, if_pos hboot]
      exact ends_pure (.single (.emit e _))
    · refine (updatesBatch_spec H e s us complete mint hboot).mono fun e' he => ?_
      split at he
      · rename_i hc
        have hst : (e.took us).isOnline = true := isOnline_iff.2 (by simp [hc.2])
        refine (moves_took hon us).trans (.trans ?_ he.moves)
        exact .head (.enter .idle hst (by simp)) (.single (.emit _ _))
      · exact (moves_took hon us).quiet he
  | updatesBroadcast us =>
    show Ends (Moves e) (e.updatesBroadcast us) s
    unfold Engine.updatesBroadcast
    split
    · exact ends_pure .refl
    · exact (applyRemoteUpdates_spec e s us).mono fun e' hq => (moves_took hon us).quiet hq
  | updatesAck acks =>
    refine (updatesAck_spec H e s acks mint).mono fun e' he => ?_
    have hidle : Move e { e with state := .idle } := .goto hon (by simp)
    obtain ⟨_, n, _, hp⟩ | ⟨_, hq | ⟨_, hq⟩⟩ := he
    · have hst : (e.ingestSeq n).isOnline = true :=
        isOnline_iff.2 (ingestSeq_state e _ ▸ isOnline_iff.1 hon)
      exact .head (.ingest hon) (.head (.enter .idle hst (by simp)) hp.moves)
    · exact hq.moves
    · exact hidle.one.quiet hq
  | snapshotRequired upToSeq => exact ends_pure (snapshotRequired_moves e)
  | snapshot upToSeq blob complete =>
    refine (snapshot_spec H e s upToSeq blob complete).mono fun e' he => ?_
    obtain hq | ⟨_, hq | hq⟩ := he
    · exact hq.moves
    · exact (Move.down hon).one.quiet hq
    · exact (moves_resumed hon upToSeq).quiet hq
  | snapshotRequest ask => exact ends_pure (snapshotRequest_moves hon ask)

theorem handleServerBytes_moves (e : Engine) (mint : PushId) (bytes : Option (ServerFrame Blob))
    (s : Disk) : Ends (Moves e) (e.handleServerBytes H mint bytes) s := by
  unfold Engine.handleServerBytes
  split
  · exact ends_pure (.single (.emit e _))
  · rename_i hst
    split
    · exact ends_pure (.single (.emit e _))
    · exact handleServerFrame_moves (isOnline_iff.2 hst) mint _ s

theorem flush_moves (e : Engine) (mint : PushId) (s : Disk) :
    Ends (Moves e) (e.flush H mint) s := by
  refine (flush_spec H e s mint).mono fun e' he => ?_
  rcases he with hp | ⟨hst, rfl⟩
  · exact hp.moves
  · exact .single (.goto (isOnline_iff.2 (by simp [hst])) (by simp))

end Moves

/-! ## What moves keep -/

section Kept

variable {e e' : Engine}

theorem Move.cursors (h : Move e e') :
    e'.lastDurableSeq = e.lastDurableSeq ∧ e'.lastSentAck = e.lastSentAck ∧
      e'.queuedAcks = e.queuedAcks ∧ e.lastContiguousSeq ≤ e'.lastContiguousSeq := by
  cases h with
  | quiet hq => exact ⟨hq.durable, hq.sentAck, hq.queued, hq.contiguous.ge⟩
  | events evs => exact ⟨rfl, rfl, rfl, le_rfl⟩
  | send hon hf => exact ⟨rfl, rfl, rfl, le_rfl⟩
  | goto hon hst => exact ⟨rfl, rfl, rfl, le_rfl⟩
  | @ingest n hon =>
    unfold Engine.ingestSeq
    split
    · rename_i hn
      exact ⟨rfl, rfl, rfl, by dsimp only; omega⟩
    · exact ⟨rfl, rfl, rfl, le_rfl⟩
  | raise hon hn => exact ⟨rfl, rfl, rfl, hn⟩
  | down hon => exact ⟨rfl, rfl, rfl, le_rfl⟩

/-- The durable cursor and the acks are not touched, and the cursor of the stream only grows. -/
theorem Moves.cursors (h : Moves e e') :
    e'.lastDurableSeq = e.lastDurableSeq ∧ e'.lastSentAck = e.lastSentAck ∧
      e'.queuedAcks = e.queuedAcks ∧ e.lastContiguousSeq ≤ e'.lastContiguousSeq := by
  induction h with
  | refl => exact ⟨rfl, rfl, rfl, le_rfl⟩
  | tail _ hm ih =>
    obtain ⟨hd, hs, hq, hc⟩ := ih
    obtain ⟨hd', hs', hq', hc'⟩ := hm.cursors
    exact ⟨hd'.trans hd, hs'.trans hs, hq'.trans hq, hc.trans hc'⟩

/-- Plain frames have been queued, and only online. -/
def Queued (e e' : Engine) : Prop :=
  e'.isOnline = e.isOnline ∧
    ∃ fs, (∀ f ∈ fs, Plainly f) ∧ e'.outbox = e.outbox ++ fs ∧ (e.isOnline = false → fs = [])

/-- The engine has gone down, with an empty outbox. -/
def WentDown (e e' : Engine) : Prop :=
  e.isOnline = true ∧ e'.isOnline = false ∧ e'.outbox = []

theorem Queued.of_eq (hon : e'.isOnline = e.isOnline) (hout : e'.outbox = e.outbox) :
    Queued e e' :=
  ⟨hon, [], by simp, by simp [hout], fun _ => rfl⟩

theorem Move.outbox (h : Move e e') : Queued e e' ∨ WentDown e e' := by
  cases h with
  | quiet hq => exact .inl (.of_eq hq.isOnline hq.outbox)
  | events evs => exact .inl (.of_eq rfl rfl)
  | @send f hon hf =>
    refine .inl ⟨rfl, [f], by simpa using hf, rfl, fun hoff => ?_⟩
    rw [hon] at hoff
    exact absurd hoff (by simp)
  | goto hon hst => exact .inl (.of_eq (by rw [hon, isOnline_iff]; exact hst) rfl)
  | @ingest n hon =>
    refine .inl (.of_eq (by rw [Engine.isOnline, Engine.isOnline, ingestSeq_state]) ?_)
    unfold Engine.ingestSeq
    split <;> rfl
  | raise hon hn => exact .inl (.of_eq rfl rfl)
  | down hon => exact .inr ⟨hon, rfl, rfl⟩

/-- What moves do to the outbox. -/
theorem Moves.outbox (h : Moves e e') : Queued e e' ∨ WentDown e e' := by
  induction h with
  | refl => exact .inl (.of_eq rfl rfl)
  | tail _ hm ih =>
    rcases ih with ⟨hon, fs, hfs, hout, hoff⟩ | ⟨hon, hdown, hempty⟩
    · rcases hm.outbox with ⟨hon', fs', hfs', hout', hoff'⟩ | ⟨hon', hdown', hempty'⟩
      · refine .inl ⟨hon'.trans hon, fs ++ fs', ?_, ?_, ?_⟩
        · intro f hf
          exact (List.mem_append.1 hf).elim (hfs f) (hfs' f)
        · rw [hout', hout, List.append_assoc]
        · intro h
          rw [hoff h, hoff' (hon.trans h), List.append_nil]
      · exact .inr ⟨hon ▸ hon', hdown', hempty'⟩
    · rcases hm.outbox with ⟨hon', fs', _, hout', hoff'⟩ | ⟨hon', _, _⟩
      · refine .inr ⟨hon, hon'.trans hdown, ?_⟩
        rw [hout', hempty, hoff' hdown]
        rfl
      · rw [hdown] at hon'
        exact absurd hon' (by simp)

end Kept

/-! ## Steps -/

section Steps

variable {H} {h h' : Host} {l : HostStep}

/-- The calls that are nothing but moves. -/
def HostCall.inMiddle : HostCall → Bool
  | .notifyOplogDurable _ | .handleConnected | .popOutbox => false
  | _ => true

theorem program_moves {c : HostCall} (hc : c.inMiddle = true) (e : Engine) (s : Disk) :
    Ends (Moves e) (c.program H e) s := by
  cases c with
  | commit o => exact ends_pure (Quiet.moves (.of_eq rfl rfl rfl rfl rfl rfl rfl rfl))
  | captureLocalOps => exact ends_map (captureLocalOps_quiet H e s) fun _ hq => hq.moves
  | snapshotIfWalExceeds maxRows maxBytes =>
    exact ends_map (snapshotIfWalExceeds_quiet H e s maxRows maxBytes) fun _ hq => hq.moves
  | forceSnapshot => exact ends_map (forceSnapshot_quiet H e s) fun _ hq => hq.moves
  | notifyOplogDurable seq => exact absurd hc (by simp [HostCall.inMiddle])
  | handleConnected => exact absurd hc (by simp [HostCall.inMiddle])
  | handleDisconnected =>
    refine ends_pure ?_
    unfold Engine.handleDisconnected
    split
    · exact .refl
    · rename_i hst
      exact .single (.down (isOnline_iff.2 hst))
  | handleTimeout =>
    refine ends_pure ?_
    unfold Engine.handleTimeout
    split
    · exact .single (.emit e _)
    · exact .refl
  | handleServerBytes bytes mint => exact handleServerBytes_moves e mint bytes s
  | flush mint => exact flush_moves e mint s
  | popOutbox => exact absurd hc (by simp [HostCall.inMiddle])
  | popEvent => exact ends_pure (.single (.events e _))

theorem queueAckIfAdvanced_quiet {e e' : Engine} (hq : Quiet e e') :
    Quiet e.queueAckIfAdvanced e'.queueAckIfAdvanced := by
  unfold Engine.queueAckIfAdvanced
  rw [hq.sentAck, hq.durable]
  split
  · refine ⟨hq.state, hq.contiguous, hq.durable, rfl, ?_, ?_, hq.gap, hq.pulled⟩
    · exact congrArg (· ++ [ClientFrame.ack e.lastDurableSeq]) hq.outbox
    · exact congrArg (· ++ [e.lastDurableSeq]) hq.queued
  · exact hq

theorem queueAckIfAdvanced_isOnline (e : Engine) :
    e.queueAckIfAdvanced.isOnline = e.isOnline := by
  unfold Engine.queueAckIfAdvanced
  split <;> rfl

theorem queueAckIfAdvanced_outbox (e : Engine) :
    ∃ fs, e.queueAckIfAdvanced.outbox = e.outbox ++ fs := by
  unfold Engine.queueAckIfAdvanced
  split
  · exact ⟨_, rfl⟩
  · exact ⟨[], by simp⟩

/-- A durable notice advances the cursor and queues its ack, or nothing shows. -/
theorem notifyOplogDurable_spec (e : Engine) (seq : ℕ) (s : Disk) :
    Ends (fun e' => if e.lastDurableSeq < min seq e.lastContiguousSeq
        then Quiet { e with lastDurableSeq := min seq e.lastContiguousSeq }.queueAckIfAdvanced e'
        else e' = e) (e.notifyOplogDurable seq) s := by
  unfold Engine.notifyOplogDurable
  dsimp only
  split
  · refine ends_call (ends_pure ?_) fun _ _ => ends_pure ?_
    · exact queueAckIfAdvanced_quiet (.report _ _)
    · exact .refl _
  · exact ends_pure rfl

/-- What a method leaves, whatever fails: the store is the one its calls left. -/
theorem engine_of_ends {Q : Engine → Prop} (hs : h.step H l = some h')
    (hends : Ends Q (l.call.program H h.engine) h.disk) : Q h'.engine := by
  rw [← Option.some.inj hs]
  exact Program.run_of_wp_true hends l.outcomes

theorem step_log (hs : h.step H l = some h') :
    h'.log = h.log ++ l.call.marks h.engine h'.engine := by
  rw [← Option.some.inj hs]

theorem step_seed (hs : h.step H l = some h') : h'.seed = h.seed := by
  rw [← Option.some.inj hs]

/-- The marks of a call other than a pop. -/
theorem marks_eq {c : HostCall} (hc : c ≠ .popOutbox) (e e' : Engine) :
    c.marks e e' = if e.isOnline = e'.isOnline then []
      else if e'.isOnline then [.connected] else [SocketMark.disconnected] := by
  cases c <;> first | rfl | exact absurd rfl hc

/-- **What a step can do.** -/
theorem step_cases (hs : h.step H l = some h') :
    (l.call = .popOutbox ∧ ∃ f, h.engine.outbox = f :: h'.engine.outbox ∧
        h'.engine = { h.engine with outbox := h.engine.outbox.tail } ∧
        h'.log = h.log ++ [SocketMark.popped f]) ∨
    (l.call = .handleConnected ∧ h.engine.isOnline = false ∧
        h'.engine = h.engine.handleConnected ∧ h'.log = h.log ++ [SocketMark.connected]) ∨
    (∃ n, l.call = .notifyOplogDurable n ∧
        h.engine.lastDurableSeq < min n h.engine.lastContiguousSeq ∧
        Quiet { h.engine with
          lastDurableSeq := min n h.engine.lastContiguousSeq }.queueAckIfAdvanced h'.engine ∧
        h'.log = h.log) ∨
    (Moves h.engine h'.engine ∧ h'.log = h.log ++
        if h.engine.isOnline = h'.engine.isOnline then [] else [SocketMark.disconnected]) := by
  have hlog := step_log hs
  have hrun (c : HostCall) (hc : l.call = c) :
      h'.engine = ((c.program H h.engine).run act l.outcomes h.disk).2 := by
    rw [← Option.some.inj hs, ← hc]
  have hmoves (hm : Moves h.engine h'.engine) (hc : l.call ≠ .popOutbox) :
      h'.log = h.log ++
        if h.engine.isOnline = h'.engine.isOnline then [] else [SocketMark.disconnected] := by
    rw [hlog, marks_eq hc]
    rcases hm.outbox with hq | hd
    · rw [if_pos hq.1.symm, if_pos hq.1.symm]
    · rw [hd.1, hd.2.1]
      simp
  cases hc : l.call with
  | popOutbox =>
    have he := hrun _ hc
    cases hout : h.engine.outbox with
    | nil =>
      have hq : Quiet h.engine h'.engine := by
        rw [he]
        exact .of_eq rfl rfl rfl rfl (by simp [HostCall.program, Program.run, hout]) rfl rfl rfl
      refine .inr (.inr (.inr ⟨hq.moves, ?_⟩))
      rw [hlog, hc, hq.isOnline]
      simp [HostCall.marks, hout]
    | cons f rest =>
      refine .inl ⟨rfl, f, ?_, ?_, ?_⟩
      · rw [he]
        simp [HostCall.program, Program.run, hout]
      · rw [he, ← hout]
        rfl
      · rw [hlog, hc]
        simp [HostCall.marks, hout]
  | handleConnected =>
    have he : h'.engine = h.engine.handleConnected := hrun _ hc
    by_cases hst : h.engine.state = .disconnected
    · have hoff : h.engine.isOnline = false := by simp [Engine.isOnline, hst]
      have hon : h'.engine.isOnline = true := by
        rw [he, Engine.handleConnected, if_pos hst]
        rfl
      refine .inr (.inl ⟨rfl, hoff, he, ?_⟩)
      rw [hlog, hc, marks_eq (by simp), hoff, hon]
      rfl
    · have hm : Moves h.engine h'.engine := by
        rw [he, Engine.handleConnected, if_neg hst]
        exact .single (.emit _ _)
      exact .inr (.inr (.inr ⟨hm, hmoves hm (by simp [hc])⟩))
  | notifyOplogDurable n =>
    have he := Program.run_of_wp_true (notifyOplogDurable_spec h.engine n h.disk) l.outcomes
    have hend : ((h.engine.notifyOplogDurable n).run act l.outcomes h.disk).2 = h'.engine :=
      (hrun _ hc).symm
    rw [hend] at he
    split at he
    · rename_i hlt
      have hon : h'.engine.isOnline = h.engine.isOnline := by
        rw [he.isOnline, queueAckIfAdvanced_isOnline]
        rfl
      refine .inr (.inr (.inl ⟨n, rfl, hlt, he, ?_⟩))
      rw [hlog, marks_eq (by simp [hc]), hon]
      simp
    · have hm : Moves h.engine h'.engine := by
        rw [he]
      exact .inr (.inr (.inr ⟨hm, hmoves hm (by simp [hc])⟩))
  | _ =>
    have hm := engine_of_ends hs (program_moves (by rw [hc]; rfl) h.engine h.disk)
    exact .inr (.inr (.inr ⟨hm, hmoves hm (by simp [hc])⟩))

end Steps

end Monoplan.Client
