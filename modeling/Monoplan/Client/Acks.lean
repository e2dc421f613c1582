import Monoplan.Client.Opening

/-!
# The ack stream of one engine

The server compacts no row its subscribers have not acked, so an ack that is never sent pins its
horizon.  `queue_ack_if_advanced` queues each durable cursor once, and counts it as sent from
then on.

* `acks_in_order`: what is queued grows strictly and stays within the durable cursor, which stays
  within the contiguous one, in every run.
* `acks_arrive`: where the engine never goes down with an ack in its outbox (`KeepsAcks`),
  an idle engine with an empty outbox has had its durable cursor popped as an ack.
* `ack_lost`: where it does, the ack is gone: `go_disconnected` clears the outbox, and the cursor
  is not queued again.
-/

namespace Monoplan.Client

open Monoplan.Base Monoplan.Protocol

/-! ## Acks queued and acks popped -/

/-- The ack a frame carries. -/
def ackOf : ClientFrame Blob → Option ℕ
  | .ack n => some n
  | _ => none

/-- The acks of an outbox, in order. -/
def acksOf (fs : List (ClientFrame Blob)) : List ℕ := fs.filterMap ackOf

/-- The frame popped at a mark. -/
def SocketMark.frame : SocketMark → Option (ClientFrame Blob)
  | .popped f => some f
  | _ => none

/-- The acks popped so far, on any connection. -/
def Host.poppedAcks (h : Host) : List ℕ := acksOf (h.log.filterMap SocketMark.frame)

theorem acksOf_append (fs gs : List (ClientFrame Blob)) :
    acksOf (fs ++ gs) = acksOf fs ++ acksOf gs := List.filterMap_append

theorem acksOf_plain {fs : List (ClientFrame Blob)} (hfs : ∀ f ∈ fs, Plainly f) :
    acksOf fs = [] := by
  rw [acksOf, List.filterMap_eq_nil_iff]
  intro f hf
  cases f with
  | ack n => exact absurd rfl ((hfs _ hf).2 n)
  | _ => rfl

/-! ## Going down -/

/-- The step takes the engine down: the socket drops, the document is refused or closed, or a
snapshot of a bootstrap does not import or cannot be checkpointed. -/
def GoesDown (e : Engine) (l : HostStep) : Prop :=
  e.isOnline = true ∧
    match l.call with
    | .handleDisconnected => True
    | .handleServerBytes (some (.docRejected _)) _ => True
    | .handleServerBytes (some (.docClosed _)) _ => True
    | .handleServerBytes (some (.snapshot _ blob complete)) _ =>
      e.state = .bootstrapping ∧ (blob.ops = none ∨
        (complete = true ∧ (l.outcomes.headD true = false ∨ l.outcomes.tail.headD true = false)))
    | _ => False

section Down

variable {H : History} {h h' : Host} {l : HostStep}

theorem Pushed.isOnline {e e' : Engine} (hp : Pushed e e') : e'.isOnline = e.isOnline := by
  rcases hp with hq | ⟨hidle, p, hq⟩
  · exact hq.isOnline
  · rw [hq.isOnline, Engine.isOnline, Engine.isOnline, hidle]
    rfl

/-- A snapshot takes the engine down only in the ways `GoesDown` names. -/
theorem snapshot_run_offline (e : Engine) (upToSeq : ℕ) (blob : Blob) (complete : Bool)
    (outcomes : List Bool) (s : Disk)
    (hoff : ((e.snapshot H upToSeq blob complete).run act outcomes s).2.isOnline = false)
    (hon : e.isOnline = true) :
    e.state = .bootstrapping ∧ (blob.ops = none ∨
      (complete = true ∧ (outcomes.headD true = false ∨ outcomes.tail.headD true = false))) := by
  have hne : e.state ≠ .disconnected := isOnline_iff.1 hon
  by_cases hboot : e.state = .bootstrapping
  · refine ⟨hboot, ?_⟩
    cases hops : blob.ops with
    | none => exact .inl rfl
    | some ops =>
      refine .inr ?_
      by_contra hno
      rw [Engine.snapshot, if_pos hboot] at hoff
      simp only [Doc.applyRemoteBatch, Doc.importRemoteBlob, hops, Option.map_some] at hoff
      cases complete with
      | false => exact absurd hoff (by simp [Program.run, Engine.isOnline, hne])
      | true =>
        simp only [true_and, not_or, Bool.not_eq_false] at hno
        simp only [if_true, Program.run, hno.1, hno.2] at hoff
        rw [(checkpointed_quiet H _ upToSeq).isOnline] at hoff
        exact absurd hoff (by simp [Engine.resumed, Engine.send, Engine.isOnline])
  · rw [Engine.snapshot, if_neg hboot] at hoff
    have hq : e.isOnline = false := hoff
    rw [hon] at hq
    exact absurd hq (by simp)

theorem handleServerFrame_run_offline (e : Engine) (mint : PushId) (f : ServerFrame Blob)
    (outcomes : List Bool) (s : Disk)
    (hoff : ((e.handleServerFrame H mint f).run act outcomes s).2.isOnline = false)
    (hon : e.isOnline = true) :
    GoesDown e ⟨.handleServerBytes (some f) mint, outcomes⟩ := by
  refine ⟨hon, ?_⟩
  have hstays {p : Run Engine} (hp : Ends (fun e' => e'.isOnline = true) p s)
      (hoff : (p.run act outcomes s).2.isOnline = false) : False := by
    have hrun : (p.run act outcomes s).2.isOnline = true := Program.run_of_wp_true hp outcomes
    rw [hoff] at hrun
    exact absurd hrun (by simp)
  cases f with
  | docOpened epoch =>
    refine hstays (ends_pure ?_) hoff
    unfold Engine.docOpened
    split
    · rfl
    · exact hon
  | docRejected reason => trivial
  | docClosed reason => trivial
  | presence accounts => exact hstays (ends_pure hon) hoff
  | updatesBatch us complete =>
    refine hstays ?_ hoff
    by_cases hboot : e.state = .bootstrapping
    · show Ends _ (e.updatesBatch H us complete mint) s
      rw [Engine.updatesBatch, if_pos hboot]
      exact ends_pure hon
    · refine (updatesBatch_spec H e s us complete mint hboot).mono fun e' he => ?_
      split at he
      · rw [he.isOnline]
        rfl
      · rw [he.isOnline, isOnline_iff, took_state]
        exact isOnline_iff.1 hon
  | updatesBroadcast us =>
    refine hstays ?_ hoff
    show Ends _ (e.updatesBroadcast us) s
    unfold Engine.updatesBroadcast
    split
    · exact ends_pure hon
    · refine (applyRemoteUpdates_spec e s us).mono fun e' hq => ?_
      rw [hq.isOnline, isOnline_iff, took_state]
      exact isOnline_iff.1 hon
  | updatesAck acks =>
    refine hstays ?_ hoff
    refine (updatesAck_spec H e s acks mint).mono fun e' he => ?_
    obtain ⟨_, n, _, hp⟩ | ⟨_, hq | ⟨_, hq⟩⟩ := he
    · rw [hp.isOnline]
      rfl
    · rw [hq.isOnline, hon]
    · rw [hq.isOnline]
      rfl
  | snapshotRequired upToSeq =>
    refine hstays (ends_pure ?_) hoff
    unfold Engine.snapshotRequired
    split
    · rfl
    · exact hon
  | snapshot upToSeq blob complete =>
    exact snapshot_run_offline e upToSeq blob complete outcomes s hoff hon
  | snapshotRequest ask =>
    refine hstays (ends_pure ?_) hoff
    rcases snapshotRequest_spec H e ask with hq | ⟨snap, heq⟩
    · rw [hq.isOnline, hon]
    · rw [heq]
      exact hon

/-- **Nothing else takes the engine down.** -/
theorem goesDown_of_wentDown (hs : h.step H l = some h') (hd : WentDown h.engine h'.engine) :
    GoesDown h.engine l := by
  obtain ⟨hon, hoff, _⟩ := hd
  have hrun : ((l.call.program H h.engine).run act l.outcomes h.disk).2.isOnline = false := by
    rw [← Option.some.inj hs] at hoff
    exact hoff
  have hstays (hp : Ends (fun e' => e'.isOnline = true) (l.call.program H h.engine) h.disk) :
      GoesDown h.engine l := by
    have hend : ((l.call.program H h.engine).run act l.outcomes h.disk).2.isOnline = true :=
      Program.run_of_wp_true hp l.outcomes
    rw [hrun] at hend
    exact absurd hend (by simp)
  obtain ⟨c, outcomes⟩ := l
  cases c with
  | commit o => exact hstays (ends_pure hon)
  | captureLocalOps =>
    exact hstays (ends_map (captureLocalOps_quiet H _ _) fun _ hq => hq.isOnline.trans hon)
  | snapshotIfWalExceeds maxRows maxBytes =>
    exact hstays (ends_map (snapshotIfWalExceeds_quiet H _ _ _ _) fun _ hq => hq.isOnline.trans hon)
  | forceSnapshot =>
    exact hstays (ends_map (forceSnapshot_quiet H _ _) fun _ hq => hq.isOnline.trans hon)
  | notifyOplogDurable seq =>
    refine hstays ((notifyOplogDurable_spec h.engine seq h.disk).mono fun e' he => ?_)
    split at he
    · rw [he.isOnline, queueAckIfAdvanced_isOnline]
      exact hon
    · rw [he, hon]
  | handleConnected =>
    refine hstays (ends_pure ?_)
    rw [Engine.handleConnected, if_neg (isOnline_iff.1 hon)]
    exact hon
  | handleDisconnected => exact ⟨hon, trivial⟩
  | handleTimeout =>
    refine hstays (ends_pure ?_)
    unfold Engine.handleTimeout
    split <;> exact hon
  | handleServerBytes bytes mint =>
    cases bytes with
    | none =>
      refine hstays ?_
      show Ends _ (h.engine.handleServerBytes H mint none) h.disk
      rw [Engine.handleServerBytes, if_neg (isOnline_iff.1 hon)]
      exact ends_pure hon
    | some f =>
      refine handleServerFrame_run_offline (H := H) h.engine mint f outcomes h.disk ?_ hon
      rw [HostCall.program, Engine.handleServerBytes, if_neg (isOnline_iff.1 hon)] at hrun
      exact hrun
  | flush mint =>
    refine hstays ((flush_spec H h.engine h.disk mint).mono fun e' he => ?_)
    rcases he with hp | ⟨_, rfl⟩
    · rw [hp.isOnline, hon]
    · rfl
  | popOutbox => exact hstays (ends_pure hon)
  | popEvent => exact hstays (ends_pure hon)

end Down

/-! ## The order of the acks -/

/-- The ack queue against the two cursors. -/
structure AckInv (h : Host) : Prop where
  sent : h.engine.lastSentAck = h.engine.lastDurableSeq
  within : h.engine.lastDurableSeq ≤ h.engine.lastContiguousSeq
  increasing : h.engine.queuedAcks.Pairwise (· < ·)
  bounded : ∀ n ∈ h.engine.queuedAcks, n ≤ h.engine.lastDurableSeq
  last : h.engine.lastDurableSeq ∈ h.engine.queuedAcks ∨
    (h.engine.queuedAcks = [] ∧ h.engine.lastDurableSeq = h.seed)

variable {H : History} {h h' : Host} {l : HostStep}

theorem booted_cursors (h0 : h.Booted) :
    h.engine.lastSentAck = h.seed ∧ h.engine.lastDurableSeq = h.seed ∧
      h.engine.lastContiguousSeq = h.seed ∧ h.engine.queuedAcks = [] := by
  obtain ⟨d, _, hd⟩ := Option.map_eq_some_iff.1 h0.1
  rw [← hd, h0.2.2]
  exact ⟨rfl, rfl, rfl, rfl⟩

theorem ackInv_of_booted (h0 : h.Booted) : AckInv h := by
  obtain ⟨hs, hd, hc, hq⟩ := booted_cursors h0
  refine ⟨by rw [hs, hd], by rw [hd, hc], ?_, ?_, .inr ⟨hq, hd⟩⟩
  · rw [hq]
    exact .nil
  · rw [hq]
    exact fun n hn => absurd hn (by simp)

/-- A notice that advances the durable cursor queues exactly that cursor. -/
theorem queueAckIfAdvanced_advance (hi : AckInv h) {n : ℕ} (hlt : h.engine.lastDurableSeq < n) :
    ({ h.engine with lastDurableSeq := n }.queueAckIfAdvanced) =
      { h.engine with
        lastDurableSeq := n, lastSentAck := n, outbox := h.engine.outbox ++ [ClientFrame.ack n],
        queuedAcks := h.engine.queuedAcks ++ [n] } := by
  rw [Engine.queueAckIfAdvanced, if_pos (by rw [hi.sent]; exact hlt)]
  rfl

theorem ackInv_keep (hi : AckInv h) (hd : h'.engine.lastDurableSeq = h.engine.lastDurableSeq)
    (hsent : h'.engine.lastSentAck = h.engine.lastSentAck)
    (hq : h'.engine.queuedAcks = h.engine.queuedAcks)
    (hc : h.engine.lastContiguousSeq ≤ h'.engine.lastContiguousSeq) (hseed : h'.seed = h.seed) :
    AckInv h' := by
  refine ⟨by rw [hsent, hd, hi.sent], by rw [hd]; exact hi.within.trans hc, by rw [hq]; exact
    hi.increasing, by rw [hq, hd]; exact hi.bounded, by rw [hq, hd, hseed]; exact hi.last⟩

theorem ackInv_step (hi : AckInv h) (hs : h.step H l = some h') : AckInv h' := by
  have hseed := step_seed hs
  obtain ⟨_, f, _, he, _⟩ | ⟨_, _, he, _⟩ | ⟨n, _, hlt, hq, _⟩ | ⟨hm, _⟩ := step_cases hs
  · exact ackInv_keep hi (by rw [he]) (by rw [he]) (by rw [he]) (by rw [he]) hseed
  · have hkeep : h'.engine.lastDurableSeq = h.engine.lastDurableSeq ∧
        h'.engine.lastSentAck = h.engine.lastSentAck ∧
        h'.engine.queuedAcks = h.engine.queuedAcks ∧
        h'.engine.lastContiguousSeq = h.engine.lastContiguousSeq := by
      rw [he]
      unfold Engine.handleConnected
      split <;> exact ⟨rfl, rfl, rfl, rfl⟩
    exact ackInv_keep hi hkeep.1 hkeep.2.1 hkeep.2.2.1 hkeep.2.2.2.ge hseed
  · rw [queueAckIfAdvanced_advance hi hlt] at hq
    have hd := hq.durable
    have hqueued := hq.queued
    refine ⟨hq.sentAck.trans hd.symm, ?_, ?_, ?_, .inl ?_⟩
    · rw [hd, hq.contiguous]
      exact Nat.min_le_right _ _
    · rw [hqueued, List.pairwise_append]
      refine ⟨hi.increasing, List.pairwise_singleton _ _, fun a ha b hb => ?_⟩
      rw [List.mem_singleton.1 hb]
      exact (hi.bounded a ha).trans_lt hlt
    · rw [hqueued, hd]
      intro a ha
      rcases List.mem_append.1 ha with ha | ha
      · exact (hi.bounded a ha).trans hlt.le
      · rw [List.mem_singleton.1 ha]
    · rw [hqueued, hd]
      exact List.mem_append_right _ (List.mem_singleton.2 rfl)
  · obtain ⟨hd, hsent, hq, hc⟩ := hm.cursors
    exact ackInv_keep hi hd hsent hq hc hseed

theorem ackInv {ok : Host → HostStep → Prop} (hr : (hosting H).Reach ok h) : AckInv h := by
  apply hr.invariant
  · exact fun _ h0 => ackInv_of_booted h0
  · exact fun _ _ _ _ hi _ hs => ackInv_step hi hs

/-- **The acks are queued in order**, each once, within the cursors. -/
theorem acks_in_order (hr : (hosting H).Reachable h) :
    h.engine.queuedAcks.Pairwise (· < ·) ∧
      (∀ n ∈ h.engine.queuedAcks, n ≤ h.engine.lastDurableSeq) ∧
      h.engine.lastDurableSeq ≤ h.engine.lastContiguousSeq :=
  ⟨(ackInv hr).increasing, (ackInv hr).bounded, (ackInv hr).within⟩

/-! ## No ack is lost -/

/-- The engine does not go down with an ack in its outbox. -/
def KeepsAcks (h : Host) (l : HostStep) : Prop :=
  GoesDown h.engine l → acksOf h.engine.outbox = []

/-- Every ack ever queued has been popped or is still in the outbox. -/
def AcksKept (h : Host) : Prop :=
  h.engine.queuedAcks = h.poppedAcks ++ acksOf h.engine.outbox

theorem poppedAcks_append {fs : List SocketMark} (hlog : h'.log = h.log ++ fs) :
    h'.poppedAcks = h.poppedAcks ++ acksOf (fs.filterMap SocketMark.frame) := by
  rw [Host.poppedAcks, hlog, List.filterMap_append, acksOf_append]
  rfl

theorem acksKept_step (hinv : AckInv h) (hk : AcksKept h) (hok : KeepsAcks h l)
    (hs : h.step H l = some h') : AcksKept h' := by
  unfold AcksKept at hk ⊢
  obtain ⟨_, f, hout, he, hlog⟩ | ⟨_, _, he, hlog⟩ | ⟨n, _, hlt, hq, hlog⟩ | ⟨hm, hlog⟩ :=
    step_cases hs
  · -- The frame moves from the outbox to the socket.
    have hpop : acksOf h.engine.outbox = acksOf [f] ++ acksOf h'.engine.outbox := by
      rw [hout, ← acksOf_append]
      rfl
    rw [poppedAcks_append hlog, List.append_assoc]
    show _ = h.poppedAcks ++ (acksOf [f] ++ _)
    rw [← hpop, ← hk, he]
  · have hconn : h'.engine.queuedAcks = h.engine.queuedAcks ∧
        acksOf h'.engine.outbox = acksOf h.engine.outbox := by
      rw [he]
      unfold Engine.handleConnected
      split
      · refine ⟨rfl, ?_⟩
        show acksOf (h.engine.outbox ++ [ClientFrame.openDoc]) = _
        rw [acksOf_append]
        exact List.append_nil _
      · exact ⟨rfl, rfl⟩
    rw [poppedAcks_append hlog, hconn.1, hconn.2, hk]
    simp [acksOf, SocketMark.frame]
  · rw [queueAckIfAdvanced_advance hinv hlt] at hq
    rw [hq.queued, hq.outbox, acksOf_append, Host.poppedAcks, hlog, ← List.append_assoc]
    show _ = h.poppedAcks ++ acksOf h.engine.outbox ++ [_]
    rw [← hk]
  · have hpopped : h'.poppedAcks = h.poppedAcks := by
      rw [poppedAcks_append hlog]
      split <;> simp [acksOf, SocketMark.frame]
    rw [hm.cursors.2.2.1, hpopped]
    rcases hm.outbox with ⟨_, fs, hfs, hout, _⟩ | hd
    · rw [hout, acksOf_append, acksOf_plain hfs, List.append_nil, ← hk]
    · rw [hd.2.2, hk, hok (goesDown_of_wentDown hs hd)]
      rfl

theorem acksKept (hr : (hosting H).Reach KeepsAcks h) : AcksKept h := by
  apply hr.invariant
  · intro h h0
    obtain ⟨_, _, _, hq⟩ := booted_cursors h0
    rw [AcksKept, hq, Host.poppedAcks, h0.2.1, (booted_offline h0).2]
    rfl
  · exact fun _ _ _ hr hi hok hs => acksKept_step (ackInv hr) hi hok hs

/-- **No ack is lost.**  In every run in which the engine never goes down with an ack in its
outbox: the acks it queues grow strictly and stay within the durable cursor, which stays within
the contiguous one; and once the engine is idle with an empty outbox, the highest ack popped is
the durable cursor, unless nothing has become durable. -/
theorem acks_arrive (hr : (hosting H).Reach KeepsAcks h) :
    (h.engine.queuedAcks.Pairwise (· < ·) ∧
      (∀ n ∈ h.engine.queuedAcks, n ≤ h.engine.lastDurableSeq) ∧
      h.engine.lastDurableSeq ≤ h.engine.lastContiguousSeq) ∧
    (h.engine.state = .idle → h.engine.outbox = [] →
      (h.engine.lastDurableSeq ∈ h.poppedAcks ∧
        ∀ n ∈ h.poppedAcks, n ≤ h.engine.lastDurableSeq) ∨
      h.engine.lastDurableSeq = h.seed) := by
  have hinv := ackInv hr
  refine ⟨⟨hinv.increasing, hinv.bounded, hinv.within⟩, fun _ hout => ?_⟩
  have hkept := acksKept hr
  rw [AcksKept, hout] at hkept
  have hpopped : h.engine.queuedAcks = h.poppedAcks := by
    rw [hkept]
    exact List.append_nil _
  rw [← hpopped]
  rcases hinv.last with hlast | ⟨_, hseed⟩
  · exact .inl ⟨hlast, hinv.bounded⟩
  · exact .inr hseed

/-! ## A dropped ack -/

/-- The test of `KeepsAcks` a run is checked with. -/
def keepsAcksb (h : Host) (l : HostStep) : Bool :=
  match l.call with
  | .handleDisconnected | .handleServerBytes _ _ => decide (acksOf h.engine.outbox = [])
  | _ => true

theorem keepsAcksb_sound (h : Host) (l : HostStep) (hb : keepsAcksb h l = true) :
    KeepsAcks h l := by
  rintro ⟨_, hdown⟩
  obtain ⟨c, outcomes⟩ := l
  cases c with
  | handleDisconnected => exact of_decide_eq_true hb
  | handleServerBytes bytes mint => exact of_decide_eq_true hb
  | _ => exact absurd hdown (by simp)

theorem acks_arrive_pullAndAck :
    ∃ h, (hosting History.byPeer).Reach KeepsAcks h ∧ h.poppedAcks = [1] ∧
      h.engine.state = .idle ∧ h.engine.outbox = [] ∧ h.engine.lastDurableSeq = 1 ∧
      ((h.engine.lastDurableSeq ∈ h.poppedAcks ∧
        ∀ n ∈ h.poppedAcks, n ≤ h.engine.lastDurableSeq) ∨
      h.engine.lastDurableSeq = h.seed) := by
  have hrun : ((hosting History.byPeer).exec freshHost pullAndAck).map
      (fun h => (h.poppedAcks, h.engine.state, h.engine.outbox, h.engine.lastDurableSeq)) =
        some ([1], .idle, [], 1) := by
    decide
  have hok : (hosting History.byPeer).allStepsb keepsAcksb freshHost pullAndAck = true := by
    decide
  obtain ⟨h, hs, hend⟩ := Option.map_eq_some_iff.1 hrun
  simp only [Prod.mk.injEq] at hend
  obtain ⟨hpopped, hst, hout, hdur⟩ := hend
  have hreach : (hosting History.byPeer).Reach KeepsAcks h :=
    Machine.Reach.exec (.init freshHost_booted)
      (Machine.allSteps_of_allStepsb keepsAcksb_sound hok) hs
  exact ⟨h, hreach, hpopped, hst, hout, hdur, (acks_arrive hreach).2 hst hout⟩

/-- The socket drops between the notice and the next pop; the next connection pulls to its
end. -/
def droppedAck : List HostStep :=
  [⟨.handleConnected, []⟩, ⟨.popOutbox, []⟩,
    ⟨.handleServerBytes (some (.docOpened 1)) 0, []⟩, ⟨.popOutbox, []⟩,
    ⟨.handleServerBytes (some (.updatesBatch [⟨1, History.byPeer.seal (.updates ∅)⟩] true)) 0, []⟩,
    ⟨.notifyOplogDurable 1, []⟩, ⟨.handleDisconnected, []⟩, ⟨.handleConnected, []⟩,
    ⟨.popOutbox, []⟩, ⟨.handleServerBytes (some (.docOpened 1)) 0, []⟩, ⟨.popOutbox, []⟩,
    ⟨.handleServerBytes (some (.updatesBatch [] true)) 0, []⟩]

/-- **An ack can be lost.**  Update `1` is durable and the engine idle with an empty outbox, and
no ack was ever popped. -/
theorem ack_lost :
    ∃ h, (hosting History.byPeer).Reachable h ∧ h.engine.state = .idle ∧ h.engine.outbox = [] ∧
      h.engine.lastDurableSeq = 1 ∧ h.seed = 0 ∧ h.poppedAcks = [] := by
  have hrun : ((hosting History.byPeer).exec freshHost droppedAck).map
      (fun h => (h.engine.state, h.engine.outbox, h.engine.lastDurableSeq, h.seed,
        h.poppedAcks)) = some (.idle, [], 1, 0, []) := by
    decide
  obtain ⟨h, hs, hend⟩ := Option.map_eq_some_iff.1 hrun
  simp only [Prod.mk.injEq] at hend
  exact ⟨h, Machine.reach_of_exec freshHost_booted hs, hend⟩

end Monoplan.Client
