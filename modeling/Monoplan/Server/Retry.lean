import Monoplan.Server.Ws

/-!
# Retried pushes

A client mints one id for a push, keeps it until the push is acked, and sends the push again
under the same id after every reconnect.  The server recognises the id by the inserted row, and
compaction deletes rows.

* `pushing` is the server together with the pushes its devices have in flight, and the rows it
  ever inserted.
* `pushes_once`: if compaction never deletes a row whose push is still in flight at its device
  (`InFlightKept`), a push has one number over the whole history.
* `pushed_twice`: a device can ack its own row before its retry is handled; the row goes, and
  the retry is inserted under a second number.
-/

namespace Monoplan.Server

open Monoplan.Base Monoplan.Protocol

variable {β : Type*}

/-! ## What a step does to the update log -/

section Updates

variable {w w' : World β} {c : ConnId} {s : Session β}

theorem dropDoc_db (w : World β) (c : ConnId) (s : Session β) : (w.dropDoc c s).db = w.db := by
  unfold World.dropDoc
  split <;> rfl

theorem releaseLease_db (w : World β) (s : Session β) : (w.releaseLease s).db = w.db := by
  unfold World.releaseLease
  split <;> rfl

theorem handleFrame_updates (f : ClientFrame β) :
    (w.handleFrame c s f).db.updates = w.db.updates ∨
      ∃ us, f = .pushUpdates us ∧
        (w.handleFrame c s f).db.updates = (w.db.insertUpdates s.auth.deviceId us).1.updates := by
  have hend : ∀ u : Session β, (w.endByError c u).db.updates = w.db.updates :=
    fun u => congrArg Db.updates (dropDoc_db w c _)
  cases f with
  | openDoc =>
    left
    simp only [World.handleFrame]
    split
    · rfl
    · exact hend _
  | pushUpdates us =>
    simp only [World.handleFrame]
    split
    · exact .inl (hend _)
    · unfold World.pushUpdates
      split
      · exact .inl rfl
      · exact .inr ⟨us, rfl, rfl⟩
  | pullUpdates since =>
    left
    simp only [World.handleFrame]
    split
    · exact hend _
    · unfold World.pullUpdates
      split
      · split <;> rfl
      · rfl
  | ack n =>
    left
    simp only [World.handleFrame]
    split
    · exact hend _
    · simp only [Db.advanceLastAckedSeq]
      split
      · rfl
      · split <;> rfl
  | pullSnapshot =>
    left
    simp only [World.handleFrame]
    split
    · exact hend _
    · rfl
  | pushSnapshot upload =>
    left
    simp only [World.handleFrame]
    split
    · exact hend _
    · unfold World.pushSnapshot
      split
      · rfl
      · split <;> rfl

theorem resume_updates [WireSize β] {cfg : SnapshotConfig} (hstep : w.resume cfg c s = some w') :
    w'.db.updates = w.db.updates := by
  unfold World.resume at hstep
  cases hpc : s.pc <;> simp only [hpc, Option.some.injEq, reduceCtorEq] at hstep <;> subst hstep
  case opening => rfl
  case subscribing epoch =>
    unfold World.subscribe
    split <;> rfl
  case committed inserted =>
    unfold World.broadcast
    split
    · exact congrArg Db.updates (dropDoc_db w c _)
    · rfl
  case evaluating after stage => cases stage <;> cases after <;> rfl
  case requesting decision => rfl
  case pulling cursor =>
    simp only [World.pullBatch]
    split <;> rfl
  case storing upload grant =>
    unfold World.storeSnapshot Db.insertSnapshot
    split
    · rfl
    · rename_i db hdb
      split at hdb
      · rw [Option.some.injEq] at hdb
        have hup := congrArg Db.updates hdb.symm
        exact hup
      · cases hdb

theorem deliver_updates {o : OpenDoc} (hstep : w.deliver c s o = some w') :
    w'.db.updates = w.db.updates := by
  unfold World.deliver at hstep
  split at hstep
  · split at hstep
    · cases hstep
    · rw [← Option.some.inj hstep, World.endByError, dropDoc_db]
  · split at hstep
    · rw [← Option.some.inj hstep]
      rfl
    · rw [← Option.some.inj hstep, World.unbindDoc, dropDoc_db, releaseLease_db]
    · rw [← Option.some.inj hstep, World.unbindDoc, dropDoc_db, releaseLease_db]

/-- **What a step does to the update log.**  It leaves it, or it inserts a push that came in, or
it compacts. -/
theorem step_updates [WireSize β] {cfg : SnapshotConfig} {l : Label β}
    (hstep : World.step cfg w l = some w') :
    w'.db.updates = w.db.updates ∨
    (∃ c s us, l = .recv c (.pushUpdates us) ∧ w.sessions c = some s ∧
      w'.db.updates = (w.db.insertUpdates s.auth.deviceId us).1.updates) ∨
    (l = .compact ∧ w'.db = w.db.compactDoc) := by
  cases l <;> simp only [World.step] at hstep
  case connect c auth =>
    split at hstep
    · cases hstep
    · split at hstep
      · rw [← Option.some.inj hstep]
        exact .inl rfl
      · cases hstep
  case recv c f =>
    split at hstep
    · rename_i s hs
      split at hstep
      · rw [← Option.some.inj hstep]
        rcases handleFrame_updates (w := w) (c := c) (s := s.record [.received f]) f with
          hsame | ⟨us, rfl, hins⟩
        · exact .inl hsame
        · exact .inr (.inl ⟨c, s, us, rfl, hs, hins⟩)
      · cases hstep
    · cases hstep
  case resume c =>
    split at hstep
    · exact .inl (resume_updates hstep)
    · cases hstep
  case deliver c =>
    split at hstep
    · split at hstep
      · split at hstep
        · exact .inl (deliver_updates hstep)
        · cases hstep
      · cases hstep
    · cases hstep
  case close c =>
    split at hstep
    · split at hstep
      · rw [← Option.some.inj hstep, World.endLoop, dropDoc_db, releaseLease_db]
        exact .inl rfl
      · cases hstep
    · cases hstep
  case abort c =>
    split at hstep
    · split at hstep
      · cases hstep
      · cases hstep
      · rw [← Option.some.inj hstep, World.endByError, dropDoc_db]
        exact .inl rfl
    · cases hstep
  case compact =>
    split at hstep
    · cases hstep
    · rw [← Option.some.inj hstep]
      exact .inr (.inr ⟨rfl, rfl⟩)
  all_goals exact .inl (Option.some.inj hstep ▸ rfl)

end Updates

/-! ## The devices' side of a push -/

/-- The server, and what its devices know about their pushes. -/
structure Pushing (β : Type*) where
  world : World β
  /-- The push a device has persisted and not seen acked. -/
  inFlight : DeviceId → Option PushId
  /-- History: the ids every device ever minted. -/
  minted : List (DeviceId × PushId)
  /-- History: every row ever inserted. -/
  assigned : List (UpdateRow β)

inductive PushLabel (β : Type*)
  /-- A step of the server or its environment. -/
  | server (l : Label β)
  /-- `try_start_push` without a push in flight: a fresh id is minted and persisted. -/
  | start (device : DeviceId) (push : PushId)
  /-- The engine of the device behind `c` handles an ack of its push. -/
  | acked (c : ConnId) (push : PushId)
  deriving DecidableEq

namespace Pushing

/-- What an engine pushes: the one push it has in flight. -/
def conforms (s : Pushing β) : Label β → Bool
  | .recv c (.pushUpdates us) =>
    match s.world.sessions c with
    | none => false
    | some t =>
      match us, s.inFlight t.auth.deviceId with
      | [u], some p => decide (u.pushId = p)
      | _, _ => false
  | _ => true

/-- The ack of a push is among the frames sent. -/
def ackSent (push : PushId) (log : List (Event β)) : Bool :=
  log.any fun e =>
    match e with
    | .sent (.updatesAck acks) => acks.any fun a => decide (a.pushId = push)
    | _ => false

/-- The rows a step inserted: those numbered from the counter before it on. -/
def newRows (w w' : World β) : List (UpdateRow β) :=
  w'.db.updates.rows.filter fun r => decide (w.db.updates.nextSeq ≤ r.seq)

def step [WireSize β] (cfg : SnapshotConfig) (s : Pushing β) : PushLabel β → Option (Pushing β)
  | .server l =>
    if s.conforms l then
      (World.step cfg s.world l).map fun w =>
        { s with world := w, assigned := s.assigned ++ newRows s.world w }
    else none
  | .start d p =>
    if s.inFlight d = none ∧ (d, p) ∉ s.minted then
      some { s with
        inFlight := Function.update s.inFlight d (some p), minted := (d, p) :: s.minted }
    else none
  | .acked c p =>
    match s.world.sessions c with
    | none => none
    | some t =>
      if s.inFlight t.auth.deviceId = some p ∧ ackSent p t.log then
        some { s with inFlight := Function.update s.inFlight t.auth.deviceId none }
      else none

end Pushing

/-- **The server with its pushing devices** as a machine. -/
def pushing [WireSize β] (cfg : SnapshotConfig) : Machine (Pushing β) (PushLabel β) where
  init s := (server cfg).init s.world ∧ s.inFlight = (fun _ => none) ∧ s.minted = [] ∧
    s.assigned = []
  step := Pushing.step cfg

/-- Compaction deletes no row whose push its device still has in flight. -/
def InFlightKept (s : Pushing β) (l : PushLabel β) : Prop :=
  l = .server .compact → ∀ r ∈ s.world.db.updates.rows,
    r ∉ s.world.db.compactDoc.updates.rows → s.inFlight r.deviceId ≠ some r.pushId

/-! ## The invariant -/

/-- A push that is in flight and was inserted still has its row. -/
structure PushInv (s : Pushing β) : Prop where
  recorded : ∀ r ∈ s.world.db.updates.rows, r ∈ s.assigned
  minted : ∀ r ∈ s.assigned, (r.deviceId, r.pushId) ∈ s.minted
  once : ∀ r ∈ s.assigned, ∀ r' ∈ s.assigned, r.deviceId = r'.deviceId →
    r.pushId = r'.pushId → r.seq = r'.seq
  flight : ∀ d p, s.inFlight d = some p → (d, p) ∈ s.minted
  live : ∀ r ∈ s.assigned, s.inFlight r.deviceId = some r.pushId →
    r ∈ s.world.db.updates.rows

section PushInv

variable {s s' : Pushing β} {w : World β}

theorem newRows_eq_nil {v v' : World β}
    (h : ∀ r ∈ v'.db.updates.rows, r ∈ v.db.updates.rows) : Pushing.newRows v v' = [] := by
  rw [Pushing.newRows, List.filter_eq_nil_iff]
  intro r hr
  have := v.db.updates.seq_lt (h r hr)
  simp only [decide_eq_true_eq, not_le]
  exact this

/-- A step that inserts nothing and deletes nothing that is in flight. -/
theorem PushInv.kept (h : PushInv s)
    (hsub : ∀ r ∈ w.db.updates.rows, r ∈ s.world.db.updates.rows)
    (hlive : ∀ r ∈ s.world.db.updates.rows, s.inFlight r.deviceId = some r.pushId →
      r ∈ w.db.updates.rows) :
    PushInv { s with world := w, assigned := s.assigned ++ Pushing.newRows s.world w } := by
  rw [newRows_eq_nil hsub, List.append_nil]
  exact
    { recorded := fun r hr => h.recorded r (hsub r hr)
      minted := h.minted
      once := h.once
      flight := h.flight
      live := fun r hr hfl => hlive r (h.live r hr hfl) hfl }

/-- **A push comes in.**  Its row is there and it is recognised, or it was never inserted. -/
theorem PushInv.insert (h : PushInv s) {d : DeviceId} {u : PushBlob β}
    (hfl : s.inFlight d = some u.pushId)
    (hw : w.db.updates = (s.world.db.insertUpdates d [u]).1.updates) :
    PushInv { s with world := w, assigned := s.assigned ++ Pushing.newRows s.world w } := by
  cases hex : s.world.db.existingSeq d u.pushId with
  | some n =>
    have hsame : w.db.updates = s.world.db.updates := by
      rw [hw]
      simp [Db.insertUpdates, Db.insertUpdate, hex]
    exact h.kept (fun r hr => hsame ▸ hr) (fun r hr _ => hsame ▸ hr)
  | none =>
    -- a row of this push would still be there
    have hnever : ∀ r ∈ s.assigned, ¬ (r.deviceId = d ∧ r.pushId = u.pushId) := by
      rintro r hr ⟨hd, hp⟩
      have hrow := h.live r hr (by rw [hd, hp, hfl])
      rw [Db.existingSeq, Option.map_eq_none_iff, List.find?_eq_none] at hex
      exact hex r hrow (by simp [hd, hp])
    have hrows : w.db.updates.rows = s.world.db.updates.rows ++
        [⟨s.world.db.updates.nextSeq, s.world.db.epoch, d, u.pushId, u.blob⟩] := by
      rw [hw]
      simp [Db.insertUpdates, Db.insertUpdate, hex]
    have hnew : Pushing.newRows s.world w =
        [⟨s.world.db.updates.nextSeq, s.world.db.epoch, d, u.pushId, u.blob⟩] := by
      rw [Pushing.newRows, hrows, List.filter_append]
      have hnil : (s.world.db.updates.rows.filter fun r =>
          decide (s.world.db.updates.nextSeq ≤ r.seq)) = [] := by
        rw [List.filter_eq_nil_iff]
        intro r hr
        have := s.world.db.updates.seq_lt hr
        simp only [decide_eq_true_eq, not_le]
        exact this
      rw [hnil]
      simp
    rw [hnew]
    refine ⟨?_, ?_, ?_, h.flight, ?_⟩
    · intro r hr
      rw [hrows] at hr
      exact List.mem_append.2 ((List.mem_append.1 hr).imp_left (h.recorded r))
    · intro r hr
      rcases List.mem_append.1 hr with hr | hr
      · exact h.minted r hr
      · rw [List.mem_singleton] at hr
        subst hr
        exact h.flight d _ hfl
    · intro r hr r' hr' hd hp
      rcases List.mem_append.1 hr with hr | hr <;> rcases List.mem_append.1 hr' with hr' | hr'
      · exact h.once r hr r' hr' hd hp
      · rw [List.mem_singleton] at hr'
        subst hr'
        exact (hnever r hr ⟨hd, hp⟩).elim
      · rw [List.mem_singleton] at hr
        subst hr
        exact (hnever r' hr' ⟨hd.symm, hp.symm⟩).elim
      · rw [List.mem_singleton] at hr hr'
        rw [hr, hr']
    · intro r hr hrfl
      rw [hrows]
      exact List.mem_append.2 ((List.mem_append.1 hr).imp_left fun hr => h.live r hr hrfl)

variable [WireSize β] {cfg : SnapshotConfig} {l : PushLabel β}

/-- **One step** that deletes no row in flight keeps the invariant. -/
theorem PushInv.step (h : PushInv s) (hkept : InFlightKept s l)
    (hstep : Pushing.step cfg s l = some s') : PushInv s' := by
  cases l with
  | server l =>
    simp only [Pushing.step] at hstep
    split at hstep
    · rename_i hconf
      obtain ⟨w, hw, rfl⟩ := Option.map_eq_some_iff.1 hstep
      rcases step_updates hw with hsame | ⟨c, t, us, rfl, ht, hins⟩ | ⟨rfl, hcomp⟩
      · exact h.kept (fun r hr => hsame ▸ hr) (fun r hr _ => hsame ▸ hr)
      · simp only [Pushing.conforms, ht] at hconf
        split at hconf
        · rename_i u p hfl
          rw [decide_eq_true_eq] at hconf
          exact h.insert (by rw [hfl, hconf]) hins
        · cases hconf
      · refine h.kept ?_ ?_
        · intro r hr
          rw [hcomp, Db.compactDoc] at hr
          split at hr
          · exact hr
          · exact (List.mem_filter.1 hr).1
        · intro r hr hfl
          by_contra hgone
          rw [hcomp] at hgone
          exact hkept rfl r hr hgone hfl
    · cases hstep
  | start d p =>
    simp only [Pushing.step] at hstep
    split at hstep
    · rename_i hfresh
      rw [← Option.some.inj hstep]
      refine ⟨h.recorded, fun r hr => List.mem_cons_of_mem _ (h.minted r hr), h.once, ?_, ?_⟩
      · intro d' p' hfl
        by_cases hd : d' = d
        · subst hd
          simp only [Function.update_self, Option.some.injEq] at hfl
          exact hfl ▸ List.mem_cons_self
        · simp only [Function.update_of_ne hd] at hfl
          exact List.mem_cons_of_mem _ (h.flight d' p' hfl)
      · intro r hr hfl
        by_cases hd : r.deviceId = d
        · simp only [hd, Function.update_self, Option.some.injEq] at hfl
          exact (hfresh.2 (hd ▸ hfl ▸ h.minted r hr)).elim
        · simp only [Function.update_of_ne hd] at hfl
          exact h.live r hr hfl
    · cases hstep
  | acked c p =>
    simp only [Pushing.step] at hstep
    split at hstep
    · cases hstep
    · rename_i t _
      split at hstep
      · rw [← Option.some.inj hstep]
        refine ⟨h.recorded, h.minted, h.once, ?_, ?_⟩
        · intro d' p' hfl
          by_cases hd : d' = t.auth.deviceId
          · subst hd
            simp at hfl
          · simp only [Function.update_of_ne hd] at hfl
            exact h.flight d' p' hfl
        · intro r hr hfl
          by_cases hd : r.deviceId = t.auth.deviceId
          · simp [hd] at hfl
          · simp only [Function.update_of_ne hd] at hfl
            exact h.live r hr hfl
      · cases hstep

/-- **A push has one number.**  In every run of the server with conforming devices in which
compaction deletes no row that is still in flight, two rows ever inserted for one push of one
device have the same number. -/
theorem pushes_once (h : (pushing cfg).Reach InFlightKept s) :
    (∀ r ∈ s.world.db.updates.rows, r ∈ s.assigned) ∧
      ∀ r ∈ s.assigned, ∀ r' ∈ s.assigned, r.deviceId = r'.deviceId → r.pushId = r'.pushId →
        r.seq = r'.seq := by
  have hinv : PushInv s := by
    refine h.invariant ?_ fun s l s' _ hinv hkept hstep => hinv.step hkept hstep
    rintro s ⟨⟨members, devices, hw⟩, hfl, -, hass⟩
    refine ⟨?_, ?_, ?_, ?_, ?_⟩
    · intro r hr
      rw [hw] at hr
      cases hr
    · intro r hr
      rw [hass] at hr
      cases hr
    · intro r hr
      rw [hass] at hr
      cases hr
    · intro d p hp
      rw [hfl] at hp
      cases hp
    · intro r hr
      rw [hass] at hr
      cases hr
  exact ⟨hinv.recorded, hinv.once⟩

end PushInv

/-! ## Retries -/

/-- Test for `InFlightKept`. -/
def inFlightKeptb [DecidableEq β] (s : Pushing β) : PushLabel β → Bool
  | .server .compact => s.world.db.updates.rows.all fun r =>
      decide (r ∈ s.world.db.compactDoc.updates.rows) ||
        decide (s.inFlight r.deviceId ≠ some r.pushId)
  | _ => true

theorem inFlightKeptb_sound [DecidableEq β] (s : Pushing β) (l : PushLabel β)
    (h : inFlightKeptb s l = true) : InFlightKept s l := by
  rintro rfl r hr hgone
  simp only [inFlightKeptb, List.all_eq_true, Bool.or_eq_true, decide_eq_true_eq] at h
  exact (h r hr).resolve_left hgone

/-- A fresh process, and devices that never pushed. -/
def Pushing.fresh (members : List AccountId) (devices : List Device) : Pushing β where
  world := .fresh members devices
  inFlight := fun _ => none
  minted := []
  assigned := []

/-- A run of the server alone. -/
def serverRun (ls : List (Label β)) : List (PushLabel β) := ls.map .server

/-- Push `p` on connection `c` up to the end of the handler. -/
def pushRun (c : ConnId) (p : PushId) : List (PushLabel EncryptedBlob) :=
  serverRun [.recv c (.pushUpdates [⟨p, ⟨[], []⟩⟩]), .resume c, .resume c, .resume c, .resume c,
    .resume c, .resume c]

/-- A device pushes, its connection closes before the ack arrives, and it joins and pushes
again. -/
def retryRun : List (PushLabel EncryptedBlob) :=
  serverRun (joinRun 0 0) ++ [.start 0 20] ++ pushRun 0 20 ++ [.server (.close 0)] ++
    serverRun (joinRun 2 0) ++ pushRun 2 20

/-- The retry of `retryRun` is recognised: one row in all. -/
theorem pushes_once_retry :
    ∃ s : Pushing EncryptedBlob, (pushing ⟨300, 500⟩).Reach InFlightKept s ∧
      s.assigned.map (fun r => (r.deviceId, r.pushId, r.seq)) = [(0, 20, 1)] ∧
      ∀ r ∈ s.assigned, ∀ r' ∈ s.assigned, r.deviceId = r'.deviceId → r.pushId = r'.pushId →
        r.seq = r'.seq := by
  have hrun : ((pushing ⟨300, 500⟩).exec (.fresh [0] [⟨0, 0⟩]) retryRun).map
      (fun s => s.assigned.map fun r => (r.deviceId, r.pushId, r.seq)) = some [(0, 20, 1)] := by
    decide
  have hok : (pushing ⟨300, 500⟩).allStepsb inFlightKeptb (.fresh [0] [⟨0, 0⟩]) retryRun =
      true := by decide
  obtain ⟨s, hs, hass⟩ := Option.map_eq_some_iff.1 hrun
  have hreach : (pushing ⟨300, 500⟩).Reach InFlightKept s :=
    Machine.Reach.exec (.init ⟨⟨[0], [⟨0, 0⟩], rfl⟩, rfl, rfl, rfl⟩)
      (Machine.allSteps_of_allStepsb inFlightKeptb_sound hok) hs
  exact ⟨s, hreach, hass, (pushes_once hreach).2⟩

/-- Device `0` pushes `20` (row `1`) and never sees the ack.  It joins again and pulls row `1`;
its retry is lost with that connection.  On the third one a broadcast of row `2` arrives before
the answer to its pull, and it acks `2`.  Device `1` pushes row `3` and uploads the snapshot it
is asked for, and the rows up to `2` are compacted.  Then the retry of `20` is handled. -/
def overtakenRetryRun : List (PushLabel EncryptedBlob) :=
  serverRun (joinRun 0 0) ++ serverRun (joinRun 1 1) ++ [.start 0 20] ++ pushRun 0 20 ++
    serverRun [.close 0, .deliver 1] ++ serverRun (joinRun 2 0) ++ serverRun [.close 2] ++
    serverRun [.connect 3 ⟨0, 0, ""⟩, .recv 3 .openDoc, .resume 3, .resume 3] ++
    [.start 1 10] ++ pushRun 1 10 ++ [.acked 1 10] ++
    serverRun [.deliver 3, .recv 3 (.pullUpdates 1), .resume 3, .recv 3 (.ack 2), .resume 3,
      .resume 3, .resume 3, .resume 3] ++
    [.start 1 11] ++ pushRun 1 11 ++ [.acked 1 11] ++
    serverRun [.recv 1 (.pushSnapshot ⟨3, 2, none, ⟨[], []⟩, ⟨[], []⟩⟩), .resume 1, .compact] ++
    pushRun 3 20

/-- **One push, two numbers.**  Push `20` of device `0` is row `1` and row `4`. -/
theorem pushed_twice :
    ∃ s : Pushing EncryptedBlob, (pushing ⟨300, 3⟩).Reachable s ∧
      s.assigned.map (fun r => (r.deviceId, r.pushId, r.seq)) =
        [(0, 20, 1), (1, 10, 2), (1, 11, 3), (0, 20, 4)] := by
  have hrun : ((pushing ⟨300, 3⟩).exec (.fresh [0] [⟨0, 0⟩, ⟨1, 0⟩]) overtakenRetryRun).map
      (fun s => s.assigned.map fun r => (r.deviceId, r.pushId, r.seq)) =
        some [(0, 20, 1), (1, 10, 2), (1, 11, 3), (0, 20, 4)] := by
    decide
  obtain ⟨s, hs, hass⟩ := Option.map_eq_some_iff.1 hrun
  exact ⟨s, Machine.reach_of_exec ⟨⟨[0], [⟨0, 0⟩, ⟨1, 0⟩], rfl⟩, rfl, rfl, rfl⟩ hs, hass⟩

end Monoplan.Server
