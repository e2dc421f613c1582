import Mathlib.Tactic.FinCases
import Monoplan.Server.StreamSteps

/-!
# Dense delivery, and when it fails

* `delivered_never_skips`: in every run whose steps are `InOrder`, no connection is delivered
  a number that skips forward.
* `delivered_can_skip`: without that order it happens.  Two devices push at the same time;
  the one that committed second broadcasts and is acked first, so its ack runs ahead of the
  row the other one still holds back.
-/

namespace Monoplan.Server

open Monoplan.Base Monoplan.Protocol

variable {β : Type*} {w w' : World β}

/-! ## One step -/

theorem StreamInv.recv (h : StreamInv w) {c : ConnId} {s : Session β}
    (hs : w.sessions c = some s) (hpc : s.pc = .ready) (f : ClientFrame β) :
    StreamInv (w.handleFrame c (s.record [.received f]) f) := by
  by_cases hpush : ∃ us, f = .pushUpdates us ∧ s.openDoc ≠ none ∧ us ≠ []
  · obtain ⟨us, rfl, hopen, hne⟩ := hpush
    obtain ⟨o, ho⟩ := Option.ne_none_iff_exists'.1 hopen
    have hempty : us.isEmpty = false := by simpa using hne
    simp only [World.handleFrame, Session.record_openDoc, ho, World.pushUpdates, hempty,
      Bool.false_eq_true, if_false]
    exact h.commit hs rfl us rfl rfl hpc hopen (by simp [Event.marks]) rfl rfl
  · push Not at hpush
    refine h.quiet (handleFrame_quiet h hs hpc f fun us hf => ?_)
    by_cases hnone : s.openDoc = none
    · exact .inl hnone
    · exact .inr (hpush us hf hnone)

theorem StreamInv.subscribe (h : StreamInv w) {c : ConnId} {s : Session β}
    (hs : w.sessions c = some s) {epoch : ℕ} (hpc : s.pc = .subscribing epoch) :
    StreamInv (w.subscribe c s epoch) := by
  have hheld : s.heldBack = [] := by rw [Session.heldBack, hpc]; rfl
  have hacks : s.acks = [] := by rw [Session.acks, hpc]; rfl
  unfold World.subscribe
  cases hdoc : s.openDoc with
  | some o =>
    exact h.quiet (quiet_goto h hs rfl rfl rfl hheld rfl
      (.inl (by simp [ServerFrame.seqs, Mark.items])) (by simp [Pc.cursor])
      (by simp [Pc.acks, hacks]) (by simp [Pc.isPushing]) fun o' ho' => ⟨o', ho', rfl, rfl⟩)
  | none =>
    refine h.quiet (QuietStep.of_put hs rfl (quiet_subscribe h.registry _ _ _) rfl ?_ ?_)
    · exact
        { heldBack := by simp [Pc.heldBack, hheld]
          marks := .inl (by simp [ServerFrame.seqs, Mark.items])
          cursor := by simp [Pc.cursor]
          bound := by simp
          acks := by simp [Pc.acks]
          doc := by simp }
    · simp

theorem StreamInv.evaluate (cfg : SnapshotConfig) (h : StreamInv w) {c : ConnId} {s : Session β}
    (hs : w.sessions c = some s) {after : After} {stage : Stage β}
    (hpc : s.pc = .evaluating after stage) (hok : ResumeInOrder w c s) :
    StreamInv (w.evaluate cfg c s after stage) := by
  have hheld : s.heldBack = [] := by rw [Session.heldBack, hpc]; rfl
  have hself := h.session c s hs
  -- the reads only move the program counter
  have hread : ∀ stage', StreamInv (w.put c (s.goto (.evaluating after stage'))) := by
    intro stage'
    refine h.quiet (quiet_goto h hs rfl rfl rfl hheld rfl (.inl rfl) (by simp [Pc.cursor]) ?_ ?_
      fun o' ho' => ⟨o', ho', rfl, rfl⟩)
    · rw [Session.acks, Session.acks, hpc]
      cases after <;> rfl
    · intro hpush
      refine hself.bound ?_
      rw [hpc]
      cases after with
      | ack n => exact hpush
      | push acks => rfl
  cases stage with
  | latestSnapshot => exact hread _
  | latestSeq prev => exact hread _
  | horizon prev last => exact hread _
  | decide prev last horizon =>
    cases after with
    | ack n =>
      simp only [World.evaluate]
      refine h.quiet (quiet_goto h hs rfl rfl rfl hheld rfl
        (.inl (by simp [issueSnapshotRequest_marks])) (by simp [Pc.cursor]) ?_
        (by simp [Pc.isPushing]) fun o' ho' => issueSnapshotRequest_openDoc s _ ho')
      rw [Session.acks, Session.acks, hpc]
      rfl
    | push acks =>
      have hacks : s.acks = acks.map PushAck.seq := by rw [Session.acks, hpc]; rfl
      obtain ⟨o, ho⟩ := Option.ne_none_iff_exists'.1 (hself.bound (by rw [hpc]; rfl))
      rw [ResumeInOrder, hpc] at hok
      obtain ⟨hpulled, hregd, hord⟩ := hok o ho
      exact h.sendAcks hs rfl rfl rfl ho hpulled hregd (hacks ▸ hord) hheld
        (by simp [ServerFrame.seqs, hacks]) rfl rfl rfl rfl

theorem StreamInv.resume [WireSize β] (cfg : SnapshotConfig) (h : StreamInv w) {c : ConnId} {s : Session β}
    (hs : w.sessions c = some s) (hok : ResumeInOrder w c s)
    (hstep : w.resume cfg c s = some w') : StreamInv w' := by
  have hself := h.session c s hs
  unfold World.resume at hstep
  cases hpc : s.pc with
  | ready =>
    rw [hpc] at hstep
    cases hstep
  | opening =>
    simp only [hpc, Option.some.injEq] at hstep
    subst hstep
    refine h.quiet (quiet_goto h hs rfl rfl rfl (by rw [Session.heldBack, hpc]; rfl) rfl (.inl rfl)
      (by simp [Pc.cursor]) ?_ (by simp [Pc.isPushing]) fun o' ho' => ⟨o', ho', rfl, rfl⟩)
    rw [Session.acks, Session.acks, hpc]
    rfl
  | subscribing epoch =>
    simp only [hpc, Option.some.injEq] at hstep
    exact hstep ▸ h.subscribe hs hpc
  | committed inserted =>
    simp only [hpc, Option.some.injEq] at hstep
    subst hstep
    obtain ⟨o, ho⟩ := Option.ne_none_iff_exists'.1 (hself.bound (by rw [hpc]; rfl))
    have hheld : s.heldBack = inserted.fresh.map StoredBlob.seq := by
      rw [Session.heldBack, hpc]
      rfl
    rw [ResumeInOrder, hpc] at hok
    simp only [World.broadcast, ho]
    exact h.broadcast hs rfl rfl rfl hpc ho (hheld ▸ hok) rfl rfl rfl
  | evaluating after stage =>
    simp only [hpc, Option.some.injEq] at hstep
    exact hstep ▸ h.evaluate cfg hs hpc hok
  | requesting decision =>
    simp only [hpc, Option.some.injEq] at hstep
    subst hstep
    refine h.quiet (quiet_goto h hs rfl rfl rfl (by rw [Session.heldBack, hpc]; rfl) rfl
      (.inl (by simp [issueSnapshotRequest_marks])) (by simp [Pc.cursor]) ?_
      (by simp [Pc.isPushing]) fun o' ho' => issueSnapshotRequest_openDoc s decision ho')
    rw [Session.acks, Session.acks, hpc]
    rfl
  | pulling cursor =>
    simp only [hpc, Option.some.injEq] at hstep
    subst hstep
    rw [ResumeInOrder, hpc] at hok
    exact h.pullBatch hs hpc hok
  | storing upload grant =>
    simp only [hpc, Option.some.injEq] at hstep
    subst hstep
    have hstay : ∀ w' : World β,
        w'.sessions = Function.update w.sessions c (some (s.goto .ready)) →
        w'.registry = w.registry → w'.db.updates = w.db.updates → StreamInv w' := by
      intro w' hw hr hdb
      refine h.quiet (quiet_goto h hs hw hr (by rw [hdb]) (by rw [Session.heldBack, hpc]; rfl) rfl
        (.inl rfl) (by simp [Pc.cursor]) ?_ (by simp [Pc.isPushing])
        fun o' ho' => ⟨o', ho', rfl, rfl⟩)
      rw [Session.acks, Session.acks, hpc]
      rfl
    unfold World.storeSnapshot
    split
    · exact hstay _ rfl rfl rfl
    · rename_i db hins
      refine hstay _ rfl rfl ?_
      unfold Db.insertSnapshot at hins
      split at hins
      · rw [← Option.some.inj hins]
      · cases hins
  | ended =>
    rw [hpc] at hstep
    cases hstep

/-- Leaving the document, from a session that holds nothing back. -/
theorem StreamInv.dropDoc (h : StreamInv w) {c : ConnId} {s s' : Session β}
    (hs : w.sessions c = some s) (hheld : s.heldBack = []) (hmarks : s'.marks = s.marks)
    (hheld' : s'.heldBack = []) (hcur : s'.pc.cursor = none) (hacks : s'.acks = [])
    (hpush : s'.pc.isPushing = false) : StreamInv (w.dropDoc c s') :=
  h.quiet (quiet_dropDoc h hs hheld hheld' (.inl hmarks) hcur hacks hpush)

/-- Giving a lease back is invisible here. -/
theorem StreamInv.releaseLease (h : StreamInv w) (s : Session β) :
    StreamInv (w.releaseLease s) := by
  refine h.quiet (QuietStep.env World.releaseLease_sessions ?_ (by simp))
  rw [w.releaseLease_registry]
  exact .refl h.registry

theorem World.unbindDoc_put (w : World β) (c : ConnId) (s t : Session β) :
    (w.put c t).unbindDoc c s = w.unbindDoc c s := by
  unfold World.unbindDoc World.releaseLease World.dropDoc
  cases s.openDoc with
  | none => simp [World.put]
  | some o => cases hslot : o.snapshotLease <;> simp [World.put, hslot]

theorem StreamInv.unbindDoc (h : StreamInv w) {c : ConnId} {s : Session β}
    (hs : w.sessions c = some s) (hpc : s.pc = .ready) : StreamInv (w.unbindDoc c s) :=
  (h.releaseLease s).dropDoc (by rw [World.releaseLease_sessions]; exact hs) (ready_heldBack hpc) rfl
    (ready_heldBack hpc) (by simp [hpc, Pc.cursor]) (ready_acks hpc) (by simp [hpc, Pc.isPushing])

/-- After a restart every task is over and every channel is gone. -/
theorem StreamInv.restart (h : StreamInv w) : StreamInv w.restart := by
  have hended : ∀ {c t}, w.restart.sessions c = some t →
      ∃ s, w.sessions c = some s ∧ t = (s.goto .ended).withDoc none := by
    intro c t ht
    obtain ⟨s, hs, rfl⟩ := Option.map_eq_some_iff.1 ht
    exact ⟨s, hs, rfl⟩
  refine ⟨SyncSessions.wf_new, ?_, ?_, ?_, (fun j n hn => by cases hn),
    fun j => List.Pairwise.nil, (fun j n hn => by cases hn)⟩
  · intro c t ht
    obtain ⟨s, hs, rfl⟩ := hended ht
    have hself := h.session c s hs
    refine ⟨hself.shape, hself.dense, by simp [Pc.isPushing], by simp, by simp,
      by simp [Pc.cursor], by simp [Pc.acks], by simp [Pc.heldBack], by simp [Pc.heldBack],
      by simp, by simp, by simp⟩
  · intro c d t u o p ht hu ho
    obtain ⟨s, hs, rfl⟩ := hended ht
    cases ho
  · intro c d t u n ht hu hn
    obtain ⟨s, hs, rfl⟩ := hended ht
    cases hn

theorem StreamInv.deliverStep (h : StreamInv w) {c : ConnId} {s : Session β} {o : OpenDoc}
    (hs : w.sessions c = some s) (hpc : s.pc = .ready) (ho : s.openDoc = some o)
    (hok : InOrder w (.deliver c)) (hstep : w.deliver c s o = some w') : StreamInv w' := by
  unfold World.deliver at hstep
  cases hch : w.registry.channels o.sub with
  | nil =>
    simp only [hch] at hstep
    split at hstep
    · cases hstep
    · rw [← Option.some.inj hstep]
      exact h.dropDoc hs (ready_heldBack hpc) rfl rfl rfl rfl rfl
  | cons m rest =>
    simp only [hch] at hstep
    -- the channel is popped and the frame is sent, or nothing is
    have hsend : ∀ s' : Session β, s'.marks = s.marks ++ Mark.items m.seqs →
        s'.openDoc = s.openDoc → s'.pc = .ready →
        StreamInv ({ w with registry := w.registry.pop o.sub rest }.put c s') := by
      intro s' hmarks hdoc hpc'
      by_cases hm : m.seqs = []
      · refine h.quiet (QuietStep.of_put hs rfl (quiet_pop h.registry hch hm) rfl ?_ ?_)
        · exact
            { heldBack := by rw [ready_heldBack hpc, ready_heldBack hpc']
              marks := .inl (by rw [hmarks, hm]; exact List.append_nil _)
              cursor := by simp [hpc', Pc.cursor]
              bound := by simp [hpc', Pc.isPushing]
              acks := by simp [ready_acks hpc']
              doc := fun o' ho' => .inl ⟨by rw [ready_acks hpc, ready_acks hpc'],
                o', hdoc ▸ ho', rfl, rfl⟩ }
        · rw [hdoc]
          exact (h.session c s hs).subBelow
      · exact h.deliver hs rfl rfl rfl hch hpc ho (hok s o m rest hs ho hch hm) hmarks hdoc hpc'
    cases m with
    | frame f =>
      rw [← Option.some.inj hstep]
      exact hsend (s.send f) (by simp [Outbound.seqs]) rfl hpc
    | close f =>
      rw [← Option.some.inj hstep, ← World.unbindDoc_put _ c (s.send f)]
      exact (hsend (s.send f) (by simp [Outbound.seqs]) rfl hpc).unbindDoc (by simp) hpc
    | unbind =>
      rw [← Option.some.inj hstep, ← World.unbindDoc_put _ c s]
      exact (hsend s (by simp [Outbound.seqs, Mark.items]) rfl hpc).unbindDoc (by simp) hpc

/-- **Every step in order keeps the stream invariant.** -/
theorem StreamInv.step [WireSize β] (cfg : SnapshotConfig) (h : StreamInv w) {l : Label β}
    (hok : InOrder w l) (hstep : World.step cfg w l = some w') : StreamInv w' := by
  cases l with
  | connect c auth =>
    simp only [World.step] at hstep
    split at hstep
    · cases hstep
    · rename_i hnone
      split at hstep
      · rw [← Option.some.inj hstep]
        refine h.quiet (c := c) ⟨.refl h.registry, rfl, fun d hd => ?_, fun t ht => ?_, ?_⟩
        · exact w.put_sessions_ne _ hd
        · rw [World.put_sessions_self, Option.some.injEq] at ht
          exact .inr (.inl ⟨hnone, auth, ht.symm⟩)
        · intro t ht
          rw [hnone] at ht
          cases ht
      · cases hstep
  | recv c f =>
    simp only [World.step] at hstep
    split at hstep
    · rename_i s hs
      split at hstep
      · rename_i hready
        exact Option.some.inj hstep ▸ h.recv hs (Pc.eq_ready hready) f
      · cases hstep
    · cases hstep
  | resume c =>
    simp only [World.step] at hstep
    split at hstep
    · rename_i s hs
      exact h.resume cfg hs (hok s hs) hstep
    · cases hstep
  | deliver c =>
    simp only [World.step] at hstep
    split at hstep
    · rename_i s hs
      split at hstep
      · rename_i hready
        split at hstep
        · rename_i o ho
          exact h.deliverStep hs (Pc.eq_ready hready) ho hok hstep
        · cases hstep
      · cases hstep
    · cases hstep
  | close c =>
    simp only [World.step] at hstep
    split at hstep
    · rename_i s hs
      split at hstep
      · rename_i hready
        rw [← Option.some.inj hstep]
        exact (h.releaseLease s).dropDoc (by rw [World.releaseLease_sessions]; exact hs)
          (ready_heldBack (Pc.eq_ready hready)) rfl rfl rfl rfl rfl
      · cases hstep
    · cases hstep
  | abort c =>
    simp only [World.step] at hstep
    split at hstep
    · rename_i s hs
      split at hstep
      · cases hstep
      · cases hstep
      · rename_i hcom hend
        rw [← Option.some.inj hstep]
        refine h.dropDoc hs ?_ rfl rfl rfl rfl rfl
        rw [Session.heldBack]
        cases hpc : s.pc with
        | committed i => exact absurd hpc (hcom i)
        | _ => rfl
    · cases hstep
  | compact =>
    simp only [World.step] at hstep
    split at hstep
    · cases hstep
    · rw [← Option.some.inj hstep]
      refine h.quiet (QuietStep.env rfl (.refl h.registry) ?_)
      simp only [Db.compactDoc]
      split <;> rfl
  | tick => exact Option.some.inj hstep ▸ h.quiet (QuietStep.env rfl (.refl h.registry) rfl)
  | addMember a => exact Option.some.inj hstep ▸ h.quiet (QuietStep.env rfl (.refl h.registry) rfl)
  | removeMember a =>
    exact Option.some.inj hstep ▸ h.quiet (QuietStep.env rfl (.refl h.registry) rfl)
  | closeForAccount a reason =>
    refine Option.some.inj hstep ▸ h.quiet (QuietStep.env rfl ?_ rfl)
    have hsend := quiet_trySendAll h.registry (m := .close (.docClosed reason)) rfl
      ((w.registry.subs.filter fun sub => decide (sub.accountId = a)).map Subscriber.subId)
    exact hsend.trans (quiet_leave hsend.wf _)
  | addDevice d => exact Option.some.inj hstep ▸ h.quiet (QuietStep.env rfl (.refl h.registry) rfl)
  | removeDevice d =>
    exact Option.some.inj hstep ▸ h.quiet (QuietStep.env rfl (.refl h.registry) rfl)
  | elsewhere subIds leaseIds =>
    exact Option.some.inj hstep ▸
      h.quiet (QuietStep.env rfl (quiet_elsewhere h.registry subIds) rfl)
  | restart => exact Option.some.inj hstep ▸ h.restart

/-! ## Every run -/

theorem streamInv_fresh (members : List AccountId) (devices : List Device) :
    StreamInv (World.fresh members devices : World β) where
  registry := SyncSessions.wf_new
  session c s hs := by cases hs
  subInj c d s t o p hs := by cases hs
  heldDisjoint c d s t n hs := by cases hs
  queueBelow j n hn := by cases hn
  queueAscending j := List.Pairwise.nil
  queueHeld j n hn := by cases hn

theorem streamInv_of_reach [WireSize β] (cfg : SnapshotConfig)
    (h : (server cfg).Reach InOrder w) : StreamInv w :=
  h.invariant (fun _ ⟨members, devices, hw⟩ => hw ▸ streamInv_fresh members devices)
    fun _ _ _ _ hinv hok hstep => hinv.step cfg hok hstep

/-- **Dense delivery.**  In a run whose steps are in order, the numbers a connection delivers
never skip forward: each is at most one above everything asked for or delivered before. -/
theorem delivered_never_skips [WireSize β] (cfg : SnapshotConfig)
    (h : (server cfg).Reach InOrder w) (c : ConnId) (s : Session β)
    (hs : w.sessions c = some s) : Mark.NeverSkips s.marks :=
  ((streamInv_of_reach cfg h).session c s hs).dense

/-! ## Checking the order of a concrete run -/

/-- The numbers the connections in `cs` other than `c` hold back. -/
def World.heldByOthers (w : World β) (cs : List ConnId) (c : ConnId) : List ℕ :=
  (cs.filter fun d => decide (d ≠ c)).flatMap fun d =>
    ((w.sessions d).map Session.heldBack).getD []

/-- Decision procedure for `ResumeInOrder` when `cs` are all the connections. -/
def resumeInOrderb (w : World β) (cs : List ConnId) (c : ConnId) (s : Session β) : Bool :=
  match s.pc with
  | .committed inserted =>
    (inserted.fresh.map StoredBlob.seq).all fun n => (w.heldByOthers cs c).all fun m => n ≤ m
  | .evaluating (.push acks) (.decide ..) =>
    s.openDoc.all fun o => o.pulled && decide (w.registry.Registered o.sub) &&
      (acks.map PushAck.seq).all fun a =>
        (w.registry.queued o.sub ++ w.heldByOthers cs c).all fun n => a ≤ n
  | .pulling cursor =>
    (List.range w.db.updates.nextSeq).all fun n =>
      decide (n ≤ cursor) || decide (n ∈ w.db.updates.seqs)
  | _ => true

/-- Decision procedure for `InOrder` when `cs` are all the connections. -/
def inOrderb (cs : List ConnId) (w : World β) : Label β → Bool
  | .connect c _ => decide (c ∈ cs)
  | .deliver c => (w.sessions c).all fun s => s.openDoc.all fun o =>
      ((w.registry.channels o.sub).head?.all fun m => m.seqs.isEmpty) || o.pulled
  | .resume c => (w.sessions c).all fun s => resumeInOrderb w cs c s
  | _ => true

/-- Run the labels, checking the order of every step. -/
def runInOrderb [WireSize β] (cfg : SnapshotConfig) (cs : List ConnId) (w : World β) :
    List (Label β) → Bool
  | [] => true
  | l :: ls => inOrderb cs w l && (World.step cfg w l).all fun w' => runInOrderb cfg cs w' ls

theorem mem_heldByOthers {cs : List ConnId} (hcs : ∀ d, d ∉ cs → w.sessions d = none)
    {c : ConnId} {n : ℕ} (h : w.OthersHold c n) : n ∈ w.heldByOthers cs c := by
  obtain ⟨d, t, hd, ht, hn⟩ := h
  have hmem : d ∈ cs := by
    by_contra hout
    rw [hcs d hout] at ht
    cases ht
  simp only [World.heldByOthers, List.mem_flatMap, List.mem_filter, decide_eq_true_eq]
  exact ⟨d, ⟨hmem, hd⟩, by simpa [ht] using hn⟩

theorem resumeInOrderb_sound {cs : List ConnId} (hcs : ∀ d, d ∉ cs → w.sessions d = none)
    {c : ConnId} {s : Session β} (h : resumeInOrderb w cs c s = true) : ResumeInOrder w c s := by
  unfold resumeInOrderb at h
  unfold ResumeInOrder
  split
  · rename_i inserted hpc
    simp only [hpc, List.all_eq_true, decide_eq_true_eq] at h
    exact fun n hn m hm => h n hn m (mem_heldByOthers hcs hm)
  · rename_i acks _ _ _ hpc
    intro o ho
    simp only [hpc, ho, Option.all_some, Bool.and_eq_true, decide_eq_true_eq, List.all_eq_true,
      List.mem_append] at h
    refine ⟨h.1.1, h.1.2, fun a ha n hn => h.2 a ha n ?_⟩
    exact hn.imp_right (mem_heldByOthers hcs)
  · rename_i cursor hpc
    intro n hlo hhi
    simp only [hpc, List.all_eq_true, List.mem_range, Bool.or_eq_true, decide_eq_true_eq] at h
    rcases h n hhi with hle | hmem
    · omega
    · exact hmem
  · trivial

theorem inOrderb_sound {cs : List ConnId} (hcs : ∀ d, d ∉ cs → w.sessions d = none)
    {l : Label β} (h : inOrderb cs w l = true) : InOrder w l := by
  cases l with
  | deliver c =>
    intro s o m rest hs ho hch hm
    simp only [inOrderb, hs, ho, hch, Option.all_some, List.head?_cons, Bool.or_eq_true,
      List.isEmpty_iff] at h
    exact h.resolve_left hm
  | resume c =>
    intro s hs
    simp only [inOrderb, hs, Option.all_some] at h
    exact resumeInOrderb_sound hcs h
  | _ => trivial

/-- **The checker is sound.** -/
theorem runInOrderb_sound [WireSize β] {cfg : SnapshotConfig} {cs : List ConnId}
    {ls : List (Label β)} (hcs : ∀ d, d ∉ cs → w.sessions d = none)
    (h : runInOrderb cfg cs w ls = true) : (server cfg).AllSteps InOrder w ls := by
  induction ls generalizing w with
  | nil => trivial
  | cons l ls ih =>
    rw [runInOrderb, Bool.and_eq_true] at h
    refine ⟨inOrderb_sound hcs h.1, fun w' hstep => ih ?_ ?_⟩
    · intro d hd
      refine World.step_sessions_none hstep (hcs d hd) ?_
      rintro auth rfl
      exact hd (by simpa [inOrderb] using h.1)
    · have hall := h.2
      rw [show World.step cfg w l = some w' from hstep] at hall
      exact hall

/-! ## Out of order -/

/-- Two devices join and push one after the other: the second push is a pair, and the row
of the first reaches the second device's channel before its own push begins. -/
def takingTurnsRun : List (Label EncryptedBlob) :=
  joinRun 0 0 ++ joinRun 1 1 ++
    [.recv 0 (.pushUpdates [⟨20, ⟨[], []⟩⟩]), .resume 0, .resume 0, .resume 0, .resume 0,
      .resume 0, .resume 0, .deliver 1,
      .recv 1 (.pushUpdates [⟨10, ⟨[], []⟩⟩, ⟨11, ⟨[], []⟩⟩]), .resume 1, .resume 1, .resume 1,
      .resume 1, .resume 1, .resume 1, .deliver 0]

/-- The two devices of `takingTurnsRun` are delivered all three rows, densely. -/
theorem delivered_never_skips_takingTurns :
    ∃ w : World EncryptedBlob, (server ⟨300, 500⟩).Reach InOrder w ∧
      ∃ s, w.sessions 0 = some s ∧ s.marks = [.start 0, .item 1, .item 2, .item 3] ∧
        Mark.NeverSkips s.marks := by
  have hrun : (((server ⟨300, 500⟩).exec (World.fresh [0] [⟨0, 0⟩, ⟨1, 0⟩]) takingTurnsRun).bind
      fun w => w.sessions 0).map Session.marks =
        some [.start 0, .item 1, .item 2, .item 3] := by decide
  have hok : runInOrderb ⟨300, 500⟩ [0, 1] (World.fresh [0] [⟨0, 0⟩, ⟨1, 0⟩]) takingTurnsRun =
      true := by decide
  obtain ⟨s, hs, hmarks⟩ := Option.map_eq_some_iff.1 hrun
  obtain ⟨w, hw, hsess⟩ := Option.bind_eq_some_iff.1 hs
  have hreach : (server ⟨300, 500⟩).Reach InOrder w :=
    Machine.Reach.exec (.init ⟨[0], [⟨0, 0⟩, ⟨1, 0⟩], rfl⟩)
      (runInOrderb_sound (fun _ _ => rfl) hok) hw
  exact ⟨w, hreach, s, hsess, hmarks, delivered_never_skips ⟨300, 500⟩ hreach 0 s hsess⟩

/-- Two devices join; `1` commits a row, then `0` commits one, broadcasts it and is acked. -/
def overtakingRun : List (Label EncryptedBlob) :=
  joinRun 0 0 ++ joinRun 1 1 ++
    [.recv 1 (.pushUpdates [⟨10, ⟨[], []⟩⟩]), .recv 0 (.pushUpdates [⟨20, ⟨[], []⟩⟩]),
      .resume 0, .resume 0, .resume 0, .resume 0, .resume 0]

/-- **Without the order a number can skip.**  The pusher that pulled an empty log is acked
number `2` before anything told it of number `1`. -/
theorem delivered_can_skip :
    ∃ w : World EncryptedBlob, (server ⟨300, 500⟩).Reachable w ∧
      ∃ s, w.sessions 0 = some s ∧ ¬ Mark.NeverSkips s.marks := by
  have hrun : (((server ⟨300, 500⟩).exec (World.fresh [0] [⟨0, 0⟩, ⟨1, 0⟩]) overtakingRun).bind
      fun w => w.sessions 0).map Session.marks = some [.start 0, .item 2] := by decide
  obtain ⟨s, hs, hmarks⟩ := Option.map_eq_some_iff.1 hrun
  obtain ⟨w, hw, hsess⟩ := Option.bind_eq_some_iff.1 hs
  refine ⟨w, Machine.reach_of_exec ⟨[0], [⟨0, 0⟩, ⟨1, 0⟩], rfl⟩ hw, s, hsess, fun hnever => ?_⟩
  rw [hmarks] at hnever
  exact absurd (hnever 0 rfl) (by decide)

end Monoplan.Server
