import Monoplan.Server.Stream

/-!
# Every step in order keeps the streams dense

`StreamInv` is kept by each label of the server.  Most of them are quiet in the sense of
`QuietStep`.  Five are not and have a lemma of their own here: the commit of a push, its
broadcast, its acks, a pulled batch, and the delivery of a queued broadcast.
-/

namespace Monoplan.Server

open Monoplan.Base Monoplan.Protocol

variable {β : Type*}

/-! ## Quiet handlers -/

theorem advanceLastAckedSeq_updates (db : Db β) (d : DeviceId) (n : ℕ) :
    (db.advanceLastAckedSeq d n).updates = db.updates := by
  unfold Db.advanceLastAckedSeq
  split
  · rfl
  · split <;> rfl

theorem snapshotFrames_marks (rows : List (SnapshotRow β)) :
    ((World.snapshotFrames rows).map Event.sent).flatMap Event.marks = [] := by
  induction rows with
  | nil => rfl
  | cons r rs ih =>
    cases rs with
    | nil => rfl
    | cons r' rs => simpa [World.snapshotFrames, Event.marks, ServerFrame.seqs, Mark.items] using ih

theorem issueSnapshotRequest_marks (s : Session β) (d : Decision β) :
    (World.issueSnapshotRequest s d).marks = s.marks := by
  cases d with
  | skip => rfl
  | issue id ask => simp [World.issueSnapshotRequest, ServerFrame.seqs, Mark.items]

theorem issueSnapshotRequest_openDoc (s : Session β) (d : Decision β) {o' : OpenDoc}
    (h : (World.issueSnapshotRequest s d).openDoc = some o') :
    ∃ o, s.openDoc = some o ∧ o'.sub = o.sub ∧ o'.pulled = o.pulled := by
  cases d with
  | skip => exact ⟨o', h, rfl, rfl⟩
  | issue id ask =>
    simp only [World.issueSnapshotRequest, Session.send_openDoc, Session.withDoc_openDoc] at h
    obtain ⟨o, ho, rfl⟩ := Option.map_eq_some_iff.1 h
    exact ⟨o, ho, rfl, rfl⟩

theorem ready_acks {s : Session β} (h : s.pc = .ready) : s.acks = [] := by simp [Session.acks, h, Pc.acks]

theorem ready_heldBack {s : Session β} (h : s.pc = .ready) : s.heldBack = [] := by
  simp [Session.heldBack, h, Pc.heldBack]

section Quiet

variable {w : World β} {c : ConnId} {s : Session β}

theorem pushSnapshot_quiet (h : StreamInv w) (hs : w.sessions c = some s) (hpc : s.pc = .ready)
    (upload : SnapshotUpload β) {o : OpenDoc} (ho : s.openDoc = some o) :
    QuietStep w (w.pushSnapshot c (s.record [.received (.pushSnapshot upload)]) o upload) c := by
  have hmarks : (s.record [.received (.pushSnapshot upload)]).marks = s.marks := by
    simp [Event.marks]
  unfold World.pushSnapshot
  cases hslot : o.snapshotLease with
  | none =>
    exact quiet_goto h hs rfl rfl rfl (ready_heldBack hpc) (by simp [ready_heldBack hpc])
      (.inl hmarks) (by simp [hpc, Pc.cursor]) (by simp) (by simp [hpc, Pc.isPushing])
      (fun o' ho' => ⟨o', ho', rfl, rfl⟩)
  | some id =>
    cases hheld : w.coordinator.heldBy id with
    | none =>
      simp only [hheld]
      exact quiet_goto h hs rfl rfl rfl (ready_heldBack hpc) (by simp [ready_heldBack hpc])
        (.inl hmarks) (by simp [hpc, Pc.cursor]) (by simp) (by simp [hpc, Pc.isPushing])
        (fun o' ho' => ⟨o', ho', rfl, rfl⟩)
    | some lease =>
      simp only [hheld]
      refine quiet_goto h hs rfl rfl rfl (ready_heldBack hpc) (by simp [Pc.heldBack])
        (.inl (by simpa using hmarks)) (by simp [Pc.cursor])
        (by simp [Pc.acks, ready_acks hpc]) (by simp [Pc.isPushing]) ?_
      intro o' ho'
      simp only [Session.goto_openDoc, Session.withDoc_openDoc, Option.some.injEq] at ho'
      exact ⟨o, ho, by rw [← ho'], by rw [← ho']⟩

/-- Every frame but a push is quiet, and so is an empty push. -/
theorem handleFrame_quiet (h : StreamInv w) (hs : w.sessions c = some s) (hpc : s.pc = .ready)
    (f : ClientFrame β)
    (hf : ∀ us, f = .pushUpdates us → s.openDoc = none ∨ us = []) :
    QuietStep w (w.handleFrame c (s.record [.received f]) f) c := by
  have hheld := ready_heldBack hpc
  have hacks := ready_acks hpc
  -- a payload frame with no document open ends the session
  have hend : ∀ s' : Session β,
      (s'.marks = s.marks ∨ ∃ k, s'.marks = s.marks ++ [Mark.start k]) →
      QuietStep w (w.endByError c s') c := fun s' hm =>
    quiet_dropDoc h hs hheld rfl (by simpa using hm) rfl rfl rfl
  have hstay : ∀ s' : Session β, s'.pc = .ready → s'.openDoc = s.openDoc →
      (s'.marks = s.marks ∨ ∃ k, s'.marks = s.marks ++ [Mark.start k]) →
      QuietStep w (w.put c s') c := fun s' hpc' hdoc hm =>
    quiet_goto h hs rfl rfl rfl hheld (ready_heldBack hpc') hm (by simp [hpc', Pc.cursor])
      (by rw [ready_acks hpc', hacks]) (by simp [hpc', Pc.isPushing])
      (fun o' ho' => ⟨o', hdoc ▸ ho', rfl, rfl⟩)
  cases f with
  | openDoc =>
    simp only [World.handleFrame]
    split
    · exact quiet_goto h hs rfl rfl rfl hheld (by simp [Pc.heldBack])
        (.inl (by simp [Event.marks])) (by simp [Pc.cursor]) (by simp [Pc.acks, hacks])
        (by simp [Pc.isPushing]) (fun o' ho' => ⟨o', ho', rfl, rfl⟩)
    · exact hend _ (.inl (by simp [Event.marks, ServerFrame.seqs, Mark.items]))
  | pushUpdates us =>
    simp only [World.handleFrame, Session.record_openDoc]
    cases hdoc : s.openDoc with
    | none => exact hend _ (.inl (by simp [Event.marks]))
    | some o =>
      rcases hf us rfl with hnone | rfl
      · rw [hdoc] at hnone
        cases hnone
      · exact hstay _ (by simpa using hpc) (by simp)
          (.inl (by simp [Event.marks, ServerFrame.seqs, Mark.items]))
  | pullUpdates since =>
    simp only [World.handleFrame, Session.record_openDoc]
    have hm : (s.record [.received (.pullUpdates since)]).marks = s.marks ++ [Mark.start since] := by
      simp [Event.marks]
    have hpull : QuietStep w
        (w.put c ((s.record [.received (.pullUpdates since)]).goto (.pulling since))) c := by
      refine quiet_goto h hs rfl rfl rfl hheld (by simp [Pc.heldBack])
        (.inr ⟨since, by simpa using hm⟩) ?_ (by simp [Pc.acks, hacks])
        (by simp [Pc.isPushing]) (fun o' ho' => ⟨o', ho', rfl, rfl⟩)
      intro k hk
      simp only [Session.goto_pc, Pc.cursor, Option.some.injEq] at hk
      rw [← hk]
      simpa using hm
    cases hdoc : s.openDoc with
    | none => exact hend _ (.inr ⟨since, hm⟩)
    | some o =>
      simp only [World.pullUpdates]
      split
      · split
        · exact hstay _ (by simpa using hpc) (by simp)
            (.inr ⟨since, by simp [Event.marks, ServerFrame.seqs, Mark.items]⟩)
        · exact hpull
      · exact hpull
  | ack n =>
    simp only [World.handleFrame, Session.record_openDoc]
    cases hdoc : s.openDoc with
    | none => exact hend _ (.inl (by simp [Event.marks]))
    | some o =>
      exact quiet_goto h hs rfl rfl (by simp [advanceLastAckedSeq_updates]) hheld
        (by simp [Pc.heldBack]) (.inl (by simp [Event.marks])) (by simp [Pc.cursor])
        (by simp [Pc.acks, hacks]) (by simp [Pc.isPushing])
        (fun o' ho' => ⟨o', ho', rfl, rfl⟩)
  | pullSnapshot =>
    simp only [World.handleFrame, Session.record_openDoc]
    cases hdoc : s.openDoc with
    | none => exact hend _ (.inl (by simp [Event.marks]))
    | some o =>
      refine hstay _ (by simpa using hpc) (by simp) (.inl ?_)
      rw [Session.marks_record, snapshotFrames_marks]
      simp [Event.marks]
  | pushSnapshot upload =>
    simp only [World.handleFrame, Session.record_openDoc]
    cases hdoc : s.openDoc with
    | none => exact hend _ (.inl (by simp [Event.marks]))
    | some o => exact pushSnapshot_quiet h hs hpc upload hdoc

end Quiet

/-! ## The commit of a push -/

section Loud

variable {w w' : World β} {c : ConnId} {s s' : Session β}

/-- Other sessions still hold what they held, when only `c` moves. -/
theorem othersHold_congr (hothers : ∀ d, d ≠ c → w'.sessions d = w.sessions d) (n : ℕ) :
    w'.OthersHold c n ↔ w.OthersHold c n := by
  constructor
  · rintro ⟨d, t, hd, ht, hn⟩
    exact ⟨d, t, hd, hothers d hd ▸ ht, hn⟩
  · rintro ⟨d, t, hd, ht, hn⟩
    exact ⟨d, t, hd, (hothers d hd).symm ▸ ht, hn⟩

/-- Seen from another session, `c` may hold more back than before. -/
theorem othersHold_mono (hs : w.sessions c = some s)
    (hw : w'.sessions = Function.update w.sessions c (some s'))
    (hheld : ∀ n ∈ s.heldBack, n ∈ s'.heldBack) {d : ConnId} {n : ℕ} (h : w.OthersHold d n) :
    w'.OthersHold d n := by
  obtain ⟨e, t, hne, ht, hn⟩ := h
  by_cases he : e = c
  · subst he
    rw [hs, Option.some.injEq] at ht
    subst ht
    exact ⟨e, s', hne, by rw [hw, Function.update_self], hheld n hn⟩
  · exact ⟨e, t, hne, by rw [hw, Function.update_of_ne he]; exact ht, hn⟩

/-- Assemble the invariant after a step of `c` that hands out no new numbers. -/
theorem StreamInv.move (h : StreamInv w) (hs : w.sessions c = some s)
    (hw : w'.sessions = Function.update w.sessions c (some s'))
    (hwf : w'.registry.Wf) (hn : w'.db.updates.nextSeq = w.db.updates.nextSeq)
    (hheld : ∀ n ∈ s'.heldBack, n ∈ s.heldBack)
    (hdoc : ∀ o', s'.openDoc = some o' → ∃ o, s.openDoc = some o ∧ o'.sub = o.sub)
    (hself : SessionInv w' c s')
    (hothers : ∀ d t, d ≠ c → w.sessions d = some t → SessionInv w' d t)
    (hbelow : ∀ j, ∀ n ∈ w'.registry.queued j, n < w.db.updates.nextSeq)
    (hasc : ∀ j, (w'.registry.queued j).Pairwise (· < ·))
    (hqh : ∀ j, ∀ n ∈ w'.registry.queued j, ∀ d t, w'.sessions d = some t →
      ∀ m ∈ t.heldBack, n < m) : StreamInv w' := by
  have hne : ∀ d, d ≠ c → w'.sessions d = w.sessions d := fun d hd => by
    rw [hw, Function.update_of_ne hd]
  have hc' : w'.sessions c = some s' := by rw [hw, Function.update_self]
  have hlift : ∀ {d t}, w'.sessions d = some t →
      ∃ t₀, w.sessions d = some t₀ ∧ (∀ n ∈ t.heldBack, n ∈ t₀.heldBack) ∧
        ∀ o', t.openDoc = some o' → ∃ o, t₀.openDoc = some o ∧ o'.sub = o.sub := by
    intro d t ht
    by_cases hd : d = c
    · subst hd
      rw [hc', Option.some.injEq] at ht
      subst ht
      exact ⟨s, hs, hheld, hdoc⟩
    · exact ⟨t, hne d hd ▸ ht, fun n hn => hn, fun o' ho' => ⟨o', ho', rfl⟩⟩
  refine ⟨hwf, ?_, ?_, ?_, fun j n hj => hn ▸ hbelow j n hj, hasc, hqh⟩
  · intro d t ht
    by_cases hd : d = c
    · subst hd
      rw [hc', Option.some.injEq] at ht
      exact ht ▸ hself
    · exact hothers d t hd (hne d hd ▸ ht)
  · intro d e t u o p ht hu ho hp hsub
    obtain ⟨t₀, ht₀, -, hdt⟩ := hlift ht
    obtain ⟨u₀, hu₀, -, hdu⟩ := hlift hu
    obtain ⟨o₀, ho₀, hso⟩ := hdt o ho
    obtain ⟨p₀, hp₀, hsp⟩ := hdu p hp
    exact h.subInj d e t₀ u₀ o₀ p₀ ht₀ hu₀ ho₀ hp₀ (by rw [← hso, ← hsp, hsub])
  · intro d e t u n ht hu hnt hnu
    obtain ⟨t₀, ht₀, hht, -⟩ := hlift ht
    obtain ⟨u₀, hu₀, hhu, -⟩ := hlift hu
    exact h.heldDisjoint d e t₀ u₀ n ht₀ hu₀ (hht n hnt) (hhu n hnu)

/-- **A commit.**  The new numbers are above everything known; until they are broadcast the
pusher holds them back, and it is about to ack them. -/
theorem StreamInv.commit (h : StreamInv w) (hs : w.sessions c = some s)
    (hw : w'.sessions = Function.update w.sessions c (some s')) (us : List (PushBlob β))
    (hdb : w'.db = (w.db.insertUpdates s.auth.deviceId us).1) (hreg : w'.registry = w.registry)
    (hpc : s.pc = .ready) (hopen : s.openDoc ≠ none) (hmarks : s'.marks = s.marks)
    (hdoc : s'.openDoc = s.openDoc)
    (hpc' : s'.pc = .committed (w.db.insertUpdates s.auth.deviceId us).2) : StreamInv w' := by
  have hself := h.session c s hs
  have hheld : s.heldBack = [] := ready_heldBack hpc
  have hnoacks : s.acks = [] := ready_acks hpc
  have hacks : s'.acks =
      (w.db.insertUpdates s.auth.deviceId us).2.acks.map PushAck.seq := by
    rw [Session.acks, hpc']
    rfl
  have hfresh : ∀ n, n ∈ s'.heldBack ↔
      w.db.updates.nextSeq ≤ n ∧ n < w'.db.updates.nextSeq := by
    intro n
    rw [Session.heldBack, hpc', hdb]
    exact w.db.mem_fresh_iff _ _ n
  have hle : w.db.updates.nextSeq ≤ w'.db.updates.nextSeq := by
    rw [hdb]
    exact w.db.insertUpdates_nextSeq_le _ _
  have hothers : ∀ d, d ≠ c → w'.sessions d = w.sessions d := fun d hd => by
    rw [hw, Function.update_of_ne hd]
  have hc' : w'.sessions c = some s' := by rw [hw, Function.update_self]
  have hiff := othersHold_congr hothers
  have hold : ∀ {d t n}, d ≠ c → w'.sessions d = some t → n ∈ t.heldBack →
      w.sessions d = some t ∧ n < w.db.updates.nextSeq := by
    intro d t n hd ht hn
    rw [hothers d hd] at ht
    exact ⟨ht, (h.session d t ht).heldBelow n hn⟩
  refine ⟨hreg ▸ h.registry, ?_, ?_, ?_, ?_, ?_, ?_⟩
  · intro d t ht
    by_cases hd : d = c
    · subst hd
      rw [hc', Option.some.injEq] at ht
      subst ht
      refine ⟨hmarks ▸ hself.shape, hmarks ▸ hself.dense, fun _ => hdoc ▸ hopen, ?_, ?_, ?_, ?_,
        fun n hn => ((hfresh n).1 hn).2, ?_, ?_, ?_, ?_⟩
      · rw [hdoc, hreg]
        exact hself.subBelow
      · rw [hdoc, hmarks]
        exact hself.pulled
      · intro k hk
        rw [hpc'] at hk
        cases hk
      · intro n hn
        rw [hacks] at hn
        rw [hdb]
        exact w.db.ack_lt _ _ hn
      · rw [Session.heldBack, hpc']
        exact w.db.fresh_pairwise _ _
      · intro o ho hp hr n htop hlt
        rw [hdoc] at ho
        rw [hmarks] at htop
        rw [hreg] at hr ⊢
        by_cases hnew : w.db.updates.nextSeq ≤ n
        · refine .inr (.inr ?_)
          rw [hacks]
          exact w.db.mem_acks_of_new _ _ hnew (hdb ▸ hlt)
        · rcases hself.cover o ho hp hr n htop (not_le.1 hnew) with hq | hh | ha
          · exact .inl hq
          · exact .inr (.inl ((hiff n).2 hh))
          · rw [hnoacks] at ha
            cases ha
      · intro o ho hp m hm n htop hlt
        rw [hdoc] at ho
        rw [hmarks] at htop
        rw [hreg] at hm ⊢
        rcases hself.behind o ho hp m hm n htop hlt with hq | ha
        · exact .inl hq
        · rw [hnoacks] at ha
          cases ha
      · intro o ho hp hr l₁ a l₂ hsplit n htop hlt
        rw [hdoc] at ho
        rw [hmarks] at htop
        rw [hreg] at hr ⊢
        rw [hacks] at hsplit
        by_cases hnew : w.db.updates.nextSeq ≤ n
        · exact .inl (w.db.new_acked_in_order _ _ hsplit hnew hlt)
        · rcases hself.cover o ho hp hr n htop (not_le.1 hnew) with hq | hh | ha
          · exact .inr (.inl hq)
          · exact .inr (.inr ((hiff n).2 hh))
          · rw [hnoacks] at ha
            cases ha
    · have ht' := hothers d hd ▸ ht
      refine (h.session d t ht').transport (by rw [hreg]) hle ?_ ?_
      · intro o ho hr
        rw [hreg] at hr ⊢
        refine ⟨hr, fun n hn => hn, fun n hh => .inr ?_, fun n hlo hhi => ?_⟩
        · exact othersHold_mono hs hw (by simp [hheld]) hh
        · exact ⟨c, s', fun he => hd he.symm, hc', (hfresh n).2 ⟨hlo, hhi⟩⟩
      · rw [hreg]
        exact (h.session d t ht').behind
  · intro d e t u o p ht hu ho hp hsub
    have hlift : ∀ {d t o}, w'.sessions d = some t → t.openDoc = some o →
        ∃ t', w.sessions d = some t' ∧ t'.openDoc = some o := by
      intro d t o ht ho
      by_cases hd : d = c
      · subst hd
        rw [hc', Option.some.injEq] at ht
        subst ht
        exact ⟨s, hs, hdoc ▸ ho⟩
      · exact ⟨t, hothers d hd ▸ ht, ho⟩
    obtain ⟨t', ht', ho'⟩ := hlift ht ho
    obtain ⟨u', hu', hp'⟩ := hlift hu hp
    exact h.subInj d e t' u' o p ht' hu' ho' hp' hsub
  · intro d e t u n ht hu hn hm
    by_cases hd : d = c
    · by_cases he : e = c
      · exact hd.trans he.symm
      · subst hd
        rw [hc', Option.some.injEq] at ht
        subst ht
        have := (hold he hu hm).2
        have := ((hfresh n).1 hn).1
        omega
    · by_cases he : e = c
      · subst he
        rw [hc', Option.some.injEq] at hu
        subst hu
        have := (hold hd ht hn).2
        have := ((hfresh n).1 hm).1
        omega
      · exact h.heldDisjoint d e t u n (hold hd ht hn).1 (hold he hu hm).1 hn hm
  · intro j n hn
    rw [hreg] at hn
    exact lt_of_lt_of_le (h.queueBelow j n hn) hle
  · rw [hreg]
    exact h.queueAscending
  · intro j n hn d t ht m hm
    rw [hreg] at hn
    by_cases hd : d = c
    · subst hd
      rw [hc', Option.some.injEq] at ht
      subst ht
      exact lt_of_lt_of_le (h.queueBelow j n hn) ((hfresh m).1 hm).1
    · exact h.queueHeld j n hn d t (hold hd ht hm).1 m hm

/-! ## The broadcast -/

/-- **A broadcast in order.**  The rows pass from the pusher's hands to the end of every
subscriber's channel; nothing lower is held back any more, so the channels stay ascending
and gap-free. -/
theorem StreamInv.broadcast (h : StreamInv w) (hs : w.sessions c = some s)
    (hw : w'.sessions = Function.update w.sessions c (some s')) (hdb : w'.db = w.db)
    {inserted : InsertedUpdates β} {o : OpenDoc}
    (hreg : w'.registry = w.registry.broadcast o.sub inserted.fresh)
    (hpc : s.pc = .committed inserted) (ho : s.openDoc = some o)
    (hord : ∀ n ∈ s.heldBack, ∀ m, w.OthersHold c m → n ≤ m)
    (hpc' : s'.pc = .evaluating (.push inserted.acks) .latestSnapshot)
    (hmarks : s'.marks = s.marks) (hdoc : s'.openDoc = s.openDoc) : StreamInv w' := by
  have hself := h.session c s hs
  have hheld : s.heldBack = inserted.fresh.map StoredBlob.seq := by
    rw [Session.heldBack, hpc]
    rfl
  have hheld' : s'.heldBack = [] := by
    rw [Session.heldBack, hpc']
    rfl
  have hacks : s'.acks = s.acks := by
    rw [Session.acks, Session.acks, hpc, hpc']
    rfl
  have hothers : ∀ d, d ≠ c → w'.sessions d = w.sessions d := fun d hd => by
    rw [hw, Function.update_of_ne hd]
  have hiff := othersHold_congr hothers
  have hqueue : ∀ j, w'.registry.queued j = w.registry.queued j ∨
      (w.registry.Registered j ∧ j ≠ o.sub ∧
        w'.registry.queued j = w.registry.queued j ++ s.heldBack) := by
    intro j
    rw [hreg, hheld]
    exact SyncSessions.queued_broadcast h.registry o.sub j inserted.fresh
  have hown : w'.registry.queued o.sub = w.registry.queued o.sub := by
    rcases hqueue o.sub with heq | ⟨-, hne, -⟩
    · exact heq
    · exact absurd rfl hne
  have hregd : ∀ j, w'.registry.Registered j → w.registry.Registered j ∧
      (j ≠ o.sub → w'.registry.queued j = w.registry.queued j ++ s.heldBack) := by
    intro j hr
    rw [hreg] at hr ⊢
    rw [hheld]
    exact SyncSessions.Registered.of_broadcast h.registry hr
  refine h.move hs hw (hreg ▸ h.registry.broadcast _ _) (by rw [hdb]) (by simp [hheld'])
    (fun o' ho' => ⟨o', hdoc ▸ ho', rfl⟩) ?_ ?_ ?_ ?_ ?_
  · refine ⟨hmarks ▸ hself.shape, hmarks ▸ hself.dense, fun _ => by simp [hdoc, ho], ?_, ?_, ?_,
      ?_, by simp [hheld'], by simp [hheld'], ?_, ?_, ?_⟩
    · rw [hdoc, hreg, SyncSessions.broadcast_nextSubId]
      exact hself.subBelow
    · rw [hdoc, hmarks]
      exact hself.pulled
    · intro k hk
      rw [hpc'] at hk
      cases hk
    · rw [hacks, hdb]
      exact hself.ackBelow
    · intro p hp hpull hr n htop hlt
      rw [hdoc, ho, Option.some.injEq] at hp
      subst hp
      rw [hmarks] at htop
      rw [hdb] at hlt
      rw [hown, hacks, hiff]
      exact hself.cover o ho hpull (hregd o.sub hr).1 n htop hlt
    · intro p hp hpull m hm n htop hlt
      rw [hdoc, ho, Option.some.injEq] at hp
      subst hp
      rw [hmarks] at htop
      rw [hown] at hm ⊢
      rw [hacks]
      exact hself.behind o ho hpull m hm n htop hlt
    · intro p hp hpull hr l₁ a l₂ hsplit n htop hlt
      rw [hdoc, ho, Option.some.injEq] at hp
      subst hp
      rw [hmarks] at htop
      rw [hacks] at hsplit
      rw [hown, hiff]
      exact hself.order o ho hpull (hregd o.sub hr).1 l₁ a l₂ hsplit n htop hlt
  · intro d t hd ht
    -- what another session sees held back is now queued for it, or still held back
    have hpass : ∀ n, w.OthersHold d n → n ∈ s.heldBack ∨ w'.OthersHold d n := by
      rintro n ⟨e, u, hne, hu, hn⟩
      by_cases he : e = c
      · subst he
        rw [hs, Option.some.injEq] at hu
        exact .inl (hu ▸ hn)
      · exact .inr ⟨e, u, hne, hothers e he ▸ hu, hn⟩
    have hsubne : ∀ p, t.openDoc = some p → p.sub ≠ o.sub := fun p hp heq =>
      hd (h.subInj d c t s p o ht hs hp ho heq)
    refine (h.session d t ht).transport ?_ (by rw [hdb]) ?_ ?_
    · rw [hreg, SyncSessions.broadcast_nextSubId]
    · intro p hp hr
      obtain ⟨hr₀, hq⟩ := hregd p.sub hr
      rw [hq (hsubne p hp), hdb]
      refine ⟨hr₀, fun n hn => List.mem_append_left _ hn, fun n hn => ?_, fun n hlo hhi => ?_⟩
      · rcases hpass n hn with hc | ho'
        · exact .inl (List.mem_append_right _ hc)
        · exact .inr ho'
      · omega
    · intro p hp hpull m hm n htop hlt
      rcases hqueue p.sub with heq | ⟨hr₀, -, heq⟩
      · rw [heq] at hm ⊢
        exact (h.session d t ht).behind p hp hpull m hm n htop hlt
      · rw [heq] at hm ⊢
        rcases List.mem_append.1 hm with hm | hm
        · rcases (h.session d t ht).behind p hp hpull m hm n htop hlt with hq | ha
          · exact .inl (List.mem_append_left _ hq)
          · exact .inr ha
        · -- below a row broadcast now: held back by nobody but the pusher
          have hmlt := hself.heldBelow m hm
          rcases (h.session d t ht).cover p hp hpull hr₀ n htop (lt_trans hlt hmlt) with
            hq | ⟨e, u, hne, hu, hn⟩ | ha
          · exact .inl (List.mem_append_left _ hq)
          · by_cases he : e = c
            · subst he
              rw [hs, Option.some.injEq] at hu
              exact .inl (List.mem_append_right _ (hu ▸ hn))
            · exact absurd (hord m hm n ⟨e, u, he, hu, hn⟩) (not_le.2 hlt)
          · exact .inr ha
  · intro j n hn
    rcases hqueue j with heq | ⟨-, -, heq⟩
    · exact h.queueBelow j n (heq ▸ hn)
    · rw [heq, List.mem_append] at hn
      exact hn.elim (h.queueBelow j n) (hself.heldBelow n)
  · intro j
    rcases hqueue j with heq | ⟨-, -, heq⟩
    · exact heq ▸ h.queueAscending j
    · rw [heq, List.pairwise_append]
      exact ⟨h.queueAscending j, hself.heldAscending,
        fun a ha b hb => h.queueHeld j a ha c s hs b hb⟩
  · intro j n hn d t ht m hm
    by_cases hd : d = c
    · subst hd
      rw [hw, Function.update_self, Option.some.injEq] at ht
      rw [← ht, hheld'] at hm
      cases hm
    · rw [hothers d hd] at ht
      have hmem : n ∈ w.registry.queued j ∨ n ∈ s.heldBack := by
        rcases hqueue j with heq | ⟨-, -, heq⟩
        · exact .inl (heq ▸ hn)
        · rwa [heq, List.mem_append] at hn
      rcases hmem with hmem | hmem
      · exact h.queueHeld j n hmem d t ht m hm
      · have hle := hord n hmem m ⟨d, t, hd, ht, hm⟩
        have hneq : n ≠ m := fun heq =>
          hd (h.heldDisjoint d c t s n ht hs (heq ▸ hm) hmem)
        omega

/-! ## Deliveries -/

/-- A delivery to `c` moves `c` alone, and at most takes numbers off its own channel. -/
theorem StreamInv.solo (h : StreamInv w) (hs : w.sessions c = some s)
    (hw : w'.sessions = Function.update w.sessions c (some s'))
    (hn : w'.db.updates.nextSeq = w.db.updates.nextSeq) (hheld : s.heldBack = [])
    (hheld' : s'.heldBack = [])
    (hdoc : ∀ o', s'.openDoc = some o' → ∃ o, s.openDoc = some o ∧ o'.sub = o.sub)
    (hwf : w'.registry.Wf) (hnext : w'.registry.nextSubId = w.registry.nextSubId)
    (hregd : ∀ j, w'.registry.Registered j → w.registry.Registered j)
    (hqueue : ∀ j, w'.registry.queued j = w.registry.queued j ∨
      ∃ o ns, s.openDoc = some o ∧ o.sub = j ∧
        w.registry.queued j = ns ++ w'.registry.queued j)
    (hself : SessionInv w' c s') : StreamInv w' := by
  have hothers : ∀ d, d ≠ c → w'.sessions d = w.sessions d := fun d hd => by
    rw [hw, Function.update_of_ne hd]
  have hmem : ∀ j, ∀ n ∈ w'.registry.queued j, n ∈ w.registry.queued j := by
    intro j n hj
    rcases hqueue j with heq | ⟨o, ns, -, -, heq⟩
    · exact heq ▸ hj
    · exact heq ▸ List.mem_append_right _ hj
  refine h.move hs hw hwf hn (by simp [hheld']) hdoc hself ?_
    (fun j n hj => h.queueBelow j n (hmem j n hj)) ?_ ?_
  · intro d t hd ht
    have hown : ∀ p, t.openDoc = some p →
        w'.registry.queued p.sub = w.registry.queued p.sub := by
      intro p hp
      rcases hqueue p.sub with heq | ⟨o, ns, ho, hsub, -⟩
      · exact heq
      · exact absurd (h.subInj d c t s p o ht hs hp ho hsub.symm) hd
    refine (h.session d t ht).transport hnext.ge hn.ge ?_ ?_
    · intro p hp hr
      rw [hown p hp]
      exact ⟨hregd _ hr, fun n hq => hq,
        fun n hh => .inr (othersHold_mono hs hw (by simp [hheld]) hh), fun n hlo hhi => by omega⟩
    · intro p hp
      rw [hown p hp]
      exact (h.session d t ht).behind p hp
  · intro j
    rcases hqueue j with heq | ⟨o, ns, -, -, heq⟩
    · exact heq ▸ h.queueAscending j
    · have hasc := h.queueAscending j
      rw [heq, List.pairwise_append] at hasc
      exact hasc.2.1
  · intro j n hj d t ht m hm
    by_cases hd : d = c
    · subst hd
      rw [hw, Function.update_self, Option.some.injEq] at ht
      rw [← ht, hheld'] at hm
      cases hm
    · exact h.queueHeld j n (hmem j n hj) d t (hothers d hd ▸ ht) m hm

/-- In an ascending list a smaller member comes first. -/
theorem mem_before {l₁ l₂ : List ℕ} {a n : ℕ} (hasc : (l₁ ++ a :: l₂).Pairwise (· < ·))
    (hn : n ∈ l₁ ++ a :: l₂) (hna : n < a) : n ∈ l₁ := by
  rw [List.mem_append, List.mem_cons] at hn
  rw [List.pairwise_append, List.pairwise_cons] at hasc
  rcases hn with hn | rfl | hn
  · exact hn
  · exact absurd hna (lt_irrefl _)
  · exact absurd (hasc.2.1.1 n hn) (not_lt.2 hna.le)

/-- **Acks in order.**  Nothing lower is still on its way to the pusher, so the acked numbers
follow what it was delivered. -/
theorem StreamInv.sendAcks (h : StreamInv w) (hs : w.sessions c = some s)
    (hw : w'.sessions = Function.update w.sessions c (some s')) (hdb : w'.db = w.db)
    (hreg : w'.registry = w.registry) {o : OpenDoc} (ho : s.openDoc = some o)
    (hpulled : o.pulled = true) (hregd : w.registry.Registered o.sub)
    (hord : ∀ a ∈ s.acks, ∀ n, n ∈ w.registry.queued o.sub ∨ w.OthersHold c n → a ≤ n)
    (hheld : s.heldBack = []) (hmarks : s'.marks = s.marks ++ Mark.items s.acks)
    (hdoc : s'.openDoc = s.openDoc) (hacks' : s'.acks = []) (hheld' : s'.heldBack = [])
    (hcur : s'.pc.cursor = none) : StreamInv w' := by
  have hself := h.session c s hs
  obtain ⟨t₀, horigin⟩ := Option.ne_none_iff_exists'.1 (hself.pulled o ho hpulled)
  have hothers : ∀ d, d ≠ c → w'.sessions d = w.sessions d := fun d hd => by
    rw [hw, Function.update_of_ne hd]
  have hiff := othersHold_congr hothers
  have htop : Mark.top s'.marks = Mark.reach (Mark.top s.marks) (Mark.items s.acks) := by
    rw [hmarks, Mark.top_append horigin]
  have hle : Mark.top s.marks ≤ Mark.top s'.marks := htop ▸ Mark.le_reach_items _ _
  have hacked : ∀ n ∈ s.acks, n ≤ Mark.top s'.marks := fun n hn =>
    htop ▸ Mark.mem_le_reach_items _ hn
  have hdense : Mark.Dense (Mark.top s.marks) (Mark.items s.acks) := by
    refine Mark.dense_items fun l₁ a l₂ hsplit n hlo hhi => ?_
    have ha : a ∈ s.acks := by
      rw [hsplit]
      simp
    rcases hself.order o ho hpulled hregd l₁ a l₂ hsplit n hlo hhi with hl | hq | hh
    · exact hl
    · exact absurd (hord a ha n (.inl hq)) (not_le.2 hhi)
    · exact absurd (hord a ha n (.inr hh)) (not_le.2 hhi)
  have horigin' : Mark.origin s'.marks = some t₀ := by
    rw [hmarks, Mark.origin_append horigin]
  refine h.solo hs hw (by rw [hdb]) hheld hheld' (fun o' ho' => ⟨o', hdoc ▸ ho', rfl⟩)
    (hreg ▸ h.registry) (by rw [hreg]) (fun j hr => hreg ▸ hr) (fun j => .inl (by rw [hreg])) ?_
  refine ⟨by simp [horigin'], hmarks ▸ hself.dense.append horigin hdense,
    fun _ => by simp [hdoc, ho], by rw [hdoc, hreg]; exact hself.subBelow,
    fun _ _ _ => by simp [horigin'], by simp [hcur], by simp [hacks'], by simp [hheld'],
    by simp [hheld'], ?_, ?_, by simp [hacks']⟩
  · intro p hp _ _ n hn hlt
    rw [hdoc, ho, Option.some.injEq] at hp
    subst hp
    rw [hdb] at hlt
    rw [hreg, hiff]
    rcases hself.cover o ho hpulled hregd n (lt_of_le_of_lt hle hn) hlt with hq | hh | ha
    · exact .inl hq
    · exact .inr (.inl hh)
    · exact absurd (hacked n ha) (not_le.2 hn)
  · intro p hp _ m hm n hn hlt
    rw [hdoc, ho, Option.some.injEq] at hp
    subst hp
    rw [hreg] at hm ⊢
    rcases hself.behind o ho hpulled m hm n (lt_of_le_of_lt hle hn) hlt with hq | ha
    · exact .inl hq
    · exact absurd (hacked n ha) (not_le.2 hn)

/-- **A pulled batch.**  With every row above the cursor live, a batch holds the next
numbers; the last one reaches the end of the log. -/
theorem StreamInv.pullBatch [WireSize β] (h : StreamInv w) (hs : w.sessions c = some s)
    {cursor : ℕ} (hpc : s.pc = .pulling cursor)
    (hlive : ∀ n, cursor < n → n < w.db.updates.nextSeq → n ∈ w.db.updates.seqs) :
    StreamInv (w.pullBatch c s cursor) := by
  have hself := h.session c s hs
  have hacks : s.acks = [] := by rw [Session.acks, hpc]; rfl
  have hheld : s.heldBack = [] := by rw [Session.heldBack, hpc]; rfl
  obtain ⟨hstarted, hcursor⟩ := hself.cursor cursor (by rw [hpc]; rfl)
  obtain ⟨t₀, horigin⟩ := Option.ne_none_iff_exists'.1 hstarted
  obtain ⟨rest, hrange, hall⟩ := w.db.fetchUpdatesBatch_spec cursor
  unfold World.pullBatch
  generalize w.db.fetchUpdatesBatch cursor = batch at hrange hall ⊢
  set ns := batch.updates.map StoredBlob.seq with hns
  have hin : ∀ n, cursor < n → n < w.db.updates.nextSeq → n ∈ ns ++ rest := by
    intro n hlo hhi
    obtain ⟨r, hr, hseq⟩ := List.mem_map.1 (hlive n hlo hhi)
    have hcast := asI64_le cursor
    rw [← hrange, List.mem_map]
    exact ⟨r, List.mem_filter.2 ⟨hr, decide_eq_true (by omega)⟩, hseq⟩
  have hsub : (ns ++ rest).Sublist w.db.updates.seqs :=
    hrange ▸ List.filter_sublist.map UpdateRow.seq
  have hasc : (ns ++ rest).Pairwise (· < ·) :=
    List.Pairwise.sublist hsub w.db.updates.dense.pairwise_lt
  have hbound : ∀ n ∈ ns, n < w.db.updates.nextSeq := fun n hn =>
    w.db.updates.dense.lt_of_mem (hsub.subset (List.mem_append_left _ hn))
  have hdense : Mark.Dense (Mark.top s.marks) (Mark.items ns) := by
    refine Mark.dense_items fun l₁ a l₂ hsplit n hlo hhi => ?_
    have ha : a < w.db.updates.nextSeq := hbound a (by rw [hsplit]; simp)
    have hsplit' : ns ++ rest = l₁ ++ a :: (l₂ ++ rest) := by rw [hsplit]; simp
    have hmem := hin n (lt_of_le_of_lt hcursor hlo) (lt_trans hhi ha)
    rw [hsplit'] at hasc hmem
    exact mem_before hasc hmem hhi
  -- the session after the frame is sent
  have hfacts : ∀ s' : Session β, s'.marks = s.marks ++ Mark.items ns → s'.acks = [] →
      s'.heldBack = [] → s'.pc.isPushing = false →
      (∀ k, s'.pc.cursor = some k → k = (batch.updates.getLast?.map StoredBlob.seq).getD cursor) →
      (∀ o', s'.openDoc = some o' → ∃ o, s.openDoc = some o ∧ o'.sub = o.sub ∧
        (o'.pulled = true → o.pulled = true ∨ rest = [])) → StreamInv (w.put c s') := by
    intro s' hmarks hacks' hheld' hpush hcur hdoc
    have htop : Mark.top s'.marks = Mark.reach (Mark.top s.marks) (Mark.items ns) := by
      rw [hmarks, Mark.top_append horigin]
    have hle : Mark.top s.marks ≤ Mark.top s'.marks := htop ▸ Mark.le_reach_items _ _
    have horigin' : Mark.origin s'.marks = some t₀ := by
      rw [hmarks, Mark.origin_append horigin]
    -- once the batch was the last one nothing is left above the mark
    have hdone : rest = [] → ∀ n, Mark.top s'.marks < n → ¬ n < w.db.updates.nextSeq := by
      intro hnil n hn hlt
      have hmem := hin n (lt_of_le_of_lt (le_trans hcursor hle) hn) hlt
      rw [hnil, List.append_nil] at hmem
      exact absurd (htop ▸ Mark.mem_le_reach_items (Mark.top s.marks) hmem) (not_le.2 hn)
    refine h.solo hs rfl rfl hheld hheld'
      (fun o' ho' => (hdoc o' ho').imp fun o ho => ⟨ho.1, ho.2.1⟩) h.registry rfl
      (fun j hr => hr) (fun j => .inl rfl) ?_
    refine ⟨by simp [horigin'], hmarks ▸ hself.dense.append horigin hdense, by simp [hpush], ?_,
      fun _ _ _ => by simp [horigin'], ?_, by simp [hacks'], by simp [hheld'], by simp [hheld'],
      ?_, ?_, by simp [hacks']⟩
    · intro o' ho'
      obtain ⟨o, ho, hsub, -⟩ := hdoc o' ho'
      rw [hsub]
      exact hself.subBelow o ho
    · intro k hk
      refine ⟨by simp [horigin'], ?_⟩
      rw [hcur k hk]
      cases hlast : batch.updates.getLast? with
      | none => exact le_trans hcursor hle
      | some b =>
        rw [htop]
        exact Mark.mem_le_reach_items _ (List.mem_map_of_mem (List.mem_of_getLast? hlast))
    · intro o' ho' hp hr n hn hlt
      obtain ⟨o, ho, hsub, hpull⟩ := hdoc o' ho'
      rcases hpull hp with hold | hnil
      · rw [hsub] at hr ⊢
        rcases hself.cover o ho hold hr n (lt_of_le_of_lt hle hn) hlt with hq | ⟨d, t, hd, ht, hh⟩ | ha
        · exact .inl hq
        · exact .inr (.inl ⟨d, t, hd, by rw [w.put_sessions_ne s' hd]; exact ht, hh⟩)
        · rw [hacks] at ha
          cases ha
      · exact absurd hlt (hdone hnil n hn)
    · intro o' ho' hp m hm n hn hlt
      obtain ⟨o, ho, hsub, hpull⟩ := hdoc o' ho'
      rcases hpull hp with hold | hnil
      · rw [hsub] at hm ⊢
        rcases hself.behind o ho hold m hm n (lt_of_le_of_lt hle hn) hlt with hq | ha
        · exact .inl hq
        · rw [hacks] at ha
          cases ha
      · exact absurd (lt_trans hlt (h.queueBelow _ m hm)) (hdone hnil n hn)
  by_cases hmore : batch.hasMore = true
  · simp only [hmore, if_true]
    refine hfacts _ (by simp [ServerFrame.seqs, hns]) rfl rfl rfl ?_ ?_
    · intro k hk
      simpa [Pc.cursor] using hk.symm
    · exact fun o' ho' => ⟨o', ho', rfl, fun hp => .inl hp⟩
  · simp only [hmore]
    refine hfacts _ (by simp [ServerFrame.seqs, hns]) rfl rfl rfl (fun k hk => by cases hk) ?_
    intro o' ho'
    simp only [Session.goto_openDoc, Session.withDoc_openDoc, Session.send_openDoc] at ho'
    obtain ⟨o, ho, rfl⟩ := Option.map_eq_some_iff.1 ho'
    exact ⟨o, ho, rfl, fun _ => .inr (hall (by simpa using hmore))⟩

/-- **A queued broadcast.**  What lies below it is on the channel before it. -/
theorem StreamInv.deliver (h : StreamInv w) (hs : w.sessions c = some s)
    (hw : w'.sessions = Function.update w.sessions c (some s')) (hdb : w'.db = w.db)
    {o : OpenDoc} {m : Outbound β} {rest : List (Outbound β)}
    (hreg : w'.registry = w.registry.pop o.sub rest)
    (hch : w.registry.channels o.sub = m :: rest) (hpc : s.pc = .ready)
    (ho : s.openDoc = some o) (hpulled : o.pulled = true)
    (hmarks : s'.marks = s.marks ++ Mark.items m.seqs) (hdoc : s'.openDoc = s.openDoc)
    (hpc' : s'.pc = .ready) : StreamInv w' := by
  have hself := h.session c s hs
  have hacks := ready_acks hpc
  obtain ⟨t₀, horigin⟩ := Option.ne_none_iff_exists'.1 (hself.pulled o ho hpulled)
  have hothers : ∀ d, d ≠ c → w'.sessions d = w.sessions d := fun d hd => by
    rw [hw, Function.update_of_ne hd]
  have hiff := othersHold_congr hothers
  have hqown : w'.registry.queued o.sub = rest.flatMap Outbound.seqs := by
    rw [hreg, SyncSessions.queued_pop_self]
  have hqsplit : w.registry.queued o.sub = m.seqs ++ w'.registry.queued o.sub := by
    rw [hqown, SyncSessions.queued, hch, List.flatMap_cons]
  have htop : Mark.top s'.marks = Mark.reach (Mark.top s.marks) (Mark.items m.seqs) := by
    rw [hmarks, Mark.top_append horigin]
  have hle : Mark.top s.marks ≤ Mark.top s'.marks := htop ▸ Mark.le_reach_items _ _
  -- a queued number above the new mark is still queued
  have hstill : ∀ n ∈ w.registry.queued o.sub, Mark.top s'.marks < n →
      n ∈ w'.registry.queued o.sub := by
    intro n hn hlt
    rw [hqsplit, List.mem_append] at hn
    rcases hn with hn | hn
    · exact absurd (htop ▸ Mark.mem_le_reach_items (Mark.top s.marks) hn) (not_le.2 hlt)
    · exact hn
  have hdense : Mark.Dense (Mark.top s.marks) (Mark.items m.seqs) := by
    refine Mark.dense_items fun l₁ a l₂ hsplit n hlo hhi => ?_
    have hsplit' : w.registry.queued o.sub = l₁ ++ a :: (l₂ ++ w'.registry.queued o.sub) := by
      rw [hqsplit, hsplit]
      simp
    have ha : a ∈ w.registry.queued o.sub := by
      rw [hsplit']
      simp
    have hasc := h.queueAscending o.sub
    rcases hself.behind o ho hpulled a ha n hlo hhi with hq | hq
    · rw [hsplit'] at hq hasc
      exact mem_before hasc hq hhi
    · rw [hacks] at hq
      cases hq
  have horigin' : Mark.origin s'.marks = some t₀ := by
    rw [hmarks, Mark.origin_append horigin]
  refine h.solo hs hw (by rw [hdb]) (ready_heldBack hpc) (ready_heldBack hpc')
    (fun o' ho' => ⟨o', hdoc ▸ ho', rfl⟩) (hreg ▸ ⟨h.registry.nodup, h.registry.below⟩)
    (by rw [hreg]; rfl) (fun j hr => by rw [hreg] at hr; exact hr) ?_ ?_
  · intro j
    by_cases hj : j = o.sub
    · exact .inr ⟨o, m.seqs, ho, hj.symm, hj ▸ hqsplit⟩
    · left
      rw [hreg]
      exact w.registry.queued_pop_ne rest hj
  · refine ⟨by simp [horigin'], hmarks ▸ hself.dense.append horigin hdense,
      by simp [hpc', Pc.isPushing], ?_, fun _ _ _ => by simp [horigin'],
      by simp [hpc', Pc.cursor], by simp [ready_acks hpc'], by simp [ready_heldBack hpc'],
      by simp [ready_heldBack hpc'], ?_, ?_, by simp [ready_acks hpc']⟩
    · rw [hdoc, hreg]
      exact hself.subBelow
    · intro p hp _ hr n hn hlt
      rw [hdoc, ho, Option.some.injEq] at hp
      subst hp
      rw [hreg] at hr
      rw [hdb] at hlt
      rw [hiff]
      rcases hself.cover o ho hpulled hr n (lt_of_le_of_lt hle hn) hlt with hq | hh | ha
      · exact .inl (hstill n hq hn)
      · exact .inr (.inl hh)
      · rw [hacks] at ha
        cases ha
    · intro p hp _ k hk n hn hlt
      rw [hdoc, ho, Option.some.injEq] at hp
      subst hp
      have hk' : k ∈ w.registry.queued o.sub := hqsplit ▸ List.mem_append_right _ hk
      rcases hself.behind o ho hpulled k hk' n (lt_of_le_of_lt hle hn) hlt with hq | ha
      · exact .inl (hstill n hq hn)
      · rw [hacks] at ha
        cases ha

end Loud

end Monoplan.Server
