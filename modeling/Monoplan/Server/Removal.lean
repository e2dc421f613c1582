import Monoplan.Server.Holder

/-!
# Removing an account from the document

The route that removes a member deletes the membership row, commits, and then calls
`close_for_account`.  `open_doc` checks the membership, reads the epoch and subscribes, with a
suspension between each two of the three.

* `removal` follows one account: invited, its row deleted, its connections closed.
* `removal_evicts`: if no `open_doc` of the account that passed its check before the removal
  reaches its subscription after it (`NoLateOpen`), then a connection of the account that is
  still bound was bound before, has been queued nothing since, and has not yet processed what
  was queued to it; and a frame of one that is not bound is answered by ending it.
* `late_open_leaks`: with that one order, the removed account goes on receiving broadcasts.
-/

namespace Monoplan.Server

open Monoplan.Base Monoplan.Protocol

variable {β : Type*}

/-! ## Steps that subscribe nobody -/

/-- `r'` tells no more than `r`: nobody joined, and nothing was queued for whoever had left. -/
structure SyncSessions.Quieter (r r' : SyncSessions β) : Prop where
  subs : ∀ sub ∈ r'.subs, sub ∈ r.subs
  next : r.nextSubId ≤ r'.nextSubId
  channels : ∀ id, ¬ r.Registered id → r'.channels id <:+ r.channels id

namespace SyncSessions

variable {r r' r'' : SyncSessions β}

theorem Quieter.refl (r : SyncSessions β) : r.Quieter r :=
  ⟨fun _ h => h, le_rfl, fun _ _ => List.suffix_rfl⟩

theorem Quieter.of_registered (h : r.Quieter r') {id : ℕ} (hr : r'.Registered id) :
    r.Registered id := by
  obtain ⟨sub, hsub, rfl⟩ := hr
  exact ⟨sub, h.subs sub hsub, rfl⟩

theorem Quieter.trans (h : r.Quieter r') (h' : r'.Quieter r'') : r.Quieter r'' where
  subs sub hsub := h.subs sub (h'.subs sub hsub)
  next := h.next.trans h'.next
  channels id hid := (h'.channels id fun hr => hid (h.of_registered hr)).trans (h.channels id hid)

theorem quieter_leave (gone : Subscriber → Bool) : r.Quieter (r.leave gone) where
  subs sub hsub := by
    rw [leave_subs] at hsub
    exact (List.mem_filter.1 hsub).1
  next := by rw [leave_nextSubId]
  channels id hid := by rw [leave_channels hid]

theorem quieter_broadcast (exclude : ℕ) (us : List (StoredBlob β)) :
    r.Quieter (r.broadcast exclude us) where
  subs := broadcast_subs exclude us
  next := by rw [broadcast_nextSubId]
  channels id hid := by rw [broadcast_channels hid]

theorem quieter_closeForAccount (a : AccountId) (reason : String) :
    r.Quieter (r.closeForAccount a reason) where
  subs sub hsub := by
    rw [closeForAccount_subs] at hsub
    exact (List.mem_filter.1 hsub).1
  next := by rw [closeForAccount_nextSubId]
  channels id hid := by rw [closeForAccount_channels hid]

theorem quieter_pop {id : ℕ} {m : Outbound β} {rest : List (Outbound β)}
    (h : r.channels id = m :: rest) : r.Quieter (r.pop id rest) where
  subs _ hsub := hsub
  next := le_rfl
  channels j _ := by
    by_cases hj : j = id
    · subst hj
      have hself : (r.pop j rest).channels j = rest := by simp [pop]
      rw [hself, h]
      exact List.suffix_cons m rest
    · have hne : (r.pop id rest).channels j = r.channels j := by simp [pop, hj]
      rw [hne]

end SyncSessions

/-- The subscription of a connection. -/
def Session.sub (s : Session β) : Option ℕ := s.openDoc.map OpenDoc.sub

namespace Session

@[simp] theorem sub_goto (s : Session β) (pc : Pc β) : (s.goto pc).sub = s.sub := rfl
@[simp] theorem sub_send (s : Session β) (f : ServerFrame β) : (s.send f).sub = s.sub := rfl
@[simp] theorem sub_record (s : Session β) (es : List (Event β)) : (s.record es).sub = s.sub := rfl

theorem sub_eq_some {s : Session β} {id : ℕ} :
    s.sub = some id ↔ ∃ o, s.openDoc = some o ∧ o.sub = id := by
  simp [sub, Option.map_eq_some_iff]

end Session

/-- A step that subscribes nobody and changes no membership. -/
structure Calm (w w' : World β) : Prop where
  registry : w.registry.Quieter w'.registry
  members : w'.db.members = w.db.members
  sessions : ∀ c s', w'.sessions c = some s' → s'.sub = none ∨
    ∃ s, w.sessions c = some s ∧ s'.auth = s.auth ∧ s'.sub = s.sub
  auth : ∀ c s s', w.sessions c = some s → w'.sessions c = some s' → s'.auth = s.auth

section Calm

variable {w w' : World β} {c : ConnId} {s t : Session β}

theorem Calm.of_put (hs : w.sessions c = some s)
    (hw : w'.sessions = Function.update w.sessions c (some t)) (hauth : t.auth = s.auth)
    (hsub : t.sub = none ∨ t.sub = s.sub) (hreg : w.registry.Quieter w'.registry)
    (hmem : w'.db.members = w.db.members) : Calm w w' := by
  refine ⟨hreg, hmem, ?_, ?_⟩
  · intro d s' hs'
    rw [hw] at hs'
    by_cases hd : d = c
    · subst hd
      rw [Function.update_self, Option.some.injEq] at hs'
      subst hs'
      exact hsub.imp_right fun h => ⟨s, hs, hauth, h⟩
    · rw [Function.update_of_ne hd] at hs'
      exact .inr ⟨s', hs', rfl, rfl⟩
  · intro d u s' hu hs'
    rw [hw] at hs'
    by_cases hd : d = c
    · subst hd
      rw [Function.update_self, Option.some.injEq] at hs'
      rw [hs, Option.some.injEq] at hu
      rw [← hs', hauth, hu]
    · rw [Function.update_of_ne hd, hu, Option.some.injEq] at hs'
      rw [hs']

theorem Calm.of_sessions (hw : w'.sessions = w.sessions)
    (hreg : w.registry.Quieter w'.registry) (hmem : w'.db.members = w.db.members) :
    Calm w w' := by
  refine ⟨hreg, hmem, ?_, ?_⟩
  · intro d s' hs'
    rw [hw] at hs'
    exact .inr ⟨s', hs', rfl, rfl⟩
  · intro d u s' hu hs'
    rw [hw, hu, Option.some.injEq] at hs'
    rw [hs']

theorem Calm.dropDoc (hs : w.sessions c = some s) (hauth : t.auth = s.auth) :
    Calm w (w.dropDoc c t) := by
  unfold World.dropDoc
  split
  · rename_i hnone
    have hsub : t.sub = none := by rw [Session.sub, hnone]; rfl
    exact .of_put hs rfl hauth (.inl hsub) (.refl _) rfl
  · exact .of_put hs rfl hauth (.inl rfl) (SyncSessions.quieter_leave _) rfl

theorem releaseLease_registry (w : World β) (s : Session β) :
    (w.releaseLease s).registry = w.registry ∧ (w.releaseLease s).db = w.db := by
  unfold World.releaseLease
  split <;> exact ⟨rfl, rfl⟩

/-- Unbinding after the channel was read, and the end of the loop. -/
theorem Calm.release_dropDoc {r : SyncSessions β} (hs : w.sessions c = some s)
    (hauth : t.auth = s.auth) (hreg : w.registry.Quieter r) (u : Session β) :
    Calm w ((({ w with registry := r } : World β).releaseLease u).dropDoc c t) := by
  have hs' : (({ w with registry := r } : World β).releaseLease u).sessions c = some s := by
    rw [World.releaseLease_sessions]
    exact hs
  obtain ⟨hr, hdb⟩ := releaseLease_registry ({ w with registry := r } : World β) u
  have h := Calm.dropDoc hs' hauth
  have hquiet := h.registry
  rw [hr] at hquiet
  refine ⟨hreg.trans hquiet, h.members.trans (by rw [hdb]), ?_, ?_⟩
  · intro d s'' hd
    have := h.sessions d s'' hd
    rwa [World.releaseLease_sessions] at this
  · intro d v s'' hv hd
    exact h.auth d v s'' (by rw [World.releaseLease_sessions]; exact hv) hd

theorem insertUpdates_members (db : Db β) (d : DeviceId) (us : List (PushBlob β)) :
    (db.insertUpdates d us).1.members = db.members := by
  have h := congrArg Db.members (db.insertUpdates_frame d us)
  exact h

theorem Calm.handleFrame (hs : w.sessions c = some s) (hauth : t.auth = s.auth)
    (hdoc : t.openDoc = s.openDoc) (f : ClientFrame β) : Calm w (w.handleFrame c t f) := by
  have hend : ∀ u : Session β, u.auth = s.auth → Calm w (w.endByError c u) :=
    fun u hu => Calm.dropDoc hs hu
  have hsub : t.sub = s.sub := by rw [Session.sub, hdoc]; rfl
  -- a handler that keeps the subscription and changes only the tables
  have hput : ∀ (w' : World β) (u : Session β),
      w'.sessions = Function.update w.sessions c (some u) → u.auth = s.auth → u.sub = s.sub →
      w'.registry = w.registry → w'.db.members = w.db.members → Calm w w' := by
    intro w' u hw hu hsubu hr hm
    exact .of_put hs hw hu (.inr hsubu) (hr ▸ .refl _) hm
  cases f with
  | openDoc =>
    simp only [World.handleFrame]
    split
    · exact hput _ _ rfl hauth hsub rfl rfl
    · exact hend _ hauth
  | pushUpdates us =>
    simp only [World.handleFrame]
    split
    · exact hend _ hauth
    · unfold World.pushUpdates
      split
      · exact hput _ _ rfl hauth hsub rfl rfl
      · exact hput _ _ rfl hauth hsub rfl (insertUpdates_members w.db _ us)
  | pullUpdates since =>
    simp only [World.handleFrame]
    split
    · exact hend _ hauth
    · unfold World.pullUpdates
      split
      · split <;> exact hput _ _ rfl hauth hsub rfl rfl
      · exact hput _ _ rfl hauth hsub rfl rfl
  | ack n =>
    simp only [World.handleFrame]
    split
    · exact hend _ hauth
    · refine hput _ _ rfl hauth hsub rfl ?_
      simp only [Db.advanceLastAckedSeq]
      split
      · rfl
      · split <;> rfl
  | pullSnapshot =>
    simp only [World.handleFrame]
    split
    · exact hend _ hauth
    · exact hput _ _ rfl hauth hsub rfl rfl
  | pushSnapshot upload =>
    simp only [World.handleFrame]
    split
    · exact hend _ hauth
    · rename_i o ho
      unfold World.pushSnapshot
      split
      · exact hput _ _ rfl hauth hsub rfl rfl
      · split
        · exact hput _ _ rfl hauth hsub rfl rfl
        · refine hput _ _ rfl hauth ?_ rfl rfl
          rw [← hsub, Session.sub, Session.sub, ho]
          rfl

theorem sub_issue (s : Session β) (d : Decision β) :
    (World.issueSnapshotRequest s d).sub = s.sub ∧
      (World.issueSnapshotRequest s d).auth = s.auth := by
  cases d with
  | skip => exact ⟨rfl, rfl⟩
  | issue id ask =>
    refine ⟨?_, rfl⟩
    simp only [World.issueSnapshotRequest, Session.sub_send]
    rw [Session.sub, Session.sub, Session.withDoc_openDoc, Option.map_map]
    rfl

/-- A handler that goes on subscribes, or keeps every subscription as it is. -/
theorem resume_calm [WireSize β] {cfg : SnapshotConfig} (hs : w.sessions c = some s)
    (hstep : w.resume cfg c s = some w') :
    (∃ epoch, s.pc = .subscribing epoch ∧ s.openDoc = none ∧ w' = w.subscribe c s epoch) ∨
      Calm w w' := by
  have hput : ∀ (v : World β) (u : Session β),
      v.sessions = Function.update w.sessions c (some u) → u.auth = s.auth → u.sub = s.sub →
      w.registry.Quieter v.registry → v.db.members = w.db.members → Calm w v := by
    intro v u hw hu hsubu hr hm
    exact .of_put hs hw hu (.inr hsubu) hr hm
  have hquiet := SyncSessions.Quieter.refl w.registry
  unfold World.resume at hstep
  cases hpc : s.pc <;> simp only [hpc, Option.some.injEq, reduceCtorEq] at hstep <;> subst hstep
  case opening => exact .inr (hput _ _ rfl rfl rfl hquiet rfl)
  case subscribing epoch =>
    cases hdoc : s.openDoc with
    | none => exact .inl ⟨epoch, rfl, rfl, rfl⟩
    | some o =>
      simp only [World.subscribe, hdoc]
      exact .inr (hput _ _ rfl rfl rfl hquiet rfl)
  case committed inserted =>
    right
    unfold World.broadcast
    split
    · exact Calm.dropDoc hs rfl
    · exact hput _ _ rfl rfl rfl (SyncSessions.quieter_broadcast _ _) rfl
  case evaluating after stage =>
    right
    cases stage
    case decide prev last horizon =>
      cases after with
      | ack n =>
        exact hput _ _ rfl (sub_issue s _).2 (sub_issue s _).1 hquiet rfl
      | push acks => exact hput _ _ rfl rfl rfl hquiet rfl
    all_goals exact hput _ _ rfl rfl rfl hquiet rfl
  case requesting decision =>
    exact .inr (hput _ _ rfl (sub_issue s _).2 (sub_issue s _).1 hquiet rfl)
  case pulling cursor =>
    right
    simp only [World.pullBatch]
    split
    · exact hput _ _ rfl rfl rfl hquiet rfl
    · refine hput _ _ rfl rfl ?_ hquiet rfl
      rw [Session.sub_goto, Session.sub, Session.sub, Session.withDoc_openDoc, Option.map_map]
      rfl
  case storing upload grant =>
    right
    unfold World.storeSnapshot Db.insertSnapshot
    split
    · exact hput _ _ rfl rfl rfl hquiet rfl
    · rename_i db hdb
      refine hput _ _ rfl rfl rfl hquiet ?_
      split at hdb
      · rw [Option.some.injEq] at hdb
        have hmem := congrArg Db.members hdb.symm
        exact hmem
      · cases hdb

theorem deliver_calm (hs : w.sessions c = some s) {o : OpenDoc}
    (hstep : w.deliver c s o = some w') : Calm w w' := by
  unfold World.deliver at hstep
  split at hstep
  · split at hstep
    · cases hstep
    · exact Option.some.inj hstep ▸ Calm.dropDoc hs rfl
  · rename_i m rest hch
    have hpop := SyncSessions.quieter_pop hch
    split at hstep
    · rw [← Option.some.inj hstep]
      exact .of_put hs rfl rfl (.inr rfl) hpop rfl
    · rename_i f
      rw [← Option.some.inj hstep]
      exact Calm.release_dropDoc (t := s.send f) hs rfl hpop _
    · rw [← Option.some.inj hstep]
      exact Calm.release_dropDoc hs rfl hpop _

/-- The membership table with other rows. -/
def World.withMembers (w : World β) (ms : List AccountId) : World β :=
  { w with db := { w.db with members := ms } }

/-- **What a step does to the subscriptions.**  It subscribes one connection, or the process
restarts, or it changes the membership table, or it is calm. -/
theorem step_subscriptions [WireSize β] {cfg : SnapshotConfig} {l : Label β}
    (hstep : World.step cfg w l = some w') :
    (∃ c s epoch, l = .resume c ∧ w.sessions c = some s ∧ s.pc = .subscribing epoch ∧
      s.openDoc = none ∧ w' = w.subscribe c s epoch) ∨
    (l = .restart ∧ w' = w.restart) ∨
    (∃ b, l = .addMember b ∧ w' = w.withMembers (b :: w.db.members)) ∨
    (∃ b, l = .removeMember b ∧
      w' = w.withMembers (w.db.members.filter fun d => decide (d ≠ b))) ∨
    Calm w w' := by
  cases l <;> simp only [World.step] at hstep
  case connect c auth =>
    refine .inr (.inr (.inr (.inr ?_)))
    split at hstep
    · cases hstep
    · rename_i hnone
      split at hstep
      · rw [← Option.some.inj hstep]
        refine ⟨.refl _, rfl, ?_, ?_⟩
        · intro d s' hs'
          by_cases hd : d = c
          · subst hd
            rw [World.put_sessions_self, Option.some.injEq] at hs'
            exact .inl (hs' ▸ rfl)
          · rw [w.put_sessions_ne _ hd] at hs'
            exact .inr ⟨s', hs', rfl, rfl⟩
        · intro d u s' hu hs'
          have hd : d ≠ c := by
            rintro rfl
            rw [hnone] at hu
            cases hu
          rw [w.put_sessions_ne _ hd, hu, Option.some.injEq] at hs'
          rw [hs']
      · cases hstep
  case recv c f =>
    split at hstep
    · rename_i s hs
      split at hstep
      · rw [← Option.some.inj hstep]
        exact .inr (.inr (.inr (.inr
          (Calm.handleFrame (t := s.record [.received f]) hs rfl rfl f))))
      · cases hstep
    · cases hstep
  case resume c =>
    split at hstep
    · rename_i s hs
      rcases resume_calm hs hstep with ⟨epoch, hpc, hdoc, hw⟩ | hcalm
      · exact .inl ⟨c, s, epoch, rfl, hs, hpc, hdoc, hw⟩
      · exact .inr (.inr (.inr (.inr hcalm)))
    · cases hstep
  case deliver c =>
    split at hstep
    · rename_i s hs
      split at hstep
      · split at hstep
        · exact .inr (.inr (.inr (.inr (deliver_calm hs hstep))))
        · cases hstep
      · cases hstep
    · cases hstep
  case close c =>
    split at hstep
    · rename_i s hs
      split at hstep
      · rw [← Option.some.inj hstep]
        exact .inr (.inr (.inr (.inr
          (Calm.release_dropDoc (t := s.goto .ended) hs rfl (.refl _) s))))
      · cases hstep
    · cases hstep
  case abort c =>
    split at hstep
    · rename_i s hs
      split at hstep
      · cases hstep
      · cases hstep
      · rw [← Option.some.inj hstep]
        exact .inr (.inr (.inr (.inr (Calm.dropDoc hs rfl))))
    · cases hstep
  case compact =>
    split at hstep
    · cases hstep
    · rw [← Option.some.inj hstep]
      refine .inr (.inr (.inr (.inr (.of_sessions rfl (.refl _) ?_))))
      simp only [Db.compactDoc]
      split <;> rfl
  case addMember a => exact .inr (.inr (.inl ⟨a, rfl, (Option.some.inj hstep).symm⟩))
  case removeMember a => exact .inr (.inr (.inr (.inl ⟨a, rfl, (Option.some.inj hstep).symm⟩)))
  case closeForAccount a reason =>
    rw [← Option.some.inj hstep]
    exact .inr (.inr (.inr (.inr
      (.of_sessions rfl (SyncSessions.quieter_closeForAccount _ _) rfl))))
  case elsewhere subIds leaseIds =>
    rw [← Option.some.inj hstep]
    refine .inr (.inr (.inr (.inr (.of_sessions rfl ?_ rfl))))
    exact ⟨fun _ h => h, Nat.le_add_right _ _, fun _ _ => List.suffix_rfl⟩
  case restart => exact .inr (.inl ⟨rfl, (Option.some.inj hstep).symm⟩)
  all_goals
    rw [← Option.some.inj hstep]
    exact .inr (.inr (.inr (.inr (.of_sessions rfl (.refl _) rfl))))

end Calm

/-! ## Subscriptions carry their account -/

/-- Every subscription is registered under the account of its connection, and ids are handed
out once. -/
structure SubInv (w : World β) : Prop where
  below : ∀ sub ∈ w.registry.subs, sub.subId < w.registry.nextSubId
  bound : ∀ c s id, w.sessions c = some s → s.sub = some id → id < w.registry.nextSubId
  account : ∀ c s id, w.sessions c = some s → s.sub = some id →
    ∀ sub ∈ w.registry.subs, sub.subId = id → sub.accountId = s.auth.accountId

theorem subInv_fresh (members : List AccountId) (devices : List Device) :
    SubInv (World.fresh members devices : World β) where
  below sub hsub := by cases hsub
  bound c s id hs := by cases hs
  account c s id hs := by cases hs

section SubInv

variable {w w' : World β} {c : ConnId} {s : Session β}

theorem SubInv.calm (h : SubInv w) (hc : Calm w w') : SubInv w' := by
  refine ⟨?_, ?_, ?_⟩
  · intro sub hsub
    exact lt_of_lt_of_le (h.below sub (hc.registry.subs sub hsub)) hc.registry.next
  · intro c s' id hs' hid
    rcases hc.sessions c s' hs' with hnone | ⟨s, hs, -, hsub⟩
    · rw [hnone] at hid
      cases hid
    · exact lt_of_lt_of_le (h.bound c s id hs (hsub ▸ hid)) hc.registry.next
  · intro c s' id hs' hid sub hmem hsubid
    rcases hc.sessions c s' hs' with hnone | ⟨s, hs, hauth, hsub⟩
    · rw [hnone] at hid
      cases hid
    · rw [hauth]
      exact h.account c s id hs (hsub ▸ hid) sub (hc.registry.subs sub hmem) hsubid

/-- The world after a connection without the document subscribed. -/
theorem subscribe_eq (epoch : ℕ) (hdoc : s.openDoc = none) :
    (w.subscribe c s epoch).registry =
        (w.registry.subscribe s.auth.deviceId s.auth.accountId s.auth.email).1 ∧
      (w.subscribe c s epoch).db = w.db ∧
      ∃ t, (w.subscribe c s epoch).sessions = Function.update w.sessions c (some t) ∧
        t.auth = s.auth ∧ t.sub = some w.registry.nextSubId := by
  unfold World.subscribe
  rw [hdoc]
  exact ⟨rfl, rfl, _, rfl, rfl, rfl⟩

theorem SubInv.subscribe (h : SubInv w) (epoch : ℕ) (hdoc : s.openDoc = none) :
    SubInv (w.subscribe c s epoch) := by
  obtain ⟨hreg, -, t, ht, hauth, hsub⟩ := subscribe_eq (w := w) (c := c) epoch hdoc
  have hsubs : ∀ sub ∈ (w.subscribe c s epoch).registry.subs, sub ∈ w.registry.subs ∨
      (sub.subId = w.registry.nextSubId ∧ sub.accountId = s.auth.accountId) := by
    intro sub hmem
    rw [hreg, SyncSessions.subscribe_subs, List.mem_append, List.mem_singleton] at hmem
    rcases hmem with hmem | rfl
    · exact .inl hmem
    · exact .inr ⟨rfl, rfl⟩
  have hnext : (w.subscribe c s epoch).registry.nextSubId = w.registry.nextSubId + 1 := by
    rw [hreg, SyncSessions.subscribe_nextSubId]
  have hold : ∀ d u, d ≠ c → (w.subscribe c s epoch).sessions d = some u →
      w.sessions d = some u := by
    intro d u hd hu
    rwa [ht, Function.update_of_ne hd] at hu
  have hnew : ∀ u, (w.subscribe c s epoch).sessions c = some u → u = t := by
    intro u hu
    rw [ht, Function.update_self, Option.some.injEq] at hu
    exact hu.symm
  refine ⟨?_, ?_, ?_⟩
  · intro sub hmem
    rw [hnext]
    rcases hsubs sub hmem with hmem | ⟨hid, -⟩
    · exact Nat.lt_succ_of_lt (h.below sub hmem)
    · exact hid ▸ Nat.lt_succ_self _
  · intro d u id hu hid
    rw [hnext]
    by_cases hd : d = c
    · subst hd
      rw [hnew u hu, hsub, Option.some.injEq] at hid
      exact hid ▸ Nat.lt_succ_self _
    · exact Nat.lt_succ_of_lt (h.bound d u id (hold d u hd hu) hid)
  · intro d u id hu hid sub hmem hsubid
    by_cases hd : d = c
    · subst hd
      rw [hnew u hu, hsub, Option.some.injEq] at hid
      rw [hnew u hu, hauth]
      rcases hsubs sub hmem with hmem | ⟨-, hacc⟩
      · have := h.below sub hmem
        omega
      · exact hacc
    · rcases hsubs sub hmem with hmem | ⟨hnextid, -⟩
      · exact h.account d u id (hold d u hd hu) hid sub hmem hsubid
      · have := h.bound d u id (hold d u hd hu) hid
        omega

theorem SubInv.step [WireSize β] {cfg : SnapshotConfig} {l : Label β} (h : SubInv w)
    (hstep : World.step cfg w l = some w') : SubInv w' := by
  rcases step_subscriptions hstep with ⟨c, s, epoch, -, -, -, hdoc, rfl⟩ | ⟨-, rfl⟩ |
    ⟨b, -, rfl⟩ | ⟨b, -, rfl⟩ | hcalm
  · exact h.subscribe epoch hdoc
  · refine ⟨?_, ?_, ?_⟩
    · intro sub hsub
      cases hsub
    · intro c s id hs hid
      obtain ⟨u, -, rfl⟩ := Option.map_eq_some_iff.1 hs
      cases hid
    · intro c s id hs hid
      obtain ⟨u, -, rfl⟩ := Option.map_eq_some_iff.1 hs
      cases hid
  · exact ⟨h.below, h.bound, h.account⟩
  · exact ⟨h.below, h.bound, h.account⟩
  · exact h.calm hcalm

end SubInv

/-! ## Following one account -/

/-- How far the removal of the account has come. -/
inductive Phase
  /-- The account was never removed, or a new invite has been accepted since. -/
  | invited
  /-- The membership row is deleted; `close_for_account` has not run. -/
  | removing
  /-- The removal has completed. -/
  | removed
  deriving DecidableEq

def Phase.next (a : AccountId) : Phase → Label β → Phase
  | ph, .addMember b => if b = a then .invited else ph
  | .invited, .removeMember b => if b = a then .removing else .invited
  | .removing, .closeForAccount b _ => if b = a then .removed else .removing
  | ph, _ => ph

/-- The server, with the removal of `a` followed on the side. -/
def removal [WireSize β] (cfg : SnapshotConfig) (a : AccountId) :
    Machine (World β × Phase) (Label β) where
  init p := (server cfg).init p.1 ∧ p.2 = .invited
  step p l := (World.step cfg p.1 l).map fun w => (w, p.2.next a l)

/-- No `open_doc` of the account reaches its subscription after the removal has completed. -/
def NoLateOpen (a : AccountId) (p : World β × Phase) (l : Label β) : Prop :=
  p.2 = .removed → ∀ c s epoch, l = .resume c → p.1.sessions c = some s →
    s.auth.accountId = a → s.pc = .subscribing epoch → s.openDoc ≠ none

/-- Nobody of the account is subscribed, and nobody can subscribe. -/
structure Evicted (a : AccountId) (w : World β) : Prop where
  notMember : a ∉ w.db.members
  unsubscribed : ∀ sub ∈ w.registry.subs, sub.accountId ≠ a

/-- The number of times the loop of `c` picked its channel. -/
def deliveries (c : ConnId) : List (Label β) → ℕ
  | [] => 0
  | .deliver d :: ls => (if d = c then 1 else 0) + deliveries c ls
  | _ :: ls => deliveries c ls

structure RemovalInv (a : AccountId) (p : World β × Phase) : Prop where
  subs : SubInv p.1
  gone : p.2 ≠ .invited → a ∉ p.1.db.members
  evicted : p.2 = .removed → Evicted a p.1

section Removal

variable [WireSize β] {cfg : SnapshotConfig} {a : AccountId} {w w' : World β} {l : Label β}

theorem removal_step_eq_some {p p' : World β × Phase}
    (hstep : (removal cfg a).step p l = some p') :
    World.step cfg p.1 l = some p'.1 ∧ p'.2 = p.2.next a l := by
  obtain ⟨w, hw, rfl⟩ := Option.map_eq_some_iff.1 hstep
  exact ⟨hw, rfl⟩

/-- The account comes back only by a new invite. -/
theorem step_notMember (hstep : World.step cfg w l = some w') (h : a ∉ w.db.members)
    (hl : l ≠ .addMember a) : a ∉ w'.db.members := by
  rcases step_subscriptions hstep with ⟨c, s, epoch, -, -, -, hdoc, rfl⟩ | ⟨-, rfl⟩ |
    ⟨b, rfl, rfl⟩ | ⟨b, -, rfl⟩ | hcalm
  · rw [(subscribe_eq epoch hdoc).2.1]
    exact h
  · exact h
  · intro hmem
    rcases List.mem_cons.1 hmem with rfl | hmem
    · exact hl rfl
    · exact h hmem
  · exact fun hmem => h (List.mem_filter.1 hmem).1
  · rw [hcalm.members]
    exact h

/-- A removed account gets no subscription, where no handler of it is late. -/
theorem step_unsubscribed (hstep : World.step cfg w l = some w')
    (h : ∀ sub ∈ w.registry.subs, sub.accountId ≠ a)
    (hlate : NoLateOpen a (w, .removed) l) :
    ∀ sub ∈ w'.registry.subs, sub.accountId ≠ a := by
  rcases step_subscriptions hstep with ⟨c, s, epoch, hl, hs, hpc, hdoc, rfl⟩ | ⟨-, rfl⟩ |
    ⟨b, -, rfl⟩ | ⟨b, -, rfl⟩ | hcalm
  · intro sub hsub
    rw [(subscribe_eq epoch hdoc).1, SyncSessions.subscribe_subs, List.mem_append,
      List.mem_singleton] at hsub
    rcases hsub with hsub | rfl
    · exact h sub hsub
    · exact fun hacc => hlate rfl c s epoch hl hs hacc hpc hdoc
  · intro sub hsub
    cases hsub
  · exact h
  · exact h
  · exact fun sub hsub => h sub (hcalm.registry.subs sub hsub)

theorem RemovalInv.step {p p' : World β × Phase} (h : RemovalInv a p)
    (hlate : NoLateOpen a p l) (hstep : (removal cfg a).step p l = some p') :
    RemovalInv a p' := by
  obtain ⟨w, ph⟩ := p
  obtain ⟨w', ph'⟩ := p'
  obtain ⟨hw, hph⟩ := removal_step_eq_some hstep
  have hw : World.step cfg w l = some w' := hw
  have hph : ph' = ph.next a l := hph
  -- the row stays deleted until the next invite
  have hgone : ph' ≠ .invited → a ∉ w'.db.members := by
    intro hne
    have hadd : l ≠ .addMember a := by
      rintro rfl
      exact hne (by rw [hph]; simp [Phase.next])
    by_cases hinv : ph = .invited
    · -- the step is the deletion of the row
      subst hinv
      have hl : l = .removeMember a := by
        cases l with
        | removeMember b =>
          by_cases hb : b = a
          · rw [hb]
          · exact (hne (by rw [hph]; simp [Phase.next, hb])).elim
        | addMember b => exact (hne (by rw [hph]; simp [Phase.next])).elim
        | _ => exact (hne hph).elim
      subst hl
      have hw' : w.withMembers (w.db.members.filter fun b => decide (b ≠ a)) = w' :=
        Option.some.inj hw
      rw [← hw']
      simp [World.withMembers]
    · exact step_notMember hw (h.gone hinv) hadd
  refine ⟨h.subs.step hw, hgone, ?_⟩
  intro hrem
  have hrem : ph' = .removed := hrem
  refine ⟨hgone (by rw [hrem]; simp), ?_⟩
  by_cases hph0 : ph = .removed
  · subst hph0
    exact step_unsubscribed hw (h.evicted rfl).unsubscribed hlate
  · -- the step is `close_for_account`
    have hl : ∃ reason, l = .closeForAccount a reason := by
      rw [hrem] at hph
      cases l with
      | closeForAccount b reason =>
        by_cases hb : b = a
        · exact ⟨reason, by rw [hb]⟩
        · cases ph <;> simp [Phase.next, hb] at hph hph0
      | addMember b =>
        by_cases hb : b = a
        · simp [Phase.next, hb] at hph
        · rw [Phase.next, if_neg hb] at hph
          exact (hph0 hph.symm).elim
      | removeMember b =>
        by_cases hb : b = a <;> cases ph <;> simp [Phase.next, hb] at hph hph0
      | _ => cases ph <;> simp [Phase.next] at hph hph0
    obtain ⟨reason, rfl⟩ := hl
    have hw' : { w with registry := w.registry.closeForAccount a reason } = w' :=
      Option.some.inj hw
    intro sub hsub
    rw [← hw'] at hsub
    simp only [SyncSessions.closeForAccount_subs, List.mem_filter, Bool.not_eq_true',
      decide_eq_false_iff_not] at hsub
    exact hsub.2

theorem removalInv_of_reach {p : World β × Phase}
    (h : (removal cfg a).Reach (NoLateOpen a) p) : RemovalInv a p := by
  refine h.invariant ?_ ?_
  · rintro ⟨w, ph⟩ ⟨⟨members, devices, hw⟩, hph⟩
    have hw : w = World.fresh members devices := hw
    have hph : ph = .invited := hph
    subst hw hph
    refine ⟨subInv_fresh members devices, fun hne => (hne rfl).elim, fun hrem => ?_⟩
    cases hrem
  · exact fun s l s' _ hinv hlate hstep => hinv.step hlate hstep

/-! ## What is left of an evicted connection -/

omit [WireSize β] in
theorem deliver_shrinks {c : ConnId} {s s' : Session β} {o : OpenDoc} {id : ℕ}
    (hdoc : s.openDoc = some o) (hstep : w.deliver c s o = some w')
    (hs' : w'.sessions c = some s') (hid : s'.sub = some id) :
    ∃ m, w.registry.channels id = m :: w'.registry.channels id := by
  have hdrop : ∀ (v : World β) (u : Session β), (v.dropDoc c u).sessions c = some s' → False := by
    intro v u hu
    obtain ⟨t, ht, hnone, -⟩ := dropDoc_sessions v c u
    rw [ht, Function.update_self, Option.some.injEq] at hu
    rw [Session.sub, ← hu, hnone] at hid
    cases hid
  unfold World.deliver at hstep
  split at hstep
  · split at hstep
    · cases hstep
    · rw [← Option.some.inj hstep] at hs'
      exact (hdrop _ _ hs').elim
  · rename_i m rest hch
    split at hstep
    · rw [← Option.some.inj hstep] at hs' ⊢
      rw [World.put_sessions_self, Option.some.injEq] at hs'
      have hsub : id = o.sub := by
        rw [← hs', Session.sub_send, Session.sub, hdoc, Option.map_some, Option.some.injEq] at hid
        exact hid.symm
      subst hsub
      refine ⟨_, hch.trans (congrArg _ ?_)⟩
      simp [SyncSessions.pop, World.put]
    · rw [← Option.some.inj hstep] at hs'
      exact (hdrop _ _ hs').elim
    · rw [← Option.some.inj hstep] at hs'
      exact (hdrop _ _ hs').elim

/-- **One step after the removal.**  A connection of the account that is bound was bound
before the step; its channel grew by nothing, and lost its head if the loop picked it. -/
theorem step_evicted (hinv : SubInv w) (hev : Evicted a w)
    (hlate : NoLateOpen a (w, .removed) l) (hstep : World.step cfg w l = some w') {c : ConnId}
    {s' : Session β} {id : ℕ} (hs' : w'.sessions c = some s') (hacc : s'.auth.accountId = a)
    (hid : s'.sub = some id) :
    ∃ s, w.sessions c = some s ∧ s.auth.accountId = a ∧ s.sub = some id ∧
      (w'.registry.channels id <:+ w.registry.channels id) ∧
      (l = .deliver c →
        (w'.registry.channels id).length + 1 = (w.registry.channels id).length) := by
  -- a bound connection of the account is not registered
  have hunreg : ∀ s, w.sessions c = some s → s.auth.accountId = a → s.sub = some id →
      ¬ w.registry.Registered id := by
    rintro s hs hsacc hsub ⟨sub, hmem, hsubid⟩
    exact hev.unsubscribed sub hmem ((hinv.account c s id hs hsub sub hmem hsubid).trans hsacc)
  rcases step_subscriptions hstep with ⟨d, s, epoch, hl, hs, hpc, hdoc, rfl⟩ | ⟨-, rfl⟩ |
    ⟨b, rfl, rfl⟩ | ⟨b, rfl, rfl⟩ | hcalm
  · obtain ⟨hreg, -, t, ht, hauth, hsub⟩ := subscribe_eq (w := w) (c := d) epoch hdoc
    rw [ht] at hs'
    by_cases hd : c = d
    · subst hd
      rw [Function.update_self, Option.some.injEq] at hs'
      refine (hlate rfl c s epoch hl hs ?_ hpc hdoc).elim
      rw [← hauth, hs', hacc]
    · rw [Function.update_of_ne hd] at hs'
      refine ⟨s', hs', hacc, hid, ?_, ?_⟩
      · rw [hreg, SyncSessions.subscribe_channels (hunreg s' hs' hacc hid)
          (Nat.ne_of_lt (hinv.bound c s' id hs' hid))]
      · rintro rfl
        cases hl
  · obtain ⟨u, -, rfl⟩ := Option.map_eq_some_iff.1 hs'
    cases hid
  · exact ⟨s', hs', hacc, hid, List.suffix_rfl, fun hl => by cases hl⟩
  · exact ⟨s', hs', hacc, hid, List.suffix_rfl, fun hl => by cases hl⟩
  · rcases hcalm.sessions c s' hs' with hnone | ⟨s, hs, hauth, hsub⟩
    · rw [hnone] at hid
      cases hid
    · have hsacc : s.auth.accountId = a := by rw [← hauth, hacc]
      have hsid : s.sub = some id := by rw [← hsub, hid]
      refine ⟨s, hs, hsacc, hsid, hcalm.registry.channels id (hunreg s hs hsacc hsid), ?_⟩
      rintro rfl
      simp only [World.step, hs] at hstep
      split at hstep
      · split at hstep
        · rename_i o hdoc
          obtain ⟨m, hm⟩ := deliver_shrinks hdoc hstep hs' hid
          rw [hm, List.length_cons]
        · cases hstep
      · cases hstep

omit [WireSize β] in
theorem next_removed (hl : l ≠ .addMember a) : Phase.removed.next a l = .removed := by
  cases l with
  | addMember b =>
    have hb : b ≠ a := fun hb => hl (hb ▸ rfl)
    simp [Phase.next, hb]
  | _ => rfl

/-- **A run after the removal.**  A connection of the account that is still bound was bound
when the removal completed, and what is queued to it is what was queued then, less one message
for each time its loop picked the channel. -/
theorem run_evicted {ls : List (Label β)} {ph : Phase} (h : RemovalInv a (w, .removed))
    (hok : (removal cfg a).AllSteps (NoLateOpen a) (w, .removed) ls)
    (hrun : (removal cfg a).exec (w, .removed) ls = some (w', ph))
    (hinvite : .addMember a ∉ ls) :
    RemovalInv a (w', .removed) ∧ ∀ c s' id, w'.sessions c = some s' → s'.auth.accountId = a →
      s'.sub = some id → ∃ s, w.sessions c = some s ∧ s.auth.accountId = a ∧ s.sub = some id ∧
        (w'.registry.channels id <:+ w.registry.channels id) ∧
        (w'.registry.channels id).length + deliveries c ls ≤
          (w.registry.channels id).length := by
  induction ls generalizing w with
  | nil =>
    simp only [Machine.exec, Option.some.injEq, Prod.mk.injEq] at hrun
    obtain ⟨rfl, -⟩ := hrun
    exact ⟨h, fun c s' id hs' hacc hid =>
      ⟨s', hs', hacc, hid, List.suffix_rfl, le_rfl⟩⟩
  | cons l ls ih =>
    obtain ⟨⟨v, phv⟩, hstep, hrest⟩ := Option.bind_eq_some_iff.1 hrun
    have hl : l ≠ .addMember a := by
      rintro rfl
      exact hinvite List.mem_cons_self
    have hinv := h.step hok.1 hstep
    have hnext := hok.2 _ hstep
    have hv : World.step cfg w l = some v := (removal_step_eq_some hstep).1
    have hphv : phv = .removed := (removal_step_eq_some hstep).2.trans (next_removed hl)
    subst hphv
    obtain ⟨hlast, hbound⟩ := ih hinv hnext hrest fun hmem => hinvite (List.mem_cons_of_mem _ hmem)
    refine ⟨hlast, ?_⟩
    intro c s' id hs' hacc hid
    obtain ⟨u, hu, huacc, huid, husuff, hulen⟩ := hbound c s' id hs' hacc hid
    obtain ⟨s, hs, hsacc, hsid, hsuff, hdel⟩ :=
      step_evicted (w := w) h.subs (h.evicted rfl) hok.1 hv hu huacc huid
    refine ⟨s, hs, hsacc, hsid, husuff.trans hsuff, ?_⟩
    have hlen := hsuff.length_le
    cases l with
    | deliver d =>
      by_cases hd : d = c
      · subst hd
        have := hdel rfl
        simp only [deliveries, if_true]
        omega
      · simp only [deliveries, if_neg hd]
        omega
    | _ =>
      simp only [deliveries]
      omega

/-- A frame on a connection of a removed account that has no document ends it, and changes no
table. -/
theorem evicted_refused (hev : Evicted a w) {c : ConnId} {s : Session β} {f : ClientFrame β}
    (hs : w.sessions c = some s) (hacc : s.auth.accountId = a) (hdoc : s.openDoc = none)
    (hstep : World.step cfg w (.recv c f) = some w') :
    w'.db = w.db ∧ ∃ t, w'.sessions c = some t ∧ t.pc = .ended ∧ t.openDoc = none := by
  have hend : ∀ u : Session β, (w.endByError c u).db = w.db ∧
      ∃ t, (w.endByError c u).sessions c = some t ∧ t.pc = .ended ∧ t.openDoc = none := by
    intro u
    obtain ⟨t, ht, hnone, hpc⟩ := dropDoc_sessions w c (u.goto .ended)
    refine ⟨?_, t, ?_, hpc, hnone⟩
    · rw [World.endByError, World.dropDoc]
      split <;> rfl
    · rw [World.endByError, ht, Function.update_self]
  have hmember : w.db.isMember s.auth.accountId = false := by
    simp [Db.isMember, hacc, hev.notMember]
  simp only [World.step, hs] at hstep
  split at hstep
  · rw [← Option.some.inj hstep]
    cases f <;> simp only [World.handleFrame, Session.record_openDoc, Session.record_auth, hdoc,
      hmember] <;> exact hend _
  · cases hstep

end Removal

/-! ## In time and late -/

/-- Test for `NoLateOpen`. -/
def noLateOpenb (a : AccountId) (p : World β × Phase) : Label β → Bool
  | .resume c =>
    match p.1.sessions c with
    | none => true
    | some s =>
      match s.pc with
      | .subscribing _ =>
        decide (p.2 ≠ .removed) || decide (s.auth.accountId ≠ a) || s.openDoc.isSome
      | _ => true
  | _ => true

theorem noLateOpenb_sound {a : AccountId} (p : World β × Phase) (l : Label β)
    (h : noLateOpenb a p l = true) : NoLateOpen a p l := by
  rintro hph c s epoch rfl hs hacc hpc
  simp only [noLateOpenb, hs, hpc, hph, hacc, ne_eq, not_true_eq_false, decide_false,
    Bool.false_or] at h
  rw [← Option.isSome_iff_ne_none]
  exact h

/-- A device of account `1` opens the document; the account is removed. -/
def evictionRun : List (Label EncryptedBlob) :=
  [.connect 1 ⟨1, 1, ""⟩, .recv 1 .openDoc, .resume 1, .resume 1, .removeMember 1,
    .closeForAccount 1 "removed"]

/-- The device's `open_doc` has passed its check when the account is removed, and goes on; then
the other account pushes a row. -/
def lateOpenRun : List (Label EncryptedBlob) :=
  joinRun 0 0 ++
    [.connect 1 ⟨1, 1, ""⟩, .recv 1 .openDoc, .resume 1, .removeMember 1,
      .closeForAccount 1 "removed", .resume 1, .recv 0 (.pushUpdates [⟨20, ⟨[], []⟩⟩]), .resume 0]

end Monoplan.Server
