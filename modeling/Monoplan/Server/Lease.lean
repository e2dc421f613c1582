import Monoplan.Server.Ws

/-!
# Which uploads are stored, and what compaction deletes

The protocol lets a `PushSnapshot` in only if it answers the request that is in flight: the
connection holds the running lease, the lease has not expired, and the frame repeats the
requested floor and delta base and reaches the requested frontier (`Lawful`).  The server
checks less: `release` compares the lease id alone, and `insert_snapshot` the chain alone.

* `uploads_lawful_iff`: along a run, snapshots are stored and rows deleted lawfully exactly
  as long as every upload that passes those two checks is a matching answer (`UploadOk`).
* `unlawful_upload_deletes`: a late upload with a floor of its own is stored, and the
  compaction it triggers deletes a row that a lagging device still needs.
-/

namespace Monoplan.Server

open Monoplan.Base Monoplan.Protocol

variable {β : Type*}

/-! ## What the protocol asks for -/

/-- An upload answers a request. -/
def Answers (upload : SnapshotUpload β) (ask : SnapshotAsk β) : Prop :=
  ask.upToSeq ≤ upload.upToSeq ∧ upload.compactionFloorSeq = ask.compactionFloorSeq ∧
    upload.fromSeq = ask.base.map SnapshotBase.seq

/-- The upload came in under the running, unexpired lease of its connection, and answers the
request that lease was issued for. -/
def Lawful (upload : SnapshotUpload β) (grant : Grant β) : Prop :=
  grant.slot = grant.lease.leaseId ∧ grant.at_ < grant.lease.expiresAt ∧
    Answers upload grant.lease.issuedFor

/-- A grant is what the world really was when the frame came in. -/
def GrantedBy (w : World β) (l : Label β) (c : ConnId) (upload : SnapshotUpload β)
    (grant : Grant β) : Prop :=
  l = .recv c (.pushSnapshot upload) ∧
    (∃ s o, w.sessions c = some s ∧ s.openDoc = some o ∧ o.snapshotLease = some grant.slot) ∧
    w.coordinator.lease = .active grant.lease ∧ grant.at_ = w.now

/-- What the protocol promises of one step. -/
structure LawfulStep (w : World β) (l : Label β) (w' : World β) : Prop where
  /-- An upload is let in under the lease that was running when it came. -/
  granted : ∀ c s' u g, w'.sessions c = some s' → s'.pc = .storing u g →
    (∃ s, w.sessions c = some s ∧ s.pc = .storing u g) ∨ GrantedBy w l c u g
  /-- A snapshot is stored only where a lawful upload was let in; otherwise the chain is
  unchanged. -/
  stored : w'.db.snapshots = w.db.snapshots ∨
    ∃ c s u g, l = .resume c ∧ w.sessions c = some s ∧ s.pc = .storing u g ∧ Lawful u g ∧
      w'.db.snapshots = w.db.snapshots ++ [w.db.snapshotRow u]
  /-- A row is deleted only at or below the floor of a lawfully stored upload. -/
  deleted : ∀ r ∈ w.db.updates.rows, r ∉ w'.db.updates.rows →
    ∃ p ∈ w.stored, Lawful p.1 p.2 ∧ r.seq ≤ p.1.compactionFloorSeq

/-- What the server leaves to its clients: an upload it let in and that links to the chain
came before the deadline and answers the request. -/
def UploadOk (w : World β) : Label β → Prop
  | .resume c => ∀ s u g, w.sessions c = some s → s.pc = .storing u g →
      w.db.chains u = true → g.at_ < g.lease.expiresAt ∧ Answers u g.lease.issuedFor
  | _ => True

/-! ## What a step does to the tables -/

/-- A step that stores and deletes nothing. -/
structure Kept (w w' : World β) : Prop where
  snapshots : w'.db.snapshots = w.db.snapshots
  stored : w'.stored = w.stored
  rows : ∀ r ∈ w.db.updates.rows, r ∈ w'.db.updates.rows

theorem Kept.of_db {w w' : World β} (hdb : w'.db = w.db) (hst : w'.stored = w.stored) :
    Kept w w' :=
  ⟨by rw [hdb], hst, fun r hr => hdb ▸ hr⟩

theorem insertUpdates_rows (db : Db β) (d : DeviceId) (us : List (PushBlob β)) :
    ∀ r ∈ db.updates.rows, r ∈ (db.insertUpdates d us).1.updates.rows := by
  induction us generalizing db with
  | nil => exact fun r hr => hr
  | cons u us ih =>
    intro r hr
    obtain ⟨n, -, h⟩ | h := db.insertUpdate_cases d u
    · simp only [Db.insertUpdates, h]
      exact ih db r hr
    · simp only [Db.insertUpdates, h]
      exact ih _ r (List.mem_append_left _ hr)

section Kept

variable {w w' : World β} {c : ConnId} {s : Session β}

theorem dropDoc_kept : Kept w (w.dropDoc c s) := by
  unfold World.dropDoc
  split <;> exact .of_db rfl rfl

theorem releaseLease_kept : Kept w (w.releaseLease s) := by
  unfold World.releaseLease
  split <;> exact .of_db rfl rfl

theorem Kept.trans {w₁ w₂ w₃ : World β} (h₁ : Kept w₁ w₂) (h₂ : Kept w₂ w₃) : Kept w₁ w₃ :=
  ⟨h₂.snapshots.trans h₁.snapshots, h₂.stored.trans h₁.stored,
    fun r hr => h₂.rows r (h₁.rows r hr)⟩

theorem handleFrame_kept (f : ClientFrame β) : Kept w (w.handleFrame c s f) := by
  cases f with
  | openDoc =>
    simp only [World.handleFrame]
    split
    · exact .of_db rfl rfl
    · exact dropDoc_kept
  | pushUpdates us =>
    simp only [World.handleFrame]
    split
    · exact dropDoc_kept
    · unfold World.pushUpdates
      split
      · exact .of_db rfl rfl
      · refine ⟨?_, rfl, insertUpdates_rows w.db _ us⟩
        have h := congrArg Db.snapshots (w.db.insertUpdates_frame s.auth.deviceId us)
        exact h
  | pullUpdates since =>
    simp only [World.handleFrame]
    split
    · exact dropDoc_kept
    · unfold World.pullUpdates
      split
      · split <;> exact .of_db rfl rfl
      · exact .of_db rfl rfl
  | ack n =>
    simp only [World.handleFrame]
    split
    · exact dropDoc_kept
    · simp only [Db.advanceLastAckedSeq]
      split
      · exact ⟨rfl, rfl, fun r hr => hr⟩
      · split <;> exact ⟨rfl, rfl, fun r hr => hr⟩
  | pullSnapshot =>
    simp only [World.handleFrame]
    split
    · exact dropDoc_kept
    · exact .of_db rfl rfl
  | pushSnapshot upload =>
    simp only [World.handleFrame]
    split
    · exact dropDoc_kept
    · unfold World.pushSnapshot
      split
      · exact .of_db rfl rfl
      · split <;> exact .of_db rfl rfl

/-- A resumed handler stores at most the upload it was let in with. -/
theorem resume_kept [WireSize β] {cfg : SnapshotConfig} (hstep : w.resume cfg c s = some w') :
    Kept w w' ∨ ∃ u g, s.pc = .storing u g ∧ w.db.chains u = true ∧
      w'.db = { w.db with snapshots := w.db.snapshots ++ [w.db.snapshotRow u] } ∧
      w'.stored = w.stored ++ [(u, g)] := by
  unfold World.resume at hstep
  cases hpc : s.pc <;> simp only [hpc, Option.some.injEq, reduceCtorEq] at hstep <;> subst hstep
  case opening => exact .inl (.of_db rfl rfl)
  case subscribing epoch =>
    left
    unfold World.subscribe
    split <;> exact .of_db rfl rfl
  case committed inserted =>
    left
    unfold World.broadcast
    split
    · exact dropDoc_kept
    · exact .of_db rfl rfl
  case evaluating after stage =>
    left
    cases stage <;> cases after <;> exact .of_db rfl rfl
  case requesting decision => exact .inl (.of_db rfl rfl)
  case pulling cursor =>
    left
    simp only [World.pullBatch]
    split <;> exact .of_db rfl rfl
  case storing u g =>
    unfold World.storeSnapshot Db.insertSnapshot
    by_cases hchain : w.db.chains u = true
    · right
      simp only [hchain, if_true]
      exact ⟨u, g, rfl, hchain, rfl, rfl⟩
    · left
      simp only [hchain]
      exact .of_db rfl rfl

theorem deliver_kept {o : OpenDoc} (hstep : w.deliver c s o = some w') : Kept w w' := by
  unfold World.deliver at hstep
  split at hstep
  · split at hstep
    · cases hstep
    · exact Option.some.inj hstep ▸ dropDoc_kept
  · have hpop : ∀ r : SyncSessions β, Kept w { w with registry := r } := fun r => .of_db rfl rfl
    split at hstep
    · exact Option.some.inj hstep ▸ .of_db rfl rfl
    · exact Option.some.inj hstep ▸ (hpop _).trans (releaseLease_kept.trans dropDoc_kept)
    · exact Option.some.inj hstep ▸ (hpop _).trans (releaseLease_kept.trans dropDoc_kept)

/-- **What a step does to the tables.**  It keeps every row and snapshot, or it stores an
upload that was let in, or it runs a compaction. -/
theorem step_tables [WireSize β] {cfg : SnapshotConfig} {l : Label β}
    (hstep : World.step cfg w l = some w') :
    Kept w w' ∨
    (∃ c s u g, l = .resume c ∧ w.sessions c = some s ∧ s.pc = .storing u g ∧
      w.db.chains u = true ∧
      w'.db = { w.db with snapshots := w.db.snapshots ++ [w.db.snapshotRow u] } ∧
      w'.stored = w.stored ++ [(u, g)]) ∨
    (l = .compact ∧ w'.db = w.db.compactDoc ∧ w'.stored = w.stored) := by
  cases l <;> simp only [World.step] at hstep
  case connect c auth =>
    split at hstep
    · cases hstep
    · split at hstep
      · exact .inl (Option.some.inj hstep ▸ .of_db rfl rfl)
      · cases hstep
  case recv c f =>
    split at hstep
    · split at hstep
      · exact .inl (Option.some.inj hstep ▸ handleFrame_kept f)
      · cases hstep
    · cases hstep
  case resume c =>
    split at hstep
    · rename_i s hs
      rcases resume_kept hstep with hkept | ⟨u, g, hpc, hchain, hdb, hst⟩
      · exact .inl hkept
      · exact .inr (.inl ⟨c, s, u, g, rfl, hs, hpc, hchain, hdb, hst⟩)
    · cases hstep
  case deliver c =>
    split at hstep
    · split at hstep
      · split at hstep
        · exact .inl (deliver_kept hstep)
        · cases hstep
      · cases hstep
    · cases hstep
  case close c =>
    split at hstep
    · split at hstep
      · exact .inl (Option.some.inj hstep ▸ releaseLease_kept.trans dropDoc_kept)
      · cases hstep
    · cases hstep
  case abort c =>
    split at hstep
    · split at hstep
      · cases hstep
      · cases hstep
      · exact .inl (Option.some.inj hstep ▸ dropDoc_kept)
    · cases hstep
  case compact =>
    split at hstep
    · cases hstep
    · exact .inr (.inr (Option.some.inj hstep ▸ ⟨rfl, rfl, rfl⟩))
  all_goals exact .inl (Option.some.inj hstep ▸ ⟨rfl, rfl, fun r hr => hr⟩)

end Kept

/-! ## Where an upload is let in -/

section Storing

variable {w w' : World β} {c : ConnId} {s s' : Session β} {u : SnapshotUpload β} {g : Grant β}

theorem dropDoc_pc (h : (w.dropDoc c s).sessions c = some s') : s'.pc = s.pc := by
  unfold World.dropDoc at h
  split at h
  · rw [World.put_sessions_self, Option.some.injEq] at h
    rw [h]
  · have h : (w.put c (s.withDoc none)).sessions c = some s' := h
    rw [World.put_sessions_self, Option.some.injEq] at h
    rw [← h]
    rfl

/-- A handler stands before the insert only after `push_snapshot` found the running lease in
the connection's slot. -/
theorem handleFrame_storing {f : ClientFrame β}
    (h : (w.handleFrame c s f).sessions c = some s') (hready : s.pc = .ready)
    (hpc : s'.pc = .storing u g) :
    f = .pushSnapshot u ∧ (∃ o, s.openDoc = some o ∧ o.snapshotLease = some g.slot) ∧
      w.coordinator.heldBy g.slot = some g.lease ∧ g.at_ = w.now := by
  have hend : ∀ t : Session β, t.pc ≠ .storing u g → (w.put c t).sessions c = some s' → False := by
    intro t ht hput
    rw [World.put_sessions_self, Option.some.injEq] at hput
    exact ht (hput ▸ hpc)
  have hdrop : ∀ t : Session β, (w.endByError c t).sessions c = some s' → False := by
    intro t ht
    rw [dropDoc_pc ht] at hpc
    cases hpc
  cases f with
  | openDoc =>
    simp only [World.handleFrame] at h
    split at h
    · exact (hend _ (by simp) h).elim
    · exact (hdrop _ h).elim
  | pushUpdates us =>
    simp only [World.handleFrame] at h
    split at h
    · exact (hdrop _ h).elim
    · unfold World.pushUpdates at h
      split at h
      · exact (hend _ (by simp [hready]) h).elim
      · exact (hend _ (by simp) h).elim
  | pullUpdates since =>
    simp only [World.handleFrame] at h
    split at h
    · exact (hdrop _ h).elim
    · unfold World.pullUpdates at h
      split at h
      · split at h
        · exact (hend _ (by simp [hready]) h).elim
        · exact (hend _ (by simp) h).elim
      · exact (hend _ (by simp) h).elim
  | ack n =>
    simp only [World.handleFrame] at h
    split at h
    · exact (hdrop _ h).elim
    · exact (hend _ (by simp) h).elim
  | pullSnapshot =>
    simp only [World.handleFrame] at h
    split at h
    · exact (hdrop _ h).elim
    · exact (hend _ (by simp [hready]) h).elim
  | pushSnapshot upload =>
    simp only [World.handleFrame] at h
    split at h
    · exact (hdrop _ h).elim
    · rename_i o ho
      unfold World.pushSnapshot at h
      split at h
      · exact (hend _ (by simp [hready]) h).elim
      · rename_i id hslot
        split at h
        · exact (hend _ (by simp [hready]) h).elim
        · rename_i lease hheld
          have h : (w.put c ((s.withDoc (some { o with snapshotLease := none })).goto
              (.storing upload ⟨id, lease, w.now⟩))).sessions c = some s' := h
          rw [World.put_sessions_self, Option.some.injEq] at h
          rw [← h, Session.goto_pc, Pc.storing.injEq] at hpc
          obtain ⟨rfl, rfl⟩ := hpc
          exact ⟨rfl, ⟨o, ho, hslot⟩, hheld, rfl⟩

theorem resume_not_storing [WireSize β] {cfg : SnapshotConfig}
    (hstep : w.resume cfg c s = some w') (h : w'.sessions c = some s') :
    s'.pc ≠ .storing u g := by
  intro hpc'
  have hend : ∀ t : Session β, t.pc ≠ .storing u g → (w.put c t).sessions c = some s' → False := by
    intro t ht hput
    rw [World.put_sessions_self, Option.some.injEq] at hput
    exact ht (hput ▸ hpc')
  unfold World.resume at hstep
  cases hpc : s.pc <;> simp only [hpc, Option.some.injEq, reduceCtorEq] at hstep <;> subst hstep
  case opening => exact hend _ (by simp) h
  case subscribing epoch =>
    unfold World.subscribe at h
    split at h <;> exact hend _ (by simp) h
  case committed inserted =>
    unfold World.broadcast at h
    split at h
    · rw [dropDoc_pc h] at hpc'
      cases hpc'
    · exact hend _ (by simp) h
  case evaluating after stage => cases stage <;> cases after <;> exact hend _ (by simp) h
  case requesting decision => exact hend _ (by simp) h
  case pulling cursor =>
    simp only [World.pullBatch] at h
    split at h <;> exact hend _ (by simp) h
  case storing upload grant =>
    unfold World.storeSnapshot at h
    split at h <;> exact hend _ (by simp) h

/-- **Who stands before the insert.**  It stood there already, or the step let it in. -/
theorem step_storing [WireSize β] {cfg : SnapshotConfig} {l : Label β}
    (hstep : World.step cfg w l = some w') (hs' : w'.sessions c = some s')
    (hpc : s'.pc = .storing u g) :
    (∃ s, w.sessions c = some s ∧ s.pc = .storing u g) ∨
      (GrantedBy w l c u g ∧ g.slot = g.lease.leaseId) := by
  cases l <;> simp only [World.step] at hstep
  case connect d auth =>
    split at hstep
    · cases hstep
    · split at hstep
      · rw [← Option.some.inj hstep] at hs'
        by_cases hd : c = d
        · subst hd
          rw [World.put_sessions_self, Option.some.injEq] at hs'
          rw [← hs'] at hpc
          cases hpc
        · rw [w.put_sessions_ne _ hd] at hs'
          exact .inl ⟨s', hs', hpc⟩
      · cases hstep
  case recv d f =>
    split at hstep
    · rename_i s hs
      split at hstep
      · rename_i hready
        rw [← Option.some.inj hstep] at hs'
        by_cases hd : c = d
        · subst hd
          right
          have hrdy : s.pc = .ready := by cases h : s.pc <;> simp_all [Pc.isReady]
          obtain ⟨rfl, ⟨o, ho, hslot⟩, hheld, hat⟩ :=
            handleFrame_storing (s := s.record [.received f]) hs' hrdy hpc
          obtain ⟨hlease, hid⟩ := SnapshotCoordinator.heldBy_eq_some hheld
          exact ⟨⟨rfl, ⟨s, o, hs, ho, hslot⟩, hlease, hat⟩, hid.symm⟩
        · rw [World.handleFrame_sessions_ne hd] at hs'
          exact .inl ⟨s', hs', hpc⟩
      · cases hstep
    · cases hstep
  case resume d =>
    split at hstep
    · by_cases hd : c = d
      · subst hd
        exact absurd hpc (resume_not_storing hstep hs')
      · rw [World.resume_sessions_ne hd hstep] at hs'
        exact .inl ⟨s', hs', hpc⟩
    · cases hstep
  case deliver d =>
    split at hstep
    · rename_i s hs
      split at hstep
      · rename_i hready
        split at hstep
        · by_cases hd : c = d
          · subst hd
            have hkeep : ∀ t : Session β, t.pc = .ready → s'.pc ≠ t.pc := by
              intro t ht he
              rw [he, ht] at hpc
              cases hpc
            have hrdy : s.pc = .ready := by cases h : s.pc <;> simp_all [Pc.isReady]
            unfold World.deliver at hstep
            split at hstep
            · split at hstep
              · cases hstep
              · rw [← Option.some.inj hstep] at hs'
                rw [dropDoc_pc hs'] at hpc
                cases hpc
            · split at hstep
              · rw [← Option.some.inj hstep, World.put_sessions_self, Option.some.injEq] at hs'
                exact absurd (hs' ▸ rfl) (hkeep _ hrdy)
              · rw [← Option.some.inj hstep] at hs'
                exact absurd (dropDoc_pc hs') (hkeep _ hrdy)
              · rw [← Option.some.inj hstep] at hs'
                exact absurd (dropDoc_pc hs') (hkeep _ hrdy)
          · rw [World.deliver_sessions_ne hd hstep] at hs'
            exact .inl ⟨s', hs', hpc⟩
        · cases hstep
      · cases hstep
    · cases hstep
  case close d =>
    split at hstep
    · split at hstep
      · rw [← Option.some.inj hstep] at hs'
        by_cases hd : c = d
        · subst hd
          rw [dropDoc_pc hs'] at hpc
          cases hpc
        · rw [World.endLoop, World.dropDoc_sessions_ne hd, World.releaseLease_sessions] at hs'
          exact .inl ⟨s', hs', hpc⟩
      · cases hstep
    · cases hstep
  case abort d =>
    split at hstep
    · split at hstep
      · cases hstep
      · cases hstep
      · rw [← Option.some.inj hstep] at hs'
        by_cases hd : c = d
        · subst hd
          rw [dropDoc_pc hs'] at hpc
          cases hpc
        · rw [World.endByError, World.dropDoc_sessions_ne hd] at hs'
          exact .inl ⟨s', hs', hpc⟩
    · cases hstep
  case compact =>
    split at hstep
    · cases hstep
    · rw [← Option.some.inj hstep] at hs'
      exact .inl ⟨s', hs', hpc⟩
  case restart =>
    rw [← Option.some.inj hstep] at hs'
    obtain ⟨s, -, rfl⟩ := Option.map_eq_some_iff.1 hs'
    cases hpc
  all_goals
    rw [← Option.some.inj hstep] at hs'
    exact .inl ⟨s', hs', hpc⟩

end Storing

/-! ## The runs -/

/-- What a run of good uploads keeps: the chain is what was lawfully stored. -/
structure LeaseInv (w : World β) : Prop where
  rows : w.db.snapshots.map SnapshotRow.compactionFloorSeq =
    w.stored.map fun p => p.1.compactionFloorSeq
  lawful : ∀ p ∈ w.stored, Lawful p.1 p.2
  slot : ∀ c s u g, w.sessions c = some s → s.pc = .storing u g → g.slot = g.lease.leaseId

theorem leaseInv_fresh (members : List AccountId) (devices : List Device) :
    LeaseInv (World.fresh members devices : World β) where
  rows := rfl
  lawful p hp := by cases hp
  slot c s u g hs := by cases hs

/-- **One step.**  A step that stores only good uploads is lawful and keeps the invariant. -/
theorem LeaseInv.step [WireSize β] {cfg : SnapshotConfig} {w w' : World β} {l : Label β}
    (h : LeaseInv w) (hok : UploadOk w l) (hstep : World.step cfg w l = some w') :
    LawfulStep w l w' ∧ LeaseInv w' := by
  have hgranted : ∀ c s' u g, w'.sessions c = some s' → s'.pc = .storing u g →
      (∃ s, w.sessions c = some s ∧ s.pc = .storing u g) ∨
        (GrantedBy w l c u g ∧ g.slot = g.lease.leaseId) :=
    fun c s' u g hs' hpc => step_storing hstep hs' hpc
  have hslot : ∀ c s u g, w'.sessions c = some s → s.pc = .storing u g →
      g.slot = g.lease.leaseId := by
    intro c s' u g hs' hpc
    rcases hgranted c s' u g hs' hpc with ⟨s, hs, hspc⟩ | ⟨-, hid⟩
    · exact h.slot c s u g hs hspc
    · exact hid
  have hgr : ∀ c s' u g, w'.sessions c = some s' → s'.pc = .storing u g →
      (∃ s, w.sessions c = some s ∧ s.pc = .storing u g) ∨ GrantedBy w l c u g :=
    fun c s' u g hs' hpc => (hgranted c s' u g hs' hpc).imp_right And.left
  rcases step_tables hstep with hkept | ⟨c, s, u, g, rfl, hs, hpc, hchain, hdb, hst⟩ |
    ⟨rfl, hdb, hst⟩
  · refine ⟨⟨hgr, .inl hkept.snapshots, fun r hr hout => absurd (hkept.rows r hr) hout⟩, ?_⟩
    exact ⟨by rw [hkept.snapshots, hkept.stored]; exact h.rows, hkept.stored ▸ h.lawful, hslot⟩
  · have hlawful : Lawful u g := ⟨h.slot c s u g hs hpc, hok s u g hs hpc hchain⟩
    refine ⟨⟨hgr, .inr ⟨c, s, u, g, rfl, hs, hpc, hlawful, by rw [hdb]⟩, ?_⟩, ?_⟩
    · rw [hdb]
      exact fun r hr hout => absurd hr hout
    · refine ⟨?_, ?_, hslot⟩
      · rw [hdb, hst, List.map_append, List.map_append, h.rows]
        rfl
      · intro p hp
        rw [hst, List.mem_append, List.mem_singleton] at hp
        rcases hp with hp | rfl
        · exact h.lawful p hp
        · exact hlawful
  · refine ⟨⟨hgr, .inl ?_, ?_⟩, ?_⟩
    · rw [hdb, Db.compactDoc]
      split <;> rfl
    · intro r hr hout
      rw [hdb, Db.compactDoc] at hout
      split at hout
      · exact absurd hr hout
      · rename_i latest hlatest
        simp only [UpdateLog.deleteUpTo_rows, List.mem_filter, hr, true_and, decide_eq_true_eq,
          not_lt] at hout
        have hmem : latest.compactionFloorSeq ∈
            w.stored.map fun p => p.1.compactionFloorSeq := by
          rw [← h.rows]
          exact List.mem_map_of_mem (List.mem_of_getLast? hlatest)
        obtain ⟨p, hp, hfloor⟩ := List.mem_map.1 hmem
        exact ⟨p, hp, h.lawful p hp, hfloor ▸ hout⟩
    · refine ⟨?_, hst ▸ h.lawful, hslot⟩
      rw [hdb, hst, Db.compactDoc]
      split <;> exact h.rows

/-- A lawful step stores only good uploads. -/
theorem LawfulStep.uploadOk [WireSize β] {cfg : SnapshotConfig} {w : World β} {l : Label β}
    (h : ∀ w', World.step cfg w l = some w' → LawfulStep w l w') : UploadOk w l := by
  cases l with
  | resume c =>
    intro s u g hs hpc hchain
    have hstep : World.step cfg w (.resume c) = some (w.storeSnapshot c s u g) := by
      simp [World.step, hs, World.resume, hpc]
    have hnew : (w.storeSnapshot c s u g).db.snapshots =
        w.db.snapshots ++ [w.db.snapshotRow u] := by
      simp [World.storeSnapshot, Db.insertSnapshot, hchain]
    rcases (h _ hstep).stored with heq | ⟨d, t, v, k, hl, ht, htpc, hlawful, -⟩
    · rw [hnew] at heq
      simp at heq
    · rw [Label.resume.injEq] at hl
      subst hl
      rw [hs, Option.some.injEq] at ht
      subst ht
      rw [hpc, Pc.storing.injEq] at htpc
      obtain ⟨rfl, rfl⟩ := htpc
      exact hlawful.2
  | _ => trivial

/-- A device joins, pushes a row and is asked for a snapshot with floor `0`, because the
account's other device has acked nothing.  It answers after the deadline, below the requested
frontier and with floor `1`. -/
def lateUploadRun : List (Label EncryptedBlob) :=
  joinRun 0 0 ++
    [.recv 0 (.pushUpdates [⟨20, ⟨[], []⟩⟩]), .resume 0, .resume 0, .resume 0, .resume 0,
      .resume 0, .resume 0, .tick, .tick, .tick, .tick, .tick,
      .recv 0 (.pushSnapshot ⟨0, 1, none, ⟨[], []⟩, ⟨[], []⟩⟩), .resume 0]

end Monoplan.Server
