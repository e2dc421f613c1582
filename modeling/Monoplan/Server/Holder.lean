import Monoplan.Server.Ws

/-!
# Who holds the snapshot lease

A lease is held by a connection: its id stands in the connection's slot, or the task is about
to put it there (`Session.Holds`).  The session loop gives it back when it ends and when it
unbinds the document, but a handler error, a refused `OpenDoc` and a drained broadcast channel
leave the loop before that.

* `lease_held_iff`: along a run the running lease is always held by a live connection with the
  document open, exactly as long as no session that ends by an error holds it (`EndsFree`).
* `lease_can_leak`: a session asked for a snapshot dies on its socket, and nobody else is asked
  until the deadline.
-/

namespace Monoplan.Server

open Monoplan.Base Monoplan.Protocol

variable {β : Type*}

/-! ## Holding a lease -/

/-- The lease id a task is about to put into its connection's slot. -/
def Pc.asked : Pc β → Option ℕ
  | .requesting (.issue id _) => some id
  | _ => none

/-- The handler was entered with the document open and will use it again. -/
def Pc.needsDoc : Pc β → Bool
  | .committed _ => true
  | .evaluating .. => true
  | .requesting _ => true
  | _ => false

namespace Session

/-- The lease id in the connection's slot. -/
def slot (s : Session β) : Option ℕ := s.openDoc.bind OpenDoc.snapshotLease

/-- The connection holds the lease `id`. -/
def Holds (s : Session β) (id : ℕ) : Prop := s.slot = some id ∨ s.pc.asked = some id

@[simp] theorem slot_goto (s : Session β) (pc : Pc β) : (s.goto pc).slot = s.slot := rfl
@[simp] theorem slot_send (s : Session β) (f : ServerFrame β) : (s.send f).slot = s.slot := rfl
@[simp] theorem slot_record (s : Session β) (es : List (Event β)) :
    (s.record es).slot = s.slot := rfl

end Session

/-- **What the lease table promises.**  A lease that is running is held by a connection whose
task is alive and which has the document open. -/
def World.LeaseHeld (w : World β) : Prop :=
  ∀ lease, w.coordinator.lease = .active lease → w.now < lease.expiresAt →
    ∃ c s, w.sessions c = some s ∧ s.pc ≠ .ended ∧ s.openDoc ≠ none ∧ s.Holds lease.leaseId

/-- The step ends the session of `c` by an error: its socket or a query failed inside a
handler, its `OpenDoc` was refused, or its broadcast channel is closed and drained. -/
def EndsByError (w : World β) (c : ConnId) (s : Session β) : Label β → Prop
  | .abort d => d = c ∧ s.pc ≠ .ended ∧ ∀ inserted, s.pc ≠ .committed inserted
  | .recv d f => d = c ∧ s.pc.isReady = true ∧ f = .openDoc ∧
      w.db.isMember s.auth.accountId = false
  | .deliver d => d = c ∧ s.pc.isReady = true ∧ ∃ o, s.openDoc = some o ∧
      w.registry.channels o.sub = [] ∧ ¬ w.registry.Registered o.sub
  | _ => False

/-- A session that the step ends by an error does not hold the running lease. -/
def EndsFree (w : World β) (l : Label β) : Prop :=
  ∀ c s lease, w.sessions c = some s → EndsByError w c s l →
    w.coordinator.lease = .active lease → w.now < lease.expiresAt → ¬ s.Holds lease.leaseId

/-! ## The invariant -/

/-- The connection `c` holds the lease `id`. -/
def World.HeldBy (w : World β) (c : ConnId) (id : ℕ) : Prop :=
  ∃ s, w.sessions c = some s ∧ s.Holds id

/-- What one connection keeps: an ended task has no document, a handler in the middle has one,
and lease ids grow from the slot to the id asked for to the counter. -/
structure SlotInv (next : ℕ) (s : Session β) : Prop where
  ended : s.pc = .ended → s.openDoc = none
  needs : s.pc.needsDoc = true → s.openDoc ≠ none
  order : ∀ i j, s.slot = some i → s.pc.asked = some j → i < j
  below : ∀ id, s.Holds id → id < next

/-- The invariant of the lease table. -/
structure HolderInv (w : World β) : Prop where
  slots : ∀ c s, w.sessions c = some s → SlotInv w.coordinator.nextLeaseId s
  fresh : ∀ lease, w.coordinator.lease = .active lease →
    lease.leaseId < w.coordinator.nextLeaseId
  /-- The running lease is the newest one any connection holds. -/
  newest : ∀ lease, w.coordinator.lease = .active lease →
    ∀ c id, w.HeldBy c id → id ≤ lease.leaseId
  once : ∀ c d id, w.HeldBy c id → w.HeldBy d id → c = d
  held : ∀ lease, w.coordinator.lease = .active lease → w.now < lease.expiresAt →
    ∃ c, w.HeldBy c lease.leaseId

/-- Who holds a lease has the document open. -/
theorem SlotInv.bound {next : ℕ} {s : Session β} (h : SlotInv next s) {id : ℕ}
    (hid : s.Holds id) : s.openDoc ≠ none := by
  rcases hid with hslot | hask
  · intro hnone
    rw [Session.slot, hnone] at hslot
    cases hslot
  · apply h.needs
    cases hpc : s.pc <;> rw [hpc] at hask <;> first | rfl | cases hask

theorem HolderInv.leaseHeld {w : World β} (h : HolderInv w) : w.LeaseHeld := by
  intro lease hlease hnow
  obtain ⟨c, s, hs, hid⟩ := h.held lease hlease hnow
  have hdoc : s.openDoc ≠ none := (h.slots c s hs).bound hid
  exact ⟨c, s, hs, fun hpc => hdoc ((h.slots c s hs).ended hpc), hdoc, hid⟩

theorem HolderInv.below {w : World β} (h : HolderInv w) {c : ConnId} {id : ℕ}
    (hid : w.HeldBy c id) : id < w.coordinator.nextLeaseId := by
  obtain ⟨s, hs, hid⟩ := hid
  exact (h.slots c s hs).below id hid

theorem holderInv_fresh (members : List AccountId) (devices : List Device) :
    HolderInv (World.fresh members devices : World β) where
  slots c s hs := by cases hs
  fresh lease hlease := by cases hlease
  newest lease hlease := by cases hlease
  once c d id hc := by
    obtain ⟨s, hs, -⟩ := hc
    cases hs
  held lease hlease := by cases hlease

theorem SlotInv.mono {n n' : ℕ} {s : Session β} (h : SlotInv n s) (hn : n ≤ n') :
    SlotInv n' s where
  ended := h.ended
  needs := h.needs
  order := h.order
  below id hid := lt_of_lt_of_le (h.below id hid) hn

/-- A step of the environment. -/
theorem HolderInv.environment {w w' : World β} (h : HolderInv w)
    (hs : w'.sessions = w.sessions) (hlease : w'.coordinator.lease = w.coordinator.lease)
    (hnext : w.coordinator.nextLeaseId ≤ w'.coordinator.nextLeaseId) (hnow : w.now ≤ w'.now) :
    HolderInv w' := by
  have hheld : ∀ c id, w'.HeldBy c id ↔ w.HeldBy c id := by
    intro c id
    simp only [World.HeldBy, hs]
  refine ⟨?_, ?_, ?_, ?_, ?_⟩
  · intro c s hcs
    rw [hs] at hcs
    exact (h.slots c s hcs).mono hnext
  · intro lease hl
    rw [hlease] at hl
    exact lt_of_lt_of_le (h.fresh lease hl) hnext
  · intro lease hl c id hid
    rw [hlease] at hl
    exact h.newest lease hl c id ((hheld c id).1 hid)
  · intro c d id hc hd
    exact h.once c d id ((hheld c id).1 hc) ((hheld d id).1 hd)
  · intro lease hl hlt
    rw [hlease] at hl
    obtain ⟨c, hc⟩ := h.held lease hl (lt_of_le_of_lt hnow hlt)
    exact ⟨c, (hheld c _).2 hc⟩

/-- **A turn of one task.**  The session of `c` becomes `t`.  It holds no more than before,
but for a lease that the step took; and unless the step ended it, a running lease that it held
and that still runs is held on. -/
theorem HolderInv.turn {w w' : World β} {c : ConnId} {t : Session β} (h : HolderInv w)
    (hs : w'.sessions = Function.update w.sessions c (some t)) (hnow : w'.now = w.now)
    (hnext : w.coordinator.nextLeaseId ≤ w'.coordinator.nextLeaseId)
    (hslot : SlotInv w'.coordinator.nextLeaseId t)
    (hold : ∀ id, t.Holds id → w.HeldBy c id ∨
      (id = w.coordinator.nextLeaseId ∧ ∃ lease, w'.coordinator.lease = .active lease ∧
        lease.leaseId = id))
    (hlease : ∀ lease, w'.coordinator.lease = .active lease →
      (w.coordinator.lease = .active lease ∧
        (w.now < lease.expiresAt → w.HeldBy c lease.leaseId → t.Holds lease.leaseId)) ∨
      (lease.leaseId = w.coordinator.nextLeaseId ∧ t.Holds lease.leaseId)) :
    HolderInv w' := by
  have hself : w'.sessions c = some t := by rw [hs, Function.update_self]
  have hne : ∀ d, d ≠ c → w'.sessions d = w.sessions d := by
    intro d hd
    rw [hs, Function.update_of_ne hd]
  have hheld : ∀ d id, w'.HeldBy d id → (d = c ∧ t.Holds id) ∨ (d ≠ c ∧ w.HeldBy d id) := by
    rintro d id ⟨s, hds, hid⟩
    by_cases hd : d = c
    · subst hd
      rw [hself, Option.some.injEq] at hds
      exact .inl ⟨rfl, hds ▸ hid⟩
    · rw [hne d hd] at hds
      exact .inr ⟨hd, s, hds, hid⟩
  have hkeep : ∀ d id, d ≠ c → w.HeldBy d id → w'.HeldBy d id := by
    rintro d id hd ⟨s, hds, hid⟩
    exact ⟨s, (hne d hd).trans hds, hid⟩
  refine ⟨?_, ?_, ?_, ?_, ?_⟩
  · intro d s hds
    by_cases hd : d = c
    · subst hd
      rw [hself, Option.some.injEq] at hds
      exact hds ▸ hslot
    · rw [hne d hd] at hds
      exact (h.slots d s hds).mono hnext
  · intro lease hl
    rcases hlease lease hl with ⟨hold', -⟩ | ⟨-, hid⟩
    · exact lt_of_lt_of_le (h.fresh lease hold') hnext
    · exact hslot.below _ hid
  · intro lease hl d id hid
    -- an id held before is below the counter; an id taken by the step is the lease's own
    have hd : w.HeldBy d id ∨ id = lease.leaseId := by
      rcases hheld d id hid with ⟨rfl, ht⟩ | ⟨-, hd⟩
      · rcases hold id ht with hc | ⟨-, lease', hl', rfl⟩
        · exact .inl hc
        · rw [hl, LeaseState.active.injEq] at hl'
          exact .inr (by rw [hl'])
      · exact .inl hd
    rcases hd with hd | rfl
    · rcases hlease lease hl with ⟨hl', -⟩ | ⟨hnew, -⟩
      · exact h.newest lease hl' d id hd
      · have := h.below hd
        omega
    · exact le_rfl
  · -- only the task that took its turn can have gained an id, and that id is fresh
    have hgain : ∀ d id, d ≠ c → t.Holds id → w.HeldBy d id → False := by
      intro d id hd ht hdid
      rcases hold id ht with hc | ⟨rfl, -⟩
      · exact hd (h.once d c id hdid hc)
      · exact absurd (h.below hdid) (lt_irrefl _)
    intro d e id hdid heid
    rcases hheld d id hdid with ⟨rfl, hd⟩ | ⟨hd, hdid⟩
    · rcases hheld e id heid with ⟨rfl, -⟩ | ⟨he, heid⟩
      · rfl
      · exact (hgain e id he hd heid).elim
    · rcases hheld e id heid with ⟨rfl, he⟩ | ⟨-, heid⟩
      · exact (hgain d id hd he hdid).elim
      · exact h.once d e id hdid heid
  · intro lease hl hlt
    rw [hnow] at hlt
    rcases hlease lease hl with ⟨hl', hc⟩ | ⟨-, ht⟩
    · obtain ⟨d, hd⟩ := h.held lease hl' hlt
      by_cases hdc : d = c
      · subst hdc
        exact ⟨d, t, hself, hc hlt hd⟩
      · exact ⟨d, hkeep d _ hdc hd⟩
    · exact ⟨c, t, hself, ht⟩

/-! ## Turns of one task -/

namespace SnapshotCoordinator

/-- Give back what stands in a slot. -/
def releaseSlot (co : SnapshotCoordinator β) : Option ℕ → SnapshotCoordinator β
  | none => co
  | some id => co.release id

@[simp] theorem releaseSlot_nextLeaseId (co : SnapshotCoordinator β) (slot : Option ℕ) :
    (co.releaseSlot slot).nextLeaseId = co.nextLeaseId := by
  cases slot with
  | none => rfl
  | some id => exact co.release_nextLeaseId id

theorem releaseSlot_active {co : SnapshotCoordinator β} {slot : Option ℕ}
    {lease : ActiveLease β} (h : (co.releaseSlot slot).lease = .active lease) :
    co.lease = .active lease ∧ slot ≠ some lease.leaseId := by
  cases slot with
  | none => exact ⟨h, fun hne => by cases hne⟩
  | some id =>
    obtain ⟨hl, hne⟩ := release_active h
    exact ⟨hl, fun heq => hne (Option.some.inj heq).symm⟩

end SnapshotCoordinator

section Turns

variable {w w' : World β} {c : ConnId} {s t : Session β}

theorem SlotInv.of_unbound {n : ℕ} (hdoc : t.openDoc = none) (hpc : t.pc.needsDoc = false) :
    SlotInv n t ∧ ∀ id, ¬ t.Holds id := by
  have hslot : t.slot = none := by rw [Session.slot, hdoc]; rfl
  have hasked : t.pc.asked = none := by
    cases h : t.pc <;> rw [h] at hpc <;> first | rfl | cases hpc
  have hnone : ∀ id, ¬ t.Holds id := by
    rintro id (h | h)
    · rw [hslot] at h
      cases h
    · rw [hasked] at h
      cases h
  refine ⟨⟨fun _ => hdoc, ?_, ?_, fun id hid => (hnone id hid).elim⟩, hnone⟩
  · intro hneeds
    rw [hpc] at hneeds
    cases hneeds
  · intro i j hi
    rw [hslot] at hi
    cases hi

/-- The task goes on with the same document, slot and request. -/
theorem HolderInv.same (h : HolderInv w) (hs : w.sessions c = some s)
    (hw : w'.sessions = Function.update w.sessions c (some t)) (hnow : w'.now = w.now)
    (hco : w'.coordinator = w.coordinator) (hslot : t.slot = s.slot)
    (hasked : t.pc.asked = s.pc.asked) (hended : t.pc = .ended → t.openDoc = none)
    (hneeds : t.pc.needsDoc = true → t.openDoc ≠ none) : HolderInv w' := by
  have hholds : ∀ id, t.Holds id ↔ s.Holds id := by
    intro id
    rw [Session.Holds, Session.Holds, hslot, hasked]
  have hinv := h.slots c s hs
  refine h.turn hw hnow (by rw [hco]) ?_ ?_ ?_
  · rw [hco]
    refine ⟨hended, hneeds, ?_, fun id hid => hinv.below id ((hholds id).1 hid)⟩
    rw [hslot, hasked]
    exact hinv.order
  · exact fun id hid => .inl ⟨s, hs, (hholds id).1 hid⟩
  · intro lease hl
    rw [hco] at hl
    refine .inl ⟨hl, ?_⟩
    rintro - ⟨s', hs', hid⟩
    rw [hs, Option.some.injEq] at hs'
    exact (hholds _).2 (hs' ▸ hid)

/-- The task loses its document while it holds no running lease. -/
theorem HolderInv.lost (h : HolderInv w) (hs : w.sessions c = some s)
    (hw : w'.sessions = Function.update w.sessions c (some t)) (hnow : w'.now = w.now)
    (hco : w'.coordinator = w.coordinator) (hdoc : t.openDoc = none)
    (hpc : t.pc.needsDoc = false)
    (hfree : ∀ lease, w.coordinator.lease = .active lease → w.now < lease.expiresAt →
      ¬ s.Holds lease.leaseId) : HolderInv w' := by
  obtain ⟨hslot, hnone⟩ := SlotInv.of_unbound (n := w'.coordinator.nextLeaseId) hdoc hpc
  refine h.turn hw hnow (by rw [hco]) hslot (fun id hid => (hnone id hid).elim) ?_
  intro lease hl
  rw [hco] at hl
  refine .inl ⟨hl, ?_⟩
  rintro hlt ⟨s', hs', hid⟩
  rw [hs, Option.some.injEq] at hs'
  exact (hfree lease hl hlt (hs' ▸ hid)).elim

/-- The task gives back what it holds. -/
theorem HolderInv.released (h : HolderInv w) (hs : w.sessions c = some s)
    (hw : w'.sessions = Function.update w.sessions c (some t)) (hnow : w'.now = w.now)
    (hco : w'.coordinator = w.coordinator.releaseSlot s.slot)
    (hready : s.pc.asked = none) (hslot : SlotInv w.coordinator.nextLeaseId t)
    (hnone : ∀ id, ¬ t.Holds id) : HolderInv w' := by
  have hnext : w'.coordinator.nextLeaseId = w.coordinator.nextLeaseId := by
    rw [hco, SnapshotCoordinator.releaseSlot_nextLeaseId]
  refine h.turn hw hnow (by rw [hnext]) (hnext ▸ hslot) (fun id hid => (hnone id hid).elim) ?_
  intro lease hl
  -- what still runs was not in the slot, so the task did not hold it
  rw [hco] at hl
  have hrun := SnapshotCoordinator.releaseSlot_active hl
  refine .inl ⟨hrun.1, ?_⟩
  rintro - ⟨s', hs', hid⟩
  rw [hs, Option.some.injEq] at hs'
  subst hs'
  rcases hid with hid | hid
  · exact (hrun.2 hid).elim
  · rw [hready] at hid
    cases hid

theorem dropDoc_sessions (w : World β) (c : ConnId) (s : Session β) :
    ∃ t, (w.dropDoc c s).sessions = Function.update w.sessions c (some t) ∧
      t.openDoc = none ∧ t.pc = s.pc := by
  unfold World.dropDoc
  split
  · rename_i hnone
    exact ⟨s, rfl, hnone, rfl⟩
  · exact ⟨s.withDoc none, rfl, rfl, rfl⟩

theorem dropDoc_coordinator (w : World β) (c : ConnId) (s : Session β) :
    (w.dropDoc c s).coordinator = w.coordinator := by
  unfold World.dropDoc
  split <;> rfl

theorem dropDoc_now (w : World β) (c : ConnId) (s : Session β) :
    (w.dropDoc c s).now = w.now := by
  unfold World.dropDoc
  split <;> rfl

theorem HolderInv.endByError (h : HolderInv w) (hs : w.sessions c = some s)
    (hfree : ∀ lease, w.coordinator.lease = .active lease → w.now < lease.expiresAt →
      ¬ s.Holds lease.leaseId) (u : Session β) : HolderInv (w.endByError c u) := by
  obtain ⟨t, ht, hdoc, hpc⟩ := dropDoc_sessions w c (u.goto .ended)
  refine h.lost hs ht (dropDoc_now ..) (dropDoc_coordinator ..) hdoc ?_ hfree
  rw [hpc]
  rfl

theorem releaseLease_coordinator (w : World β) (s : Session β) :
    (w.releaseLease s).coordinator = w.coordinator.releaseSlot s.slot := by
  unfold World.releaseLease Session.slot
  cases s.openDoc.bind OpenDoc.snapshotLease <;> rfl

theorem releaseLease_now (w : World β) (s : Session β) : (w.releaseLease s).now = w.now := by
  unfold World.releaseLease
  split <;> rfl

/-- `unbind_doc`, and the end of the loop. -/
theorem HolderInv.unbind (h : HolderInv w) (hs : w.sessions c = some s)
    (hready : s.pc.asked = none) {u v : Session β} (hu : u.slot = s.slot)
    (hv : v.pc.needsDoc = false) : HolderInv ((w.releaseLease u).dropDoc c v) := by
  obtain ⟨t, ht, hdoc, hpc⟩ := dropDoc_sessions (w.releaseLease u) c v
  obtain ⟨hslot, hnone⟩ :=
    SlotInv.of_unbound (n := w.coordinator.nextLeaseId) hdoc (hpc ▸ hv)
  refine h.released hs (by rw [ht, World.releaseLease_sessions]) ?_ ?_ hready hslot hnone
  · rw [dropDoc_now, releaseLease_now]
  · rw [dropDoc_coordinator, releaseLease_coordinator, hu]

/-! ## The handlers -/

/-- A payload frame leaves the lease alone, but for an upload that gives it back. -/
theorem HolderInv.handleFrame (h : HolderInv w) (hs : w.sessions c = some s)
    (hready : s.pc.isReady = true) (f : ClientFrame β)
    (hfree : EndsFree w (.recv c f)) :
    HolderInv (w.handleFrame c (s.record [.received f]) f) := by
  have hpc : s.pc = .ready := Pc.eq_ready hready
  have hasked : s.pc.asked = none := by rw [hpc]; rfl
  -- with no document open a session has nothing to lose
  have hend : s.openDoc = none → ∀ u : Session β, HolderInv (w.endByError c u) := by
    intro hdoc u
    refine h.endByError hs ?_ u
    intro lease _ _ hid
    exact (h.slots c s hs).bound hid hdoc
  -- a handler that goes on in the loop, or to a place that asks for nothing
  have hput : ∀ (w' : World β) (u : Session β),
      w'.sessions = Function.update w.sessions c (some u) → w'.now = w.now →
      w'.coordinator = w.coordinator → u.slot = s.slot → u.pc.asked = none →
      u.pc ≠ .ended → (u.pc.needsDoc = true → u.openDoc ≠ none) → HolderInv w' := by
    intro w' u hw hnow hco hslot hask hlive hneeds
    exact h.same hs hw hnow hco hslot (hask.trans hasked.symm) (fun he => (hlive he).elim) hneeds
  cases f with
  | openDoc =>
    simp only [World.handleFrame]
    split
    · exact hput _ _ rfl rfl rfl rfl rfl (by simp) (by simp [Pc.needsDoc])
    · rename_i hmember
      refine h.endByError hs ?_ _
      intro lease hl hlt
      exact hfree c s lease hs ⟨rfl, hready, rfl, by simpa using hmember⟩ hl hlt
  | pushUpdates us =>
    simp only [World.handleFrame]
    split
    · rename_i hdoc
      exact hend hdoc _
    · rename_i o hdoc
      have hdoc : s.openDoc = some o := hdoc
      unfold World.pushUpdates
      split
      · exact hput _ _ rfl rfl rfl rfl (by simp [hpc, Pc.asked]) (by simp [hpc])
          (by simp [hpc, Pc.needsDoc])
      · exact hput _ _ rfl rfl rfl rfl rfl (by simp) (by simp [hdoc])
  | pullUpdates since =>
    simp only [World.handleFrame]
    split
    · rename_i hdoc
      exact hend hdoc _
    · unfold World.pullUpdates
      split
      · split
        · exact hput _ _ rfl rfl rfl rfl (by simp [hpc, Pc.asked]) (by simp [hpc])
            (by simp [hpc, Pc.needsDoc])
        · exact hput _ _ rfl rfl rfl rfl rfl (by simp) (by simp [Pc.needsDoc])
      · exact hput _ _ rfl rfl rfl rfl rfl (by simp) (by simp [Pc.needsDoc])
  | ack n =>
    simp only [World.handleFrame]
    split
    · rename_i hdoc
      exact hend hdoc _
    · rename_i o hdoc
      have hdoc : s.openDoc = some o := hdoc
      exact hput _ _ rfl rfl rfl rfl rfl (by simp) (by simp [hdoc])
  | pullSnapshot =>
    simp only [World.handleFrame]
    split
    · rename_i hdoc
      exact hend hdoc _
    · exact hput _ _ rfl rfl rfl rfl (by simp [hpc, Pc.asked]) (by simp [hpc])
        (by simp [hpc, Pc.needsDoc])
  | pushSnapshot upload =>
    simp only [World.handleFrame]
    split
    · rename_i hdoc
      exact hend hdoc _
    · rename_i o hdoc
      have hdoc : s.openDoc = some o := hdoc
      have hstay : HolderInv (w.put c (s.record [.received (.pushSnapshot upload)])) :=
        hput _ _ rfl rfl rfl rfl (by simp [hpc, Pc.asked]) (by simp [hpc])
          (by simp [hpc, Pc.needsDoc])
      unfold World.pushSnapshot
      split
      · exact hstay
      · rename_i id hslot
        split
        · exact hstay
        · rename_i lease hheld
          have hnone : ∀ (u : Session β) (g : Grant β),
              u.openDoc = some { o with snapshotLease := none } →
              u.pc = .storing upload g → ∀ i, ¬ u.Holds i := by
            rintro u g hu hupc i (hi | hi)
            · rw [Session.slot, hu] at hi
              cases hi
            · rw [hupc] at hi
              cases hi
          refine h.released hs rfl rfl ?_ hasked ?_ (hnone _ _ rfl rfl)
          · rw [Session.slot, hdoc]
            show w.coordinator.release id = w.coordinator.releaseSlot o.snapshotLease
            rw [hslot]
            rfl
          · refine ⟨by simp, by simp, ?_, fun i hi => (hnone _ _ rfl rfl i hi).elim⟩
            intro i j hi
            cases hi

theorem slot_issue (s : Session β) (hdoc : s.openDoc ≠ none) (id : ℕ) (ask : SnapshotAsk β) :
    (World.issueSnapshotRequest s (.issue id ask)).slot = some id ∧
      (World.issueSnapshotRequest s (.issue id ask)).openDoc ≠ none := by
  obtain ⟨o, ho⟩ := Option.ne_none_iff_exists'.1 hdoc
  simp [World.issueSnapshotRequest, Session.slot, ho]

/-- The decision of an evaluation, and the lease it takes. -/
theorem HolderInv.decide (h : HolderInv w) (hs : w.sessions c = some s)
    {cfg : SnapshotConfig} {after : After} {prev : Option (PrevSnapshot β)}
    {last horizon : ℕ} (hpc : s.pc = .evaluating after (.decide prev last horizon)) :
    HolderInv (w.evaluate cfg c s after (.decide prev last horizon)) := by
  have hinv := h.slots c s hs
  have hdoc : s.openDoc ≠ none := hinv.needs (by rw [hpc]; rfl)
  have hasked : s.pc.asked = none := by rw [hpc]; rfl
  simp only [World.evaluate]
  rcases w.coordinator.evaluate_cases cfg prev last horizon after.deviceLastAcked w.now with
    heq | ⟨hbusy, ask, heq⟩
  · rw [heq]
    cases after with
    | ack n => exact h.same hs rfl rfl rfl rfl hasked.symm (by simp) (by simp [Pc.needsDoc])
    | push acks => exact h.same hs rfl rfl rfl rfl hasked.symm (by simp) (fun _ => hdoc)
  · rw [heq]
    -- the lease that was taken is the only one that runs, and `t` is about to hold it
    have htake : ∀ (w' : World β) (t : Session β),
        w'.sessions = Function.update w.sessions c (some t) → w'.now = w.now →
        w'.coordinator = ⟨.active ⟨w.coordinator.nextLeaseId, w.now + cfg.timeout, ask⟩,
          w.coordinator.nextLeaseId + 1⟩ →
        SlotInv (w.coordinator.nextLeaseId + 1) t → t.Holds w.coordinator.nextLeaseId →
        (∀ id, t.Holds id → s.Holds id ∨ id = w.coordinator.nextLeaseId) → HolderInv w' := by
      intro w' t hw hnow hco hslot htn hold
      refine h.turn hw hnow (by rw [hco]; exact Nat.le_succ _) (by rw [hco]; exact hslot) ?_ ?_
      · intro id hid
        rcases hold id hid with hid | rfl
        · exact .inl ⟨s, hs, hid⟩
        · exact .inr ⟨rfl, _, by rw [hco], rfl⟩
      · intro lease hl
        rw [hco, LeaseState.active.injEq] at hl
        subst hl
        exact .inr ⟨rfl, htn⟩
    cases after with
    | ack n =>
      obtain ⟨hslot, hdoc'⟩ := slot_issue s hdoc w.coordinator.nextLeaseId ask
      have hholds : ∀ id, ((World.issueSnapshotRequest s
          (.issue w.coordinator.nextLeaseId ask)).goto .ready).Holds id →
          id = w.coordinator.nextLeaseId := by
        rintro id (hid | hid)
        · rw [Session.slot_goto, hslot, Option.some.injEq] at hid
          exact hid.symm
        · cases hid
      refine htake _ _ rfl rfl rfl ⟨by simp, by simp [Pc.needsDoc], ?_, ?_⟩ (.inl hslot)
        fun id hid => .inr (hholds id hid)
      · intro i j _ hj
        cases hj
      · intro id hid
        rw [hholds id hid]
        exact Nat.lt_succ_self _
    | push acks =>
      refine htake _ _ rfl rfl rfl ⟨by simp, fun _ => hdoc, ?_, ?_⟩ (.inr rfl) ?_
      · intro i j hi hj
        simp only [Session.goto_pc, Pc.asked, Option.some.injEq] at hj
        exact hj ▸ hinv.below i (.inl hi)
      · rintro id (hid | hid)
        · exact Nat.lt_succ_of_lt (hinv.below id (.inl hid))
        · simp only [Session.goto_pc, Pc.asked, Option.some.injEq] at hid
          exact hid ▸ Nat.lt_succ_self _
      · rintro id (hid | hid)
        · exact .inl (.inl hid)
        · simp only [Session.goto_pc, Pc.asked, Option.some.injEq] at hid
          exact .inr hid.symm

/-- A lease that was asked for moves into the slot; what stood there does not run any more,
for the lease asked for is newer. -/
theorem HolderInv.requesting (h : HolderInv w) (hs : w.sessions c = some s)
    {decision : Decision β} (hpc : s.pc = .requesting decision) :
    HolderInv (w.put c ((World.issueSnapshotRequest s decision).goto .ready)) := by
  have hinv := h.slots c s hs
  have hdoc : s.openDoc ≠ none := hinv.needs (by rw [hpc]; rfl)
  cases decision with
  | skip => exact h.same hs rfl rfl rfl rfl (by rw [hpc]; rfl) (by simp) (by simp [Pc.needsDoc])
  | issue id ask =>
    have hasked : s.pc.asked = some id := by rw [hpc]; rfl
    obtain ⟨hslot, hdoc'⟩ := slot_issue s hdoc id ask
    have hholds : ∀ i, ((World.issueSnapshotRequest s (.issue id ask)).goto .ready).Holds i →
        i = id := by
      rintro i (hi | hi)
      · rw [Session.slot_goto, hslot, Option.some.injEq] at hi
        exact hi.symm
      · cases hi
    refine h.turn rfl rfl le_rfl ⟨by simp, by simp [Pc.needsDoc], ?_, ?_⟩ ?_ ?_
    · intro i j _ hj
      cases hj
    · intro i hi
      rw [hholds i hi]
      exact hinv.below id (.inr hasked)
    · intro i hi
      rw [hholds i hi]
      exact .inl ⟨s, hs, .inr hasked⟩
    · intro lease hl
      refine .inl ⟨hl, ?_⟩
      rintro - ⟨s', hs', hid⟩
      rw [hs, Option.some.injEq] at hs'
      subst hs'
      rcases hid with hid | hid
      · have hlt := hinv.order _ _ hid hasked
        have hle := h.newest lease hl c id ⟨s, hs, .inr hasked⟩
        omega
      · rw [hasked, Option.some.injEq] at hid
        exact .inl (hslot.trans (congrArg some hid))

theorem HolderInv.resume [WireSize β] {cfg : SnapshotConfig} (h : HolderInv w)
    (hs : w.sessions c = some s) (hstep : w.resume cfg c s = some w') : HolderInv w' := by
  have hinv := h.slots c s hs
  have hput : ∀ (v : World β) (u : Session β), s.pc.asked = none →
      v.sessions = Function.update w.sessions c (some u) → v.now = w.now →
      v.coordinator = w.coordinator → u.slot = s.slot → u.pc.asked = none →
      u.pc ≠ .ended → (u.pc.needsDoc = true → u.openDoc ≠ none) → HolderInv v := by
    intro v u hasked hw hnow hco hslot hask hlive hneeds
    exact h.same hs hw hnow hco hslot (hask.trans hasked.symm) (fun he => (hlive he).elim) hneeds
  unfold World.resume at hstep
  cases hpc : s.pc <;> simp only [hpc, Option.some.injEq, reduceCtorEq] at hstep <;> subst hstep
  case opening =>
    exact hput _ _ (by rw [hpc]; rfl) rfl rfl rfl rfl rfl (by simp) (by simp [Pc.needsDoc])
  case subscribing epoch =>
    unfold World.subscribe
    split
    · exact hput _ _ (by rw [hpc]; rfl) rfl rfl rfl rfl rfl (by simp) (by simp [Pc.needsDoc])
    · rename_i hdoc
      have hslot : s.slot = none := by rw [Session.slot, hdoc]; rfl
      exact hput _ _ (by rw [hpc]; rfl) rfl rfl rfl hslot.symm rfl (by simp) (by simp [Pc.needsDoc])
  case committed inserted =>
    have hdoc : s.openDoc ≠ none := hinv.needs (by rw [hpc]; rfl)
    unfold World.broadcast
    split
    · rename_i hnone
      exact (hdoc hnone).elim
    · exact hput _ _ (by rw [hpc]; rfl) rfl rfl rfl rfl rfl (by simp) (fun _ => hdoc)
  case evaluating after stage =>
    have hdoc : s.openDoc ≠ none := hinv.needs (by rw [hpc]; rfl)
    cases stage
    case decide prev last horizon => exact h.decide hs hpc
    all_goals
      exact hput _ _ (by rw [hpc]; rfl) rfl rfl rfl rfl rfl (by simp) (fun _ => hdoc)
  case requesting decision => exact h.requesting hs hpc
  case pulling cursor =>
    simp only [World.pullBatch]
    split
    · exact hput _ _ (by rw [hpc]; rfl) rfl rfl rfl rfl rfl (by simp) (by simp [Pc.needsDoc])
    · refine hput _ _ (by rw [hpc]; rfl) rfl rfl rfl ?_ rfl (by simp) (by simp [Pc.needsDoc])
      simp only [Session.slot_goto]
      rw [Session.slot, Session.slot, Session.withDoc_openDoc, Session.send_openDoc]
      cases s.openDoc <;> rfl
  case storing upload grant =>
    unfold World.storeSnapshot
    split <;>
      exact hput _ _ (by rw [hpc]; rfl) rfl rfl rfl rfl rfl (by simp) (by simp [Pc.needsDoc])

theorem HolderInv.deliver (h : HolderInv w) (hs : w.sessions c = some s)
    (hready : s.pc.isReady = true) {o : OpenDoc} (hdoc : s.openDoc = some o)
    (hfree : EndsFree w (.deliver c)) (hstep : w.deliver c s o = some w') : HolderInv w' := by
  have hpc : s.pc = .ready := Pc.eq_ready hready
  have hasked : s.pc.asked = none := by rw [hpc]; rfl
  unfold World.deliver at hstep
  split at hstep
  · rename_i hnil
    split at hstep
    · cases hstep
    · rename_i hreg
      rw [← Option.some.inj hstep]
      refine h.endByError hs ?_ s
      intro lease hl hlt
      exact hfree c s lease hs ⟨rfl, hready, o, hdoc, hnil, hreg⟩ hl hlt
  · -- the queue is not part of the lease table
    have hpop : ∀ r : SyncSessions β, HolderInv { w with registry := r } := by
      intro r
      exact h.environment rfl rfl le_rfl le_rfl
    split at hstep
    · rw [← Option.some.inj hstep]
      exact h.same hs rfl rfl rfl rfl rfl (by simp [hpc]) (by simp [hpc, Pc.needsDoc])
    · rename_i rest _ f _
      rw [← Option.some.inj hstep]
      exact (hpop (w.registry.pop o.sub rest)).unbind (v := s.send f) hs hasked rfl (by rw [Session.send_pc, hpc]; rfl)
    · rename_i rest _ _
      rw [← Option.some.inj hstep]
      exact (hpop (w.registry.pop o.sub rest)).unbind (v := s) hs hasked rfl (by rw [hpc]; rfl)

end Turns

/-! ## The runs -/

theorem holderInv_restart (w : World β) : HolderInv w.restart := by
  have hsess : ∀ c s, w.restart.sessions c = some s →
      SlotInv w.restart.coordinator.nextLeaseId s ∧ ∀ id, ¬ s.Holds id := by
    intro c s hs
    obtain ⟨u, -, rfl⟩ := Option.map_eq_some_iff.1 hs
    exact SlotInv.of_unbound rfl rfl
  have hnone : ∀ c id, ¬ w.restart.HeldBy c id := by
    rintro c id ⟨s, hs, hid⟩
    exact (hsess c s hs).2 id hid
  exact
    { slots := fun c s hs => (hsess c s hs).1
      fresh := fun lease hl => by cases hl
      newest := fun lease hl => by cases hl
      once := fun c d id hc => (hnone c id hc).elim
      held := fun lease hl => by cases hl }

/-- **One step** that ends no session under its running lease keeps the invariant. -/
theorem HolderInv.step [WireSize β] {cfg : SnapshotConfig} {w w' : World β} {l : Label β}
    (h : HolderInv w) (hfree : EndsFree w l) (hstep : World.step cfg w l = some w') :
    HolderInv w' := by
  cases l <;> simp only [World.step] at hstep
  case connect c auth =>
    split at hstep
    · cases hstep
    · split at hstep
      · rw [← Option.some.inj hstep]
        obtain ⟨hslot, hnone⟩ := SlotInv.of_unbound (n := w.coordinator.nextLeaseId)
          (t := (Session.new auth : Session β)) rfl rfl
        refine h.turn rfl rfl le_rfl hslot (fun id hid => (hnone id hid).elim) ?_
        intro lease hl
        refine .inl ⟨hl, ?_⟩
        rintro - ⟨s, hs, -⟩
        simp_all
      · cases hstep
  case recv c f =>
    split at hstep
    · rename_i s hs
      split at hstep
      · rename_i hready
        rw [← Option.some.inj hstep]
        exact h.handleFrame hs hready f hfree
      · cases hstep
    · cases hstep
  case resume c =>
    split at hstep
    · rename_i s hs
      exact h.resume hs hstep
    · cases hstep
  case deliver c =>
    split at hstep
    · rename_i s hs
      split at hstep
      · rename_i hready
        split at hstep
        · rename_i o hdoc
          exact h.deliver hs hready hdoc hfree hstep
        · cases hstep
      · cases hstep
    · cases hstep
  case close c =>
    split at hstep
    · rename_i s hs
      split at hstep
      · rename_i hready
        rw [← Option.some.inj hstep]
        exact h.unbind hs (by rw [Pc.eq_ready hready]; rfl) rfl rfl
      · cases hstep
    · cases hstep
  case abort c =>
    split at hstep
    · rename_i s hs
      split at hstep
      · cases hstep
      · cases hstep
      · rename_i hcommitted hended
        rw [← Option.some.inj hstep]
        refine h.endByError hs ?_ s
        intro lease hl hlt
        exact hfree c s lease hs ⟨rfl, hended, hcommitted⟩ hl hlt
    · cases hstep
  case compact =>
    split at hstep
    · cases hstep
    · rw [← Option.some.inj hstep]
      exact h.environment rfl rfl le_rfl le_rfl
  case tick => exact Option.some.inj hstep ▸ h.environment rfl rfl le_rfl (Nat.le_succ _)
  case elsewhere subIds leaseIds =>
    exact Option.some.inj hstep ▸ h.environment rfl rfl (Nat.le_add_right _ _) le_rfl
  case restart =>
    rw [← Option.some.inj hstep]
    exact holderInv_restart w
  all_goals exact Option.some.inj hstep ▸ h.environment rfl rfl le_rfl le_rfl

theorem EndsByError.step [WireSize β] {cfg : SnapshotConfig} {w : World β} {c : ConnId}
    {s : Session β} {l : Label β} (h : EndsByError w c s l) (hs : w.sessions c = some s) :
    ∃ u, World.step cfg w l = some (w.endByError c u) := by
  cases l with
  | recv d f =>
    obtain ⟨rfl, hready, rfl, hmember⟩ := h
    refine ⟨(s.record [.received .openDoc]).send (.docRejected "not a member of this doc"), ?_⟩
    simp [World.step, hs, hready, World.handleFrame, hmember]
  | deliver d =>
    obtain ⟨rfl, hready, o, hdoc, hnil, hreg⟩ := h
    exact ⟨s, by simp [World.step, hs, hready, hdoc, World.deliver, hnil, hreg]⟩
  | abort d =>
    obtain ⟨rfl, hended, hcommitted⟩ := h
    refine ⟨s, ?_⟩
    simp only [World.step, hs]
  | _ => exact h.elim

/-- A session that dies with the running lease leaves nobody who holds it. -/
theorem HolderInv.endsFree [WireSize β] {cfg : SnapshotConfig} {w : World β} {l : Label β}
    (h : HolderInv w) (hheld : ∀ w', World.step cfg w l = some w' → w'.LeaseHeld) :
    EndsFree w l := by
  intro c s lease hs hends hlease hlt hid
  obtain ⟨u, hstep⟩ : ∃ u, World.step cfg w l = some (w.endByError c u) := hends.step hs
  obtain ⟨t, ht, hdoc, -⟩ := dropDoc_sessions w c (u.goto .ended)
  have hl' : (w.endByError c u).coordinator.lease = .active lease := by
    rw [World.endByError, dropDoc_coordinator, hlease]
  have hlt' : (w.endByError c u).now < lease.expiresAt := by
    rw [World.endByError, dropDoc_now]
    exact hlt
  obtain ⟨d, v, hv, -, hbound, hheld⟩ := hheld _ hstep lease hl' hlt'
  rw [World.endByError, ht] at hv
  by_cases hd : d = c
  · subst hd
    rw [Function.update_self, Option.some.injEq] at hv
    exact hbound (hv ▸ hdoc)
  · rw [Function.update_of_ne hd] at hv
    exact hd (h.once d c _ ⟨v, hv, hheld⟩ ⟨s, hs, hid⟩)

/-- Where every running lease is held and no live connection holds one, an evaluation is free
to ask. -/
theorem World.LeaseHeld.not_busy {w : World β} (h : w.LeaseHeld)
    (hnone : ∀ c s id, w.sessions c = some s → s.pc ≠ .ended → ¬ s.Holds id) :
    w.coordinator.busy w.now = false := by
  cases hl : w.coordinator.lease with
  | idle => simp [SnapshotCoordinator.busy, hl]
  | active lease =>
    simp only [SnapshotCoordinator.busy, hl, decide_eq_false_iff_not]
    intro hlt
    obtain ⟨c, s, hs, hlive, -, hid⟩ := h lease hl hlt
    exact hnone c s _ hs hlive hid

/-- **Exactly the orderly ends.**  From a fresh process, along any run: after every step the
running lease is held by a live connection with the document open, if and only if no step ends
by an error a session that holds the running lease. -/
theorem lease_held_iff [WireSize β] (cfg : SnapshotConfig) (members : List AccountId)
    (devices : List Device) (ls : List (Label β)) :
    (server cfg).AllSteps (fun w l => ∀ w', World.step cfg w l = some w' → w'.LeaseHeld)
        (World.fresh members devices) ls ↔
      (server cfg).AllSteps EndsFree (World.fresh members devices) ls := by
  have hgen : ∀ w : World β, HolderInv w →
      ((server cfg).AllSteps (fun w l => ∀ w', World.step cfg w l = some w' → w'.LeaseHeld) w ls ↔
        (server cfg).AllSteps EndsFree w ls) := by
    intro w hw
    induction ls generalizing w with
    | nil => exact Iff.rfl
    | cons l ls ih =>
      constructor
      · rintro ⟨hheld, hrest⟩
        have hfree : EndsFree w l := hw.endsFree hheld
        exact ⟨hfree, fun w' hstep => (ih w' (hw.step hfree hstep)).1 (hrest w' hstep)⟩
      · rintro ⟨hfree, hrest⟩
        exact ⟨fun w' hstep => (hw.step hfree hstep).leaseHeld,
          fun w' hstep => (ih w' (hw.step hfree hstep)).2 (hrest w' hstep)⟩
  exact hgen _ (holderInv_fresh members devices)

/-! ## A session that dies while it is asked -/

/-- A device joins, pushes a row, is sent a `SnapshotRequest`, and its socket fails. -/
def deadHolderRun : List (Label EncryptedBlob) :=
  joinRun 0 0 ++
    [.recv 0 (.pushUpdates [⟨20, ⟨[], []⟩⟩]), .resume 0, .resume 0, .resume 0, .resume 0,
      .resume 0, .resume 0, .abort 0]

/-- **A lease outlives its session.**  It runs on, no connection holds it, and the coordinator
stays busy. -/
theorem lease_can_leak :
    ∃ w : World EncryptedBlob, (server ⟨5, 1⟩).Reachable w ∧ ¬ w.LeaseHeld ∧
      w.coordinator.busy w.now = true := by
  have hrun : ((server ⟨5, 1⟩).exec (World.fresh [0] [⟨0, 0⟩]) deadHolderRun).map
      (fun w => (w.coordinator.lease, w.now, (w.sessions 0).map Session.openDoc)) =
      some (.active ⟨1, 5, ⟨1, 1, none⟩⟩, 0, some none) := by
    decide
  obtain ⟨w, hw, hfacts⟩ := Option.map_eq_some_iff.1 hrun
  simp only [Prod.mk.injEq] at hfacts
  obtain ⟨hlease, hnow, hsess⟩ := hfacts
  have hlt : w.now < (⟨1, 5, ⟨1, 1, none⟩⟩ : ActiveLease EncryptedBlob).expiresAt := by
    rw [hnow]
    decide
  refine ⟨w, Machine.reach_of_exec ⟨[0], [⟨0, 0⟩], rfl⟩ hw, ?_,
    SnapshotCoordinator.busy_eq_true hlease hlt⟩
  intro hheld
  obtain ⟨c, s, hs, -, hdoc, -⟩ := hheld _ hlease hlt
  by_cases hc : c = 0
  · rw [hc] at hs
    rw [hs, Option.map_some, Option.some.injEq] at hsess
    exact hdoc hsess
  · rw [exec_sessions_none hw rfl (by simp [deadHolderRun, joinRun, hc])] at hs
    cases hs

end Monoplan.Server
