import Monoplan.Protocol.Frames

/-!
# The snapshot coordinator, on one document

At most one connection at a time is asked for a snapshot of the document.  `evaluate` is the
trigger: it compares the newest number, the caller's frontier and the last snapshot, and
takes the lease.  `release` gives the lease back to whoever names its id.

An active lease remembers its id and its deadline.  What it was issued for is written next
to it here, as history: neither `evaluate` nor `release` reads it.
-/

namespace Monoplan.Server

open Monoplan.Protocol

variable {β : Type*}

/-- The operator's settings: the lease timeout and the trigger threshold. -/
structure SnapshotConfig where
  timeout : ℕ
  thresholdBlobs : ℕ
  deriving DecidableEq

/-- A lease that was handed out. -/
structure ActiveLease (β : Type*) where
  leaseId : ℕ
  expiresAt : ℕ
  /-- History: the request the lease was issued for. -/
  issuedFor : SnapshotAsk β
  deriving DecidableEq

inductive LeaseState (β : Type*)
  | idle
  | active (lease : ActiveLease β)
  deriving DecidableEq

/-- The coordinator's entry for the document, and the lease id counter. -/
structure SnapshotCoordinator (β : Type*) where
  lease : LeaseState β
  nextLeaseId : ℕ
  deriving DecidableEq

/-- The latest stored snapshot as the trigger sees it. -/
structure PrevSnapshot (β : Type*) where
  upToSeq : ℕ
  compactionFloorSeq : ℕ
  upToVv : β
  deriving DecidableEq

inductive Decision (β : Type*)
  | issue (leaseId : ℕ) (ask : SnapshotAsk β)
  | skip
  deriving DecidableEq

namespace SnapshotCoordinator

/-- The coordinator of a process that has just started. -/
def new : SnapshotCoordinator β where
  lease := .idle
  nextLeaseId := 1

/-- A lease is running at `now`. -/
def busy (c : SnapshotCoordinator β) (now : ℕ) : Bool :=
  match c.lease with
  | .idle => false
  | .active lease => decide (now < lease.expiresAt)

/-- What a snapshot taken now is asked to be: encoded at the caller's frontier, with the
floor at the horizon but never below the previous floor, as a delta where there is a
previous snapshot. -/
def askFor (prev : Option (PrevSnapshot β)) (horizon deviceLastAcked : ℕ) : SnapshotAsk β where
  upToSeq := deviceLastAcked
  compactionFloorSeq := max horizon ((prev.map PrevSnapshot.compactionFloorSeq).getD 0)
  base := prev.map fun p => ⟨p.upToSeq, p.upToVv⟩

/-- `evaluate`: skip unless enough is new, the caller is caught up and no lease is running;
otherwise take the lease. -/
def evaluate (cfg : SnapshotConfig) (c : SnapshotCoordinator β)
    (prev : Option (PrevSnapshot β)) (serverLast horizon deviceLastAcked now : ℕ) :
    SnapshotCoordinator β × Decision β :=
  if serverLast - (prev.map PrevSnapshot.upToSeq).getD 0 < cfg.thresholdBlobs then (c, .skip)
  else if deviceLastAcked ≠ serverLast then (c, .skip)
  else if c.busy now then (c, .skip)
  else
    let ask := askFor prev horizon deviceLastAcked
    ({ lease := .active ⟨c.nextLeaseId, now + cfg.timeout, ask⟩,
       nextLeaseId := c.nextLeaseId + 1 },
      .issue c.nextLeaseId ask)

/-- The lease that `release` would accept `id` for. -/
def heldBy (c : SnapshotCoordinator β) (id : ℕ) : Option (ActiveLease β) :=
  match c.lease with
  | .idle => none
  | .active lease => if lease.leaseId = id then some lease else none

/-- `release`: free the lease if `id` is its id, whether or not its deadline has passed. -/
def release (c : SnapshotCoordinator β) (id : ℕ) : SnapshotCoordinator β :=
  if (c.heldBy id).isSome then { c with lease := .idle } else c

/-! ## The lease table -/

theorem heldBy_eq_some {co : SnapshotCoordinator β} {id : ℕ} {lease : ActiveLease β}
    (h : co.heldBy id = some lease) : co.lease = .active lease ∧ lease.leaseId = id := by
  unfold heldBy at h
  split at h
  · cases h
  · split at h
    · rename_i hid
      rw [Option.some.injEq] at h
      subst h
      exact ⟨by assumption, hid⟩
    · cases h

theorem heldBy_of_active {co : SnapshotCoordinator β} {lease : ActiveLease β}
    (h : co.lease = .active lease) : co.heldBy lease.leaseId = some lease := by
  simp [heldBy, h]

theorem busy_eq_true {co : SnapshotCoordinator β} {lease : ActiveLease β} {now : ℕ}
    (h : co.lease = .active lease) (hnow : now < lease.expiresAt) : co.busy now = true := by
  simp [busy, h, hnow]

@[simp] theorem release_nextLeaseId (co : SnapshotCoordinator β) (id : ℕ) :
    (co.release id).nextLeaseId = co.nextLeaseId := by
  unfold release
  split <;> rfl

/-- What runs after a release ran before it under another id. -/
theorem release_active {co : SnapshotCoordinator β} {id : ℕ} {lease : ActiveLease β}
    (h : (co.release id).lease = .active lease) :
    co.lease = .active lease ∧ lease.leaseId ≠ id := by
  unfold release at h
  split at h
  · cases h
  · rename_i hnone
    refine ⟨h, ?_⟩
    rintro rfl
    rw [heldBy_of_active h] at hnone
    exact hnone rfl

/-- An evaluation skips, or no lease was running and it takes a fresh one. -/
theorem evaluate_cases (cfg : SnapshotConfig) (co : SnapshotCoordinator β)
    (prev : Option (PrevSnapshot β)) (serverLast horizon acked now : ℕ) :
    co.evaluate cfg prev serverLast horizon acked now = (co, .skip) ∨
      (co.busy now = false ∧ ∃ ask,
        co.evaluate cfg prev serverLast horizon acked now =
          (⟨.active ⟨co.nextLeaseId, now + cfg.timeout, ask⟩, co.nextLeaseId + 1⟩,
            .issue co.nextLeaseId ask)) := by
  unfold evaluate
  split_ifs with h₁ h₂ h₃
  · exact .inl rfl
  · exact .inl rfl
  · exact .inl rfl
  · exact .inr ⟨by simpa using h₃, _, rfl⟩

end SnapshotCoordinator

end Monoplan.Server
