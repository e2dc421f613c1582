import Monoplan.Client.Covered

/-!
# The durable cursor

After a pulse the host tells the engine that everything up to its cursor is durable; the engine
persists the cursor and queues it as an ack.  An append that fails is only reported: the row stays
in memory, the cursor moves on, and the next notice covers a row that storage does not hold.

* `cursor_holds`: where no notice passes the first append that failed since the last snapshot
  (and no captured operation is dropped by a fold), the persisted cursor and every ack cover only
  rows that are in storage, in every run, whatever fails and wherever the device dies.
* `cursor_past_failed_append`: one failed append and one notice are enough.
-/

namespace Monoplan.Client

open Monoplan.Base Monoplan.Protocol

variable (H : History)

/-- No call lets the cursor pass what was lost. -/
def KeepsCursor (w : World) : WorldLabel → Prop
  | .call l | .crash l _ => ∀ e ∈ w.engine, CursorSafe H w.vault e l.call
  | _ => True

section Cursor

variable {H} {w : World}

theorem covered_of_reach (hr : (living H).Reach (KeepsCursor H) w) : w.Covered H := by
  apply hr.invariant
  · exact fun _ h => fresh_covered h
  · intro w l w' _ hw hok hs
    refine covered_step (fun hl e hlabel he => ?_) hw hs
    rcases hlabel with rfl | ⟨n, rfl⟩
    · exact hok e he
    · exact hok e he

/-- **The cursor covers only what is stored.**  In every run in which no notice passes the first
append that failed since the last snapshot, and no fold drops a pending captured operation: every
row below the persisted cursor, and below every ack ever queued, is in the stored snapshot or the
WAL. -/
theorem cursor_holds (hr : (living H).Reach (KeepsCursor H) w) :
    w.stream.Covers w.vault.disk.lastAckedServerSeq w.vault.disk.stored ∧
      ∀ e ∈ w.engine, ∀ n ∈ e.queuedAcks, w.stream.Covers n w.vault.disk.stored :=
  ⟨(covered_of_reach hr).vault.cursor, fun e he => ((covered_of_reach hr).engine e he).acks⟩

end Cursor

/-! ## A failed append -/

/-- The test of `KeepsCursor` a run is checked with. -/
def keepsCursorb (w : World) : WorldLabel → Bool
  | .call l | .crash l _ =>
    match l.call with
    | .notifyOplogDurable _ => decide (w.vault.lost = none)
    | .snapshotIfWalExceeds _ _ | .forceSnapshot => decide (w.vault.captured = ∅)
    | .handleServerBytes (some (.snapshot _ _ _)) _ => false
    | _ => true
  | _ => true

theorem keepsCursorb_sound (w : World) (l : WorldLabel) (hb : keepsCursorb w l = true) :
    KeepsCursor H w l := by
  have hcall (hl : HostStep) (hb : keepsCursorb w (.call hl) = true) (e : Engine) :
      CursorSafe H w.vault e hl.call := by
    obtain ⟨c, outcomes⟩ := hl
    cases c with
    | notifyOplogDurable seq =>
      intro _ m hm
      rw [of_decide_eq_true hb] at hm
      exact absurd hm (by simp)
    | snapshotIfWalExceeds maxRows maxBytes =>
      show w.vault.captured ⊆ _
      rw [of_decide_eq_true hb]
      exact Finset.empty_subset _
    | forceSnapshot =>
      show w.vault.captured ⊆ _
      rw [of_decide_eq_true hb]
      exact Finset.empty_subset _
    | handleServerBytes bytes mint =>
      cases bytes with
      | none => trivial
      | some f =>
        cases f with
        | snapshot upToSeq blob complete => exact absurd hb (by simp [keepsCursorb])
        | _ => trivial
    | _ => trivial
  cases l with
  | call hl => exact fun e _ => hcall hl hb e
  | crash hl n => exact fun e _ => hcall hl hb e
  | boot => trivial
  | land ops => trivial

/-- The first operation of a peer. -/
def firstOp : OpId := ⟨1, 0⟩

/-- The row that holds it. -/
def firstRow : StoredBlob Blob := ⟨1, History.byPeer.seal (.updates {firstOp})⟩

/-- A device connects and pulls one row; the list says whether its append succeeds. -/
def pullOne (appends : List Bool) : List WorldLabel :=
  [.land {firstOp}, .boot, .call ⟨.handleConnected, []⟩,
    .call ⟨.handleServerBytes (some (.docOpened 1)) 0, []⟩,
    .call ⟨.handleServerBytes (some (.updatesBatch [firstRow] true)) 0, appends⟩,
    .call ⟨.captureLocalOps, []⟩, .call ⟨.snapshotIfWalExceeds 200 1000000, []⟩,
    .call ⟨.notifyOplogDurable 1, []⟩]

/-- The device before its first boot. -/
def newWorld : World := ⟨none, .fresh, []⟩

theorem cursor_holds_pullOne :
    ∃ w, (living History.byPeer).Reach (KeepsCursor History.byPeer) w ∧
      w.vault.disk.lastAckedServerSeq = 1 ∧
      (w.stream.Covers w.vault.disk.lastAckedServerSeq w.vault.disk.stored ∧
        ∀ e ∈ w.engine, ∀ n ∈ e.queuedAcks, w.stream.Covers n w.vault.disk.stored) := by
  have hrun : ((living History.byPeer).exec newWorld (pullOne [])).map
      (fun w => w.vault.disk.lastAckedServerSeq) = some 1 := by
    decide
  have hok : (living History.byPeer).allStepsb keepsCursorb newWorld (pullOne []) = true := by
    decide
  obtain ⟨w, hs, hend⟩ := Option.map_eq_some_iff.1 hrun
  have hreach : (living History.byPeer).Reach (KeepsCursor History.byPeer) w :=
    Machine.Reach.exec (.init rfl) (Machine.allSteps_of_allStepsb (keepsCursorb_sound _) hok) hs
  exact ⟨w, hreach, hend, cursor_holds hreach⟩

/-- **The cursor passes a row that was never stored.**  The append of row `1` fails, the host
says that everything up to its cursor is durable, and the next boot pulls from after row `1`. -/
theorem cursor_past_failed_append :
    ∃ w, (living History.byPeer).Reachable w ∧ w.vault.disk.lastAckedServerSeq = 1 ∧
      ¬ w.stream.Covers w.vault.disk.lastAckedServerSeq w.vault.disk.stored ∧
      ∃ e ∈ w.engine, e.queuedAcks = [1] := by
  have hrun : ((living History.byPeer).exec newWorld (pullOne [false])).map
      (fun w => (w.vault.disk.lastAckedServerSeq,
        decide (w.stream.Covers w.vault.disk.lastAckedServerSeq w.vault.disk.stored),
        w.engine.map Engine.queuedAcks)) = some (1, false, some [1]) := by
    decide
  obtain ⟨w, hs, hend⟩ := Option.map_eq_some_iff.1 hrun
  simp only [Prod.mk.injEq, decide_eq_false_iff_not] at hend
  obtain ⟨hcur, hno, he⟩ := hend
  obtain ⟨e, hmem, hacks⟩ := Option.map_eq_some_iff.1 he
  exact ⟨w, Machine.reach_of_exec rfl hs, hcur, hno, e, hmem, hacks⟩

end Monoplan.Client
