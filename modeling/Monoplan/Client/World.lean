import Monoplan.Base.RowLog
import Monoplan.Client.Host
import Monoplan.Client.Stored

/-!
# One device, its server, and crashes

The engine boots from its storage, takes host calls, and may die between any two storage calls.
Its server holds a stream of updates: `World.stream` has every row the server ever stored,
compacted or not, and what the server sends is what the stream holds (`Truthful`).  Other devices
land rows at any time (`WorldLabel.land`).

`Vault` is the storage together with what has gone through it, which no method reads.

* `Does` says once what a call can do; `program_does` is its proof.
* `Incoming` lemmas: what a batch of rows leaves in memory and in storage, whichever of its
  storage calls fail.
-/

namespace Monoplan.Client

open Monoplan.Base Monoplan.Protocol

/-! ## Storage and its history -/

/-- The storage of a device, and what has gone through it. -/
structure Vault where
  disk : Disk
  /-- History: every operation the engine has written from its own document. -/
  captured : Finset OpId
  /-- History: what was captured and not on the server, and is not in a push put since. -/
  leftOut : Finset OpId
  /-- History: how many rows the server had when the push in flight was put. -/
  born : ℕ
  /-- History: where the cursor of the stream was when a row of it could not be appended, and no
  snapshot was written since. -/
  lost : Option ℕ
  /-- History: the payloads of the pushes that were put. -/
  pushed : List Blob
  deriving DecidableEq

namespace Vault

/-- Storage nothing has been written to. -/
def fresh : Vault := ⟨.empty, ∅, ∅, 0, none, []⟩

/-- What a call leaves in the history. -/
def note (S : RowLog OpId) (v : Vault) : StorageCall → Vault
  | .appendLocalWal payload => { v with captured := v.captured ∪ payload.held }
  | .writeSnapshot _ payload =>
    { v with captured := v.captured ∪ payload.held, lost := none }
  | .putInFlightPush push =>
    { v with
      leftOut := v.leftOut ∪ v.captured \ (push.payload.held ∪ S.all), born := S.length,
      pushed := v.pushed ++ [push.payload] }
  | _ => v

/-- Perform one call. -/
def act (S : RowLog OpId) (c : StorageCall) (v : Vault) : Vault × Appended :=
  ({ v.note S c with disk := (Monoplan.Client.act c v.disk).1 },
    (Monoplan.Client.act c v.disk).2)

end Vault

/-! ## What a call takes in -/

namespace Engine

/-- The rows a call hands to `apply_remote_updates`. -/
def offered (e : Engine) : HostCall → List (StoredBlob Blob)
  | .handleServerBytes (some (.updatesBatch us _)) _
  | .handleServerBytes (some (.updatesBroadcast us)) _ =>
    if e.isOnline = true ∧ e.state ≠ .bootstrapping then us else []
  | _ => []

/-- The rows a call appends: all it is handed, if they import. -/
def incoming (e : Engine) (c : HostCall) : List (StoredBlob Blob) :=
  if Readable (e.offered c) then e.offered c else []

/-- The call completes the initial pull. -/
def completes (e : Engine) : HostCall → Bool
  | .handleServerBytes (some (.updatesBatch _ complete)) _ =>
    complete && decide (e.state = .pulling)
  | _ => false

/-- The call captures, and builds a push on what it has captured. -/
def pushesOn (e : Engine) (c : HostCall) : Bool :=
  match c with
  | .flush _ => decide (e.state = .idle) && e.inFlight.isNone
  | .handleServerBytes (some (.updatesAck acks)) _ => e.ackFits acks
  | c => e.completes c && e.inFlight.isNone

/-- The call captures. -/
def capturesOn (e : Engine) : HostCall → Bool
  | .captureLocalOps | .snapshotIfWalExceeds _ _ | .forceSnapshot => true
  | c => e.pushesOn c

/-- The snapshot of a chain a call imports. -/
def chainBlob (e : Engine) : HostCall → Option Blob
  | .handleServerBytes (some (.snapshot _ blob _)) _ =>
    if e.state = .bootstrapping ∧ blob.ops ≠ none then some blob else none
  | _ => none

/-- The call writes the checkpoint of a completed chain. -/
def checkpoints (e : Engine) : HostCall → Bool
  | .handleServerBytes (some (.snapshot _ blob complete)) _ =>
    decide (e.state = .bootstrapping) && decide (blob.ops ≠ none) && complete
  | _ => false

end Engine

/-- One of the appends of a batch fails. -/
def Engine.failsRow (e : Engine) (l : HostStep) : Bool :=
  !(l.outcomes.take (e.incoming l.call).length).all id

/-! ## The device and its server -/

structure World where
  engine : Option Engine
  vault : Vault
  stream : RowLog OpId
  deriving DecidableEq

inductive WorldLabel
  | boot
  | call (l : HostStep)
  /-- The device dies after so many storage calls of the step. -/
  | crash (l : HostStep) (n : ℕ)
  /-- The server stores a row. -/
  | land (ops : Finset OpId)
  deriving DecidableEq

variable (H : History)

instance (S : RowLog OpId) (n : ℕ) (X : Finset OpId) : Decidable (S.Covers n X) :=
  decidable_of_iff (n ≤ S.length ∧ S.upTo n ⊆ X) ⟨fun h => ⟨h.1, h.2⟩, fun h => ⟨h.1, h.2⟩⟩

/-- What the server tells is so.  A row has the operations the stream has at its seq, an ack
names the row at which the push was stored, and a chain comes in order and covers the stream up to
its seq. -/
def Tells (S : RowLog OpId) (born : ℕ) (e : Engine) : ServerFrame Blob → Prop
  | .updatesBatch us _ | .updatesBroadcast us =>
    ∀ u ∈ us, u.blob.ops ≠ none → S.row u.seq = u.blob.ops
  | .updatesAck acks =>
    ∀ p ∈ e.inFlight, ∀ a ∈ acks, a.pushId = p.pushId →
      S.row a.seq = some p.payload.held ∧ born < a.seq
  | .snapshot upToSeq blob complete =>
    e.state = .bootstrapping → blob.ops ≠ none →
      blob.held ⊆ S.all ∧ (∀ o ∈ blob.held, H.past o ⊆ e.doc.received ∪ blob.held) ∧
        (complete = true → S.Covers upToSeq (e.doc.received ∪ blob.held))
  | _ => True

instance (S : RowLog OpId) (born : ℕ) (e : Engine) (f : ServerFrame Blob) :
    Decidable (Tells H S born e f) :=
  match f with
  | .updatesBatch us _ | .updatesBroadcast us =>
    inferInstanceAs (Decidable (∀ u ∈ us, u.blob.ops ≠ none → S.row u.seq = u.blob.ops))
  | .updatesAck acks =>
    inferInstanceAs (Decidable (∀ p ∈ e.inFlight, ∀ a ∈ acks, a.pushId = p.pushId →
      S.row a.seq = some p.payload.held ∧ born < a.seq))
  | .snapshot upToSeq blob complete =>
    inferInstanceAs (Decidable (e.state = .bootstrapping → blob.ops ≠ none →
      blob.held ⊆ S.all ∧ (∀ o ∈ blob.held, H.past o ⊆ e.doc.received ∪ blob.held) ∧
        (complete = true → S.Covers upToSeq (e.doc.received ∪ blob.held))))
  | .docOpened _ | .docRejected _ | .docClosed _ | .snapshotRequest _ | .snapshotRequired _
  | .presence _ => .isTrue trivial

/-- A commit is new and depends on what is there; a frame tells what is so. -/
def Truthful (S : RowLog OpId) (born : ℕ) (e : Engine) : HostCall → Prop
  | .commit o => o ∉ e.doc.received ∧ o ∉ S.all ∧ H.past o ⊆ e.doc.oplog H
  | .handleServerBytes (some f) _ => Tells H S born e f
  | _ => True

instance (S : RowLog OpId) (born : ℕ) (e : Engine) (c : HostCall) :
    Decidable (Truthful H S born e c) := by
  unfold Truthful
  split <;> infer_instance

/-- A row lands after what it depends on, and nobody has what this device has not captured. -/
def Landable (S : RowLog OpId) (engine : Option Engine) (ops : Finset OpId) : Prop :=
  (∀ o ∈ ops, H.past o ⊆ S.all ∪ ops) ∧
    ∀ e ∈ engine, ∀ o ∈ ops, o ∈ e.doc.received → o ∈ e.doc.lastPersistedVv.ids

instance (S : RowLog OpId) (engine : Option Engine) (ops : Finset OpId) :
    Decidable (Landable H S engine ops) :=
  inferInstanceAs (Decidable (_ ∧ _))

namespace World

variable (w : World)

/-- The storage a step begins with. -/
def entering (e : Engine) (l : HostStep) : Vault :=
  { w.vault with
    lost := if e.failsRow l then some (w.vault.lost.getD e.lastContiguousSeq) else w.vault.lost }

/-- Boot, make a call, die during one, or land a row. -/
def step : WorldLabel → Option World
  | .boot =>
    match w.engine with
    | some _ => none
    | none =>
      (boot w.vault.disk).map fun e =>
        { w with engine := some e, vault := { w.vault with lost := none } }
  | .call l =>
    match w.engine with
    | none => none
    | some e =>
      if Truthful H w.stream w.vault.born e l.call then
        let r := (l.call.program H e).run (Vault.act w.stream) l.outcomes (w.entering e l)
        some { w with engine := some r.2, vault := r.1 }
      else none
  | .crash l n =>
    match w.engine with
    | none => none
    | some e =>
      if Truthful H w.stream w.vault.born e l.call then
        some { w with
          engine := none,
          vault := (l.call.program H e).crash (Vault.act w.stream) l.outcomes n
            (w.entering e l) }
      else none
  | .land ops =>
    if Landable H w.stream w.engine ops then some { w with stream := w.stream ++ [ops] }
    else none

/-- A new device and an empty stream. -/
def Fresh : Prop := w = ⟨none, .fresh, []⟩

end World

/-- One device and its server, in every order. -/
def living : Machine World WorldLabel := ⟨World.Fresh, World.step H⟩

section StepCases

variable {H} {w w' : World} {l : WorldLabel}

/-- **What a step can do.** -/
theorem World.step_cases (hs : w.step H l = some w') :
    (∃ e, l = .boot ∧ w.engine = none ∧ boot w.vault.disk = some e ∧
        w' = ⟨some e, { w.vault with lost := none }, w.stream⟩) ∨
    (∃ hl e, l = .call hl ∧ w.engine = some e ∧
        Truthful H w.stream w.vault.born e hl.call ∧
        w' = ⟨some ((hl.call.program H e).run (Vault.act w.stream) hl.outcomes (w.entering e hl)).2,
          ((hl.call.program H e).run (Vault.act w.stream) hl.outcomes (w.entering e hl)).1,
          w.stream⟩) ∨
    (∃ hl n e, l = .crash hl n ∧ w.engine = some e ∧
        Truthful H w.stream w.vault.born e hl.call ∧
        w' = ⟨none,
          (hl.call.program H e).crash (Vault.act w.stream) hl.outcomes n (w.entering e hl),
          w.stream⟩) ∨
    (∃ ops, l = .land ops ∧ Landable H w.stream w.engine ops ∧
        w' = { w with stream := w.stream ++ [ops] }) := by
  unfold World.step at hs
  cases l with
  | boot =>
    dsimp only at hs
    split at hs
    · exact absurd hs (by simp)
    · rename_i hnone
      obtain ⟨e, he, rfl⟩ := Option.map_eq_some_iff.1 hs
      exact .inl ⟨e, rfl, hnone, he, rfl⟩
  | call hl =>
    dsimp only at hs
    split at hs
    · exact absurd hs (by simp)
    · rename_i e he
      split at hs
      · rename_i ht
        exact .inr (.inl ⟨hl, e, rfl, he, ht, (Option.some.inj hs).symm⟩)
      · exact absurd hs (by simp)
  | crash hl n =>
    dsimp only at hs
    split at hs
    · exact absurd hs (by simp)
    · rename_i e he
      split at hs
      · rename_i ht
        exact .inr (.inr (.inl ⟨hl, n, e, rfl, he, ht, (Option.some.inj hs).symm⟩))
      · exact absurd hs (by simp)
  | land ops =>
    dsimp only at hs
    split at hs
    · rename_i hl
      exact .inr (.inr (.inr ⟨ops, rfl, hl, (Option.some.inj hs).symm⟩))
    · exact absurd hs (by simp)

end StepCases

/-! ## What a call can do -/

/-- The two engines agree on the document, on what is synced and on the cursors. -/
structure Core (e e' : Engine) : Prop where
  doc : e'.doc = e.doc
  known : e'.serverKnownVv = e.serverKnownVv
  inFlight : e'.inFlight = e.inFlight
  contiguous : e'.lastContiguousSeq = e.lastContiguousSeq
  durable : e'.lastDurableSeq = e.lastDurableSeq
  queued : e'.queuedAcks = e.queuedAcks

namespace Core

variable {e e' e'' : Engine}

theorem refl (e : Engine) : Core e e := ⟨rfl, rfl, rfl, rfl, rfl, rfl⟩

theorem trans (h : Core e e') (h' : Core e' e'') : Core e e'' :=
  ⟨h'.doc.trans h.doc, h'.known.trans h.known, h'.inFlight.trans h.inFlight,
    h'.contiguous.trans h.contiguous, h'.durable.trans h.durable, h'.queued.trans h.queued⟩

theorem emitFrontier (e : Engine) (prev : ℕ) : Core e (e.emitFrontier prev) := by
  unfold Engine.emitFrontier
  split
  · exact ⟨rfl, rfl, rfl, rfl, rfl, rfl⟩
  · exact .refl e

end Core

namespace Engine

variable (e : Engine)

/-- The document after a batch has been applied. -/
def imported (us : List (StoredBlob Blob)) : Engine :=
  { e with doc := (e.doc.applyRemoteBatch (us.map StoredBlob.blob)).1 }

/-- The batch has been applied, and its range is known. -/
def merged (us : List (StoredBlob Blob)) : Engine :=
  { e.imported us with
    serverKnownVv := e.serverKnownVv.merge
      ((e.doc.applyRemoteBatch (us.map StoredBlob.blob)).2.getD .new) }

/-- The seqs of a batch are counted. -/
def counted (us : List (StoredBlob Blob)) : Engine :=
  (e.ingestSeqs (us.map StoredBlob.seq)).emitFrontier e.lastContiguousSeq

/-- The push in flight is acked. -/
def unsent (p : InFlightState) : Engine :=
  { e with serverKnownVv := e.serverKnownVv.merge p.toVv, inFlight := none }

/-- The seq of an ack is counted. -/
def acked (seq : ℕ) : Engine :=
  { ((e.ingestSeq seq).emitFrontier e.lastContiguousSeq).emit .pushed with state := .idle }

/-- After a batch: the initial pull may be complete. -/
def settle (complete : Bool) (mint : PushId) : Run Engine :=
  if complete = true ∧ e.state = .pulling then e.pulled H mint else .pure e

end Engine

/-- **What a call can do.**  The calls that matter to the document, to what is synced or to the
cursors, and the one case for all the others. -/
inductive Does (e : Engine) : HostCall → Run Engine → Prop
  | core {c : HostCall} {e' : Engine} (hin : e.incoming c = []) (h : Core e e') :
    Does e c (.pure e')
  | commit (o : OpId) : Does e (.commit o) (.pure { e with doc := e.doc.commit o })
  | capture : Does e .captureLocalOps ((e.captureLocalOps H).map Prod.fst)
  | fold (maxRows maxBytes : ℕ) :
    Does e (.snapshotIfWalExceeds maxRows maxBytes)
      ((e.snapshotIfWalExceeds H maxRows maxBytes).map Prod.fst)
  | force : Does e .forceSnapshot ((e.forceSnapshot H).map Prod.fst)
  | notify (seq : ℕ) : Does e (.notifyOplogDurable seq) (e.notifyOplogDurable seq)
  | flush (mint : PushId) (hidle : e.state = .idle) : Does e (.flush mint) (e.tryStartPush H mint)
  | rows {c : HostCall} {us : List (StoredBlob Blob)} {complete : Bool} {mint : PushId}
    (hin : e.incoming c = us) (hne : us ≠ [])
    (hc : complete = true → e.state = .pulling → e.completes c = true) :
    Does e c ((Engine.appendRemoteRows (e.merged us).serverKnownVv us (e.merged us)).bind
      fun e' => (e'.counted us).settle H complete mint)
  | unread {c : HostCall} {e₁ : Engine} {complete : Bool} {mint : PushId}
    (hin : e.incoming c = []) (hcore : Core (e.imported (e.offered c)) e₁)
    (hst : e₁.state = e.state)
    (hc : complete = true → e.state = .pulling → e.completes c = true) :
    Does e c (e₁.settle H complete mint)
  | ack {p : InFlightState} {a : PushAck} {mint : PushId} (hp : e.inFlight = some p)
    (hid : a.pushId = p.pushId) (hst : e.isPushing = true) :
    Does e (.handleServerBytes (some (.updatesAck [a])) mint) (e.pushAcked H p a.seq mint)
  | chain {upToSeq : ℕ} {blob : Blob} {complete : Bool} {mint : PushId}
    (hst : e.state = .bootstrapping) :
    Does e (.handleServerBytes (some (.snapshot upToSeq blob complete)) mint)
      (e.snapshot H upToSeq blob complete)

section Calls

variable {H} {e : Engine}

theorem incoming_nil {c : HostCall} (h : e.offered c = []) : e.incoming c = [] := by
  rw [Engine.incoming, h, ite_self]

/-- A batch that imports. -/
theorem applyRemoteUpdates_readable {us : List (StoredBlob Blob)} (hne : us ≠ [])
    (hr : Readable us) :
    e.applyRemoteUpdates us =
      (Engine.appendRemoteRows (e.merged us).serverKnownVv us (e.merged us)).map fun e' =>
        e'.counted us := by
  have hsome : (e.doc.applyRemoteBatch (us.map StoredBlob.blob)).2 ≠ none := by
    rw [applyRemoteBatch_isSome]
    simpa [Readable] using hr
  rw [Engine.applyRemoteUpdates, if_neg (by simpa using hne)]
  rw [Engine.merged, Engine.imported]
  generalize e.doc.applyRemoteBatch (us.map StoredBlob.blob) = r at hsome ⊢
  obtain ⟨doc, vv⟩ := r
  cases vv with
  | none => exact absurd rfl hsome
  | some vv => rfl

/-- A batch that does not. -/
theorem applyRemoteUpdates_unreadable {us : List (StoredBlob Blob)} (hr : ¬ Readable us) :
    e.applyRemoteUpdates us =
      .pure ((e.imported us).report (.applyRemoteBlob (e.failedSeq us))) := by
  have hnone : (e.doc.applyRemoteBatch (us.map StoredBlob.blob)).2 = none := by
    by_contra hsome
    rw [← ne_eq, applyRemoteBatch_isSome] at hsome
    exact hr (by simpa [Readable] using hsome)
  have hne : us ≠ [] := by
    rintro rfl
    exact hr (by simp [Readable])
  rw [Engine.applyRemoteUpdates, if_neg (by simpa using hne), Engine.imported]
  generalize e.doc.applyRemoteBatch (us.map StoredBlob.blob) = r at hnone ⊢
  obtain ⟨doc, vv⟩ := r
  cases vv with
  | none => rfl
  | some vv => exact absurd hnone (by simp)

/-- A batch or a broadcast, taken in. -/
theorem does_rows {c : HostCall} {us : List (StoredBlob Blob)} {complete : Bool} {mint : PushId}
    (hoff : e.offered c = us)
    (hc : complete = true → e.state = .pulling → e.completes c = true) :
    Does H e c ((e.applyRemoteUpdates us).bind fun e' => e'.settle H complete mint) := by
  by_cases hr : Readable us
  · have hin : e.incoming c = us := by rw [Engine.incoming, hoff, if_pos hr]
    rcases eq_or_ne us [] with rfl | hne
    · refine .unread hin ?_ rfl hc
      rw [hoff]
      exact .refl e
    · rw [applyRemoteUpdates_readable hne hr, Program.map, Program.bind_assoc]
      exact .rows hin hne hc
  · have hin : e.incoming c = [] := by rw [Engine.incoming, hoff, if_neg hr]
    rw [applyRemoteUpdates_unreadable hr]
    refine .unread hin ?_ rfl hc
    rw [hoff]
    exact ⟨rfl, rfl, rfl, rfl, rfl, rfl⟩

theorem handleServerFrame_does (hon : e.isOnline = true) (f : ServerFrame Blob) (mint : PushId) :
    Does H e (.handleServerBytes (some f) mint) (e.handleServerFrame H mint f) := by
  cases f with
  | docOpened epoch =>
    refine .core (incoming_nil rfl) ?_
    unfold Engine.docOpened
    split <;> exact ⟨rfl, rfl, rfl, rfl, rfl, rfl⟩
  | docRejected reason => exact .core (incoming_nil rfl) ⟨rfl, rfl, rfl, rfl, rfl, rfl⟩
  | docClosed reason => exact .core (incoming_nil rfl) ⟨rfl, rfl, rfl, rfl, rfl, rfl⟩
  | presence accounts => exact .core (incoming_nil rfl) ⟨rfl, rfl, rfl, rfl, rfl, rfl⟩
  | updatesBatch us complete =>
    show Does H e _ (e.updatesBatch H us complete mint)
    unfold Engine.updatesBatch
    split
    · rename_i hboot
      refine .core (incoming_nil ?_) ⟨rfl, rfl, rfl, rfl, rfl, rfl⟩
      rw [Engine.offered, if_neg fun h => h.2 hboot]
    · rename_i hboot
      refine does_rows ?_ ?_
      · rw [Engine.offered, if_pos ⟨hon, hboot⟩]
      · intro hc hst
        simp [Engine.completes, hc, hst]
  | updatesBroadcast us =>
    show Does H e _ (e.updatesBroadcast us)
    unfold Engine.updatesBroadcast
    split
    · rename_i hboot
      refine .core (incoming_nil ?_) (.refl e)
      rw [Engine.offered, if_neg fun h => h.2 hboot]
    · rename_i hboot
      rw [← Program.bind_pure (e.applyRemoteUpdates us)]
      refine @does_rows H e _ us false mint ?_ (by simp)
      rw [Engine.offered, if_pos ⟨hon, hboot⟩]
  | updatesAck acks =>
    show Does H e _ (e.updatesAck H acks mint)
    unfold Engine.updatesAck
    split
    · rename_i hst
      split
      · exact .core (incoming_nil rfl) ⟨rfl, rfl, rfl, rfl, rfl, rfl⟩
      · rename_i p hp
        split
        · rename_i a
          split
          · rename_i hid
            exact .ack hp hid (by simpa [Engine.isPushing] using hst)
          · exact .core (incoming_nil rfl) ⟨rfl, rfl, rfl, rfl, rfl, rfl⟩
        · exact .core (incoming_nil rfl) ⟨rfl, rfl, rfl, rfl, rfl, rfl⟩
    · exact .core (incoming_nil rfl) ⟨rfl, rfl, rfl, rfl, rfl, rfl⟩
  | snapshotRequired upToSeq =>
    refine .core (incoming_nil rfl) ?_
    unfold Engine.snapshotRequired
    split <;> exact ⟨rfl, rfl, rfl, rfl, rfl, rfl⟩
  | snapshot upToSeq blob complete =>
    by_cases hst : e.state = .bootstrapping
    · exact .chain hst
    · show Does H e _ (e.snapshot H upToSeq blob complete)
      rw [Engine.snapshot, if_neg hst]
      exact .core (incoming_nil rfl) ⟨rfl, rfl, rfl, rfl, rfl, rfl⟩
  | snapshotRequest ask =>
    refine .core (incoming_nil rfl) ?_
    rcases snapshotRequest_spec H e ask with _ | ⟨snap, heq⟩
    · unfold Engine.snapshotRequest
      split <;> exact ⟨rfl, rfl, rfl, rfl, rfl, rfl⟩
    · rw [heq]
      exact ⟨rfl, rfl, rfl, rfl, rfl, rfl⟩

/-- One seq is counted: only the cursor of the stream moves. -/
theorem ingestSeq_cases (e : Engine) (n : ℕ) :
    (n = e.lastContiguousSeq + 1 ∧ e.ingestSeq n = { e with lastContiguousSeq := n }) ∨
      Core e (e.ingestSeq n) := by
  unfold Engine.ingestSeq
  split
  · rename_i hn
    exact .inl ⟨hn, rfl⟩
  · exact .inr ⟨rfl, rfl, rfl, rfl, rfl, rfl⟩

theorem acked_core (e : Engine) (seq : ℕ) : Core (e.ingestSeq seq) (e.acked seq) := by
  have hf := Core.emitFrontier (e.ingestSeq seq) e.lastContiguousSeq
  exact ⟨hf.doc, hf.known, hf.inFlight, hf.contiguous, hf.durable, hf.queued⟩

/-- The ack of a push is one call, and a new push may follow. -/
theorem pushAcked_eq (p : InFlightState) (seq : ℕ) (mint : PushId) :
    e.pushAcked H p seq mint =
      .call (.completePush p.pushId (e.unsent p).serverKnownVv) fun r =>
        Engine.tryStartPush H ((if r.isSome then e.unsent p
          else (e.unsent p).report (.storage .completePush)).acked seq) mint := by
  unfold Engine.pushAcked
  dsimp only
  congr 1
  funext r
  cases r with
  | none => rfl
  | some row => rfl

/-- What a checkpoint changes that matters. -/
theorem checkpointed_core (e : Engine) (upToSeq : ℕ) :
    Core { e with
        doc := e.doc.markPersisted H, lastContiguousSeq := max e.lastContiguousSeq upToSeq }
      (e.checkpointed H upToSeq) := by
  let e₁ : Engine :=
    { e with
      doc := e.doc.markPersisted H, walRows := 0, walBytes := 0,
      lastContiguousSeq := max e.lastContiguousSeq upToSeq }
  have hf := Core.emitFrontier e₁ e.lastContiguousSeq
  exact ⟨hf.doc, hf.known, hf.inFlight, hf.contiguous, hf.durable, hf.queued⟩

theorem program_does (c : HostCall) (e : Engine) : Does H e c (c.program H e) := by
  cases c with
  | commit o => exact .commit o
  | captureLocalOps => exact .capture
  | snapshotIfWalExceeds maxRows maxBytes => exact .fold maxRows maxBytes
  | forceSnapshot => exact .force
  | notifyOplogDurable seq => exact .notify seq
  | handleConnected =>
    refine .core (incoming_nil rfl) ?_
    unfold Engine.handleConnected
    split <;> exact ⟨rfl, rfl, rfl, rfl, rfl, rfl⟩
  | handleDisconnected =>
    refine .core (incoming_nil rfl) ?_
    unfold Engine.handleDisconnected
    split <;> exact ⟨rfl, rfl, rfl, rfl, rfl, rfl⟩
  | handleTimeout =>
    refine .core (incoming_nil rfl) ?_
    unfold Engine.handleTimeout
    split <;> exact ⟨rfl, rfl, rfl, rfl, rfl, rfl⟩
  | handleServerBytes bytes mint =>
    show Does H e _ (e.handleServerBytes H mint bytes)
    unfold Engine.handleServerBytes
    split
    · rename_i hoff
      have hno : ¬ (e.isOnline = true ∧ e.state ≠ .bootstrapping) :=
        fun h => isOnline_iff.1 h.1 hoff
      refine .core (incoming_nil ?_) ⟨rfl, rfl, rfl, rfl, rfl, rfl⟩
      unfold Engine.offered
      split
      · exact if_neg hno
      · exact if_neg hno
      · rfl
    · rename_i hst
      split
      · exact .core (incoming_nil rfl) ⟨rfl, rfl, rfl, rfl, rfl, rfl⟩
      · exact handleServerFrame_does (isOnline_iff.2 hst) _ mint
  | flush mint =>
    show Does H e _ (e.flush H mint)
    unfold Engine.flush
    split
    · rename_i hidle
      exact .flush mint hidle
    · exact .core (incoming_nil rfl) ⟨rfl, rfl, rfl, rfl, rfl, rfl⟩
    · exact .core (incoming_nil rfl) (.refl e)
  | popOutbox => exact .core (incoming_nil rfl) ⟨rfl, rfl, rfl, rfl, rfl, rfl⟩
  | popEvent => exact .core (incoming_nil rfl) ⟨rfl, rfl, rfl, rfl, rfl, rfl⟩

end Calls

/-! ## What a batch leaves -/

/-- The operations of the rows whose append is performed. -/
def performed : List (StoredBlob Blob) → List Bool → Finset OpId
  | [], _ => ∅
  | u :: us, outcomes =>
    (if outcomes.headD true = true then u.blob.held else ∅) ∪ performed us outcomes.tail

/-- The operations of a batch. -/
def batchOps : List (StoredBlob Blob) → Finset OpId
  | [] => ∅
  | u :: us => u.blob.held ∪ batchOps us

/-- The rows of the stream on disk have the operations of the stream. -/
def RowsTrue (S : RowLog OpId) (s : Disk) : Prop :=
  ∀ r ∈ s.wal, ∀ n, r.serverSeq = some n → S.row n = some r.payload.held

/-- The rows of a batch have the operations of the stream. -/
def BatchTrue (S : RowLog OpId) (us : List (StoredBlob Blob)) : Prop :=
  ∀ u ∈ us, S.row u.seq = some u.blob.held

section Rows

variable {H} {S : RowLog OpId} {e : Engine} {us : List (StoredBlob Blob)} {v : Vault}
  {o : OpId}

theorem mem_batchOps : o ∈ batchOps us ↔ ∃ u ∈ us, o ∈ u.blob.held := by
  induction us with
  | nil => simp [batchOps]
  | cons u us ih => simp [batchOps, ih]

theorem performed_subset (us : List (StoredBlob Blob)) (outcomes : List Bool) :
    performed us outcomes ⊆ batchOps us := by
  induction us generalizing outcomes with
  | nil => exact Finset.Subset.refl _
  | cons u us ih =>
    refine Finset.union_subset_union ?_ (ih _)
    split
    · exact Finset.Subset.refl _
    · exact Finset.empty_subset _

/-- Where no append fails, all of a batch is performed. -/
theorem performed_all {outcomes : List Bool} (h : (outcomes.take us.length).all id = true) :
    performed us outcomes = batchOps us := by
  induction us generalizing outcomes with
  | nil => rfl
  | cons u us ih =>
    cases outcomes with
    | nil =>
      show u.blob.held ∪ performed us [] = _
      rw [ih (by simp)]
      rfl
    | cons b outcomes =>
      rw [List.length_cons, List.take_succ_cons, List.all_cons, Bool.and_eq_true] at h
      show (if b = true then u.blob.held else ∅) ∪ performed us outcomes = _
      have hb : b = true := h.1
      rw [if_pos hb, ih h.2]
      rfl

theorem batchTrue_held (hus : BatchTrue S us) :
    ∀ b ∈ us.map StoredBlob.blob, b.held ⊆ S.all := by
  intro b hb
  obtain ⟨u, hu, rfl⟩ := List.mem_map.1 hb
  exact RowLog.row_subset (hus u hu)

theorem held_of_ops {b : Blob} (h : b.ops ≠ none) : b.ops = some b.held := by
  obtain ⟨ops, hops⟩ := Option.ne_none_iff_exists'.1 h
  rw [hops, Blob.held, hops]
  rfl

theorem offered_true {born : ℕ} {c : HostCall} (ht : Truthful H S born e c) :
    ∀ u ∈ e.offered c, u.blob.ops ≠ none → S.row u.seq = u.blob.ops := by
  intro u hu
  unfold Engine.offered at hu
  split at hu
  · split at hu
    · exact ht u hu
    · exact absurd hu (by simp)
  · split at hu
    · exact ht u hu
    · exact absurd hu (by simp)
  · exact absurd hu (by simp)

theorem offered_held {born : ℕ} {c : HostCall} (ht : Truthful H S born e c) :
    ∀ b ∈ (e.offered c).map StoredBlob.blob, b.held ⊆ S.all := by
  intro b hb
  obtain ⟨u, hu, rfl⟩ := List.mem_map.1 hb
  by_cases hops : u.blob.ops = none
  · rw [Blob.held, hops]
    exact Finset.empty_subset _
  · refine RowLog.row_subset (L := S) (n := u.seq) ?_
    rw [offered_true ht u hu hops, held_of_ops hops]

theorem incoming_readable (e : Engine) (c : HostCall) : Readable (e.incoming c) := by
  unfold Engine.incoming
  split
  · assumption
  · exact fun u hu => absurd hu (by simp)

theorem incoming_true {born : ℕ} {c : HostCall} (ht : Truthful H S born e c) :
    BatchTrue S (e.incoming c) := by
  intro u hu
  have hops := incoming_readable e c u hu
  have hoff : u ∈ e.offered c := by
    unfold Engine.incoming at hu
    split at hu
    · exact hu
    · exact absurd hu (by simp)
  rw [offered_true ht u hoff hops, held_of_ops hops]

/-- The parts of a vault that appending rows of the stream leaves alone. -/
structure Rowed (v v' : Vault) : Prop where
  captured : v'.captured = v.captured
  leftOut : v'.leftOut = v.leftOut
  born : v'.born = v.born
  lost : v'.lost = v.lost
  pushed : v'.pushed = v.pushed
  snapshot : v'.disk.snapshot = v.disk.snapshot
  cursor : v'.disk.lastAckedServerSeq = v.disk.lastAckedServerSeq
  inFlight : v'.disk.inFlight = v.disk.inFlight

theorem Rowed.refl (v : Vault) : Rowed v v := ⟨rfl, rfl, rfl, rfl, rfl, rfl, rfl, rfl⟩

theorem Rowed.trans {v v' v'' : Vault} (h : Rowed v v') (h' : Rowed v' v'') : Rowed v v'' :=
  ⟨h'.captured.trans h.captured, h'.leftOut.trans h.leftOut, h'.born.trans h.born,
    h'.lost.trans h.lost, h'.pushed.trans h.pushed, h'.snapshot.trans h.snapshot,
    h'.cursor.trans h.cursor, h'.inFlight.trans h.inFlight⟩

/-- An append of a row: the vector is written, and the row is there afterwards. -/
theorem appendRemoteWal_disk (s : Disk) (seq : ℕ) (payload : Blob) (vv : VersionVector) :
    (s.appendRemoteWal seq payload vv).1.serverKnownVv = vv ∧
      (s.appendRemoteWal seq payload vv).1.snapshot = s.snapshot ∧
      (s.appendRemoteWal seq payload vv).1.lastAckedServerSeq = s.lastAckedServerSeq ∧
      (s.appendRemoteWal seq payload vv).1.inFlight = s.inFlight ∧
      ((s.appendRemoteWal seq payload vv).1.wal = s.wal ∧
          (∃ row ∈ s.wal, row.serverSeq = some seq) ∨
        ∃ n, (s.appendRemoteWal seq payload vv).1.wal = s.wal ++ [⟨n, some seq, payload⟩]) := by
  unfold Disk.appendRemoteWal
  dsimp only
  split
  · rename_i row hrow
    have hmem := List.mem_of_find?_eq_some hrow
    have hseq := List.find?_some hrow
    exact ⟨rfl, rfl, rfl, rfl, .inl ⟨rfl, row, hmem, by simpa using hseq⟩⟩
  · exact ⟨rfl, rfl, rfl, rfl, .inr ⟨_, rfl⟩⟩

/-- **An appended row adds its operations**, also where a row of its seq is there already. -/
theorem stored_appendRemoteWal {s : Disk} {seq : ℕ} {payload : Blob} (vv : VersionVector)
    (hs : RowsTrue S s) (hrow : S.row seq = some payload.held) :
    (s.appendRemoteWal seq payload vv).1.stored = s.stored ∪ payload.held ∧
      RowsTrue S (s.appendRemoteWal seq payload vv).1 := by
  obtain ⟨_, hsnap, _, _, hwal⟩ := appendRemoteWal_disk s seq payload vv
  rcases hwal with ⟨heq, row, hmem, hseq⟩ | ⟨n, heq⟩
  · have hheld : payload.held ⊆ s.stored := by
      have hops := (hs row hmem seq hseq).symm.trans hrow
      intro o ho
      rw [← Option.some.inj hops] at ho
      exact Finset.mem_union_right _ (mem_walOps.2 ⟨row, hmem, ho⟩)
    refine ⟨?_, ?_⟩
    · rw [Finset.union_eq_left.2 hheld, Disk.stored, hsnap, heq, Disk.stored]
    · rw [RowsTrue, heq]
      exact hs
  · refine ⟨?_, ?_⟩
    · rw [Disk.stored, hsnap, heq, walOps_append, walOps_singleton, ← Finset.union_assoc]
      rfl
    · rw [RowsTrue, heq]
      intro r hr m hm
      rcases List.mem_append.1 hr with hr | hr
      · exact hs r hr m hm
      · rw [List.mem_singleton.1 hr] at hm ⊢
        rw [← Option.some.inj hm]
        exact hrow

/-- The engine that a performed append leaves to the rows after it. -/
def Engine.rowed (e : Engine) (u : StoredBlob Blob) (r : Appended) : Engine :=
  if r.inserted then
    { e with
      lastLocalSeq := r.localSeq, walRows := e.walRows + 1, walBytes := e.walBytes + u.blob.len }
  else e

theorem rowed_core (e : Engine) (u : StoredBlob Blob) (r : Appended) :
    Core e (e.rowed u r) ∧ (e.rowed u r).state = e.state := by
  unfold Engine.rowed
  split
  · exact ⟨⟨rfl, rfl, rfl, rfl, rfl, rfl⟩, rfl⟩
  · exact ⟨.refl e, rfl⟩

theorem act_rowed (S : RowLog OpId) (seq : ℕ) (payload : Blob) (vv : VersionVector)
    (v : Vault) : Rowed v (Vault.act S (.appendRemoteWal seq payload vv) v).1 := by
  obtain ⟨_, hsnap, hcur, hin, _⟩ := appendRemoteWal_disk v.disk seq payload vv
  exact ⟨rfl, rfl, rfl, rfl, rfl, hsnap, hcur, hin⟩

/-- Every row of a batch is one call. -/
theorem appendRemoteRows_calls (S : RowLog OpId) (vv : VersionVector)
    (us : List (StoredBlob Blob)) (e : Engine) (outcomes : List Bool) (v : Vault) :
    (Engine.appendRemoteRows vv us e).calls (Vault.act S) outcomes v = us.length := by
  induction us generalizing e outcomes v with
  | nil => rfl
  | cons u us ih =>
    rw [Engine.appendRemoteRows, Program.calls]
    split
    · rw [ih]
      rfl
    · rw [ih]
      rfl

/-- To die in a batch is to have appended its first rows. -/
theorem appendRemoteRows_crash (S : RowLog OpId) (vv : VersionVector)
    (us : List (StoredBlob Blob)) (e : Engine) (outcomes : List Bool) (n : ℕ) (v : Vault) :
    (Engine.appendRemoteRows vv us e).crash (Vault.act S) outcomes n v =
      ((Engine.appendRemoteRows vv (us.take n) e).run (Vault.act S) outcomes v).1 := by
  induction us generalizing e outcomes n v with
  | nil =>
    rw [List.take_nil]
    cases n <;> rfl
  | cons u us ih =>
    cases n with
    | zero => rfl
    | succ n =>
      rw [List.take_succ_cons, Engine.appendRemoteRows, Engine.appendRemoteRows, Program.crash,
        Program.run]
      split
      · exact ih _ _ _ _
      · exact ih _ _ _ _

/-- **What the appends of a batch leave**, whichever of them fail. -/
theorem appendRemoteRows_run (vv : VersionVector) (outcomes : List Bool)
    (hs : RowsTrue S v.disk) (hus : BatchTrue S us) :
    let r := (Engine.appendRemoteRows vv us e).run (Vault.act S) outcomes v
    Core e r.2 ∧ r.2.state = e.state ∧ Rowed v r.1 ∧ RowsTrue S r.1.disk ∧
      r.1.disk.stored = v.disk.stored ∪ performed us outcomes ∧
      (r.1.disk.serverKnownVv = v.disk.serverKnownVv ∨ r.1.disk.serverKnownVv = vv) := by
  induction us generalizing e outcomes v with
  | nil => exact ⟨.refl e, rfl, .refl v, hs, (Finset.union_empty _).symm, .inl rfl⟩
  | cons u us ih =>
    obtain ⟨hu, hus⟩ := List.forall_mem_cons.1 hus
    rw [Engine.appendRemoteRows, Program.run, performed]
    split
    · obtain ⟨hst, hs'⟩ := stored_appendRemoteWal vv hs hu
      obtain ⟨hcore, hstate⟩ := rowed_core e u (Vault.act S (.appendRemoteWal u.seq u.blob vv) v).2
      have hrowed := act_rowed S u.seq u.blob vv v
      obtain ⟨hc, ht, hr, htrue, hstored, hvv⟩ :=
        ih (e := e.rowed u (Vault.act S (.appendRemoteWal u.seq u.blob vv) v).2)
          (v := (Vault.act S (.appendRemoteWal u.seq u.blob vv) v).1) outcomes.tail hs' hus
      refine ⟨hcore.trans hc, ht.trans hstate, hrowed.trans hr, htrue, ?_, ?_⟩
      · rw [← Finset.union_assoc, ← hst]
        exact hstored
      · rcases hvv with hvv | hvv
        · refine .inr (hvv.trans ?_)
          exact (appendRemoteWal_disk v.disk u.seq u.blob vv).1
        · exact .inr hvv
    · have hrep : Core e (e.report (.storage .appendRemoteWal)) := ⟨rfl, rfl, rfl, rfl, rfl, rfl⟩
      obtain ⟨hc, ht, hr, htrue, hstored, hvv⟩ :=
        ih (e := e.report (.storage .appendRemoteWal)) outcomes.tail hs hus
      refine ⟨hrep.trans hc, ht, hr, htrue, ?_, hvv⟩
      rw [Finset.empty_union]
      exact hstored

/-- The payloads on disk after the appends of a batch. -/
theorem appendRemoteRows_blobs (vv : VersionVector) (outcomes : List Bool) :
    ∀ b ∈ ((Engine.appendRemoteRows vv us e).run (Vault.act S) outcomes v).1.disk.blobs,
      b ∈ v.disk.blobs ∨ ∃ u ∈ us, u.blob = b := by
  induction us generalizing e outcomes v with
  | nil => exact fun b hb => .inl hb
  | cons u us ih =>
    intro b hb
    rw [Engine.appendRemoteRows, Program.run] at hb
    split at hb
    · rcases ih (v := (Vault.act S (.appendRemoteWal u.seq u.blob vv) v).1) _ b hb with hb | hb
      · obtain ⟨_, hsnap, _, _, hwal⟩ := appendRemoteWal_disk v.disk u.seq u.blob vv
        have hb' : b ∈ ((v.disk.appendRemoteWal u.seq u.blob vv).1.snapshot.map
            SnapshotRow.payload).toList ++
            (v.disk.appendRemoteWal u.seq u.blob vv).1.wal.map WalRow.payload := hb
        rcases hwal with ⟨heq, _⟩ | ⟨n, heq⟩
        · rw [hsnap, heq] at hb'
          exact .inl hb'
        · rw [hsnap, heq, List.map_append, ← List.append_assoc] at hb'
          rcases List.mem_append.1 hb' with hb' | hb'
          · exact .inl hb'
          · exact .inr ⟨u, List.mem_cons_self .., (List.mem_singleton.1 hb').symm⟩
      · obtain ⟨u', hu', rfl⟩ := hb
        exact .inr ⟨u', List.mem_cons_of_mem _ hu', rfl⟩
    · rcases ih _ b hb with hb | hb
      · exact .inl hb
      · obtain ⟨u', hu', rfl⟩ := hb
        exact .inr ⟨u', List.mem_cons_of_mem _ hu', rfl⟩

end Rows

end Monoplan.Client
