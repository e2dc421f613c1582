import Mathlib.Logic.Relation
import Monoplan.Client.Engine

/-!
# What the engine's methods do to the wire

Most of what a method does is bookkeeping: the document, the WAL statistics and the error events
change, and nothing of it can be seen on the wire (`Quiet`).  Every lemma here says what is left
of a method once bookkeeping is put aside, whatever storage calls fail: which frame is queued,
where the state goes and what becomes of the cursor.

* `Quiet` and the rules that carry it through what comes next.
* `tryStartPush_spec`, `applyRemoteUpdates_spec`, `updatesBatch_spec`, ...: one lemma for each
  method.
-/

namespace Monoplan.Client

open Monoplan.Base Monoplan.Protocol

/-- What a method ends with, whatever storage calls fail. -/
abbrev Ends {α : Type} (Q : α → Prop) (p : Run α) (s : Disk) : Prop :=
  p.wp act (fun _ => True) (fun _ a => Q a) s

theorem Ends.mono {α : Type} {Q Q' : α → Prop} {p : Run α} {s : Disk} (h : Ends Q p s)
    (himp : ∀ a, Q a → Q' a) : Ends Q' p s :=
  Program.wp_mono h fun _ a _ hq => himp a hq

theorem ends_pure {α : Type} {Q : α → Prop} {a : α} {s : Disk} (h : Q a) :
    Ends Q (.pure a : Run α) s :=
  ⟨trivial, h⟩

theorem ends_call {α : Type} {Q : α → Prop} {c : StorageCall} {k : Option Appended → Run α}
    {s : Disk} (hfail : Ends Q (k none) s) (hok : ∀ r t, Ends Q (k (some r)) t) :
    Ends Q (.call c k) s :=
  ⟨trivial, hfail, hok _ _⟩

theorem ends_bind {α γ : Type} {Q : γ → Prop} {p : Run α} {f : α → Run γ} {s : Disk}
    {R : α → Prop} (h : Ends R p s) (hf : ∀ a t, R a → Ends Q (f a) t) :
    Ends Q (p.bind f) s :=
  Program.wp_bind.2 (Program.wp_mono h fun t a _ hr => hf a t hr)

theorem ends_map {α γ : Type} {Q : γ → Prop} {p : Run α} {f : α → γ} {s : Disk} {R : α → Prop}
    (h : Ends R p s) (hf : ∀ a, R a → Q (f a)) : Ends Q (p.map f) s :=
  Program.wp_map.2 (Program.wp_mono h fun _ a _ hr => hf a hr)

/-! ## Bookkeeping -/

/-- Nothing that can be seen on the wire has changed. -/
structure Quiet (e e' : Engine) : Prop where
  state : e'.state = e.state
  contiguous : e'.lastContiguousSeq = e.lastContiguousSeq
  durable : e'.lastDurableSeq = e.lastDurableSeq
  sentAck : e'.lastSentAck = e.lastSentAck
  outbox : e'.outbox = e.outbox
  queued : e'.queuedAcks = e.queuedAcks
  gap : e'.gap = e.gap
  pulled : e'.events.count .pulledInitial = e.events.count .pulledInitial

namespace Quiet

variable {e e' e'' : Engine}

theorem refl (e : Engine) : Quiet e e := ⟨rfl, rfl, rfl, rfl, rfl, rfl, rfl, rfl⟩

theorem trans (h : Quiet e e') (h' : Quiet e' e'') : Quiet e e'' :=
  ⟨h'.state.trans h.state, h'.contiguous.trans h.contiguous, h'.durable.trans h.durable,
    h'.sentAck.trans h.sentAck, h'.outbox.trans h.outbox, h'.queued.trans h.queued,
    h'.gap.trans h.gap, h'.pulled.trans h.pulled⟩

theorem emit (e : Engine) {ev : Event} (hev : ev ≠ .pulledInitial) : Quiet e (e.emit ev) := by
  refine ⟨rfl, rfl, rfl, rfl, rfl, rfl, rfl, ?_⟩
  rw [Engine.emit, List.count_append, List.count_singleton, if_neg (by simpa using hev)]
  rfl

theorem report (e : Engine) (f : Fault) : Quiet e (e.report f) :=
  .emit e (by simp)

theorem emitFrontier (e : Engine) (prev : ℕ) : Quiet e (e.emitFrontier prev) := by
  unfold Engine.emitFrontier
  split
  · exact .emit e (by simp)
  · exact .refl e

/-- Documents, cursors of the disk and statistics do not show. -/
theorem of_eq (hstate : e'.state = e.state) (hcont : e'.lastContiguousSeq = e.lastContiguousSeq)
    (hdur : e'.lastDurableSeq = e.lastDurableSeq) (hsent : e'.lastSentAck = e.lastSentAck)
    (hout : e'.outbox = e.outbox) (hq : e'.queuedAcks = e.queuedAcks) (hgap : e'.gap = e.gap)
    (hev : e'.events = e.events) : Quiet e e' :=
  ⟨hstate, hcont, hdur, hsent, hout, hq, hgap, by rw [hev]⟩

/-! What is done next to two engines that look the same leaves them looking the same. -/

theorem emitted (h : Quiet e e') (ev : Event) : Quiet (e.emit ev) (e'.emit ev) := by
  refine ⟨h.state, h.contiguous, h.durable, h.sentAck, h.outbox, h.queued, h.gap, ?_⟩
  rw [Engine.emit, Engine.emit, List.count_append, List.count_append, h.pulled]

theorem goto (h : Quiet e e') (st : ConnState) :
    Quiet { e with state := st } { e' with state := st } :=
  ⟨rfl, h.contiguous, h.durable, h.sentAck, h.outbox, h.queued, h.gap, h.pulled⟩

theorem sent (h : Quiet e e') (f : ClientFrame Blob) : Quiet (e.send f) (e'.send f) :=
  ⟨h.state, h.contiguous, h.durable, h.sentAck, congrArg (· ++ [f]) h.outbox, h.queued, h.gap,
    h.pulled⟩

theorem sentInFlight (h : Quiet e e') (p : InFlightState) :
    Quiet (e.sendInFlight p) (e'.sendInFlight p) :=
  (h.sent _).goto .pushing

theorem down (h : Quiet e e') : Quiet e.goDisconnected e'.goDisconnected := by
  have hcut : Quiet { e with state := .disconnected, outbox := [] }
      { e' with state := .disconnected, outbox := [] } :=
    ⟨rfl, h.contiguous, h.durable, h.sentAck, rfl, h.queued, h.gap, h.pulled⟩
  exact hcut.emitted _

theorem ingestSeq (h : Quiet e e') (n : ℕ) : Quiet (e.ingestSeq n) (e'.ingestSeq n) := by
  have hc := h.contiguous
  unfold Engine.ingestSeq
  by_cases hn : n = e.lastContiguousSeq + 1
  · rw [if_pos hn, if_pos (by rw [hc, hn])]
    exact ⟨h.state, rfl, h.durable, h.sentAck, h.outbox, h.queued, h.gap, h.pulled⟩
  · rw [if_neg hn, if_neg (by rwa [hc])]
    refine ⟨h.state, hc, h.durable, h.sentAck, h.outbox, h.queued, ?_, h.pulled⟩
    show (_ || _) = (_ || _)
    rw [h.gap, hc]

theorem ingestSeqs (h : Quiet e e') (ns : List ℕ) :
    Quiet (e.ingestSeqs ns) (e'.ingestSeqs ns) := by
  induction ns generalizing e e' with
  | nil => exact h
  | cons n ns ih => exact ih (h.ingestSeq n)

end Quiet

section Bookkeeping

variable (H : History) (e : Engine) (s : Disk)

theorem captureLocalOps_quiet : Ends (fun r => Quiet e r.1) (e.captureLocalOps H) s := by
  unfold Engine.captureLocalOps
  split
  · exact ends_pure (.refl e)
  · exact ends_call (ends_pure (.refl e)) fun r t =>
      ends_pure (.of_eq rfl rfl rfl rfl rfl rfl rfl rfl)

theorem writeLocalSnapshot_quiet : Ends (fun r => Quiet e r.1) (e.writeLocalSnapshot H) s :=
  ends_call (ends_pure (.refl e)) fun _ _ => ends_pure (.of_eq rfl rfl rfl rfl rfl rfl rfl rfl)

theorem snapshotIfWalExceeds_quiet (maxRows maxBytes : ℕ) :
    Ends (fun r => Quiet e r.1) (e.snapshotIfWalExceeds H maxRows maxBytes) s := by
  refine ends_bind (captureLocalOps_quiet H e s) ?_
  rintro ⟨e', r⟩ t hq
  cases r with
  | error f => exact ends_pure hq
  | ok n =>
    dsimp only
    split
    · exact ends_pure hq
    · exact (writeLocalSnapshot_quiet H e' t).mono fun _ h => hq.trans h

theorem forceSnapshot_quiet : Ends (fun r => Quiet e r.1) (e.forceSnapshot H) s := by
  refine ends_bind (captureLocalOps_quiet H e s) ?_
  rintro ⟨e', r⟩ t hq
  cases r with
  | error f => exact ends_pure hq
  | ok n =>
    dsimp only
    split
    · exact ends_pure hq
    · exact (writeLocalSnapshot_quiet H e' t).mono fun _ h => hq.trans h

theorem appendRemoteRows_quiet (vv : VersionVector) (us : List (StoredBlob Blob)) :
    Ends (Quiet e) (Engine.appendRemoteRows vv us e) s := by
  induction us generalizing e s with
  | nil => exact ends_pure (.refl e)
  | cons u us ih =>
    refine ends_call ?_ ?_
    · exact (ih _ s).mono fun _ h => (Quiet.report e _).trans h
    · intro r t
      refine (ih _ t).mono fun _ h => Quiet.trans ?_ h
      split
      · exact .of_eq rfl rfl rfl rfl rfl rfl rfl rfl
      · exact .refl e

end Bookkeeping

/-! ## Pushing and applying -/

/-- Every blob of a batch opens to updates. -/
def Readable (us : List (StoredBlob Blob)) : Prop := ∀ u ∈ us, u.blob.ops ≠ none

instance (us : List (StoredBlob Blob)) : Decidable (Readable us) :=
  inferInstanceAs (Decidable (∀ u ∈ us, u.blob.ops ≠ none))

theorem applyRemoteBatch_isSome {d : Doc} {bs : List Blob} :
    (d.applyRemoteBatch bs).2 ≠ none ↔ ∀ b ∈ bs, b.ops ≠ none := by
  induction bs generalizing d with
  | nil => simp [Doc.applyRemoteBatch]
  | cons b bs ih =>
    rw [List.forall_mem_cons]
    cases hb : b.ops with
    | none => simp [Doc.applyRemoteBatch, Doc.importRemoteBlob, hb]
    | some ops =>
      have hrest := ih (d := ⟨d.received ∪ ops, d.lastPersistedVv.merge (.upTo ops)⟩)
      simp only [Doc.applyRemoteBatch, Doc.importRemoteBlob, hb, ne_eq, Option.map_eq_none_iff,
        reduceCtorEq, not_false_eq_true, true_and]
      exact hrest

/-- The engine after an update batch, as far as it shows: a batch that does not import leaves the
cursor alone. -/
def Engine.took (e : Engine) (us : List (StoredBlob Blob)) : Engine :=
  if Readable us then e.ingestSeqs (us.map StoredBlob.seq) else e

/-- A push is awaiting its ack. -/
def Engine.isPushing (e : Engine) : Bool :=
  decide (e.state = .pushing) || decide (e.state = .pushingDirty)

/-- The acks answer the push in flight. -/
def Engine.ackFits (e : Engine) (acks : List PushAck) : Bool :=
  e.isPushing &&
    match e.inFlight, acks with
    | some p, [ack] => decide (ack.pushId = p.pushId)
    | _, _ => false

/-- The engine after a chain has ended, as far as it shows. -/
def Engine.resumed (e : Engine) (upToSeq : ℕ) : Engine :=
  let seq := max e.lastContiguousSeq upToSeq
  { e with lastContiguousSeq := seq, state := .pulling }.send (.pullUpdates seq)

theorem Quiet.resumed {e e' : Engine} (h : Quiet e e') (upToSeq : ℕ) :
    Quiet (e.resumed upToSeq) (e'.resumed upToSeq) := by
  unfold Engine.resumed
  rw [h.contiguous]
  refine Quiet.sent ?_ _
  exact ⟨rfl, rfl, h.durable, h.sentAck, h.outbox, h.queued, h.gap, h.pulled⟩

/-- A push goes out, or nothing shows. -/
def Pushed (e e' : Engine) : Prop :=
  Quiet e e' ∨ (e.state = .idle ∧ ∃ p, Quiet (e.sendInFlight p) e')

theorem Pushed.after {e e' e'' : Engine} (h : Quiet e e') (hp : Pushed e' e'') :
    Pushed e e'' := by
  rcases hp with hq | ⟨hidle, p, hq⟩
  · exact .inl (h.trans hq)
  · exact .inr ⟨h.state.symm.trans hidle, p, (h.sentInFlight p).trans hq⟩

section Methods

variable (H : History) (e : Engine) (s : Disk)

theorem tryStartPush_spec (mint : PushId) : Ends (Pushed e) (e.tryStartPush H mint) s := by
  unfold Engine.tryStartPush
  split
  · rename_i hidle
    split
    · rename_i p _
      exact ends_pure (.inr ⟨hidle, p, .refl _⟩)
    · refine ends_bind (captureLocalOps_quiet H e s) ?_
      rintro ⟨e', r⟩ t hq
      cases r with
      | error f => exact ends_pure (.inl (hq.trans (.report e' f)))
      | ok n =>
        dsimp only
        split
        · exact ends_pure (.inl hq)
        · rename_i blob _
          refine ends_call (ends_pure (.inl (hq.trans (.report e' _)))) fun _ _ => ends_pure ?_
          have hset : Quiet e' { e' with inFlight := some ⟨mint, blob, e'.doc.oplogVv H⟩ } :=
            .of_eq rfl rfl rfl rfl rfl rfl rfl rfl
          exact .inr ⟨hidle, _, (hq.trans hset).sentInFlight _⟩
  · exact ends_pure (.inl (.refl e))

theorem applyRemoteUpdates_spec (us : List (StoredBlob Blob)) :
    Ends (Quiet (e.took us)) (e.applyRemoteUpdates us) s := by
  have hiff : (e.doc.applyRemoteBatch (us.map StoredBlob.blob)).2 ≠ none ↔ Readable us := by
    rw [applyRemoteBatch_isSome]
    simp [Readable]
  unfold Engine.applyRemoteUpdates
  split
  · rename_i hnil
    rw [List.isEmpty_iff] at hnil
    subst hnil
    exact ends_pure (.refl e)
  · split
    · rename_i doc hb
      rw [hb] at hiff
      have hno : ¬ Readable us := fun hr => hiff.2 hr rfl
      have hdoc : Quiet e { e with doc := doc } := .of_eq rfl rfl rfl rfl rfl rfl rfl rfl
      rw [Engine.took, if_neg hno]
      exact ends_pure (hdoc.trans (.report _ _))
    · rename_i doc vv hb
      rw [hb] at hiff
      rw [Engine.took, if_pos (hiff.1 (by simp))]
      refine ends_map (appendRemoteRows_quiet _ s _ us) ?_
      intro e' hq
      have hdoc : Quiet e { e with doc := doc, serverKnownVv := e.serverKnownVv.merge vv } :=
        .of_eq rfl rfl rfl rfl rfl rfl rfl rfl
      exact ((hdoc.trans hq).ingestSeqs _).trans (.emitFrontier _ _)

theorem flush_spec (mint : PushId) :
    Ends (fun e' => Pushed e e' ∨ (e.state = .pushing ∧ e' = { e with state := .pushingDirty }))
      (e.flush H mint) s := by
  unfold Engine.flush
  split
  · exact (tryStartPush_spec H e s mint).mono fun _ => .inl
  · rename_i hp
    exact ends_pure (.inr ⟨hp, rfl⟩)
  · exact ends_pure (.inl (.inl (.refl e)))

theorem updatesBatch_spec (us : List (StoredBlob Blob)) (complete : Bool) (mint : PushId)
    (hboot : e.state ≠ .bootstrapping) :
    Ends (fun e' => if complete = true ∧ (e.took us).state = .pulling
        then Pushed ({ e.took us with state := .idle }.emit .pulledInitial) e'
        else Quiet (e.took us) e') (e.updatesBatch H us complete mint) s := by
  rw [Engine.updatesBatch, if_neg hboot]
  refine ends_bind (applyRemoteUpdates_spec e s us) ?_
  intro e' t hq
  rw [← hq.state]
  split
  · exact (tryStartPush_spec H _ t mint).mono fun _ => .after ((hq.goto .idle).emitted _)
  · exact ends_pure hq

/-- The push in flight is acked, or the frame is not the awaited one. -/
theorem updatesAck_spec (acks : List PushAck) (mint : PushId) :
    Ends (fun e' => (e.ackFits acks = true ∧
        ∃ n, acks.map PushAck.seq = [n] ∧ Pushed { e.ingestSeq n with state := .idle } e') ∨
        (e.ackFits acks = false ∧
          (Quiet e e' ∨ (e.isPushing = true ∧ Quiet { e with state := .idle } e'))))
      (e.updatesAck H acks mint) s := by
  unfold Engine.updatesAck
  split
  · rename_i hst
    have hpush : e.isPushing = true := by
      simpa [Engine.isPushing] using hst
    split
    · rename_i hp
      refine ends_pure (.inr ⟨?_, .inr ⟨hpush, (Quiet.report e _).goto .idle⟩⟩)
      simp [Engine.ackFits, hp]
    · rename_i p hp
      split
      · rename_i ack
        split
        · rename_i hid
          have hfits : e.ackFits [ack] = true := by
            simp [Engine.ackFits, hp, hid, hpush]
          let known := e.serverKnownVv.merge p.toVv
          have hset : Quiet e { e with serverKnownVv := known, inFlight := none } :=
            .of_eq rfl rfl rfl rfl rfl rfl rfl rfl
          have hfinish (e₁ : Engine) (hq : Quiet e e₁) :
              Quiet { e.ingestSeq ack.seq with state := .idle }
                { ((e₁.ingestSeq ack.seq).emitFrontier e₁.lastContiguousSeq).emit .pushed with
                  state := .idle } := by
            refine Quiet.goto ?_ .idle
            exact ((hq.ingestSeq _).trans (.emitFrontier _ _)).trans (.emit _ (by simp))
          refine ends_call ?_ fun _ t => ?_
          · refine (tryStartPush_spec H _ s mint).mono fun e' hp' => ?_
            have hq := hset.trans (.report _ (.storage .completePush))
            exact .inl ⟨hfits, ack.seq, rfl, .after (hfinish _ hq) hp'⟩
          · refine (tryStartPush_spec H _ t mint).mono fun e' hp' => ?_
            exact .inl ⟨hfits, ack.seq, rfl, .after (hfinish _ hset) hp'⟩
        · rename_i hid
          refine ends_pure (.inr ⟨?_, .inl (.report e _)⟩)
          simp [Engine.ackFits, hp, hid]
      · rename_i hmany
        refine ends_pure (.inr ⟨?_, .inl (.report e _)⟩)
        cases acks with
        | nil => simp [Engine.ackFits, hp]
        | cons ack rest =>
          cases rest with
          | nil => exact (hmany ack rfl).elim
          | cons ack' rest => simp [Engine.ackFits, hp]
  · rename_i hst
    refine ends_pure (.inr ⟨?_, .inl (.report e _)⟩)
    have hno : e.isPushing = false := by
      simpa [Engine.isPushing] using hst
    simp [Engine.ackFits, hno]

theorem checkpointed_quiet (upToSeq : ℕ) :
    Quiet (e.resumed upToSeq) (e.checkpointed H upToSeq) := by
  let e₁ : Engine :=
    { e with
      doc := e.doc.markPersisted H, walRows := 0, walBytes := 0,
      lastContiguousSeq := max e.lastContiguousSeq upToSeq }
  have hf := Quiet.emitFrontier e₁ e.lastContiguousSeq
  refine ⟨rfl, hf.contiguous, hf.durable, hf.sentAck, ?_, hf.queued, hf.gap, hf.pulled⟩
  show (e₁.emitFrontier _).outbox ++
    [ClientFrame.pullUpdates (e₁.emitFrontier _).lastContiguousSeq] = _
  rw [hf.outbox, hf.contiguous]
  rfl

/-- A chain goes on, brings the engine down, or ends in a new pull. -/
theorem snapshot_spec (upToSeq : ℕ) (blob : Blob) (complete : Bool) :
    Ends (fun e' => Quiet e e' ∨ (e.state = .bootstrapping ∧
        (Quiet e.goDisconnected e' ∨ Quiet (e.resumed upToSeq) e')))
      (e.snapshot H upToSeq blob complete) s := by
  have hdown (e₁ : Engine) (h : Quiet e e₁) (f : Fault) :
      Quiet e.goDisconnected (e₁.report f).goDisconnected :=
    (h.trans (.report _ f)).down
  unfold Engine.snapshot
  split
  · rename_i hboot
    split
    · refine ends_pure (.inr ⟨hboot, .inl (hdown _ ?_ _)⟩)
      exact .of_eq rfl rfl rfl rfl rfl rfl rfl rfl
    · rename_i doc vv _
      have hset : Quiet e { e with doc := doc, serverKnownVv := e.serverKnownVv.merge vv } :=
        .of_eq rfl rfl rfl rfl rfl rfl rfl rfl
      dsimp only
      split
      · refine ends_call (ends_pure (.inr ⟨hboot, .inl (hdown _ hset _)⟩)) fun _ _ => ?_
        refine ends_call (ends_pure (.inr ⟨hboot, .inl (hdown _ hset _)⟩)) fun _ _ => ?_
        refine ends_pure (.inr ⟨hboot, .inr ?_⟩)
        exact (hset.resumed upToSeq).trans (checkpointed_quiet H _ upToSeq)
      · exact ends_pure (.inl hset)
  · exact ends_pure (.inl (.report e _))

/-- A snapshot goes out, or the request is declined. -/
theorem snapshotRequest_spec (ask : SnapshotAsk Blob) :
    Quiet e (e.snapshotRequest H ask) ∨
      ∃ snap, e.snapshotRequest H ask = e.send (.pushSnapshot snap) := by
  unfold Engine.snapshotRequest
  split
  · exact .inl (.report e _)
  · exact .inr ⟨_, rfl⟩

end Methods

end Monoplan.Client
