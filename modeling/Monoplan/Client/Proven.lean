import Monoplan.Client.World

/-!
# What an engine claims of the server

The vector an engine believes the server to have grows with every ack, batch, broadcast and
snapshot, is written to storage along the way, and comes back at the next boot.

* `Imports`: what applying blobs does to a document.
* `proven_step`: no step of a device claims an operation that no row of the stream has, in
  memory or in storage; nor does the push in flight, apart from its own payload.
-/

namespace Monoplan.Client

open Monoplan.Base Monoplan.Protocol

/-! ## Importing -/

section Importing

variable {H : History} {d d' : Doc} {bs : List Blob} {A X : Finset OpId}

/-- A closed set that holds operations holds everything below their vector. -/
theorem upTo_subset_closed (hA : RowLog.Closed H.past A) (hX : X ⊆ A) :
    (VersionVector.upTo X).ids ⊆ A := by
  intro q hq
  obtain ⟨o, ho, hp, hc⟩ := VersionVector.mem_upTo.1 hq
  rcases Nat.lt_or_eq_of_le hc with hlt | heq
  · have h : (⟨q.peer, q.counter⟩ : OpId) ∈ H.past ⟨o.peer, o.counter⟩ := by
      rw [hp]
      exact H.earlier o.peer o.counter q.counter hlt
    exact hA o (hX ho) h
  · have hqo : q = o := by
      cases q
      cases o
      simp_all
    exact hqo ▸ hX ho

/-- A closed set that has arrived is applied. -/
theorem closed_subset_oplog (hX : RowLog.Closed H.past X) (h : X ⊆ d.received) :
    X ⊆ d.oplog H :=
  fun o ho => mem_oplog.2 ⟨h ho, (hX o ho).trans h⟩

/-- The operations of blobs. -/
def heldAll (bs : List Blob) : Finset OpId := RowLog.all (bs.map Blob.held)

theorem mem_heldAll {o : OpId} : o ∈ heldAll bs ↔ ∃ b ∈ bs, o ∈ b.held := by
  simp [heldAll, RowLog.mem_all]

/-- Blobs with operations of a set have been applied, as far as they could. -/
structure Imports (A : Finset OpId) (d d' : Doc) : Prop where
  grows : d.received ⊆ d'.received
  within : d'.received ⊆ d.received ∪ A
  keeps : d.lastPersistedVv.ids ⊆ d'.lastPersistedVv.ids
  counted : d'.received ⊆ d.received ∪ d'.lastPersistedVv.ids

theorem Imports.refl (A : Finset OpId) (d : Doc) : Imports A d d :=
  ⟨Finset.Subset.refl _, Finset.subset_union_left, Finset.Subset.refl _,
    Finset.subset_union_left⟩

theorem applyRemoteBatch_cons {b : Blob} (hb : b.ops ≠ none) (d : Doc) (bs : List Blob) :
    d.applyRemoteBatch (b :: bs) =
      ((Doc.mk (d.received ∪ b.held)
          (d.lastPersistedVv.merge (.upTo b.held))).applyRemoteBatch bs).map id
        (Option.map (VersionVector.merge (.upTo b.held))) := by
  rw [Doc.applyRemoteBatch, Doc.importRemoteBlob, held_of_ops hb]
  rfl

theorem applyRemoteBatch_stop {b : Blob} (hb : b.ops = none) (d : Doc) (bs : List Blob) :
    d.applyRemoteBatch (b :: bs) = (d, none) := by
  rw [Doc.applyRemoteBatch, Doc.importRemoteBlob, hb]

theorem applyRemoteBatch_imports (hbs : ∀ b ∈ bs, b.held ⊆ A) :
    Imports A d (d.applyRemoteBatch bs).1 := by
  induction bs generalizing d with
  | nil => exact .refl A d
  | cons b bs ih =>
    obtain ⟨hb, hbs⟩ := List.forall_mem_cons.1 hbs
    by_cases hops : b.ops = none
    · rw [applyRemoteBatch_stop hops]
      exact .refl A d
    · rw [applyRemoteBatch_cons hops]
      obtain ⟨hgrows, hwithin, hkeeps, hcounted⟩ :=
        ih (d := ⟨d.received ∪ b.held, d.lastPersistedVv.merge (.upTo b.held)⟩) hbs
      refine ⟨Finset.subset_union_left.trans hgrows, ?_, Finset.subset_union_left.trans hkeeps, ?_⟩
      · refine hwithin.trans (Finset.union_subset (Finset.union_subset_union_right hb) ?_)
        exact Finset.subset_union_right
      · refine hcounted.trans (Finset.union_subset (Finset.union_subset_union_right ?_) ?_)
        · exact (VersionVector.subset_upTo _).trans (Finset.subset_union_right.trans hkeeps)
        · exact Finset.subset_union_right

/-- What counts as persisted after an import was so before, or lies below an import. -/
theorem applyRemoteBatch_persisted (hA : RowLog.Closed H.past A) (hbs : ∀ b ∈ bs, b.held ⊆ A) :
    (d.applyRemoteBatch bs).1.lastPersistedVv.ids ⊆ d.lastPersistedVv.ids ∪ A := by
  induction bs generalizing d with
  | nil => exact Finset.subset_union_left
  | cons b bs ih =>
    obtain ⟨hb, hbs⟩ := List.forall_mem_cons.1 hbs
    by_cases hops : b.ops = none
    · rw [applyRemoteBatch_stop hops]
      exact Finset.subset_union_left
    · rw [applyRemoteBatch_cons hops]
      refine (ih hbs).trans (Finset.union_subset (Finset.union_subset_union_right ?_) ?_)
      · exact upTo_subset_closed hA hb
      · exact Finset.subset_union_right

/-- The range an import declares lies below what it imports. -/
theorem applyRemoteBatch_range (hA : RowLog.Closed H.past A) (hbs : ∀ b ∈ bs, b.held ⊆ A)
    {vv : VersionVector} (hvv : (d.applyRemoteBatch bs).2 = some vv) : vv.ids ⊆ A := by
  induction bs generalizing d vv with
  | nil =>
    rw [← Option.some.inj hvv]
    exact Finset.empty_subset _
  | cons b bs ih =>
    obtain ⟨hb, hbs⟩ := List.forall_mem_cons.1 hbs
    by_cases hops : b.ops = none
    · rw [applyRemoteBatch_stop hops] at hvv
      exact absurd hvv (by simp)
    · rw [applyRemoteBatch_cons hops] at hvv
      obtain ⟨rest, hrest, rfl⟩ := Option.map_eq_some_iff.1 hvv
      exact Finset.union_subset (upTo_subset_closed hA hb) (ih hbs hrest)

/-- Blobs that all import leave all of their operations. -/
theorem applyRemoteBatch_received (hbs : ∀ b ∈ bs, b.ops ≠ none) :
    (d.applyRemoteBatch bs).1.received = d.received ∪ heldAll bs := by
  induction bs generalizing d with
  | nil => exact (Finset.union_empty _).symm
  | cons b bs ih =>
    obtain ⟨hb, hbs⟩ := List.forall_mem_cons.1 hbs
    rw [applyRemoteBatch_cons hb]
    refine (ih hbs).trans ?_
    rw [Finset.union_assoc]
    rfl

theorem batchOps_eq (us : List (StoredBlob Blob)) :
    batchOps us = heldAll (us.map StoredBlob.blob) := by
  induction us with
  | nil => rfl
  | cons u us ih =>
    rw [batchOps, ih]
    rfl

end Importing

/-! ## Claims -/

/-- A vector claims only what the stream has, and the push in flight no more than that and its own
payload. -/
structure Claims (S : RowLog OpId) (known : VersionVector)
    (push : Option (Blob × VersionVector)) : Prop where
  known : known.ids ⊆ S.all
  push : ∀ p ∈ push, p.2.ids ⊆ p.1.held ∪ S.all

/-- The claims in storage. -/
def Disk.Proven (S : RowLog OpId) (s : Disk) : Prop :=
  Claims S s.serverKnownVv (s.inFlight.map fun p => (p.payload, p.toVv))

/-- The claims in memory. -/
def Engine.Proven (S : RowLog OpId) (e : Engine) : Prop :=
  Claims S e.serverKnownVv (e.inFlight.map fun p => (p.payload, p.toVv))

/-- A program that keeps all claims proven. -/
abbrev Proves (S : RowLog OpId) {α : Type} (Q : α → Prop) (p : Run α) (v : Vault) : Prop :=
  p.wp (Vault.act S) (fun v => v.disk.Proven S) (fun _ a => Q a) v

section Claims

variable {H : History} {S T : RowLog OpId} {e e' : Engine} {v : Vault}

theorem Claims.append {known : VersionVector} {push : Option (Blob × VersionVector)}
    (ops : Finset OpId) (h : Claims S known push) : Claims (S ++ [ops]) known push := by
  have hall : S.all ⊆ RowLog.all (S ++ [ops]) := by
    rw [RowLog.all_append]
    exact Finset.subset_union_left
  refine ⟨h.known.trans hall, fun p hp => (h.push p hp).trans ?_⟩
  exact Finset.union_subset_union_right hall

theorem Claims.put {known toVv : VersionVector} {payload : Blob} (hk : known.ids ⊆ S.all)
    (hp : toVv.ids ⊆ payload.held ∪ S.all) : Claims S known (some (payload, toVv)) := by
  refine ⟨hk, fun p hmem => ?_⟩
  rw [← Option.mem_some_iff.1 hmem]
  exact hp

theorem Core.proven (h : Core e e') (he : e.Proven S) : e'.Proven S := by
  unfold Engine.Proven
  rw [h.known, h.inFlight]
  exact he

theorem proves_pure {α : Type} {Q : α → Prop} {a : α} (hv : v.disk.Proven S) (h : Q a) :
    Proves S Q (.pure a) v :=
  ⟨hv, h⟩

theorem proves_bind {α γ : Type} {Q : γ → Prop} {R : α → Prop} {p : Run α} {f : α → Run γ}
    (h : Proves S R p v) (hf : ∀ a v', v'.disk.Proven S → R a → Proves S Q (f a) v') :
    Proves S Q (p.bind f) v :=
  Program.wp_bind.2 (Program.wp_mono h fun t a hi hr => hf a t hi hr)

theorem proves_map {α γ : Type} {Q : γ → Prop} {R : α → Prop} {p : Run α} {f : α → γ}
    (h : Proves S R p v) (hf : ∀ a, R a → Q (f a)) : Proves S Q (p.map f) v :=
  Program.wp_map.2 (Program.wp_mono h fun _ a _ hr => hf a hr)

/-- A call that touches no claim. -/
theorem proves_call {α : Type} {Q : α → Prop} {c : StorageCall} {k : Option Appended → Run α}
    (hv : v.disk.Proven S) (hc : (Vault.act S c v).1.disk.Proven S)
    (hk : ∀ r v', v'.disk.Proven S → Proves S Q (k r) v') : Proves S Q (.call c k) v :=
  ⟨hv, hk _ v hv, hk _ _ hc⟩

theorem captureLocalOps_proves (hv : v.disk.Proven S) :
    Proves S (fun r => r.1.serverKnownVv = e.serverKnownVv ∧ r.1.inFlight = e.inFlight)
      (e.captureLocalOps H) v := by
  unfold Engine.captureLocalOps
  split
  · exact proves_pure hv ⟨rfl, rfl⟩
  · refine proves_call hv hv fun r v' hv' => ?_
    cases r with
    | none => exact proves_pure hv' ⟨rfl, rfl⟩
    | some row => exact proves_pure hv' ⟨rfl, rfl⟩

theorem writeLocalSnapshot_proves (hv : v.disk.Proven S) :
    Proves S (fun r => r.1.serverKnownVv = e.serverKnownVv ∧ r.1.inFlight = e.inFlight)
      (e.writeLocalSnapshot H) v := by
  refine proves_call hv hv fun r v' hv' => ?_
  cases r with
  | none => exact proves_pure hv' ⟨rfl, rfl⟩
  | some row => exact proves_pure hv' ⟨rfl, rfl⟩

theorem proven_of_eq (he : e.Proven S) (hk : e'.serverKnownVv = e.serverKnownVv)
    (hp : e'.inFlight = e.inFlight) : e'.Proven S := by
  unfold Engine.Proven
  rw [hk, hp]
  exact he

/-- **A push claims its payload**: what its vector covers and its payload leaves out is known to
be on the server. -/
theorem push_covered {blob : Blob} (hk : e.serverKnownVv.ids ⊆ S.all)
    (hblob : e.doc.exportUpdatesSince H e.serverKnownVv = some blob) :
    (e.doc.oplogVv H).ids ⊆ blob.held ∪ S.all := by
  unfold Doc.exportUpdatesSince at hblob
  split at hblob
  · exact absurd hblob (by simp)
  · rw [← Option.some.inj hblob, oplogVv_ids]
    intro o ho
    by_cases hin : o ∈ e.serverKnownVv.ids
    · exact Finset.mem_union_right _ (hk hin)
    · exact Finset.mem_union_left _ (Finset.mem_sdiff.2 ⟨ho, hin⟩)

theorem tryStartPush_proves (mint : PushId) (hv : v.disk.Proven S) (he : e.Proven S) :
    Proves S (Engine.Proven S) (e.tryStartPush H mint) v := by
  unfold Engine.tryStartPush
  split
  · split
    · exact proves_pure hv (proven_of_eq he rfl rfl)
    · refine proves_bind (captureLocalOps_proves hv) ?_
      rintro ⟨e', r⟩ v' hv' ⟨hk, hp⟩
      have he' : e'.Proven S := proven_of_eq he hk hp
      cases r with
      | error f => exact proves_pure hv' (proven_of_eq he' rfl rfl)
      | ok n =>
        dsimp only
        split
        · exact proves_pure hv' he'
        · rename_i blob hblob
          have hpush : (e'.doc.oplogVv H).ids ⊆ blob.held ∪ S.all := push_covered he'.known hblob
          refine proves_call hv' ?_ fun r v'' hv'' => ?_
          · exact Claims.put hv'.known hpush
          · cases r with
            | none => exact proves_pure hv'' (proven_of_eq he' rfl rfl)
            | some row =>
              exact proves_pure hv'' (Claims.put he'.known hpush)
  · exact proves_pure hv he

theorem settle_proves (complete : Bool) (mint : PushId) (hv : v.disk.Proven S)
    (he : e.Proven S) : Proves S (Engine.Proven S) (e.settle H complete mint) v := by
  unfold Engine.settle
  split
  · exact tryStartPush_proves mint hv (proven_of_eq he rfl rfl)
  · exact proves_pure hv he

theorem appendRemoteRows_proves {vv : VersionVector} (us : List (StoredBlob Blob))
    (hvv : vv.ids ⊆ S.all) (hv : v.disk.Proven S) :
    Proves S (Core e) (Engine.appendRemoteRows vv us e) v := by
  induction us generalizing e v with
  | nil => exact proves_pure hv (.refl e)
  | cons u us ih =>
    have hrep : Core e (e.report (.storage .appendRemoteWal)) := ⟨rfl, rfl, rfl, rfl, rfl, rfl⟩
    refine proves_call hv ?_ fun r v' hv' => ?_
    · have hdisk := appendRemoteWal_disk v.disk u.seq u.blob vv
      refine ⟨(congrArg VersionVector.ids hdisk.1).subset.trans hvv, ?_⟩
      show ∀ p ∈ Option.map _ (v.disk.appendRemoteWal u.seq u.blob vv).1.inFlight, _
      rw [hdisk.2.2.2.1]
      exact hv.push
    · cases r with
      | none => exact Program.wp_mono (ih hv') fun _ _ _ h => hrep.trans h
      | some row => exact Program.wp_mono (ih hv') fun _ _ _ h => (rowed_core e u row).1.trans h

theorem counted_core (e : Engine) (us : List (StoredBlob Blob)) :
    (e.counted us).doc = e.doc ∧ (e.counted us).serverKnownVv = e.serverKnownVv ∧
      (e.counted us).inFlight = e.inFlight ∧ (e.counted us).state = e.state ∧
      (e.counted us).lastDurableSeq = e.lastDurableSeq ∧
      (e.counted us).queuedAcks = e.queuedAcks := by
  have hns (ns : List ℕ) (e : Engine) : (e.ingestSeqs ns).doc = e.doc ∧
      (e.ingestSeqs ns).serverKnownVv = e.serverKnownVv ∧
      (e.ingestSeqs ns).inFlight = e.inFlight ∧
      (e.ingestSeqs ns).lastDurableSeq = e.lastDurableSeq ∧
      (e.ingestSeqs ns).queuedAcks = e.queuedAcks := by
    induction ns generalizing e with
    | nil => exact ⟨rfl, rfl, rfl, rfl, rfl⟩
    | cons n ns ih =>
      obtain ⟨h₁, h₂, h₃, h₄, h₅⟩ := ih (e.ingestSeq n)
      rw [Engine.ingestSeqs, h₁, h₂, h₃, h₄, h₅]
      unfold Engine.ingestSeq
      split <;> exact ⟨rfl, rfl, rfl, rfl, rfl⟩
  obtain ⟨h₁, h₂, h₃, h₄, h₅⟩ := hns (us.map StoredBlob.seq) e
  have hf := Core.emitFrontier (e.ingestSeqs (us.map StoredBlob.seq)) e.lastContiguousSeq
  have hq := Quiet.emitFrontier (e.ingestSeqs (us.map StoredBlob.seq)) e.lastContiguousSeq
  refine ⟨hf.doc.trans h₁, hf.known.trans h₂, hf.inFlight.trans h₃, ?_, hf.durable.trans h₄,
    hf.queued.trans h₅⟩
  exact hq.state.trans (ingestSeqs_state e _)

/-- A batch of the stream claims no more than the stream has. -/
theorem merged_known {us : List (StoredBlob Blob)} (hS : S.Ordered H.past)
    (hus : BatchTrue S us) (he : e.serverKnownVv.ids ⊆ S.all) :
    (e.merged us).serverKnownVv.ids ⊆ S.all := by
  refine Finset.union_subset he ?_
  cases hvv : (e.doc.applyRemoteBatch (us.map StoredBlob.blob)).2 with
  | none => exact Finset.empty_subset _
  | some vv => exact applyRemoteBatch_range hS.all (batchTrue_held hus) hvv

theorem snapshot_proves {upToSeq : ℕ} {blob : Blob} {complete : Bool} (hS : S.Ordered H.past)
    (hheld : blob.ops ≠ none → blob.held ⊆ S.all) (hst : e.state = .bootstrapping)
    (hv : v.disk.Proven S) (he : e.Proven S) :
    Proves S (Engine.Proven S) (e.snapshot H upToSeq blob complete) v := by
  rw [Engine.snapshot, if_pos hst]
  split
  · exact proves_pure hv (proven_of_eq he rfl rfl)
  · rename_i doc vv hvv
    have hops : blob.ops ≠ none := by
      intro hnone
      rw [applyRemoteBatch_stop hnone] at hvv
      exact absurd hvv (by simp)
    have hrange : vv.ids ⊆ S.all := by
      refine applyRemoteBatch_range (d := e.doc) hS.all ?_ (congrArg Prod.snd hvv)
      intro b hb
      rw [List.mem_singleton.1 hb]
      exact hheld hops
    have hknown : (e.serverKnownVv.merge vv).ids ⊆ S.all := Finset.union_subset he.known hrange
    dsimp only
    split
    · refine proves_call hv ⟨hknown, hv.push⟩ fun r v' hv' => ?_
      cases r with
      | none => exact proves_pure hv' ⟨hknown, he.push⟩
      | some row =>
        refine proves_call hv' hv' fun r v'' hv'' => ?_
        cases r with
        | none => exact proves_pure hv'' ⟨hknown, he.push⟩
        | some row =>
          have hset : Engine.Proven S
              { e with doc := doc, serverKnownVv := e.serverKnownVv.merge vv } :=
            ⟨hknown, he.push⟩
          have hcore := checkpointed_core (H := H)
            { e with doc := doc, serverKnownVv := e.serverKnownVv.merge vv } upToSeq
          exact proves_pure hv'' (proven_of_eq hset hcore.known hcore.inFlight)
    · exact proves_pure hv ⟨hknown, he.push⟩

theorem pushAcked_proves {p : InFlightState} (seq : ℕ) (mint : PushId)
    (hp : e.inFlight = some p) (hland : p.payload.held ⊆ S.all) (hv : v.disk.Proven S)
    (he : e.Proven S) : Proves S (Engine.Proven S) (e.pushAcked H p seq mint) v := by
  have hvec : p.toVv.ids ⊆ S.all := by
    have hpush := he.push (p.payload, p.toVv) (by rw [hp]; rfl)
    rwa [Finset.union_eq_right.2 hland] at hpush
  have hknown : (e.serverKnownVv.merge p.toVv).ids ⊆ S.all := Finset.union_subset he.known hvec
  have hacked (e₁ : Engine) (hk : e₁.serverKnownVv = (e.unsent p).serverKnownVv)
      (hin : e₁.inFlight = none) : (e₁.acked seq).Proven S := by
    refine (acked_core e₁ seq).proven (proven_of_eq (e := e.unsent p) ⟨hknown, ?_⟩ ?_ ?_)
    · exact fun q hq => absurd hq (by simp [Engine.unsent])
    · rcases ingestSeq_cases e₁ seq with ⟨_, heq⟩ | h
      · rw [heq]
        exact hk
      · exact h.known.trans hk
    · rcases ingestSeq_cases e₁ seq with ⟨_, heq⟩ | h
      · rw [heq]
        exact hin
      · exact h.inFlight.trans hin
  rw [pushAcked_eq]
  refine proves_call hv ⟨hknown, ?_⟩ fun r v' hv' => ?_
  · show ∀ q ∈ Option.map _ (v.disk.completePush _ _).inFlight, _
    unfold Disk.completePush
    dsimp only
    split
    · exact fun q hq => absurd hq (by simp)
    · exact hv.push
  · refine tryStartPush_proves mint hv' (hacked _ ?_ ?_)
    · split <;> rfl
    · split <;> rfl

theorem fold_proves {p : Run (Engine × Except Fault Bool)}
    (hp : p = e.forceSnapshot H ∨ ∃ maxRows maxBytes,
      p = e.snapshotIfWalExceeds H maxRows maxBytes)
    (hv : v.disk.Proven S) (he : e.Proven S) :
    Proves S (Engine.Proven S) (p.map Prod.fst) v := by
  have hwrite (e' : Engine) (v' : Vault) (hv' : v'.disk.Proven S) (he' : e'.Proven S) :
      Proves S (fun r : Engine × Except Fault Bool => r.1.Proven S) (e'.writeLocalSnapshot H) v' :=
    Program.wp_mono (writeLocalSnapshot_proves hv') fun _ _ _ h => proven_of_eq he' h.1 h.2
  refine proves_map (R := fun r => r.1.Proven S) ?_ fun _ h => h
  rcases hp with rfl | ⟨maxRows, maxBytes, rfl⟩
  all_goals
    refine proves_bind (captureLocalOps_proves hv) ?_
    rintro ⟨e', r⟩ v' hv' ⟨hk, hin⟩
    have he' : e'.Proven S := proven_of_eq he hk hin
    cases r with
    | error f => exact proves_pure hv' he'
    | ok n =>
      dsimp only
      split
      · exact proves_pure hv' he'
      · exact hwrite e' v' hv' he'

theorem notifyOplogDurable_proves (seq : ℕ) (hv : v.disk.Proven S) (he : e.Proven S) :
    Proves S (Engine.Proven S) (e.notifyOplogDurable seq) v := by
  have hqueue (e₁ : Engine) (h₁ : e₁.Proven S) : e₁.queueAckIfAdvanced.Proven S := by
    unfold Engine.queueAckIfAdvanced
    split <;> exact h₁
  unfold Engine.notifyOplogDurable
  dsimp only
  split
  · refine proves_call hv hv fun r v' hv' => ?_
    cases r with
    | none => exact proves_pure hv' (hqueue _ he)
    | some row => exact proves_pure hv' (hqueue _ he)
  · exact proves_pure hv he

/-- **No call claims what the server does not have.** -/
theorem program_proves {c : HostCall} {born : ℕ} (hS : S.Ordered H.past)
    (ht : Truthful H S born e c) (hv : v.disk.Proven S) (he : e.Proven S) :
    Proves S (Engine.Proven S) (c.program H e) v := by
  have hdoes := program_does (H := H) c e
  generalize c.program H e = p at hdoes ⊢
  cases hdoes with
  | core hin h => exact proves_pure hv (h.proven he)
  | commit o => exact proves_pure hv he
  | capture => exact proves_map (captureLocalOps_proves hv) fun r h => proven_of_eq he h.1 h.2
  | fold maxRows maxBytes => exact fold_proves (.inr ⟨maxRows, maxBytes, rfl⟩) hv he
  | force => exact fold_proves (.inl rfl) hv he
  | notify seq => exact notifyOplogDurable_proves seq hv he
  | flush mint hidle => exact tryStartPush_proves mint hv he
  | rows hin hne hc =>
    have hus := hin ▸ incoming_true ht
    have hknown := merged_known hS hus he.known
    refine proves_bind (appendRemoteRows_proves _ hknown hv) fun e' v' hv' hcore => ?_
    have hcount := counted_core e' (e.incoming c)
    rw [hin] at hcount
    have he' : e'.Proven S := hcore.proven ⟨hknown, he.push⟩
    exact settle_proves _ _ hv' (proven_of_eq he' hcount.2.1 hcount.2.2.1)
  | unread hin hcore hst hc =>
    exact settle_proves _ _ hv (hcore.proven (proven_of_eq he rfl rfl))
  | ack hp hid hst =>
    have hland := (ht _ hp _ (List.mem_singleton.2 rfl) hid).1
    exact pushAcked_proves _ _ hp (RowLog.row_subset hland) hv he
  | chain hst => exact snapshot_proves hS (fun hops => (ht hst hops).1) hst hv he

end Claims

/-! ## Steps -/

section Steps

variable {H : History} {w w' : World} {l : WorldLabel}

/-- No claim of a world is ahead of its server. -/
structure World.Proven (H : History) (w : World) : Prop where
  ordered : w.stream.Ordered H.past
  disk : w.vault.disk.Proven w.stream
  engine : ∀ e ∈ w.engine, e.Proven w.stream

theorem proven_boot {S : RowLog OpId} {s : Disk} {e : Engine} (hs : s.Proven S)
    (hb : boot s = some e) : e.Proven S := by
  obtain ⟨d, _, rfl⟩ := Option.map_eq_some_iff.1 hb
  refine ⟨hs.known, ?_⟩
  have hpush := hs.push
  cases hin : s.inFlight with
  | none => simp
  | some p =>
    rw [hin] at hpush
    intro q hq
    simp only [Option.map_some] at hq
    exact hpush q hq

theorem proven_step (hw : w.Proven H) (hs : w.step H l = some w') : w'.Proven H := by
  obtain ⟨e, _, _, he, rfl⟩ | ⟨hl, e, _, he, ht, rfl⟩ | ⟨hl, n, e, _, he, ht, rfl⟩ |
    ⟨ops, _, hl, rfl⟩ := World.step_cases hs
  · refine ⟨hw.ordered, hw.disk, fun e' he' => ?_⟩
    rw [← Option.mem_some_iff.1 he']
    exact proven_boot hw.disk he
  · have hp := program_proves (v := w.entering e hl) hw.ordered ht hw.disk (hw.engine e he)
    have hrun := Program.run_of_wp hp hl.outcomes
    refine ⟨hw.ordered, hrun.1, fun e' he' => ?_⟩
    rw [← Option.mem_some_iff.1 he']
    exact hrun.2
  · have hp := program_proves (v := w.entering e hl) hw.ordered ht hw.disk (hw.engine e he)
    refine ⟨hw.ordered, Program.crash_of_wp hp hl.outcomes n, fun e' he' => ?_⟩
    exact absurd he' (by simp)
  · exact ⟨hw.ordered.append hl.1, hw.disk.append ops, fun e he => (hw.engine e he).append ops⟩

end Steps

end Monoplan.Client
