import Monoplan.Client.Grounded

/-!
# Interrupted bootstraps

The frames of a snapshot chain are merged into memory one by one; the vector of what the server is
known to have grows with each, and storage hears of it when the chain is complete.  In between the
vector in memory claims operations that storage does not hold, and whatever persists that vector
persists the claim: an append after a reconnect, an ack, or a checkpoint whose second call does
not happen.

* `bootstraps_safe`: where nothing is appended, acked or pushed while memory holds imports that
  storage lacks, and the calls of a batch and of a checkpoint are performed together
  (`Checkpointed`), the persisted vector claims only what is stored, nothing captured is lost, and
  every push has all that was captured and is not on the server; in every run, and at every crash.
* `claimed_ahead`: a chain that is cut, and one broadcast after the reconnect.
* `captured_lost`: a commit on top of a chain that is cut, a crash, and a fold.
-/

namespace Monoplan.Client

open Monoplan.Base Monoplan.Protocol

variable (H : History)

/-! ## The condition -/

/-- All that was imported is stored. -/
def Mirrored (e : Engine) (v : Vault) : Prop :=
  ∀ o ∈ e.doc.received, o ∈ e.doc.lastPersistedVv.ids → o ∈ v.disk.stored

instance (e : Engine) (v : Vault) : Decidable (Mirrored e v) :=
  inferInstanceAs (Decidable (∀ o ∈ e.doc.received, _))

/-- A step persists no claim on imports that storage lacks, and performs the calls of a batch and
of a checkpoint together; `dies` says after how many calls the device dies, if it does. -/
structure Checkpoints (v : Vault) (e : Engine) (l : HostStep) (dies : Option ℕ) : Prop where
  anchors : Anchors H v e l
  rows : e.incoming l.call ≠ [] →
    Mirrored e v ∧ (l.outcomes.take (e.incoming l.call).length).all id = true ∧
      ∀ n ∈ dies, n = 0 ∨ (e.incoming l.call).length ≤ n
  pushes : e.pushesOn l.call = true → Mirrored e v ∧ Readable (e.offered l.call)
  chain : e.checkpoints l.call = true →
    l.outcomes.headD true = false ∨ (l.outcomes.tail.headD true = true ∧ ∀ n ∈ dies, n ≠ 1)

/-- Every step of a world checkpoints what it claims. -/
def Checkpointed (w : World) : WorldLabel → Prop
  | .call l => ∀ e ∈ w.engine, Checkpoints H w.vault e l none
  | .crash l n => ∀ e ∈ w.engine, Checkpoints H w.vault e l (some n)
  | _ => True

/-! ## Claims on storage -/

/-- What is claimed in storage is in storage, and no push has left anything out. -/
structure Vault.Claimed (v : Vault) : Prop where
  known : v.disk.serverKnownVv.ids ⊆ v.disk.stored
  push : ∀ p ∈ v.disk.inFlight, p.toVv.ids ⊆ v.disk.stored
  leftOut : v.leftOut = ∅

/-- What is claimed in memory is applied. -/
def Engine.Claimed (e : Engine) : Prop := e.serverKnownVv.ids ⊆ e.doc.oplog H

/-- A program that keeps the claims within storage on the way. -/
abbrev Claiming {α : Type} (S : RowLog OpId) (Q : Vault → α → Prop) (p : Run α) (v : Vault) :
    Prop :=
  p.wp (Vault.act S) Vault.Claimed Q v

/-- Everything that holds of a device whose steps checkpoint what they claim. -/
structure Vault.Sound (S : RowLog OpId) (v : Vault) : Prop where
  covered : v.Covered H S
  closed : v.Closed H
  proven : v.disk.Proven S
  claimed : v.Claimed

/-- The same of the engine. -/
structure Engine.Sound (S : RowLog OpId) (e : Engine) (v : Vault) : Prop where
  covered : e.Covered H S v
  proven : e.Proven S
  claimed : e.Claimed H

section Claiming

variable {H} {S : RowLog OpId} {e e' : Engine} {v v' : Vault} {o : OpId}

/-- While all imports are stored, so is what is claimed. -/
theorem Engine.Sound.known_stored (he : e.Sound H S v) (hm : Mirrored e v) :
    e.serverKnownVv.ids ⊆ v.disk.stored := by
  intro o ho
  have hrec : o ∈ e.doc.received := oplog_subset (he.claimed ho)
  refine hm o hrec ?_
  by_contra hno
  exact (he.covered.fresh o hrec hno).1 (he.proven.known ho)

theorem Vault.Claimed.grow (hv : v.Claimed) (hst : v.disk.stored ⊆ v'.disk.stored)
    (hk : v'.disk.serverKnownVv = v.disk.serverKnownVv)
    (hp : v'.disk.inFlight = v.disk.inFlight) (hl : v'.leftOut = v.leftOut) : v'.Claimed := by
  refine ⟨?_, ?_, hl.trans hv.leftOut⟩
  · rw [hk]
    exact hv.known.trans hst
  · rw [hp]
    exact fun p hp => (hv.push p hp).trans hst

theorem claimed_of_eq (he : e.Claimed H) (hdoc : e'.doc = e.doc)
    (hk : e'.serverKnownVv = e.serverKnownVv) : e'.Claimed H := by
  unfold Engine.Claimed
  rw [hdoc, hk]
  exact he

theorem claiming_pure {α : Type} {Q : Vault → α → Prop} {a : α} (hv : v.Claimed) (h : Q v a) :
    Claiming S Q (.pure a) v :=
  ⟨hv, h⟩

/-! ### Methods -/

/-- A capture stores the commits: with the imports, that is all there is. -/
theorem captureLocalOps_claiming (hv : v.Claimed) (he : e.Claimed H) :
    Claiming S (fun v' r => r.1.Claimed H ∧
        (∀ n, r.2 = .ok n → Mirrored e v → r.1.doc.oplog H ⊆ v'.disk.stored))
      (e.captureLocalOps H) v := by
  unfold Engine.captureLocalOps
  split
  · rename_i hnone
    refine claiming_pure hv ⟨he, fun n _ hm o ho => ?_⟩
    exact hm o (oplog_subset ho) (pendingExport_none hnone ho)
  · rename_i blob hblob
    refine ⟨hv, claiming_pure hv ⟨he, fun n hn => absurd hn (by simp)⟩, ?_⟩
    have hgrow : v.disk.stored ⊆ (v.localRow S blob).disk.stored := by
      rw [localRow_stored]
      exact Finset.subset_union_left
    refine claiming_pure (hv.grow hgrow rfl rfl rfl) ⟨he, fun n _ hm o ho => ?_⟩
    show o ∈ (v.localRow S blob).disk.stored
    rw [localRow_stored]
    by_cases hlp : o ∈ e.doc.lastPersistedVv.ids
    · exact Finset.mem_union_left _ (hm o (oplog_subset ho) hlp)
    · apply Finset.mem_union_right
      rw [(pendingExport_some hblob).2]
      exact Finset.mem_sdiff.2 ⟨ho, hlp⟩

/-- The engine and the vault after a capture. -/
theorem captured_claiming (hv : v.Sound H S) (he : e.Sound H S v) (hg : Grounded H e v) :
    Claiming S (fun v' r => v'.Sound H S ∧ r.1.Sound H S v' ∧ Captured H S e v r.1 v' ∧
        (∀ n, r.2 = .ok n → Mirrored e v → r.1.doc.oplog H ⊆ v'.disk.stored))
      (e.captureLocalOps H) v := by
  have h₁ := captured_closing hv.covered he.covered hv.closed hg
  have h₂ := captureLocalOps_proves (H := H) (S := S) (e := e) hv.proven
  have h₃ := captureLocalOps_claiming (S := S) hv.claimed he.claimed
  have hall := Program.wp_and (Program.wp_and h₁ h₂) h₃
  refine Program.wp_weaken (Program.wp_mono hall ?_) fun _ h => h.2
  rintro t r ⟨⟨hc, hp⟩, hcl⟩ ⟨⟨⟨hcov, hcapt, _⟩, hk⟩, hclaim, hst⟩
  refine ⟨⟨hcov, hc, hp, hcl⟩, ⟨hcapt.covered, ?_, hclaim⟩, hcapt, hst⟩
  exact proven_of_eq he.proven hk.1 hk.2

theorem fold_claiming {p : Run (Engine × Except Fault Bool)}
    (hp : p = e.forceSnapshot H ∨ ∃ maxRows maxBytes,
      p = e.snapshotIfWalExceeds H maxRows maxBytes)
    (hv : v.Sound H S) (he : e.Sound H S v) (hg : Grounded H e v) :
    Claiming S (fun _ e' => e'.Claimed H) (p.map Prod.fst) v := by
  have hwrite (e' : Engine) (v' : Vault) (hv' : v'.Sound H S) (he' : e'.Sound H S v') :
      Claiming S (fun _ r => r.1.Claimed H) (e'.writeLocalSnapshot H) v' := by
    refine ⟨hv'.claimed, claiming_pure hv'.claimed he'.claimed, claiming_pure ?_ he'.claimed⟩
    refine hv'.claimed.grow ?_ rfl rfl rfl
    exact (hv'.closed.applied he'.covered).trans (oplog_subset_folded e'.doc)
  refine Program.wp_map.2 ?_
  rcases hp with rfl | ⟨maxRows, maxBytes, rfl⟩
  all_goals
    refine Program.wp_bind.2 (Program.wp_mono (captured_claiming hv he hg) ?_)
    rintro v' ⟨e', r⟩ _ ⟨hv', he', _⟩
    cases r with
    | error f => exact claiming_pure hv'.claimed he'.claimed
    | ok n =>
      dsimp only
      split
      · exact claiming_pure hv'.claimed he'.claimed
      · exact hwrite e' v' hv' he'

theorem notifyOplogDurable_claiming (seq : ℕ) (hv : v.Claimed) (he : e.Claimed H) :
    Claiming S (fun _ e' => e'.Claimed H) (e.notifyOplogDurable seq) v := by
  have hqueue (e₁ : Engine) (h₁ : e₁.Claimed H) : e₁.queueAckIfAdvanced.Claimed H := by
    unfold Engine.queueAckIfAdvanced
    split <;> exact h₁
  unfold Engine.notifyOplogDurable
  dsimp only
  split
  · refine ⟨hv, claiming_pure hv (hqueue _ he), claiming_pure ?_ (hqueue _ he)⟩
    exact hv.grow (Finset.Subset.refl _) rfl rfl rfl
  · exact claiming_pure hv he

/-- **A push has all that was captured** and is not known to be on the server; what it claims is
stored. -/
theorem put_claimed {blob : Blob} (push : PushId) (hv : v.Sound H S)
    (he : e.Sound H S v) (hop : e.doc.oplog H ⊆ v.disk.stored)
    (hblob : e.doc.exportUpdatesSince H e.serverKnownVv = some blob) :
    (Vault.act S (.putInFlightPush ⟨push, blob, e.serverKnownVv, e.doc.oplogVv H⟩) v).1.Claimed :=
  by
  refine ⟨hv.claimed.known, ?_, ?_⟩
  · intro p hp
    rw [← Option.mem_some_iff.1 hp]
    exact oplogVv_ids.subset.trans hop
  · have hcov : v.captured ⊆ blob.held ∪ S.all := by
      have hpush := push_covered he.proven.known hblob
      rw [oplogVv_ids] at hpush
      exact (hv.covered.kept.trans (hv.closed.applied he.covered)).trans hpush
    show v.leftOut ∪ v.captured \ (blob.held ∪ S.all) = ∅
    rw [hv.claimed.leftOut, Finset.sdiff_eq_empty_iff_subset.2 hcov, Finset.empty_union]

theorem tryStartPush_claiming (mint : PushId) (hv : v.Sound H S) (he : e.Sound H S v)
    (hg : e.inFlight = none → Grounded H e v ∧ Mirrored e v) :
    Claiming S (fun _ e' => e'.Claimed H) (e.tryStartPush H mint) v := by
  unfold Engine.tryStartPush
  split
  · split
    · exact claiming_pure hv.claimed (claimed_of_eq he.claimed rfl rfl)
    · rename_i hnone
      obtain ⟨hground, hm⟩ := hg hnone
      refine Program.wp_bind.2 (Program.wp_mono (captured_claiming hv he hground) ?_)
      rintro v' ⟨e', r⟩ _ ⟨hv', he', _, hst⟩
      cases r with
      | error f => exact claiming_pure hv'.claimed (claimed_of_eq he'.claimed rfl rfl)
      | ok n =>
        dsimp only
        split
        · exact claiming_pure hv'.claimed he'.claimed
        · rename_i blob hblob
          have hput := put_claimed mint hv' he' (hst n rfl hm) hblob
          refine ⟨hv'.claimed, ?_, claiming_pure hput (claimed_of_eq he'.claimed rfl rfl)⟩
          exact claiming_pure hv'.claimed (claimed_of_eq he'.claimed rfl rfl)
  · exact claiming_pure hv.claimed he.claimed

theorem settle_claiming (complete : Bool) (mint : PushId) (hv : v.Sound H S)
    (he : e.Sound H S v)
    (hg : complete = true → e.state = .pulling → e.inFlight = none →
      Grounded H e v ∧ Mirrored e v) :
    Claiming S (fun _ e' => e'.Claimed H) (e.settle H complete mint) v := by
  unfold Engine.settle
  split
  · rename_i hst
    refine tryStartPush_claiming mint hv ⟨?_, ?_, ?_⟩ (hg hst.1 hst.2)
    · exact he.covered.of_eq rfl rfl rfl rfl rfl
    · exact proven_of_eq he.proven rfl rfl
    · exact claimed_of_eq he.claimed rfl rfl
  · exact claiming_pure hv.claimed he.claimed

theorem pushAcked_claiming {p : InFlightState} {seq : ℕ} (mint : PushId)
    (hp : e.inFlight = some p) (hrow : S.row seq = some p.payload.held) (hborn : v.born < seq)
    (hv : v.Sound H S) (he : e.Sound H S v) (hg : Grounded H e v) (hm : Mirrored e v) :
    Claiming S (fun _ e' => e'.Claimed H) (e.pushAcked H p seq mint) v := by
  obtain ⟨from_, hdisk⟩ := he.covered.push p hp
  have hvec : p.toVv.ids ⊆ v.disk.stored := hv.claimed.push _ hdisk
  have hknown : (e.unsent p).serverKnownVv.ids ⊆ v.disk.stored :=
    Finset.union_subset (he.known_stored hm) hvec
  have hland : (e.unsent p).serverKnownVv.ids ⊆ S.all := by
    have hpush := he.proven.push (p.payload, p.toVv) (by rw [hp]; rfl)
    rw [Finset.union_eq_right.2 (RowLog.row_subset hrow)] at hpush
    exact Finset.union_subset he.proven.known hpush
  have hacked (e₁ : Engine) (v' : Vault) (hcore : Core (e.unsent p) e₁)
      (hcov : (e₁.acked seq).Covered H S v') : (e₁.acked seq).Sound H S v' := by
    have hk : (e₁.acked seq).serverKnownVv = (e.unsent p).serverKnownVv := by
      refine (acked_core e₁ seq).known.trans ?_
      rcases ingestSeq_cases e₁ seq with ⟨_, heq⟩ | h
      · rw [heq]
        exact hcore.known
      · exact h.known.trans hcore.known
    have hin : (e₁.acked seq).inFlight = none := by
      refine (acked_core e₁ seq).inFlight.trans ?_
      rcases ingestSeq_cases e₁ seq with ⟨_, heq⟩ | h
      · rw [heq]
        exact hcore.inFlight
      · exact h.inFlight.trans hcore.inFlight
    refine ⟨hcov, ⟨?_, ?_⟩, ?_⟩
    · rw [hk]
      exact hland
    · rw [hin]
      exact fun q hq => absurd hq (by simp)
    · unfold Engine.Claimed
      rw [hk, acked_doc, hcore.doc]
      have hap : v.disk.stored ⊆ e.doc.oplog H := hv.closed.applied he.covered
      exact hknown.trans hap
  have hnext (e₁ : Engine) (v' : Vault) (hdoc : e₁.doc = e.doc)
      (hst : v'.disk.stored = v.disk.stored) :
      (e₁.acked seq).inFlight = none →
        Grounded H (e₁.acked seq) v' ∧ Mirrored (e₁.acked seq) v' := by
    intro _
    unfold Grounded Mirrored
    rw [acked_doc, hdoc, hst]
    exact ⟨hg, hm⟩
  have hdone : (Vault.act S (.completePush p.pushId (e.unsent p).serverKnownVv) v).1.Sound H S := by
    refine ⟨completePush_covered _ _ hv.covered, hv.closed, ⟨hland, ?_⟩, ⟨hknown, ?_,
      hv.claimed.leftOut⟩⟩
    · show ∀ q ∈ Option.map _ (v.disk.completePush _ _).inFlight, _
      unfold Disk.completePush
      dsimp only
      split
      · exact fun q hq => absurd hq (by simp)
      · exact hv.proven.push
    · show ∀ q ∈ (v.disk.completePush _ _).inFlight, _
      unfold Disk.completePush
      dsimp only
      split
      · exact fun q hq => absurd hq (by simp)
      · exact hv.claimed.push
  rw [pushAcked_eq]
  refine ⟨hv.claimed, tryStartPush_claiming mint hv (hacked _ v ?_ ?_) (hnext _ v rfl rfl),
    tryStartPush_claiming mint hdone (hacked _ _ ?_ ?_) (hnext _ _ rfl rfl)⟩
  · exact ⟨rfl, rfl, rfl, rfl, rfl, rfl⟩
  · exact acked_covered hp hrow hborn hv.covered he.covered rfl rfl rfl
      ⟨rfl, rfl, rfl, rfl, rfl, rfl⟩
  · exact .refl _
  · exact acked_covered hp hrow hborn hv.covered he.covered rfl rfl rfl (.refl _)

/-! ### Chains -/

/-- The engine after a frame of a chain has been merged. -/
theorem merged_claimed {doc : Doc} {vv : VersionVector} {blob : Blob}
    (hready : ∀ o ∈ blob.held, H.past o ⊆ e.doc.received ∪ blob.held)
    (hvv : e.doc.applyRemoteBatch [blob] = (doc, some vv)) (hops : blob.ops ≠ none)
    (he : e.Claimed H) :
    Engine.Claimed H { e with doc := doc, serverKnownVv := e.serverKnownVv.merge vv } := by
  have hrec : doc.received = e.doc.received ∪ blob.held := by
    have hread : ∀ b ∈ [blob], b.ops ≠ none := by simpa using hops
    have h := applyRemoteBatch_received (d := e.doc) hread
    rw [hvv] at h
    simpa [heldAll] using h
  have hgrow : e.doc.oplog H ⊆ doc.oplog H := by
    apply oplog_mono
    rw [hrec]
    exact Finset.subset_union_left
  have hap : blob.held ⊆ doc.oplog H := by
    intro o ho
    refine mem_oplog.2 ⟨?_, ?_⟩
    · rw [hrec]
      exact Finset.mem_union_right _ ho
    · rw [hrec]
      exact hready o ho
  have hrange : vv.ids ⊆ doc.oplog H := by
    refine applyRemoteBatch_range (H := H) (d := e.doc)
      (fun o ho => past_subset_oplog ho) ?_ (congrArg Prod.snd hvv)
    intro b hb
    rw [List.mem_singleton.1 hb]
    exact hap
  exact Finset.union_subset (he.trans hgrow) hrange

/-- **A frame of a chain**, and the checkpoint of a completed one where its two calls are performed
together. -/
theorem chain_claimed {upToSeq : ℕ} {blob : Blob} {complete : Bool} {outcomes : List Bool}
    {dies : Option ℕ} (hst : e.state = .bootstrapping)
    (hready : blob.ops ≠ none → ∀ o ∈ blob.held, H.past o ⊆ e.doc.received ∪ blob.held)
    (hok : blob.ops ≠ none → complete = true →
      outcomes.headD true = false ∨ (outcomes.tail.headD true = true ∧ ∀ n ∈ dies, n ≠ 1))
    (hv : v.Sound H S) (he : e.Sound H S v) :
    let p := e.snapshot H upToSeq blob complete
    (p.run (Vault.act S) outcomes v).1.Claimed ∧ (p.run (Vault.act S) outcomes v).2.Claimed H ∧
      ∀ n ∈ dies, (p.crash (Vault.act S) outcomes n v).Claimed := by
  intro p
  have hpure (e' : Engine) (hp : p = .pure e') (he' : e'.Claimed H) :
      (p.run (Vault.act S) outcomes v).1.Claimed ∧ (p.run (Vault.act S) outcomes v).2.Claimed H ∧
        ∀ n ∈ dies, (p.crash (Vault.act S) outcomes n v).Claimed := by
    rw [hp]
    refine ⟨hv.claimed, he', fun n _ => ?_⟩
    cases n <;> exact hv.claimed
  by_cases hops : blob.ops = none
  · refine hpure ({ e with doc := e.doc }.report .applySnapshot).goDisconnected ?_ ?_
    · show e.snapshot H upToSeq blob complete = _
      rw [Engine.snapshot, if_pos hst, applyRemoteBatch_stop hops]
    · exact claimed_of_eq he.claimed rfl rfl
  · obtain ⟨doc, vv, hvv⟩ : ∃ doc vv, e.doc.applyRemoteBatch [blob] = (doc, some vv) := by
      rw [applyRemoteBatch_cons hops]
      exact ⟨_, _, rfl⟩
    let e₁ : Engine := { e with doc := doc, serverKnownVv := e.serverKnownVv.merge vv }
    have he₁ : e₁.Claimed H :=
      merged_claimed (hready hops) hvv hops he.claimed
    have hgrows := (applyRemoteBatch_imports (d := e.doc) (A := heldAll [blob])
      fun b hb o ho => mem_heldAll.2 ⟨b, hb, ho⟩).grows
    rw [hvv] at hgrows
    have hap : v.disk.stored ⊆ doc.oplog H :=
      closed_subset_oplog hv.closed (he.covered.holds.trans hgrows)
    cases complete with
    | false =>
      refine hpure e₁ ?_ he₁
      show e.snapshot H upToSeq blob false = _
      rw [Engine.snapshot, if_pos hst, hvv]
      rfl
    | true =>
      -- Both calls: the vector, and the snapshot of the merged document.
      let v₁ : Vault := (Vault.act S (.writeServerKnownVv e₁.serverKnownVv) v).1
      have hdone : (v₁.folded H S e₁.lastLocalSeq doc).Claimed := by
        have hgrow : v.disk.stored ⊆ (v₁.folded H S e₁.lastLocalSeq doc).disk.stored :=
          hap.trans (oplog_subset_folded doc)
        refine ⟨?_, fun q hq => (hv.claimed.push q hq).trans hgrow, hv.claimed.leftOut⟩
        exact Finset.Subset.trans he₁ (oplog_subset_folded doc)
      have heq : p = .call (.writeServerKnownVv e₁.serverKnownVv) fun r =>
          if r.isSome then
            .call (.writeSnapshot e₁.lastLocalSeq (doc.snapshotBlob H)) fun r =>
              .pure (if r.isSome then e₁.checkpointed H upToSeq
                else (e₁.report (.storage .writeSnapshot)).goDisconnected)
          else .pure (e₁.report (.storage .writeServerKnownVv)).goDisconnected := by
        show e.snapshot H upToSeq blob true = _
        rw [Engine.snapshot, if_pos hst, hvv]
        show Program.call _ _ = Program.call _ _
        refine congrArg _ (funext fun r => ?_)
        cases r with
        | none => rfl
        | some row =>
          show Program.call _ _ = Program.call _ _
          refine congrArg _ (funext fun r => ?_)
          cases r <;> rfl
      rw [heq]
      cases hhead : outcomes.headD true with
      | false =>
        refine ⟨?_, ?_, fun n _ => ?_⟩
        · simp only [Program.run, hhead]
          exact hv.claimed
        · simp only [Program.run, hhead]
          exact claimed_of_eq he₁ rfl rfl
        · cases n with
          | zero => exact hv.claimed
          | succ n =>
            simp only [Program.crash, hhead]
            cases n <;> exact hv.claimed
      | true =>
        obtain ⟨hwrite, hdies⟩ := (hok hops rfl).resolve_left (by rw [hhead]; simp)
        refine ⟨?_, ?_, fun n hn => ?_⟩
        · simp only [Program.run, hhead, if_true, Option.isSome_some, hwrite]
          exact hdone
        · simp only [Program.run, hhead, if_true, Option.isSome_some, hwrite]
          have hmark : Engine.Claimed H
              { e₁ with
                doc := e₁.doc.markPersisted H,
                lastContiguousSeq := max e₁.lastContiguousSeq upToSeq } := he₁
          have hcore := checkpointed_core (H := H) e₁ upToSeq
          exact claimed_of_eq hmark hcore.doc hcore.known
        · cases n with
          | zero => exact hv.claimed
          | succ n =>
            cases n with
            | zero => exact absurd rfl (hdies 1 hn)
            | succ n =>
              simp only [Program.crash, hhead, if_true, Option.isSome_some, hwrite]
              cases n <;> exact hdone

/-! ### Rows -/

/-- **A batch that is appended whole** claims only what is stored then. -/
theorem batch_claimed {w : World} {l : HostStep} {us : List (StoredBlob Blob)} {complete : Bool}
    {mint : PushId} {dies : Option ℕ} (hin : e.incoming l.call = us)
    (hcomp : complete = true → e.state = .pulling → e.completes l.call = true)
    (hS : S.Ordered H.past) (ht : Truthful H S v.born e l.call)
    (hg : e.capturesOn l.call = true → Grounded H e w.vault)
    (hr : Ready H w.vault.disk.stored us l.outcomes) (hm : Mirrored e w.vault)
    (hall : (l.outcomes.take us.length).all id = true)
    (hdies : ∀ n ∈ dies, n = 0 ∨ us.length ≤ n) (hv : w.vault.Sound H S)
    (he : e.Sound H S w.vault) :
    let p := (Engine.appendRemoteRows (e.merged us).serverKnownVv us (e.merged us)).bind
      fun e' => (e'.counted us).settle H complete mint
    (p.run (Vault.act S) l.outcomes (w.entering e l)).1.Claimed ∧
      (p.run (Vault.act S) l.outcomes (w.entering e l)).2.Claimed H ∧
      ∀ n ∈ dies, (p.crash (Vault.act S) l.outcomes n (w.entering e l)).Claimed := by
  intro p
  obtain ⟨hv₀, _⟩ := entering_covered l hv.covered he.covered
  have hc₀ : (w.entering e l).Claimed := ⟨hv.claimed.known, hv.claimed.push, hv.claimed.leftOut⟩
  have hus : BatchTrue S us := hin ▸ incoming_true ht
  obtain ⟨hcore, hstate, hrowed, _, hst, hvv⟩ := appendRemoteRows_run (e := e.merged us)
    (e.merged us).serverKnownVv l.outcomes hv₀.rows hus
  have hrows := rows_after hin hS ht hv.covered he.covered
  have hclosed := rows_closed (e := e.merged us) (e.merged us).serverKnownVv hus hv₀.rows
    (v := w.entering e l) hv.closed hr
  have hknown := merged_known hS hus he.proven.known
  have hproves := Program.run_of_wp (appendRemoteRows_proves (e := e.merged us)
    (v := w.entering e l) us hknown hv.proven) l.outcomes
  have hcount := counted_core ((Engine.appendRemoteRows (e.merged us).serverKnownVv us
    (e.merged us)).run (Vault.act S) l.outcomes (w.entering e l)).2 us
  have hp₁ : p.run (Vault.act S) l.outcomes (w.entering e l) = _ := Program.run_bind _ _ _ _ _
  have hp₂ (n : ℕ) : p.crash (Vault.act S) l.outcomes n (w.entering e l) = _ :=
    Program.crash_bind _ _ _ _ _ _
  rw [hp₁]
  generalize hrun : (Engine.appendRemoteRows (e.merged us).serverKnownVv us (e.merged us)).run
    (Vault.act S) l.outcomes (w.entering e l) = r at *
  obtain ⟨v₁, e₁⟩ := r
  dsimp only at *
  rw [performed_all hall] at hst
  have hgrow : w.vault.disk.stored ⊆ v₁.disk.stored := by
    rw [hst]
    exact Finset.subset_union_left
  have hbatch : batchOps us ⊆ v₁.disk.stored := by
    rw [hst]
    exact Finset.subset_union_right
  have hdoc : e₁.doc = (e.doc.applyRemoteBatch (us.map StoredBlob.blob)).1 := hcore.doc
  -- The declared range of the batch lies below its operations, and all of them are stored.
  have hmerged : (e.merged us).serverKnownVv.ids ⊆ v₁.disk.stored := by
    refine Finset.union_subset ((he.known_stored hm).trans hgrow) ?_
    cases hrange : (e.doc.applyRemoteBatch (us.map StoredBlob.blob)).2 with
    | none => exact Finset.empty_subset _
    | some vv =>
      refine applyRemoteBatch_range hclosed (fun b hb => ?_) hrange
      rw [batchOps_eq] at hbatch
      exact fun o ho => hbatch (mem_heldAll.2 ⟨b, hb, ho⟩)
  have hc₁ : v₁.Claimed := by
    refine ⟨?_, ?_, hrowed.leftOut.trans hv.claimed.leftOut⟩
    · rcases hvv with hvv | hvv
      · rw [hvv]
        exact hv.claimed.known.trans hgrow
      · rw [hvv]
        exact hmerged
    · rw [hrowed.inFlight]
      exact fun q hq => (hv.claimed.push q hq).trans hgrow
  have hsv : v₁.Sound H S := ⟨hrows.1, hclosed, hproves.1, hc₁⟩
  have hse : (e₁.counted us).Sound H S v₁ := by
    refine ⟨hrows.2, proven_of_eq (hcore.proven ⟨hknown, he.proven.push⟩) hcount.2.1
      hcount.2.2.1, ?_⟩
    unfold Engine.Claimed
    rw [hcount.2.1, hcore.known]
    exact hmerged.trans (hclosed.applied hrows.2)
  have hwp := settle_claiming complete mint hsv hse (by
    intro hcompl hpull hnone
    rw [hcount.2.2.2.1, hstate] at hpull
    rw [hcount.2.2.1, hcore.inFlight] at hnone
    have hground := hg (pushesOn_of_completes (hcomp hcompl hpull) hnone)
    refine ⟨hground.imports hS he.covered (batchTrue_held hus) (hcount.1.trans hdoc) hgrow, ?_⟩
    intro o ho hlp
    rw [hcount.1, hdoc] at ho hlp
    have hread : Readable us := hin ▸ incoming_readable e l.call
    rw [applyRemoteBatch_received (by simpa [Readable] using hread), ← batchOps_eq] at ho
    rcases Finset.mem_union.1 ho with ho | ho
    · refine hgrow (hm o ho ?_)
      by_contra hno
      rcases Finset.mem_union.1
        (applyRemoteBatch_persisted hS.all (batchTrue_held hus) hlp) with hlp | hland
      · exact hno hlp
      · exact (he.covered.fresh o ho hno).1 hland
    · exact hbatch ho)
  obtain ⟨hrun₁, hrun₂⟩ := Program.run_of_wp hwp
    (l.outcomes.drop ((Engine.appendRemoteRows (e.merged us).serverKnownVv us
      (e.merged us)).calls (Vault.act S) l.outcomes (w.entering e l)))
  refine ⟨hrun₁, hrun₂, fun n hn => ?_⟩
  rw [hp₂]
  split
  · rename_i hlt
    rw [appendRemoteRows_calls] at hlt
    rcases hdies n hn with rfl | hle
    · rw [appendRemoteRows_crash]
      exact hc₀
    · omega
  · exact Program.crash_of_wp hwp _ _

end Claiming

/-! ## Calls -/

section Calls

variable {H} {S : RowLog OpId} {e e' : Engine} {v v' : Vault} {c : HostCall}

theorem mirrored_of_pushes (hp : e.pushesOn c = true →
    Mirrored e v ∧ Readable (e.offered c)) (hin : e.incoming c = [])
    (hc : e.completes c = true) (hnone : e.inFlight = none) :
    Mirrored e v ∧ e.offered c = [] := by
  have hpush : e.pushesOn c = true := by
    unfold Engine.pushesOn
    split
    · exact absurd hc (by simp [Engine.completes])
    · exact absurd hc (by simp [Engine.completes])
    · simp [hc, hnone]
  obtain ⟨hm, hread⟩ := hp hpush
  refine ⟨hm, ?_⟩
  rwa [Engine.incoming, if_pos hread] at hin

/-- The calls that append no rows and write no checkpoint. -/
theorem program_claiming (hin : e.incoming c = [])
    (hchain : ∀ upToSeq blob complete mint,
      c = .handleServerBytes (some (.snapshot upToSeq blob complete)) mint →
        e.state ≠ .bootstrapping)
    (hS : S.Ordered H.past) (ht : Truthful H S v.born e c)
    (hg : e.capturesOn c = true → Grounded H e v)
    (hp : e.pushesOn c = true → Mirrored e v ∧ Readable (e.offered c)) (hv : v.Sound H S)
    (he : e.Sound H S v) : Claiming S (fun _ e' => e'.Claimed H) (c.program H e) v := by
  have hdoes := program_does (H := H) c e
  generalize c.program H e = p at hdoes ⊢
  cases hdoes with
  | core hin' h => exact claiming_pure hv.claimed (claimed_of_eq he.claimed h.doc h.known)
  | commit o =>
    refine claiming_pure hv.claimed (Finset.Subset.trans he.claimed ?_)
    exact oplog_mono (Finset.subset_insert _ _)
  | capture =>
    refine Program.wp_map.2 (Program.wp_mono (captureLocalOps_claiming hv.claimed he.claimed) ?_)
    exact fun _ _ _ h => h.1
  | fold maxRows maxBytes =>
    exact fold_claiming (.inr ⟨maxRows, maxBytes, rfl⟩) hv he (hg rfl)
  | force => exact fold_claiming (.inl rfl) hv he (hg rfl)
  | notify seq => exact notifyOplogDurable_claiming seq hv.claimed he.claimed
  | flush mint hidle =>
    refine tryStartPush_claiming mint hv he fun hnone => ?_
    have hpush : e.pushesOn (.flush mint) = true := by
      simp [Engine.pushesOn, hidle, hnone]
    exact ⟨hg hpush, (hp hpush).1⟩
  | rows hin' hne hcomp => exact absurd (hin'.symm.trans hin) hne
  | unread hin' hcore hst hcomp =>
    have himp := he.covered.imports hS (offered_held ht)
    have hgrow := applyRemoteBatch_imports (d := e.doc) (offered_held ht)
    refine settle_claiming _ _ hv ⟨hcore.covered himp, ?_, ?_⟩ ?_
    · exact hcore.proven (proven_of_eq he.proven rfl rfl)
    · refine claimed_of_eq (e := e.imported (e.offered c)) ?_ hcore.doc hcore.known
      exact Finset.Subset.trans he.claimed (oplog_mono hgrow.grows)
    · intro hcompl hpull hnone
      rw [hcore.inFlight] at hnone
      have hdone := hcomp hcompl (hst ▸ hpull)
      obtain ⟨hm, hoff⟩ := mirrored_of_pushes hp hin hdone hnone
      refine ⟨(hg (pushesOn_of_completes hdone hnone)).imports hS he.covered (offered_held ht)
        hcore.doc (Finset.Subset.refl _), ?_⟩
      unfold Mirrored
      rw [hcore.doc, hoff]
      exact hm
  | @ack p a mint hinf hid hst =>
    obtain ⟨hrow, hborn⟩ := ht _ hinf _ (List.mem_singleton.2 rfl) hid
    have hpush : e.pushesOn (.handleServerBytes (some (.updatesAck [a])) mint) = true := by
      simp [Engine.pushesOn, Engine.ackFits, hst, hinf, hid]
    exact pushAcked_claiming _ hinf hrow hborn hv he (hg hpush) (hp hpush).1
  | chain hst => exact absurd hst (hchain _ _ _ _ rfl)

theorem entering_sound {w : World} (l : HostStep) (hv : w.vault.Sound H S)
    (he : e.Sound H S w.vault) :
    (w.entering e l).Sound H S ∧ e.Sound H S (w.entering e l) := by
  obtain ⟨hv₀, he₀⟩ := entering_covered l hv.covered he.covered
  have hcl : (w.entering e l).Claimed := hv.claimed.grow (Finset.Subset.refl _) rfl rfl rfl
  exact ⟨⟨hv₀, hv.closed, hv.proven, hcl⟩, ⟨he₀, he.proven, he.claimed⟩⟩

/-- **What a call leaves claims only what is stored**, and so does what is left when the device
dies in it. -/
theorem call_claimed {w : World} {l : HostStep} {dies : Option ℕ} (hS : S.Ordered H.past)
    (ht : Truthful H S w.vault.born e l.call) (hok : Checkpoints H w.vault e l dies)
    (hv : w.vault.Sound H S) (he : e.Sound H S w.vault) :
    ((l.call.program H e).run (Vault.act S) l.outcomes (w.entering e l)).1.Claimed ∧
      ((l.call.program H e).run (Vault.act S) l.outcomes (w.entering e l)).2.Claimed H ∧
      ∀ n ∈ dies,
        ((l.call.program H e).crash (Vault.act S) l.outcomes n (w.entering e l)).Claimed := by
  obtain ⟨hv₀, he₀⟩ := entering_sound l hv he
  rcases eq_or_ne (e.incoming l.call) [] with hin | hne
  · by_cases hchain : ∃ upToSeq blob complete mint,
        l.call = .handleServerBytes (some (.snapshot upToSeq blob complete)) mint ∧
          e.state = .bootstrapping
    · obtain ⟨upToSeq, blob, complete, mint, hcall, hst⟩ := hchain
      have hframe : l.call.program H e = e.snapshot H upToSeq blob complete := by
        rw [hcall]
        show e.handleServerBytes H mint (some (.snapshot upToSeq blob complete)) = _
        rw [Engine.handleServerBytes, if_neg (by simp [hst])]
        rfl
      rw [hframe]
      rw [hcall] at ht
      refine chain_claimed hst (fun hops => (ht hst hops).2.1) (fun hops hcompl => ?_) hv₀ he₀
      refine hok.chain ?_
      rw [hcall]
      simp [Engine.checkpoints, hst, hops, hcompl]
    · have hwp := program_claiming (v := w.entering e l) hin
        (fun upToSeq blob complete mint hcall hst =>
          hchain ⟨upToSeq, blob, complete, mint, hcall, hst⟩)
        hS ht hok.anchors.captures hok.pushes hv₀ he₀
      obtain ⟨hrun₁, hrun₂⟩ := Program.run_of_wp hwp l.outcomes
      exact ⟨hrun₁, hrun₂, fun n _ => Program.crash_of_wp hwp _ n⟩
  · obtain ⟨complete, mint, hcomp, heq⟩ := program_rows (H := H) hne
    obtain ⟨hm, hall, hdies⟩ := hok.rows hne
    rw [heq]
    exact batch_claimed rfl hcomp hS ht hok.anchors.captures hok.anchors.rows hm hall hdies hv he

end Calls

/-! ## Worlds -/

section Worlds

variable {H} {w w' : World} {l : WorldLabel}

/-- All that a world claims is stored and on the server. -/
structure World.Sound (H : History) (w : World) : Prop where
  kept : w.Kept H
  proven : w.Proven H
  claimed : w.vault.Claimed
  engine : ∀ e ∈ w.engine, e.Claimed H

theorem World.Sound.vault (hw : w.Sound H) : w.vault.Sound H w.stream :=
  ⟨hw.kept.covered.vault, hw.kept.closed, hw.proven.disk, hw.claimed⟩

theorem World.Sound.inMemory (hw : w.Sound H) {e : Engine} (he : w.engine = some e) :
    e.Sound H w.stream w.vault :=
  ⟨hw.kept.covered.engine e he, hw.proven.engine e he, hw.engine e he⟩

theorem anchored_of_checkpointed (h : Checkpointed H w l) : Anchored H w l := by
  cases l with
  | call hl => exact fun e he => (h e he).anchors
  | crash hl n => exact fun e he => (h e he).anchors
  | boot => trivial
  | land ops => trivial

theorem boot_claimed {e : Engine} (hw : w.Sound H) (hb : boot w.vault.disk = some e) :
    e.Claimed H := by
  obtain ⟨d, hd, hrec, _⟩ := bootDoc_some (H := H) hw.vault.covered.readable
  rw [boot, hd] at hb
  rw [← Option.some.inj hb]
  exact hw.claimed.known.trans (closed_subset_oplog hw.vault.closed hrec.superset)

theorem sound_step (hok : Checkpointed H w l) (hw : w.Sound H) (hs : w.step H l = some w') :
    w'.Sound H := by
  have hk' := kept_step (anchored_of_checkpointed hok) hw.kept hs
  have hp' := proven_step hw.proven hs
  have hS := hw.kept.covered.ordered
  obtain ⟨e, _, _, he, rfl⟩ | ⟨hl, e, rfl, he, ht, rfl⟩ | ⟨hl, n, e, rfl, he, ht, rfl⟩ |
    ⟨ops, _, hl, rfl⟩ := World.step_cases hs
  · refine ⟨hk', hp', hw.claimed.grow (Finset.Subset.refl _) rfl rfl rfl, fun e' he' => ?_⟩
    rw [← Option.mem_some_iff.1 he']
    exact boot_claimed hw he
  · obtain ⟨hv, heng, _⟩ := call_claimed hS ht (hok e he) hw.vault (hw.inMemory he)
    refine ⟨hk', hp', hv, fun e' he' => ?_⟩
    rw [← Option.mem_some_iff.1 he']
    exact heng
  · obtain ⟨_, _, hcrash⟩ := call_claimed hS ht (hok e he) hw.vault (hw.inMemory he)
    exact ⟨hk', hp', hcrash n rfl, fun e' he' => absurd he' (by simp)⟩
  · exact ⟨hk', hp', hw.claimed, hw.engine⟩

theorem fresh_proven (h : w.Fresh) : w.Proven H := by
  rw [h]
  refine ⟨.nil, ⟨Finset.empty_subset _, ?_⟩, fun e he => absurd he (by simp)⟩
  exact fun p hp => absurd hp (by simp [Vault.fresh, Disk.empty])

theorem sound_of_reach (hr : (living H).Reach (Checkpointed H) w) : w.Sound H := by
  apply hr.invariant
  · intro w hw
    have hk : w.Kept H := kept_of_reach (.init hw)
    refine ⟨hk, fresh_proven hw, ?_, ?_⟩
    · rw [hw]
      exact ⟨Finset.empty_subset _, fun p hp => absurd hp (by simp [Vault.fresh, Disk.empty]), rfl⟩
    · rw [hw]
      exact fun e he => absurd he (by simp)
  · exact fun _ _ _ _ hw hok hs => sound_step hok hw hs

/-- **Interrupted bootstraps are safe.**  In every run whose steps checkpoint what they claim, at
every state and every crash: the persisted vector claims only what is stored; storage boots to a
document with every captured operation applied, as has the running engine; every push that was
ever put has every captured operation that was not on the server; and what is known to be on the
server, in memory or in storage, is there. -/
theorem bootstraps_safe (hr : (living H).Reach (Checkpointed H) w) :
    w.vault.disk.serverKnownVv.ids ⊆ w.vault.disk.stored ∧
    (∃ d, bootDoc w.vault.disk = some d ∧ w.vault.captured ⊆ d.oplog H) ∧
    (∀ e ∈ w.engine, w.vault.captured ⊆ e.doc.oplog H) ∧
    w.vault.leftOut = ∅ ∧
    w.vault.disk.serverKnownVv.ids ⊆ w.stream.all ∧
    ∀ e ∈ w.engine, e.serverKnownVv.ids ⊆ w.stream.all := by
  have hw := sound_of_reach hr
  obtain ⟨d, hd, _, hcap, _⟩ := boot_restores (hr.mono fun _ _ h => anchored_of_checkpointed h)
  refine ⟨hw.claimed.known, ⟨d, hd, hcap⟩, fun e he => ?_, hw.claimed.leftOut,
    hw.proven.disk.known, fun e he => (hw.proven.engine e he).known⟩
  exact hw.vault.covered.kept.trans (hw.vault.closed.applied (hw.inMemory he).covered)

end Worlds

/-! ## A chain that is cut -/

section Tests

variable {H}

/-- The test of `Checkpoints` a run is checked with. -/
def checkpointsb (H : History) (v : Vault) (e : Engine) (l : HostStep) (dies : Option ℕ) : Bool :=
  anchorsb H v e l &&
    (decide (e.incoming l.call = []) ||
      (decide (Mirrored e v) &&
        ((l.outcomes.take (e.incoming l.call).length).all id &&
          dies.all fun n => decide (n = 0 ∨ (e.incoming l.call).length ≤ n)))) &&
    (!e.pushesOn l.call || (decide (Mirrored e v) && decide (Readable (e.offered l.call)))) &&
    (!e.checkpoints l.call || (l.outcomes.tail.headD true && dies.all fun n => decide (n ≠ 1)))

/-- The test of `Checkpointed`. -/
def checkpointedb (H : History) (w : World) : WorldLabel → Bool
  | .call l => w.engine.all fun e => checkpointsb H w.vault e l none
  | .crash l n => w.engine.all fun e => checkpointsb H w.vault e l (some n)
  | _ => true

theorem checkpointsb_sound {v : Vault} {e : Engine} {l : HostStep} {dies : Option ℕ}
    (hb : checkpointsb H v e l dies = true) : Checkpoints H v e l dies := by
  simp only [checkpointsb, Bool.and_eq_true, Bool.or_eq_true, Bool.not_eq_true',
    decide_eq_true_eq] at hb
  obtain ⟨⟨⟨hanch, hrows⟩, hpush⟩, hchain⟩ := hb
  refine ⟨anchorsb_sound hanch, fun hne => ?_, fun hp => ?_, fun hc => ?_⟩
  · obtain ⟨hm, hall, hdies⟩ := hrows.resolve_left hne
    refine ⟨hm, hall, fun n hn => ?_⟩
    have hn' : dies = some n := hn
    rw [hn', Option.all_some] at hdies
    exact of_decide_eq_true hdies
  · exact hpush.resolve_left (by rw [hp]; simp)
  · obtain ⟨hwrite, hdies⟩ := hchain.resolve_left (by rw [hc]; simp)
    refine .inr ⟨hwrite, fun n hn => ?_⟩
    have hn' : dies = some n := hn
    rw [hn', Option.all_some] at hdies
    exact of_decide_eq_true hdies

theorem checkpointedb_sound (w : World) (l : WorldLabel) (hb : checkpointedb H w l = true) :
    Checkpointed H w l := by
  cases l with
  | boot => trivial
  | land ops => trivial
  | call hl =>
    intro e he
    have he' : w.engine = some e := he
    simp only [checkpointedb, he', Option.all_some] at hb
    exact checkpointsb_sound hb
  | crash hl n =>
    intro e he
    have he' : w.engine = some e := he
    simp only [checkpointedb, he', Option.all_some] at hb
    exact checkpointsb_sound hb

end Tests

/-- A chain is cut after its first frame; the device reconnects, and bootstraps again to the end. -/
def chainRestarted : List WorldLabel :=
  chainBegun ++ [.call ⟨.handleDisconnected, []⟩, .call ⟨.handleConnected, []⟩,
    .call ⟨.handleServerBytes (some (.docOpened 1)) 0, []⟩,
    .call ⟨.handleServerBytes (some (.snapshotRequired 1)) 0, []⟩,
    .call ⟨.handleServerBytes (some (.snapshot 1 firstBlob false)) 0, []⟩,
    .call ⟨.handleServerBytes (some (.snapshot 1 firstBlob true)) 0, []⟩,
    .call ⟨.commit ownOp, []⟩,
    .call ⟨.handleServerBytes (some (.updatesBatch [] true)) 7, []⟩, .crash ⟨.popEvent, []⟩ 0]

theorem bootstraps_safe_chainRestarted :
    ∃ w, (living History.onFirst).Reach (Checkpointed History.onFirst) w ∧
      w.vault.disk.serverKnownVv.ids = {firstOp} ∧ w.vault.captured = {firstOp, ownOp} ∧
      (w.vault.disk.serverKnownVv.ids ⊆ w.vault.disk.stored ∧
        (∃ d, bootDoc w.vault.disk = some d ∧ w.vault.captured ⊆ d.oplog History.onFirst) ∧
        (∀ e ∈ w.engine, w.vault.captured ⊆ e.doc.oplog History.onFirst) ∧
        w.vault.leftOut = ∅ ∧ w.vault.disk.serverKnownVv.ids ⊆ w.stream.all ∧
        ∀ e ∈ w.engine, e.serverKnownVv.ids ⊆ w.stream.all) := by
  have hrun : ((living History.onFirst).exec newWorld chainRestarted).map
      (fun w => (w.vault.disk.serverKnownVv.ids, w.vault.captured)) =
        some ({firstOp}, {firstOp, ownOp}) := by
    decide
  have hok : (living History.onFirst).allStepsb (checkpointedb History.onFirst) newWorld
      chainRestarted = true := by
    decide
  obtain ⟨w, hs, hend⟩ := Option.map_eq_some_iff.1 hrun
  simp only [Prod.mk.injEq] at hend
  have hreach : (living History.onFirst).Reach (Checkpointed History.onFirst) w :=
    Machine.Reach.exec (.init rfl) (Machine.allSteps_of_allStepsb checkpointedb_sound hok) hs
  exact ⟨w, hreach, hend.1, hend.2, bootstraps_safe hreach⟩

/-- A second row of the stream, of another peer. -/
def otherOp : OpId := ⟨3, 0⟩

/-- A chain is cut after its first frame; the device reconnects, and a broadcast comes in. -/
def broadcastAfterCut : List WorldLabel :=
  chainBegun ++ [.land {otherOp}, .call ⟨.handleDisconnected, []⟩, .call ⟨.handleConnected, []⟩,
    .call ⟨.handleServerBytes (some (.docOpened 1)) 0, []⟩,
    .call ⟨.handleServerBytes
      (some (.updatesBroadcast [⟨2, ⟨some (.updates {otherOp}), 0⟩⟩])) 0, []⟩]

/-- **The persisted vector can be ahead of storage.**  The append of the broadcast writes the
vector in memory, which has the frame of the cut chain in it. -/
theorem claimed_ahead :
    ∃ w, (living History.byPeer).Reachable w ∧ firstOp ∈ w.vault.disk.serverKnownVv.ids ∧
      firstOp ∉ w.vault.disk.stored := by
  have hrun : ((living History.byPeer).exec newWorld broadcastAfterCut).map
      (fun w => (decide (firstOp ∈ w.vault.disk.serverKnownVv.ids),
        decide (firstOp ∈ w.vault.disk.stored))) = some (true, false) := by
    decide
  obtain ⟨w, hs, hend⟩ := Option.map_eq_some_iff.1 hrun
  simp only [Prod.mk.injEq, decide_eq_true_eq, decide_eq_false_iff_not] at hend
  exact ⟨w, Machine.reach_of_exec rfl hs, hend⟩

/-- A commit on top of a frame of a chain, a crash, and a fold by the next session. -/
def foldedPending : List WorldLabel :=
  capturedAmid ++ [.boot, .call ⟨.forceSnapshot, []⟩]

/-- **A captured commit can be lost.**  It is pending in the document the next session boots, so
the fold leaves it out and prunes its row. -/
theorem captured_lost :
    ∃ w, (living History.onFirst).Reachable w ∧ ownOp ∈ w.vault.captured ∧
      ownOp ∉ w.vault.disk.stored := by
  have hrun : ((living History.onFirst).exec newWorld foldedPending).map
      (fun w => (decide (ownOp ∈ w.vault.captured), decide (ownOp ∈ w.vault.disk.stored))) =
        some (true, false) := by
    decide
  obtain ⟨w, hs, hend⟩ := Option.map_eq_some_iff.1 hrun
  simp only [Prod.mk.injEq, decide_eq_true_eq, decide_eq_false_iff_not] at hend
  exact ⟨w, Machine.reach_of_exec rfl hs, hend⟩

end Monoplan.Client
