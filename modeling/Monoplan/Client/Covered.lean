import Monoplan.Client.Proven

/-!
# What storage covers

The cursor a host persists tells the next boot from where to pull.  It may cover a row of the
stream only if the operations of the row are in storage.

* `Vault.Covered`, `Engine.Covered`: storage holds all that was captured and every row below the
  persisted cursor, and the engine's own cursor is covered up to the first append that failed.
* `call_covered`, `crash_covered`: every call keeps that, and so does dying in it, as long as the
  durable cursor does not pass a failed append and no captured operation is pending when a
  snapshot replaces the WAL (`CursorSafe`).
-/

namespace Monoplan.Client

open Monoplan.Base Monoplan.Protocol

/-- What a device has captured, and what the stream has. -/
def Vault.origins (S : RowLog OpId) (v : Vault) : Finset OpId := v.captured ∪ S.all

/-- Up to where the rows of the stream were all appended. -/
def Engine.solid (e : Engine) (v : Vault) : ℕ := v.lost.getD e.lastContiguousSeq

variable (H : History)

/-- Storage covers its cursor and holds what was captured. -/
structure Vault.Covered (S : RowLog OpId) (v : Vault) : Prop where
  readable : ∀ b ∈ v.disk.blobs, b.ops ≠ none
  rows : RowsTrue S v.disk
  origin : v.disk.stored ⊆ v.origins S
  closed : RowLog.Closed H.past (v.origins S)
  kept : v.captured ⊆ v.disk.stored
  cursor : S.Covers v.disk.lastAckedServerSeq v.disk.stored
  push : ∀ p ∈ v.disk.inFlight, p.payload.held ⊆ v.captured ∪ S.upTo v.born

/-- The engine has what storage has, and storage covers its cursors. -/
structure Engine.Covered (S : RowLog OpId) (e : Engine) (v : Vault) : Prop where
  holds : v.disk.stored ⊆ e.doc.received
  persisted : e.doc.lastPersistedVv.ids ⊆ v.origins S
  fresh : ∀ o ∈ e.doc.received, o ∉ e.doc.lastPersistedVv.ids →
    o ∉ S.all ∧ H.past o ⊆ e.doc.received
  seen : S.Covers e.lastContiguousSeq e.doc.received
  cursor : S.Covers (e.solid v) v.disk.stored
  durable : S.Covers e.lastDurableSeq v.disk.stored
  acks : ∀ n ∈ e.queuedAcks, S.Covers n v.disk.stored
  push : ∀ p ∈ e.inFlight, ∃ from_,
    v.disk.inFlight = some ⟨p.pushId, p.payload, from_, p.toVv⟩

/-- A program that keeps storage covered on the way. -/
abbrev Covering {α : Type} (S : RowLog OpId) (Q : Vault → α → Prop) (p : Run α) (v : Vault) :
    Prop :=
  p.wp (Vault.act S) (Vault.Covered H S) Q v

section Primitives

variable {H} {S : RowLog OpId} {e e' : Engine} {v v' : Vault} {o : OpId}

/-- An operation of the document that does not count as persisted is applied. -/
theorem Engine.Covered.uncaptured (he : e.Covered H S v) (ho : o ∈ e.doc.received)
    (hno : o ∉ e.doc.lastPersistedVv.ids) : o ∈ e.doc.oplog H :=
  mem_oplog.2 ⟨ho, (he.fresh o ho hno).2⟩

theorem Engine.Covered.of_eq (he : e.Covered H S v) (hdoc : e'.doc = e.doc)
    (hin : e'.inFlight = e.inFlight) (hc : e'.lastContiguousSeq = e.lastContiguousSeq)
    (hd : e'.lastDurableSeq = e.lastDurableSeq) (hq : e'.queuedAcks = e.queuedAcks) :
    e'.Covered H S v := by
  obtain ⟨hholds, hper, hfresh, hseen, hcur, hdur, hacks, hpush⟩ := he
  refine ⟨?_, ?_, ?_, ?_, ?_, ?_, ?_, ?_⟩
  · rwa [hdoc]
  · rwa [hdoc]
  · rwa [hdoc]
  · rwa [hdoc, hc]
  · rwa [Engine.solid, hc]
  · rwa [hd]
  · rwa [hq]
  · rwa [hin]

theorem Core.covered (h : Core e e') (he : e.Covered H S v) : e'.Covered H S v :=
  he.of_eq h.doc h.inFlight h.contiguous h.durable h.queued

/-- Storage has grown, within what the document has. -/
theorem Engine.Covered.grow (he : e.Covered H S v) (hst : v.disk.stored ⊆ v'.disk.stored)
    (hin : v'.disk.stored ⊆ e.doc.received) (hcap : v.captured ⊆ v'.captured)
    (hlost : v'.lost = v.lost) (hpush : v'.disk.inFlight = v.disk.inFlight) :
    e.Covered H S v' := by
  refine ⟨hin, he.persisted.trans (Finset.union_subset_union_left hcap), he.fresh, he.seen, ?_,
    he.durable.mono hst, fun n hn => (he.acks n hn).mono hst, ?_⟩
  · rw [Engine.solid, hlost]
    exact he.cursor.mono hst
  · rw [hpush]
    exact he.push

/-- The document is marked as persisted. -/
theorem Engine.Covered.mark (he : e.Covered H S v) (hop : e.doc.oplog H ⊆ v.origins S) :
    Engine.Covered H S { e with doc := e.doc.markPersistedAt (e.doc.oplogVv H) } v := by
  refine ⟨he.holds, ?_, fun o ho hno => he.fresh o ho fun hlp => hno ?_, he.seen, he.cursor,
    he.durable, he.acks, he.push⟩
  · refine Finset.union_subset he.persisted ?_
    rw [oplogVv_ids]
    exact hop
  · exact Finset.mem_union_left _ hlp

/-! ### Capturing -/

/-- The payload of a captured row: what the document has and does not count as persisted. -/
theorem pendingExport_some {d : Doc} {blob : Blob} (h : d.pendingExport H = some blob) :
    blob.ops ≠ none ∧ blob.held = d.oplog H \ d.lastPersistedVv.ids := by
  unfold Doc.pendingExport at h
  split at h
  · rw [← Option.some.inj h]
    exact ⟨by simp, rfl⟩
  · exact absurd h (by simp)

theorem pendingExport_none {d : Doc} (h : d.pendingExport H = none) :
    d.oplog H ⊆ d.lastPersistedVv.ids := by
  unfold Doc.pendingExport at h
  split at h
  · exact absurd h (by simp)
  · rename_i hno
    simp only [Doc.hasUncapturedOps, ne_eq, decide_not, Bool.not_eq_true', decide_eq_false_iff_not,
      not_not] at hno
    rw [← hno, oplogVv_ids]

variable {blob : Blob}

/-- The vault after a row of the engine's own commits. -/
def Vault.localRow (S : RowLog OpId) (v : Vault) (blob : Blob) : Vault :=
  (Vault.act S (.appendLocalWal blob) v).1

theorem localRow_stored (S : RowLog OpId) (v : Vault) (blob : Blob) :
    (v.localRow S blob).disk.stored = v.disk.stored ∪ blob.held :=
  stored_append _ _ _

theorem localRow_covered (hv : v.Covered H S) (he : e.Covered H S v)
    (hb : e.doc.pendingExport H = some blob) :
    (v.localRow S blob).Covered H S ∧ e.Covered H S (v.localRow S blob) ∧
      e.doc.oplog H ⊆ (v.localRow S blob).origins S := by
  obtain ⟨hops, hheld⟩ := pendingExport_some hb
  have hrec : blob.held ⊆ e.doc.received := by
    rw [hheld]
    exact Finset.sdiff_subset.trans oplog_subset
  have horig : v.origins S ⊆ (v.localRow S blob).origins S :=
    Finset.union_subset_union_left Finset.subset_union_left
  have hnew : blob.held ⊆ (v.localRow S blob).origins S :=
    Finset.subset_union_right.trans Finset.subset_union_left
  have hop : e.doc.oplog H ⊆ (v.localRow S blob).origins S := by
    intro o ho
    by_cases hlp : o ∈ e.doc.lastPersistedVv.ids
    · exact horig (he.persisted hlp)
    · apply hnew
      rw [hheld]
      exact Finset.mem_sdiff.2 ⟨ho, hlp⟩
  refine ⟨⟨?_, ?_, ?_, ?_, ?_, ?_, ?_⟩, ?_, hop⟩
  · intro b hmem
    have hmem' : b ∈ (v.disk.snapshot.map SnapshotRow.payload).toList ++
        (v.disk.wal ++ [WalRow.mk (v.disk.nextLocalSeq + 1) none blob]).map WalRow.payload := hmem
    rw [List.map_append, ← List.append_assoc] at hmem'
    rcases List.mem_append.1 hmem' with hmem' | hmem'
    · exact hv.readable b hmem'
    · rw [List.mem_singleton.1 hmem']
      exact hops
  · intro r hr n hn
    rcases List.mem_append.1 hr with hr | hr
    · exact hv.rows r hr n hn
    · rw [List.mem_singleton.1 hr] at hn
      exact absurd hn (by simp)
  · rw [localRow_stored]
    exact Finset.union_subset (hv.origin.trans horig) hnew
  · intro o ho
    by_cases hin : o ∈ v.origins S
    · exact (hv.closed o hin).trans horig
    · have hmem : o ∈ blob.held := by
        rcases Finset.mem_union.1 ho with ho | ho
        · rcases Finset.mem_union.1 ho with ho | ho
          · exact absurd (Finset.mem_union_left _ ho) hin
          · exact ho
        · exact absurd (Finset.mem_union_right _ ho) hin
      rw [hheld, Finset.mem_sdiff] at hmem
      exact (past_subset_oplog hmem.1).trans hop
  · rw [localRow_stored]
    exact Finset.union_subset_union_left hv.kept
  · rw [localRow_stored]
    exact hv.cursor.mono Finset.subset_union_left
  · intro p hp
    exact (hv.push p hp).trans (Finset.union_subset_union_left Finset.subset_union_left)
  · refine he.grow ?_ ?_ Finset.subset_union_left rfl rfl
    · rw [localRow_stored]
      exact Finset.subset_union_left
    · rw [localRow_stored]
      exact Finset.union_subset he.holds hrec

/-! ### Folding -/

/-- The vault after the WAL is folded. -/
def Vault.folded (H : History) (S : RowLog OpId) (v : Vault) (cutoff : ℕ) (d : Doc) : Vault :=
  (Vault.act S (.writeSnapshot cutoff (d.snapshotBlob H)) v).1

variable {cutoff : ℕ}

theorem oplog_subset_folded (d : Doc) :
    d.oplog H ⊆ (v.folded H S cutoff d).disk.stored :=
  Finset.subset_union_left

theorem folded_subset (d : Doc) :
    (v.folded H S cutoff d).disk.stored ⊆ d.oplog H ∪ v.disk.stored := by
  refine Finset.union_subset_union_right ?_
  exact (walOps_mono (List.filter_subset_self _)).trans Finset.subset_union_right

/-- What is covered stays covered: the rows of the stream are closed, so they are applied. -/
theorem covers_folded (hS : S.Ordered H.past) {d : Doc} {n : ℕ}
    (h : S.Covers n d.received) : S.Covers n (v.folded H S cutoff d).disk.stored :=
  ⟨h.length, (closed_subset_oplog (hS n) h.held).trans (oplog_subset_folded d)⟩

theorem folded_covered (cutoff : ℕ) (hS : S.Ordered H.past) (hv : v.Covered H S)
    (he : e.Covered H S v) (hcap : v.captured ⊆ e.doc.oplog H) :
    (v.folded H S cutoff e.doc).Covered H S ∧ e.Covered H S (v.folded H S cutoff e.doc) ∧
      e.doc.oplog H ⊆ (v.folded H S cutoff e.doc).origins S := by
  have horig : v.origins S ⊆ (v.folded H S cutoff e.doc).origins S :=
    Finset.union_subset_union_left Finset.subset_union_left
  have hop : e.doc.oplog H ⊆ (v.folded H S cutoff e.doc).origins S :=
    Finset.subset_union_right.trans Finset.subset_union_left
  have hsub : (v.folded H S cutoff e.doc).disk.stored ⊆ e.doc.received :=
    (folded_subset e.doc).trans (Finset.union_subset oplog_subset he.holds)
  refine ⟨⟨?_, ?_, ?_, ?_, ?_, ?_, ?_⟩, ⟨hsub, he.persisted.trans horig, he.fresh, he.seen, ?_, ?_,
    ?_, he.push⟩, hop⟩
  · intro b hb
    rcases List.mem_append.1 hb with hb | hb
    · have heq : b = e.doc.snapshotBlob H := List.mem_singleton.1 hb
      rw [heq]
      exact fun hno => absurd hno (by simp [Doc.snapshotBlob])
    · obtain ⟨r, hr, rfl⟩ := List.mem_map.1 hb
      refine hv.readable _ (List.mem_append_right _ (List.mem_map_of_mem ?_))
      exact (List.mem_filter.1 hr).1
  · exact fun r hr n hn => hv.rows r (List.mem_filter.1 hr).1 n hn
  · exact (folded_subset e.doc).trans (Finset.union_subset hop (hv.origin.trans horig))
  · intro o ho
    by_cases hin : o ∈ v.origins S
    · exact (hv.closed o hin).trans horig
    · have hmem : o ∈ e.doc.oplog H := by
        rcases Finset.mem_union.1 ho with ho | ho
        · rcases Finset.mem_union.1 ho with ho | ho
          · exact absurd (Finset.mem_union_left _ ho) hin
          · exact ho
        · exact absurd (Finset.mem_union_right _ ho) hin
      exact (past_subset_oplog hmem).trans hop
  · exact (Finset.union_subset hcap (Finset.Subset.refl _)).trans (oplog_subset_folded e.doc)
  · exact covers_folded hS (hv.cursor.mono he.holds)
  · intro p hp
    exact (hv.push p hp).trans (Finset.union_subset_union_left Finset.subset_union_left)
  · exact covers_folded hS he.seen
  · exact covers_folded hS (he.durable.mono he.holds)
  · exact fun n hn => covers_folded hS ((he.acks n hn).mono he.holds)

/-! ### Importing -/

theorem Engine.Covered.imports (hS : S.Ordered H.past) (he : e.Covered H S v) {bs : List Blob}
    (hbs : ∀ b ∈ bs, b.held ⊆ S.all) :
    Engine.Covered H S { e with doc := (e.doc.applyRemoteBatch bs).1 } v := by
  obtain ⟨hgrows, hwithin, hkeeps, hcounted⟩ := applyRemoteBatch_imports (d := e.doc) hbs
  refine ⟨he.holds.trans hgrows, ?_, ?_, he.seen.mono hgrows, he.cursor, he.durable, he.acks,
    he.push⟩
  · refine (applyRemoteBatch_persisted hS.all hbs).trans (Finset.union_subset he.persisted ?_)
    exact Finset.subset_union_right
  · intro o ho hno
    have hold : o ∈ e.doc.received :=
      (Finset.mem_union.1 (hcounted ho)).resolve_right hno
    obtain ⟨hall, hpast⟩ := he.fresh o hold fun hlp => hno (hkeeps hlp)
    exact ⟨hall, hpast.trans hgrows⟩

/-- What the cursor counts has to be in the document and, below a failed append, in storage. -/
theorem Engine.Covered.ingest (he : e.Covered H S v) {n : ℕ} {ops : Finset OpId}
    (hrow : S.row n = some ops) (hin : n = e.lastContiguousSeq + 1 → ops ⊆ e.doc.received)
    (hst : n = e.lastContiguousSeq + 1 → v.lost = none → ops ⊆ v.disk.stored) :
    (e.ingestSeq n).Covered H S v := by
  rcases ingestSeq_cases e n with ⟨hn, heq⟩ | h
  · have hrow' : S.row (e.lastContiguousSeq + 1) = some ops := hn ▸ hrow
    rw [heq]
    refine ⟨he.holds, he.persisted, he.fresh, ?_, ?_, he.durable, he.acks, he.push⟩
    · show S.Covers n _
      rw [hn]
      exact he.seen.succ hrow' (hin hn)
    · have hcur := he.cursor
      unfold Engine.solid at hcur ⊢
      cases hlost : v.lost with
      | none =>
        rw [hlost] at hcur
        show S.Covers n _
        rw [hn]
        exact RowLog.Covers.succ hcur hrow' (hst hn hlost)
      | some m =>
        rw [hlost] at hcur
        exact hcur
  · exact h.covered he

theorem Engine.Covered.counted (he : e.Covered H S v) {us : List (StoredBlob Blob)}
    (hus : BatchTrue S us) (hin : batchOps us ⊆ e.doc.received)
    (hst : v.lost = none → batchOps us ⊆ v.disk.stored) : (e.counted us).Covered H S v := by
  have hns (ms : List (StoredBlob Blob)) (hms : ms ⊆ us) (e' : Engine)
      (he' : e'.Covered H S v) (hdoc : e'.doc = e.doc) :
      (e'.ingestSeqs (ms.map StoredBlob.seq)).Covered H S v := by
    induction ms generalizing e' with
    | nil => exact he'
    | cons u ms ih =>
      have hu := hms (List.mem_cons_self ..)
      have hheld : u.blob.held ⊆ batchOps us := fun o ho => mem_batchOps.2 ⟨u, hu, ho⟩
      refine ih (List.subset_of_cons_subset hms) _ (he'.ingest (hus u hu) ?_ ?_) ?_
      · rw [hdoc]
        exact fun _ => hheld.trans hin
      · exact fun _ hlost => hheld.trans (hst hlost)
      · rcases ingestSeq_cases e' u.seq with ⟨_, heq⟩ | h
        · rw [heq]
          exact hdoc
        · exact h.doc.trans hdoc
  exact (Core.emitFrontier _ _).covered (hns us (List.Subset.refl _) e he rfl)

end Primitives

/-! ## Methods -/

section Methods

variable {H} {S : RowLog OpId} {e e' : Engine} {v v' : Vault}

theorem covering_pure {α : Type} {Q : Vault → α → Prop} {a : α} (hv : v.Covered H S)
    (h : Q v a) : Covering H S Q (.pure a) v :=
  ⟨hv, h⟩

theorem covering_bind {α γ : Type} {Q : Vault → γ → Prop} {R : Vault → α → Prop} {p : Run α}
    {f : α → Run γ} (h : Covering H S R p v)
    (hf : ∀ a v', v'.Covered H S → R v' a → Covering H S Q (f a) v') :
    Covering H S Q (p.bind f) v :=
  Program.wp_bind.2 (Program.wp_mono h fun t a hi hr => hf a t hi hr)

theorem covering_map {α γ : Type} {Q : Vault → γ → Prop} {R : Vault → α → Prop} {p : Run α}
    {f : α → γ} (h : Covering H S R p v) (hf : ∀ a v', R v' a → Q v' (f a)) :
    Covering H S Q (p.map f) v :=
  Program.wp_map.2 (Program.wp_mono h fun t a _ hr => hf a t hr)

/-- The engine as a method found it, or with its commits captured. -/
structure Captured (H : History) (S : RowLog OpId) (e : Engine) (v : Vault) (e' : Engine)
    (v' : Vault) : Prop where
  covered : e'.Covered H S v'
  received : e'.doc.received = e.doc.received
  known : e'.serverKnownVv = e.serverKnownVv
  inFlight : e'.inFlight = e.inFlight
  state : e'.state = e.state
  captured : v'.captured ⊆ v.captured ∪ e.doc.oplog H

/-- **Capturing.** -/
theorem captureLocalOps_covering (hv : v.Covered H S) (he : e.Covered H S v) :
    Covering H S (fun v' r => Captured H S e v r.1 v' ∧
        (∀ n, r.2 = .ok n → r.1.doc.oplog H ⊆ r.1.doc.lastPersistedVv.ids))
      (e.captureLocalOps H) v := by
  have hsame : Captured H S e v e v :=
    ⟨he, rfl, rfl, rfl, rfl, Finset.subset_union_left⟩
  unfold Engine.captureLocalOps
  split
  · rename_i hnone
    exact covering_pure hv ⟨hsame, fun _ _ => pendingExport_none hnone⟩
  · rename_i blob hblob
    obtain ⟨hv', he', hop⟩ := localRow_covered hv he hblob
    refine ⟨hv, covering_pure hv ⟨hsame, fun n hn => absurd hn (by simp)⟩, ?_⟩
    refine covering_pure hv' ⟨⟨?_, rfl, rfl, rfl, rfl, ?_⟩, fun n _ => ?_⟩
    · have hcore : Core { e with doc := e.doc.markPersistedAt (e.doc.oplogVv H) }
          { e with
            lastLocalSeq := (Vault.act S (.appendLocalWal blob) v).2.localSeq,
            walRows := e.walRows + 1, walBytes := e.walBytes + blob.len,
            doc := e.doc.markPersistedAt (e.doc.oplogVv H) } := ⟨rfl, rfl, rfl, rfl, rfl, rfl⟩
      exact hcore.covered (he'.mark hop)
    · refine Finset.union_subset_union_right ?_
      rw [(pendingExport_some hblob).2]
      exact Finset.sdiff_subset
    · show e.doc.oplog H ⊆ _ ∪ _
      rw [oplogVv_ids]
      exact Finset.subset_union_right

theorem writeLocalSnapshot_covering (hS : S.Ordered H.past) (hv : v.Covered H S)
    (he : e.Covered H S v) (hcap : v.captured ⊆ e.doc.oplog H) :
    Covering H S (fun v' r => r.1.Covered H S v') (e.writeLocalSnapshot H) v := by
  obtain ⟨hv', he', _⟩ := folded_covered e.lastLocalSeq hS hv he hcap
  refine ⟨hv, covering_pure hv he, covering_pure hv' ?_⟩
  exact he'.of_eq rfl rfl rfl rfl rfl

theorem fold_covering {p : Run (Engine × Except Fault Bool)}
    (hp : p = e.forceSnapshot H ∨ ∃ maxRows maxBytes,
      p = e.snapshotIfWalExceeds H maxRows maxBytes)
    (hS : S.Ordered H.past) (hv : v.Covered H S) (he : e.Covered H S v)
    (hcap : v.captured ⊆ e.doc.oplog H) :
    Covering H S (fun v' e' => e'.Covered H S v') (p.map Prod.fst) v := by
  have hnext (e' : Engine) (v' : Vault) (hv' : v'.Covered H S) (hc : Captured H S e v e' v') :
      Covering H S (fun v' r => r.1.Covered H S v') (e'.writeLocalSnapshot H) v' := by
    refine writeLocalSnapshot_covering hS hv' hc.covered (hc.captured.trans ?_)
    have hop : e.doc.oplog H ⊆ e'.doc.oplog H := oplog_mono hc.received.superset
    exact Finset.union_subset (hcap.trans hop) hop
  refine covering_map (R := fun v' r => r.1.Covered H S v') ?_ fun _ _ h => h
  rcases hp with rfl | ⟨maxRows, maxBytes, rfl⟩
  all_goals
    refine covering_bind (captureLocalOps_covering hv he) ?_
    rintro ⟨e', r⟩ v' hv' ⟨hc, _⟩
    cases r with
    | error f => exact covering_pure hv' hc.covered
    | ok n =>
      dsimp only
      split
      · exact covering_pure hv' hc.covered
      · exact hnext e' v' hv' hc

/-- A durable notice persists the cursor, and queues it as an ack. -/
theorem notifyOplogDurable_covering {seq : ℕ} (hv : v.Covered H S) (he : e.Covered H S v)
    (hsafe : e.lastDurableSeq < min seq e.lastContiguousSeq →
      S.Covers (min seq e.lastContiguousSeq) v.disk.stored) :
    Covering H S (fun v' e' => e'.Covered H S v') (e.notifyOplogDurable seq) v := by
  unfold Engine.notifyOplogDurable
  dsimp only
  split
  · rename_i hlt
    have hcov := hsafe hlt
    have hset (v' : Vault) (hst : v'.disk.stored = v.disk.stored)
        (hin : v'.disk.inFlight = v.disk.inFlight) (hcap : v'.captured = v.captured)
        (hlost : v'.lost = v.lost) (e₁ : Engine)
        (hcore : Core { e with lastDurableSeq := min seq e.lastContiguousSeq } e₁) :
        e₁.queueAckIfAdvanced.Covered H S v' := by
      have hgrow : e.Covered H S v' :=
        he.grow hst.superset (hst.subset.trans he.holds) hcap.superset hlost hin
      have h₁ : e₁.Covered H S v' := by
        refine hcore.covered ⟨hgrow.holds, hgrow.persisted, hgrow.fresh, hgrow.seen, hgrow.cursor,
          ?_, hgrow.acks, hgrow.push⟩
        rw [hst]
        exact hcov
      unfold Engine.queueAckIfAdvanced
      split
      · refine ⟨h₁.holds, h₁.persisted, h₁.fresh, h₁.seen, h₁.cursor, h₁.durable, ?_, h₁.push⟩
        intro n hn
        rcases List.mem_append.1 hn with hn | hn
        · exact h₁.acks n hn
        · rw [List.mem_singleton.1 hn]
          exact h₁.durable
      · exact h₁
    have hwrite : (Vault.act S (.writeAckedSeq (min seq e.lastContiguousSeq)) v).1.Covered H S :=
      ⟨hv.readable, hv.rows, hv.origin, hv.closed, hv.kept, hcov, hv.push⟩
    refine ⟨hv, covering_pure hv ?_, covering_pure hwrite ?_⟩
    · exact hset v rfl rfl rfl rfl _ ⟨rfl, rfl, rfl, rfl, rfl, rfl⟩
    · exact hset (Vault.act S (.writeAckedSeq (min seq e.lastContiguousSeq)) v).1 rfl rfl rfl rfl _
        (.refl _)
  · exact covering_pure hv he

/-- A new push holds captured operations, and what else the document has from the server. -/
theorem tryStartPush_covering (mint : PushId) (hv : v.Covered H S) (he : e.Covered H S v) :
    Covering H S (fun v' e' => e'.Covered H S v') (e.tryStartPush H mint) v := by
  unfold Engine.tryStartPush
  split
  · split
    · exact covering_pure hv (he.of_eq rfl rfl rfl rfl rfl)
    · refine covering_bind (captureLocalOps_covering hv he) ?_
      rintro ⟨e', r⟩ v' hv' ⟨hc, hlp⟩
      have he' := hc.covered
      cases r with
      | error f => exact covering_pure hv' (he'.of_eq rfl rfl rfl rfl rfl)
      | ok n =>
        dsimp only
        split
        · exact covering_pure hv' he'
        · rename_i blob hblob
          have hheld : blob.held ⊆ v'.captured ∪ S.all := by
            unfold Doc.exportUpdatesSince at hblob
            split at hblob
            · exact absurd hblob (by simp)
            · rw [← Option.some.inj hblob]
              exact Finset.sdiff_subset.trans ((hlp n rfl).trans he'.persisted)
          let push : InFlightPush := ⟨mint, blob, e'.serverKnownVv, e'.doc.oplogVv H⟩
          have hput : (Vault.act S (.putInFlightPush push) v').1.Covered H S := by
            refine ⟨hv'.readable, hv'.rows, hv'.origin, hv'.closed, hv'.kept, hv'.cursor, ?_⟩
            intro p hp
            rw [← Option.mem_some_iff.1 hp]
            show blob.held ⊆ v'.captured ∪ S.upTo S.length
            rw [RowLog.upTo_length]
            exact hheld
          refine ⟨hv', covering_pure hv' (he'.of_eq rfl rfl rfl rfl rfl), ?_⟩
          refine covering_pure hput ⟨he'.holds, he'.persisted, he'.fresh, he'.seen, he'.cursor,
            he'.durable, he'.acks, fun p hp => ?_⟩
          rw [← Option.mem_some_iff.1 hp]
          exact ⟨_, rfl⟩
  · exact covering_pure hv he

theorem settle_covering (complete : Bool) (mint : PushId) (hv : v.Covered H S)
    (he : e.Covered H S v) :
    Covering H S (fun v' e' => e'.Covered H S v') (e.settle H complete mint) v := by
  unfold Engine.settle
  split
  · exact tryStartPush_covering mint hv (he.of_eq rfl rfl rfl rfl rfl)
  · exact covering_pure hv he

/-- **The engine once its push is acked.**  The row at which the push landed holds its payload, and
everything that was on the server when the push was put came before it. -/
theorem acked_covered {p : InFlightState} {seq : ℕ} {e₁ : Engine} (hp : e.inFlight = some p)
    (hrow : S.row seq = some p.payload.held) (hborn : v.born < seq) (hv : v.Covered H S)
    (he : e.Covered H S v) (hst : v'.disk.stored = v.disk.stored)
    (hcap : v'.captured = v.captured) (hlost : v'.lost = v.lost) (hcore : Core (e.unsent p) e₁) :
    (e₁.acked seq).Covered H S v' := by
  obtain ⟨from_, hdisk⟩ := he.push p hp
  have hpay : p.payload.held ⊆ v.captured ∪ S.upTo v.born := hv.push _ hdisk
  have hle : seq = e.lastContiguousSeq + 1 → v.born ≤ e.lastContiguousSeq := by
    intro hseq
    omega
  have h₁ : (e.unsent p).Covered H S v' := by
    refine ⟨hst.subset.trans he.holds, ?_, he.fresh, he.seen, ?_, ?_, ?_, ?_⟩
    · rw [Vault.origins, hcap]
      exact he.persisted
    · have hcur := he.cursor
      rw [Engine.solid, hlost, hst]
      exact hcur
    · rw [hst]
      exact he.durable
    · rw [hst]
      exact he.acks
    · exact fun q hq => absurd hq (by simp [Engine.unsent])
  have h₂ := hcore.covered h₁
  refine (acked_core e₁ seq).covered (h₂.ingest hrow ?_ ?_)
  · intro hseq
    rw [hcore.contiguous] at hseq
    rw [hcore.doc]
    refine hpay.trans (Finset.union_subset (hv.kept.trans he.holds) ?_)
    exact (RowLog.upTo_mono (hle hseq)).trans he.seen.held
  · intro hseq hnone
    rw [hcore.contiguous] at hseq
    rw [hst]
    have hcur := he.cursor
    rw [Engine.solid, ← hlost, hnone] at hcur
    refine hpay.trans (Finset.union_subset hv.kept ?_)
    exact (RowLog.upTo_mono (hle hseq)).trans hcur.held

theorem completePush_covered (push : PushId) (vv : VersionVector) (hv : v.Covered H S) :
    (Vault.act S (.completePush push vv) v).1.Covered H S := by
  refine ⟨hv.readable, hv.rows, hv.origin, hv.closed, hv.kept, hv.cursor, fun q hq => ?_⟩
  have hq' : (if v.disk.inFlight.map InFlightPush.pushId = some push then none
      else v.disk.inFlight) = some q := hq
  split at hq'
  · exact absurd hq' (by simp)
  · exact hv.push q hq'

theorem pushAcked_covering {p : InFlightState} {seq : ℕ} (mint : PushId)
    (hp : e.inFlight = some p) (hrow : S.row seq = some p.payload.held) (hborn : v.born < seq)
    (hv : v.Covered H S) (he : e.Covered H S v) :
    Covering H S (fun v' e' => e'.Covered H S v') (e.pushAcked H p seq mint) v := by
  rw [pushAcked_eq]
  have hcomplete := completePush_covered p.pushId (e.unsent p).serverKnownVv hv
  refine ⟨hv, tryStartPush_covering mint hv ?_, tryStartPush_covering mint hcomplete ?_⟩
  · exact acked_covered hp hrow hborn hv he rfl rfl rfl ⟨rfl, rfl, rfl, rfl, rfl, rfl⟩
  · exact acked_covered hp hrow hborn hv he rfl rfl rfl (.refl _)

/-- A snapshot of a chain, and the checkpoint of a completed one. -/
theorem snapshot_covering {upToSeq : ℕ} {blob : Blob} {complete : Bool} (hS : S.Ordered H.past)
    (hheld : blob.ops ≠ none → blob.held ⊆ S.all)
    (hupto : blob.ops ≠ none → complete = true →
      S.Covers upToSeq (e.doc.received ∪ blob.held))
    (hcap : complete = true → ∀ o ∈ v.captured, H.past o ⊆ e.doc.received ∪ blob.held)
    (hst : e.state = .bootstrapping) (hv : v.Covered H S) (he : e.Covered H S v) :
    Covering H S (fun v' e' => e'.Covered H S v') (e.snapshot H upToSeq blob complete) v := by
  rw [Engine.snapshot, if_pos hst]
  have himp : Engine.Covered H S { e with doc := (e.doc.applyRemoteBatch [blob]).1 } v := by
    refine he.imports hS fun b hb => ?_
    rw [List.mem_singleton.1 hb]
    by_cases hops : blob.ops = none
    · rw [Blob.held, hops]
      exact Finset.empty_subset _
    · exact hheld hops
  have hrec : blob.ops ≠ none →
      (e.doc.applyRemoteBatch [blob]).1.received = e.doc.received ∪ blob.held := by
    intro hops
    rw [applyRemoteBatch_received (by simpa using hops)]
    simp [heldAll]
  split
  · rename_i doc hvv
    rw [hvv] at himp
    exact covering_pure hv (himp.of_eq rfl rfl rfl rfl rfl)
  · rename_i doc vv hvv
    have hops : blob.ops ≠ none := by
      intro hnone
      rw [applyRemoteBatch_stop hnone] at hvv
      exact absurd hvv (by simp)
    rw [hvv] at himp hrec
    have hrec' : doc.received = e.doc.received ∪ blob.held := hrec hops
    let e₁ : Engine := { e with doc := doc, serverKnownVv := e.serverKnownVv.merge vv }
    have he₁ : e₁.Covered H S v := himp.of_eq rfl rfl rfl rfl rfl
    dsimp only
    split
    · rename_i hcomplete
      -- The vector is written first; what storage covers does not depend on it.
      have hknown : (Vault.act S (.writeServerKnownVv e₁.serverKnownVv) v).1.Covered H S :=
        ⟨hv.readable, hv.rows, hv.origin, hv.closed, hv.kept, hv.cursor, hv.push⟩
      have he₂ : e₁.Covered H S (Vault.act S (.writeServerKnownVv e₁.serverKnownVv) v).1 :=
        ⟨he₁.holds, he₁.persisted, he₁.fresh, he₁.seen, he₁.cursor, he₁.durable, he₁.acks,
          he₁.push⟩
      have hap : v.captured ⊆ doc.oplog H := by
        intro o ho
        refine mem_oplog.2 ⟨?_, ?_⟩
        · exact he₁.holds (hv.kept ho)
        · rw [hrec']
          exact hcap hcomplete o ho
      obtain ⟨hv', he', hop⟩ := folded_covered e₁.lastLocalSeq hS hknown he₂ hap
      refine ⟨hv, covering_pure hv (he₁.of_eq rfl rfl rfl rfl rfl), hknown, ?_, ?_⟩
      · exact covering_pure hknown (he₂.of_eq rfl rfl rfl rfl rfl)
      · refine covering_pure hv' ?_
        have hmark := he'.mark hop
        have hup : S.Covers upToSeq e₁.doc.received := by
          have hu := hupto hops hcomplete
          rwa [← hrec'] at hu
        refine (checkpointed_core e₁ upToSeq).covered ⟨hmark.holds, hmark.persisted, hmark.fresh,
          hmark.seen.max hup, ?_, hmark.durable, hmark.acks, hmark.push⟩
        exact covers_folded hS (he₁.seen.max hup)
    · exact covering_pure hv he₁

/-! ### Appending -/

/-- **The rows of a batch keep storage covered**, whichever of their appends fail. -/
theorem rows_covered {us : List (StoredBlob Blob)} (vv : VersionVector) (outcomes : List Bool)
    (hus : BatchTrue S us) (hread : Readable us) (hin : batchOps us ⊆ e.doc.received)
    (hv : v.Covered H S) (he : e.Covered H S v) :
    let r := (Engine.appendRemoteRows vv us e).run (Vault.act S) outcomes v
    r.1.Covered H S ∧ r.2.Covered H S r.1 := by
  intro r
  obtain ⟨hcore, _, hrowed, htrue, hst, _⟩ :=
    appendRemoteRows_run (e := e) vv outcomes hv.rows hus
  have hnew : performed us outcomes ⊆ S.all := by
    intro o ho
    obtain ⟨u, hu, hmem⟩ := mem_batchOps.1 (performed_subset us outcomes ho)
    exact RowLog.row_subset (hus u hu) hmem
  have horig : r.1.origins S = v.origins S := by
    rw [Vault.origins, hrowed.captured]
    rfl
  have hgrow : v.disk.stored ⊆ r.1.disk.stored := by
    rw [hst]
    exact Finset.subset_union_left
  refine ⟨⟨?_, htrue, ?_, ?_, ?_, ?_, ?_⟩, hcore.covered (he.grow hgrow ?_ ?_ ?_ ?_)⟩
  · intro b hb
    rcases appendRemoteRows_blobs vv outcomes b hb with hb | ⟨u, hu, rfl⟩
    · exact hv.readable b hb
    · exact hread u hu
  · rw [hst, horig]
    refine Finset.union_subset hv.origin (hnew.trans ?_)
    exact Finset.subset_union_right
  · rw [horig]
    exact hv.closed
  · rw [hrowed.captured]
    exact hv.kept.trans hgrow
  · rw [hrowed.cursor]
    exact hv.cursor.mono hgrow
  · rw [hrowed.inFlight, hrowed.captured, hrowed.born]
    exact hv.push
  · rw [hst]
    exact Finset.union_subset he.holds ((performed_subset us outcomes).trans hin)
  · exact hrowed.captured.superset
  · exact hrowed.lost
  · exact hrowed.inFlight

/-- A batch of the stream in memory: all of it has arrived. -/
theorem merged_covered {us : List (StoredBlob Blob)} (hS : S.Ordered H.past)
    (hus : BatchTrue S us) (hread : Readable us) (he : e.Covered H S v) :
    (e.merged us).Covered H S v ∧ batchOps us ⊆ (e.merged us).doc.received := by
  refine ⟨?_, ?_⟩
  · have himp := he.imports hS (batchTrue_held hus)
    exact himp.of_eq rfl rfl rfl rfl rfl
  · show _ ⊆ (e.doc.applyRemoteBatch (us.map StoredBlob.blob)).1.received
    rw [applyRemoteBatch_received (by simpa [Readable] using hread), batchOps_eq]
    exact Finset.subset_union_right

end Methods

/-! ## Calls -/

/-- A call does not let the cursor pass what was lost, and replaces no WAL that holds a captured
operation the document cannot apply yet. -/
def CursorSafe (v : Vault) (e : Engine) : HostCall → Prop
  | .notifyOplogDurable seq =>
    e.lastDurableSeq < min seq e.lastContiguousSeq → ∀ m ∈ v.lost, min seq e.lastContiguousSeq ≤ m
  | .snapshotIfWalExceeds _ _ | .forceSnapshot => v.captured ⊆ e.doc.oplog H
  | .handleServerBytes (some (.snapshot _ blob complete)) _ =>
    e.state = .bootstrapping → complete = true →
      ∀ o ∈ v.captured, H.past o ⊆ e.doc.received ∪ blob.held
  | _ => True

section Calls

variable {H} {S : RowLog OpId} {e e' : Engine} {v v' : Vault} {c : HostCall} {born : ℕ}

/-- The calls that append no rows. -/
theorem program_covering (hin : e.incoming c = []) (hS : S.Ordered H.past)
    (ht : Truthful H S v.born e c) (hsafe : CursorSafe H v e c) (hv : v.Covered H S)
    (he : e.Covered H S v) :
    Covering H S (fun v' e' => e'.Covered H S v') (c.program H e) v := by
  have hdoes := program_does (H := H) c e
  generalize c.program H e = p at hdoes ⊢
  cases hdoes with
  | core hin' h => exact covering_pure hv (h.covered he)
  | commit o =>
    obtain ⟨hnew, hall, hpast⟩ := ht
    have hlp : o ∉ e.doc.lastPersistedVv.ids := by
      intro hlp
      rcases Finset.mem_union.1 (he.persisted hlp) with hcap | hland
      · exact hnew (he.holds (hv.kept hcap))
      · exact hall hland
    have hgrow : e.doc.received ⊆ (e.doc.commit o).received := Finset.subset_insert _ _
    refine covering_pure hv ⟨he.holds.trans hgrow, he.persisted, ?_, he.seen.mono hgrow, he.cursor,
      he.durable, he.acks, he.push⟩
    intro q hq hno
    rcases Finset.mem_insert.1 hq with rfl | hq
    · exact ⟨hall, (hpast.trans oplog_subset).trans hgrow⟩
    · exact ⟨(he.fresh q hq hno).1, (he.fresh q hq hno).2.trans hgrow⟩
  | capture =>
    exact covering_map (captureLocalOps_covering hv he) fun r v' h => h.1.covered
  | fold maxRows maxBytes => exact fold_covering (.inr ⟨maxRows, maxBytes, rfl⟩) hS hv he hsafe
  | force => exact fold_covering (.inl rfl) hS hv he hsafe
  | notify seq =>
    refine notifyOplogDurable_covering hv he fun hlt => ?_
    have hcur := he.cursor
    unfold Engine.solid at hcur
    cases hlost : v.lost with
    | none =>
      rw [hlost] at hcur
      exact RowLog.Covers.of_le hcur (Nat.min_le_right _ _)
    | some m =>
      rw [hlost] at hcur
      exact RowLog.Covers.of_le hcur (hsafe hlt m hlost)
  | flush mint hidle => exact tryStartPush_covering mint hv he
  | rows hin' hne hc => exact absurd (hin'.symm.trans hin) hne
  | unread hin' hcore hst hc =>
    have himp := he.imports hS (offered_held ht)
    exact settle_covering _ _ hv (hcore.covered himp)
  | ack hp hid hst =>
    obtain ⟨hrow, hborn⟩ := ht _ hp _ (List.mem_singleton.2 rfl) hid
    exact pushAcked_covering _ hp hrow hborn hv he
  | chain hst =>
    refine snapshot_covering hS (fun hops => (ht hst hops).1) ?_ (hsafe hst) hst hv he
    exact fun hops => (ht hst hops).2.2

theorem entering_covered {w : World} (l : HostStep) (hv : w.vault.Covered H S)
    (he : e.Covered H S w.vault) :
    (w.entering e l).Covered H S ∧ e.Covered H S (w.entering e l) := by
  refine ⟨⟨hv.readable, hv.rows, hv.origin, hv.closed, hv.kept, hv.cursor, hv.push⟩,
    ⟨he.holds, he.persisted, he.fresh, he.seen, ?_, he.durable, he.acks, he.push⟩⟩
  have hcur := he.cursor
  unfold Engine.solid World.entering at *
  dsimp only
  split
  · exact hcur
  · exact hcur

/-- The vault a call begins with, as far as the cursor is concerned. -/
theorem entering_safe {w : World} {l : HostStep} (hin : e.incoming l.call = [])
    (hsafe : CursorSafe H w.vault e l.call) : CursorSafe H (w.entering e l) e l.call := by
  have hno : e.failsRow l = false := by
    rw [Engine.failsRow, hin]
    rfl
  have heq : w.entering e l = w.vault := by
    rw [World.entering, hno]
    rfl
  rwa [heq]

/-- The vault and the engine after the rows of a batch have been appended and counted. -/
theorem rows_after {w : World} {l : HostStep} {us : List (StoredBlob Blob)}
    (hin : e.incoming l.call = us) (hS : S.Ordered H.past) (ht : Truthful H S born e l.call)
    (hv : w.vault.Covered H S) (he : e.Covered H S w.vault) :
    let r := (Engine.appendRemoteRows (e.merged us).serverKnownVv us (e.merged us)).run
      (Vault.act S) l.outcomes (w.entering e l)
    r.1.Covered H S ∧ (r.2.counted us).Covered H S r.1 := by
  intro r
  obtain ⟨hv₀, he₀⟩ := entering_covered l hv he
  have hus : BatchTrue S us := hin ▸ incoming_true ht
  have hread : Readable us := hin ▸ incoming_readable e l.call
  obtain ⟨hm, hrec⟩ := merged_covered hS hus hread he₀
  obtain ⟨hcore, _, hrowed, _, hst, _⟩ := appendRemoteRows_run (e := e.merged us)
    (e.merged us).serverKnownVv l.outcomes hv₀.rows hus
  obtain ⟨hv₁, he₁⟩ :=
    rows_covered (e.merged us).serverKnownVv l.outcomes hus hread hrec hv₀ hm
  refine ⟨hv₁, he₁.counted hus (hrec.trans (by rw [hcore.doc])) fun hnone => ?_⟩
  rw [hst, performed_all]
  · exact Finset.subset_union_right
  · rw [hrowed.lost] at hnone
    by_contra hfail
    have hfails : e.failsRow l = true := by
      rw [Engine.failsRow, hin]
      simpa using hfail
    simp [World.entering, hfails] at hnone

/-- A batch, its rows whole and what comes after them. -/
theorem batch_covered {w : World} {l : HostStep} {us : List (StoredBlob Blob)} {complete : Bool}
    {mint : PushId} (hin : e.incoming l.call = us) (hS : S.Ordered H.past)
    (ht : Truthful H S born e l.call) (hv : w.vault.Covered H S) (he : e.Covered H S w.vault) :
    let p := (Engine.appendRemoteRows (e.merged us).serverKnownVv us (e.merged us)).bind
      fun e' => (e'.counted us).settle H complete mint
    ((p.run (Vault.act S) l.outcomes (w.entering e l)).1.Covered H S ∧
      (p.run (Vault.act S) l.outcomes (w.entering e l)).2.Covered H S
        (p.run (Vault.act S) l.outcomes (w.entering e l)).1) ∧
    ∀ n, (p.crash (Vault.act S) l.outcomes n (w.entering e l)).Covered H S := by
  intro p
  obtain ⟨hv₀, he₀⟩ := entering_covered l hv he
  have hus : BatchTrue S us := hin ▸ incoming_true ht
  have hread : Readable us := hin ▸ incoming_readable e l.call
  obtain ⟨hm, hrec⟩ := merged_covered hS hus hread he₀
  obtain ⟨hv₁, hcounted⟩ := rows_after hin hS ht hv he
  have hwp := settle_covering (H := H) complete mint hv₁ hcounted
  refine ⟨?_, fun n => ?_⟩
  · rw [Program.run_bind]
    exact Program.run_of_wp hwp _
  · rw [Program.crash_bind]
    split
    · rw [appendRemoteRows_crash]
      have hsub : batchOps (us.take n) ⊆ batchOps us := by
        intro o ho
        obtain ⟨u, hu, hmem⟩ := mem_batchOps.1 ho
        exact mem_batchOps.2 ⟨u, List.mem_of_mem_take hu, hmem⟩
      refine (rows_covered _ l.outcomes ?_ ?_ (hsub.trans hrec) hv₀ hm).1
      · exact fun u hu => hus u (List.mem_of_mem_take hu)
      · exact fun u hu => hread u (List.mem_of_mem_take hu)
    · exact Program.crash_of_wp hwp _ _

/-- A call that appends rows is a batch of them. -/
theorem program_rows (hne : e.incoming c ≠ []) :
    ∃ complete mint, (complete = true → e.state = .pulling → e.completes c = true) ∧
      c.program H e = (Engine.appendRemoteRows (e.merged (e.incoming c)).serverKnownVv
        (e.incoming c) (e.merged (e.incoming c))).bind
          fun e' => (e'.counted (e.incoming c)).settle H complete mint := by
  have hdoes := program_does (H := H) c e
  generalize c.program H e = p at hdoes ⊢
  cases hdoes with
  | rows hin' hne' hc =>
    subst hin'
    exact ⟨_, _, hc, rfl⟩
  | unread hin' hcore hst hc => exact absurd hin' hne
  | core hin' h => exact absurd hin' hne
  | _ => exact absurd rfl hne

/-- **What a call leaves is covered, and so is what is left when the device dies in it.** -/
theorem call_covered {w : World} {l : HostStep} (hS : S.Ordered H.past)
    (ht : Truthful H S w.vault.born e l.call) (hsafe : CursorSafe H w.vault e l.call)
    (hv : w.vault.Covered H S) (he : e.Covered H S w.vault) :
    let p := l.call.program H e
    ((p.run (Vault.act S) l.outcomes (w.entering e l)).1.Covered H S ∧
      (p.run (Vault.act S) l.outcomes (w.entering e l)).2.Covered H S
        (p.run (Vault.act S) l.outcomes (w.entering e l)).1) ∧
    ∀ n, (p.crash (Vault.act S) l.outcomes n (w.entering e l)).Covered H S := by
  rcases eq_or_ne (e.incoming l.call) [] with hin | hne
  · obtain ⟨hv₀, he₀⟩ := entering_covered l hv he
    have hwp := program_covering (v := w.entering e l) hin hS ht (entering_safe hin hsafe) hv₀ he₀
    exact ⟨Program.run_of_wp hwp _, fun n => Program.crash_of_wp hwp _ n⟩
  · obtain ⟨complete, mint, _, heq⟩ := program_rows (H := H) hne
    rw [heq]
    exact batch_covered rfl hS ht hv he

end Calls

/-! ## Booting -/

section Booting

variable {H} {S : RowLog OpId} {s : Disk} {e : Engine} {v : Vault} {d : Doc} {A : Finset OpId}

theorem stored_eq (s : Disk) : s.stored = heldAll s.blobs := by
  have hwal (rows : List WalRow) : walOps rows = heldAll (rows.map WalRow.payload) := by
    induction rows with
    | nil => rfl
    | cons row rows ih =>
      rw [walOps, ih]
      rfl
  rw [Disk.stored, Disk.blobs, hwal]
  cases s.snapshot with
  | none => exact Finset.empty_union _
  | some row => rfl

/-- **A boot from readable storage succeeds**, with all that is stored. -/
theorem bootDoc_some (h : ∀ b ∈ s.blobs, b.ops ≠ none) :
    ∃ d, bootDoc s = some d ∧ d.received = s.stored ∧
      d.received ⊆ d.lastPersistedVv.ids ∧
      ∀ A, RowLog.Closed H.past A → s.stored ⊆ A → d.lastPersistedVv.ids ⊆ A := by
  have hsome : (Doc.empty.applyRemoteBatch s.blobs).2 ≠ none := applyRemoteBatch_isSome.2 h
  have hrec := applyRemoteBatch_received (d := Doc.empty) h
  have hheld : ∀ b ∈ s.blobs, b.held ⊆ s.stored := by
    intro b hb o ho
    rw [stored_eq]
    exact mem_heldAll.2 ⟨b, hb, ho⟩
  have himp := applyRemoteBatch_imports (d := Doc.empty) hheld
  refine ⟨(Doc.empty.applyRemoteBatch s.blobs).1, ?_, ?_, ?_, fun A hA hst => ?_⟩
  · unfold bootDoc
    generalize Doc.empty.applyRemoteBatch s.blobs = r at hsome ⊢
    obtain ⟨doc, vv⟩ := r
    cases vv with
    | none => exact absurd rfl hsome
    | some vv => rfl
  · rw [hrec, stored_eq]
    exact Finset.empty_union _
  · exact himp.counted.trans (Finset.empty_union _).subset
  · refine (applyRemoteBatch_persisted (d := Doc.empty) hA
      fun b hb => (hheld b hb).trans hst).trans ?_
    exact (Finset.empty_union _).subset

theorem boot_covered (hv : v.Covered H S) (hb : boot v.disk = some e) :
    e.Covered H S { v with lost := none } := by
  obtain ⟨d, hd, hrec, hlp, hlow⟩ := bootDoc_some (H := H) hv.readable
  rw [boot, hd] at hb
  rw [← Option.some.inj hb]
  refine ⟨hrec.superset, hlow _ hv.closed hv.origin, ?_, ?_, hv.cursor, hv.cursor, ?_, ?_⟩
  · exact fun o ho hno => absurd (hlp ho) hno
  · exact hv.cursor.mono hrec.superset
  · exact fun n hn => absurd hn (by simp [Engine.new])
  · intro p hp
    obtain ⟨q, hq, rfl⟩ := Option.map_eq_some_iff.1 hp
    exact ⟨q.fromVv, hq⟩

end Booting

/-! ## Worlds -/

/-- Everything a world's cursors cover is in storage. -/
structure World.Covered (w : World) : Prop where
  ordered : w.stream.Ordered H.past
  vault : w.vault.Covered H w.stream
  engine : ∀ e ∈ w.engine, e.Covered H w.stream w.vault

section Worlds

variable {H} {w w' : World} {l : WorldLabel}

theorem fresh_covered (h : w.Fresh) : w.Covered H := by
  rw [h]
  refine ⟨.nil, ⟨?_, ?_, ?_, ?_, ?_, .zero, ?_⟩, fun e he => absurd he (by simp)⟩
  · exact fun b hb => absurd hb (by simp [Vault.fresh, Disk.empty, Disk.blobs])
  · exact fun r hr => absurd hr (by simp [Vault.fresh, Disk.empty])
  · exact Finset.empty_subset _
  · exact fun o ho => absurd ho (by simp [Vault.origins, Vault.fresh])
  · exact Finset.empty_subset _
  · exact fun p hp => absurd hp (by simp [Vault.fresh, Disk.empty])

/-- A row that lands changes nothing for what was there. -/
theorem landed_covered {ops : Finset OpId} (hw : w.Covered H)
    (hl : Landable H w.stream w.engine ops) :
    World.Covered H { w with stream := w.stream ++ [ops] } := by
  have hall : RowLog.all (w.stream ++ [ops]) = w.stream.all ∪ ops := by
    rw [RowLog.all_append, RowLog.all_singleton]
  have horig : w.vault.origins w.stream ⊆ w.vault.origins (w.stream ++ [ops]) := by
    rw [Vault.origins, Vault.origins, hall]
    exact Finset.union_subset_union_right Finset.subset_union_left
  have hv := hw.vault
  refine ⟨hw.ordered.append hl.1, ⟨hv.readable, ?_, hv.origin.trans horig, ?_, hv.kept,
    hv.cursor.append _, ?_⟩, fun e he => ?_⟩
  · exact fun r hr n hn => RowLog.row_append _ (hv.rows r hr n hn)
  · rw [Vault.origins, hall, ← Finset.union_assoc]
    refine RowLog.Closed.union hv.closed fun o ho => (hl.1 o ho).trans ?_
    exact Finset.union_subset_union_left Finset.subset_union_right
  · intro p hp
    refine (hv.push p hp).trans (Finset.union_subset_union_right ?_)
    intro o ho
    obtain ⟨r, hr, hmem⟩ := RowLog.mem_all.1 ho
    refine RowLog.mem_all.2 ⟨r, ?_, hmem⟩
    rw [List.take_append]
    exact List.mem_append_left _ hr
  · have he' := hw.engine e he
    refine ⟨he'.holds, he'.persisted.trans horig, ?_, he'.seen.append _, he'.cursor.append _,
      he'.durable.append _, fun n hn => (he'.acks n hn).append _, he'.push⟩
    intro o ho hno
    obtain ⟨hnot, hpast⟩ := he'.fresh o ho hno
    refine ⟨?_, hpast⟩
    rw [hall, Finset.mem_union]
    rintro (h | h)
    · exact hnot h
    · exact hno (hl.2 e he o h ho)

/-- **Every step keeps the cursors covered**, where no call takes them past what was lost. -/
theorem covered_step
    (hok : ∀ hl e, (l = .call hl ∨ ∃ n, l = .crash hl n) → w.engine = some e →
      CursorSafe H w.vault e hl.call)
    (hw : w.Covered H) (hs : w.step H l = some w') : w'.Covered H := by
  obtain ⟨e, _, _, he, rfl⟩ | ⟨hl, e, hlabel, he, ht, rfl⟩ | ⟨hl, n, e, hlabel, he, ht, rfl⟩ |
    ⟨ops, _, hl, rfl⟩ := World.step_cases hs
  · refine ⟨hw.ordered, ?_, fun e' he' => ?_⟩
    · have hv := hw.vault
      exact ⟨hv.readable, hv.rows, hv.origin, hv.closed, hv.kept, hv.cursor, hv.push⟩
    · rw [← Option.mem_some_iff.1 he']
      exact boot_covered hw.vault he
  · have hc := call_covered hw.ordered ht (hok hl e (.inl hlabel) he) hw.vault (hw.engine e he)
    refine ⟨hw.ordered, hc.1.1, fun e' he' => ?_⟩
    rw [← Option.mem_some_iff.1 he']
    exact hc.1.2
  · have hc := call_covered hw.ordered ht (hok hl e (.inr ⟨n, hlabel⟩) he) hw.vault
      (hw.engine e he)
    exact ⟨hw.ordered, hc.2 n, fun e' he' => absurd he' (by simp)⟩
  · exact landed_covered hw hl

end Worlds

end Monoplan.Client
