import Monoplan.Client.Cursor

/-!
# What a boot restores

A boot replays the stored snapshot and the WAL.  An operation whose causal past is not among them
stays pending, and the next fold writes the applied history and prunes the rows: what was pending
is gone.

A capture writes the operations past `last_persisted_vv`, and imports raise that vector before
anything of them is stored.  So a commit on top of a snapshot chain that is still coming in, or
was cut, is written without what it builds on.

* `boot_restores`: where every row that is written builds on what is stored (`Anchored`), the
  document that a boot from the surviving storage yields has everything that was captured and
  every row below the persisted cursor, with nothing pending, in every run and at every crash.
* `captured_on_a_chain`: one commit between two frames of a chain, and a crash.
-/

namespace Monoplan.Client

open Monoplan.Base Monoplan.Protocol

variable (H : History)

/-! ## The condition -/

/-- What the uncaptured commits build on is stored, or is captured with them. -/
def Grounded (e : Engine) (v : Vault) : Prop :=
  ∀ o ∈ e.doc.updatesSince H e.doc.lastPersistedVv,
    H.past o ⊆ v.disk.stored ∪ e.doc.updatesSince H e.doc.lastPersistedVv

instance (e : Engine) (v : Vault) : Decidable (Grounded H e v) :=
  inferInstanceAs (Decidable (∀ o ∈ e.doc.updatesSince H e.doc.lastPersistedVv, H.past o ⊆ _))

/-- Every row that is appended builds on what is there by then. -/
def Ready (X : Finset OpId) : List (StoredBlob Blob) → List Bool → Prop
  | [], _ => True
  | u :: us, outcomes =>
    if outcomes.headD true = true then
      (∀ o ∈ u.blob.held, H.past o ⊆ X ∪ u.blob.held) ∧ Ready (X ∪ u.blob.held) us outcomes.tail
    else Ready X us outcomes.tail

instance decidableReady :
    (X : Finset OpId) → (us : List (StoredBlob Blob)) → (outcomes : List Bool) →
      Decidable (Ready H X us outcomes)
  | _, [], _ => .isTrue trivial
  | X, u :: us, outcomes =>
    have := decidableReady (X ∪ u.blob.held) us outcomes.tail
    have := decidableReady X us outcomes.tail
    inferInstanceAs (Decidable (if outcomes.headD true = true then
      (∀ o ∈ u.blob.held, H.past o ⊆ X ∪ u.blob.held) ∧
        Ready H (X ∪ u.blob.held) us outcomes.tail
    else Ready H X us outcomes.tail))

/-- A call writes nothing without what it builds on, and lets no cursor pass what was lost. -/
structure Anchors (v : Vault) (e : Engine) (l : HostStep) : Prop where
  notices : ∀ seq, l.call = .notifyOplogDurable seq → CursorSafe H v e l.call
  captures : e.capturesOn l.call = true → Grounded H e v
  rows : Ready H v.disk.stored (e.incoming l.call) l.outcomes

/-- Every step of a world anchors what it writes. -/
def Anchored (w : World) : WorldLabel → Prop
  | .call l | .crash l _ => ∀ e ∈ w.engine, Anchors H w.vault e l
  | _ => True

/-! ## Storage that is closed -/

/-- Nothing in storage is pending. -/
abbrev Vault.Closed (v : Vault) : Prop := RowLog.Closed H.past v.disk.stored

/-- A program that keeps storage closed on the way. -/
abbrev Closing {α : Type} (S : RowLog OpId) (p : Run α) (v : Vault) : Prop :=
  p.wp (Vault.act S) (Vault.Closed H) (fun _ _ => True) v

section Closing

variable {H} {S : RowLog OpId} {e e' : Engine} {v v' : Vault} {o : OpId}

/-- What the engine has is applied as far as storage has it. -/
theorem Vault.Closed.applied (hc : v.Closed H) (he : e.Covered H S v) :
    v.disk.stored ⊆ e.doc.oplog H :=
  closed_subset_oplog hc he.holds

theorem closing_pure {α : Type} {a : α} (hc : v.Closed H) : Closing H S (.pure a : Run α) v :=
  ⟨hc, trivial⟩

theorem closing_map {α γ : Type} {p : Run α} (f : α → γ) (h : Closing H S p v) :
    Closing H S (p.map f) v :=
  Program.wp_map.2 h

/-- A call that leaves what is stored alone. -/
theorem closing_call {α : Type} {c : StorageCall} {k : Option Appended → Run α} (hc : v.Closed H)
    (hst : (Vault.act S c v).1.disk.stored = v.disk.stored)
    (hk : ∀ r v', v'.Closed H → Closing H S (k r) v') : Closing H S (.call c k) v := by
  refine ⟨hc, hk _ v hc, hk _ _ ?_⟩
  show RowLog.Closed H.past (Vault.act S c v).1.disk.stored
  rwa [hst]

/-- The uncaptured commits are what arrived and does not count as persisted. -/
theorem updatesSince_eq (he : e.Covered H S v) :
    e.doc.updatesSince H e.doc.lastPersistedVv = e.doc.received \ e.doc.lastPersistedVv.ids := by
  ext o
  simp only [Doc.updatesSince, Finset.mem_sdiff]
  exact and_congr_left fun hno => ⟨fun ho => oplog_subset ho, fun ho => he.uncaptured ho hno⟩

/-- An import leaves the uncaptured commits as they are. -/
theorem imports_updatesSince (hS : S.Ordered H.past) (he : e.Covered H S v) {bs : List Blob}
    (hbs : ∀ b ∈ bs, b.held ⊆ S.all) :
    (e.doc.applyRemoteBatch bs).1.updatesSince H (e.doc.applyRemoteBatch bs).1.lastPersistedVv =
      e.doc.updatesSince H e.doc.lastPersistedVv := by
  obtain ⟨hgrows, _, hkeeps, hcounted⟩ := applyRemoteBatch_imports (d := e.doc) hbs
  have hlow := applyRemoteBatch_persisted (d := e.doc) hS.all hbs
  have he' := he.imports hS hbs
  rw [updatesSince_eq he]
  refine (updatesSince_eq he').trans ?_
  ext o
  simp only [Finset.mem_sdiff]
  constructor
  · rintro ⟨ho, hno⟩
    exact ⟨(Finset.mem_union.1 (hcounted ho)).resolve_right hno, fun hlp => hno (hkeeps hlp)⟩
  · rintro ⟨ho, hno⟩
    refine ⟨hgrows ho, fun hlp => ?_⟩
    rcases Finset.mem_union.1 (hlow hlp) with hlp | hall
    · exact hno hlp
    · exact (he.fresh o ho hno).1 hall

/-- What was grounded stays so while storage grows and blobs are imported. -/
theorem Grounded.imports (hg : Grounded H e v) (hS : S.Ordered H.past) (he : e.Covered H S v)
    {bs : List Blob} (hbs : ∀ b ∈ bs, b.held ⊆ S.all)
    (hdoc : e'.doc = (e.doc.applyRemoteBatch bs).1)
    (hst : v.disk.stored ⊆ v'.disk.stored) : Grounded H e' v' := by
  have hsame := imports_updatesSince hS he hbs
  rw [← hdoc] at hsame
  unfold Grounded
  rw [hsame]
  exact fun o ho => (hg o ho).trans (Finset.union_subset_union_left hst)

/-! ### Methods -/

theorem captureLocalOps_closing (hc : v.Closed H) (hg : Grounded H e v) :
    Closing H S (e.captureLocalOps H) v := by
  unfold Engine.captureLocalOps
  split
  · exact closing_pure hc
  · rename_i blob hblob
    refine ⟨hc, closing_pure hc, closing_pure ?_⟩
    show RowLog.Closed H.past (v.localRow S blob).disk.stored
    rw [localRow_stored]
    refine hc.union fun o ho => ?_
    rw [(pendingExport_some hblob).2] at ho ⊢
    exact hg o ho

theorem captured_closing (hv : v.Covered H S) (he : e.Covered H S v) (hc : v.Closed H)
    (hg : Grounded H e v) :
    (e.captureLocalOps H).wp (Vault.act S) (Vault.Closed H)
      (fun v' r => v'.Covered H S ∧ Captured H S e v r.1 v' ∧
        (∀ n, r.2 = .ok n → r.1.doc.oplog H ⊆ r.1.doc.lastPersistedVv.ids)) v := by
  have hboth := Program.wp_and (captureLocalOps_covering hv he) (captureLocalOps_closing hc hg)
  exact Program.wp_weaken (Program.wp_mono hboth fun t a hi hq => ⟨hi.1, hq.1⟩) fun _ h => h.2

/-- A fold writes exactly the applied history. -/
theorem folded_stored {d : Doc} {cutoff : ℕ} (hst : v.disk.stored ⊆ d.oplog H) :
    (v.folded H S cutoff d).disk.stored = d.oplog H := by
  refine Finset.Subset.antisymm ?_ (oplog_subset_folded d)
  exact (folded_subset d).trans (Finset.union_subset (Finset.Subset.refl _) hst)

theorem folded_closed {d : Doc} {cutoff : ℕ} (hst : v.disk.stored ⊆ d.oplog H) :
    (v.folded H S cutoff d).Closed H := by
  unfold Vault.Closed
  rw [folded_stored hst]
  exact fun o ho => past_subset_oplog ho

theorem fold_closing {p : Run (Engine × Except Fault Bool)}
    (hp : p = e.forceSnapshot H ∨ ∃ maxRows maxBytes,
      p = e.snapshotIfWalExceeds H maxRows maxBytes)
    (hv : v.Covered H S) (he : e.Covered H S v) (hc : v.Closed H) (hg : Grounded H e v) :
    Closing H S (p.map Prod.fst) v := by
  have hwrite (e' : Engine) (v' : Vault) (hc' : v'.Closed H) (he' : e'.Covered H S v') :
      Closing H S (e'.writeLocalSnapshot H) v' :=
    ⟨hc', closing_pure hc', closing_pure (folded_closed (hc'.applied he'))⟩
  have hcap := captured_closing hv he hc hg
  refine closing_map _ ?_
  rcases hp with rfl | ⟨maxRows, maxBytes, rfl⟩
  all_goals
    refine Program.wp_bind.2 (Program.wp_mono hcap ?_)
    rintro v' ⟨e', r⟩ hc' ⟨_, hcapt, _⟩
    cases r with
    | error f => exact closing_pure hc'
    | ok n =>
      dsimp only
      split
      · exact closing_pure hc'
      · exact hwrite e' v' hc' hcapt.covered

theorem notifyOplogDurable_closing (seq : ℕ) (hc : v.Closed H) :
    Closing H S (e.notifyOplogDurable seq) v := by
  unfold Engine.notifyOplogDurable
  dsimp only
  split
  · refine closing_call hc rfl fun r v' hc' => ?_
    cases r with
    | none => exact closing_pure hc'
    | some row => exact closing_pure hc'
  · exact closing_pure hc

theorem tryStartPush_closing (mint : PushId) (hv : v.Covered H S) (he : e.Covered H S v)
    (hc : v.Closed H) (hg : e.inFlight = none → Grounded H e v) :
    Closing H S (e.tryStartPush H mint) v := by
  unfold Engine.tryStartPush
  split
  · split
    · exact closing_pure hc
    · rename_i hnone
      refine Program.wp_bind.2 (Program.wp_mono (captured_closing hv he hc (hg hnone)) ?_)
      rintro v' ⟨e', r⟩ hc' _
      cases r with
      | error f => exact closing_pure hc'
      | ok n =>
        dsimp only
        split
        · exact closing_pure hc'
        · refine closing_call hc' rfl fun r v'' hc'' => ?_
          cases r with
          | none => exact closing_pure hc''
          | some row => exact closing_pure hc''
  · exact closing_pure hc

theorem settle_closing (complete : Bool) (mint : PushId) (hv : v.Covered H S)
    (he : e.Covered H S v) (hc : v.Closed H)
    (hg : complete = true → e.state = .pulling → e.inFlight = none → Grounded H e v) :
    Closing H S (e.settle H complete mint) v := by
  unfold Engine.settle
  split
  · rename_i hst
    exact tryStartPush_closing mint hv (he.of_eq rfl rfl rfl rfl rfl) hc (hg hst.1 hst.2)
  · exact closing_pure hc

theorem acked_doc (e : Engine) (seq : ℕ) : (e.acked seq).doc = e.doc := by
  refine (acked_core e seq).doc.trans ?_
  rcases ingestSeq_cases e seq with ⟨_, heq⟩ | h
  · rw [heq]
  · exact h.doc

theorem pushAcked_closing {p : InFlightState} {seq : ℕ} (mint : PushId)
    (hp : e.inFlight = some p) (hrow : S.row seq = some p.payload.held) (hborn : v.born < seq)
    (hv : v.Covered H S) (he : e.Covered H S v) (hc : v.Closed H) (hg : Grounded H e v) :
    Closing H S (e.pushAcked H p seq mint) v := by
  have hg' (e₁ : Engine) (hdoc : e₁.doc = e.doc) (hg : Grounded H e v) : Grounded H e₁ v := by
    unfold Grounded
    rw [hdoc]
    exact hg
  rw [pushAcked_eq]
  have hcomplete := completePush_covered p.pushId (e.unsent p).serverKnownVv hv
  refine ⟨hc, tryStartPush_closing mint hv ?_ hc fun _ => hg' _ (acked_doc _ _) hg,
    tryStartPush_closing mint hcomplete ?_ hc fun _ => hg' _ (acked_doc _ _) hg⟩
  · exact acked_covered hp hrow hborn hv he rfl rfl rfl ⟨rfl, rfl, rfl, rfl, rfl, rfl⟩
  · exact acked_covered hp hrow hborn hv he rfl rfl rfl (.refl _)

/-- A checkpoint writes what is applied, and all of storage is. -/
theorem snapshot_closing {upToSeq : ℕ} {blob : Blob} {complete : Bool}
    (hst : e.state = .bootstrapping) (he : e.Covered H S v) (hc : v.Closed H) :
    Closing H S (e.snapshot H upToSeq blob complete) v := by
  rw [Engine.snapshot, if_pos hst]
  split
  · exact closing_pure hc
  · rename_i doc vv hvv
    have hgrows := (applyRemoteBatch_imports (d := e.doc)
      (A := heldAll [blob]) fun b hb o ho => mem_heldAll.2 ⟨b, hb, ho⟩).grows
    rw [hvv] at hgrows
    have hap : v.disk.stored ⊆ doc.oplog H :=
      closed_subset_oplog hc (he.holds.trans hgrows)
    dsimp only
    split
    · refine ⟨hc, closing_pure hc, hc, closing_pure hc, closing_pure ?_⟩
      exact folded_closed (v := (Vault.act S _ v).1) hap
    · exact closing_pure hc

/-! ### Rows -/

/-- **Rows that are ready leave storage closed**, and so do the first few of them. -/
theorem rows_closed {us : List (StoredBlob Blob)} {outcomes : List Bool} (vv : VersionVector)
    (hus : BatchTrue S us) (hrows : RowsTrue S v.disk) (hc : v.Closed H)
    (hr : Ready H v.disk.stored us outcomes) :
    ((Engine.appendRemoteRows vv us e).run (Vault.act S) outcomes v).1.Closed H := by
  induction us generalizing e outcomes v with
  | nil => exact hc
  | cons u us ih =>
    obtain ⟨hu, hus⟩ := List.forall_mem_cons.1 hus
    rw [Ready] at hr
    rw [Engine.appendRemoteRows, Program.run]
    split at hr
    · rename_i hout
      rw [if_pos hout]
      obtain ⟨hst, htrue⟩ := stored_appendRemoteWal vv hrows hu
      refine ih (v := (Vault.act S (.appendRemoteWal u.seq u.blob vv) v).1) hus htrue ?_ ?_
      · show RowLog.Closed H.past (v.disk.appendRemoteWal u.seq u.blob vv).1.stored
        rw [hst]
        exact hc.union hr.1
      · show Ready H (v.disk.appendRemoteWal u.seq u.blob vv).1.stored _ _
        rw [hst]
        exact hr.2
    · rename_i hout
      rw [if_neg hout]
      exact ih hus hrows hc hr

theorem ready_take {X : Finset OpId} {us : List (StoredBlob Blob)} {outcomes : List Bool} (n : ℕ)
    (hr : Ready H X us outcomes) : Ready H X (us.take n) outcomes := by
  induction us generalizing X outcomes n with
  | nil =>
    rw [List.take_nil]
    exact hr
  | cons u us ih =>
    cases n with
    | zero => exact trivial
    | succ n =>
      rw [List.take_succ_cons, Ready]
      rw [Ready] at hr
      split
      · rename_i hout
        rw [if_pos hout] at hr
        exact ⟨hr.1, ih n hr.2⟩
      · rename_i hout
        rw [if_neg hout] at hr
        exact ih n hr

end Closing

/-! ## Calls -/

section Calls

variable {H} {S : RowLog OpId} {e e' : Engine} {v v' : Vault} {c : HostCall} {born : ℕ}

/-- What a call captures is grounded where the call says it captures. -/
theorem pushesOn_of_completes (hc : e.completes c = true) (hin : e.inFlight = none) :
    e.capturesOn c = true := by
  have hp : e.pushesOn c = true := by
    unfold Engine.pushesOn
    split
    · exact absurd hc (by simp [Engine.completes])
    · exact absurd hc (by simp [Engine.completes])
    · simp [hc, hin]
  unfold Engine.capturesOn
  split <;> first | rfl | exact hp

/-- The calls that append no rows. -/
theorem program_closing (hin : e.incoming c = []) (hS : S.Ordered H.past)
    (ht : Truthful H S v.born e c) (hg : e.capturesOn c = true → Grounded H e v)
    (hv : v.Covered H S) (he : e.Covered H S v) (hc : v.Closed H) :
    Closing H S (c.program H e) v := by
  have hdoes := program_does (H := H) c e
  generalize c.program H e = p at hdoes ⊢
  cases hdoes with
  | core hin' h => exact closing_pure hc
  | commit o => exact closing_pure hc
  | capture => exact closing_map _ (captureLocalOps_closing hc (hg rfl))
  | fold maxRows maxBytes => exact fold_closing (.inr ⟨maxRows, maxBytes, rfl⟩) hv he hc (hg rfl)
  | force => exact fold_closing (.inl rfl) hv he hc (hg rfl)
  | notify seq => exact notifyOplogDurable_closing seq hc
  | flush mint hidle =>
    refine tryStartPush_closing mint hv he hc fun hnone => hg ?_
    simp [Engine.capturesOn, Engine.pushesOn, hidle, hnone]
  | rows hin' hne hcomp => exact absurd (hin'.symm.trans hin) hne
  | unread hin' hcore hst hcomp =>
    have hbs := offered_held ht
    refine settle_closing _ _ hv (hcore.covered (he.imports hS hbs)) hc ?_
    intro hcompl hpull hnone
    rw [hcore.inFlight] at hnone
    refine (hg ?_).imports hS he hbs hcore.doc (Finset.Subset.refl _)
    exact pushesOn_of_completes (hcomp hcompl (hst ▸ hpull)) hnone
  | ack hp hid hst =>
    obtain ⟨hrow, hborn⟩ := ht _ hp _ (List.mem_singleton.2 rfl) hid
    refine pushAcked_closing _ hp hrow hborn hv he hc (hg ?_)
    simp [Engine.capturesOn, Engine.pushesOn, Engine.ackFits, hst, hp, hid]
  | chain hst => exact snapshot_closing hst he hc

/-- A call that anchors what it writes is safe for the cursor: in closed storage no captured
operation is pending. -/
theorem Anchors.cursorSafe {l : HostStep} (ha : Anchors H v e l) (hv : v.Covered H S)
    (he : e.Covered H S v) (hc : v.Closed H) : CursorSafe H v e l.call := by
  have hcap : v.captured ⊆ e.doc.oplog H := hv.kept.trans (hc.applied he)
  cases hcall : l.call with
  | notifyOplogDurable seq => exact hcall ▸ ha.notices seq hcall
  | snapshotIfWalExceeds maxRows maxBytes => exact hcap
  | forceSnapshot => exact hcap
  | handleServerBytes bytes mint =>
    cases bytes with
    | none => trivial
    | some f =>
      cases f with
      | snapshot upToSeq blob complete =>
        intro _ _ o ho
        exact (mem_oplog.1 (hcap ho)).2.trans Finset.subset_union_left
      | _ => trivial
  | _ => trivial

/-- A batch whose rows are ready. -/
theorem batch_closed {w : World} {l : HostStep} {us : List (StoredBlob Blob)} {complete : Bool}
    {mint : PushId} (hin : e.incoming l.call = us)
    (hcomp : complete = true → e.state = .pulling → e.completes l.call = true)
    (hS : S.Ordered H.past) (ht : Truthful H S born e l.call)
    (hg : e.capturesOn l.call = true → Grounded H e w.vault)
    (hr : Ready H w.vault.disk.stored us l.outcomes) (hv : w.vault.Covered H S)
    (he : e.Covered H S w.vault) (hc : w.vault.Closed H) :
    let p := (Engine.appendRemoteRows (e.merged us).serverKnownVv us (e.merged us)).bind
      fun e' => (e'.counted us).settle H complete mint
    (p.run (Vault.act S) l.outcomes (w.entering e l)).1.Closed H ∧
      ∀ n, (p.crash (Vault.act S) l.outcomes n (w.entering e l)).Closed H := by
  intro p
  obtain ⟨hv₀, he₀⟩ := entering_covered l hv he
  have hus : BatchTrue S us := hin ▸ incoming_true ht
  have hrun := appendRemoteRows_run (e := e.merged us)
    (e.merged us).serverKnownVv l.outcomes hv₀.rows hus
  obtain ⟨hcore, hstate, _, _, hst, _⟩ := hrun
  obtain ⟨hv₁, hm₁⟩ := rows_after hin hS ht hv he
  have hc₁ := rows_closed (e := e.merged us) (e.merged us).serverKnownVv hus hv₀.rows
    (v := w.entering e l) hc hr
  have hcount := counted_core ((Engine.appendRemoteRows (e.merged us).serverKnownVv us
    (e.merged us)).run (Vault.act S) l.outcomes (w.entering e l)).2 us
  have hclose := settle_closing complete mint hv₁ hm₁ hc₁ (by
    intro hcompl hpull hnone
    rw [hcount.2.2.2.1, hstate] at hpull
    rw [hcount.2.2.1, hcore.inFlight] at hnone
    refine (hg (pushesOn_of_completes (hcomp hcompl hpull) hnone)).imports hS he
      (batchTrue_held hus) ?_ ?_
    · rw [hcount.1, hcore.doc]
      rfl
    · rw [hst]
      exact Finset.subset_union_left)
  refine ⟨?_, fun n => ?_⟩
  · rw [Program.run_bind]
    exact (Program.run_of_wp hclose _).1
  · rw [Program.crash_bind]
    split
    · rw [appendRemoteRows_crash]
      refine rows_closed _ (fun u hu => hus u (List.mem_of_mem_take hu)) hv₀.rows hc ?_
      exact ready_take n hr
    · exact Program.crash_of_wp hclose _ _

/-- **What a call leaves is closed, and so is what is left when the device dies in it.** -/
theorem call_closed {w : World} {l : HostStep} (hS : S.Ordered H.past)
    (ht : Truthful H S w.vault.born e l.call) (ha : Anchors H w.vault e l)
    (hv : w.vault.Covered H S) (he : e.Covered H S w.vault) (hc : w.vault.Closed H) :
    ((l.call.program H e).run (Vault.act S) l.outcomes (w.entering e l)).1.Closed H ∧
      ∀ n, ((l.call.program H e).crash (Vault.act S) l.outcomes n (w.entering e l)).Closed H := by
  rcases eq_or_ne (e.incoming l.call) [] with hin | hne
  · obtain ⟨hv₀, he₀⟩ := entering_covered l hv he
    have hwp := program_closing (v := w.entering e l) hin hS ht ha.captures hv₀ he₀ hc
    exact ⟨(Program.run_of_wp hwp _).1, fun n => Program.crash_of_wp hwp _ n⟩
  · obtain ⟨complete, mint, hcomp, heq⟩ := program_rows (H := H) hne
    rw [heq]
    exact batch_closed rfl hcomp hS ht ha.captures ha.rows hv he hc

end Calls

/-! ## Worlds -/

section Worlds

variable {H} {w w' : World} {l : WorldLabel}

/-- All that storage has is applied, and covers the cursors. -/
structure World.Kept (H : History) (w : World) : Prop where
  covered : w.Covered H
  closed : w.vault.Closed H

theorem kept_step (hok : Anchored H w l) (hw : w.Kept H) (hs : w.step H l = some w') :
    w'.Kept H := by
  have hc := hw.covered
  refine ⟨covered_step (fun hl e hlabel he => ?_) hc hs, ?_⟩
  · have ha : Anchors H w.vault e hl := by
      rcases hlabel with rfl | ⟨n, rfl⟩
      · exact hok e he
      · exact hok e he
    exact ha.cursorSafe hc.vault (hc.engine e he) hw.closed
  · obtain ⟨e, _, _, he, rfl⟩ | ⟨hl, e, rfl, he, ht, rfl⟩ | ⟨hl, n, e, rfl, he, ht, rfl⟩ |
      ⟨ops, _, hl, rfl⟩ := World.step_cases hs
    · exact hw.closed
    · exact (call_closed hc.ordered ht (hok e he) hc.vault (hc.engine e he) hw.closed).1
    · exact (call_closed hc.ordered ht (hok e he) hc.vault (hc.engine e he) hw.closed).2 n
    · exact hw.closed

theorem kept_of_reach (hr : (living H).Reach (Anchored H) w) : w.Kept H := by
  apply hr.invariant
  · intro w hw
    refine ⟨fresh_covered hw, ?_⟩
    rw [hw]
    exact fun o ho => absurd ho (by simp [Vault.fresh, Disk.empty, Disk.stored, snapshotOps, walOps])
  · exact fun _ _ _ _ hw hok hs => kept_step hok hw hs

/-- **A boot restores everything.**  In every run in which every row that is written builds on what
is stored, and whatever storage calls fail and wherever the device dies: the surviving storage
boots, to a document in which nothing is pending, and which has every captured operation and every
row of the stream below the persisted cursor. -/
theorem boot_restores (hr : (living H).Reach (Anchored H) w) :
    ∃ d, bootDoc w.vault.disk = some d ∧ d.oplog H = d.received ∧
      w.vault.captured ⊆ d.oplog H ∧
      w.stream.Covers w.vault.disk.lastAckedServerSeq (d.oplog H) := by
  have hk := kept_of_reach hr
  have hv := hk.covered.vault
  obtain ⟨d, hd, hrec, _⟩ := bootDoc_some (H := H) hv.readable
  have hst : w.vault.disk.stored ⊆ d.oplog H :=
    closed_subset_oplog hk.closed hrec.superset
  refine ⟨d, hd, Finset.Subset.antisymm oplog_subset (hrec.subset.trans hst), ?_, ?_⟩
  · exact hv.kept.trans hst
  · exact hv.cursor.mono hst

end Worlds

/-! ## A commit on top of a chain -/

/-- The test of `Anchors` a run is checked with. -/
def anchorsb (v : Vault) (e : Engine) (l : HostStep) : Bool :=
  (match l.call with
    | .notifyOplogDurable _ => decide (v.lost = none)
    | _ => true) &&
  (!e.capturesOn l.call || decide (Grounded H e v)) &&
    decide (Ready H v.disk.stored (e.incoming l.call) l.outcomes)

/-- The test of `Anchored`. -/
def anchoredb (w : World) : WorldLabel → Bool
  | .call l | .crash l _ => w.engine.all fun e => anchorsb H w.vault e l
  | _ => true

section Tests

variable {H}

theorem anchorsb_sound {v : Vault} {e : Engine} {l : HostStep} (hb : anchorsb H v e l = true) :
    Anchors H v e l := by
  simp only [anchorsb, Bool.and_eq_true, Bool.or_eq_true, Bool.not_eq_true',
    decide_eq_true_eq] at hb
  obtain ⟨⟨hnotice, hcap⟩, hrows⟩ := hb
  refine ⟨fun seq hcall => ?_, fun hc => ?_, hrows⟩
  · rw [hcall] at hnotice ⊢
    intro _ m hm
    rw [of_decide_eq_true hnotice] at hm
    exact absurd hm (by simp)
  · rcases hcap with hno | hg
    · rw [hc] at hno
      exact absurd hno (by simp)
    · exact hg

theorem anchoredb_sound (w : World) (l : WorldLabel) (hb : anchoredb H w l = true) :
    Anchored H w l := by
  cases l with
  | boot => trivial
  | land ops => trivial
  | call hl =>
    intro e he
    have he' : w.engine = some e := he
    simp only [anchoredb, he', Option.all_some] at hb
    exact anchorsb_sound hb
  | crash hl n =>
    intro e he
    have he' : w.engine = some e := he
    simp only [anchoredb, he', Option.all_some] at hb
    exact anchorsb_sound hb

end Tests

/-- A history in which every other peer builds on the first operation of peer `1`. -/
def History.onFirst : History where
  past o := History.byPeer.past o ∪ if o.peer = 1 then ∅ else {firstOp}
  trans := by
    intro o q hq
    rcases Finset.mem_union.1 hq with hq | hq
    · have hpeer : q.peer = o.peer := by
        obtain ⟨c, _, rfl⟩ := Finset.mem_image.1 hq
        rfl
      rw [hpeer]
      exact Finset.union_subset_union_left (History.byPeer.trans o q hq)
    · split at hq
      · exact absurd hq (by simp)
      · rw [Finset.mem_singleton.1 hq]
        exact Finset.empty_subset _
  earlier p c d hd := Finset.mem_union_left _ (History.byPeer.earlier p c d hd)
  sealedLen _ := 0

/-- A blob with the first operation. -/
def firstBlob : Blob := ⟨some (.updates {firstOp}), 0⟩

/-- A commit of this device, on top of the first operation. -/
def ownOp : OpId := ⟨2, 0⟩

/-- A device begins a bootstrap; the chain that comes in is not complete yet. -/
def chainBegun : List WorldLabel :=
  [.land {firstOp}, .boot, .call ⟨.handleConnected, []⟩,
    .call ⟨.handleServerBytes (some (.docOpened 1)) 0, []⟩,
    .call ⟨.handleServerBytes (some (.snapshotRequired 1)) 0, []⟩,
    .call ⟨.handleServerBytes (some (.snapshot 1 firstBlob false)) 0, []⟩]

/-- The bootstrap completes, a commit on top of it is captured, and the device dies. -/
def capturedAfter : List WorldLabel :=
  chainBegun ++ [.call ⟨.handleServerBytes (some (.snapshot 1 firstBlob true)) 0, []⟩,
    .call ⟨.commit ownOp, []⟩, .call ⟨.captureLocalOps, []⟩, .call ⟨.notifyOplogDurable 1, []⟩,
    .crash ⟨.popEvent, []⟩ 0]

theorem boot_restores_capturedAfter :
    ∃ w, (living History.onFirst).Reach (Anchored History.onFirst) w ∧
      w.vault.captured = {firstOp, ownOp} ∧ w.vault.disk.lastAckedServerSeq = 1 ∧
      ∃ d, bootDoc w.vault.disk = some d ∧ d.oplog History.onFirst = d.received ∧
        w.vault.captured ⊆ d.oplog History.onFirst ∧
        w.stream.Covers w.vault.disk.lastAckedServerSeq (d.oplog History.onFirst) := by
  have hrun : ((living History.onFirst).exec newWorld capturedAfter).map
      (fun w => (w.vault.captured, w.vault.disk.lastAckedServerSeq)) =
        some ({firstOp, ownOp}, 1) := by
    decide
  have hok : (living History.onFirst).allStepsb (anchoredb History.onFirst) newWorld
      capturedAfter = true := by
    decide
  obtain ⟨w, hs, hend⟩ := Option.map_eq_some_iff.1 hrun
  simp only [Prod.mk.injEq] at hend
  have hreach : (living History.onFirst).Reach (Anchored History.onFirst) w :=
    Machine.Reach.exec (.init rfl) (Machine.allSteps_of_allStepsb anchoredb_sound hok) hs
  exact ⟨w, hreach, hend.1, hend.2, boot_restores hreach⟩

/-- A commit on top of the first frame of a chain is captured, and the device dies. -/
def capturedAmid : List WorldLabel :=
  chainBegun ++ [.call ⟨.commit ownOp, []⟩, .call ⟨.captureLocalOps, []⟩,
    .crash ⟨.popEvent, []⟩ 0]

/-- **A captured commit does not come back.**  It was written without what it builds on, so the
boot leaves it pending. -/
theorem captured_on_a_chain :
    ∃ w, (living History.onFirst).Reachable w ∧ ownOp ∈ w.vault.captured ∧
      ∃ d, bootDoc w.vault.disk = some d ∧ ownOp ∉ d.oplog History.onFirst ∧
        d.oplog History.onFirst ≠ d.received := by
  have hrun : ((living History.onFirst).exec newWorld capturedAmid).map
      (fun w => (decide (ownOp ∈ w.vault.captured), (bootDoc w.vault.disk).map fun d =>
        (decide (ownOp ∈ d.oplog History.onFirst),
          decide (d.oplog History.onFirst = d.received)))) = some (true, some (false, false)) := by
    decide
  obtain ⟨w, hs, hend⟩ := Option.map_eq_some_iff.1 hrun
  simp only [Prod.mk.injEq, decide_eq_true_eq] at hend
  obtain ⟨hcap, hdoc⟩ := hend
  obtain ⟨d, hd, hop⟩ := Option.map_eq_some_iff.1 hdoc
  simp only [Prod.mk.injEq, decide_eq_false_iff_not] at hop
  exact ⟨w, Machine.reach_of_exec rfl hs, hcap, d, hd, hop.1, hop.2⟩

end Monoplan.Client
