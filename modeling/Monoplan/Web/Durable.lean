import Mathlib.Order.Interval.Finset.Nat
import Monoplan.Web.IdbStorage

/-!
# What the browser vouches for

The server compacts what every device has acknowledged, so the seq a page reports durable and the
cursors in its `docs` row must never be ahead of the snapshot and the WAL rows.  The flush chain
swallows a failed transaction, and what is queued behind it still commits.

* `durable_of_repaired`: calls that claim what they have handed over keep the page durable as long
  as no `docs` row commits and no notice fires over operations of a failed transaction, and the
  first that does breaks it.
* `cursor_past_lost_row`: a failed append, and a next one that commits.
-/

namespace Monoplan.Web

open Monoplan.Base
open Monoplan.Client (Blob Disk OpId StorageCall VersionVector act)

/-! ## Claims -/

variable (update : ℕ → Finset OpId)

/-- The operations of the server's rows up to a seq. -/
def ackedOps (n : ℕ) : Finset OpId := (Finset.Icc 1 n).biUnion update

/-- What a `docs` row says is stored. -/
def DocRow.claimed (row : DocRow) : Finset OpId :=
  row.serverKnownVv.ids ∪ ackedOps update row.lastAckedServerSeq

/-- What the `docs` rows of a transaction say is stored. -/
def claimed : List Write → Finset OpId
  | [] => ∅
  | .putDoc row :: ws => row.claimed update ∪ claimed ws
  | _ :: ws => claimed ws

namespace Entry

/-- What an entry says is stored once it has settled. -/
def claimed : Entry → Finset OpId
  | .tx writes => Web.claimed update writes
  | .notice seq => ackedOps update seq

def carried : Entry → Finset OpId
  | .tx writes => Web.carried writes
  | .notice _ => ∅

/-- A notice fires whatever happened before it. -/
def takesEffect (commits : Bool) : Entry → Bool
  | .tx _ => commits
  | .notice _ => true

end Entry

/-- Every update up to a seq the engine was told is durable or the `docs` row carries, and every
operation of the vector in the `docs` row, is in the stored snapshot or the WAL rows. -/
structure Durable (s : Page) : Prop where
  told : ∀ n ∈ s.told, ackedOps update n ⊆ s.idb.stored
  docs : s.idb.docs.claimed update ⊆ s.idb.stored

/-- A call claims, and a notice samples, only what the storage has been handed by then; a fold
keeps what it prunes. -/
def Honest (s : Page) : PageStep → Prop
  | .call c =>
    (docRow (act c s.mirror).1).claimed update ⊆ (act c s.mirror).1.stored ∧ Folds s.mirror c
  | .durable seq => ackedOps update seq ⊆ s.mirror.stored
  | _ => True

/-- What takes effect claims nothing of a failed transaction that is not stored since. -/
def Repaired (s : Page) : PageStep → Prop
  | .settle commits =>
    ∀ e ∈ s.chain.head?, e.takesEffect commits = true →
      s.failed ∩ e.claimed update ⊆ s.idb.stored ∪ e.carried
  | _ => True

variable {update}

variable (update) in
theorem claimed_eq {row : DocRow} {writes : List Write}
    (h : ∀ d, .putDoc d ∈ writes → d = row) :
    (.putDoc row ∈ writes → claimed update writes = row.claimed update) ∧
      (.putDoc row ∉ writes → claimed update writes = ∅) := by
  induction writes with
  | nil => exact ⟨fun hmem => absurd hmem List.not_mem_nil, fun _ => rfl⟩
  | cons w ws ih =>
    obtain ⟨hin, hout⟩ := ih fun d hd => h d (List.mem_cons_of_mem _ hd)
    cases w with
    | putDoc d =>
      obtain rfl := h d (List.mem_cons_self ..)
      refine ⟨fun _ => ?_, fun hmem => absurd (List.mem_cons_self ..) hmem⟩
      by_cases hrest : .putDoc d ∈ ws
      · rw [claimed, hin hrest, Finset.union_self]
      · rw [claimed, hout hrest, Finset.union_empty]
    | _ => exact ⟨fun hmem => hin (by simpa using hmem), fun hmem => hout (by simpa using hmem)⟩

/-! ## The chain -/

variable (update) in
/-- The chain leads from the mirror at its head to the one at its end. -/
def Queued (m : Disk) : List Entry → Disk → Prop
  | [], m' => m = m'
  | .tx writes :: rest, m' =>
    ∃ c, writes = enqueued c m ∧ (docRow (act c m).1).claimed update ⊆ (act c m).1.stored ∧
      Folds m c ∧ Queued (act c m).1 rest m'
  | .notice seq :: rest, m' => ackedOps update seq ⊆ m.stored ∧ Queued m rest m'

variable (update) in
/-- The database lags behind the mirror at the head of the chain, which leads to the page's. -/
def Behind (s : Page) : Prop :=
  ∃ m, Lag s.idb s.failed m ∧ Queued update m s.chain s.mirror

section Steps

variable {s s' : Page} {l : PageStep} {m m' : Disk} {chain : List Entry}

theorem Queued.call (h : Queued update m chain m') {c : StorageCall}
    (hclaim : (docRow (act c m').1).claimed update ⊆ (act c m').1.stored) (hfold : Folds m' c) :
    Queued update m (chain ++ [.tx (enqueued c m')]) (act c m').1 := by
  induction chain generalizing m with
  | nil =>
    obtain rfl := h
    exact ⟨c, rfl, hclaim, hfold, rfl⟩
  | cons e rest ih =>
    cases e with
    | tx writes =>
      obtain ⟨d, hd, hclaim', hfold', hrest⟩ := h
      exact ⟨d, hd, hclaim', hfold', ih hrest⟩
    | notice seq => exact ⟨h.1, ih h.2⟩

theorem Queued.notice (h : Queued update m chain m') {seq : ℕ}
    (hseq : ackedOps update seq ⊆ m'.stored) :
    Queued update m (chain ++ [.notice seq]) m' := by
  induction chain generalizing m with
  | nil =>
    obtain rfl := h
    exact ⟨hseq, rfl⟩
  | cons e rest ih =>
    cases e with
    | tx writes =>
      obtain ⟨d, hd, hclaim, hfold, hrest⟩ := h
      exact ⟨d, hd, hclaim, hfold, ih hrest⟩
    | notice seq => exact ⟨h.1, ih h.2⟩

theorem behind_step (h : Behind update s) (hok : Honest update s l) (hs : s.step l = some s') :
    Behind update s' := by
  obtain ⟨m, hlag, hq⟩ := h
  cases l with
  | call c =>
    rw [← Option.some.inj hs]
    exact ⟨m, hlag, hq.call hok.1 hok.2⟩
  | durable seq =>
    rw [← Option.some.inj hs]
    exact ⟨m, hlag, hq.notice hok⟩
  | settle commits =>
    rw [Page.step] at hs
    split at hs
    · exact absurd hs (by simp)
    · rename_i seq rest hchain
      rw [hchain] at hq
      rw [← Option.some.inj hs]
      exact ⟨m, hlag, hq.2⟩
    · rename_i writes rest hchain
      rw [hchain] at hq
      obtain ⟨c, rfl, _, hfold, hrest⟩ := hq
      rw [← Option.some.inj hs]
      split
      · exact ⟨_, hlag.commit hfold, hrest⟩
      · exact ⟨_, hlag.fail hfold, hrest⟩
  | reload =>
    rw [← Option.some.inj hs]
    exact ⟨_, hlag.load, rfl⟩

/-- What is claimed of a set and its failures holds of the set if it holds of the failures. -/
theorem subset_iff_failed {claim stored failed : Finset OpId} (h : claim ⊆ stored ∪ failed) :
    claim ⊆ stored ↔ failed ∩ claim ⊆ stored := by
  refine ⟨Finset.inter_subset_right.trans, fun hfailed o ho => ?_⟩
  rcases Finset.mem_union.1 (h ho) with hin | hin
  · exact hin
  · exact hfailed (Finset.mem_inter.2 ⟨hin, ho⟩)

/-- A `docs` row that commits is backed exactly where it claims nothing that failed. -/
theorem durable_commit {c : StorageCall} {rest : List Entry} (hlag : Lag s.idb s.failed m)
    (hclaim : (docRow (act c m).1).claimed update ⊆ (act c m).1.stored) (hfold : Folds m c)
    (hd : Durable update s) :
    Durable update { s with chain := rest, idb := s.idb.commit (enqueued c m) } ↔
      s.failed ∩ claimed update (enqueued c m) ⊆ s.idb.stored ∪ carried (enqueued c m) := by
  have hstored := hlag.commit_stored hfold
  have hgrow : s.idb.stored ⊆ (s.idb.commit (enqueued c m)).stored :=
    hstored ▸ Finset.subset_union_left
  have htold : ∀ n ∈ s.told, ackedOps update n ⊆ (s.idb.commit (enqueued c m)).stored :=
    fun n hn => (hd.told n hn).trans hgrow
  have hqueued : ∀ d, .putDoc d ∈ enqueued c m → d = docRow (act c m).1 :=
    fun d hd => putDoc_mem_enqueued hd
  obtain ⟨hin, hout⟩ := claimed_eq update hqueued
  rw [← hstored]
  obtain ⟨hmem, hdocs⟩ | ⟨hmem, hdocs⟩ := commit_docs hqueued s.idb
  · rw [hin hmem, ← subset_iff_failed (hclaim.trans (hlag.commit hfold).held), ← hdocs]
    exact ⟨fun h => h.docs, fun h => ⟨htold, h⟩⟩
  · rw [hout hmem, Finset.inter_empty]
    refine ⟨fun _ => Finset.empty_subset _, fun _ => ⟨htold, ?_⟩⟩
    show (s.idb.commit (enqueued c m)).docs.claimed update ⊆ _
    rw [hdocs]
    exact hd.docs.trans hgrow

/-- A notice that fires is backed exactly where it claims nothing that failed. -/
theorem durable_notice {seq : ℕ} {rest : List Entry} (hlag : Lag s.idb s.failed m)
    (hclaim : ackedOps update seq ⊆ m.stored) (hd : Durable update s) :
    Durable update { s with chain := rest, told := s.told ++ [seq] } ↔
      s.failed ∩ ackedOps update seq ⊆ s.idb.stored := by
  rw [← subset_iff_failed (hclaim.trans hlag.held)]
  refine ⟨fun h => h.told seq (by simp), fun h => ⟨fun n hn => ?_, hd.docs⟩⟩
  rcases List.mem_append.1 hn with hn | hn
  · exact hd.told n hn
  · exact List.mem_singleton.1 hn ▸ h

/-- **A settlement keeps the page durable exactly where it repairs.** -/
theorem durable_settle {commits : Bool} (hb : Behind update s) (hd : Durable update s)
    (hs : s.step (.settle commits) = some s') :
    Durable update s' ↔ Repaired update s (.settle commits) := by
  obtain ⟨m, hlag, hq⟩ := hb
  rw [Page.step] at hs
  split at hs
  · exact absurd hs (by simp)
  · rename_i seq rest hchain
    rw [hchain] at hq
    rw [← Option.some.inj hs, durable_notice hlag hq.1 hd]
    simp [Repaired, hchain, Entry.takesEffect, Entry.claimed, Entry.carried]
  · rename_i writes rest hchain
    rw [hchain] at hq
    obtain ⟨c, rfl, hclaim, hfold, _⟩ := hq
    rw [← Option.some.inj hs]
    cases commits with
    | false =>
      have hfails : Repaired update s (.settle false) := by
        simp [Repaired, hchain, Entry.takesEffect]
      exact ⟨fun _ => hfails, fun _ => ⟨hd.told, hd.docs⟩⟩
    | true =>
      rw [if_pos rfl, durable_commit hlag hclaim hfold hd]
      simp [Repaired, hchain, Entry.takesEffect, Entry.claimed, Entry.carried]

end Steps

/-! ## Every run -/

section Runs

variable {s : Page}

theorem behind_of_reach (hr : paging.Reach (Honest update) s) : Behind update s := by
  apply hr.invariant
  · rintro s rfl
    have hrows : SameRows Idb.empty.ops Idb.empty.ops := fun _ hr => absurd hr List.not_mem_nil
    exact ⟨Idb.empty.load, ⟨Finset.subset_union_left, Finset.Subset.refl _, keysTo_load _,
      keysTo_load _, hrows, hrows⟩, rfl⟩
  · exact fun _ _ _ _ hb hok hs => behind_step hb hok hs

/-- **The browser vouches for what it has stored, as long as no failure is passed over.**  In
every run of calls that claim what they have handed over, whatever transactions fail: as long as
no `docs` row commits and no notice fires over operations of a failed transaction that are not
stored since, every update up to a seq reported durable or in the `docs` row, and every operation
of the vector in it, is in the stored snapshot or the WAL rows; and the first settlement that does
so breaks this. -/
theorem durable_of_repaired
    (hr : paging.Reach (fun s l => Honest update s l ∧ Repaired update s l) s) :
    Durable update s ∧ ∀ commits s', s.step (.settle commits) = some s' →
      (Durable update s' ↔ Repaired update s (.settle commits)) := by
  have hbehind := behind_of_reach (hr.mono fun _ _ h => h.1)
  have hdurable : Durable update s := by
    apply hr.invariant
    · rintro s rfl
      exact ⟨fun n hn => absurd hn List.not_mem_nil, Finset.empty_subset _⟩
    · intro s l s' hr hd hok hs
      cases l with
      | settle commits =>
        exact (durable_settle (behind_of_reach (hr.mono fun _ _ h => h.1)) hd hs).2 hok.2
      | _ =>
        rw [← Option.some.inj hs]
        exact ⟨hd.told, hd.docs⟩
  exact ⟨hdurable, fun _ _ hs => durable_settle hbehind hdurable hs⟩

end Runs

/-! ## An append that fails -/

instance (m : Disk) (c : StorageCall) : Decidable (Folds m c) :=
  match c with
  | .writeSnapshot _ _ => inferInstanceAs (Decidable ((_ : Finset OpId) ⊆ _))
  | .appendLocalWal _ | .appendRemoteWal _ _ _ | .writeAckedSeq _ | .writeServerKnownVv _
  | .putInFlightPush _ | .completePush _ _ => .isTrue trivial

instance (s : Page) (l : PageStep) : Decidable (Honest update s l) :=
  match l with
  | .call _ => inferInstanceAs (Decidable (_ ∧ _))
  | .durable _ => inferInstanceAs (Decidable ((_ : Finset OpId) ⊆ _))
  | .settle _ | .reload => .isTrue trivial

instance (s : Page) (l : PageStep) : Decidable (Repaired update s l) :=
  match l with
  | .settle _ => inferInstanceAs (Decidable (∀ e ∈ s.chain.head?, _ → _))
  | .call _ | .durable _ | .reload => .isTrue trivial

/-- Row `n + 1` of the server is operation `n` of one device. -/
def oneEach (n : ℕ) : Finset OpId := {⟨1, n - 1⟩}

/-- The first `n` rows, as one blob. -/
def rowsBlob (n : ℕ) : Blob := ⟨some (.updates ((Finset.Icc 1 n).biUnion oneEach)), 0⟩

/-- The append of row `n`, with the vector of the rows up to it. -/
def appendRow (n : ℕ) : PageStep :=
  .call (.appendRemoteWal n ⟨some (.updates (oneEach n)), 0⟩ (.upTo (oneEach n)))

/-- The first append fails; the second commits and is reported durable. -/
def passedOver : List PageStep :=
  [appendRow 1, .settle false, appendRow 2, .durable 2, .settle true, .settle true]

/-- **A failed append is passed over.**  The transaction of row `1` fails and that of row `2`
commits with the vector of both: the `docs` row claims the operation of row `1`, and the engine is
told that `2` is durable, while nothing stored has it. -/
theorem cursor_past_lost_row :
    ∃ s, paging.Reach (Honest oneEach) s ∧ 2 ∈ s.told ∧
      (⟨1, 0⟩ : OpId) ∈ oneEach 1 ∧ (⟨1, 0⟩ : OpId) ∈ s.idb.docs.serverKnownVv.ids ∧
      (⟨1, 0⟩ : OpId) ∉ s.idb.stored := by
  have hrun : ((paging.exec .fresh passedOver).map fun s =>
      decide (2 ∈ s.told) && decide ((⟨1, 0⟩ : OpId) ∈ s.idb.docs.serverKnownVv.ids) &&
        decide ((⟨1, 0⟩ : OpId) ∉ s.idb.stored)) = some true := by
    decide
  have hok : paging.allStepsb (fun s l => decide (Honest oneEach s l)) .fresh passedOver = true := by
    decide
  obtain ⟨s, hs, hfacts⟩ := Option.map_eq_some_iff.1 hrun
  simp only [Bool.and_eq_true, decide_eq_true_eq] at hfacts
  refine ⟨s, ?_, hfacts.1.1, by decide, hfacts.1.2, hfacts.2⟩
  exact Machine.Reach.exec (.init rfl)
    (Machine.allSteps_of_allStepsb (fun _ _ h => of_decide_eq_true h) hok) hs

/-- A fold brings back what a failed append lost, before the next one commits. -/
def folded : List PageStep :=
  [appendRow 1, .settle false, .call (.writeSnapshot 1 (rowsBlob 1)), .settle true, appendRow 2,
    .durable 2, .settle true, .settle true]

/-- A page that folds after the failure ends durable at row `2`. -/
theorem durable_of_repaired_folded :
    ∃ s, 2 ∈ s.told ∧ s.failed ≠ ∅ ∧ Durable oneEach s := by
  have hrun : ((paging.exec .fresh folded).map fun s =>
      decide (2 ∈ s.told) && decide (s.failed ≠ ∅)) = some true := by
    decide
  have hok : paging.allStepsb
      (fun s l => decide (Honest oneEach s l ∧ Repaired oneEach s l)) .fresh folded = true := by
    decide
  obtain ⟨s, hs, hfacts⟩ := Option.map_eq_some_iff.1 hrun
  simp only [Bool.and_eq_true, decide_eq_true_eq] at hfacts
  refine ⟨s, hfacts.1, hfacts.2, (durable_of_repaired ?_).1⟩
  exact Machine.Reach.exec (.init rfl)
    (Machine.allSteps_of_allStepsb (fun _ _ h => of_decide_eq_true h) hok) hs

end Monoplan.Web
