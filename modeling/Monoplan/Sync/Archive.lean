import Monoplan.Base.Machine
import Monoplan.Client.Engine
import Monoplan.Server.Chain

/-!
# Snapshots and the rows they stand for

A new device gets the history as a chain of snapshots and whatever rows are left above it, and
the rows below are compacted away.  So a chain has to hold exactly what the rows up to its end
held: nothing missing, and nothing of its producers' that they had not sent yet.

`Archive` is the server's tables with the history of the rows, and the uploads its producers have
sent.  A producer answers a `SnapshotRequest` at the version it knows the server to have; its blob
is *produced for its stamped range* when that version is the one of the rows up to its cursor
(`Stamped`).

* `chain_correct`: the stored rows form a line, whatever is uploaded; the chain served is the last
  full snapshot with the deltas after it; and where every stored upload was produced for its
  range, importing the chain gives the operations of the rows up to its end.
-/

namespace Monoplan.Sync

open Monoplan.Base Monoplan.Protocol Monoplan.Server
open Monoplan.Client (Blob Doc Engine History OpId VersionVector)

/-! ## The operations of the rows -/

/-- The operations of the rows up to a seq; a row that does not open has none. -/
def opsUpTo (rows : List (StoredBlob Blob)) (n : ℕ) : Finset OpId :=
  match rows with
  | [] => ∅
  | r :: rs => (if r.seq ≤ n then r.blob.ops.getD ∅ else ∅) ∪ opsUpTo rs n

variable {rows rows' : List (StoredBlob Blob)} {m n : ℕ}

theorem mem_opsUpTo {o : OpId} :
    o ∈ opsUpTo rows n ↔ ∃ r ∈ rows, r.seq ≤ n ∧ o ∈ r.blob.ops.getD ∅ := by
  induction rows with
  | nil => simp [opsUpTo]
  | cons r rs ih =>
    rw [opsUpTo, Finset.mem_union, ih]
    simp only [List.mem_cons, exists_eq_or_imp]
    split
    · rename_i h
      simp [h]
    · rename_i h
      simp [h]

theorem opsUpTo_mono (h : m ≤ n) : opsUpTo rows m ⊆ opsUpTo rows n := by
  intro o ho
  obtain ⟨r, hr, hle, hmem⟩ := mem_opsUpTo.1 ho
  exact mem_opsUpTo.2 ⟨r, hr, hle.trans h, hmem⟩

/-- Rows above a seq do not change what is up to it. -/
theorem opsUpTo_append (h : ∀ r ∈ rows', n < r.seq) :
    opsUpTo (rows ++ rows') n = opsUpTo rows n := by
  ext o
  rw [mem_opsUpTo, mem_opsUpTo]
  constructor
  · rintro ⟨r, hr, hle, hmem⟩
    rcases List.mem_append.1 hr with hr | hr
    · exact ⟨r, hr, hle, hmem⟩
    · have := h r hr
      omega
  · rintro ⟨r, hr, hle, hmem⟩
    exact ⟨r, List.mem_append_left _ hr, hle, hmem⟩

/-! ## The archive -/

/-- The tables, every row ever inserted into them, and the uploads producers have sent. -/
structure Archive where
  db : Db Blob
  ever : List (StoredBlob Blob)
  offered : List (SnapshotUpload Blob)

inductive ArchiveStep
  /-- `insert_updates`. -/
  | push (device : DeviceId) (us : List (PushBlob Blob))
  /-- An engine answers a `SnapshotRequest` with an upload. -/
  | produce (e : Engine) (ask : SnapshotAsk Blob) (upload : SnapshotUpload Blob)
  /-- `insert_snapshot`. -/
  | insert (upload : SnapshotUpload Blob)
  /-- `compact_doc`. -/
  | compact

variable (H : History)

namespace Archive

def step (a : Archive) : ArchiveStep → Option Archive
  | .push device us =>
    let r := a.db.insertUpdates device us
    some { a with db := r.1, ever := a.ever ++ r.2.fresh }
  | .produce e ask upload =>
    if e.snapshotRequest H ask = e.send (.pushSnapshot upload) then
      some { a with offered := a.offered ++ [upload] }
    else none
  | .insert upload =>
    match a.db.insertSnapshot upload with
    | some db => some { a with db := db }
    | none => some a
  | .compact => some { a with db := a.db.compactDoc }

/-- No row and no snapshot yet. -/
def Fresh (a : Archive) : Prop :=
  a.db.updates.rows = [] ∧ a.db.snapshots = [] ∧ a.ever = [] ∧ a.offered = []

end Archive

/-- Pushes, uploads and compactions in every order. -/
def archiving : Machine Archive ArchiveStep := ⟨Archive.Fresh, Archive.step H⟩

/-- The version an engine knows the server to have is the one of the rows up to its cursor, and
it holds what it knows. -/
structure Stamped (a : Archive) (e : Engine) : Prop where
  within : e.lastContiguousSeq < a.db.updates.nextSeq
  rows : e.serverKnownVv.ids = opsUpTo a.ever e.lastContiguousSeq
  version : ∀ o ∈ e.serverKnownVv.ids, H.past o ⊆ e.serverKnownVv.ids
  holds : e.serverKnownVv.ids ⊆ e.doc.oplog H

/-- A request carries the vector of a stored row. -/
def HasBase (a : Archive) (ask : SnapshotAsk Blob) : Prop :=
  ∀ b ∈ ask.base, ∃ r ∈ a.db.snapshots, r.upToSeq = b.seq ∧ r.upToVv = b.vv

/-- Every upload is produced for its stamped range, and only such uploads are inserted. -/
def Produced (a : Archive) : ArchiveStep → Prop
  | .produce e ask _ => Stamped H a e ∧ HasBase a ask
  | .insert upload => upload ∈ a.offered
  | _ => True

/-! ## The line of rows -/

section Line

variable {H} {a a' : Archive} {l : ArchiveStep}

theorem insertUpdates_snapshots (db : Db Blob) (device : DeviceId) (us : List (PushBlob Blob)) :
    (db.insertUpdates device us).1.snapshots = db.snapshots := by
  rw [Db.insertUpdates_frame]

theorem compactDoc_snapshots (db : Db Blob) : db.compactDoc.snapshots = db.snapshots := by
  unfold Db.compactDoc
  split <;> rfl

theorem compactDoc_nextSeq (db : Db Blob) : db.compactDoc.updates.nextSeq = db.updates.nextSeq := by
  unfold Db.compactDoc
  split <;> rfl

theorem linear_step (h : Linear a.db.snapshots) (hs : a.step H l = some a') :
    Linear a'.db.snapshots := by
  cases l with
  | push device us =>
    rw [← Option.some.inj hs]
    show Linear (a.db.insertUpdates device us).1.snapshots
    rwa [insertUpdates_snapshots]
  | produce e ask upload =>
    rw [Archive.step] at hs
    split at hs
    · rw [← Option.some.inj hs]
      exact h
    · exact absurd hs (by simp)
  | insert upload =>
    rw [Archive.step] at hs
    split at hs
    · rename_i db hdb
      rw [← Option.some.inj hs]
      exact h.insert hdb
    · rw [← Option.some.inj hs]
      exact h
  | compact =>
    rw [← Option.some.inj hs]
    show Linear a.db.compactDoc.snapshots
    rwa [compactDoc_snapshots]

/-- The rows form a line, whatever is uploaded. -/
theorem linear_of_reach {ok : Archive → ArchiveStep → Prop} (hr : (archiving H).Reach ok a) :
    Linear a.db.snapshots := by
  apply hr.invariant
  · intro a h0
    rw [h0.2.1]
    exact linear_nil
  · exact fun _ _ _ _ hi _ hs => linear_step hi hs

end Line

/-! ## What an upload holds -/

/-- The operations below a delta. -/
def opsBelow (rows : List (StoredBlob Blob)) (fromSeq : Option ℕ) : Finset OpId :=
  fromSeq.elim ∅ (opsUpTo rows)

/-- An upload holds exactly the operations of its range, and its vector those up to its end. -/
structure Exact (a : Archive) (upToSeq : ℕ) (fromSeq : Option ℕ) (upToVv blob : Blob) : Prop where
  within : upToSeq < a.db.updates.nextSeq
  base : ∀ n ∈ fromSeq, n < a.db.updates.nextSeq
  vv : ∃ v, upToVv.openVv = some v ∧ v.ids = opsUpTo a.ever upToSeq
  version : ∀ o ∈ opsUpTo a.ever upToSeq, H.past o ⊆ opsUpTo a.ever upToSeq
  body : blob.ops = some (opsUpTo a.ever upToSeq \ opsBelow a.ever fromSeq)

variable {H} {a a' : Archive} {l : ArchiveStep}

/-- Rows that come later do not change what an upload stands for. -/
theorem Exact.later {upToSeq : ℕ} {fromSeq : Option ℕ} {upToVv blob : Blob}
    (h : Exact H a upToSeq fromSeq upToVv blob) {fresh : List (StoredBlob Blob)}
    (hever : a'.ever = a.ever ++ fresh) (hfresh : ∀ r ∈ fresh, a.db.updates.nextSeq ≤ r.seq)
    (hnext : a.db.updates.nextSeq ≤ a'.db.updates.nextSeq) :
    Exact H a' upToSeq fromSeq upToVv blob := by
  have hkeep : ∀ n < a.db.updates.nextSeq, opsUpTo a'.ever n = opsUpTo a.ever n := by
    intro n hn
    rw [hever]
    exact opsUpTo_append fun r hr => hn.trans_le (hfresh r hr)
  have hbelow : opsBelow a'.ever fromSeq = opsBelow a.ever fromSeq := by
    cases hf : fromSeq with
    | none => rfl
    | some n => exact hkeep n (h.base n hf)
  have hto := hkeep upToSeq h.within
  refine ⟨h.within.trans_le hnext, fun n hn => (h.base n hn).trans_le hnext, ?_, ?_, ?_⟩
  · rw [hto]
    exact h.vv
  · rw [hto]
    exact h.version
  · rw [hto, hbelow]
    exact h.body

/-- What is sent is what was produced. -/
theorem snapshotRequest_eq_send {e : Engine} {ask : SnapshotAsk Blob}
    {u : SnapshotUpload Blob} (h : e.snapshotRequest H ask = e.send (.pushSnapshot u)) :
    ∃ blob, e.produce H ask.base = .ok blob ∧
      u = ⟨e.lastContiguousSeq, ask.compactionFloorSeq, ask.base.map SnapshotBase.seq,
        H.seal (.vv e.serverKnownVv), blob⟩ := by
  have hout := congrArg Engine.outbox h
  unfold Engine.snapshotRequest at hout
  split at hout
  · exact absurd (List.self_eq_append_right.1 hout) (by simp)
  · rename_i blob hblob
    have hframe := List.append_cancel_left hout
    refine ⟨blob, hblob, ?_⟩
    simpa [eq_comm] using hframe

/-- **A producer at a stamped range uploads exactly that range.** -/
theorem exact_of_produce {e : Engine} {ask : SnapshotAsk Blob} {u : SnapshotUpload Blob}
    (hst : Stamped H a e) (hbase : HasBase a ask)
    (hrows : ∀ r ∈ a.db.snapshots, Exact H a r.upToSeq r.fromSeq r.upToVv r.blob)
    (h : e.snapshotRequest H ask = e.send (.pushSnapshot u)) :
    Exact H a u.upToSeq u.fromSeq u.upToVv u.blob := by
  obtain ⟨blob, hblob, rfl⟩ := snapshotRequest_eq_send h
  have hknown : e.doc.oplog H ∩ e.serverKnownVv.ids = e.serverKnownVv.ids :=
    Finset.inter_eq_right.2 hst.holds
  refine ⟨hst.within, ?_, ⟨_, Client.openVv_seal H _, hst.rows⟩, hst.rows ▸ hst.version, ?_⟩
  · intro n hn
    obtain ⟨b, hb, rfl⟩ := Option.map_eq_some_iff.1 hn
    obtain ⟨r, hr, hseq, _⟩ := hbase b hb
    exact hseq ▸ (hrows r hr).within
  · cases hb : ask.base with
    | none =>
      rw [hb] at hblob
      have heq : e.doc.snapshotBlobAt H e.serverKnownVv = blob := Except.ok.inj hblob
      show blob.ops = some (_ \ ∅)
      rw [← heq, Doc.snapshotBlobAt, Client.ops_seal, hknown, hst.rows, Finset.sdiff_empty]
    | some b =>
      obtain ⟨r, hr, hseq, hvv⟩ := hbase b hb
      obtain ⟨v, hopen, hv⟩ := (hrows r hr).vv
      rw [hvv] at hopen
      rw [hseq] at hv
      rw [hb, Engine.produce] at hblob
      simp only [hopen, Doc.deltaBlobBetween] at hblob
      split at hblob
      · rename_i blob' hdelta
        split at hdelta
        · have heq : blob' = blob := Except.ok.inj hblob
          show blob.ops = some (_ \ opsUpTo a.ever b.seq)
          rw [← heq, ← Option.some.inj hdelta, Client.ops_seal, ← hv, ← hst.rows,
            Finset.inter_eq_right.2 (Finset.sdiff_subset.trans hst.holds)]
        · exact absurd hdelta (by simp)
      · exact absurd hblob (by simp)

/-- Every upload and every stored row is exact, and the rows ever inserted are numbered below the
counter. -/
structure ArchiveInv (H : History) (a : Archive) : Prop where
  stored : ∀ r ∈ a.db.snapshots, Exact H a r.upToSeq r.fromSeq r.upToVv r.blob
  offered : ∀ u ∈ a.offered, Exact H a u.upToSeq u.fromSeq u.upToVv u.blob

theorem archiveInv_step (hi : ArchiveInv H a) (hok : Produced H a l) (hs : a.step H l = some a') :
    ArchiveInv H a' := by
  cases l with
  | push device us =>
    have hfresh : ∀ r ∈ (a.db.insertUpdates device us).2.fresh, a.db.updates.nextSeq ≤ r.seq :=
      fun r hr => ((a.db.mem_fresh_iff device us r.seq).1 (List.mem_map_of_mem hr)).1
    have hnext := a.db.insertUpdates_nextSeq_le device us
    rw [← Option.some.inj hs]
    refine ⟨fun r hr => ?_, fun u hu => (hi.offered u hu).later rfl hfresh hnext⟩
    refine (hi.stored r ?_).later rfl hfresh hnext
    rwa [← insertUpdates_snapshots a.db device us]
  | produce e ask upload =>
    rw [Archive.step] at hs
    split at hs
    · rename_i hsend
      have hnew := exact_of_produce hok.1 hok.2 hi.stored hsend
      have hsame : ∀ r ∈ ([] : List (StoredBlob Blob)), a.db.updates.nextSeq ≤ r.seq := by simp
      rw [← Option.some.inj hs]
      refine ⟨fun r hr => (hi.stored r hr).later (by simp) hsame le_rfl, fun u hu => ?_⟩
      rcases List.mem_append.1 hu with hu | hu
      · exact (hi.offered u hu).later (by simp) hsame le_rfl
      · rw [List.mem_singleton.1 hu]
        exact hnew.later (by simp) hsame le_rfl
    · exact absurd hs (by simp)
  | insert upload =>
    rw [Archive.step] at hs
    have hsame : ∀ r ∈ ([] : List (StoredBlob Blob)), a.db.updates.nextSeq ≤ r.seq := by simp
    split at hs
    · rename_i db hdb
      obtain ⟨_, rfl⟩ := insertSnapshot_eq_some.1 hdb
      rw [← Option.some.inj hs]
      refine ⟨fun r hr => ?_, fun u hu => (hi.offered u hu).later (by simp) hsame le_rfl⟩
      rcases List.mem_append.1 hr with hr | hr
      · exact (hi.stored r hr).later (by simp) hsame le_rfl
      · rw [List.mem_singleton.1 hr]
        exact (hi.offered upload hok).later (by simp) hsame le_rfl
    · rw [← Option.some.inj hs]
      exact hi
  | compact =>
    have hsame : ∀ r ∈ ([] : List (StoredBlob Blob)), a.db.updates.nextSeq ≤ r.seq := by simp
    have hnext := (compactDoc_nextSeq a.db).ge
    rw [← Option.some.inj hs]
    refine ⟨fun r hr => ?_, fun u hu => (hi.offered u hu).later (by simp) hsame hnext⟩
    refine (hi.stored r ?_).later (by simp) hsame hnext
    rwa [← compactDoc_snapshots a.db]

theorem archiveInv (hr : (archiving H).Reach (Produced H) a) : ArchiveInv H a := by
  apply hr.invariant
  · intro a h0
    refine ⟨fun r hr => ?_, fun u hu => ?_⟩
    · rw [h0.2.1] at hr
      exact absurd hr (by simp)
    · rw [h0.2.2.2] at hu
      exact absurd hu (by simp)
  · exact fun _ _ _ _ hi hok hs => archiveInv_step hi hok hs

/-! ## Importing a chain -/

/-- One blob of a batch imports, then the rest. -/
theorem applyRemoteBatch_cons {d : Doc} {b : Blob} {bs : List Blob} {ops : Finset OpId}
    (hops : b.ops = some ops) {d' : Doc} {vv : VersionVector}
    (hrest : Doc.applyRemoteBatch ⟨d.received ∪ ops, d.lastPersistedVv.merge (.upTo ops)⟩ bs =
      (d', some vv)) :
    d.applyRemoteBatch (b :: bs) = (d', some ((VersionVector.upTo ops).merge vv)) := by
  simp only [Doc.applyRemoteBatch, Doc.importRemoteBlob, hops, hrest, Option.map_some]

/-- Each delta adds what its range adds. -/
theorem import_deltas {r : SnapshotRow Blob} {deltas : List (SnapshotRow Blob)} {d : Doc}
    (hlinks : (r :: deltas).IsChain Follows) (hdeltas : ∀ s ∈ deltas, s.fromSeq ≠ none)
    (hexact : ∀ s ∈ deltas, Exact H a s.upToSeq s.fromSeq s.upToVv s.blob)
    (hd : d.received = opsUpTo a.ever r.upToSeq) :
    ∃ d' vv, d.applyRemoteBatch (deltas.map SnapshotRow.blob) = (d', some vv) ∧
      ∀ last, (r :: deltas).getLast? = some last → d'.received = opsUpTo a.ever last.upToSeq := by
  induction deltas generalizing r d with
  | nil => exact ⟨d, .new, rfl, fun last hlast => Option.some.inj hlast ▸ hd⟩
  | cons s rest ih =>
    obtain ⟨hlink, hrest⟩ := List.isChain_cons_cons.1 hlinks
    obtain ⟨hfrom, hle⟩ := hlink.resolve_left (hdeltas s (List.mem_cons_self ..))
    have hbody := (hexact s (List.mem_cons_self ..)).body
    rw [hfrom] at hbody
    have hunion : d.received ∪ (opsUpTo a.ever s.upToSeq \ opsUpTo a.ever r.upToSeq) =
        opsUpTo a.ever s.upToSeq := by
      rw [hd]
      exact Finset.union_sdiff_of_subset (opsUpTo_mono hle)
    let added := opsUpTo a.ever s.upToSeq \ opsUpTo a.ever r.upToSeq
    obtain ⟨d', vv, himp, hlast⟩ := ih
      (d := ⟨d.received ∪ added, d.lastPersistedVv.merge (.upTo added)⟩) hrest
      (fun t ht => hdeltas t (List.mem_cons_of_mem _ ht))
      (fun t ht => hexact t (List.mem_cons_of_mem _ ht)) hunion
    refine ⟨d', _, applyRemoteBatch_cons hbody himp, fun last hl => hlast last ?_⟩
    rwa [List.getLast?_cons_cons] at hl

/-- A set of operations that holds their past is applied whole. -/
theorem oplog_eq_received {d : Doc} (h : ∀ o ∈ d.received, H.past o ⊆ d.received) :
    d.oplog H = d.received :=
  Finset.filter_true_of_mem h

/-- **Snapshot chains are correct.**  Whatever is uploaded and compacted, the stored rows form a
line, and the chain served is the last full snapshot with exactly the deltas linked after it, in
order.  Where every stored upload was produced for its stamped range, importing the chain into an
empty document receives exactly the operations of the rows up to its end, and applies them
all. -/
theorem chain_correct (hr : (archiving H).Reachable a) :
    Linear a.db.snapshots ∧
    ((a.db.snapshots = [] ∧ a.db.snapshotChain = []) ∨
      ∃ before full deltas, a.db.snapshots = before ++ full :: deltas ∧ full.fromSeq = none ∧
        (∀ r ∈ deltas, r.fromSeq ≠ none) ∧ (full :: deltas).IsChain Follows ∧
        a.db.snapshotChain = full :: deltas) ∧
    ((archiving H).Reach (Produced H) a → ∀ last, a.db.snapshotChain.getLast? = some last →
      ∃ d vv, Doc.empty.applyRemoteBatch (a.db.snapshotChain.map SnapshotRow.blob) = (d, some vv) ∧
        d.received = opsUpTo a.ever last.upToSeq ∧ d.oplog H = opsUpTo a.ever last.upToSeq) := by
  have hline := linear_of_reach hr
  refine ⟨hline, snapshotChain_spec hline, fun hp last hlast => ?_⟩
  have hinv := archiveInv hp
  obtain ⟨_, hnil⟩ | ⟨before, full, deltas, hrows, hfull, hdeltas, hlinks, hchain⟩ :=
    snapshotChain_spec hline
  · rw [hnil] at hlast
    exact absurd hlast (by simp)
  · have hstored : ∀ r ∈ full :: deltas, Exact H a r.upToSeq r.fromSeq r.upToVv r.blob :=
      fun r hr => hinv.stored r (by rw [hrows]; exact List.mem_append_right _ hr)
    have hhead := (hstored full (List.mem_cons_self ..)).body
    rw [hfull] at hhead
    rw [hchain] at hlast ⊢
    obtain ⟨d, vv, himp, hd⟩ := import_deltas hlinks hdeltas
      (fun r hr => hstored r (List.mem_cons_of_mem _ hr))
      (d := ⟨Doc.empty.received ∪ (opsUpTo a.ever full.upToSeq \ ∅), _⟩)
      (by simp [Doc.empty])
    have hreceived := hd last hlast
    have hversion := (hstored last (List.mem_of_getLast? hlast)).version
    refine ⟨d, _, applyRemoteBatch_cons hhead himp, hreceived, ?_⟩
    rw [oplog_eq_received (by rw [hreceived]; exact hversion), hreceived]

/-! ## A chain of two -/

variable (H) in
/-- The test of `Produced` a run is checked with. -/
def producedb (a : Archive) : ArchiveStep → Bool
  | .produce e ask _ =>
    decide (e.lastContiguousSeq < a.db.updates.nextSeq) &&
    decide (e.serverKnownVv.ids = opsUpTo a.ever e.lastContiguousSeq) &&
    decide (∀ o ∈ e.serverKnownVv.ids, H.past o ⊆ e.serverKnownVv.ids) &&
    decide (e.serverKnownVv.ids ⊆ e.doc.oplog H) &&
    ask.base.all fun b =>
      decide (∃ r ∈ a.db.snapshots, r.upToSeq = b.seq ∧ r.upToVv = b.vv)
  | .insert upload => decide (upload ∈ a.offered)
  | _ => true

variable (H) in
theorem producedb_sound (a : Archive) (l : ArchiveStep) (h : producedb H a l = true) :
    Produced H a l := by
  cases l with
  | push device us => trivial
  | produce e ask upload =>
    simp only [producedb, Bool.and_eq_true, decide_eq_true_eq, Option.all_eq_true] at h
    obtain ⟨⟨⟨⟨hwithin, hrows⟩, hversion⟩, hholds⟩, hbase⟩ := h
    exact ⟨⟨hwithin, hrows, hversion, hholds⟩, hbase⟩
  | insert upload =>
    have hmem : upload ∈ a.offered := of_decide_eq_true h
    exact hmem
  | compact => trivial

/-- An archive of one device. -/
def Archive.empty : Archive where
  db := ⟨.empty, 1, [], fun _ => none, [0], [⟨0, 0⟩]⟩
  ever := []
  offered := []

/-- Operation `n` of the device that pushes. -/
def pushedOp (n : ℕ) : OpId := ⟨1, n⟩

/-- A producer that knows the first `n` rows and has an operation of its own that is not sent. -/
def producer (n : ℕ) : Engine :=
  let known := (Finset.range n).image pushedOp
  { Engine.new ⟨insert ⟨2, 0⟩ known, .new⟩ n with serverKnownVv := .upTo known }

/-- The row with operation `n`. -/
def pushOp (n : ℕ) : ArchiveStep :=
  .push 0 [⟨n, History.byPeer.seal (.updates {pushedOp n})⟩]

/-- The vector of the first `n` rows, sealed. -/
def knownVv (n : ℕ) : Blob := History.byPeer.seal (.vv (producer n).serverKnownVv)

/-- The full snapshot at row `1` and the delta from there to row `2`. -/
def fullUpload : SnapshotUpload Blob :=
  ⟨1, 0, none, knownVv 1, History.byPeer.seal (.updates {pushedOp 0})⟩

def deltaUpload : SnapshotUpload Blob :=
  ⟨2, 1, some 1, knownVv 2, History.byPeer.seal (.updates {pushedOp 1})⟩

/-- Two rows, a snapshot after each, and the first row compacted. -/
def chainRun : List ArchiveStep :=
  [pushOp 0, .produce (producer 1) ⟨1, 0, none⟩ fullUpload, .insert fullUpload, pushOp 1,
    .produce (producer 2) ⟨2, 1, some ⟨1, knownVv 1⟩⟩ deltaUpload, .insert deltaUpload, .compact]

/-- The chain of `chainRun` imports to both operations and not the producer's own. -/
theorem chain_correct_chainRun :
    ∃ a : Archive, (archiving History.byPeer).Reachable a ∧
      a.db.snapshotChain.map SnapshotRow.upToSeq = [1, 2] ∧
      ∃ d vv, Doc.empty.applyRemoteBatch (a.db.snapshotChain.map SnapshotRow.blob) =
          (d, some vv) ∧ d.oplog History.byPeer = opsUpTo a.ever 2 := by
  have hrun : ((archiving History.byPeer).exec .empty chainRun).map
      (fun a => a.db.snapshotChain.map SnapshotRow.upToSeq) = some [1, 2] := by
    decide
  have hok : (archiving History.byPeer).allStepsb (producedb History.byPeer) .empty chainRun =
      true := by
    decide
  obtain ⟨a, hs, hseqs⟩ := Option.map_eq_some_iff.1 hrun
  have hreach : (archiving History.byPeer).Reach (Produced History.byPeer) a :=
    Machine.Reach.exec (.init ⟨rfl, rfl, rfl, rfl⟩)
      (Machine.allSteps_of_allStepsb (producedb_sound History.byPeer) hok) hs
  have hlast : (a.db.snapshotChain.map SnapshotRow.upToSeq).getLast? = some 2 := by
    rw [hseqs]
    rfl
  rw [List.getLast?_map] at hlast
  obtain ⟨last, hl, hseq⟩ := Option.map_eq_some_iff.1 hlast
  obtain ⟨d, vv, himp, _, hd⟩ := (chain_correct hreach.reachable).2.2 hreach last hl
  exact ⟨a, hreach.reachable, hseqs, d, vv, himp, hseq ▸ hd⟩

end Monoplan.Sync
