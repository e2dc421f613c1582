import Mathlib.Data.Finset.Union
import Mathlib.Data.Finset.Card
import Monoplan.Protocol.Frames

/-!
# A replica of the document, as a set of operations

What the sync engine sees of the CRDT document: which operations it holds, which of them it can
apply, and the encrypted blobs it exports and imports.  The engine never looks inside an
operation.

* A version vector is the set of the ids below it, so it is closed downwards on every peer
  (`VersionVector.down`).  Merging is union.
* An imported operation whose causal past is not there yet stays pending: `Doc.received` is all
  that was ever imported or committed, `Doc.oplog` the part of it that is applied.
* A blob opens to a set of operations or to a version vector, or does not open.
-/

namespace Monoplan.Client

/-! ## Operations and version vectors -/

/-- The id of an operation: its peer, and its number on that peer. -/
structure OpId where
  peer : ℕ
  counter : ℕ
  deriving DecidableEq

/-- A version vector, as the ids it covers. -/
structure VersionVector where
  ids : Finset OpId
  /-- What is covered is covered from the peer's first operation on. -/
  down : ∀ o ∈ ids, ∀ c < o.counter, (⟨o.peer, c⟩ : OpId) ∈ ids
  deriving DecidableEq

namespace VersionVector

/-- The empty vector. -/
def new : VersionVector := ⟨∅, by simp⟩

/-- The ids up to a given one on its peer. -/
def upToId (o : OpId) : Finset OpId :=
  (Finset.range (o.counter + 1)).image fun c => ⟨o.peer, c⟩

theorem mem_upToId {o q : OpId} : q ∈ upToId o ↔ q.peer = o.peer ∧ q.counter ≤ o.counter := by
  obtain ⟨p, c⟩ := q
  simp only [upToId, Finset.mem_image, Finset.mem_range, OpId.mk.injEq]
  constructor
  · rintro ⟨d, hd, rfl, rfl⟩
    exact ⟨rfl, by omega⟩
  · rintro ⟨rfl, hc⟩
    exact ⟨c, by omega, rfl, rfl⟩

/-- The smallest vector that covers a set of operations: each peer at its highest number. -/
def upTo (ops : Finset OpId) : VersionVector where
  ids := ops.biUnion upToId
  down := by
    intro o ho c hc
    obtain ⟨q, hq, ho⟩ := Finset.mem_biUnion.1 ho
    have h := mem_upToId.1 ho
    exact Finset.mem_biUnion.2 ⟨q, hq, mem_upToId.2 ⟨h.1, (Nat.le_of_lt hc).trans h.2⟩⟩

theorem mem_upTo {ops : Finset OpId} {q : OpId} :
    q ∈ (upTo ops).ids ↔ ∃ o ∈ ops, q.peer = o.peer ∧ q.counter ≤ o.counter := by
  simp only [upTo, Finset.mem_biUnion, mem_upToId]

theorem subset_upTo (ops : Finset OpId) : ops ⊆ (upTo ops).ids :=
  fun o ho => mem_upTo.2 ⟨o, ho, rfl, le_rfl⟩

/-- `merge`. -/
def merge (v w : VersionVector) : VersionVector where
  ids := v.ids ∪ w.ids
  down := by
    intro o ho c hc
    rcases Finset.mem_union.1 ho with ho | ho
    · exact Finset.mem_union_left _ (v.down o ho c hc)
    · exact Finset.mem_union_right _ (w.down o ho c hc)

/-- `includes_vv`. -/
def includesVv (v w : VersionVector) : Bool := decide (w.ids ⊆ v.ids)

@[simp] theorem new_ids : new.ids = ∅ := rfl
@[simp] theorem merge_ids (v w : VersionVector) : (v.merge w).ids = v.ids ∪ w.ids := rfl

@[simp] theorem includesVv_iff (v w : VersionVector) : v.includesVv w = true ↔ w.ids ⊆ v.ids := by
  simp [includesVv]

/-- A vector that covers a set of operations covers the smallest one that does. -/
theorem upTo_subset {ops : Finset OpId} {v : VersionVector} (h : ops ⊆ v.ids) :
    (upTo ops).ids ⊆ v.ids := by
  intro q hq
  obtain ⟨o, ho, hp, hc⟩ := mem_upTo.1 hq
  rcases Nat.lt_or_eq_of_le hc with hlt | heq
  · have := v.down o (h ho) q.counter hlt
    rwa [← hp] at this
  · have hqo : q = o := by
      cases q
      cases o
      simp_all
    exact hqo ▸ h ho

end VersionVector

/-! ## Causal history and sealed blobs -/

/-- What a blob holds once it is open. -/
inductive Plain
  /-- An export of updates, or of a snapshot: either way a set of operations. -/
  | updates (ops : Finset OpId)
  | vv (vv : VersionVector)
  deriving DecidableEq

/-- The operations of the world: each one's causal past, and how long its export is sealed. -/
structure History where
  past : OpId → Finset OpId
  trans : ∀ o, ∀ q ∈ past o, past q ⊆ past o
  /-- A peer's operations depend on its earlier ones. -/
  earlier : ∀ p c d, d < c → (⟨p, d⟩ : OpId) ∈ past ⟨p, c⟩
  sealedLen : Plain → ℕ

/-- The sparsest history: an operation depends on its peer's earlier ones alone. -/
def History.byPeer : History where
  past o := (Finset.range o.counter).image fun c => ⟨o.peer, c⟩
  trans := by
    intro o q hq r hr
    simp only [Finset.mem_image, Finset.mem_range] at hq hr ⊢
    obtain ⟨c, hc, rfl⟩ := hq
    obtain ⟨d, hd, rfl⟩ := hr
    exact ⟨d, hd.trans hc, rfl⟩
  earlier p c d hd := Finset.mem_image.2 ⟨d, Finset.mem_range.2 hd, rfl⟩
  sealedLen _ := 0

/-- `EncryptedBlob`, as the DEK of the document sees it: `none` does not open or decode. -/
structure Blob where
  content : Option Plain
  len : ℕ
  deriving DecidableEq

namespace Blob

/-- The operations of a blob that opens to updates. -/
def ops (b : Blob) : Option (Finset OpId) :=
  match b.content with
  | some (.updates ops) => some ops
  | _ => none

/-- `open_vv`. -/
def openVv (b : Blob) : Option VersionVector :=
  match b.content with
  | some (.vv v) => some v
  | _ => none

end Blob

variable (H : History)

/-- Seal under the DEK. -/
def History.seal (p : Plain) : Blob := ⟨some p, H.sealedLen p⟩

@[simp] theorem ops_seal (ops : Finset OpId) : (H.seal (.updates ops)).ops = some ops := rfl

@[simp] theorem openVv_seal (v : VersionVector) : (H.seal (.vv v)).openVv = some v := rfl

/-! ## The document -/

/-- The document as the engine uses it. -/
structure Doc where
  /-- Every operation imported or committed, applied or still pending. -/
  received : Finset OpId
  lastPersistedVv : VersionVector
  deriving DecidableEq

namespace Doc

/-- `Doc::empty`. -/
def empty : Doc := ⟨∅, .new⟩

variable (d : Doc)

/-- The applied operations: those whose causal past has arrived. -/
def oplog : Finset OpId := d.received.filter fun o => H.past o ⊆ d.received

/-- `oplog_vv`. -/
def oplogVv : VersionVector := .upTo (d.oplog H)

/-- `has_uncaptured_ops`. -/
def hasUncapturedOps : Bool := decide (d.oplogVv H ≠ d.lastPersistedVv)

/-- `ExportMode::updates(from)`: the applied operations outside a vector. -/
def updatesSince (from_ : VersionVector) : Finset OpId := d.oplog H \ from_.ids

/-- `pending_export`. -/
def pendingExport : Option Blob :=
  if d.hasUncapturedOps H then some (H.seal (.updates (d.updatesSince H d.lastPersistedVv)))
  else none

/-- `export_updates_since`. -/
def exportUpdatesSince (from_ : VersionVector) : Option Blob :=
  if from_.includesVv (d.oplogVv H) then none
  else some (H.seal (.updates (d.updatesSince H from_)))

/-- `snapshot_blob`: the whole applied history. -/
def snapshotBlob : Blob := H.seal (.updates (d.oplog H))

/-- `snapshot_blob_at`: the applied history up to a vector. -/
def snapshotBlobAt (vv : VersionVector) : Blob := H.seal (.updates (d.oplog H ∩ vv.ids))

/-- `delta_blob_between`: the applied operations in `to_` that are not in `from_`. -/
def deltaBlobBetween (from_ to_ : VersionVector) : Option Blob :=
  if to_.includesVv from_ then some (H.seal (.updates (d.oplog H ∩ (to_.ids \ from_.ids))))
  else none

/-- `mark_persisted_at`. -/
def markPersistedAt (vv : VersionVector) : Doc :=
  { d with lastPersistedVv := d.lastPersistedVv.merge vv }

/-- `mark_persisted`. -/
def markPersisted : Doc := d.markPersistedAt (d.oplogVv H)

/-- A local commit. -/
def commit (o : OpId) : Doc := { d with received := insert o d.received }

/-- `import_remote_blob`: the new document and the blob's declared range, or an error. -/
def importRemoteBlob (b : Blob) : Option (Doc × VersionVector) :=
  match b.ops with
  | none => none
  | some ops =>
    some (⟨d.received ∪ ops, d.lastPersistedVv.merge (.upTo ops)⟩, .upTo ops)

/-- `apply_remote_batch`: the union of the declared ranges, or an error with what was imported
before it. -/
def applyRemoteBatch (d : Doc) : List Blob → Doc × Option VersionVector
  | [] => (d, some .new)
  | b :: bs =>
    match d.importRemoteBlob b with
    | none => (d, none)
    | some (d', v) =>
      let (d'', rest) := d'.applyRemoteBatch bs
      (d'', rest.map v.merge)

end Doc

/-! ## What is applied -/

section Oplog

variable {H} {d d' : Doc} {o : OpId}

theorem mem_oplog : o ∈ d.oplog H ↔ o ∈ d.received ∧ H.past o ⊆ d.received := by
  rw [Doc.oplog, Finset.mem_filter]

theorem oplog_subset : d.oplog H ⊆ d.received := Finset.filter_subset _ _

/-- What is applied is closed under causal past. -/
theorem past_subset_oplog (h : o ∈ d.oplog H) : H.past o ⊆ d.oplog H := by
  have hpast := (mem_oplog.1 h).2
  intro q hq
  exact mem_oplog.2 ⟨hpast hq, (H.trans o q hq).trans hpast⟩

theorem oplog_mono (h : d.received ⊆ d'.received) : d.oplog H ⊆ d'.oplog H := by
  intro o ho
  obtain ⟨hmem, hpast⟩ := mem_oplog.1 ho
  exact mem_oplog.2 ⟨h hmem, hpast.trans h⟩

/-- The vector of the oplog covers exactly the oplog. -/
theorem oplogVv_ids : (d.oplogVv H).ids = d.oplog H := by
  refine Finset.Subset.antisymm ?_ (VersionVector.subset_upTo _)
  intro q hq
  obtain ⟨o, ho, hp, hc⟩ := VersionVector.mem_upTo.1 hq
  rcases Nat.lt_or_eq_of_le hc with hlt | heq
  · have h : (⟨q.peer, q.counter⟩ : OpId) ∈ H.past ⟨o.peer, o.counter⟩ := by
      rw [hp]
      exact H.earlier o.peer o.counter q.counter hlt
    exact past_subset_oplog ho h
  · have hqo : q = o := by
      cases q
      cases o
      simp_all
    exact hqo ▸ ho

@[simp] theorem markPersistedAt_received (vv : VersionVector) :
    (d.markPersistedAt vv).received = d.received := rfl

@[simp] theorem markPersistedAt_oplog (vv : VersionVector) :
    (d.markPersistedAt vv).oplog H = d.oplog H := rfl

@[simp] theorem markPersistedAt_lastPersistedVv (vv : VersionVector) :
    (d.markPersistedAt vv).lastPersistedVv = d.lastPersistedVv.merge vv := rfl

end Oplog

end Monoplan.Client
