import Monoplan.Base.Machine
import Monoplan.Client.Stored

/-!
# Storage in the browser

`IdbStorage` answers the storage calls from a mirror in memory at once, and queues what each of
them writes as one IndexedDB transaction.  The transactions run one after another; one that fails
is logged and dropped, and the ones behind it run all the same.  A notice that a seq is durable
waits for what is queued before it.

* `Page.step`: a call, a notice, the transaction at the head of the queue settling either way,
  and a reload, which starts over from what is in the database.
* `Lag`: how far the database can be behind the mirror the head of the queue was made from.
-/

namespace Monoplan.Web

open Monoplan.Base
open Monoplan.Client (Appended Blob Disk InFlightPush OpId SnapshotRow StorageCall VersionVector
  WalRow act snapshotOps walOps)

/-! ## The database -/

/-- A row of the `docs` store. -/
structure DocRow where
  lastAckedServerSeq : ℕ
  serverKnownVv : VersionVector
  deriving DecidableEq

/-- The stores, as far as one document goes: `ops` is keyed by the local seq and sorted by it. -/
structure Idb where
  docs : DocRow
  ops : List WalRow
  snapshot : Option SnapshotRow
  inFlight : Option InFlightPush
  deriving DecidableEq

/-- One request of a transaction. -/
inductive Write
  | putOp (row : WalRow)
  | deleteOp (localSeq : ℕ)
  | putDoc (row : DocRow)
  | putSnapshot (row : SnapshotRow)
  | putInFlight (row : InFlightPush)
  | deleteInFlight
  deriving DecidableEq

namespace Idb

/-- No row, and the `docs` row a first `load` puts. -/
def empty : Idb := ⟨⟨0, .new⟩, [], none, none⟩

variable (s : Idb)

/-- A put replaces the row under its key. -/
def write : Write → Idb
  | .putOp row =>
    { s with
      ops := (s.ops.filter fun r => decide (r.localSeq < row.localSeq)) ++
        row :: s.ops.filter fun r => decide (row.localSeq < r.localSeq) }
  | .deleteOp localSeq => { s with ops := s.ops.filter fun r => decide (r.localSeq ≠ localSeq) }
  | .putDoc row => { s with docs := row }
  | .putSnapshot row => { s with snapshot := some row }
  | .putInFlight row => { s with inFlight := some row }
  | .deleteInFlight => { s with inFlight := none }

/-- A transaction that commits. -/
def commit (writes : List Write) : Idb := writes.foldl write s

/-- The highest key of `ops`. -/
def maxOp : ℕ := s.ops.foldl (fun m r => max m r.localSeq) 0

/-- `load`: the mirror of what is in the database. -/
def load : Disk where
  nextLocalSeq := max (s.snapshot.elim 0 SnapshotRow.upToLocalSeq) s.maxOp
  snapshot := s.snapshot
  wal := s.ops
  lastAckedServerSeq := s.docs.lastAckedServerSeq
  serverKnownVv := s.docs.serverKnownVv
  inFlight := s.inFlight

/-- The operations in the database. -/
def stored : Finset OpId := snapshotOps s.snapshot ∪ walOps s.ops

end Idb

/-! ## The page -/

/-- `docRow`. -/
def docRow (mirror : Disk) : DocRow := ⟨mirror.lastAckedServerSeq, mirror.serverKnownVv⟩

/-- What a call enqueues, from the mirror before it. -/
def enqueued : StorageCall → Disk → List Write
  | .appendLocalWal payload, m => [.putOp ⟨m.nextLocalSeq + 1, none, payload⟩]
  | .appendRemoteWal seq payload vv, m =>
    let row := docRow { m with serverKnownVv := vv }
    match m.wal.find? fun r => decide (r.serverSeq = some seq) with
    | some _ => [.putDoc row]
    | none => [.putOp ⟨m.nextLocalSeq + 1, some seq, payload⟩, .putDoc row]
  | .writeSnapshot cutoff payload, m =>
    .putSnapshot ⟨m.nextLocalSeq, payload⟩ ::
      (m.wal.filter fun r => decide (r.localSeq ≤ cutoff)).map fun r => .deleteOp r.localSeq
  | .writeAckedSeq seq, m => [.putDoc (docRow (m.writeAckedSeq seq))]
  | .writeServerKnownVv vv, m => [.putDoc (docRow (m.writeServerKnownVv vv))]
  | .putInFlightPush push, _ => [.putInFlight push]
  | .completePush push vv, m =>
    .putDoc (docRow (m.completePush push vv)) ::
      if m.inFlight.map InFlightPush.pushId = some push then [.deleteInFlight] else []

/-- An entry of the flush chain: a transaction, or a `whenFlushed` of `scheduleDurable` with the
seq it sampled. -/
inductive Entry
  | tx (writes : List Write)
  | notice (seq : ℕ)
  deriving DecidableEq

/-- The operations a write puts in the database. -/
def Write.carried : Write → Finset OpId
  | .putOp row => row.payload.held
  | .putSnapshot row => row.payload.held
  | _ => ∅

/-- The operations a transaction puts in the database. -/
def carried : List Write → Finset OpId
  | [] => ∅
  | w :: ws => w.carried ∪ carried ws

structure Page where
  mirror : Disk
  chain : List Entry
  idb : Idb
  /-- Every seq `notify_oplog_durable` was called with. -/
  told : List ℕ
  /-- The operations of the transactions that failed since the page was loaded. -/
  failed : Finset OpId

inductive PageStep
  | call (c : StorageCall)
  /-- `scheduleDurable`, at the engine's contiguous seq. -/
  | durable (seq : ℕ)
  /-- The head of the chain settles; a transaction commits or fails. -/
  | settle (commits : Bool)
  | reload
  deriving DecidableEq

namespace Page

/-- `open` on a database without the document. -/
def fresh : Page := ⟨Idb.empty.load, [], .empty, [], ∅⟩

def step (s : Page) : PageStep → Option Page
  | .call c =>
    some { s with mirror := (act c s.mirror).1, chain := s.chain ++ [.tx (enqueued c s.mirror)] }
  | .durable seq => some { s with chain := s.chain ++ [.notice seq] }
  | .settle commits =>
    match s.chain with
    | [] => none
    | .notice seq :: rest => some { s with chain := rest, told := s.told ++ [seq] }
    | .tx writes :: rest =>
      some <|
        if commits then { s with chain := rest, idb := s.idb.commit writes }
        else { s with chain := rest, failed := s.failed ∪ carried writes }
  | .reload => some { s with mirror := s.idb.load, chain := [], failed := ∅ }

end Page

/-- Calls, notices, settlements and reloads in every order. -/
def paging : Machine Page PageStep := ⟨(· = .fresh), Page.step⟩

/-! ## What a call does to the mirror and to the queue -/

/-- Writes that touch the `docs` row and the in-flight push only, the former to match `m`. -/
def Bookkeeping (m : Disk) (writes : List Write) : Prop :=
  ∀ w ∈ writes, w = .putDoc (docRow m) ∨ (∃ push, w = .putInFlight push) ∨ w = .deleteInFlight

section Calls

variable {m : Disk} {writes : List Write}

theorem bookkeeping_nil : Bookkeeping m [] := fun _ hw => absurd hw (List.not_mem_nil)

theorem bookkeeping_doc : Bookkeeping m [.putDoc (docRow m)] :=
  fun _ hw => .inl (List.mem_singleton.1 hw)

/-- A call adds one WAL row, or folds, or leaves the rows as they are. -/
theorem call_cases (c : StorageCall) (m : Disk) :
    (∃ row rest, row.localSeq = m.nextLocalSeq + 1 ∧ enqueued c m = .putOp row :: rest ∧
      Bookkeeping (act c m).1 rest ∧ (act c m).1.wal = m.wal ++ [row] ∧
      (act c m).1.snapshot = m.snapshot ∧ (act c m).1.nextLocalSeq = m.nextLocalSeq + 1) ∨
    (∃ cutoff payload, c = .writeSnapshot cutoff payload) ∨
    (Bookkeeping (act c m).1 (enqueued c m) ∧ (act c m).1.wal = m.wal ∧
      (act c m).1.snapshot = m.snapshot ∧ (act c m).1.nextLocalSeq = m.nextLocalSeq) := by
  cases c with
  | appendLocalWal payload => exact .inl ⟨_, [], rfl, rfl, bookkeeping_nil, rfl, rfl, rfl⟩
  | appendRemoteWal seq payload vv =>
    cases hfind : m.wal.find? fun r => decide (r.serverSeq = some seq) with
    | some row =>
      have hact : (act (.appendRemoteWal seq payload vv) m).1 = { m with serverKnownVv := vv } := by
        simp only [act, Disk.appendRemoteWal, hfind]
      have henq : enqueued (.appendRemoteWal seq payload vv) m =
          [.putDoc (docRow { m with serverKnownVv := vv })] := by
        simp only [enqueued, hfind]
      rw [hact, henq]
      exact .inr (.inr ⟨bookkeeping_doc, rfl, rfl, rfl⟩)
    | none =>
      have hact : (act (.appendRemoteWal seq payload vv) m).1 =
          ({ m with serverKnownVv := vv } : Disk).append (some seq) payload := by
        simp only [act, Disk.appendRemoteWal, hfind]
      have henq : enqueued (.appendRemoteWal seq payload vv) m =
          [.putOp ⟨m.nextLocalSeq + 1, some seq, payload⟩,
            .putDoc (docRow { m with serverKnownVv := vv })] := by
        simp only [enqueued, hfind]
      rw [hact, henq]
      exact .inl ⟨_, _, rfl, rfl, bookkeeping_doc, rfl, rfl, rfl⟩
  | writeSnapshot cutoff payload => exact .inr (.inl ⟨cutoff, payload, rfl⟩)
  | writeAckedSeq seq => exact .inr (.inr ⟨bookkeeping_doc, rfl, rfl, rfl⟩)
  | writeServerKnownVv vv => exact .inr (.inr ⟨bookkeeping_doc, rfl, rfl, rfl⟩)
  | putInFlightPush push =>
    refine .inr (.inr ⟨fun w hw => ?_, rfl, rfl, rfl⟩)
    exact .inr (.inl ⟨push, List.mem_singleton.1 hw⟩)
  | completePush push vv =>
    refine .inr (.inr ⟨fun w hw => ?_, rfl, rfl, rfl⟩)
    rcases List.mem_cons.1 hw with rfl | hw
    · exact .inl rfl
    · split at hw
      · exact .inr (.inr (List.mem_singleton.1 hw))
      · exact absurd hw (List.not_mem_nil)

/-- A `docs` row that is queued is the mirror's. -/
theorem putDoc_mem_enqueued {c : StorageCall} {row : DocRow} (h : .putDoc row ∈ enqueued c m) :
    row = docRow (act c m).1 := by
  have hbook : ∀ ws, Bookkeeping (act c m).1 ws → .putDoc row ∈ ws →
      row = docRow (act c m).1 := by
    intro ws hws hmem
    obtain heq | ⟨_, heq⟩ | heq := hws _ hmem
    · exact Write.putDoc.inj heq
    · exact absurd heq (by simp)
    · exact absurd heq (by simp)
  obtain ⟨r, rest, _, heq, hrest, _⟩ | ⟨cutoff, payload, rfl⟩ | ⟨hall, _⟩ := call_cases c m
  · rw [heq] at h
    exact hbook rest hrest ((List.mem_cons.1 h).resolve_left (by simp))
  · simp [enqueued] at h
  · exact hbook _ hall h

end Calls

/-! ## What a transaction does to the database -/

section Commit

variable {s : Idb} {m : Disk} {writes : List Write} {r row : WalRow}

theorem commit_cons (w : Write) (ws : List Write) : s.commit (w :: ws) = (s.write w).commit ws :=
  rfl

/-- A row under a new highest key replaces nothing. -/
theorem mem_putOp (h : ∀ r ∈ s.ops, r.localSeq < row.localSeq) :
    r ∈ (s.write (.putOp row)).ops ↔ r ∈ s.ops ∨ r = row := by
  show r ∈ (s.ops.filter _) ++ row :: s.ops.filter _ ↔ _
  simp only [List.mem_append, List.mem_cons, List.mem_filter, decide_eq_true_eq]
  constructor
  · rintro (⟨hr, _⟩ | rfl | ⟨hr, _⟩)
    · exact .inl hr
    · exact .inr rfl
    · exact .inl hr
  · rintro (hr | rfl)
    · exact .inl ⟨hr, h r hr⟩
    · exact .inr (.inl rfl)

/-- A prune deletes by key and touches nothing else. -/
theorem commit_deletes (s : Idb) (rows : List WalRow) :
    s.commit (rows.map fun r => .deleteOp r.localSeq) =
      { s with ops := s.ops.filter fun r => decide (∀ q ∈ rows, r.localSeq ≠ q.localSeq) } := by
  induction rows generalizing s with
  | nil => simp [Idb.commit]
  | cons q rows ih =>
    rw [List.map_cons, commit_cons, ih]
    simp only [Idb.write, List.filter_filter]
    congr 1
    refine List.filter_congr fun r _ => ?_
    simp only [List.forall_mem_cons, Bool.decide_and]
    exact Bool.and_comm _ _

theorem carried_deletes (rows : List WalRow) :
    carried (rows.map fun r => .deleteOp r.localSeq) = ∅ := by
  induction rows with
  | nil => rfl
  | cons q rows ih => rw [List.map_cons, carried, ih]; rfl

/-- Bookkeeping leaves the rows and the snapshot alone and carries no operation. -/
theorem Bookkeeping.commit (h : Bookkeeping m writes) (s : Idb) :
    (s.commit writes).ops = s.ops ∧ (s.commit writes).snapshot = s.snapshot ∧
      carried writes = ∅ := by
  induction writes generalizing s with
  | nil => exact ⟨rfl, rfl, rfl⟩
  | cons w ws ih =>
    have hrest := ih (fun v hv => h v (List.mem_cons_of_mem _ hv)) (s.write w)
    rw [commit_cons]
    obtain rfl | ⟨push, rfl⟩ | rfl := h w (List.mem_cons_self ..)
    all_goals exact ⟨hrest.1, hrest.2.1, by simp [carried, Write.carried, hrest.2.2]⟩

/-- The `docs` row is the one a transaction puts, if it puts one. -/
theorem commit_docs {row : DocRow} (h : ∀ d, .putDoc d ∈ writes → d = row) (s : Idb) :
    (.putDoc row ∈ writes ∧ (s.commit writes).docs = row) ∨
      (.putDoc row ∉ writes ∧ (s.commit writes).docs = s.docs) := by
  induction writes generalizing s with
  | nil => exact .inr ⟨List.not_mem_nil, rfl⟩
  | cons w ws ih =>
    rw [commit_cons]
    obtain ⟨hmem, heq⟩ | ⟨hmem, heq⟩ := ih (fun d hd => h d (List.mem_cons_of_mem _ hd)) (s.write w)
    · exact .inl ⟨List.mem_cons_of_mem _ hmem, heq⟩
    · cases w with
      | putDoc d =>
        have hd := h d (List.mem_cons_self ..)
        exact .inl ⟨hd ▸ List.mem_cons_self .., heq.trans hd⟩
      | _ => exact .inr ⟨by simp [hmem], heq⟩

end Commit

/-! ## Keys -/

/-- The rows are keyed up to `n`. -/
def KeysTo (n : ℕ) (rows : List WalRow) : Prop := ∀ r ∈ rows, r.localSeq ≤ n

/-- A key names the same row in both. -/
def SameRows (rows rows' : List WalRow) : Prop :=
  ∀ r ∈ rows, ∀ q ∈ rows', q.localSeq = r.localSeq → q = r

section Keys

variable {rows rows' more more' : List WalRow} {row : WalRow} {n : ℕ}

theorem KeysTo.add (h : KeysTo n rows) (hkey : row.localSeq = n + 1)
    (hmore : ∀ r ∈ more, r ∈ rows ∨ r = row) : KeysTo (n + 1) more := by
  intro r hr
  rcases hmore r hr with hr | rfl
  · have := h r hr
    omega
  · omega

/-- One new row under the next key keeps keys apart. -/
theorem SameRows.add (h : SameRows rows rows') (hkeys : KeysTo n rows) (hkeys' : KeysTo n rows')
    (hkey : row.localSeq = n + 1) (hmore : ∀ r ∈ more, r ∈ rows ∨ r = row)
    (hmore' : ∀ r ∈ more', r ∈ rows' ∨ r = row) : SameRows more more' := by
  intro r hr q hq heq
  rcases hmore r hr with hr | rfl
  · rcases hmore' q hq with hq | rfl
    · exact h r hr q hq heq
    · have := hkeys r hr
      omega
  · rcases hmore' q hq with hq | hq
    · have := hkeys' q hq
      omega
    · exact hq

theorem KeysTo.mono (h : KeysTo n rows) (hmore : more ⊆ rows) : KeysTo n more :=
  fun r hr => h r (hmore hr)

theorem SameRows.mono (h : SameRows rows rows') (hmore : more ⊆ rows) (hmore' : more' ⊆ rows') :
    SameRows more more' :=
  fun r hr q hq => h r (hmore hr) q (hmore' hq)

end Keys

/-! ## The database lags behind the mirror -/

/-- A fold keeps what it prunes: the new snapshot has the old one's operations and those of the
rows up to the cutoff. -/
def Folds (m : Disk) : StorageCall → Prop
  | .writeSnapshot cutoff payload =>
    snapshotOps m.snapshot ∪ walOps (m.wal.filter fun r => decide (r.localSeq ≤ cutoff)) ⊆
      payload.held
  | _ => True

/-- What the database holds when the transactions up to a mirror have settled, those with
`failed` having failed. -/
structure Lag (s : Idb) (failed : Finset OpId) (m : Disk) : Prop where
  held : m.stored ⊆ s.stored ∪ failed
  snapshot : snapshotOps s.snapshot ⊆ snapshotOps m.snapshot
  keys : KeysTo m.nextLocalSeq s.ops
  mirrored : KeysTo m.nextLocalSeq m.wal
  same : SameRows s.ops m.wal
  unique : SameRows s.ops s.ops

section Lag

variable {s : Idb} {failed : Finset OpId} {m : Disk} {c : StorageCall}

theorem le_foldl_max (rows : List WalRow) (n : ℕ) :
    n ≤ rows.foldl (fun m r => max m r.localSeq) n ∧
      KeysTo (rows.foldl (fun m r => max m r.localSeq) n) rows := by
  induction rows generalizing n with
  | nil => exact ⟨le_rfl, fun _ hr => absurd hr List.not_mem_nil⟩
  | cons q rows ih =>
    obtain ⟨hle, hall⟩ := ih (max n q.localSeq)
    refine ⟨(le_max_left _ _).trans hle, fun r hr => ?_⟩
    rcases List.mem_cons.1 hr with rfl | hr
    · exact (le_max_right _ _).trans hle
    · exact hall r hr

theorem keysTo_load (s : Idb) : KeysTo s.load.nextLocalSeq s.ops :=
  fun r hr => ((le_foldl_max s.ops 0).2 r hr).trans (le_max_right _ _)

/-- Right after a reload nothing lags. -/
theorem Lag.load (h : Lag s failed m) : Lag s ∅ s.load where
  held := Finset.subset_union_left
  snapshot := Finset.Subset.refl _
  keys := keysTo_load s
  mirrored := keysTo_load s
  same := h.unique
  unique := h.unique

/-- Whatever a call hands over is in its transaction or was there before. -/
theorem act_stored (c : StorageCall) (m : Disk) :
    (act c m).1.stored ⊆ m.stored ∪ carried (enqueued c m) := by
  obtain ⟨row, rest, _, heq, hrest, hwal, hsnap, _⟩ | ⟨cutoff, payload, rfl⟩ |
    ⟨_, hwal, hsnap, _⟩ := call_cases c m
  · rw [Disk.stored, hwal, hsnap, heq, Client.walOps_append, Client.walOps_singleton, carried]
    intro o ho
    simp only [Finset.mem_union, Disk.stored, Write.carried] at ho ⊢
    tauto
  · have hrows : walOps (m.wal.filter fun r => decide (cutoff < r.localSeq)) ⊆ walOps m.wal :=
      Client.walOps_mono (List.filter_subset_self _)
    intro o ho
    rcases Finset.mem_union.1 ho with ho | ho
    · exact Finset.mem_union_right _ (Finset.mem_union_left _ ho)
    · exact Finset.mem_union_left _ (Finset.mem_union_right _ (hrows ho))
  · rw [Disk.stored, hwal, hsnap]
    exact Finset.subset_union_left

/-- A transaction that fails leaves the database further behind. -/
theorem Lag.fail (h : Lag s failed m) (hfold : Folds m c) :
    Lag s (failed ∪ carried (enqueued c m)) (act c m).1 := by
  have hheld : (act c m).1.stored ⊆ s.stored ∪ (failed ∪ carried (enqueued c m)) := by
    rw [← Finset.union_assoc]
    exact (act_stored c m).trans (Finset.union_subset_union_left h.held)
  obtain ⟨row, rest, hkey, _, _, hwal, hsnap, hnext⟩ | ⟨cutoff, payload, rfl⟩ |
    ⟨_, hwal, hsnap, hnext⟩ := call_cases c m
  · have hnew : ∀ r ∈ m.wal ++ [row], r ∈ m.wal ∨ r = row := by simp
    refine ⟨hheld, hsnap ▸ h.snapshot, ?_, ?_, ?_, h.unique⟩
    · exact hnext ▸ h.keys.add hkey fun _ hr => .inl hr
    · exact hnext ▸ hwal ▸ h.mirrored.add hkey hnew
    · exact hwal ▸ h.same.add h.keys h.mirrored hkey (fun _ hr => .inl hr) hnew
  · have hkept : (m.wal.filter fun r => decide (cutoff < r.localSeq)) ⊆ m.wal :=
      List.filter_subset_self _
    refine ⟨hheld, h.snapshot.trans (Finset.union_subset_left hfold), h.keys,
      h.mirrored.mono hkept, h.same.mono (List.Subset.refl _) hkept, h.unique⟩
  · exact ⟨hheld, hsnap ▸ h.snapshot, hnext ▸ h.keys, hwal ▸ hnext ▸ h.mirrored, hwal ▸ h.same,
      h.unique⟩

/-- What a transaction that commits stores is what was stored and what it carries. -/
theorem Lag.commit_stored (h : Lag s failed m) (hfold : Folds m c) :
    (s.commit (enqueued c m)).stored = s.stored ∪ carried (enqueued c m) := by
  obtain ⟨row, rest, hkey, henq, hrest, hwal, hsnap, hnext⟩ | ⟨cutoff, payload, rfl⟩ |
    ⟨hbook, hwal, hsnap, hnext⟩ := call_cases c m
  · obtain ⟨hops, hsnapshot, hcarried⟩ := hrest.commit (s.write (.putOp row))
    have hfresh : ∀ r ∈ s.ops, r.localSeq < row.localSeq := by
      intro r hr
      have := h.keys r hr
      omega
    ext o
    rw [henq, commit_cons, Idb.stored, hops, hsnapshot]
    simp only [Idb.stored, carried, hcarried, Write.carried, Finset.union_empty,
      Finset.mem_union, Client.mem_walOps, mem_putOp hfresh]
    simp [Idb.write, or_and_right, exists_or, or_assoc]
  · rw [enqueued, commit_cons, commit_deletes, carried, carried_deletes, Finset.union_empty]
    apply Finset.Subset.antisymm
    · refine Finset.union_subset Finset.subset_union_right ?_
      refine (Client.walOps_mono (List.filter_subset_self _)).trans ?_
      exact Finset.subset_union_right.trans Finset.subset_union_left
    · refine Finset.union_subset (Finset.union_subset ?_ ?_) Finset.subset_union_left
      · exact (h.snapshot.trans (Finset.union_subset_left hfold)).trans Finset.subset_union_left
      · intro o ho
        obtain ⟨r, hr, hmem⟩ := Client.mem_walOps.1 ho
        -- A row that goes is the mirror's row under its key, which is folded.
        by_cases hgone : ∃ q ∈ m.wal.filter fun q => decide (q.localSeq ≤ cutoff),
            q.localSeq = r.localSeq
        · obtain ⟨q, hq, hqr⟩ := hgone
          have heq := h.same r hr q (List.mem_of_mem_filter hq) hqr
          refine Finset.mem_union_left _ (hfold (Finset.mem_union_right _ ?_))
          exact Client.mem_walOps.2 ⟨r, heq ▸ hq, hmem⟩
        · refine Finset.mem_union_right _ (Client.mem_walOps.2 ⟨r, ?_, hmem⟩)
          refine List.mem_filter.2 ⟨hr, decide_eq_true fun q hq hqr => hgone ⟨q, hq, hqr.symm⟩⟩
  · obtain ⟨hops, hsnapshot, hcarried⟩ := hbook.commit s
    rw [Idb.stored, hops, hsnapshot, hcarried, Finset.union_empty, Idb.stored]

/-- A transaction that commits catches up by one call. -/
theorem Lag.commit (h : Lag s failed m) (hfold : Folds m c) :
    Lag (s.commit (enqueued c m)) failed (act c m).1 := by
  have hheld : (act c m).1.stored ⊆ (s.commit (enqueued c m)).stored ∪ failed := by
    rw [h.commit_stored hfold, Finset.union_right_comm]
    exact (act_stored c m).trans (Finset.union_subset_union_left h.held)
  obtain ⟨row, rest, hkey, henq, hrest, hwal, hsnap, hnext⟩ | ⟨cutoff, payload, rfl⟩ |
    ⟨hbook, hwal, hsnap, hnext⟩ := call_cases c m
  · obtain ⟨hops, hsnapshot, _⟩ := hrest.commit (s.write (.putOp row))
    have hfresh : ∀ r ∈ s.ops, r.localSeq < row.localSeq := by
      intro r hr
      have := h.keys r hr
      omega
    have hold : ∀ r ∈ (s.commit (enqueued c m)).ops, r ∈ s.ops ∨ r = row := by
      rw [henq, commit_cons, hops]
      exact fun r hr => (mem_putOp hfresh).1 hr
    have hnew : ∀ r ∈ m.wal ++ [row], r ∈ m.wal ∨ r = row := by simp
    refine ⟨hheld, ?_, ?_, ?_, ?_, ?_⟩
    · rw [henq, commit_cons, hsnapshot, hsnap]
      exact h.snapshot
    · exact hnext ▸ h.keys.add hkey hold
    · exact hnext ▸ hwal ▸ h.mirrored.add hkey hnew
    · exact hwal ▸ h.same.add h.keys h.mirrored hkey hold hnew
    · exact h.unique.add h.keys h.keys hkey hold hold
  · have hkept : (m.wal.filter fun r => decide (cutoff < r.localSeq)) ⊆ m.wal :=
      List.filter_subset_self _
    have hops : (s.commit (enqueued (.writeSnapshot cutoff payload) m)).ops ⊆ s.ops := by
      rw [enqueued, commit_cons, commit_deletes]
      exact List.filter_subset_self _
    refine ⟨hheld, ?_, h.keys.mono hops, h.mirrored.mono hkept, h.same.mono hops hkept,
      h.unique.mono hops hops⟩
    rw [enqueued, commit_cons, commit_deletes]
    exact Finset.Subset.refl _
  · obtain ⟨hops, hsnapshot, _⟩ := hbook.commit s
    refine ⟨hheld, ?_, ?_, ?_, ?_, ?_⟩
    · rw [hsnapshot, hsnap]
      exact h.snapshot
    · rw [hops, hnext]
      exact h.keys
    · rw [hwal, hnext]
      exact h.mirrored
    · rw [hops, hwal]
      exact h.same
    · rw [hops]
      exact h.unique

end Lag

end Monoplan.Web
