import Monoplan.Web.IdbStorage

/-!
# A crash leaves a prefix

`IdbStorage` keeps its counters and rows ahead of the flush chain.  When no transaction fails, what
is in the stores is always what `MemStorage` would hold after some of the calls, in order, and
nothing of the others.

* `IdbStorage`: the class, method by method; `call_spec` says what each does to its fields and
  what it enqueues.
* `commit_load`: a transaction that commits takes what `load` returns one call further.
* `prefix_after_crash`: calls for any documents, commits and crashes in every order.
-/

namespace Monoplan.Web

open Monoplan.Base
open Monoplan.Client (Appended Blob Disk InFlightPush SnapshotRow StorageCall VersionVector WalRow
  act)
open Monoplan.Protocol (PushId)

/-! ## The class -/

structure IdbStorage where
  nextLocalSeq : ℕ
  snapshot : Option SnapshotRow
  ops : List WalRow
  lastAckedServerSeq : ℕ
  serverKnownVv : VersionVector
  inFlight : Option InFlightPush
  /-- The transactions that have not run, oldest first. -/
  flushChain : List (List Write)

namespace IdbStorage

/-- `load`. -/
def load (s : Idb) : IdbStorage where
  nextLocalSeq := max (s.snapshot.elim 0 SnapshotRow.upToLocalSeq) s.maxOp
  snapshot := s.snapshot
  ops := s.ops
  lastAckedServerSeq := s.docs.lastAckedServerSeq
  serverKnownVv := s.docs.serverKnownVv
  inFlight := s.inFlight
  flushChain := []

variable (s : IdbStorage)

def docRow : DocRow := ⟨s.lastAckedServerSeq, s.serverKnownVv⟩

def enqueue (body : List Write) : IdbStorage := { s with flushChain := s.flushChain ++ [body] }

def appendLocalWal (payload : Blob) : IdbStorage × Appended :=
  let localSeq := s.nextLocalSeq + 1
  let row : WalRow := ⟨localSeq, none, payload⟩
  let s := { s with nextLocalSeq := localSeq, ops := s.ops ++ [row] }
  (s.enqueue [.putOp row], ⟨localSeq, true⟩)

def appendRemoteWal (serverSeq : ℕ) (payload : Blob) (serverKnownVv : VersionVector) :
    IdbStorage × Appended :=
  let s := { s with serverKnownVv }
  let docRow := s.docRow
  match s.ops.find? fun o => decide (o.serverSeq = some serverSeq) with
  | some existing => (s.enqueue [.putDoc docRow], ⟨existing.localSeq, false⟩)
  | none =>
    let localSeq := s.nextLocalSeq + 1
    let row : WalRow := ⟨localSeq, some serverSeq, payload⟩
    let s := { s with nextLocalSeq := localSeq, ops := s.ops ++ [row] }
    (s.enqueue [.putOp row, .putDoc docRow], ⟨localSeq, true⟩)

def writeSnapshot (cutoff : ℕ) (payload : Blob) : IdbStorage :=
  let snap : SnapshotRow := ⟨s.nextLocalSeq, payload⟩
  let pruned := s.ops.filter fun o => decide (o.localSeq ≤ cutoff)
  let s := { s with snapshot := some snap, ops := s.ops.filter fun o => decide (cutoff < o.localSeq) }
  s.enqueue (.putSnapshot snap :: pruned.map fun o => .deleteOp o.localSeq)

def writeAckedSeq (serverSeq : ℕ) : IdbStorage :=
  let s := { s with lastAckedServerSeq := serverSeq }
  s.enqueue [.putDoc s.docRow]

def writeServerKnownVv (vv : VersionVector) : IdbStorage :=
  let s := { s with serverKnownVv := vv }
  s.enqueue [.putDoc s.docRow]

def putInFlightPush (row : InFlightPush) : IdbStorage :=
  { s with inFlight := some row }.enqueue [.putInFlight row]

def completePush (push : PushId) (serverKnownVv : VersionVector) : IdbStorage :=
  let s := { s with serverKnownVv }
  let docRow := s.docRow
  let clear := decide (s.inFlight.map InFlightPush.pushId = some push)
  let s := { s with inFlight := if clear then none else s.inFlight }
  s.enqueue (.putDoc docRow :: if clear then [.deleteInFlight] else [])

/-- One call.  A method without a result answers `⟨0, false⟩`. -/
def call : StorageCall → IdbStorage × Appended
  | .appendLocalWal payload => s.appendLocalWal payload
  | .appendRemoteWal seq payload vv => s.appendRemoteWal seq payload vv
  | .writeSnapshot cutoff payload => (s.writeSnapshot cutoff payload, ⟨0, false⟩)
  | .writeAckedSeq seq => (s.writeAckedSeq seq, ⟨0, false⟩)
  | .writeServerKnownVv vv => (s.writeServerKnownVv vv, ⟨0, false⟩)
  | .putInFlightPush push => (s.putInFlightPush push, ⟨0, false⟩)
  | .completePush push vv => (s.completePush push vv, ⟨0, false⟩)

/-- What the fields hold, in the words of `MemStorage`. -/
def mirror : Disk where
  nextLocalSeq := s.nextLocalSeq
  snapshot := s.snapshot
  wal := s.ops
  lastAckedServerSeq := s.lastAckedServerSeq
  serverKnownVv := s.serverKnownVv
  inFlight := s.inFlight

@[simp] theorem mirror_load (idb : Idb) : (load idb).mirror = idb.load := rfl

/-- **A call** does to the fields what it does to a `MemStorage`, answers the same, and enqueues
one transaction. -/
theorem call_spec (c : StorageCall) :
    (s.call c).1.mirror = (act c s.mirror).1 ∧ (s.call c).2 = (act c s.mirror).2 ∧
      (s.call c).1.flushChain = s.flushChain ++ [enqueued c s.mirror] := by
  cases c with
  | appendRemoteWal seq payload vv =>
    simp only [call, appendRemoteWal, act, Disk.appendRemoteWal, enqueued, mirror]
    cases s.ops.find? fun o => decide (o.serverSeq = some seq) with
    | none => exact ⟨rfl, rfl, rfl⟩
    | some row => exact ⟨rfl, rfl, rfl⟩
  | completePush push vv =>
    simp only [call, completePush, act, Disk.completePush, enqueued, mirror, enqueue]
    by_cases hp : s.inFlight.map InFlightPush.pushId = some push
    · simp [hp, docRow, Web.docRow]
    · simp [hp, docRow, Web.docRow]
  | _ => exact ⟨rfl, rfl, rfl⟩

end IdbStorage

/-! ## One transaction -/

/-- The rows stand in the order of their keys. -/
def Idb.Keyed (s : Idb) : Prop := s.ops.Pairwise fun a b => a.localSeq < b.localSeq

section Commit

variable {s : Idb}

theorem maxOp_le {n : ℕ} (h : KeysTo n s.ops) : s.maxOp ≤ n := by
  have hfold : ∀ (rows : List WalRow) (k : ℕ), k ≤ n → KeysTo n rows →
      rows.foldl (fun m r => max m r.localSeq) k ≤ n := by
    intro rows
    induction rows with
    | nil => exact fun k hk _ => hk
    | cons r rows ih =>
      intro k hk hrows
      have hr := hrows r List.mem_cons_self
      exact ih _ (max_le hk hr) fun q hq => hrows q (List.mem_cons_of_mem _ hq)
  exact hfold s.ops 0 (Nat.zero_le n) h

theorem le_maxOp : KeysTo s.maxOp s.ops := (le_foldl_max s.ops 0).2

/-- A row under a new highest key goes to the end. -/
theorem write_putOp {row : WalRow} (h : ∀ r ∈ s.ops, r.localSeq < row.localSeq) :
    s.write (.putOp row) = { s with ops := s.ops ++ [row] } := by
  have hbelow : (s.ops.filter fun r => decide (r.localSeq < row.localSeq)) = s.ops :=
    List.filter_eq_self.2 fun r hr => decide_eq_true (h r hr)
  have habove : (s.ops.filter fun r => decide (row.localSeq < r.localSeq)) = [] :=
    List.filter_eq_nil_iff.2 fun r hr => by
      have := h r hr
      simp only [decide_eq_true_eq]
      omega
  simp only [Idb.write, hbelow, habove]

/-- Bookkeeping leaves the counter to the rows and the snapshot. -/
theorem load_of_eq {s' : Idb} {m : Disk} (hops : s'.ops = m.wal) (hsnap : s'.snapshot = m.snapshot)
    (hnext : s'.load.nextLocalSeq = m.nextLocalSeq) (hdocs : s'.docs = docRow m)
    (hin : s'.inFlight = m.inFlight) : s'.load = m := by
  have hload : s'.load = ⟨s'.load.nextLocalSeq, s'.snapshot, s'.ops, s'.docs.lastAckedServerSeq,
      s'.docs.serverKnownVv, s'.inFlight⟩ := rfl
  rw [hload, hnext, hsnap, hops, hdocs, hin]
  rfl

/-- **A transaction that commits is a call performed.** -/
theorem commit_load (hs : s.Keyed) (c : StorageCall) :
    (s.commit (enqueued c s.load)).load = (act c s.load).1 ∧
      (s.commit (enqueued c s.load)).Keyed := by
  have hbelow : ∀ r ∈ s.ops, r.localSeq < s.load.nextLocalSeq + 1 :=
    fun r hr => Nat.lt_succ_of_le (keysTo_load s r hr)
  have hadd : ∀ row : WalRow, row.localSeq = s.load.nextLocalSeq + 1 →
      s.write (.putOp row) = { s with ops := s.ops ++ [row] } ∧
        ({ s with ops := s.ops ++ [row] } : Idb).Keyed ∧
          ({ s with ops := s.ops ++ [row] } : Idb).load.nextLocalSeq = row.localSeq := by
    intro row hrow
    have hlt : ∀ r ∈ s.ops, r.localSeq < row.localSeq := hrow ▸ hbelow
    refine ⟨write_putOp hlt, ?_, ?_⟩
    · refine List.pairwise_append.2 ⟨hs, List.pairwise_singleton _ _, fun a ha b hb => ?_⟩
      rw [List.mem_singleton.1 hb]
      exact hlt a ha
    · have hsnap : s.snapshot.elim 0 SnapshotRow.upToLocalSeq ≤ s.load.nextLocalSeq :=
        le_max_left _ _
      show max (s.snapshot.elim 0 SnapshotRow.upToLocalSeq)
        ({ s with ops := s.ops ++ [row] } : Idb).maxOp = row.localSeq
      apply le_antisymm
      · refine max_le (by omega) (maxOp_le fun r hr => ?_)
        rcases List.mem_append.1 hr with hr | hr
        · exact (hlt r hr).le
        · rw [List.mem_singleton.1 hr]
      · have hmem : row ∈ s.ops ++ [row] := List.mem_append_right _ (List.mem_singleton_self row)
        exact (le_maxOp (s := { s with ops := s.ops ++ [row] }) row hmem).trans (le_max_right _ _)
  cases c with
  | appendLocalWal payload =>
    obtain ⟨hwrite, hkeyed, hnext⟩ := hadd ⟨s.load.nextLocalSeq + 1, none, payload⟩ rfl
    simp only [enqueued, commit_cons, hwrite]
    exact ⟨load_of_eq rfl rfl hnext rfl rfl, hkeyed⟩
  | appendRemoteWal seq payload vv =>
    cases hfind : s.load.wal.find? fun r => decide (r.serverSeq = some seq) with
    | some row =>
      simp only [enqueued, act, Disk.appendRemoteWal, hfind, commit_cons]
      exact ⟨load_of_eq rfl rfl rfl rfl rfl, hs⟩
    | none =>
      obtain ⟨hwrite, hkeyed, hnext⟩ := hadd ⟨s.load.nextLocalSeq + 1, some seq, payload⟩ rfl
      simp only [enqueued, act, Disk.appendRemoteWal, hfind, commit_cons, hwrite]
      exact ⟨load_of_eq rfl rfl hnext rfl rfl, hkeyed⟩
  | writeSnapshot cutoff payload =>
    have hops : (s.ops.filter fun r : WalRow =>
        decide (∀ q ∈ (s.ops.filter fun q : WalRow => decide (q.localSeq ≤ cutoff)),
          r.localSeq ≠ q.localSeq)) =
            s.ops.filter fun r => decide (cutoff < r.localSeq) := by
      refine List.filter_congr fun r hr => decide_eq_decide.2 ⟨fun h => ?_, fun h q hq => ?_⟩
      · by_contra hle
        refine h r (List.mem_filter.2 ⟨hr, decide_eq_true (Nat.le_of_not_lt hle)⟩) rfl
      · have := of_decide_eq_true (List.mem_filter.1 hq).2
        omega
    have hcommit : s.commit (enqueued (.writeSnapshot cutoff payload) s.load) =
        { s with
          ops := s.ops.filter fun r => decide (cutoff < r.localSeq)
          snapshot := some ⟨s.load.nextLocalSeq, payload⟩ } := by
      rw [enqueued, commit_cons, commit_deletes]
      exact congrArg (fun ops => (⟨s.docs, ops, _, s.inFlight⟩ : Idb)) hops
    rw [hcommit]
    refine ⟨load_of_eq rfl rfl ?_ rfl rfl, hs.filter _⟩
    -- The snapshot carries the counter, and no row that is left is above it.
    refine max_eq_left (maxOp_le fun r hr => ?_)
    exact keysTo_load s r (List.mem_of_mem_filter hr)
  | writeAckedSeq seq => exact ⟨load_of_eq rfl rfl rfl rfl rfl, hs⟩
  | writeServerKnownVv vv => exact ⟨load_of_eq rfl rfl rfl rfl rfl, hs⟩
  | putInFlightPush push => exact ⟨load_of_eq rfl rfl rfl rfl rfl, hs⟩
  | completePush push vv =>
    by_cases hp : s.load.inFlight.map InFlightPush.pushId = some push
    · simp only [enqueued, hp, if_true, act, Disk.completePush]
      exact ⟨load_of_eq rfl rfl rfl rfl rfl, hs⟩
    · simp only [enqueued, hp, if_false, act, Disk.completePush]
      exact ⟨load_of_eq rfl rfl rfl rfl rfl, hs⟩

end Commit

/-! ## Replaying calls -/

/-- A `MemStorage` after some calls. -/
def replay (m : Disk) (cs : List StorageCall) : Disk := cs.foldl (fun m c => (act c m).1) m

/-- What the calls enqueue, one after another. -/
def queued : Disk → List StorageCall → List (List Write)
  | _, [] => []
  | m, c :: cs => enqueued c m :: queued (act c m).1 cs

section Replay

variable {m : Disk} {cs ds : List StorageCall} {c : StorageCall}

theorem replay_append : replay m (cs ++ ds) = replay (replay m cs) ds := List.foldl_append

theorem queued_append : queued m (cs ++ ds) = queued m cs ++ queued (replay m cs) ds := by
  induction cs generalizing m with
  | nil => rfl
  | cons c cs ih =>
    rw [List.cons_append, queued, queued, ih, List.cons_append]
    rfl

theorem length_queued : (queued m cs).length = cs.length := by
  induction cs generalizing m with
  | nil => rfl
  | cons c cs ih => rw [queued, List.length_cons, List.length_cons, ih]

/-- The counter never goes back. -/
theorem act_nextLocalSeq (c : StorageCall) (m : Disk) :
    m.nextLocalSeq ≤ (act c m).1.nextLocalSeq := by
  obtain ⟨_, _, _, _, _, _, _, hnext⟩ | ⟨cutoff, payload, rfl⟩ | ⟨_, _, _, hnext⟩ := call_cases c m
  · omega
  · exact le_rfl
  · omega

theorem le_replay_nextLocalSeq : m.nextLocalSeq ≤ (replay m cs).nextLocalSeq := by
  induction cs generalizing m with
  | nil => exact le_rfl
  | cons c cs ih => exact (act_nextLocalSeq c m).trans ih

/-- A row that is inserted gets the next seq. -/
theorem act_inserted (h : (act c m).2.inserted = true) :
    (act c m).2.localSeq = m.nextLocalSeq + 1 := by
  cases c with
  | appendLocalWal payload => rfl
  | appendRemoteWal seq payload vv =>
    cases hfind : m.wal.find? fun r => decide (r.serverSeq = some seq) with
    | some row =>
      simp only [act, Disk.appendRemoteWal, hfind] at h
      exact absurd h (by decide)
    | none => simp only [act, Disk.appendRemoteWal, hfind]
  | _ => exact absurd h (by simp [act])

end Replay

/-! ## The page and its stores -/

/-- The `IdbStorage` of every document, and the rows each has in the stores. -/
structure Tab (δ : Type*) where
  storage : δ → IdbStorage
  stores : δ → Idb
  /-- The calls since the page was loaded. -/
  calls : δ → List StorageCall
  /-- The calls before that whose transaction had run. -/
  kept : δ → List StorageCall

inductive TabStep (δ : Type*)
  | call (doc : δ) (c : StorageCall)
  /-- The transaction at the head of the document's flush chain commits. -/
  | commit (doc : δ)
  /-- The page is gone, and what had not committed with it; every document is loaded again. -/
  | crash
  deriving DecidableEq

section Tabs

variable {δ : Type*} [DecidableEq δ]

namespace Tab

/-- Every document opened on an empty database. -/
def fresh : Tab δ := ⟨fun _ => .load .empty, fun _ => .empty, fun _ => [], fun _ => []⟩

/-- How many calls since the last load have committed. -/
def settled (t : Tab δ) (doc : δ) : ℕ := (t.calls doc).length - (t.storage doc).flushChain.length

def step (t : Tab δ) : TabStep δ → Option (Tab δ)
  | .call doc c =>
    some
      { t with
        storage := Function.update t.storage doc ((t.storage doc).call c).1
        calls := Function.update t.calls doc (t.calls doc ++ [c]) }
  | .commit doc =>
    match (t.storage doc).flushChain with
    | [] => none
    | body :: rest =>
      some
        { t with
          storage := Function.update t.storage doc { t.storage doc with flushChain := rest }
          stores := Function.update t.stores doc ((t.stores doc).commit body) }
  | .crash =>
    some
      { storage := fun doc => .load (t.stores doc)
        stores := t.stores
        calls := fun _ => []
        kept := fun doc => t.kept doc ++ (t.calls doc).take (t.settled doc) }

end Tab

/-- Calls for any documents, commits and crashes in every order. -/
def tabs (δ : Type*) [DecidableEq δ] : Machine (Tab δ) (TabStep δ) := ⟨(· = .fresh), Tab.step⟩

/-- The stores hold what the calls that have committed made, and the chain the transactions of the
others. -/
structure Trails (storage : IdbStorage) (stores : Idb) (kept calls : List StorageCall) : Prop where
  keyed : stores.Keyed
  split : ∃ settled pending, calls = settled ++ pending ∧
    stores.load = replay .empty (kept ++ settled) ∧
    storage.flushChain = queued stores.load pending ∧ storage.mirror = replay stores.load pending

variable {t t' : Tab δ} {l : TabStep δ}

theorem Trails.call {storage : IdbStorage} {stores : Idb} {kept calls : List StorageCall}
    (h : Trails storage stores kept calls) (c : StorageCall) :
    Trails (storage.call c).1 stores kept (calls ++ [c]) := by
  obtain ⟨settled, pending, hcalls, hload, hchain, hmirror⟩ := h.split
  obtain ⟨hfields, _, henq⟩ := storage.call_spec c
  refine ⟨h.keyed, settled, pending ++ [c], ?_, hload, ?_, ?_⟩
  · rw [hcalls, List.append_assoc]
  · rw [henq, hchain, hmirror, queued_append]
    rfl
  · rw [hfields, hmirror, replay_append]
    rfl

theorem Trails.commit {storage : IdbStorage} {stores : Idb} {kept calls : List StorageCall}
    {body : List Write} {rest : List (List Write)} (h : Trails storage stores kept calls)
    (hchain : storage.flushChain = body :: rest) :
    Trails { storage with flushChain := rest } (stores.commit body) kept calls := by
  obtain ⟨settled, pending, hcalls, hload, hqueue, hmirror⟩ := h.split
  cases pending with
  | nil => exact absurd (hchain.symm.trans hqueue) (by simp [queued])
  | cons c pending =>
    obtain ⟨rfl, rfl⟩ := List.cons.inj (hchain.symm.trans hqueue)
    obtain ⟨hnext, hkeyed⟩ := commit_load h.keyed c
    refine ⟨hkeyed, settled ++ [c], pending, ?_, ?_, ?_, ?_⟩
    · rw [hcalls, List.append_assoc, List.singleton_append]
    · rw [hnext, hload, ← List.append_assoc, @replay_append _ (kept ++ settled) [c]]
      rfl
    · exact congrArg (queued · pending) hnext.symm
    · exact hmirror.trans (congrArg (replay · pending) hnext.symm)

/-- What a crash leaves is a prefix of the calls, and loading it starts over. -/
theorem Trails.crash {storage : IdbStorage} {stores : Idb} {kept calls : List StorageCall}
    (h : Trails storage stores kept calls) :
    Trails (.load stores) stores
      (kept ++ calls.take (calls.length - storage.flushChain.length)) [] := by
  obtain ⟨settled, pending, hcalls, hload, hqueue, _⟩ := h.split
  have htake : calls.take (calls.length - storage.flushChain.length) = settled := by
    rw [hqueue, length_queued, hcalls, List.length_append, Nat.add_sub_cancel, List.take_left]
  refine ⟨h.keyed, [], [], rfl, ?_, rfl, rfl⟩
  rw [htake, List.append_nil, hload]

/-- Every step keeps every document behind its own calls. -/
theorem trails_step (h : ∀ doc, Trails (t.storage doc) (t.stores doc) (t.kept doc) (t.calls doc))
    (hstep : (tabs δ).step t l = some t') (doc : δ) :
    Trails (t'.storage doc) (t'.stores doc) (t'.kept doc) (t'.calls doc) := by
  cases l with
  | call d c =>
    obtain rfl := Option.some.inj hstep
    by_cases hd : doc = d
    · subst hd
      simpa using (h doc).call c
    · simpa [hd] using h doc
  | commit d =>
    have hstep : Tab.step t (.commit d) = some t' := hstep
    unfold Tab.step at hstep
    dsimp only at hstep
    split at hstep
    · exact absurd hstep (by simp)
    · rename_i body rest hchain
      obtain rfl := Option.some.inj hstep
      by_cases hd : doc = d
      · subst hd
        simpa using (h doc).commit hchain
      · simpa [hd] using h doc
  | crash =>
    obtain rfl := Option.some.inj hstep
    exact (h doc).crash

theorem trails_of_reachable (h : (tabs δ).Reachable t) (doc : δ) :
    Trails (t.storage doc) (t.stores doc) (t.kept doc) (t.calls doc) := by
  revert doc
  apply h.invariant
  · rintro t rfl doc
    exact ⟨.nil, [], [], rfl, rfl, rfl, rfl⟩
  · intro t l t' _ ih _ hstep
    exact trails_step ih hstep

/-- **Crash-prefix consistency.**  Whenever the page dies, what `load` returns for a document is
what a `MemStorage` holds after the calls a former load returned and some of the calls since, in
order; and a call that appends a row answers a seq above every row of the document in the
stores. -/
theorem prefix_after_crash (h : (tabs δ).Reachable t) (doc : δ) :
    (∃ n, (IdbStorage.load (t.stores doc)).mirror =
      replay .empty (t.kept doc ++ (t.calls doc).take n)) ∧
    ∀ c, ((t.storage doc).call c).2.inserted = true →
      ∀ r ∈ (t.stores doc).ops, r.localSeq < ((t.storage doc).call c).2.localSeq := by
  obtain ⟨_, settled, pending, hcalls, hload, _, hmirror⟩ := trails_of_reachable h doc
  constructor
  · refine ⟨settled.length, ?_⟩
    rw [hcalls, List.take_left]
    exact hload
  · intro c hc r hr
    obtain ⟨_, hanswer, _⟩ := (t.storage doc).call_spec c
    rw [hanswer] at hc
    have hkey : r.localSeq ≤ (t.stores doc).load.nextLocalSeq := keysTo_load _ r hr
    have hgrow : (t.stores doc).load.nextLocalSeq ≤ (t.storage doc).mirror.nextLocalSeq :=
      hmirror ▸ le_replay_nextLocalSeq
    rw [hanswer, act_inserted hc]
    omega

/-- Two documents; the page dies between the appends of a document and after its fold. -/
def crashedAmid : List (TabStep Bool) :=
  let blob : Blob := ⟨none, 1⟩
  [.call true (.appendLocalWal blob), .call true (.appendRemoteWal 7 blob .new),
    .call true (.writeSnapshot 2 blob), .call false (.appendLocalWal blob),
    .call true (.appendLocalWal blob), .commit true, .commit false, .commit true, .commit true,
    .crash, .call true (.appendLocalWal blob)]

end Tabs

/-- After the crash the row that was above the fold is gone, and the next one gets its seq. -/
theorem prefix_after_crash_crashedAmid :
    ∃ t, (tabs Bool).exec .fresh crashedAmid = some t ∧ (t.stores true).ops = [] ∧
      (t.kept true).length = 3 ∧ (t.storage true).nextLocalSeq = 3 ∧
      ∃ n, (IdbStorage.load (t.stores true)).mirror =
        replay .empty (t.kept true ++ (t.calls true).take n) := by
  have hrun : (((tabs Bool).exec .fresh crashedAmid).map fun t =>
      decide ((t.stores true).ops = []) && decide ((t.kept true).length = 3) &&
        decide ((t.storage true).nextLocalSeq = 3)) = some true := by
    decide
  obtain ⟨t, ht, hfacts⟩ := Option.map_eq_some_iff.1 hrun
  simp only [Bool.and_eq_true, decide_eq_true_eq] at hfacts
  obtain ⟨⟨hops, hkept⟩, hnext⟩ := hfacts
  exact ⟨t, ht, hops, hkept, hnext, (prefix_after_crash (Machine.reach_of_exec rfl ht) true).1⟩

end Monoplan.Web
