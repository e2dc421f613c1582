import Mathlib.Data.UInt
import Monoplan.Base.Answers
import Monoplan.Storage.Sqlite

/-!
# `SqliteStorage` refines `MemStorage`

One `MemStorage` for each document against one database for all of them, over any calls and
reopenings of the file.

* `Matches`: the tables hold, for a document, what its `MemStorage` holds.
* `HighWater`: the counter of a `MemStorage` is what its rows and its snapshot reach, so that the
  database can read it off them.
* `act_matches`: one call answers alike and keeps both.
* `answers_alike`: so does a whole run.
-/

namespace Monoplan.Storage

open Monoplan.Base

/-! ## Casts -/

@[simp] theorem asU64_asI64 (n : UInt64) : asU64 (asI64 n) = n := by
  rw [asU64, asI64, Int64.ofInt_toInt, UInt64.toUInt64_toInt64]

theorem asI64_injective : Function.Injective asI64 :=
  Function.LeftInverse.injective asU64_asI64

@[simp] theorem asI64_inj {m n : UInt64} : asI64 m = asI64 n ↔ m = n := asI64_injective.eq_iff

/-- Below `2^63` the cast keeps the number. -/
theorem asI64_of_lt {n : UInt64} (h : n.toNat < 2 ^ 63) : asI64 n = n.toNat := by
  rw [asI64, Int64.toInt, UInt64.toBitVec_toInt64, BitVec.toInt_eq_toNat_of_lt]
  · rfl
  · simp only [UInt64.toNat_toBitVec]
    omega

theorem asI64_le {m n : UInt64} (hm : m.toNat < 2 ^ 63) (hn : n.toNat < 2 ^ 63) :
    asI64 m ≤ asI64 n ↔ m ≤ n := by
  rw [asI64_of_lt hm, asI64_of_lt hn, UInt64.le_iff_toNat_le]
  exact Int.ofNat_le

/-- A counter with room left does not wrap. -/
theorem toNat_succ {n : UInt64} (h : n.toNat < 2 ^ 63) : (n + 1).toNat = n.toNat + 1 := by
  rw [UInt64.toNat_add]
  have : (1 : UInt64).toNat = 1 := rfl
  omega

/-! ## What the tables hold for a document -/

def SnapshotRow.record (s : SnapshotRow) : SnapshotRecord :=
  ⟨asI64 s.upToLocalSeq, s.payload.ciphertext, s.payload.nonce⟩

def MemWalRow.record (id : Bytes) (r : MemWalRow) : WalRecord :=
  ⟨id, asI64 r.localSeq, r.serverSeq.map asI64, r.payload.ciphertext, r.payload.nonce⟩

def InFlightPush.record (p : InFlightPush) : InFlightRecord :=
  ⟨p.pushId.bytes, p.payload.ciphertext, p.payload.nonce, p.fromVv, p.toVv⟩

@[simp] theorem SnapshotRow.row_record (s : SnapshotRow) : s.record.row = s := by
  simp [record, SnapshotRecord.row, blobFrom]

@[simp] theorem MemWalRow.row_record (id : Bytes) (r : MemWalRow) :
    (r.record id).row = ⟨r.localSeq, r.payload⟩ := by
  simp [record, WalRecord.row, blobFrom]

@[simp] theorem InFlightPush.push_record (p : InFlightPush) : p.record.push = some p := by
  simp [record, InFlightRecord.push, blobFrom]

/-- The tables hold for the document `id` what `m` holds. -/
structure Matches (db : Db) (id : Bytes) (m : MemInner) : Prop where
  wal : db.walOf id = m.wal.map (MemWalRow.record id)
  snapshot : db.snapshots.get id = m.snapshot.map SnapshotRow.record
  inFlight : db.inFlightPush.get id = m.inFlight.map InFlightPush.record
  acked : ((db.docs.get id).map DocsRow.lastAckedServerSeq).getD 0 = asI64 m.lastAckedServerSeq
  known : ((db.docs.get id).bind DocsRow.serverKnownVv).getD [] = m.serverKnownVv

/-- The counter is the highest seq of the WAL rows and the snapshot, and `room` more rows fit
under the sign bit. -/
structure HighWater (room : ℕ) (m : MemInner) : Prop where
  ascending : m.wal.Pairwise fun a b => a.localSeq < b.localSeq
  rows : ∀ r ∈ m.wal, r.localSeq ≤ m.nextLocalSeq
  snapshot : ∀ s ∈ m.snapshot, s.upToLocalSeq ≤ m.nextLocalSeq
  reached : m.nextLocalSeq = 0 ∨ (∃ r ∈ m.wal, r.localSeq = m.nextLocalSeq) ∨
    ∃ s ∈ m.snapshot, s.upToLocalSeq = m.nextLocalSeq
  room : m.nextLocalSeq.toNat + room < 2 ^ 63

variable {db db' : Db} {id key : Bytes} {m : MemInner} {room : ℕ}

namespace HighWater

theorem counter_lt (h : HighWater room m) : m.nextLocalSeq.toNat < 2 ^ 63 := by
  have := h.room
  omega

theorem row_lt (h : HighWater room m) {r : MemWalRow} (hr : r ∈ m.wal) :
    r.localSeq.toNat < 2 ^ 63 :=
  lt_of_le_of_lt (UInt64.le_iff_toNat_le.1 (h.rows r hr)) h.counter_lt

theorem mono {room' : ℕ} (h : HighWater room m) (hle : room' ≤ room) : HighWater room' m :=
  { h with room := by have := h.room; omega }

/-- Only the rows, the snapshot and the counter matter. -/
theorem of_eq {m' : MemInner} (h : HighWater room m) (hnext : m'.nextLocalSeq = m.nextLocalSeq)
    (hwal : m'.wal = m.wal) (hsnap : m'.snapshot = m.snapshot) : HighWater room m' := by
  obtain ⟨hasc, hrows, hs, hreached, hroom⟩ := h
  rw [← hnext] at hrows hs hreached hroom
  rw [← hwal] at hasc hrows hreached
  rw [← hsnap] at hs hreached
  exact ⟨hasc, hrows, hs, hreached, hroom⟩

/-- A row under the next seq. -/
theorem push (h : HighWater (room + 1) m) (serverSeq : Option ServerSeq) (payload : EncryptedBlob) :
    HighWater room (m.push serverSeq payload) := by
  have hroom := h.room
  have hsucc := toNat_succ h.counter_lt
  have hlt : ∀ n : UInt64, n ≤ m.nextLocalSeq → n < m.nextLocalSeq + 1 := by
    intro n hn
    rw [UInt64.lt_iff_toNat_lt, hsucc]
    exact Nat.lt_succ_of_le (UInt64.le_iff_toNat_le.1 hn)
  constructor
  · show (m.wal ++ [_]).Pairwise _
    refine List.pairwise_append.2 ⟨h.ascending, List.pairwise_singleton _ _, ?_⟩
    intro a ha b hb
    rw [List.mem_singleton.1 hb]
    exact hlt _ (h.rows a ha)
  · intro r hr
    rcases List.mem_append.1 hr with hr | hr
    · exact UInt64.le_of_lt (hlt _ (h.rows r hr))
    · rw [List.mem_singleton.1 hr]
      exact UInt64.le_refl _
  · exact fun s hs => UInt64.le_of_lt (hlt _ (h.snapshot s hs))
  · exact .inr (.inl ⟨_, List.mem_append_right _ (List.mem_singleton_self _), rfl⟩)
  · show (m.nextLocalSeq + 1).toNat + room < 2 ^ 63
    omega

/-- A fold records the counter before it prunes. -/
theorem writeSnapshot (h : HighWater room m) (cutoff : LocalSeq) (payload : EncryptedBlob) :
    HighWater room (m.writeSnapshot cutoff payload) := by
  refine ⟨h.ascending.filter _, fun r hr => h.rows r (List.mem_of_mem_filter hr), ?_, ?_, h.room⟩
  · intro s hs
    rw [← Option.some.inj hs]
    exact UInt64.le_refl _
  · exact .inr (.inr ⟨_, rfl, rfl⟩)

end HighWater

theorem highWater_new (hroom : room < 2 ^ 63) : HighWater room .new where
  ascending := .nil
  rows := fun r hr => absurd hr List.not_mem_nil
  snapshot := fun s hs => absurd hs (by simp [MemInner.new])
  reached := .inl rfl
  room := by
    show 0 + room < 2 ^ 63
    omega

/-! ## Reading -/

namespace Matches

/-- The counter is read off the rows and the snapshot. -/
theorem maxLocalSeq (h : Matches db id m) (hw : HighWater room m) :
    db.maxLocalSeq id = m.nextLocalSeq := by
  have hnext := asI64_of_lt hw.counter_lt
  have hrows : ∀ x ∈ (db.walOf id).map WalRecord.localSeq,
      ∃ r ∈ m.wal, x = asI64 r.localSeq := by
    rw [h.wal, List.map_map]
    intro x hx
    obtain ⟨r, hr, rfl⟩ := List.mem_map.1 hx
    exact ⟨r, hr, rfl⟩
  have hmax : max (coalesceMax ((db.walOf id).map WalRecord.localSeq))
      (coalesceMax ((db.snapshots.get id).map SnapshotRecord.upToLocalSeq).toList) =
        asI64 m.nextLocalSeq := by
    apply max_coalesceMax
    · rw [hnext]
      exact Int.natCast_nonneg _
    · intro x hx
      obtain ⟨r, hr, rfl⟩ := hrows x hx
      rw [asI64_of_lt (hw.row_lt hr)]
      exact Int.natCast_nonneg _
    · intro x hx
      obtain ⟨r, hr, rfl⟩ := hrows x hx
      exact (asI64_le (hw.row_lt hr) hw.counter_lt).2 (hw.rows r hr)
    · rw [h.snapshot]
      intro x hx
      obtain ⟨s, hs, rfl⟩ : ∃ s ∈ m.snapshot, asI64 s.upToLocalSeq = x := by
        simpa [SnapshotRow.record] using hx
      have hle := hw.snapshot s hs
      exact (asI64_le (lt_of_le_of_lt (UInt64.le_iff_toNat_le.1 hle) hw.counter_lt)
        hw.counter_lt).2 hle
    · rcases hw.reached with h0 | ⟨r, hr, heq⟩ | ⟨s, hs, heq⟩
      · rw [h0]
        exact .inl rfl
      · refine .inr (.inl ?_)
        rw [h.wal, List.map_map]
        exact List.mem_map.2 ⟨r, hr, congrArg asI64 heq⟩
      · refine .inr (.inr ?_)
        rw [h.snapshot, Option.mem_def.1 hs]
        simp [SnapshotRow.record, heq]
  rw [Db.maxLocalSeq, hmax, asU64_asI64]

/-- What `boot` loads is what `MemStorage` loads. -/
theorem boot {doc : DocId} (h : Matches db doc.bytes m) (hw : HighWater room m) :
    SqliteStorage.boot db doc = .ok m.boot := by
  have hsorted : (db.walOf doc.bytes).insertionSort (fun a b => a.localSeq ≤ b.localSeq) =
      m.wal.map (MemWalRow.record doc.bytes) := by
    rw [h.wal]
    apply List.Pairwise.insertionSort_eq
    refine List.pairwise_map.2 (List.Pairwise.imp_of_mem (fun {a b} ha hb hlt => ?_) hw.ascending)
    exact (asI64_le (hw.row_lt ha) (hw.row_lt hb)).2 (UInt64.le_of_lt hlt)
  have hreplay : (m.wal.map (MemWalRow.record doc.bytes)).map WalRecord.row =
      m.wal.map fun r => ⟨r.localSeq, r.payload⟩ := by
    rw [List.map_map]
    exact List.map_congr_left fun r _ => r.row_record doc.bytes
  have hbytes : (m.wal.map fun r => (⟨r.localSeq, r.payload⟩ : WalRow)).foldl
      (fun n r => n + r.payload.size) 0 = m.wal.foldl (fun n r => n + r.payload.size) 0 :=
    List.foldl_map ..
  have hsnap : (db.snapshots.get doc.bytes).map SnapshotRecord.row = m.snapshot := by
    rw [h.snapshot, Option.map_map]
    exact (Option.map_congr fun s _ => s.row_record).trans Option.map_id'
  have hcursors : (((db.docs.get doc.bytes).map fun r =>
      (r.lastAckedServerSeq, r.serverKnownVv)).getD (0, none)) =
        (((db.docs.get doc.bytes).map DocsRow.lastAckedServerSeq).getD 0,
          (db.docs.get doc.bytes).bind DocsRow.serverKnownVv) := by
    cases db.docs.get doc.bytes <;> rfl
  unfold SqliteStorage.boot
  simp only [hsorted, hreplay, hbytes, hsnap, hcursors, h.acked, h.known, h.maxLocalSeq hw,
    asU64_asI64, h.inFlight]
  cases hpush : m.inFlight with
  | none => simp [MemInner.boot, hpush, bind, Except.bind]
  | some push => simp [MemInner.boot, hpush, bind, Except.bind]

end Matches

/-! ## Writing -/

/-- Nothing changes for the other documents. -/
structure Elsewhere (id : Bytes) (db db' : Db) : Prop where
  wal : ∀ key ≠ id, db'.walOf key = db.walOf key
  snapshot : ∀ key ≠ id, db'.snapshots.get key = db.snapshots.get key
  inFlight : ∀ key ≠ id, db'.inFlightPush.get key = db.inFlightPush.get key
  docs : ∀ key ≠ id, db'.docs.get key = db.docs.get key
  migrations : db'.migrations = db.migrations

theorem Elsewhere.refl (id : Bytes) (db : Db) : Elsewhere id db db :=
  ⟨fun _ _ => rfl, fun _ _ => rfl, fun _ _ => rfl, fun _ _ => rfl, rfl⟩

theorem Elsewhere.trans {db'' : Db} (h : Elsewhere id db db') (h' : Elsewhere id db' db'') :
    Elsewhere id db db'' where
  wal key hne := (h'.wal key hne).trans (h.wal key hne)
  snapshot key hne := (h'.snapshot key hne).trans (h.snapshot key hne)
  inFlight key hne := (h'.inFlight key hne).trans (h.inFlight key hne)
  docs key hne := (h'.docs key hne).trans (h.docs key hne)
  migrations := h'.migrations.trans h.migrations

theorem Elsewhere.matches_iff (h : Elsewhere id db db') (hne : key ≠ id) :
    Matches db' key m ↔ Matches db key m := by
  constructor
  · rintro ⟨hw, hs, hf, ha, hk⟩
    rw [h.wal key hne] at hw
    rw [h.snapshot key hne] at hs
    rw [h.inFlight key hne] at hf
    rw [h.docs key hne] at ha hk
    exact ⟨hw, hs, hf, ha, hk⟩
  · rintro ⟨hw, hs, hf, ha, hk⟩
    rw [← h.wal key hne] at hw
    rw [← h.snapshot key hne] at hs
    rw [← h.inFlight key hne] at hf
    rw [← h.docs key hne] at ha hk
    exact ⟨hw, hs, hf, ha, hk⟩

theorem elsewhere_ensureDoc (db : Db) (id : Bytes) : Elsewhere id db (db.ensureDoc id) := by
  unfold Db.ensureDoc
  split
  · exact .refl id db
  · exact ⟨fun _ _ => rfl, fun _ _ => rfl, fun _ _ => rfl,
      fun key hne => FMap.get_insert_ne _ _ hne, rfl⟩

theorem elsewhere_updateDoc (db : Db) (id : Bytes) (f : DocsRow → DocsRow) :
    Elsewhere id db (db.updateDoc id f) := by
  refine ⟨fun _ _ => rfl, fun _ _ => rfl, fun _ _ => rfl, fun key hne => ?_, rfl⟩
  show (db.docs.get key).map (fun row => if key = id then f row else row) = _
  simp [hne]

/-- The row a document has after `ensure_doc`. -/
theorem Matches.ensureDoc (h : Matches db id m) : Matches (db.ensureDoc id) id m ∧
    ∃ row, (db.ensureDoc id).docs.get id = some row := by
  unfold Db.ensureDoc
  split
  · rename_i row hrow
    exact ⟨h, row, hrow⟩
  · rename_i hrow
    have hget : (db.docs.insert id ⟨0, none⟩).get id = some ⟨0, none⟩ := FMap.get_insert_self ..
    have hacked := h.acked
    have hknown := h.known
    rw [hrow] at hacked hknown
    refine ⟨⟨h.wal, h.snapshot, h.inFlight, ?_, ?_⟩, _, hget⟩
    · rw [hget]
      exact hacked
    · rw [hget]
      exact hknown

/-- An update of the `docs` row. -/
theorem Matches.updateDoc (h : Matches db id m) {f : DocsRow → DocsRow} {row : DocsRow}
    {acked : ServerSeq} {vv : Bytes} (hrow : db.docs.get id = some row)
    (hacked : (f row).lastAckedServerSeq = asI64 acked)
    (hvv : (f row).serverKnownVv.getD [] = vv) :
    Matches (db.updateDoc id f) id { m with lastAckedServerSeq := acked, serverKnownVv := vv } := by
  have hget : (db.updateDoc id f).docs.get id = some (f row) := by
    show (db.docs.get id).map (fun row => if id = id then f row else row) = _
    rw [hrow, Option.map_some, if_pos rfl]
  refine ⟨h.wal, h.snapshot, h.inFlight, ?_, ?_⟩
  · rw [hget]
    exact hacked
  · rw [hget]
    exact hvv

/-- `ensure_doc`, then `UPDATE docs SET server_known_vv`. -/
def setKnown (db : Db) (id vv : Bytes) : Db :=
  (db.ensureDoc id).updateDoc id fun r => { r with serverKnownVv := some vv }

theorem Matches.setKnown (h : Matches db id m) (vv : Bytes) :
    Matches (setKnown db id vv) id { m with serverKnownVv := vv } ∧
      Elsewhere id db (setKnown db id vv) := by
  obtain ⟨h', row, hrow⟩ := h.ensureDoc
  have hacked := h'.acked
  rw [hrow] at hacked
  exact ⟨h'.updateDoc hrow hacked rfl,
    (elsewhere_ensureDoc db id).trans (elsewhere_updateDoc _ id _)⟩

/-- The next row breaks no constraint where no row of the document has its server seq. -/
theorem Matches.insertWal (h : Matches db id m) (hw : HighWater (room + 1) m)
    (serverSeq : Option ServerSeq) (payload : EncryptedBlob)
    (hnew : ∀ r ∈ m.wal, serverSeq ≠ none → r.serverSeq ≠ serverSeq) :
    ∃ db', db.insertWal id (m.nextLocalSeq + 1) serverSeq payload = some db' ∧
      Matches db' id (m.push serverSeq payload) ∧ Elsewhere id db db' := by
  have hfree : ∀ q ∈ db.wal.rows, ¬WalConflict q (MemWalRow.record id
      ⟨m.nextLocalSeq + 1, serverSeq, payload⟩) := by
    rintro q hq ⟨hdoc, hclash⟩
    have hmem : q ∈ db.walOf id := Table.mem_select.2 ⟨hq, decide_eq_true hdoc⟩
    rw [h.wal] at hmem
    obtain ⟨r, hr, rfl⟩ := List.mem_map.1 hmem
    rcases hclash with hseq | ⟨hsome, hsrv⟩
    · have hle := UInt64.le_iff_toNat_le.1 (hw.rows r hr)
      rw [asI64_injective hseq, toNat_succ hw.counter_lt] at hle
      omega
    · have hsrv' : r.serverSeq = serverSeq := Option.map_injective asI64_injective hsrv
      refine hnew r hr ?_ hsrv'
      rintro rfl
      exact hsome (by simp [MemWalRow.record, hsrv'])
  obtain ⟨wal, hins, hrows⟩ := Table.insert_eq_some hfree
  refine ⟨{ db with wal }, ?_, ⟨?_, h.snapshot, h.inFlight, h.acked, h.known⟩, ?_⟩
  · exact congrArg (Option.map fun wal => { db with wal }) hins
  · refine (Table.select_append hrows (decide_eq_true rfl)).trans ?_
    show db.walOf id ++ _ = (m.wal ++ [_]).map _
    rw [h.wal, List.map_append]
    rfl
  · refine ⟨fun key hne => ?_, fun _ _ => rfl, fun _ _ => rfl, fun _ _ => rfl, rfl⟩
    exact Table.select_append_ne hrows (decide_eq_false fun heq => hne heq.symm)

/-! ## One call -/

/-- A prune bound below the sign bit. -/
def Call.Bounded : Call → Prop
  | .writeSnapshot cutoff _ => cutoff.toNat < 2 ^ 63
  | _ => True

/-- The rows a call may append. -/
def Call.appends : Call → ℕ
  | .appendLocalWal _ | .appendRemoteWal .. => 1
  | _ => 0

/-- A call that answers alike, keeps what it keeps, and touches one document. -/
structure Alike (room : ℕ) (id : Bytes) (db : Db) (out : Db × Returned)
    (out' : MemInner × Returned) : Prop where
  answer : out.2 = out'.2
  kept : Matches out.1 id out'.1
  counter : HighWater room out'.1
  elsewhere : Elsewhere id db out.1

variable {doc : DocId}

theorem appendLocalWal_alike (h : Matches db doc.bytes m) (hw : HighWater (room + 1) m)
    (payload : EncryptedBlob) :
    Alike room doc.bytes db (SqliteStorage.act db doc (.appendLocalWal payload))
      (m.act (.appendLocalWal payload)) := by
  obtain ⟨h', _⟩ := h.ensureDoc
  obtain ⟨db', hins, hdb', helse⟩ :=
    h'.insertWal hw none payload fun _ _ hne => absurd rfl hne
  have hact : SqliteStorage.act db doc (.appendLocalWal payload) =
      (db', .ok (.appended (m.nextLocalSeq + 1))) := by
    simp only [SqliteStorage.act, SqliteStorage.appendLocalWal, h'.maxLocalSeq hw, hins]
  rw [hact]
  exact ⟨rfl, hdb', hw.push none payload, (elsewhere_ensureDoc db _).trans helse⟩

/-- The row with a server seq, found in the table and in the vector. -/
theorem find_serverSeq (h : Matches db id m) (seq : ServerSeq) :
    (db.wal.rows.find? fun r => decide (r.docId = id) && decide (r.serverSeq = some (asI64 seq))) =
      (m.wal.find? fun r => decide (r.serverSeq = some seq)).map (MemWalRow.record id) := by
  have hrecord : ∀ r : MemWalRow,
      decide ((r.record id).serverSeq = some (asI64 seq)) = decide (r.serverSeq = some seq) := by
    intro r
    cases hsrv : r.serverSeq <;> simp [MemWalRow.record, hsrv]
  rw [Table.find_select, show db.wal.select _ = _ from h.wal, List.find?_map]
  congr 2
  exact funext hrecord

theorem appendRemoteWal_alike (h : Matches db doc.bytes m) (hw : HighWater (room + 1) m)
    (row : RemoteWalRow) (vv : Bytes) :
    Alike room doc.bytes db (SqliteStorage.act db doc (.appendRemoteWal row vv))
      (m.act (.appendRemoteWal row vv)) := by
  obtain ⟨htx, helse⟩ := h.setKnown vv
  have hw' : HighWater (room + 1) { m with serverKnownVv := vv } := hw.of_eq rfl rfl rfl
  have hfind := find_serverSeq htx row.serverSeq
  unfold setKnown at htx helse hfind
  cases hexisting : m.wal.find? fun r => decide (r.serverSeq = some row.serverSeq) with
  | some existing =>
    rw [hexisting, Option.map_some] at hfind
    have hact : (SqliteStorage.act db doc (.appendRemoteWal row vv)) =
        (setKnown db doc.bytes vv,
          .ok (.received (asU64 (existing.record doc.bytes).localSeq) false)) := by
      simp only [SqliteStorage.act, SqliteStorage.appendRemoteWal, hfind, setKnown]
    have hmem : m.act (.appendRemoteWal row vv) =
        ({ m with serverKnownVv := vv }, .ok (.received existing.localSeq false)) := by
      simp only [MemInner.act, MemInner.appendRemoteWal, hexisting]
    rw [hact, hmem]
    refine ⟨?_, htx, hw'.mono (Nat.le_succ _), helse⟩
    rw [MemWalRow.record, asU64_asI64]
  | none =>
    rw [hexisting, Option.map_none] at hfind
    have hnew : ∀ r ∈ m.wal, some row.serverSeq ≠ none → r.serverSeq ≠ some row.serverSeq :=
      fun r hr _ => of_decide_eq_false (Bool.not_eq_true _ ▸ List.find?_eq_none.1 hexisting r hr)
    obtain ⟨db', hins, hdb', helse'⟩ := htx.insertWal hw' (some row.serverSeq) row.payload hnew
    have hact : (SqliteStorage.act db doc (.appendRemoteWal row vv)) =
        (db', .ok (.received (m.nextLocalSeq + 1) true)) := by
      simp only [SqliteStorage.act, SqliteStorage.appendRemoteWal, hfind, htx.maxLocalSeq hw', hins]
    have hmem : m.act (.appendRemoteWal row vv) =
        (({ m with serverKnownVv := vv } : MemInner).push (some row.serverSeq) row.payload,
          .ok (.received (m.nextLocalSeq + 1) true)) := by
      simp only [MemInner.act, MemInner.appendRemoteWal, hexisting]
    rw [hact, hmem]
    exact ⟨rfl, hdb', hw'.push _ _, helse.trans helse'⟩

theorem writeSnapshot_alike (h : Matches db doc.bytes m) (hw : HighWater room m)
    {cutoff : LocalSeq} (hcut : cutoff.toNat < 2 ^ 63) (payload : EncryptedBlob) :
    Alike room doc.bytes db (SqliteStorage.act db doc (.writeSnapshot cutoff payload))
      (m.act (.writeSnapshot cutoff payload)) := by
  obtain ⟨h', _⟩ := h.ensureDoc
  refine ⟨rfl, ?_, hw.writeSnapshot cutoff payload,
    (elsewhere_ensureDoc db _).trans ⟨fun key hne => ?_, fun key hne => ?_, fun _ _ => rfl,
      fun _ _ => rfl, rfl⟩⟩
  · refine ⟨?_, ?_, h'.inFlight, h'.acked, h'.known⟩
    · show Table.select (Table.delete _ _) _ = (m.wal.filter _).map _
      rw [Table.select_delete, show Table.select _ _ = _ from h'.wal, List.filter_map]
      congr 1
      refine List.filter_congr fun r hr => ?_
      have hle := asI64_le (hw.row_lt hr) hcut
      show (!(decide (doc.bytes = doc.bytes) && decide (asI64 r.localSeq ≤ asI64 cutoff))) = _
      rw [decide_eq_true rfl, Bool.true_and, ← decide_not]
      exact decide_eq_decide.2 (by rw [hle, UInt64.not_le])
    · show (FMap.insert _ _ _).get _ = some _
      rw [FMap.get_insert_self, h'.maxLocalSeq hw]
      rfl
  · refine Table.select_delete_of_disjoint fun r hr => ?_
    rw [of_decide_eq_true hr, decide_eq_false hne, Bool.false_and]
  · exact FMap.get_insert_ne _ _ hne

theorem completePush_alike (h : Matches db doc.bytes m) (hw : HighWater room m)
    (push : PushId) (vv : Bytes) :
    Alike room doc.bytes db (SqliteStorage.act db doc (.completePush push vv))
      (m.act (.completePush push vv)) := by
  obtain ⟨htx, helse⟩ := h.setKnown vv
  have hnamed : ((setKnown db doc.bytes vv).inFlightPush.get doc.bytes).map InFlightRecord.pushId =
      some push.bytes ↔ m.inFlight.map InFlightPush.pushId = some push := by
    rw [htx.inFlight]
    cases m.inFlight with
    | none => simp
    | some p => simp [InFlightPush.record, Uuid.bytes_injective.eq_iff]
  refine ⟨rfl, ⟨htx.wal, htx.snapshot, ?_, htx.acked, htx.known⟩, hw.of_eq rfl rfl rfl,
    helse.trans ⟨fun _ _ => rfl, fun _ _ => rfl, fun key hne => ?_, fun _ _ => rfl, rfl⟩⟩
  · show (if ((setKnown db doc.bytes vv).inFlightPush.get doc.bytes).map InFlightRecord.pushId =
      some push.bytes then _ else _ : FMap _ _).get _ = Option.map _ (if _ then _ else _)
    by_cases hp : m.inFlight.map InFlightPush.pushId = some push
    · rw [if_pos (hnamed.2 hp), if_pos hp]
      exact FMap.get_erase_self ..
    · rw [if_neg (fun hn => hp (hnamed.1 hn)), if_neg hp]
      exact htx.inFlight
  · show (if ((setKnown db doc.bytes vv).inFlightPush.get doc.bytes).map InFlightRecord.pushId =
      some push.bytes then _ else _ : FMap _ _).get _ = _
    split
    · exact FMap.get_erase_ne _ hne
    · rfl

/-- **One call.** -/
theorem act_alike (h : Matches db doc.bytes m) (c : Call) (hw : HighWater (room + c.appends) m)
    (hc : c.Bounded) :
    Alike room doc.bytes db (SqliteStorage.act db doc c) (m.act c) := by
  cases c with
  | boot =>
    refine ⟨?_, h, hw, .refl _ _⟩
    rw [SqliteStorage.act, h.boot hw]
    rfl
  | appendLocalWal payload => exact appendLocalWal_alike h hw payload
  | appendRemoteWal row vv => exact appendRemoteWal_alike h hw row vv
  | writeSnapshot cutoff payload => exact writeSnapshot_alike h hw hc payload
  | writeAckedSeq seq =>
    obtain ⟨h', row, hrow⟩ := h.ensureDoc
    have hknown := h'.known
    rw [hrow] at hknown
    exact ⟨rfl, h'.updateDoc hrow rfl hknown, hw.of_eq rfl rfl rfl,
      (elsewhere_ensureDoc db _).trans (elsewhere_updateDoc _ _ _)⟩
  | writeServerKnownVv vv =>
    obtain ⟨htx, helse⟩ := h.setKnown vv
    exact ⟨rfl, htx, hw.of_eq rfl rfl rfl, helse⟩
  | putInFlightPush push =>
    obtain ⟨h', _⟩ := h.ensureDoc
    refine ⟨rfl, ⟨h'.wal, h'.snapshot, FMap.get_insert_self .., h'.acked, h'.known⟩,
      hw.of_eq rfl rfl rfl, (elsewhere_ensureDoc db _).trans ?_⟩
    exact ⟨fun _ _ => rfl, fun _ _ => rfl, fun _ hne => FMap.get_insert_ne _ _ hne, fun _ _ => rfl,
      rfl⟩
  | completePush push vv => exact completePush_alike h hw push vv

/-! ## Runs -/

/-- What goes on with a storage: a call for a document, or the file being opened again. -/
inductive Use
  | call (doc : DocId) (c : Call)
  | reopen
  deriving DecidableEq

/-- One database for all documents. -/
def SqliteStorage.step (db : Db) : Use → Db × Returned
  | .call doc c => SqliteStorage.act db doc c
  | .reopen => (db.opened, .ok .done)

/-- One `MemStorage`, whatever the document. -/
def MemStorage.step (m : MemInner) : Use → MemInner × Returned
  | .call _ c => m.act c
  | .reopen => (m, .ok .done)

/-- One `MemStorage` for each document. -/
def MemStorage.stepEach (ms : DocId → MemInner) : Use → (DocId → MemInner) × Returned
  | .call doc c => (Function.update ms doc ((ms doc).act c).1, ((ms doc).act c).2)
  | .reopen => (ms, .ok .done)

def Use.Bounded : Use → Prop
  | .call _ c => c.Bounded
  | .reopen => True

/-- The rows that may be appended to a document. -/
def appendsTo (doc : DocId) : List Use → ℕ
  | [] => 0
  | .call d c :: us => (if d = doc then c.appends else 0) + appendsTo doc us
  | .reopen :: us => appendsTo doc us

/-- Every document matches, with room for what is to come. -/
structure Serves (uses : List Use) (db : Db) (ms : DocId → MemInner) : Prop where
  migrated : "001_init" ∈ db.migrations
  bounded : ∀ u ∈ uses, u.Bounded
  kept : ∀ doc, Matches db doc.bytes (ms doc)
  counter : ∀ doc, HighWater (appendsTo doc uses) (ms doc)

theorem step_serves {u : Use} {us : List Use} {ms : DocId → MemInner}
    (h : Serves (u :: us) db ms) :
    (SqliteStorage.step db u).2 = (MemStorage.stepEach ms u).2 ∧
      Serves us (SqliteStorage.step db u).1 (MemStorage.stepEach ms u).1 := by
  obtain ⟨hmig, hbounded, hkept, hcounter⟩ := h
  obtain ⟨hu, hus⟩ := List.forall_mem_cons.1 hbounded
  cases u with
  | reopen =>
    rw [SqliteStorage.step, Db.opened, if_pos hmig]
    exact ⟨rfl, hmig, hus, hkept, hcounter⟩
  | call doc c =>
    have hw : HighWater (appendsTo doc us + c.appends) (ms doc) := by
      have := hcounter doc
      rwa [appendsTo, if_pos rfl, Nat.add_comm] at this
    have halike := act_alike (hkept doc) c hw hu
    refine ⟨halike.answer, halike.elsewhere.migrations.symm ▸ hmig, hus, fun d => ?_, fun d => ?_⟩
    · by_cases hd : d = doc
      · subst hd
        simpa [MemStorage.stepEach, SqliteStorage.step] using halike.kept
      · have hne : d.bytes ≠ doc.bytes := fun heq => hd (Uuid.bytes_injective heq)
        have hsame := (halike.elsewhere.matches_iff hne).2 (hkept d)
        simpa [MemStorage.stepEach, SqliteStorage.step, hd] using hsame
    · by_cases hd : d = doc
      · subst hd
        simpa [MemStorage.stepEach] using halike.counter
      · have := hcounter d
        rw [appendsTo, if_neg (fun heq => hd heq.symm), Nat.zero_add] at this
        simpa [MemStorage.stepEach, hd] using this

/-- **`SqliteStorage` answers what a `MemStorage` for each document answers**, as long as the
prune bounds and the number of rows a document gets stay below the sign bit of its columns. -/
theorem answers_alike (uses : List Use) (hbounded : ∀ u ∈ uses, u.Bounded)
    (hrows : ∀ doc, appendsTo doc uses < 2 ^ 63) :
    answers SqliteStorage.step Db.blank.opened uses =
      answers MemStorage.stepEach (fun _ => .new) uses := by
  have hfresh : Serves uses Db.blank.opened fun _ => .new :=
    ⟨List.mem_cons_self, hbounded, fun _ => ⟨rfl, rfl, rfl, rfl, rfl⟩,
      fun doc => highWater_new (hrows doc)⟩
  apply answers_eq _ hfresh
  intro u us db ms h
  exact step_serves h

theorem appendsTo_le_length (doc : DocId) (uses : List Use) : appendsTo doc uses ≤ uses.length := by
  induction uses with
  | nil => exact le_rfl
  | cons u us ih =>
    cases u with
    | reopen => exact ih.trans (Nat.le_succ _)
    | call d c =>
      have hone : c.appends ≤ 1 := by cases c <;> simp [Call.appends]
      rw [appendsTo, List.length_cons]
      split <;> omega

/-! ## Where they differ -/

/-- The document of `n`. -/
def docOf (n : UInt8) : DocId := ⟨List.replicate 16 n, rfl⟩

/-- A payload of one byte. -/
def sealed (n : UInt8) : EncryptedBlob := ⟨[0], [n]⟩

/-- Rows for two documents, one of them a repeat, a fold of what is there and one row after it. -/
def mixedUses : List Use :=
  [.call (docOf 1) (.appendRemoteWal ⟨7, sealed 1⟩ [1]), .call (docOf 2) (.appendLocalWal (sealed 2)),
    .call (docOf 1) (.appendRemoteWal ⟨7, sealed 1⟩ [1, 2]),
    .call (docOf 1) (.writeSnapshot 1 (sealed 3)), .reopen,
    .call (docOf 1) (.appendLocalWal (sealed 4)), .call (docOf 1) .boot, .call (docOf 2) .boot]

theorem answers_alike_mixedUses :
    answers SqliteStorage.step Db.blank.opened mixedUses =
      answers MemStorage.stepEach (fun _ => .new) mixedUses :=
  answers_alike mixedUses (by simp [mixedUses, Use.Bounded, Call.Bounded])
    fun doc => lt_of_le_of_lt (appendsTo_le_length doc mixedUses) (by decide)

/-- A `MemStorage` that two documents share gives one what was appended to the other, and a prune
bound with its top bit set prunes all of a `MemStorage` and nothing of the database. -/
theorem answers_differ :
    answers SqliteStorage.step Db.blank.opened
        [.call (docOf 1) (.appendLocalWal (sealed 1)), .call (docOf 2) .boot] ≠
      answers MemStorage.step .new
        [.call (docOf 1) (.appendLocalWal (sealed 1)), .call (docOf 2) .boot] ∧
    answers SqliteStorage.step Db.blank.opened
        [.call (docOf 1) (.appendLocalWal (sealed 1)),
          .call (docOf 1) (.writeSnapshot (2 ^ 63) (sealed 2)), .call (docOf 1) .boot] ≠
      answers MemStorage.stepEach (fun _ => .new)
        [.call (docOf 1) (.appendLocalWal (sealed 1)),
          .call (docOf 1) (.writeSnapshot (2 ^ 63) (sealed 2)), .call (docOf 1) .boot] := by
  constructor
  · decide +kernel
  · decide +kernel

end Monoplan.Storage
