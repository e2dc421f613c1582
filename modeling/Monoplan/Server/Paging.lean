import Mathlib.Data.List.Sort
import Monoplan.Server.Retry

/-!
# Paged pulls

`pull_updates` answers one `PullUpdates` with batches.  Between two of them any other task may
run: rows are pushed, and rows are compacted.

* `PullRun` is a run of the server that answers one pull, up to the next frame or broadcast its
  connection picks.
* `Paged` says what its batches hold: the rows after the cursor in ascending order, none
  skipped and none repeated; every batch but the last non-empty and incomplete; the last one
  complete when the pull is over.
* `Answer` is the invariant behind it, kept by one batch (`Answer.pullBatch`) and by whatever
  the other tasks do in between (`Answer.grown`).
* `pull_pages_iff`: every pull is answered so exactly when its cursor is below `2⁶³`.  The
  cursor is bound as a signed number; from `2⁶³` on it is negative, and the whole log is sent.
-/

namespace Monoplan.Server

open Monoplan.Base Monoplan.Protocol

variable {β : Type*}

/-! ## Reading the answer off a socket -/

/-- One `UpdatesBatch`. -/
structure SentBatch (β : Type*) where
  updates : List (StoredBlob β)
  complete : Bool
  deriving DecidableEq

def Event.batch : Event β → Option (SentBatch β)
  | .sent (.updatesBatch updates complete) => some ⟨updates, complete⟩
  | _ => none

/-- The batches on a socket after its first `n` events. -/
def Session.batchesFrom (n : ℕ) (s : Session β) : List (SentBatch β) :=
  (s.log.drop n).filterMap Event.batch

/-- The concatenation of some batches. -/
def pulled (bs : List (SentBatch β)) : List (StoredBlob β) := bs.flatMap SentBatch.updates

/-- The last number sent; `since` where nothing was. -/
def lastSent (since : ℕ) (bs : List (SentBatch β)) : ℕ :=
  ((pulled bs).getLast?.map StoredBlob.seq).getD since

/-- A row as it is sent. -/
def UpdateRow.stored (r : UpdateRow β) : StoredBlob β := ⟨r.seq, r.blob⟩

@[simp] theorem pulled_nil : pulled ([] : List (SentBatch β)) = [] := rfl

@[simp] theorem pulled_append (bs : List (SentBatch β)) (b : SentBatch β) :
    pulled (bs ++ [b]) = pulled bs ++ b.updates := by
  simp [pulled]

theorem lastSent_append (since : ℕ) (bs : List (SentBatch β)) (b : SentBatch β) :
    lastSent since (bs ++ [b]) =
      (b.updates.getLast?.map StoredBlob.seq).getD (lastSent since bs) := by
  unfold lastSent
  rw [pulled_append, List.getLast?_append]
  cases b.updates.getLast? with
  | none => rfl
  | some u => rfl

theorem stored_seqs (rows : List (UpdateRow β)) :
    (rows.map UpdateRow.stored).map StoredBlob.seq = rows.map UpdateRow.seq := by
  rw [List.map_map]
  rfl

/-- An event at the end of the log. -/
theorem batchesFrom_record {n : ℕ} {s : Session β} (hn : n ≤ s.log.length) (e : Event β) :
    (s.record [e]).batchesFrom n = s.batchesFrom n ++ e.batch.toList := by
  rw [Session.batchesFrom, Session.record_log, List.drop_append_of_le_length hn,
    List.filterMap_append]
  cases h : e.batch <;> simp [Session.batchesFrom, h]

/-! ## One batch -/

/-- A batch is a run of the selected rows, all of them where nothing is left. -/
theorem takeBatch_rows [WireSize β] (taken bytes : ℕ) (rows : List (UpdateRow β)) :
    ∃ l r, rows = l ++ r ∧ (takeBatch taken bytes rows).updates = l.map UpdateRow.stored ∧
      (taken = 0 → (takeBatch taken bytes rows).hasMore = true → l ≠ []) := by
  induction rows generalizing taken bytes with
  | nil => exact ⟨[], [], rfl, rfl, fun _ h => by simp [takeBatch] at h⟩
  | cons row rows ih =>
    unfold takeBatch
    split_ifs with hcount hbytes
    · refine ⟨[], row :: rows, rfl, rfl, fun h0 => ?_⟩
      rw [h0, MAX_UPDATES_PER_BATCH] at hcount
      omega
    · exact ⟨[], row :: rows, rfl, rfl, fun h0 => absurd h0 hbytes.1⟩
    · obtain ⟨l, r, hrows, hup, -⟩ := ih (taken + 1) (bytes + WireSize.size row.blob)
      refine ⟨row :: l, r, by rw [hrows, List.cons_append], ?_, fun _ _ => by simp⟩
      rw [List.map_cons, ← hup]
      rfl

/-- **What one batch holds**: the first of the rows after the cursor, at least one of them where
there is more, and all of them where there is not. -/
theorem fetchUpdatesBatch_rows [WireSize β] (db : Db β) {since : ℕ}
    (hsince : since < 9223372036854775808) :
    ∃ l r, (db.updates.rows.filter fun row => decide (since < row.seq)) = l ++ r ∧
      (db.fetchUpdatesBatch since).updates = l.map UpdateRow.stored ∧
      ((db.fetchUpdatesBatch since).hasMore = true → l ≠ []) ∧
      ((db.fetchUpdatesBatch since).hasMore = false → r = []) := by
  have hcast : (fun row : UpdateRow β => decide (asI64 since < row.seq)) =
      fun row => decide (since < row.seq) := by
    funext row
    rw [asI64_of_lt hsince]
    simp
  obtain ⟨rest, hrest, hall⟩ := db.fetchUpdatesBatch_spec since
  rw [hcast] at hrest
  obtain ⟨l, r, hrows, hup, hmore⟩ := takeBatch_rows 0 0
    ((db.updates.rows.filter fun row => decide (asI64 since < row.seq)).take
      (MAX_UPDATES_PER_BATCH + 1))
  rw [hcast] at hrows
  refine ⟨l, r ++ (db.updates.rows.filter fun row => decide (since < row.seq)).drop
    (MAX_UPDATES_PER_BATCH + 1), ?_, hup, hmore rfl, fun hdone => ?_⟩
  · rw [← List.append_assoc, ← hrows, List.take_append_drop]
  · -- the numbers of the batch are those of `l`, and nothing is left after them
    rw [show (db.fetchUpdatesBatch since).updates = l.map UpdateRow.stored from hup,
      stored_seqs, hall hdone, List.append_nil] at hrest
    have hsplit := List.take_append_drop (MAX_UPDATES_PER_BATCH + 1)
      (db.updates.rows.filter fun row => decide (since < row.seq))
    rw [hrows, List.append_assoc] at hsplit
    rw [← hsplit, List.map_append] at hrest
    exact List.map_eq_nil_iff.1 (List.append_right_eq_self.1 hrest)

/-! ## What happens between two batches -/

/-- The log of a document later on: rows may be gone, and new ones have new numbers. -/
structure Grown (log log' : UpdateLog β) : Prop where
  nextSeq_le : log.nextSeq ≤ log'.nextSeq
  old : ∀ r ∈ log'.rows, r ∈ log.rows ∨ log.nextSeq ≤ r.seq

/-- An insert appends, under new numbers. -/
theorem insertUpdates_appends (db : Db β) (device : DeviceId) (us : List (PushBlob β)) :
    ∃ new, (db.insertUpdates device us).1.updates.rows = db.updates.rows ++ new ∧
      ∀ r ∈ new, db.updates.nextSeq ≤ r.seq := by
  induction us generalizing db with
  | nil => exact ⟨[], (List.append_nil _).symm, by simp⟩
  | cons u us ih =>
    simp only [Db.insertUpdates]
    obtain ⟨k, -, h⟩ | h := db.insertUpdate_cases device u
    · rw [h]
      exact ih db
    · rw [h]
      obtain ⟨new, hrows, hnew⟩ :=
        ih { db with updates := db.updates.append db.epoch device u }
      refine ⟨_ :: new, by rw [hrows, UpdateLog.append_rows, List.append_assoc]; rfl, ?_⟩
      intro r hr
      rcases List.mem_cons.1 hr with rfl | hr
      · exact le_rfl
      · have hle := hnew r hr
        rw [UpdateLog.append_nextSeq] at hle
        omega

/-- **What a step does to the log**: rows go by compaction only. -/
theorem step_grown [WireSize β] {cfg : SnapshotConfig} {w w' : World β} {l : Label β}
    (hstep : World.step cfg w l = some w') :
    Grown w.db.updates w'.db.updates ∧
      (l ≠ .compact → ∀ r ∈ w.db.updates.rows, r ∈ w'.db.updates.rows) := by
  rcases step_updates hstep with hsame | ⟨c, s, us, -, -, hins⟩ | ⟨hl, hdb⟩
  · rw [hsame]
    exact ⟨⟨le_rfl, fun r hr => .inl hr⟩, fun _ r hr => hr⟩
  · rw [hins]
    obtain ⟨new, hrows, hnew⟩ := insertUpdates_appends w.db s.auth.deviceId us
    refine ⟨⟨w.db.insertUpdates_nextSeq_le s.auth.deviceId us, ?_⟩, ?_⟩
    · intro r hr
      rw [hrows, List.mem_append] at hr
      exact hr.imp id (hnew r)
    · intro _ r hr
      rw [hrows]
      exact List.mem_append_left _ hr
  · refine ⟨?_, fun hne => absurd hl hne⟩
    rw [hdb]
    unfold Db.compactDoc
    split
    · exact ⟨le_rfl, fun r hr => .inl hr⟩
    · exact ⟨le_rfl, fun r hr => .inl (List.mem_filter.1 hr).1⟩

/-- The task of a connection takes up a frame or a broadcast, or leaves its loop. -/
def Label.picks (c : ConnId) : Label β → Bool
  | .recv d _ => d = c
  | .deliver d => d = c
  | .close d => d = c
  | _ => false

/-- **What a step does to a connection that picks nothing**: nothing, or it ends the task, or
the handler goes on. -/
theorem step_busy [WireSize β] {cfg : SnapshotConfig} {w w' : World β} {c : ConnId}
    {s : Session β} {l : Label β} (hstep : World.step cfg w l = some w')
    (hs : w.sessions c = some s) (hl : l.picks c = false) :
    w'.sessions c = some s ∨
    (∃ s', w'.sessions c = some s' ∧ s'.log = s.log ∧ s'.pc = .ended) ∨
    (l = .resume c ∧ w.resume cfg c s = some w') := by
  cases l <;> simp only [World.step] at hstep
  case connect d auth =>
    split at hstep
    · cases hstep
    · rename_i hnone
      have hne : c ≠ d := by
        rintro rfl
        rw [hnone] at hs
        cases hs
      split at hstep
      · rw [← Option.some.inj hstep, World.put_sessions_ne _ _ hne]
        exact .inl hs
      · cases hstep
  case recv d f =>
    have hne : c ≠ d := fun he => by simp [Label.picks, he] at hl
    split at hstep
    · split at hstep
      · rw [← Option.some.inj hstep, World.handleFrame_sessions_ne hne]
        exact .inl hs
      · cases hstep
    · cases hstep
  case resume d =>
    by_cases hd : c = d
    · subst hd
      rw [hs] at hstep
      exact .inr (.inr ⟨rfl, hstep⟩)
    · split at hstep
      · rw [World.resume_sessions_ne hd hstep]
        exact .inl hs
      · cases hstep
  case deliver d =>
    have hne : c ≠ d := fun he => by simp [Label.picks, he] at hl
    split at hstep
    · split at hstep
      · split at hstep
        · rw [World.deliver_sessions_ne hne hstep]
          exact .inl hs
        · cases hstep
      · cases hstep
    · cases hstep
  case close d =>
    have hne : c ≠ d := fun he => by simp [Label.picks, he] at hl
    split at hstep
    · split at hstep
      · rw [← Option.some.inj hstep, World.endLoop, World.dropDoc_sessions_ne hne,
          World.releaseLease_sessions]
        exact .inl hs
      · cases hstep
    · cases hstep
  case abort d =>
    by_cases hd : c = d
    · subst hd
      rw [hs] at hstep
      have hend : (w.endByError c s).sessions c = some ((s.goto .ended).withDoc none) ∨
          (w.endByError c s).sessions c = some (s.goto .ended) := by
        unfold World.endByError World.dropDoc
        split
        · exact .inr (World.put_sessions_self _ _ _)
        · exact .inl (World.put_sessions_self _ _ _)
      have hout : w' = w.endByError c s := by
        cases hpc : s.pc <;> simp only [hpc, reduceCtorEq, Option.some.injEq] at hstep <;>
          exact hstep.symm
      rw [hout]
      rcases hend with h | h
      · exact .inr (.inl ⟨_, h, rfl, rfl⟩)
      · exact .inr (.inl ⟨_, h, rfl, rfl⟩)
    · split at hstep
      · split at hstep
        · cases hstep
        · cases hstep
        · rw [← Option.some.inj hstep, World.endByError, World.dropDoc_sessions_ne hd]
          exact .inl hs
      · cases hstep
  case compact =>
    split at hstep
    · cases hstep
    · rw [← Option.some.inj hstep]
      exact .inl hs
  case restart =>
    rw [← Option.some.inj hstep]
    refine .inr (.inl ⟨(s.goto .ended).withDoc none, ?_, rfl, rfl⟩)
    simp [World.restart, hs]
  all_goals exact .inl (Option.some.inj hstep ▸ hs)

/-! ## The invariant -/

/-- The answer so far, at any moment of a run. -/
structure Answer (since asked : ℕ) (w : World β) (s : Session β) (bs : List (SentBatch β)) :
    Prop where
  ascending : (since :: (pulled bs).map StoredBlob.seq).Pairwise (· < ·)
  below : ∀ b ∈ pulled bs, b.seq < w.db.updates.nextSeq
  /-- No row up to the last one sent was passed over. -/
  caught : ∀ r ∈ w.db.updates.rows, since < r.seq → r.seq ≤ lastSent since bs →
    r.stored ∈ pulled bs
  filled : ∀ b ∈ bs, b.complete = false → b.updates ≠ []
  final : ∀ b ∈ bs.dropLast, b.complete = false
  running : ∀ n, s.pc = .pulling n → n = lastSent since bs ∧ ∀ b ∈ bs, b.complete = false
  ending : (∃ n, s.pc = .pulling n) ∨ s.pc = .ended ∨
    s.pc = .ready ∧ (bs = [] ∨ ∃ b, bs.getLast? = some b ∧ b.complete = true)
  asked_le : asked ≤ w.db.updates.nextSeq
  /-- A complete batch leaves out nothing that was there when the pull was asked for. -/
  whole : (∃ b ∈ bs, b.complete = true) → ∀ r ∈ w.db.updates.rows, since < r.seq →
    r.seq < asked → r.stored ∈ pulled bs

namespace Answer

variable {since asked : ℕ} {w w' : World β} {s : Session β} {bs : List (SentBatch β)}

theorem since_le (h : Answer since asked w s bs) : since ≤ lastSent since bs := by
  unfold lastSent
  cases hlast : (pulled bs).getLast? with
  | none => exact le_rfl
  | some b =>
    have hmem : b.seq ∈ (pulled bs).map StoredBlob.seq :=
      List.mem_map_of_mem (List.mem_of_getLast? hlast)
    exact ((List.pairwise_cons.1 h.ascending).1 _ hmem).le

/-- The last number sent is the largest. -/
theorem le_lastSent (h : Answer since asked w s bs) {b : StoredBlob β} (hb : b ∈ pulled bs) :
    b.seq ≤ lastSent since bs := by
  have hasc := (List.pairwise_cons.1 h.ascending).2
  have hne : pulled bs ≠ [] := List.ne_nil_of_mem hb
  unfold lastSent
  rw [List.getLast?_eq_some_getLast hne]
  have hcut := List.dropLast_append_getLast hne
  rw [← hcut, List.mem_append, List.mem_singleton] at hb
  rw [← hcut, List.map_append, List.pairwise_append] at hasc
  rcases hb with hb | rfl
  · exact (hasc.2.2 _ (List.mem_map_of_mem hb) _ (by simp)).le
  · exact le_rfl

theorem lastSent_lt (h : Answer since asked w s bs) {n : ℕ} (hn : since < n)
    (hle : w.db.updates.nextSeq ≤ n) : lastSent since bs < n := by
  unfold lastSent
  cases hlast : (pulled bs).getLast? with
  | none => exact hn
  | some b => exact (h.below b (List.mem_of_getLast? hlast)).trans_le hle

/-- Whatever the log does next, the answer stands. -/
theorem grown (h : Answer since asked w s bs) (hg : Grown w.db.updates w'.db.updates) :
    Answer since asked w' s bs where
  ascending := h.ascending
  below b hb := (h.below b hb).trans_le hg.nextSeq_le
  caught r hr hlo hhi := by
    rcases hg.old r hr with hold | hnew
    · exact h.caught r hold hlo hhi
    · exact absurd (h.lastSent_lt hlo hnew) (not_lt.2 hhi)
  filled := h.filled
  final := h.final
  running := h.running
  ending := h.ending
  asked_le := h.asked_le.trans hg.nextSeq_le
  whole hb r hr hlo hhi := by
    rcases hg.old r hr with hold | hnew
    · exact h.whole hb r hold hlo hhi
    · exact absurd (hhi.trans_le (h.asked_le.trans hnew)) (lt_irrefl _)

/-- The task is over. -/
theorem ended (h : Answer since asked w s bs) {s' : Session β} (hpc : s'.pc = .ended) :
    Answer since asked w s' bs where
  ascending := h.ascending
  below := h.below
  caught := h.caught
  filled := h.filled
  final := h.final
  running n hn := by
    rw [hpc] at hn
    cases hn
  ending := .inr (.inl hpc)
  asked_le := h.asked_le
  whole := h.whole

/-- **One batch more.** -/
theorem pullBatch (h : Answer since asked w s bs) {l r : List (UpdateRow β)} {more : Bool}
    (hrun : ∃ n, s.pc = .pulling n)
    (hrows : (w.db.updates.rows.filter fun row => decide (lastSent since bs < row.seq)) = l ++ r)
    (hmore : more = true → l ≠ []) (hdone : more = false → r = []) {s' : Session β}
    (hpc : s'.pc = if more then
      .pulling (((l.map UpdateRow.stored).getLast?.map StoredBlob.seq).getD (lastSent since bs))
      else .ready) :
    Answer since asked w s' (bs ++ [⟨l.map UpdateRow.stored, !more⟩]) := by
  obtain ⟨n, hn⟩ := hrun
  have hold := (h.running n hn).2
  have hmem : ∀ {row}, row ∈ l ++ r ↔ row ∈ w.db.updates.rows ∧ lastSent since bs < row.seq := by
    intro row
    rw [← hrows, List.mem_filter, decide_eq_true_eq]
  have hasc : ((l ++ r).map UpdateRow.seq).Pairwise (· < ·) :=
    List.Pairwise.sublist ((hrows ▸ List.filter_sublist).map UpdateRow.seq)
      w.db.updates.dense.pairwise_lt
  rw [List.map_append, List.pairwise_append] at hasc
  have hlast : lastSent since (bs ++ [⟨l.map UpdateRow.stored, !more⟩]) =
      ((l.map UpdateRow.stored).getLast?.map StoredBlob.seq).getD (lastSent since bs) :=
    lastSent_append _ _ _
  -- a row up to the new mark was sent before or is in the batch
  have hcaught : ∀ row ∈ w.db.updates.rows, since < row.seq →
      (row ∈ r → ¬ row.seq ≤ lastSent since (bs ++ [⟨l.map UpdateRow.stored, !more⟩])) ∧
      (row ∉ r → row.stored ∈ pulled (bs ++ [⟨l.map UpdateRow.stored, !more⟩])) := by
    intro row hrow hlo
    rw [pulled_append, List.mem_append]
    refine ⟨fun hr hle => ?_, fun hr => ?_⟩
    · have hin := (hmem.1 (List.mem_append_right _ hr)).2
      rw [hlast] at hle
      rcases List.eq_nil_or_concat l with rfl | ⟨l', a, rfl⟩
      · exact absurd hin (not_lt.2 hle)
      · rw [List.concat_eq_append, List.map_append, List.getLast?_append] at hle
        have hlt := hasc.2.2 a.seq (by simp) row.seq (List.mem_map_of_mem hr)
        exact absurd hlt (not_lt.2 hle)
    · by_cases hle : row.seq ≤ lastSent since bs
      · exact .inl (h.caught row hrow hlo hle)
      · rcases List.mem_append.1 (hmem.2 ⟨hrow, not_le.1 hle⟩) with hl | hr'
        · exact .inr (List.mem_map_of_mem hl)
        · exact absurd hr' hr
  constructor
  case ascending =>
    rw [pulled_append, List.map_append, stored_seqs, ← List.cons_append, List.pairwise_append]
    refine ⟨h.ascending, hasc.1, fun a ha b hb => ?_⟩
    obtain ⟨row, hrow, rfl⟩ := List.mem_map.1 hb
    have hlt := (hmem.1 (List.mem_append_left _ hrow)).2
    rcases List.mem_cons.1 ha with rfl | ha
    · exact h.since_le.trans_lt hlt
    · obtain ⟨u, hu, rfl⟩ := List.mem_map.1 ha
      exact (h.le_lastSent hu).trans_lt hlt
  case below =>
    intro b hb
    rw [pulled_append, List.mem_append] at hb
    rcases hb with hb | hb
    · exact h.below b hb
    · obtain ⟨row, hrow, rfl⟩ := List.mem_map.1 hb
      exact w.db.updates.seq_lt (hmem.1 (List.mem_append_left _ hrow)).1
  case caught =>
    exact fun row hrow hlo hhi => (hcaught row hrow hlo).2 fun hr =>
      (hcaught row hrow hlo).1 hr hhi
  case filled =>
    intro b hb hcomplete
    rcases List.mem_append.1 hb with hb | hb
    · exact h.filled b hb hcomplete
    · obtain rfl := List.mem_singleton.1 hb
      have htrue : more = true := by simpa using hcomplete
      simpa using hmore htrue
  case final =>
    intro b hb
    rw [List.dropLast_concat] at hb
    exact hold b hb
  case running =>
    intro k hk
    cases more with
    | true =>
      refine ⟨?_, fun b hb => ?_⟩
      · rw [hlast]
        rw [hpc, if_pos rfl] at hk
        exact (Pc.pulling.inj hk).symm
      · rcases List.mem_append.1 hb with hb | hb
        · exact hold b hb
        · exact List.mem_singleton.1 hb ▸ rfl
    | false =>
      rw [hpc, if_neg Bool.false_ne_true] at hk
      cases hk
  case ending =>
    cases more with
    | true => exact .inl ⟨_, by rw [hpc, if_pos rfl]⟩
    | false =>
      have hend : s'.pc = .ready := by rw [hpc, if_neg Bool.false_ne_true]
      exact .inr (.inr ⟨hend, .inr ⟨⟨l.map UpdateRow.stored, true⟩, List.getLast?_concat, rfl⟩⟩)
  case asked_le => exact h.asked_le
  case whole =>
    rintro ⟨b, hb, hcomplete⟩ row hrow hlo -
    have hfalse : more = false := by
      rcases List.mem_append.1 hb with hb | hb
      · rw [hold b hb] at hcomplete
        cases hcomplete
      · rw [List.mem_singleton.1 hb] at hcomplete
        simpa using hcomplete
    refine (hcaught row hrow hlo).2 fun hr => ?_
    rw [hdone hfalse] at hr
    cases hr

end Answer

/-! ## Runs -/

/-- A run of the server in which the task of `c` answers one pull, up to what it picks next. -/
structure PullRun [WireSize β] (cfg : SnapshotConfig) (since : ℕ) (c : ConnId) (w : World β)
    (ls : List (Label β)) (w' : World β) (s s' : Session β) : Prop where
  before : w.sessions c = some s
  run : (server cfg).exec w (.recv c (.pullUpdates since) :: ls) = some w'
  after : w'.sessions c = some s'
  busy : ∀ l ∈ ls, l.picks c = false
  /-- `seq` is a 64-bit INTEGER column. -/
  fits : w'.db.updates.nextSeq ≤ 9223372036854775808

/-- **What the batches of a pull hold.** -/
structure Paged [WireSize β] (cfg : SnapshotConfig) (since asked : ℕ) (c : ConnId)
    (ls : List (Label β)) (w' : World β) (s' : Session β) (bs : List (SentBatch β)) : Prop where
  /-- They ascend from above the cursor, so none is repeated. -/
  ascending : (since :: (pulled bs).map StoredBlob.seq).Pairwise (· < ·)
  /-- No row of the log up to the last one sent was passed over. -/
  caught : ∀ r ∈ w'.db.updates.rows, since < r.seq → r.seq ≤ lastSent since bs →
    r.stored ∈ pulled bs
  /-- Where rows are only appended, they are the rows of the log up to the last one sent. -/
  exact_ : .compact ∉ ls → pulled bs =
    (w'.db.updates.rows.filter fun r =>
      decide (since < r.seq ∧ r.seq ≤ lastSent since bs)).map UpdateRow.stored
  /-- And their numbers have no gap. -/
  gapless : .compact ∉ ls → ∃ a, (pulled bs).map StoredBlob.seq =
    List.range' a (pulled bs).length
  /-- A batch that is not marked complete is not empty. -/
  filled : ∀ b ∈ bs, b.complete = false → b.updates ≠ []
  /-- Only the last batch is marked complete. -/
  final : ∀ b ∈ bs.dropLast, b.complete = false
  /-- A pull that is over ended with a complete batch, unless the task died or the cursor was
  below the floor. -/
  ending : (∃ n, s'.pc = .pulling n) ∨ s'.pc = .ended ∨
    s'.pc = .ready ∧ (bs = [] ∨ ∃ b, bs.getLast? = some b ∧ b.complete = true)
  /-- A complete batch leaves out nothing that was there when the pull was asked for. -/
  whole : (∃ b ∈ bs, b.complete = true) → ∀ r ∈ w'.db.updates.rows, since < r.seq →
    r.seq < asked → r.stored ∈ pulled bs
  /-- A running pull can go on, and each time it does it sends one batch more. -/
  goes : ∀ n, s'.pc = .pulling n → ∃ w'' s'' us complete,
    World.step cfg w' (.resume c) = some w'' ∧ w''.sessions c = some s'' ∧
      s''.log = s'.log ++ [.sent (.updatesBatch us complete)]
  /-- There are never more batches than numbers above the cursor, but for the last. -/
  few : ∀ n, s'.pc = .pulling n → bs.length ≤ w'.db.updates.nextSeq - 1 - since

/-- Ascending numbers below a bound are few. -/
theorem length_le_of_pairwise {a n : ℕ} {l : List ℕ} (h : (a :: l).Pairwise (· < ·))
    (hn : ∀ m ∈ l, m < n) : l.length ≤ n - 1 - a := by
  induction l generalizing a with
  | nil => exact Nat.zero_le _
  | cons b l ih =>
    rw [List.pairwise_cons] at h
    have hrest := ih h.2 fun m hm => hn m (List.mem_cons_of_mem _ hm)
    have hab := h.1 b List.mem_cons_self
    have hbn := hn b List.mem_cons_self
    rw [List.length_cons]
    omega

/-- Non-empty batches are at most as many as what they hold. -/
theorem length_le_pulled {bs : List (SentBatch β)} (h : ∀ b ∈ bs, b.updates ≠ []) :
    bs.length ≤ (pulled bs).length := by
  induction bs with
  | nil => exact Nat.zero_le _
  | cons b bs ih =>
    have hrest := ih fun d hd => h d (List.mem_cons_of_mem _ hd)
    have hpos := List.length_pos_of_ne_nil (h b List.mem_cons_self)
    simp only [pulled, List.flatMap_cons, List.length_append, List.length_cons] at hrest ⊢
    omega

/-- What a pull has done so far, seen from the socket. -/
def Answering (since asked n : ℕ) (c : ConnId) (w : World β) : Prop :=
  ∃ s, w.sessions c = some s ∧ n ≤ s.log.length ∧
    Answer since asked w s (s.batchesFrom n)

section Runs

variable [WireSize β] {cfg : SnapshotConfig} {since asked n : ℕ} {c : ConnId} {w w' : World β}
  {s s' : Session β} {ls : List (Label β)}

/-- One batch of a running pull. -/
theorem pullBatch_sends (cursor : ℕ) :
    ∃ s', (w.pullBatch c s cursor).sessions c = some s' ∧
      s'.log = s.log ++ [.sent (.updatesBatch (w.db.fetchUpdatesBatch cursor).updates
        !(w.db.fetchUpdatesBatch cursor).hasMore)] ∧
      (w.pullBatch c s cursor).db = w.db ∧
      s'.pc = if (w.db.fetchUpdatesBatch cursor).hasMore then
        .pulling (((w.db.fetchUpdatesBatch cursor).updates.getLast?.map StoredBlob.seq).getD
          cursor) else .ready := by
  simp only [World.pullBatch]
  split
  · rename_i hmore
    exact ⟨_, World.put_sessions_self _ _ _, rfl, rfl, by simp [hmore]⟩
  · rename_i hmore
    exact ⟨_, World.put_sessions_self _ _ _, rfl, rfl, by simp [hmore]⟩

omit [WireSize β] in
/-- Before the first batch. -/
theorem answering_start (hs : w.sessions c = some s) (hbs : s.batchesFrom n = [])
    (hlen : n ≤ s.log.length) (hpc : s.pc = .pulling since ∨ s.pc = .ended ∨ s.pc = .ready)
    (hasked : asked ≤ w.db.updates.nextSeq) : Answering since asked n c w := by
  refine ⟨s, hs, hlen, ?_⟩
  rw [hbs]
  constructor
  case ascending => exact List.pairwise_singleton _ _
  case running =>
    intro k hk
    rcases hpc with hpc | hpc | hpc <;> rw [hpc] at hk <;> cases hk
    exact ⟨rfl, by simp⟩
  case ending =>
    rcases hpc with hpc | hpc | hpc
    · exact .inl ⟨_, hpc⟩
    · exact .inr (.inl hpc)
    · exact .inr (.inr ⟨hpc, .inl rfl⟩)
  case caught => exact fun r _ hlo hhi => absurd hlo (not_lt.2 hhi)
  case asked_le => exact hasked
  all_goals simp

/-- The pull is taken up: the task dies, the pull is refused, or it is at its start. -/
theorem answering_recv (cfg : SnapshotConfig) (hs : w.sessions c = some s)
    (hstep : World.step cfg w (.recv c (.pullUpdates since)) = some w') :
    Answering since w.db.updates.nextSeq s.log.length c w' ∧
      ∀ t, w'.sessions c = some t → t.batchesFrom s.log.length = [] := by
  have hfound : ∀ (u : World β) (t : Session β), u.sessions c = some t →
      t.batchesFrom s.log.length = [] → s.log.length ≤ t.log.length →
      (t.pc = .pulling since ∨ t.pc = .ended ∨ t.pc = .ready) → u.db.updates = w.db.updates →
      Answering since w.db.updates.nextSeq s.log.length c u ∧
        ∀ t, u.sessions c = some t → t.batchesFrom s.log.length = [] := by
    intro u t ht hbs hlen hpc hdb
    refine ⟨answering_start ht hbs hlen hpc (hdb ▸ le_rfl), fun t' ht' => ?_⟩
    rw [← Option.some.inj (ht.symm.trans ht')]
    exact hbs
  simp only [World.step, hs] at hstep
  split at hstep
  · rename_i hready
    have hpc := Pc.eq_ready hready
    obtain rfl := Option.some.inj hstep
    simp only [World.handleFrame, Session.record_openDoc]
    split
    · rename_i hopen
      refine hfound _ ((s.record [.received (.pullUpdates since)]).goto .ended) ?_ ?_ ?_
        (.inr (.inl rfl)) ?_ <;>
        simp [Session.batchesFrom, Event.batch, World.endByError, World.dropDoc, hopen]
    · unfold World.pullUpdates
      split
      · split
        · rename_i latest _ _
          refine hfound _ ((s.record [.received (.pullUpdates since)]).send
            (.snapshotRequired latest.upToSeq)) (World.put_sessions_self _ _ _) ?_ ?_
            (.inr (.inr hpc)) rfl <;> simp [Session.batchesFrom, Event.batch]
        · refine hfound _ ((s.record [.received (.pullUpdates since)]).goto (.pulling since))
            (World.put_sessions_self _ _ _) ?_ ?_ (.inl rfl) rfl <;>
            simp [Session.batchesFrom, Event.batch]
      · refine hfound _ ((s.record [.received (.pullUpdates since)]).goto (.pulling since))
          (World.put_sessions_self _ _ _) ?_ ?_ (.inl rfl) rfl <;>
          simp [Session.batchesFrom, Event.batch]
  · cases hstep

/-- **Every step of the server keeps the answer.** -/
theorem answering_step {l : Label β} (hsince : since < 9223372036854775808)
    (hfits : w'.db.updates.nextSeq ≤ 9223372036854775808) (hl : l.picks c = false)
    (h : Answering since asked n c w) (hstep : World.step cfg w l = some w') :
    Answering since asked n c w' := by
  obtain ⟨s, hs, hlen, hans⟩ := h
  have hg := (step_grown hstep).1
  rcases step_busy hstep hs hl with hsame | ⟨s', hs', hlog, hpc⟩ | ⟨-, hres⟩
  · exact ⟨s, hsame, hlen, hans.grown hg⟩
  · refine ⟨s', hs', hlog ▸ hlen, ?_⟩
    rw [Session.batchesFrom, hlog]
    exact (hans.grown hg).ended hpc
  · rcases hans.ending with ⟨k, hk⟩ | hk | ⟨hk, -⟩
    · obtain ⟨rfl, -⟩ := hans.running k hk
      rw [World.resume, hk] at hres
      obtain rfl := Option.some.inj hres
      obtain ⟨s', hs', hlog, hdb, hpc⟩ :=
        pullBatch_sends (w := w) (c := c) (s := s) (lastSent since (s.batchesFrom n))
      rw [hdb] at hfits
      obtain ⟨l, r, hrows, hup, hmore, hdone⟩ := fetchUpdatesBatch_rows w.db
        (hans.lastSent_lt hsince hfits)
      rw [hup] at hlog hpc
      have hnext := hans.pullBatch ⟨_, hk⟩ hrows hmore hdone hpc
      have hrecord : s'.batchesFrom n = s.batchesFrom n ++ [⟨l.map UpdateRow.stored,
          !(w.db.fetchUpdatesBatch (lastSent since (s.batchesFrom n))).hasMore⟩] := by
        rw [Session.batchesFrom, hlog]
        exact batchesFrom_record hlen _
      refine ⟨s', hs', ?_, ?_⟩
      · rw [hlog, List.length_append]
        omega
      · rw [hrecord]
        exact hnext.grown hg
    · rw [World.resume, hk] at hres
      cases hres
    · rw [World.resume, hk] at hres
      cases hres

/-- The rows sent are rows of the log as long as nothing is compacted. -/
theorem sent_step {l : Label β} (hsince : since < 9223372036854775808)
    (hfits : w'.db.updates.nextSeq ≤ 9223372036854775808) (hl : l.picks c = false)
    (hcompact : l ≠ .compact) (h : Answering since asked n c w)
    (hsent : ∀ s, w.sessions c = some s → ∀ b ∈ pulled (s.batchesFrom n),
      ∃ r ∈ w.db.updates.rows, r.stored = b)
    (hstep : World.step cfg w l = some w') :
    ∀ s, w'.sessions c = some s → ∀ b ∈ pulled (s.batchesFrom n),
      ∃ r ∈ w'.db.updates.rows, r.stored = b := by
  obtain ⟨s, hs, hlen, hans⟩ := h
  have hkept := (step_grown hstep).2 hcompact
  have hold : ∀ b ∈ pulled (s.batchesFrom n), ∃ r ∈ w'.db.updates.rows, r.stored = b :=
    fun b hb => (hsent s hs b hb).imp fun r hr => ⟨hkept r hr.1, hr.2⟩
  intro t ht
  rcases step_busy hstep hs hl with hsame | ⟨s', hs', hlog, -⟩ | ⟨-, hres⟩
  · obtain rfl := Option.some.inj (hsame.symm.trans ht)
    exact hold
  · obtain rfl := Option.some.inj (hs'.symm.trans ht)
    rw [Session.batchesFrom, hlog]
    exact hold
  · rcases hans.ending with ⟨k, hk⟩ | hk | ⟨hk, -⟩
    · obtain ⟨rfl, -⟩ := hans.running k hk
      rw [World.resume, hk] at hres
      obtain rfl := Option.some.inj hres
      obtain ⟨s', hs', hlog, hdb, -⟩ :=
        pullBatch_sends (w := w) (c := c) (s := s) (lastSent since (s.batchesFrom n))
      obtain rfl := Option.some.inj (hs'.symm.trans ht)
      rw [hdb] at hfits
      obtain ⟨l, r, hrows, hup, -, -⟩ := fetchUpdatesBatch_rows w.db
        (hans.lastSent_lt hsince hfits)
      have hrecord : s'.batchesFrom n = s.batchesFrom n ++ [⟨l.map UpdateRow.stored,
          !(w.db.fetchUpdatesBatch (lastSent since (s.batchesFrom n))).hasMore⟩] := by
        rw [Session.batchesFrom, hlog, hup]
        exact batchesFrom_record hlen _
      intro b hb
      rw [hrecord, pulled_append, List.mem_append] at hb
      rcases hb with hb | hb
      · exact hold b hb
      · obtain ⟨row, hrow, rfl⟩ := List.mem_map.1 hb
        have hin : row ∈ l ++ r := List.mem_append_left _ hrow
        rw [← hrows, List.mem_filter] at hin
        exact ⟨row, hkept row hin.1, rfl⟩
    · rw [World.resume, hk] at hres
      cases hres
    · rw [World.resume, hk] at hres
      cases hres

end Runs

/-- The number the next row gets never goes back. -/
theorem exec_nextSeq_le [WireSize β] {cfg : SnapshotConfig} {w w' : World β} {ls : List (Label β)}
    (hrun : (server cfg).exec w ls = some w') :
    w.db.updates.nextSeq ≤ w'.db.updates.nextSeq :=
  Machine.exec_keeps (P := fun u : World β => w.db.updates.nextSeq ≤ u.db.updates.nextSeq)
    (fun _ _ _ _ hle hstep => hle.trans (step_grown hstep).1.nextSeq_le) le_rfl hrun

/-- Every row sent is in the log. -/
def SentRows (n : ℕ) (c : ConnId) (w : World β) : Prop :=
  ∀ s, w.sessions c = some s → ∀ b ∈ pulled (s.batchesFrom n),
    ∃ r ∈ w.db.updates.rows, r.stored = b

/-- **A run keeps the answer**, and without a compaction what was sent stays in the log. -/
theorem answering_exec [WireSize β] {cfg : SnapshotConfig} {since asked n : ℕ} {c : ConnId}
    {w w' : World β} {ls : List (Label β)} (hsince : since < 9223372036854775808)
    (hls : ∀ l ∈ ls, l.picks c = false) (hfits : w'.db.updates.nextSeq ≤ 9223372036854775808)
    (h : Answering since asked n c w) (hrun : (server cfg).exec w ls = some w') :
    Answering since asked n c w' ∧ (.compact ∉ ls → SentRows n c w → SentRows n c w') := by
  induction ls generalizing w with
  | nil =>
    simp only [Machine.exec, Option.some.injEq] at hrun
    subst hrun
    exact ⟨h, fun _ hsent => hsent⟩
  | cons l ls ih =>
    obtain ⟨u, hstep, hrest⟩ := Option.bind_eq_some_iff.1 hrun
    have hu : u.db.updates.nextSeq ≤ 9223372036854775808 := (exec_nextSeq_le hrest).trans hfits
    have hl := hls l List.mem_cons_self
    obtain ⟨hans, hkeep⟩ := ih (fun k hk => hls k (List.mem_cons_of_mem _ hk))
      (answering_step hsince hu hl h hstep) hrest
    refine ⟨hans, fun hno hsent => hkeep (fun hmem => hno (List.mem_cons_of_mem _ hmem)) ?_⟩
    exact sent_step hsince hu hl (fun he => hno (he ▸ List.mem_cons_self)) h hsent hstep

/-- Rows and what is sent of them, in one order: the same members make the same list. -/
theorem pulled_eq {rows : List (UpdateRow β)} {us : List (StoredBlob β)}
    (hrows : (rows.map UpdateRow.seq).Pairwise (· < ·))
    (hus : (us.map StoredBlob.seq).Pairwise (· < ·))
    (hmem : ∀ u, u ∈ us ↔ ∃ r ∈ rows, r.stored = u) : us = rows.map UpdateRow.stored := by
  have hasc : ((rows.map UpdateRow.stored).map StoredBlob.seq).Pairwise (· < ·) := by
    rwa [stored_seqs]
  have hanti : Std.Antisymm fun u v : StoredBlob β => u.seq < v.seq :=
    ⟨fun u v huv hvu => absurd (huv.trans hvu) (lt_irrefl _)⟩
  have hirrefl : Std.Irrefl fun u v : StoredBlob β => u.seq < v.seq := ⟨fun u => lt_irrefl _⟩
  refine List.Pairwise.eq_of_mem_iff (List.pairwise_map.1 hus) (List.pairwise_map.1 hasc) ?_
  intro u
  rw [hmem, List.mem_map]

/-- **Pulls are paged losslessly** from a cursor that fits a signed number. -/
theorem pull_pages [WireSize β] {cfg : SnapshotConfig} {since : ℕ} {c : ConnId}
    {w w' : World β} {ls : List (Label β)} {s s' : Session β}
    (hsince : since < 9223372036854775808) (h : PullRun cfg since c w ls w' s s') :
    Paged cfg since w.db.updates.nextSeq c ls w' s' (s'.batchesFrom s.log.length) := by
  obtain ⟨u, hrecv, hrest⟩ := Option.bind_eq_some_iff.1 h.run
  obtain ⟨hstart, hnone⟩ := answering_recv cfg h.before hrecv
  obtain ⟨⟨t, ht, hlen, hans⟩, hkeep⟩ := answering_exec hsince h.busy h.fits hstart hrest
  obtain rfl := Option.some.inj (h.after.symm.trans ht)
  have hsent : .compact ∉ ls → ∀ b ∈ pulled (s'.batchesFrom s.log.length),
      ∃ r ∈ w'.db.updates.rows, r.stored = b := by
    refine fun hno => hkeep hno ?_ s' ht
    intro t ht b hb
    rw [hnone t ht] at hb
    cases hb
  have hasc := (List.pairwise_cons.1 hans.ascending).2
  have hexact : .compact ∉ ls → pulled (s'.batchesFrom s.log.length) =
      (w'.db.updates.rows.filter fun r => decide (since < r.seq ∧
        r.seq ≤ lastSent since (s'.batchesFrom s.log.length))).map UpdateRow.stored := by
    intro hno
    refine pulled_eq (List.Pairwise.sublist (List.filter_sublist.map UpdateRow.seq)
      w'.db.updates.dense.pairwise_lt) hasc fun b => ⟨fun hb => ?_, ?_⟩
    · obtain ⟨r, hr, rfl⟩ := hsent hno b hb
      refine ⟨r, List.mem_filter.2 ⟨hr, decide_eq_true ⟨?_, hans.le_lastSent hb⟩⟩, rfl⟩
      exact (List.pairwise_cons.1 hans.ascending).1 _ (List.mem_map_of_mem hb)
    · rintro ⟨r, hr, rfl⟩
      obtain ⟨hr, hbounds⟩ := List.mem_filter.1 hr
      have hbounds := of_decide_eq_true hbounds
      exact hans.caught r hr hbounds.1 hbounds.2
  have hrunning : ∀ n, s'.pc = .pulling n →
      ∀ b ∈ s'.batchesFrom s.log.length, b.updates ≠ [] := by
    intro n hn b hb
    exact hans.filled b hb ((hans.running n hn).2 b hb)
  constructor
  case ascending => exact hans.ascending
  case caught => exact hans.caught
  case exact_ => exact hexact
  case gapless =>
    intro hno
    obtain ⟨a, k, hak⟩ := w'.db.updates.dense.filter_between since
      (lastSent since (s'.batchesFrom s.log.length))
    rw [List.filter_map] at hak
    have hseqs : (pulled (s'.batchesFrom s.log.length)).map StoredBlob.seq =
        List.range' a k := by
      rw [hexact hno, stored_seqs]
      exact hak
    have hlen := congrArg List.length hseqs
    rw [List.length_map, List.length_range'] at hlen
    exact ⟨a, hlen ▸ hseqs⟩
  case filled => exact hans.filled
  case final => exact hans.final
  case ending => exact hans.ending
  case whole => exact hans.whole
  case goes =>
    intro n hn
    obtain ⟨s'', hs'', hlog, -, -⟩ := pullBatch_sends (w := w') (c := c) (s := s') n
    refine ⟨w'.pullBatch c s' n, s'', _, _, ?_, hs'', hlog⟩
    simp only [World.step, ht, World.resume, hn]
  case few =>
    intro n hn
    refine (length_le_pulled (hrunning n hn)).trans ?_
    rw [← List.length_map StoredBlob.seq]
    refine length_le_of_pairwise hans.ascending fun m hm => ?_
    obtain ⟨b, hb, rfl⟩ := List.mem_map.1 hm
    exact hans.below b hb

/-! ## Cursors from `2⁶³` on -/

/-- A connection with the document open. -/
def openSession : Session EncryptedBlob :=
  { Session.new ⟨0, 0, ""⟩ with openDoc := some ⟨0, none, false⟩ }

/-- A document with one row, open on connection `0`. -/
def oneRow : World EncryptedBlob :=
  { World.fresh [] [] with
    db := { (World.fresh [] [] : World EncryptedBlob).db with
      updates := UpdateLog.empty.append 0 0 ⟨0, ⟨[], []⟩⟩ },
    sessions := fun c => if c = 0 then some openSession else none }

/-- A cursor from `2⁶³` on is bound as a negative number, and the row is sent. -/
theorem oneRow_sends (cfg : SnapshotConfig) {since : ℕ}
    (hlow : 9223372036854775808 ≤ since) (hhigh : since < 18446744073709551616) :
    ∃ w' s', PullRun cfg since 0 oneRow [.resume 0] w' openSession s' ∧
      s'.batchesFrom openSession.log.length = [⟨[⟨1, ⟨[], []⟩⟩], true⟩] := by
  have hneg := asI64_neg hlow hhigh
  have hbatch : oneRow.db.fetchUpdatesBatch since = ⟨[⟨1, ⟨[], []⟩⟩], false⟩ := by
    have hlt : asI64 since < 1 := by omega
    simp [Db.fetchUpdatesBatch, oneRow, World.fresh, UpdateLog.empty, hlt, takeBatch,
      MAX_UPDATES_PER_BATCH]
  set s₁ := (openSession.record [.received (.pullUpdates since)]).goto (.pulling since) with hs₁
  obtain ⟨s', hs', hlog, hdb, -⟩ :=
    pullBatch_sends (w := oneRow.put 0 s₁) (c := 0) (s := s₁) since
  rw [World.put_db, hbatch] at hlog
  refine ⟨(oneRow.put 0 s₁).pullBatch 0 s₁ since, s', ⟨?_, ?_, hs', ?_, ?_⟩, ?_⟩
  · rfl
  · have hrecv : World.step cfg oneRow (.recv 0 (.pullUpdates since)) =
        some (oneRow.put 0 s₁) := rfl
    have hresume : World.step cfg (oneRow.put 0 s₁) (.resume 0) =
        some ((oneRow.put 0 s₁).pullBatch 0 s₁ since) := by
      simp only [World.step, World.put_sessions_self]
      rfl
    simp only [Machine.exec, server, hrecv, Option.bind_some, hresume]
  · intro l hl
    rw [List.mem_singleton.1 hl]
    rfl
  · rw [hdb, World.put_db]
    decide
  · rw [Session.batchesFrom, hlog]
    rfl

/-- **Every pull from a cursor is paged losslessly exactly when the cursor is below `2⁶³`**:
whatever the log holds, however large its rows are, and whatever else the server does. -/
theorem pull_pages_iff (cfg : SnapshotConfig) (since : UInt64) :
    (∀ (c : ConnId) (w w' : World EncryptedBlob) (ls : List (Label EncryptedBlob))
      (s s' : Session EncryptedBlob), PullRun cfg since.toNat c w ls w' s s' →
      Paged cfg since.toNat w.db.updates.nextSeq c ls w' s'
        (s'.batchesFrom s.log.length)) ↔
      since.toNat < 9223372036854775808 := by
  constructor
  · intro hall
    by_contra hlow
    obtain ⟨w', s', hpull, hbatches⟩ :=
      oneRow_sends cfg (not_lt.1 hlow) since.toNat_lt
    have hpaged := hall _ _ _ _ _ _ hpull
    rw [hbatches] at hpaged
    -- the one row sent is not above the cursor
    have hlt := (List.pairwise_cons.1 hpaged.ascending).1 1 (by decide)
    omega
  · intro hlow c w w' ls s s' hpull
    exact pull_pages hlow hpull

/-- The first such cursor: a row at or below it is sent. -/
theorem pull_pages_overshoots :
    ∃ (w w' : World EncryptedBlob) (s s' : Session EncryptedBlob),
      PullRun ⟨1, 1⟩ 9223372036854775808 0 w [.resume 0] w' s s' ∧
      (pulled (s'.batchesFrom s.log.length)).map StoredBlob.seq = [1] ∧
      ¬ Paged ⟨1, 1⟩ 9223372036854775808 w.db.updates.nextSeq 0 [.resume 0] w' s'
        (s'.batchesFrom s.log.length) := by
  obtain ⟨w', s', hpull, hbatches⟩ :=
    oneRow_sends ⟨1, 1⟩ (le_refl 9223372036854775808) (by decide)
  refine ⟨oneRow, w', openSession, s', hpull, by rw [hbatches]; rfl, fun hpaged => ?_⟩
  rw [hbatches] at hpaged
  exact absurd ((List.pairwise_cons.1 hpaged.ascending).1 1 (by decide)) (by decide)

end Monoplan.Server
