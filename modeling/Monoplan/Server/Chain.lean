import Mathlib.Data.List.Chain
import Monoplan.Server.Queries

/-!
# The chain of snapshot rows

`insert_snapshot` accepts a delta only onto the latest row, so the rows of a document form one
line: each is a full snapshot or starts where the row before it ends (`Linear`).  `snapshot_chain`
serves the last full one and everything after it (`snapshotChain_spec`); its check of the links
never cuts anything off.
-/

namespace Monoplan.Server

open Monoplan.Base Monoplan.Protocol

variable {β : Type*}

/-- A row continues the line: it is full, or a delta from where the row before it ends. -/
def Follows (r s : SnapshotRow β) : Prop :=
  s.fromSeq = none ∨ (s.fromSeq = some r.upToSeq ∧ r.upToSeq ≤ s.upToSeq)

/-- The rows form a line that begins with a full snapshot. -/
structure Linear (rows : List (SnapshotRow β)) : Prop where
  head : ∀ r ∈ rows.head?, r.fromSeq = none
  links : rows.IsChain Follows

theorem linear_nil : Linear ([] : List (SnapshotRow β)) :=
  ⟨fun r hr => absurd hr (by simp), .nil⟩

/-- What `chains` checks. -/
theorem chains_iff {db : Db β} {u : SnapshotUpload β} :
    db.chains u = true ↔ u.fromSeq = none ∨ ∃ r, db.latestSnapshot = some r ∧
      u.fromSeq = some r.upToSeq ∧ r.upToSeq ≤ u.upToSeq := by
  unfold Db.chains
  cases hf : u.fromSeq with
  | none => simp
  | some from_ =>
    simp only [decide_eq_true_eq, Option.map_eq_some_iff, reduceCtorEq, Option.some.injEq,
      false_or]
    constructor
    · rintro ⟨⟨r, hr, rfl⟩, hle⟩
      exact ⟨r, hr, rfl, hle⟩
    · rintro ⟨r, hr, rfl, hle⟩
      exact ⟨⟨r, hr, rfl⟩, hle⟩

theorem insertSnapshot_eq_some {db db' : Db β} {u : SnapshotUpload β} :
    db.insertSnapshot u = some db' ↔
      db.chains u = true ∧ db' = { db with snapshots := db.snapshots ++ [db.snapshotRow u] } := by
  unfold Db.insertSnapshot
  split
  · rename_i h
    simp [h, eq_comm]
  · rename_i h
    simp [h]

/-- **An accepted row continues the line.** -/
theorem Linear.insert {db db' : Db β} {u : SnapshotUpload β} (h : Linear db.snapshots)
    (hi : db.insertSnapshot u = some db') : Linear db'.snapshots := by
  obtain ⟨hchains, rfl⟩ := insertSnapshot_eq_some.1 hi
  have hlink : ∀ r, db.snapshots.getLast? = some r → Follows r (db.snapshotRow u) := by
    intro r hr
    rcases chains_iff.1 hchains with hfull | ⟨r', hr', hfrom, hle⟩
    · exact .inl hfull
    · have heq : r' = r := Option.some.inj (hr'.symm.trans hr)
      exact .inr (heq ▸ ⟨hfrom, hle⟩)
  constructor
  · intro r hr
    cases hrows : db.snapshots with
    | nil =>
      rw [hrows] at hr
      have hrow : db.snapshotRow u = r := Option.some.inj hr
      rw [← hrow]
      rcases chains_iff.1 hchains with hfull | ⟨r', hr', _⟩
      · exact hfull
      · rw [Db.latestSnapshot, hrows] at hr'
        exact absurd hr' (by simp)
    | cons s rest =>
      rw [hrows] at hr
      exact h.head r (by rw [hrows]; exact hr)
  · refine h.links.append (.singleton _) fun r hr s hs => ?_
    have hrow : db.snapshotRow u = s := Option.some.inj hs
    exact hrow ▸ hlink r hr

/-! ## What is served -/

/-- The rows from the last full one on. -/
theorem fromLastFull_spec {rows : List (SnapshotRow β)}
    (h : rows.any (fun r => r.fromSeq.isNone) = true) :
    ∃ before full deltas, rows = before ++ full :: deltas ∧ full.fromSeq = none ∧
      (∀ r ∈ deltas, r.fromSeq ≠ none) ∧ Db.fromLastFull rows = full :: deltas := by
  induction rows with
  | nil => exact absurd h (by simp)
  | cons r rs ih =>
    by_cases hlater : rs.any (fun r => r.fromSeq.isNone) = true
    · obtain ⟨before, full, deltas, hrows, hfull, hdeltas, hlast⟩ := ih hlater
      refine ⟨r :: before, full, deltas, by rw [hrows]; rfl, hfull, hdeltas, ?_⟩
      rw [Db.fromLastFull, if_pos hlater, hlast]
    · have hr : r.fromSeq.isNone = true := by
        rw [List.any_cons, Bool.or_eq_true] at h
        exact h.resolve_right hlater
      refine ⟨[], r, rs, rfl, Option.isNone_iff_eq_none.1 hr, ?_, ?_⟩
      · intro s hs hnone
        exact hlater (List.any_eq_true.2 ⟨s, hs, by rw [hnone]; rfl⟩)
      · rw [Db.fromLastFull, if_neg hlater, if_pos hr]

/-- No link is broken. -/
theorem linked_eq {r : SnapshotRow β} {rs : List (SnapshotRow β)}
    (h : (r :: rs).IsChain Follows) (hdeltas : ∀ s ∈ rs, s.fromSeq ≠ none) :
    Db.linked r.upToSeq rs = rs := by
  induction rs generalizing r with
  | nil => rfl
  | cons s rs ih =>
    obtain ⟨hlink, hrest⟩ := List.isChain_cons_cons.1 h
    have hfrom : s.fromSeq = some r.upToSeq :=
      (hlink.resolve_left (hdeltas s (List.mem_cons_self ..))).1
    rw [Db.linked, if_pos hfrom, ih hrest fun t ht => hdeltas t (List.mem_cons_of_mem _ ht)]

/-- **What `snapshot_chain` serves**: the last full snapshot and all the rows after it, each a
delta linked to the one before. -/
theorem snapshotChain_spec {db : Db β} (h : Linear db.snapshots) :
    (db.snapshots = [] ∧ db.snapshotChain = []) ∨
      ∃ before full deltas, db.snapshots = before ++ full :: deltas ∧ full.fromSeq = none ∧
        (∀ r ∈ deltas, r.fromSeq ≠ none) ∧ (full :: deltas).IsChain Follows ∧
        db.snapshotChain = full :: deltas := by
  cases hrows : db.snapshots with
  | nil => exact .inl ⟨rfl, by simp [Db.snapshotChain, hrows, Db.fromLastFull]⟩
  | cons r rs =>
    have hhead : r.fromSeq = none := h.head r (by rw [hrows]; rfl)
    have hany : db.snapshots.any (fun r => r.fromSeq.isNone) = true := by
      rw [hrows, List.any_cons, hhead]
      rfl
    obtain ⟨before, full, deltas, heq, hfull, hdeltas, hlast⟩ := fromLastFull_spec hany
    have hlinks : (full :: deltas).IsChain Follows := by
      have hall := h.links
      rw [heq] at hall
      exact hall.right_of_append
    refine .inr ⟨before, full, deltas, hrows ▸ heq, hfull, hdeltas, hlinks, ?_⟩
    rw [Db.snapshotChain, hlast]
    show full :: Db.linked full.upToSeq deltas = _
    rw [linked_eq hlinks hdeltas]

end Monoplan.Server
