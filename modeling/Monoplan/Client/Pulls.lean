import Monoplan.Base.NoSkip
import Monoplan.Client.Acks

/-!
# Pulls and the contiguous cursor

`ingest_seq` asserts that no server seq skips past its cursor.  Here one engine is run against a
server whose seqs are dense and in order on each connection (`Sends`): nothing with a seq comes
before `DocOpened`, no seq is more than one above what a pull began at or was sent before it, and
the batches of a pull count on from its cursor.

That does not protect the cursor by itself.  A frame whose blobs do not import, a broadcast during
a bootstrap and an ack that does not fit are all not taken in (`takesIn`), and what follows them is
a gap.

* `pulls_whole`: where nothing new is taken in on top of what was not (`Accounted`), the assertion
  holds, and a pull ends only when all that was sent for it is below the cursor.
* `unreadable_then_gap`, `unreadable_then_pulled`: one batch that does not import is enough.
-/

namespace Monoplan.Client

open Monoplan.Base Monoplan.Protocol

/-! ## The line -/

/-- One engine and what its server has sent on the connection. -/
structure Line where
  engine : Engine
  disk : Disk
  /-- The highest seq a pull began at or that has been sent. -/
  top : ℕ
  /-- The end of what has been sent of the last pull. -/
  pullSent : ℕ
  pullOpen : Bool
  /-- The highest seq sent in a frame that was not taken in. -/
  missed : ℕ
  /-- The highest one of those in a batch of the last pull. -/
  missedPull : ℕ
  deriving DecidableEq

/-- The engine takes in what a frame carries. -/
def Engine.takesIn (e : Engine) : ServerFrame Blob → Bool
  | .updatesBatch us _ | .updatesBroadcast us =>
    decide (e.state ≠ .bootstrapping) && decide (Readable us)
  | .updatesAck acks => e.ackFits acks
  | _ => true

namespace Line

variable (L : Line)

/-- The frame a call hands to a connected engine. -/
def frame (c : HostCall) : Option (ServerFrame Blob) :=
  match c with
  | .handleServerBytes bytes _ => if L.engine.isOnline then bytes else none
  | _ => none

/-- The server sends densely and in order. -/
def Sends (f : ServerFrame Blob) : Prop :=
  (f.seqs ≠ [] → L.engine.state ≠ .opening) ∧ Mark.Dense L.top (Mark.items f.seqs) ∧
    match f with
    | .updatesBatch us _ =>
      L.pullOpen = true ∧ us.map StoredBlob.seq = List.range' (L.pullSent + 1) us.length
    | _ => True

instance (f : ServerFrame Blob) : Decidable (L.Sends f) := by
  unfold Sends
  cases f <;> infer_instance

/-- What a frame leaves on the server's side of the line. -/
def sent (f : ServerFrame Blob) : Line :=
  let past (m : ℕ) : ℕ := if L.engine.takesIn f then m else Mark.reach m (Mark.items f.seqs)
  let L' := { L with top := Mark.reach L.top (Mark.items f.seqs), missed := past L.missed }
  match f with
  | .updatesBatch us complete =>
    { L' with
      pullSent := L.pullSent + us.length, pullOpen := !complete, missedPull := past L.missedPull }
  | .snapshotRequired _ => { L' with pullOpen := false }
  | _ => L'

/-- A pull that begins: the first one of a connection, or the one after a bootstrap. -/
def asked (e : Engine) : Line :=
  if e.state = .pulling ∧ L.engine.state = .opening then
    { L with
      top := e.lastContiguousSeq, pullSent := e.lastContiguousSeq, pullOpen := true,
      missed := 0, missedPull := 0 }
  else if e.state = .pulling ∧ L.engine.state ≠ .pulling then
    { L with
      top := max L.top e.lastContiguousSeq, pullSent := e.lastContiguousSeq, pullOpen := true,
      missedPull := 0 }
  else L

/-- One host call.  A server frame comes only as the server sends it. -/
def step (H : History) (l : HostStep) : Option Line :=
  let r := (l.call.program H L.engine).run act l.outcomes L.disk
  match L.frame l.call with
  | none => some { L.asked r.2 with engine := r.2, disk := r.1 }
  | some f =>
    if L.Sends f then some { (L.sent f).asked r.2 with engine := r.2, disk := r.1 } else none

/-- Nothing has been asked or sent. -/
def Booted : Prop := boot L.disk = some L.engine ∧ L.pullOpen = false ∧ L.missed = 0

end Line

/-- One engine, its host and a dense server, in every order. -/
def lining (H : History) : Machine Line HostStep := ⟨Line.Booted, fun L l => L.step H l⟩

/-- The engine leaves a pull for `Idle`, from where it may push at once, or says that it is
pulled. -/
def Finishes (e e' : Engine) : Prop :=
  (e.state = .pulling ∧ (e'.state = .idle ∨ e'.state = .pushing)) ∨
    e.events.count .pulledInitial < e'.events.count .pulledInitial

instance (e e' : Engine) : Decidable (Finishes e e') := inferInstanceAs (Decidable (_ ∨ _))

/-! ## The condition -/

/-- What was not taken in and matters to a frame: to a batch, the batches of its own pull. -/
def Line.missedFor (L : Line) : ServerFrame Blob → ℕ
  | .updatesBatch _ _ => L.missedPull
  | _ => L.missed

/-- Nothing new is taken in on top of something that was not, and what completes a pull has
imported, with all that came before it. -/
structure Accounted (L : Line) (l : HostStep) : Prop where
  taken : ∀ f, L.frame l.call = some f → L.engine.takesIn f = true →
    (∀ n ∈ f.seqs, n ≤ L.engine.lastContiguousSeq) ∨ L.missedFor f ≤ L.engine.lastContiguousSeq
  completed : ∀ us, L.frame l.call = some (.updatesBatch us true) → L.engine.state = .pulling →
    L.missedPull ≤ L.engine.lastContiguousSeq ∧
      (Readable us ∨ ∀ u ∈ us, u.seq ≤ L.engine.lastContiguousSeq)

/-! ## The cursor -/

section Cursor

variable {e e' : Engine}

/-- A dense delivery passes the assertion, and the cursor follows it. -/
theorem ingestSeqs_dense {ns : List ℕ} (h : Mark.Dense e.lastContiguousSeq (Mark.items ns)) :
    (e.ingestSeqs ns).gap = e.gap ∧
      (e.ingestSeqs ns).lastContiguousSeq = Mark.reach e.lastContiguousSeq (Mark.items ns) := by
  induction ns generalizing e with
  | nil => exact ⟨rfl, rfl⟩
  | cons n ns ih =>
    obtain ⟨hn, hrest⟩ := h
    have hone : (e.ingestSeq n).gap = e.gap ∧
        (e.ingestSeq n).lastContiguousSeq = max e.lastContiguousSeq n := by
      unfold Engine.ingestSeq
      split
      · exact ⟨rfl, by dsimp only; omega⟩
      · have hle : ¬ e.lastContiguousSeq < n := by omega
        exact ⟨by simp [hle], by dsimp only; omega⟩
    rw [← hone.2] at hrest
    obtain ⟨hgap, hcur⟩ := ih hrest
    refine ⟨hgap.trans hone.1, ?_⟩
    show ((e.ingestSeq n).ingestSeqs ns).lastContiguousSeq = Mark.reach _ (Mark.items ns)
    rw [hcur, hone.2]

theorem not_finishes_of (hcount : e'.events.count .pulledInitial ≤ e.events.count .pulledInitial)
    (hst : e.state = .pulling → e'.state ≠ .idle ∧ e'.state ≠ .pushing) : ¬ Finishes e e' := by
  rintro (⟨hpull, hidle | hpush⟩ | hmore)
  · exact (hst hpull).1 hidle
  · exact (hst hpull).2 hpush
  · omega

/-- What a frame that carries no seq leaves of the cursor and of the state: past the pull is past
the pull, and only a connection that begins or ends leaves it otherwise. -/
structure Still (e e' : Engine) : Prop where
  gap : e'.gap = e.gap
  contiguous : e'.lastContiguousSeq = e.lastContiguousSeq
  pulled : e'.events.count .pulledInitial ≤ e.events.count .pulledInitial
  state : e'.state = e.state ∨ e'.state = .disconnected ∨ e'.state = .opening ∨
    ((e.state = .idle ∨ e.isPushing = true) ∧ (e'.state = .idle ∨ e'.isPushing = true))

namespace Still

theorem of_quiet (h : Quiet e e') : Still e e' :=
  ⟨h.gap, h.contiguous, h.pulled.le, .inl h.state⟩

theorem quiet {e'' : Engine} (h : Still e e') (hq : Quiet e' e'') : Still e e'' := by
  have hpush : e''.isPushing = e'.isPushing := by
    rw [Engine.isPushing, Engine.isPushing, hq.state]
  refine ⟨hq.gap.trans h.gap, hq.contiguous.trans h.contiguous, hq.pulled.le.trans h.pulled, ?_⟩
  rw [hq.state, hpush]
  exact h.state

theorem down (e : Engine) : Still e e.goDisconnected := by
  refine ⟨rfl, rfl, ?_, .inr (.inl rfl)⟩
  exact (Quiet.emit { e with state := .disconnected, outbox := [] } (by simp)).pulled.le

theorem pushed (h : Pushed e e') : Still e e' := by
  rcases h with hq | ⟨hidle, p, hq⟩
  · exact .of_quiet hq
  · have hsend : Still e (e.sendInFlight p) :=
      ⟨rfl, rfl, le_rfl, .inr (.inr (.inr ⟨.inl hidle, .inr rfl⟩))⟩
    exact hsend.quiet hq

/-- No pull is finished. -/
theorem not_finishes (h : Still e e') : ¬ Finishes e e' := by
  refine not_finishes_of h.pulled fun hpull => ?_
  have hne : ¬ (e.state = .idle ∨ e.isPushing = true) := by
    simp [Engine.isPushing, hpull]
  rcases h.state with hst | hst | hst | ⟨hold, _⟩
  · simp [hst, hpull]
  · simp [hst]
  · simp [hst]
  · exact absurd hold hne

theorem pulling (h : Still e e') (hp : e'.state = .pulling) : e.state = .pulling := by
  rcases h.state with hst | hst | hst | ⟨_, hnew⟩
  · exact hst ▸ hp
  · rw [hp] at hst
    exact absurd hst (by simp)
  · rw [hp] at hst
    exact absurd hst (by simp)
  · simp [Engine.isPushing, hp] at hnew

theorem opened (h : Still e e') (hd : e'.state ≠ .disconnected) (ho : e'.state ≠ .opening) :
    e.state ≠ .disconnected ∧ e.state ≠ .opening := by
  rcases h.state with hst | hst | hst | ⟨hold, _⟩
  · exact ⟨hst ▸ hd, hst ▸ ho⟩
  · exact absurd hst hd
  · exact absurd hst ho
  · constructor <;>
    · intro hst
      simp [Engine.isPushing, hst] at hold

end Still

/-- Every call but a server frame leaves the cursor alone. -/
theorem program_still {H : History} {L : Line} {c : HostCall} (hc : L.frame c = none) (s : Disk) :
    Ends (Still L.engine) (c.program H L.engine) s := by
  cases c with
  | commit o => exact ends_pure (.of_quiet (.of_eq rfl rfl rfl rfl rfl rfl rfl rfl))
  | captureLocalOps => exact ends_map (captureLocalOps_quiet H _ s) fun _ hq => .of_quiet hq
  | snapshotIfWalExceeds maxRows maxBytes =>
    exact ends_map (snapshotIfWalExceeds_quiet H _ s maxRows maxBytes) fun _ hq => .of_quiet hq
  | forceSnapshot => exact ends_map (forceSnapshot_quiet H _ s) fun _ hq => .of_quiet hq
  | notifyOplogDurable seq =>
    refine (notifyOplogDurable_spec L.engine seq s).mono fun e' he => ?_
    split at he
    · refine Still.quiet ?_ he
      unfold Engine.queueAckIfAdvanced
      split <;> exact ⟨rfl, rfl, le_rfl, .inl rfl⟩
    · rw [he]
      exact .of_quiet (.refl _)
  | handleConnected =>
    refine ends_pure ?_
    unfold Engine.handleConnected
    split
    · refine ⟨rfl, rfl, ?_, .inr (.inr (.inl rfl))⟩
      exact (Quiet.emit { L.engine with state := .opening } (by simp)).pulled.le
    · exact .of_quiet (.report _ _)
  | handleDisconnected =>
    refine ends_pure ?_
    unfold Engine.handleDisconnected
    split
    · exact .of_quiet (.refl _)
    · exact .down _
  | handleTimeout =>
    refine ends_pure ?_
    unfold Engine.handleTimeout
    split
    · exact .of_quiet (.report _ _)
    · exact .of_quiet (.refl _)
  | handleServerBytes bytes mint =>
    show Ends _ (L.engine.handleServerBytes H mint bytes) s
    unfold Engine.handleServerBytes
    split
    · exact ends_pure (.of_quiet (.report _ _))
    · rename_i hst
      rw [Line.frame, if_pos (isOnline_iff.2 hst)] at hc
      rw [hc]
      exact ends_pure (.of_quiet (.report _ _))
  | flush mint =>
    refine (flush_spec H L.engine s mint).mono fun e' he => ?_
    rcases he with hp | ⟨hst, rfl⟩
    · exact .pushed hp
    · refine ⟨rfl, rfl, le_rfl, .inr (.inr (.inr ⟨.inr ?_, .inr rfl⟩))⟩
      simp [Engine.isPushing, hst]
  | popOutbox => exact ends_pure ⟨rfl, rfl, le_rfl, .inl rfl⟩
  | popEvent =>
    refine ends_pure ⟨rfl, rfl, ?_, .inl rfl⟩
    exact (List.tail_sublist _).count_le _

end Cursor

/-! ## The invariant -/

/-- On an open connection everything sent, and everything sent of the last pull, is below the
cursor or below something that was not taken in. -/
structure LineInv (L : Line) : Prop where
  gap : L.engine.gap = false
  top : L.engine.state ≠ .disconnected → L.engine.state ≠ .opening →
    L.top ≤ max L.engine.lastContiguousSeq L.missed
  pull : L.engine.state ≠ .disconnected → L.engine.state ≠ .opening →
    L.pullSent ≤ max L.engine.lastContiguousSeq L.missedPull

variable {H : History} {L L' : Line} {l : HostStep}

/-- A step on which no pull begins. -/
theorem lineInv_of_still {M : Line} {s : Disk} {e' : Engine} (hi : LineInv L)
    (heng : M.engine = L.engine) (htop : M.top = L.top) (hmissed : M.missed = L.missed)
    (hsent : M.pullSent = L.pullSent) (hmissedPull : M.missedPull = L.missedPull)
    (hst : Still L.engine e') : LineInv { M.asked e' with engine := e', disk := s } := by
  have hasked : M.asked e' = M := by
    unfold Line.asked
    rw [heng]
    split
    · rename_i h
      exact absurd (hst.pulling h.1) (by simp [h.2])
    · split
      · rename_i h
        exact absurd (hst.pulling h.1) h.2
      · rfl
  rw [hasked]
  refine ⟨hst.gap.trans hi.gap, fun hd ho => ?_, fun hd ho => ?_⟩
  · obtain ⟨hd', ho'⟩ := hst.opened hd ho
    show M.top ≤ max e'.lastContiguousSeq M.missed
    rw [htop, hmissed, hst.contiguous]
    exact hi.top hd' ho'
  · obtain ⟨hd', ho'⟩ := hst.opened hd ho
    show M.pullSent ≤ max e'.lastContiguousSeq M.missedPull
    rw [hsent, hmissedPull, hst.contiguous]
    exact hi.pull hd' ho'

/-! ### What was sent -/

/-- How far a frame moves the end of the pull. -/
def batchLength : ServerFrame Blob → ℕ
  | .updatesBatch us _ => us.length
  | _ => 0

/-- A mark of missed seqs after a frame. -/
def Line.past (L : Line) (f : ServerFrame Blob) (m : ℕ) : ℕ :=
  if L.engine.takesIn f then m else Mark.reach m (Mark.items f.seqs)

theorem le_past (f : ServerFrame Blob) (m : ℕ) : m ≤ L.past f m := by
  unfold Line.past
  split
  · exact le_rfl
  · exact Mark.le_reach_items m _

theorem sent_engine (f : ServerFrame Blob) : (L.sent f).engine = L.engine := by
  cases f <;> rfl

theorem sent_top (f : ServerFrame Blob) :
    (L.sent f).top = Mark.reach L.top (Mark.items f.seqs) := by
  cases f <;> rfl

theorem sent_missed (f : ServerFrame Blob) : (L.sent f).missed = L.past f L.missed := by
  cases f <;> rfl

theorem sent_pullSent (f : ServerFrame Blob) :
    (L.sent f).pullSent = L.pullSent + batchLength f := by
  cases f <;> rfl

/-- The seqs of a batch end the pull so far, and they are accounted for or missed. -/
theorem sent_pull_le {f : ServerFrame Blob} (hsends : L.Sends f) {c c' : ℕ}
    (hpull : L.pullSent ≤ max c L.missedPull) (hc : c ≤ c')
    (htaken : L.engine.takesIn f = true → ∀ n ∈ f.seqs, n ≤ c') :
    (L.sent f).pullSent ≤ max c' (L.sent f).missedPull := by
  have hkeep : L.pullSent ≤ max c' L.missedPull := by omega
  cases f with
  | updatesBatch us complete =>
    show L.pullSent + us.length ≤ max c' (L.past (.updatesBatch us complete) L.missedPull)
    have hmono := le_past (L := L) (.updatesBatch us complete) L.missedPull
    by_cases hnil : us.length = 0
    · omega
    · have hlast : L.pullSent + us.length ∈ (ServerFrame.updatesBatch us complete).seqs := by
        show _ ∈ us.map StoredBlob.seq
        rw [hsends.2.2.2, List.mem_range'_1]
        omega
      by_cases htakes : L.engine.takesIn (.updatesBatch us complete) = true
      · have := htaken htakes _ hlast
        omega
      · have hreach := Mark.mem_le_reach_items L.missedPull hlast
        rw [Line.past, if_neg htakes]
        omega
  | _ => exact hkeep

/-- What a taken frame carries follows the cursor. -/
theorem dense_of_accounted {f : ServerFrame Blob} (hi : LineInv L) (hsends : L.Sends f)
    (hd : L.engine.state ≠ .disconnected) (ho : L.engine.state ≠ .opening)
    (hok : (∀ n ∈ f.seqs, n ≤ L.engine.lastContiguousSeq) ∨
      L.missedFor f ≤ L.engine.lastContiguousSeq) :
    Mark.Dense L.engine.lastContiguousSeq (Mark.items f.seqs) := by
  have htop := hi.top hd ho
  have hpull := hi.pull hd ho
  rcases hok with hle | hle
  · exact Mark.dense_of_le hle
  · cases f with
    | updatesBatch us complete =>
      have hsent : L.pullSent ≤ L.engine.lastContiguousSeq := by
        have : L.missedPull ≤ L.engine.lastContiguousSeq := hle
        omega
      show Mark.Dense _ (Mark.items (us.map StoredBlob.seq))
      rw [hsends.2.2.2]
      exact Mark.dense_mono hsent (Mark.dense_range' _ _)
    | _ =>
      refine Mark.dense_mono ?_ hsends.2.1
      have : L.missed ≤ L.engine.lastContiguousSeq := hle
      omega

/-- The engine after the seqs of a frame, as far as the cursor goes. -/
def Line.ingested (L : Line) (f : ServerFrame Blob) : Engine :=
  if L.engine.takesIn f then L.engine.ingestSeqs f.seqs else L.engine

/-- **A frame with seqs keeps the invariant.** -/
theorem lineInv_of_ingested {f : ServerFrame Blob} (e' : Engine) {s : Disk} (hi : LineInv L)
    (hsends : L.Sends f)
    (hok : L.engine.takesIn f = true → (∀ n ∈ f.seqs, n ≤ L.engine.lastContiguousSeq) ∨
      L.missedFor f ≤ L.engine.lastContiguousSeq)
    (hd : L.engine.state ≠ .disconnected) (ho : L.engine.state ≠ .opening)
    (hgap : e'.gap = (L.ingested f).gap)
    (hcur : e'.lastContiguousSeq = (L.ingested f).lastContiguousSeq)
    (hstate : e'.state = .pulling → L.engine.state = .pulling) :
    LineInv { (L.sent f).asked e' with engine := e', disk := s } ∧
      L.engine.lastContiguousSeq ≤ e'.lastContiguousSeq ∧
      (L.engine.takesIn f = true → ∀ n ∈ f.seqs, n ≤ e'.lastContiguousSeq) := by
  have hasked : (L.sent f).asked e' = L.sent f := by
    unfold Line.asked
    rw [sent_engine]
    split
    · rename_i h
      exact absurd (hstate h.1) (by simp [h.2])
    · split
      · rename_i h
        exact absurd (hstate h.1) h.2
      · rfl
  have hgap' : (L.ingested f).gap = false := by
    unfold Line.ingested
    split
    · rename_i htakes
      rw [(ingestSeqs_dense (dense_of_accounted hi hsends hd ho (hok htakes))).1, hi.gap]
    · exact hi.gap
  have hle : L.engine.lastContiguousSeq ≤ e'.lastContiguousSeq := by
    rw [hcur]
    unfold Line.ingested
    split
    · rename_i htakes
      rw [(ingestSeqs_dense (dense_of_accounted hi hsends hd ho (hok htakes))).2]
      exact Mark.le_reach_items _ _
    · exact le_rfl
  have hall (htakes : L.engine.takesIn f = true) : ∀ n ∈ f.seqs, n ≤ e'.lastContiguousSeq := by
    intro n hn
    rw [hcur, Line.ingested, if_pos htakes,
      (ingestSeqs_dense (dense_of_accounted hi hsends hd ho (hok htakes))).2]
    exact Mark.mem_le_reach_items _ hn
  have htop : (L.sent f).top ≤ max e'.lastContiguousSeq (L.sent f).missed := by
    have hold := hi.top hd ho
    have hmono := le_past (L := L) f L.missed
    rw [sent_top, sent_missed]
    refine Mark.reach_items_le (by omega) fun n hn => ?_
    by_cases htakes : L.engine.takesIn f = true
    · exact (hall htakes n hn).trans (Nat.le_max_left _ _)
    · have hreach := Mark.mem_le_reach_items L.missed hn
      rw [Line.past, if_neg htakes]
      omega
  refine ⟨?_, hle, hall⟩
  rw [hasked]
  exact ⟨hgap.trans hgap', fun _ _ => htop,
    fun _ _ => sent_pull_le hsends (hi.pull hd ho) hle hall⟩

/-- A frame without seqs that leaves the cursor alone. -/
theorem lineInv_of_silent {f : ServerFrame Blob} {e' : Engine} {s : Disk} (hi : LineInv L)
    (hseqs : f.seqs = []) (hst : Still L.engine e') :
    LineInv { (L.sent f).asked e' with engine := e', disk := s } := by
  have hpast (m : ℕ) : L.past f m = m := by
    unfold Line.past
    rw [hseqs]
    split <;> rfl
  have hsent : (L.sent f).pullSent = L.pullSent ∧ (L.sent f).missedPull = L.missedPull := by
    cases f with
    | updatesBatch us complete =>
      have hnil : us = [] := List.map_eq_nil_iff.1 hseqs
      refine ⟨by rw [sent_pullSent, hnil]; rfl, ?_⟩
      exact hpast L.missedPull
    | _ => exact ⟨rfl, rfl⟩
  refine lineInv_of_still hi (sent_engine f) ?_ ?_ hsent.1 hsent.2 hst
  · rw [sent_top, hseqs]
    rfl
  · rw [sent_missed, hpast]

/-- What a step on a frame has to establish. -/
def Line.Keeps (L : Line) (f : ServerFrame Blob) (s : Disk) (e' : Engine) : Prop :=
  let L' := { (L.sent f).asked e' with engine := e', disk := s }
  LineInv L' ∧ (Finishes L.engine e' → L'.pullSent ≤ e'.lastContiguousSeq)

theorem keeps_of_silent {f : ServerFrame Blob} {e' : Engine} {s : Disk} (hi : LineInv L)
    (hseqs : f.seqs = []) (hst : Still L.engine e') : L.Keeps f s e' :=
  ⟨lineInv_of_silent hi hseqs hst, fun hfin => absurd hfin hst.not_finishes⟩

theorem docOpened_keeps (hi : LineInv L) (epoch : ℕ) (s : Disk) :
    L.Keeps (.docOpened epoch) s (L.engine.docOpened epoch) := by
  unfold Engine.docOpened
  split
  · rename_i hst
    refine ⟨?_, fun hfin => absurd hfin (not_finishes_of le_rfl fun hp => ?_)⟩
    · rw [Line.asked, if_pos ⟨rfl, hst⟩]
      exact ⟨hi.gap, fun _ _ => Nat.le_max_left _ _, fun _ _ => Nat.le_max_left _ _⟩
    · rw [hst] at hp
      exact absurd hp (by simp)
  · exact keeps_of_silent hi rfl (.of_quiet (.report _ _))

theorem snapshotRequired_keeps {upToSeq : ℕ} (hi : LineInv L)
    (hsends : L.Sends (.snapshotRequired upToSeq)) (s : Disk) :
    L.Keeps (.snapshotRequired upToSeq) s L.engine.snapshotRequired := by
  unfold Engine.snapshotRequired
  split
  · rename_i hst
    have hkeep := lineInv_of_ingested ({ L.engine with state := .bootstrapping }.send .pullSnapshot)
      (s := s) hi hsends (fun _ => .inl fun n hn => absurd hn (by simp [ServerFrame.seqs]))
      (by simp [hst]) (by simp [hst]) rfl rfl (by simp [Engine.send])
    refine ⟨hkeep.1, fun hfin => absurd hfin (not_finishes_of le_rfl fun _ => ?_)⟩
    simp [Engine.send]
  · exact keeps_of_silent hi rfl (.of_quiet (.report _ _))

theorem snapshot_keeps {upToSeq : ℕ} {blob : Blob} {complete : Bool} {e' : Engine} {s : Disk}
    (hi : LineInv L)
    (he : Quiet L.engine e' ∨ (L.engine.state = .bootstrapping ∧
      (Quiet L.engine.goDisconnected e' ∨ Quiet (L.engine.resumed upToSeq) e'))) :
    L.Keeps (.snapshot upToSeq blob complete) s e' := by
  obtain hq | ⟨hboot, hq | hq⟩ := he
  · exact keeps_of_silent hi rfl (.of_quiet hq)
  · exact keeps_of_silent hi rfl ((Still.down _).quiet hq)
  · -- A new pull begins where the chain ends.
    have hst : e'.state = .pulling := hq.state
    have hcur : e'.lastContiguousSeq = max L.engine.lastContiguousSeq upToSeq := hq.contiguous
    have htop := hi.top (by simp [hboot]) (by simp [hboot])
    refine ⟨?_, fun hfin => absurd hfin (not_finishes_of hq.pulled.le fun hp => ?_)⟩
    · rw [Line.asked, if_neg (by simp [sent_engine, hboot]),
        if_pos ⟨hst, by simp [sent_engine, hboot]⟩]
      refine ⟨hq.gap.trans hi.gap, fun _ _ => ?_, fun _ _ => Nat.le_max_left _ _⟩
      show max L.top e'.lastContiguousSeq ≤ max e'.lastContiguousSeq L.missed
      omega
    · rw [hboot] at hp
      exact absurd hp (by simp)

theorem ingested_state (f : ServerFrame Blob) : (L.ingested f).state = L.engine.state := by
  unfold Line.ingested
  split
  · exact ingestSeqs_state _ _
  · rfl

theorem ingestSeqs_events (e : Engine) (ns : List ℕ) : (e.ingestSeqs ns).events = e.events := by
  induction ns generalizing e with
  | nil => rfl
  | cons n ns ih =>
    refine (ih _).trans ?_
    unfold Engine.ingestSeq
    split <;> rfl

theorem ingested_events (f : ServerFrame Blob) : (L.ingested f).events = L.engine.events := by
  unfold Line.ingested
  split
  · exact ingestSeqs_events _ _
  · rfl

/-- A frame that is ingested, or not, and does no more. -/
theorem keeps_of_ingested {f : ServerFrame Blob} {e' : Engine} {s : Disk} (hi : LineInv L)
    (hsends : L.Sends f) (hon : L.engine.isOnline = true)
    (hok : L.engine.takesIn f = true → (∀ n ∈ f.seqs, n ≤ L.engine.lastContiguousSeq) ∨
      L.missedFor f ≤ L.engine.lastContiguousSeq)
    (hq : Quiet (L.ingested f) e') : L.Keeps f s e' := by
  have hst : e'.state = L.engine.state := hq.state.trans (ingested_state f)
  have hcount : e'.events.count .pulledInitial = L.engine.events.count .pulledInitial := by
    rw [hq.pulled, ingested_events]
  by_cases ho : L.engine.state = .opening
  · have hseqs : f.seqs = [] := by
      by_contra hne
      exact hsends.1 hne ho
    have hself : L.ingested f = L.engine := by
      unfold Line.ingested
      rw [hseqs]
      split <;> rfl
    exact keeps_of_silent hi hseqs (.of_quiet (hself ▸ hq))
  · refine ⟨?_, fun hfin => absurd hfin (not_finishes_of hcount.le fun hp => ?_)⟩
    · exact (lineInv_of_ingested _ hi hsends hok (isOnline_iff.1 hon) ho hq.gap hq.contiguous
        fun hp => hst ▸ hp).1
    · simp [hst, hp]

theorem took_eq_ingested {us : List (StoredBlob Blob)} {f : ServerFrame Blob}
    (hboot : L.engine.state ≠ .bootstrapping)
    (hf : f = .updatesBroadcast us ∨ ∃ complete, f = .updatesBatch us complete) :
    L.engine.took us = L.ingested f := by
  have htakes : L.engine.takesIn f = decide (Readable us) := by
    rcases hf with rfl | ⟨c, rfl⟩ <;> simp [Engine.takesIn, hboot]
  have hseqs : f.seqs = us.map StoredBlob.seq := by
    rcases hf with rfl | ⟨c, rfl⟩ <;> rfl
  rw [Engine.took, Line.ingested, htakes, hseqs]
  simp only [decide_eq_true_eq]

/-- A bootstrapping engine takes in no updates. -/
theorem ingested_bootstrapping {us : List (StoredBlob Blob)} {f : ServerFrame Blob}
    (hboot : L.engine.state = .bootstrapping)
    (hf : f = .updatesBroadcast us ∨ ∃ complete, f = .updatesBatch us complete) :
    L.ingested f = L.engine := by
  have htakes : L.engine.takesIn f = false := by
    rcases hf with rfl | ⟨c, rfl⟩ <;> simp [Engine.takesIn, hboot]
  rw [Line.ingested, htakes]
  rfl

/-- The answer to a push: ingested, and the next push may go out. -/
theorem keeps_of_acked {acks : List PushAck} {e' : Engine} {s : Disk} (hi : LineInv L)
    (hsends : L.Sends (.updatesAck acks)) (hpush : L.engine.isPushing = true)
    (hok : L.engine.takesIn (.updatesAck acks) = true →
      (∀ n ∈ (ServerFrame.updatesAck (β := Blob) acks).seqs, n ≤ L.engine.lastContiguousSeq) ∨
      L.missedFor (.updatesAck acks) ≤ L.engine.lastContiguousSeq)
    (hp : Pushed { L.ingested (.updatesAck acks) with state := .idle } e') :
    L.Keeps (.updatesAck acks) s e' := by
  have hst := Still.pushed hp
  have hne : L.engine.state ≠ .disconnected ∧ L.engine.state ≠ .opening ∧
      L.engine.state ≠ .pulling := by
    refine ⟨?_, ?_, ?_⟩ <;>
    · intro h
      simp [Engine.isPushing, h] at hpush
  have hcount : e'.events.count .pulledInitial ≤ L.engine.events.count .pulledInitial := by
    have hle := hst.pulled
    dsimp only at hle
    rwa [ingested_events] at hle
  refine ⟨?_, fun hfin => absurd hfin (not_finishes_of hcount fun hp => absurd hp hne.2.2)⟩
  refine (lineInv_of_ingested _ hi hsends hok hne.1 hne.2.1 hst.gap hst.contiguous fun hp => ?_).1
  exact absurd (hst.pulling hp) (by simp)

theorem asked_eq {e : Engine} (h : e.state ≠ .pulling) : L.asked e = L := by
  unfold Line.asked
  rw [if_neg fun hp => h hp.1, if_neg fun hp => h hp.1]

/-- **The batch that ends a pull**: all that was sent for the pull is below the cursor. -/
theorem keeps_of_pulled {us : List (StoredBlob Blob)} {e' : Engine} {s : Disk} (hi : LineInv L)
    (hsends : L.Sends (.updatesBatch us true)) (hst : L.engine.state = .pulling)
    (hok : L.engine.takesIn (.updatesBatch us true) = true →
      (∀ n ∈ (ServerFrame.updatesBatch us true).seqs, n ≤ L.engine.lastContiguousSeq) ∨
      L.missedFor (.updatesBatch us true) ≤ L.engine.lastContiguousSeq)
    (hend : L.missedPull ≤ L.engine.lastContiguousSeq ∧
      (Readable us ∨ ∀ u ∈ us, u.seq ≤ L.engine.lastContiguousSeq))
    (hp : Pushed ({ L.ingested (.updatesBatch us true) with state := .idle }.emit .pulledInitial)
      e') : L.Keeps (.updatesBatch us true) s e' := by
  have hstill := Still.pushed hp
  have hidle : e'.state ≠ .pulling := fun h => absurd (hstill.pulling h) (by simp [Engine.emit])
  obtain ⟨hinv, hle, hall⟩ := lineInv_of_ingested _ (s := s) hi hsends hok (by simp [hst])
    (by simp [hst]) hstill.gap hstill.contiguous fun h => absurd h hidle
  refine ⟨hinv, fun _ => ?_⟩
  show ((L.sent _).asked e').pullSent ≤ e'.lastContiguousSeq
  rw [asked_eq hidle]
  have hpull := hi.pull (by simp [hst]) (by simp [hst])
  have hlast : us.length = 0 ∨ L.pullSent + us.length ∈ us.map StoredBlob.seq := by
    rw [hsends.2.2.2, List.mem_range'_1]
    omega
  show L.pullSent + us.length ≤ e'.lastContiguousSeq
  rcases hlast with hnil | hmem
  · have := hend.1
    omega
  · rcases hend.2 with hr | hold
    · exact hall (by simp [Engine.takesIn, hst, hr]) _ hmem
    · obtain ⟨u, hu, hseq⟩ := List.mem_map.1 hmem
      rw [← hseq]
      exact (hold u hu).trans hle

theorem frame_keeps {f : ServerFrame Blob} {mint : PushId} (hi : LineInv L)
    (hon : L.engine.isOnline = true) (hframe : L.frame l.call = some f) (hsends : L.Sends f)
    (hok : Accounted L l) (s s' : Disk) :
    Ends (L.Keeps f s') (L.engine.handleServerFrame H mint f) s := by
  have htaken := hok.taken f hframe
  cases f with
  | docOpened epoch => exact ends_pure (docOpened_keeps hi epoch s')
  | docRejected reason =>
    exact ends_pure (keeps_of_silent hi rfl
      ((Still.down _).quiet (Quiet.emit _ (by simp)).down))
  | docClosed reason =>
    exact ends_pure (keeps_of_silent hi rfl
      ((Still.down _).quiet (Quiet.emit _ (by simp)).down))
  | presence accounts =>
    exact ends_pure (keeps_of_silent hi rfl (.of_quiet (.emit _ (by simp))))
  | updatesBatch us complete =>
    by_cases hboot : L.engine.state = .bootstrapping
    · show Ends _ (L.engine.updatesBatch H us complete mint) s
      rw [Engine.updatesBatch, if_pos hboot]
      refine ends_pure (keeps_of_ingested hi hsends hon htaken ?_)
      rw [ingested_bootstrapping hboot (.inr ⟨complete, rfl⟩)]
      exact .report _ _
    · refine (updatesBatch_spec H L.engine s us complete mint hboot).mono fun e' he => ?_
      rw [took_eq_ingested hboot (.inr ⟨complete, rfl⟩)] at he
      split at he
      · rename_i hc
        obtain ⟨rfl, hst⟩ := hc
        rw [ingested_state] at hst
        exact keeps_of_pulled hi hsends hst htaken (hok.completed us hframe hst) he
      · exact keeps_of_ingested hi hsends hon htaken he
  | updatesBroadcast us =>
    show Ends _ (L.engine.updatesBroadcast us) s
    unfold Engine.updatesBroadcast
    split
    · rename_i hboot
      refine ends_pure (keeps_of_ingested hi hsends hon htaken ?_)
      rw [ingested_bootstrapping hboot (.inl rfl)]
      exact .refl _
    · rename_i hboot
      refine (applyRemoteUpdates_spec L.engine s us).mono fun e' hq => ?_
      rw [took_eq_ingested hboot (.inl rfl)] at hq
      exact keeps_of_ingested hi hsends hon htaken hq
  | updatesAck acks =>
    refine (updatesAck_spec H L.engine s acks mint).mono fun e' he => ?_
    obtain ⟨hfits, n, hn, hp⟩ | ⟨hno, hq | ⟨hpush, hq⟩⟩ := he
    · have hself : L.ingested (.updatesAck acks) = L.engine.ingestSeq n := by
        rw [Line.ingested, if_pos (by exact hfits)]
        show L.engine.ingestSeqs (acks.map PushAck.seq) = _
        rw [hn]
        rfl
      have hpush : L.engine.isPushing = true := (Bool.and_eq_true_iff.1 hfits).1
      exact keeps_of_acked hi hsends hpush htaken (hself ▸ hp)
    · refine keeps_of_ingested hi hsends hon htaken ?_
      rw [Line.ingested, if_neg (by simpa [Engine.takesIn] using hno)]
      exact hq
    · refine keeps_of_acked hi hsends hpush htaken (.inl ?_)
      rw [Line.ingested, if_neg (by simpa [Engine.takesIn] using hno)]
      exact hq
  | snapshotRequired upToSeq => exact ends_pure (snapshotRequired_keeps hi hsends s')
  | snapshot upToSeq blob complete =>
    exact (snapshot_spec H L.engine s upToSeq blob complete).mono fun e' he => snapshot_keeps hi he
  | snapshotRequest ask =>
    refine ends_pure (keeps_of_silent hi rfl ?_)
    rcases snapshotRequest_spec H L.engine ask with hq | ⟨snap, heq⟩
    · exact .of_quiet hq
    · rw [heq]
      exact ⟨rfl, rfl, le_rfl, .inl rfl⟩

/-- A call hands over a frame only online. -/
theorem frame_eq_some {c : HostCall} {f : ServerFrame Blob} (h : L.frame c = some f) :
    L.engine.isOnline = true ∧ ∃ mint, c = .handleServerBytes (some f) mint := by
  unfold Line.frame at h
  split at h
  · rename_i bytes mint
    split at h
    · rename_i hon
      exact ⟨hon, mint, by rw [h]⟩
    · exact absurd h (by simp)
  · exact absurd h (by simp)

/-- One step keeps the invariant, and a pull it finishes is whole. -/
theorem lineInv_step (hi : LineInv L) (hok : Accounted L l) (hs : L.step H l = some L') :
    LineInv L' ∧ (Finishes L.engine L'.engine → L'.pullSent ≤ L'.engine.lastContiguousSeq) := by
  unfold Line.step at hs
  dsimp only at hs
  split at hs
  · rename_i hnone
    have hst := Program.run_of_wp_true (program_still (H := H) hnone L.disk) l.outcomes
    rw [← Option.some.inj hs]
    exact ⟨lineInv_of_still hi rfl rfl rfl rfl rfl hst, fun hfin => absurd hfin hst.not_finishes⟩
  · rename_i f hframe
    split at hs
    · rename_i hsends
      obtain ⟨hon, mint, hc⟩ := frame_eq_some hframe
      have hprog : l.call.program H L.engine = L.engine.handleServerFrame H mint f := by
        rw [hc, HostCall.program, Engine.handleServerBytes, if_neg (isOnline_iff.1 hon)]
      rw [hprog] at hs
      have hkeeps : Ends (L.Keeps f ((L.engine.handleServerFrame H mint f).run act l.outcomes
          L.disk).1) (L.engine.handleServerFrame H mint f) L.disk :=
        frame_keeps hi hon hframe hsends hok _ _
      rw [← Option.some.inj hs]
      exact Program.run_of_wp_true hkeeps l.outcomes
    · exact absurd hs (by simp)

theorem lineInv_of_booted (h0 : L.Booted) : LineInv L := by
  obtain ⟨d, _, hd⟩ := Option.map_eq_some_iff.1 h0.1
  have hst : L.engine.state = .disconnected := by
    rw [← hd]
    rfl
  refine ⟨?_, fun h => absurd hst h, fun h => absurd hst h⟩
  rw [← hd]
  rfl

/-- **Pulls are whole and the assertion holds.**  In every run against a server that sends
densely and in order, in which nothing new is taken in on top of something that was not: no seq
skips past the cursor, and a pull that a step finishes lies below it to the end. -/
theorem pulls_whole (hr : (lining H).Reach Accounted L) (hok : Accounted L l)
    (hs : (lining H).step L l = some L') :
    L.engine.gap = false ∧ L'.engine.gap = false ∧
      (Finishes L.engine L'.engine → L'.pullSent ≤ L'.engine.lastContiguousSeq) := by
  have hinv : LineInv L := by
    apply hr.invariant
    · exact fun _ h0 => lineInv_of_booted h0
    · exact fun _ _ _ _ hi hok hs => (lineInv_step hi hok hs).1
  have hstep := lineInv_step hinv hok hs
  exact ⟨hinv.gap, hstep.1.gap, hstep.2⟩

/-! ## A batch that does not import -/

/-- The test of `Accounted` a run is checked with. -/
def accountedb (L : Line) (l : HostStep) : Bool :=
  match L.frame l.call with
  | none => true
  | some f =>
    (decide (L.engine.takesIn f = false) ||
      decide (∀ n ∈ f.seqs, n ≤ L.engine.lastContiguousSeq) ||
      decide (L.missedFor f ≤ L.engine.lastContiguousSeq)) &&
    match f with
    | .updatesBatch us true =>
      decide (L.missedPull ≤ L.engine.lastContiguousSeq) && decide (Readable us)
    | _ => true

theorem accountedb_sound (L : Line) (l : HostStep) (h : accountedb L l = true) :
    Accounted L l := by
  constructor
  · intro f hf htakes
    simp only [accountedb, hf, htakes, Bool.and_eq_true, Bool.or_eq_true, decide_eq_true_eq,
      reduceCtorEq, false_or] at h
    exact h.1
  · intro us hf _
    simp only [accountedb, hf, Bool.and_eq_true, decide_eq_true_eq] at h
    exact ⟨h.2.1, .inl h.2.2⟩

/-- A device that has nothing on disk and has heard nothing. -/
def freshLine : Line := ⟨Engine.new .empty 0, .empty, 0, 0, false, 0, 0⟩

theorem freshLine_booted : freshLine.Booted := by
  refine ⟨?_, rfl, rfl⟩
  decide

/-- A frame of the server. -/
def receive (f : ServerFrame Blob) : HostStep := ⟨.handleServerBytes (some f) 0, []⟩

/-- An update that imports. -/
def plainUpdate (n : ℕ) : StoredBlob Blob := ⟨n, History.byPeer.seal (.updates ∅)⟩

/-- An update that does not open. -/
def brokenUpdate (n : ℕ) : StoredBlob Blob := ⟨n, ⟨none, 0⟩⟩

/-- A pull in two batches, with a broadcast in between. -/
def pullInTwo : List HostStep :=
  [⟨.handleConnected, []⟩, receive (.docOpened 1), receive (.updatesBatch [plainUpdate 1] false),
    receive (.updatesBroadcast [plainUpdate 2])]

theorem pulls_whole_pullInTwo :
    ∃ L L' : Line, (lining History.byPeer).Reach Accounted L ∧
      (lining History.byPeer).step L (receive (.updatesBatch [plainUpdate 2] true)) = some L' ∧
      Finishes L.engine L'.engine ∧ L.engine.gap = false ∧ L'.engine.gap = false ∧
      L'.pullSent ≤ L'.engine.lastContiguousSeq := by
  let last := receive (.updatesBatch [plainUpdate 2] true)
  have hok : (lining History.byPeer).allStepsb accountedb freshLine pullInTwo = true := by
    decide
  have hrun : ((lining History.byPeer).exec freshLine pullInTwo).bind (fun L =>
      ((lining History.byPeer).step L last).map fun L' =>
        (accountedb L last, decide (Finishes L.engine L'.engine))) = some (true, true) := by
    decide
  obtain ⟨L, hL, hlast⟩ := Option.bind_eq_some_iff.1 hrun
  obtain ⟨L', hs, hend⟩ := Option.map_eq_some_iff.1 hlast
  simp only [Prod.mk.injEq, decide_eq_true_eq] at hend
  have hreach : (lining History.byPeer).Reach Accounted L :=
    Machine.Reach.exec (.init freshLine_booted)
      (Machine.allSteps_of_allStepsb accountedb_sound hok) hL
  obtain ⟨hgap, hgap', hwhole⟩ := pulls_whole hreach (accountedb_sound L last hend.1) hs
  exact ⟨L, L', hreach, hs, hend.2, hgap, hgap', hwhole hend.2⟩

/-- **A batch that does not import is skipped over.**  The next batch of the pull fails the
assertion. -/
theorem unreadable_then_gap :
    ∃ L : Line, (lining History.byPeer).Reachable L ∧ L.engine.gap = true := by
  have hrun : ((lining History.byPeer).exec freshLine [⟨.handleConnected, []⟩,
      receive (.docOpened 1), receive (.updatesBatch [brokenUpdate 1] false),
      receive (.updatesBatch [plainUpdate 2] true)]).map (fun L => L.engine.gap) = some true := by
    decide
  obtain ⟨L, hs, hgap⟩ := Option.map_eq_some_iff.1 hrun
  exact ⟨L, Machine.reach_of_exec freshLine_booted hs, hgap⟩

/-- Where it is the last one, the pull ends without it. -/
theorem unreadable_then_pulled :
    ∃ L L' : Line, (lining History.byPeer).Reachable L ∧
      (lining History.byPeer).step L (receive (.updatesBatch [brokenUpdate 1] true)) = some L' ∧
      L.engine.state = .pulling ∧ L'.engine.state = .idle ∧ L'.pullSent = 1 ∧
      L'.engine.lastContiguousSeq = 0 := by
  let last := receive (.updatesBatch [brokenUpdate 1] true)
  have hrun : ((lining History.byPeer).exec freshLine
      [⟨.handleConnected, []⟩, receive (.docOpened 1)]).bind (fun L =>
        ((lining History.byPeer).step L last).map fun L' =>
          (L.engine.state, L'.engine.state, L'.pullSent, L'.engine.lastContiguousSeq)) =
      some (.pulling, .idle, 1, 0) := by
    decide
  obtain ⟨L, hL, hlast⟩ := Option.bind_eq_some_iff.1 hrun
  obtain ⟨L', hs, hend⟩ := Option.map_eq_some_iff.1 hlast
  simp only [Prod.mk.injEq] at hend
  exact ⟨L, L', Machine.reach_of_exec freshLine_booted hL, hs, hend⟩

end Monoplan.Client
