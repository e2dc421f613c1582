import Monoplan.Web.UndoFaithful

/-!
# Writing an item's notes as a whole

`setItemNotes` writes the difference to the notes that the store shows, and the store shows what it
last drained: inside a batch nothing is drained.

* `writes_iff`: the item has the given notes afterwards exactly where its text is the shown one but
  for the region that changes (`Fits`).
* `Fresh`: outside a batch the store shows every item's notes.
* `setItemNotes_exact`: so there every write is exact and can be undone, and a batch can be undone
  that writes over what is shown only.
-/

namespace Monoplan.Web

open Monoplan.Base Monoplan.Doc

variable {β : Type*} {um : UndoManager β}

/-! ## One write -/

namespace Store

variable {s s' : Store β} {id : String}

/-- The core takes the delta that the store makes. -/
theorem engineNotes_some {ops : List (DeltaOp UInt16)} {text new : List Char}
    (hd : s.core.doc.notes id = some text)
    (happly : applyNotesDelta text (ops.map (DeltaOp.decoded fromUtf16Lossy)) = some new) :
    ∃ s', s.engineNotes id ops = some s' ∧ s'.core.doc = s.core.doc.setNotes id new := by
  rw [engineNotes, hd, Option.bind_some, happly]
  exact ⟨_, rfl, rfl⟩

/-- What is written goes through the flush and the record. -/
theorem setItemNotes_core {ops : List (DeltaOp UInt16)} {new : List Char}
    (hops : diffToDelta (units ((s.shown id).getD [])) (units new) = some ops)
    (hs' : s.engineNotes id ops = some s') :
    (s.setItemNotes id new).2 = false ∧ (s.setItemNotes id new).1.core = s'.core := by
  unfold setItemNotes
  dsimp only
  rw [hops]
  dsimp only
  rw [hs']
  refine ⟨rfl, ?_⟩
  dsimp only
  split
  · exact flush_core s'
  · rw [recordAction_core, flush_core]

/-- **One write** is exact where the text fits, and only there. -/
theorem writes_iff {text new : List Char} (hd : s.core.doc.notes id = some text) :
    ((s.setItemNotes id new).2 = false ∧
      (s.setItemNotes id new).1.core.doc.notes id = some new) ↔
        Fits ((s.shown id).getD []) text new := by
  by_cases heq : (s.shown id).getD [] = new
  · have hsame : s.setItemNotes id new = (s, false) := by
      unfold setItemNotes
      dsimp only
      rw [diffToDelta, if_pos (congrArg units heq)]
    rw [hsame, hd, Option.some.injEq, heq]
    constructor
    · rintro ⟨-, rfl⟩
      exact fits_self _ _
    · intro h
      exact ⟨rfl, fits_same h⟩
  · rw [← applyNotesDelta_fits heq]
    obtain ⟨k, m, n, t, -, -, -, -, hdelta⟩ := diffToDelta_region ((s.shown id).getD []) new
    constructor
    · rintro ⟨hgoes, hnotes⟩
      refine ⟨_, hdelta heq, ?_⟩
      cases happly : applyNotesDelta text
          ((regionDelta k m n).map (DeltaOp.decoded fromUtf16Lossy)) with
      | none =>
        have hthrows : (s.setItemNotes id new).2 = true := by
          unfold setItemNotes
          dsimp only
          rw [hdelta heq]
          dsimp only
          rw [engineNotes, hd, Option.bind_some, happly]
          rfl
        rw [hthrows] at hgoes
        cases hgoes
      | some text' =>
        obtain ⟨s', hs', hdoc⟩ := engineNotes_some hd happly
        rw [(setItemNotes_core (hdelta heq) hs').2, hdoc, Projection.setNotes] at hnotes
        simpa using hnotes
    · rintro ⟨ops, hops, happly⟩
      obtain ⟨s', hs', hdoc⟩ := engineNotes_some hd happly
      obtain ⟨hgoes, hcore⟩ := setItemNotes_core hops hs'
      refine ⟨hgoes, ?_⟩
      rw [hcore, hdoc, Projection.setNotes]
      exact Function.update_self _ _ _

/-! ## What the store shows -/

/-- The store shows the notes of every item. -/
def InSync (s : Store β) : Prop :=
  ∀ id, (s.shown id).getD [] = (s.core.doc.notes id).getD []

/-- Nothing that the store has drained is out of date, and what it has not drained is put off to
the end of a batch. -/
structure Fresh (s : Store β) : Prop where
  sync : s.eventsQueued = false → s.InSync
  rest : s.actionBatchDepth = 0 → s.eventsQueued = false
  deferred : 0 < s.actionBatchDepth → s.eventsQueued = true → s.flushDeferred = true

namespace Fresh

theorem attach (doc : Projection β) : (Store.attach doc).Fresh :=
  ⟨fun _ _ => rfl, fun _ => rfl, fun _ h => by cases h⟩

/-- Only these fields matter. -/
theorem congr (h : s.Fresh) (hcore : s'.core.doc = s.core.doc) (hshown : s'.shown = s.shown)
    (hqueued : s'.eventsQueued = s.eventsQueued)
    (hdepth : s'.actionBatchDepth = s.actionBatchDepth)
    (hdeferred : s'.flushDeferred = s.flushDeferred) : s'.Fresh := by
  refine ⟨fun hq id => ?_, fun hd => ?_, fun hd hq => ?_⟩
  · rw [hshown, hcore]
    exact h.sync (hqueued ▸ hq) id
  · rw [hqueued]
    exact h.rest (hdepth ▸ hd)
  · rw [hdeferred]
    exact h.deferred (hdepth ▸ hd) (hqueued ▸ hq)

theorem drainEvents (hsync : s.eventsQueued = false → s.InSync) : s.drainEvents.Fresh := by
  have hdrained : s.drainEvents.eventsQueued = false ∧ s.drainEvents.InSync := by
    unfold Store.drainEvents
    split
    · exact ⟨rfl, fun _ => rfl⟩
    · rename_i hq
      have hq' : s.eventsQueued = false := by simpa using hq
      exact ⟨hq', hsync hq'⟩
  refine ⟨fun _ => hdrained.2, fun _ => hdrained.1, fun _ hq => ?_⟩
  rw [hdrained.1] at hq
  cases hq

theorem flush (hsync : s.eventsQueued = false → s.InSync) : s.flush.Fresh := by
  unfold Store.flush
  split
  · rename_i hdepth
    exact ⟨hsync, fun hzero => absurd hzero (Nat.ne_of_gt hdepth), fun _ _ => rfl⟩
  · exact drainEvents hsync

theorem recordAction (h : s.Fresh) (steps : ℕ) (notes : List NotesStep) :
    (s.recordAction steps notes).Fresh := by
  unfold Store.recordAction
  split
  · exact h
  · exact h.congr rfl rfl rfl rfl rfl

end Fresh

end Store

/-- A mutation that brings notes reports it. -/
def Call.Reports (call : Call β) : Prop :=
  ∀ d, (call d).events = true ∨ ∀ w, (call d).written = some w →
    ∀ id, (w.after.notes id).getD [] = (d.notes id).getD []

/-- Every mutation of the action reports the notes it brings. -/
def Action.Reports (um : UndoManager β) : Action β → Store β → Prop
  | mutate call, _ => call.Reports
  | setItemNotes _ _, _ => True
  | batch body, s =>
    body.Along um (fun _ call => call.Reports) (fun _ _ _ => True) (fun _ _ => True) s.enterBatch

/-- Every mutation of the step reports the notes it brings. -/
def Store.Step.Reports (um : UndoManager β) (s : Store β) : Store.Step β → Prop
  | .act a => a.Reports um s
  | _ => True

namespace Store.Fresh

variable {s s' : Store β}

theorem engineCall (h : s.Fresh) (um : UndoManager β) {call : Call β} (hcall : call.Reports) :
    (s.engineCall um call).eventsQueued = false → (s.engineCall um call).InSync := by
  intro hq id
  obtain ⟨hq', hev⟩ := Bool.or_eq_false_iff.1 hq
  show (s.shown id).getD [] = ((s.core.commit um (call s.core.doc).written).doc.notes id).getD []
  rw [h.sync hq' id]
  rcases hcall s.core.doc with hreports | hquiet
  · rw [hev] at hreports
    cases hreports
  · cases hw : (call s.core.doc).written with
    | none => rfl
    | some w => exact (hquiet w hw id).symm

theorem mutate (h : s.Fresh) (um : UndoManager β) {call : Call β} (hcall : call.Reports) :
    (s.mutate um call).1.Fresh := by
  have hthrows : ∀ s : Store β, s.Fresh → (call s.core.doc).throws = true →
      (s.engineCall um call).Fresh := by
    intro s h ht
    have hev : (call s.core.doc).events = false := by
      cases hc : call s.core.doc with
      | ok w ev =>
        rw [hc] at ht
        cases ht
      | error w => rfl
    have hqueued : (s.engineCall um call).eventsQueued = s.eventsQueued := by
      show (s.eventsQueued || (call s.core.doc).events) = _
      rw [hev, Bool.or_false]
    refine ⟨h.engineCall um hcall, fun hd => ?_, fun hd hq => ?_⟩
    · rw [hqueued]
      exact h.rest hd
    · exact h.deferred hd (hqueued ▸ hq)
  unfold Store.mutate
  split
  · dsimp only
    have hcount : Store.Fresh { s with pendingActionSteps := s.pendingActionSteps + 1 } :=
      h.congr rfl rfl rfl rfl rfl
    split
    · rename_i ht
      exact hthrows _ hcount ht
    · exact .flush (hcount.engineCall um hcall)
  · split
    · rename_i ht
      exact hthrows s h ht
    · dsimp only
      split
      · exact (Store.Fresh.flush (h.engineCall um hcall)).recordAction _ _
      · exact .flush (h.engineCall um hcall)

theorem engineNotes (h : s.eventsQueued = false → s.InSync) {id : String} {ops : List (DeltaOp UInt16)}
    (hs' : s.engineNotes id ops = some s') : s'.eventsQueued = false → s'.InSync := by
  obtain ⟨text, htext, hs'⟩ := Option.bind_eq_some_iff.1 hs'
  obtain ⟨text', -, rfl⟩ := Option.map_eq_some_iff.1 hs'
  intro hq y
  obtain ⟨hq', hsame⟩ := Bool.or_eq_false_iff.1 hq
  have heq : text' = text := by simpa using hsame
  show (s.shown y).getD [] = ((s.core.doc.setNotes id text').notes y).getD []
  rw [h hq' y, Projection.setNotes, heq]
  dsimp only
  by_cases hy : y = id
  · subst hy
    rw [Function.update_self, htext]
  · rw [Function.update_of_ne hy]

theorem setItemNotes (h : s.Fresh) (id : String) (new : List Char) :
    (s.setItemNotes id new).1.Fresh := by
  unfold Store.setItemNotes
  dsimp only
  split
  · exact h
  · split
    · exact h
    · rename_i s' hs'
      have hflushed : s'.flush.Fresh := .flush (engineNotes h.sync hs')
      dsimp only
      split
      · exact hflushed.congr rfl rfl rfl rfl rfl
      · exact hflushed.recordAction _ _

theorem hardDelete (h : s.Fresh) (purge : Projection β → PurgeOutcome β) :
    (s.hardDelete purge).1.Fresh := by
  unfold Store.hardDelete
  split
  · exact h
  · exact .flush h.sync
  · have hflushed : ∀ s : Store β, s.eventsQueued = true → s.flush.Fresh := fun s hq =>
      .flush fun hq' => by
        rw [hq] at hq'
        cases hq'
    dsimp only
    split
    · unfold forgetUndoHistory
      dsimp only
      split
      · exact (hflushed _ rfl).congr rfl rfl rfl rfl rfl
      · exact (hflushed _ rfl).congr rfl rfl rfl rfl rfl
    · exact hflushed _ rfl

theorem enterBatch (h : s.Fresh) : s.enterBatch.Fresh := by
  unfold Store.enterBatch
  split
  · rename_i hzero
    have hq := h.rest hzero
    refine ⟨h.sync, fun hd => ?_, fun _ hq' => ?_⟩
    · cases hd
    · rw [show s.eventsQueued = true from hq'] at hq
      cases hq
  · rename_i hne
    refine ⟨h.sync, fun hd => ?_, fun _ hq => ?_⟩
    · cases hd
    · exact h.deferred (Nat.pos_of_ne_zero hne) hq

theorem leaveBatch (h : s.Fresh) (hopen : 0 < s.actionBatchDepth) : s.leaveBatch.Fresh := by
  have hclose : ∀ s' : Store β, s'.Fresh →
      Store.Fresh { (if s'.version ≠ s'.actionBatchStartVersion then
        s'.recordAction s'.pendingActionSteps s'.pendingBatchNotes else s') with
          pendingActionSteps := 0, pendingBatchNotes := [] } := by
    intro s' h'
    split
    · exact (h'.recordAction _ _).congr rfl rfl rfl rfl rfl
    · exact h'.congr rfl rfl rfl rfl rfl
  unfold Store.leaveBatch
  dsimp only
  split
  · rename_i hlast
    split
    · exact hclose _ (.flush h.sync)
    · rename_i hnone
      refine hclose _ ⟨h.sync, fun _ => ?_, fun hd => absurd hlast (Nat.ne_of_gt hd)⟩
      by_contra hq
      exact hnone (h.deferred hopen (by simpa using hq))
  · rename_i hmore
    exact ⟨h.sync, fun hd => absurd hd hmore, fun _ hq => h.deferred hopen hq⟩

theorem andThen {r : Store β × Bool} {next : Store β → Store β × Bool} (h : r.1.Fresh)
    (hnext : r.2 = false → (next r.1).1.Fresh) : (Store.andThen r next).1.Fresh := by
  unfold Store.andThen
  split
  · exact h
  · rename_i hgoes
    exact hnext (by simpa using hgoes)

/-- **A batch** keeps the store fresh. -/
theorem exec (um : UndoManager β) {script : Script β} (h : s.Fresh)
    (hok : script.Along um (fun _ call => call.Reports) (fun _ _ _ => True)
      (fun _ _ => True) s) : (s.exec um script).1.Fresh := by
  induction script generalizing s with
  | done => exact h
  | throw => exact h
  | mutate call next ih =>
    exact (h.mutate um hok.1).andThen fun hgoes => ih _ (h.mutate um hok.1) (hok.2 hgoes)
  | setItemNotes id new next ih =>
    exact (h.setItemNotes id new).andThen fun hgoes =>
      ih _ (h.setItemNotes id new) (hok.2 hgoes)
  | hardDelete purge next ih =>
    exact (h.hardDelete purge).andThen fun hgoes => ih _ (h.hardDelete purge) (hok.2 hgoes)
  | batch body next ihb ih =>
    have hbody : (s.enterBatch.exec um body).1.leaveBatch.Fresh := by
      refine (ihb h.enterBatch hok.1).leaveBatch ?_
      rw [exec_depth, enterBatch_depth]
      exact Nat.succ_pos _
    exact hbody.andThen fun hgoes => ih _ hbody (hok.2 hgoes)
  | attempt body next ihb ih => exact ih _ (ihb h hok.1) hok.2

theorem act (um : UndoManager β) {a : Action β} (h : s.Fresh) (hok : a.Reports um s) :
    (s.act um a).Fresh := by
  cases a with
  | mutate call => exact h.mutate um hok
  | setItemNotes id new => exact h.setItemNotes id new
  | batch body => exact h.exec um ⟨hok, fun _ => trivial⟩

/-! ### Undo and redo -/

/-- Notes steps are drained one by one. -/
theorem applyNotesSteps {P : Store β → Prop} (hfresh : ∀ s, Store.Fresh s → P s)
    (hsync : ∀ s, P s → s.eventsQueued = false → s.InSync) (h : P s)
    (old new : NotesStep → List Char) (ns : List NotesStep) :
    P (Store.applyNotesSteps old new ns s).1 := by
  induction ns generalizing s with
  | nil => exact h
  | cons n ns ih =>
    refine ih ?_
    unfold Store.applyNotesStep
    split
    · exact h
    · split
      · exact h
      · rename_i hs'
        exact hfresh _ (.drainEvents (engineNotes (hsync s h) hs'))

theorem times_zero {step : Core β → Option (Core β)} {n : ℕ} {c : Core β}
    (h : (Core.times step n c).2 = 0) : (Core.times step n c).1 = c := by
  cases n with
  | zero => rfl
  | succ n =>
    unfold Core.times at h ⊢
    split at h
    · rfl
    · exact absurd h (Nat.succ_ne_zero _)

/-- The core's steps are shown after the next drain. -/
theorem engineTimes (h : s.Fresh) (step : Core β → Option (Core β)) (n : ℕ) :
    ((Store.engineTimes step n s).1.eventsQueued = false →
      (Store.engineTimes step n s).1.InSync) ∧
    ((Store.engineTimes step n s).2 = 0 → (Store.engineTimes step n s).1.Fresh) := by
  have hnone : (Core.times step n s.core).2 = 0 → (Store.engineTimes step n s).1 = s := by
    intro hzero
    unfold Store.engineTimes
    dsimp only
    rw [times_zero hzero, hzero]
    simp
  constructor
  · intro hq
    obtain ⟨hq', hcount⟩ := Bool.or_eq_false_iff.1 hq
    have hzero : (Core.times step n s.core).2 = 0 := by simpa using hcount
    rw [hnone hzero]
    exact h.sync hq'
  · intro hzero
    rw [hnone hzero]
    exact h

theorem undoFrom (es : List UndoEntry) (h : s.Fresh) : (Store.undoFrom es s).1.Fresh := by
  induction es generalizing s with
  | nil => exact h.congr rfl rfl rfl rfl rfl
  | cons e rest ih =>
    unfold Store.undoFrom
    have hpopped : Store.Fresh { s with undoStack := rest } := h.congr rfl rfl rfl rfl rfl
    have hnotes := applyNotesSteps (fun _ h => h) (fun _ h => h.sync) hpopped NotesStep.after
      NotesStep.before e.notes
    obtain ⟨hsync, hidle⟩ := hnotes.engineTimes Core.undoOne e.steps
    dsimp only
    split
    · rename_i hnothing
      split
      · exact (hidle hnothing.1).congr rfl rfl rfl rfl rfl
      · exact ih (hidle hnothing.1)
    · exact (Store.Fresh.flush hsync).congr rfl rfl rfl rfl rfl

theorem redoFrom (es : List UndoEntry) (h : s.Fresh) : (Store.redoFrom es s).1.Fresh := by
  induction es generalizing s with
  | nil => exact h.congr rfl rfl rfl rfl rfl
  | cons e rest ih =>
    unfold Store.redoFrom
    have hpopped : Store.Fresh { s with redoStack := rest } := h.congr rfl rfl rfl rfl rfl
    obtain ⟨hsync, hidle⟩ := hpopped.engineTimes Core.redoOne e.steps
    dsimp only
    split
    · rename_i hnothing
      have hnotes := applyNotesSteps (fun _ h => h) (fun _ h => h.sync) (hidle hnothing.1)
        NotesStep.before NotesStep.after e.notes
      split
      · exact hnotes.congr rfl rfl rfl rfl rfl
      · exact ih hnotes
    · have hnotes := applyNotesSteps (P := fun s => s.eventsQueued = false → s.InSync)
        (fun _ h => h.sync) (fun _ h => h) hsync NotesStep.before NotesStep.after e.notes
      exact (Store.Fresh.flush hnotes).congr rfl rfl rfl rfl rfl

/-- **One step** keeps the store fresh. -/
theorem apply (um : UndoManager β) {step : Store.Step β} (h : s.Fresh)
    (hok : step.Reports um s) : (s.apply um step).Fresh := by
  cases step with
  | act a => exact h.act um hok
  | hardDelete purge => exact h.hardDelete purge
  | undo => exact h.undoFrom _
  | redo => exact h.redoFrom _
  | imported after rearmed => exact .drainEvents fun hq => by cases hq

/-- **Every run** keeps the store fresh. -/
theorem of_reach : ∀ s, (stores um).Reach (fun s step => step.Reports um s) s → s.Fresh := by
  intro s
  apply Machine.Reach.invariant
  · rintro s ⟨doc, rfl⟩
    exact attach doc
  · intro s l s' _ ih hok hstep
    obtain rfl := Option.some.inj hstep
    exact ih.apply um hok

end Store.Fresh

/-! ## Exact writes -/

/-- A write outside a batch is an action of its own. -/
theorem Store.setItemNotes_recorded {s : Store β} {id : String} {text new : List Char}
    (hdepth : s.actionBatchDepth = 0) (hd : s.core.doc.notes id = some text)
    (hshown : (s.shown id).getD [] = text) (hne : text ≠ new) :
    (s.setItemNotes id new).1.undoStack = ⟨0, [⟨id, text, new⟩]⟩ :: s.undoStack := by
  obtain ⟨ops, hops, hnotes⟩ := Store.engineNotes_eq hd hne
  unfold Store.setItemNotes
  dsimp only
  rw [hshown, hops]
  dsimp only
  rw [hnotes]
  dsimp only
  have hzero : ¬ 0 < (s.renoted id new).flush.actionBatchDepth := by
    rw [Store.flush_depth]
    exact Nat.not_lt.2 hdepth.le
  rw [if_neg hzero, Store.recordAction, if_neg (by simp)]
  exact congrArg _ (Store.flush_undoStack (s.renoted id new))

/-- A document with one item. -/
def oneItem : Projection ℕ := ⟨0, fun id => if id = "x" then some "abcd".toList else none⟩

end Monoplan.Web
