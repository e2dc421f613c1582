import Monoplan.Web.UndoTrail

/-!
# What an undo takes back

* `Recorded`: what a store looks like right after an action that it recorded.
* `undo_faithful_iff`: a recorded plain action is undone and redone exactly, and nothing before
  it is touched, if and only if every mutation of it writes something.
* `undo_eats_earlier_action`: a batch that also moves an item to where it is takes an earlier
  action with it.
-/

namespace Monoplan.Web

open Monoplan.Base Monoplan.Doc

variable {β : Type*} {um : UndoManager β}

/-! ## Between the actions -/

namespace Store

variable {s : Store β}

theorem flush_depth (s : Store β) : s.flush.actionBatchDepth = s.actionBatchDepth := by
  unfold flush drainEvents
  split_ifs <;> rfl

theorem recordAction_depth (s : Store β) (steps : ℕ) (notes : List NotesStep) :
    (s.recordAction steps notes).actionBatchDepth = s.actionBatchDepth := by
  unfold recordAction
  split <;> rfl

theorem mutate_depth (um : UndoManager β) (s : Store β) (call : Call β) :
    (s.mutate um call).1.actionBatchDepth = s.actionBatchDepth := by
  unfold mutate
  dsimp only
  split_ifs <;> simp only [flush_depth, recordAction_depth] <;> rfl

theorem engineNotes_depth {id : String} {ops : List (DeltaOp UInt16)} {s' : Store β}
    (h : s.engineNotes id ops = some s') : s'.actionBatchDepth = s.actionBatchDepth := by
  obtain ⟨text, -, h⟩ := Option.bind_eq_some_iff.1 h
  obtain ⟨text', -, rfl⟩ := Option.map_eq_some_iff.1 h
  rfl

theorem setItemNotes_depth (s : Store β) (id : String) (text : List Char) :
    (s.setItemNotes id text).1.actionBatchDepth = s.actionBatchDepth := by
  unfold setItemNotes
  dsimp only
  split
  · rfl
  · split
    · rfl
    · rename_i h
      have hdepth := engineNotes_depth h
      split_ifs <;> simp only [recordAction_depth, flush_depth, hdepth]

theorem hardDelete_depth (s : Store β) (purge : Projection β → PurgeOutcome β) :
    (s.hardDelete purge).1.actionBatchDepth = s.actionBatchDepth := by
  unfold hardDelete forgetUndoHistory
  dsimp only
  split
  · rfl
  · exact flush_depth s
  · split_ifs <;> simp only [flush_depth]

theorem leaveBatch_depth (s : Store β) :
    s.leaveBatch.actionBatchDepth = s.actionBatchDepth - 1 := by
  unfold leaveBatch
  dsimp only
  split_ifs <;> simp only [recordAction_depth, flush_depth]

theorem enterBatch_depth (s : Store β) :
    s.enterBatch.actionBatchDepth = s.actionBatchDepth + 1 := by
  unfold enterBatch
  split
  · rename_i h
    rw [h]
  · rfl

theorem andThen_depth {r : Store β × Bool} {next : Store β → Store β × Bool}
    (h : ∀ s : Store β, (next s).1.actionBatchDepth = s.actionBatchDepth) :
    (andThen r next).1.actionBatchDepth = r.1.actionBatchDepth := by
  unfold andThen
  split
  · rfl
  · exact h r.1

theorem exec_depth (um : UndoManager β) (script : Script β) (s : Store β) :
    (s.exec um script).1.actionBatchDepth = s.actionBatchDepth := by
  induction script generalizing s with
  | done => rfl
  | throw => rfl
  | mutate call next ih =>
    exact (andThen_depth fun s => ih _ s).trans (mutate_depth um s call)
  | setItemNotes id text next ih =>
    exact (andThen_depth fun s => ih _ s).trans (setItemNotes_depth s id text)
  | hardDelete purge next ih =>
    exact (andThen_depth fun s => ih _ s).trans (hardDelete_depth s purge)
  | batch body next ihb ih =>
    refine (andThen_depth fun s => ih _ s).trans ?_
    rw [leaveBatch_depth, ihb, enterBatch_depth, Nat.add_sub_cancel]
  | attempt body next ihb ih => exact (ih _ _).trans (ihb s)

theorem act_depth (um : UndoManager β) (s : Store β) (a : Action β) :
    (s.act um a).actionBatchDepth = s.actionBatchDepth := by
  cases a with
  | mutate call => exact mutate_depth um s call
  | setItemNotes id text => exact setItemNotes_depth s id text
  | batch body => exact exec_depth um _ s

theorem drainEvents_depth (s : Store β) :
    s.drainEvents.actionBatchDepth = s.actionBatchDepth := by
  unfold drainEvents
  split <;> rfl

theorem applyNotesSteps_depth (old new : NotesStep → List Char) (ns : List NotesStep)
    (s : Store β) :
    (applyNotesSteps old new ns s).1.actionBatchDepth = s.actionBatchDepth := by
  induction ns generalizing s with
  | nil => rfl
  | cons n ns ih =>
    refine (ih _).trans ?_
    unfold applyNotesStep
    split
    · rfl
    · split
      · rfl
      · rename_i h
        dsimp only
        rw [drainEvents_depth, engineNotes_depth h]

theorem undoFrom_depth (es : List UndoEntry) (s : Store β) :
    (undoFrom es s).1.actionBatchDepth = s.actionBatchDepth := by
  induction es generalizing s with
  | nil => rfl
  | cons e rest ih =>
    unfold undoFrom
    dsimp only [engineTimes]
    split_ifs <;> simp only [ih, flush_depth, applyNotesSteps_depth]

theorem redoFrom_depth (es : List UndoEntry) (s : Store β) :
    (redoFrom es s).1.actionBatchDepth = s.actionBatchDepth := by
  induction es generalizing s with
  | nil => rfl
  | cons e rest ih =>
    unfold redoFrom
    dsimp only [engineTimes]
    split_ifs <;> simp only [ih, flush_depth, applyNotesSteps_depth]

/-- Between the actions no batch is open. -/
theorem depth_eq_zero : ∀ s, (stores um).Reachable s → s.actionBatchDepth = 0 := by
  intro s
  apply Machine.Reach.invariant
  · rintro s ⟨doc, rfl⟩
    rfl
  · intro s l s' _ ih _ hstep
    obtain rfl := Option.some.inj hstep
    cases l with
    | act a => exact (act_depth um _ a).trans ih
    | hardDelete purge => exact (hardDelete_depth _ purge).trans ih
    | undo => exact (undoFrom_depth _ _).trans ih
    | redo => exact (redoFrom_depth _ _).trans ih
    | imported after rearmed => exact (drainEvents_depth _).trans ih

end Store

/-! ## Right after an action -/

/-- `t` comes right after `s`, with the action recorded as `e`: `ps` are the steps that the core
has for it. -/
structure Recorded (s t : Store β) (e : UndoEntry) (ps : List (UndoSpan β)) : Prop where
  depth : t.actionBatchDepth = 0
  stack : t.undoStack = e :: s.undoStack
  counts : e.steps = 0 → e.notes ≠ []
  undo : t.core.undo = ps ++ s.core.undo
  trail : Trail s.core.doc s.shown t.core.doc ps e.notes

namespace Store

variable {s : Store β}

theorem flush_core (s : Store β) : s.flush.core = s.core := by
  unfold flush drainEvents
  split_ifs <;> rfl

theorem flush_undoStack (s : Store β) : s.flush.undoStack = s.undoStack := by
  unfold flush drainEvents
  split_ifs <;> rfl

theorem flush_redoStack (s : Store β) : s.flush.redoStack = s.redoStack := by
  unfold flush drainEvents
  split_ifs <;> rfl

theorem flush_pendingActionSteps (s : Store β) :
    s.flush.pendingActionSteps = s.pendingActionSteps := by
  unfold flush drainEvents
  split_ifs <;> rfl

theorem flush_pendingBatchNotes (s : Store β) :
    s.flush.pendingBatchNotes = s.pendingBatchNotes := by
  unfold flush drainEvents
  split_ifs <;> rfl

theorem recordAction_core (s : Store β) (steps : ℕ) (notes : List NotesStep) :
    (s.recordAction steps notes).core = s.core := by
  unfold recordAction
  split <;> rfl

/-- The entry of an action that was recorded. -/
theorem recordAction_stack {steps : ℕ} {notes : List NotesStep} {e : UndoEntry}
    (h : (s.recordAction steps notes).undoStack = e :: s.undoStack) :
    e = ⟨steps, notes⟩ ∧ (steps = 0 → notes ≠ []) := by
  unfold recordAction at h
  split at h
  · exact absurd h.symm (List.cons_ne_self _ _)
  · rename_i hsome
    obtain ⟨rfl, -⟩ := List.cons.inj h
    exact ⟨rfl, fun h₀ h₁ => hsome ⟨h₀, h₁⟩⟩

theorem leaveBatch_core (s : Store β) : s.leaveBatch.core = s.core := by
  unfold leaveBatch
  dsimp only
  split_ifs <;> simp only [recordAction_core, flush_core]

/-- Leaving the outermost batch records what was pending, or nothing. -/
theorem leaveBatch_stack (h : s.actionBatchDepth = 1) :
    s.leaveBatch.undoStack = s.undoStack ∨ ∃ s' : Store β, s'.undoStack = s.undoStack ∧
      s.leaveBatch.undoStack =
        (s'.recordAction s.pendingActionSteps s.pendingBatchNotes).undoStack := by
  unfold leaveBatch
  dsimp only
  rw [h, Nat.sub_self, if_pos rfl]
  split_ifs
  · refine .inr ⟨({ s with actionBatchDepth := 0, flushDeferred := false } : Store β).flush,
      flush_undoStack _, ?_⟩
    show (recordAction _ (flush _).pendingActionSteps (flush _).pendingBatchNotes).undoStack = _
    rw [flush_pendingActionSteps, flush_pendingBatchNotes]
  · exact .inl (flush_undoStack _)
  · exact .inr ⟨{ s with actionBatchDepth := 0 }, rfl, rfl⟩
  · exact .inl rfl

end Store

namespace Recorded

variable {s : Store β} {e : UndoEntry}

theorem mutate (hdepth : s.actionBatchDepth = 0) {call : Call β}
    (hrec : (s.mutate um call).1.undoStack = e :: s.undoStack) :
    ∃ ps, Recorded s (s.mutate um call).1 e ps ∧ ps.length ≤ e.steps ∧
      (ps.length = e.steps ↔ CommitsAt s call) := by
  have hstack : (s.engineCall um call).flush.undoStack = s.undoStack := Store.flush_undoStack _
  have hcore : (s.engineCall um call).flush.core = s.core.commit um (call s.core.doc).written :=
    Store.flush_core _
  have hzero := (Store.mutate_depth um s call).trans hdepth
  unfold Store.mutate at hrec hzero ⊢
  dsimp only at hrec hzero ⊢
  rw [if_neg (by omega)] at hrec hzero ⊢
  by_cases hthrew : (call s.core.doc).throws = true
  · rw [if_pos hthrew] at hrec
    exact absurd hrec.symm (List.cons_ne_self _ _)
  rw [if_neg hthrew] at hrec hzero ⊢
  by_cases hversion : (s.engineCall um call).flush.version ≠ s.version
  · rw [if_pos hversion] at hrec hzero ⊢
    have hrec' := hrec
    rw [← hstack] at hrec'
    obtain ⟨rfl, hcounts⟩ := Store.recordAction_stack hrec'
    unfold CommitsAt
    dsimp only
    cases hw : (call s.core.doc).written with
    | none =>
      rw [hw] at hcore
      refine ⟨[], ⟨hzero, hrec, hcounts, ?_, ?_⟩, Nat.zero_le _, by simp⟩
      · rw [Store.recordAction_core, hcore]
        rfl
      · rw [Store.recordAction_core, hcore]
        exact .start _ _
    | some w =>
      rw [hw] at hcore
      refine ⟨[um.record s.core.doc w.after], ⟨hzero, hrec, hcounts, ?_, ?_⟩, Nat.le_refl _,
        by simp⟩
      · rw [Store.recordAction_core, hcore]
        rfl
      · rw [Store.recordAction_core, hcore]
        exact (Trail.start _ _).commit w.extends_ um
  · rw [if_neg hversion, hstack] at hrec
    exact absurd hrec.symm (List.cons_ne_self _ _)

theorem setItemNotes (hdepth : s.actionBatchDepth = 0) {id : String} {text : List Char}
    (hok : NotesShownAt s id text)
    (hrec : (s.setItemNotes id text).1.undoStack = e :: s.undoStack) :
    Recorded s (s.setItemNotes id text).1 e [] ∧ e.steps = 0 := by
  have hzero := (Store.setItemNotes_depth s id text).trans hdepth
  unfold Store.setItemNotes at hrec hzero ⊢
  dsimp only at hrec hzero ⊢
  by_cases heq : (s.shown id).getD [] = text
  · rw [diffToDelta, if_pos (congrArg units heq)] at hrec
    exact absurd hrec.symm (List.cons_ne_self _ _)
  · have hd := hok (Ne.symm heq)
    obtain ⟨ops, hops, hnotes⟩ := Store.engineNotes_eq hd heq
    have hstack : (s.renoted id text).flush.undoStack = s.undoStack := Store.flush_undoStack _
    have hcore : (s.renoted id text).flush.core = (s.renoted id text).core := Store.flush_core _
    rw [hops] at hrec hzero ⊢
    dsimp only at hrec hzero ⊢
    rw [hnotes] at hrec hzero ⊢
    dsimp only at hrec hzero ⊢
    rw [Store.flush_depth, if_neg (show ¬0 < (s.renoted id text).actionBatchDepth by
      exact Nat.not_lt.2 hdepth.le)] at hrec hzero ⊢
    have hrec' := hrec
    rw [← hstack] at hrec'
    obtain ⟨rfl, hcounts⟩ := Store.recordAction_stack hrec'
    refine ⟨⟨hzero, hrec, hcounts, ?_, ?_⟩, rfl⟩
    · rw [Store.recordAction_core, hcore]
      rfl
    · rw [Store.recordAction_core, hcore]
      exact (Trail.start _ _).setNotes heq hd

theorem batch (hdepth : s.actionBatchDepth = 0) {body : Script β}
    (hplain : body.Plain um s.enterBatch)
    (hrec : (s.enterBatch.exec um body).1.leaveBatch.undoStack = e :: s.undoStack) :
    ∃ ps, Recorded s (s.enterBatch.exec um body).1.leaveBatch e ps ∧ ps.length ≤ e.steps ∧
      (ps.length = e.steps ↔ body.Writes um s.enterBatch) := by
  have henter : s.enterBatch.undoStack = s.undoStack ∧ s.enterBatch.shown = s.shown ∧
      s.enterBatch.core = s.core ∧ s.enterBatch.pendingActionSteps = 0 ∧
      s.enterBatch.actionBatchDepth = 1 ∧ s.enterBatch.pendingBatchNotes = [] := by
    unfold Store.enterBatch
    rw [if_pos hdepth]
    exact ⟨rfl, rfl, rfl, rfl, rfl, rfl⟩
  obtain ⟨hstack, hshown, hcore, hsteps, hopen, hnotes⟩ := henter
  have hbegin : Within s s.enterBatch [] := by
    refine ⟨by omega, hshown, hstack, by rw [hcore]; rfl, ?_⟩
    rw [hnotes, hcore]
    exact .start _ _
  obtain ⟨ps, k, hwithin, hcounts, hle, hiff⟩ := exec_tracks um hbegin hplain
  have hlevel := hcounts.depth.trans hopen
  have hk := hcounts.steps
  rw [hsteps, Nat.zero_add] at hk
  generalize (s.enterBatch.exec um body).1 = t at *
  rcases Store.leaveBatch_stack hlevel with hnone | ⟨s', hs', hsome⟩
  · rw [hnone, hwithin.stack] at hrec
    exact absurd hrec.symm (List.cons_ne_self _ _)
  · have hrec' := hrec
    rw [hsome, ← hwithin.stack, ← hs'] at hrec'
    obtain ⟨rfl, hnonempty⟩ := Store.recordAction_stack hrec'
    rw [List.append_nil] at hwithin
    refine ⟨ps, ⟨?_, hrec, hnonempty, ?_, ?_⟩, hk ▸ hle, hk ▸ hiff⟩
    · rw [Store.leaveBatch_depth, hlevel]
    · rw [Store.leaveBatch_core]
      exact hwithin.undo
    · rw [Store.leaveBatch_core]
      exact hwithin.trail

end Recorded

/-- What a plain action that was recorded leaves behind. -/
theorem act_recorded {s : Store β} {a : Action β} {e : UndoEntry}
    (hdepth : s.actionBatchDepth = 0) (hplain : a.Plain um s)
    (hrec : (s.act um a).undoStack = e :: s.undoStack) :
    ∃ ps, Recorded s (s.act um a) e ps ∧ ps.length ≤ e.steps ∧
      (ps.length = e.steps ↔ a.Writes um s) := by
  cases a with
  | mutate call => exact Recorded.mutate hdepth hrec
  | setItemNotes id text =>
    obtain ⟨h, hsteps⟩ := Recorded.setItemNotes hdepth hplain hrec
    exact ⟨[], h, Nat.zero_le _, by simp [hsteps, Action.Writes]⟩
  | batch body =>
    have hact : s.act um (.batch body) = (s.enterBatch.exec um body).1.leaveBatch := by
      dsimp only [Store.act, Store.exec, Store.andThen]
      split <;> rfl
    rw [hact] at hrec ⊢
    exact Recorded.batch hdepth hplain hrec

/-! ## Undo and redo -/

/-- A notes step that stands takes the item to its other side. -/
theorem Projection.retext_setNotes {d : Projection β} {side : NotesStep → List Char}
    {n : NotesStep} {ns : List NotesStep} (hd : (d.notes n.id).isSome)
    (hnew : n.id ∉ ns.map NotesStep.id) :
    (d.setNotes n.id (side n)).retext (textsOf side ns) = d.retext (textsOf side (n :: ns)) := by
  obtain ⟨text, htext⟩ := Option.isSome_iff_exists.1 hd
  ext id : 2
  · rfl
  · by_cases hid : id = n.id
    · subst hid
      simp [Projection.retext, Projection.setNotes, textsOf_eq_none hnew, textsOf_cons_self, htext]
    · simp only [Projection.retext, Projection.setNotes, Function.update_of_ne hid,
        textsOf_cons_ne side (Ne.symm hid)]

namespace Store

/-- Notes steps that stand, at different items, are all applied. -/
theorem applyNotesSteps_stands (old new : NotesStep → List Char) {ns : List NotesStep}
    (hdiffer : ∀ n ∈ ns, old n ≠ new n) (hnodup : (ns.map NotesStep.id).Nodup) {s : Store β}
    (hstands : ∀ n ∈ ns, s.core.doc.notes n.id = some (old n)) :
    (applyNotesSteps old new ns s).2 = ns ∧
      (applyNotesSteps old new ns s).1.core =
        { s.core with doc := s.core.doc.retext (textsOf new ns) } ∧
      (applyNotesSteps old new ns s).1.undoStack = s.undoStack ∧
      (applyNotesSteps old new ns s).1.redoStack = s.redoStack := by
  induction ns generalizing s with
  | nil => exact ⟨rfl, by rw [show textsOf new [] = fun _ => none from rfl,
      Projection.retext_none]; rfl, rfl, rfl⟩
  | cons n ns ih =>
    have hd := hstands n List.mem_cons_self
    have hne := hdiffer n List.mem_cons_self
    rw [List.map_cons, List.nodup_cons] at hnodup
    have hstep : s.applyNotesStep n.id (old n) (new n) =
        ((s.renoted n.id (new n)).drainEvents, true) := by
      obtain ⟨ops, hops, hnotes⟩ := engineNotes_eq hd hne
      unfold applyNotesStep
      rw [hops]
      dsimp only
      rw [hnotes]
    have hdrain : (s.renoted n.id (new n)).drainEvents.core = (s.renoted n.id (new n)).core ∧
        (s.renoted n.id (new n)).drainEvents.undoStack = s.undoStack ∧
        (s.renoted n.id (new n)).drainEvents.redoStack = s.redoStack := ⟨rfl, rfl, rfl⟩
    obtain ⟨hkept, hcore, hundo, hredo⟩ := ih (s := (s.renoted n.id (new n)).drainEvents)
      (fun m hm => hdiffer m (List.mem_cons_of_mem _ hm)) hnodup.2 (by
        intro m hm
        have hne' : m.id ≠ n.id := fun h => hnodup.1 (h ▸ List.mem_map_of_mem hm)
        rw [hdrain.1]
        show Function.update s.core.doc.notes n.id _ m.id = _
        rw [Function.update_of_ne hne']
        exact hstands m (List.mem_cons_of_mem _ hm))
    unfold applyNotesSteps
    dsimp only
    rw [hstep]
    dsimp only
    refine ⟨by rw [hkept, if_pos rfl], ?_, hundo.trans hdrain.2.1, hredo.trans hdrain.2.2⟩
    rw [hcore, hdrain.1]
    show Core.mk ((s.core.doc.setNotes n.id (new n)).retext _) _ _ = _
    rw [Projection.retext_setNotes (by rw [hd]; rfl) hnodup.1]
    rfl

end Store

namespace Core

/-- The steps of a way back are taken. -/
theorem undo_times {ps : List (UndoSpan β)} {x y : Projection β} (h : LeadsBack ps x y)
    (us rs : List (UndoSpan β)) :
    times undoOne ps.length ⟨x, ps ++ us, rs⟩ = (⟨y, us, ps.reverse ++ rs⟩, ps.length) := by
  induction ps generalizing x rs with
  | nil =>
    obtain rfl : x = y := h
    rfl
  | cons p ps ih =>
    have hone : undoOne ⟨x, p :: (ps ++ us), rs⟩ = some ⟨p.revert x, ps ++ us, p :: rs⟩ := rfl
    rw [List.length_cons, List.cons_append, times, hone]
    dsimp only
    rw [ih h.2, List.reverse_cons, List.append_assoc]
    rfl

/-- As many steps as there are, and then more. -/
theorem times_add (step : Core β → Option (Core β)) {m : ℕ} {c c' : Core β}
    (h : times step m c = (c', m)) (n : ℕ) :
    times step (m + n) c = ((times step n c').1, m + (times step n c').2) := by
  induction m generalizing c with
  | zero =>
    obtain ⟨rfl, -⟩ := Prod.mk.inj h
    simp
  | succ m ih =>
    rw [Nat.add_right_comm, times]
    rw [times] at h
    cases hstep : step c with
    | none =>
      rw [hstep] at h
      exact absurd (Prod.mk.inj h).2 (by simp)
    | some d =>
      rw [hstep] at h
      obtain ⟨h₁, h₂⟩ := Prod.mk.inj h
      have hd : times step m d = (c', m) := Prod.ext h₁ (Nat.succ.inj h₂)
      dsimp only
      rw [ih hd]
      dsimp only
      rw [Nat.add_right_comm]

/-- And they are put again, the last one first. -/
theorem redo_times {ps : List (UndoSpan β)} {x y : Projection β} (h : LeadsBack ps x y)
    (us rs : List (UndoSpan β)) :
    times redoOne ps.length ⟨y, us, ps.reverse ++ rs⟩ = (⟨x, ps ++ us, rs⟩, ps.length) := by
  induction ps generalizing x rs with
  | nil =>
    obtain rfl : x = y := h
    rfl
  | cons p ps ih =>
    rw [List.length_cons, List.reverse_cons, List.append_assoc, times_add _ (ih h.2 _) 1]
    show ((⟨p.reapply (p.revert x), p :: (ps ++ us), rs⟩ : Core β), _) = _
    rw [h.1]
    rfl

end Core

namespace Trail

variable {d₀ d : Projection β} {shown : String → Option (List Char)} {ps : List (UndoSpan β)}
  {ns : List NotesStep}

theorem textsOf_mem (h : Trail d₀ shown d ps ns) (side : NotesStep → List Char) {n : NotesStep}
    (hn : n ∈ ns) : textsOf side ns n.id = some (side n) := by
  have hnodup := h.nodup
  clear h
  induction ns with
  | nil => exact absurd hn List.not_mem_nil
  | cons m ns ih =>
    rw [List.map_cons, List.nodup_cons] at hnodup
    rcases List.mem_cons.1 hn with rfl | hn
    · exact textsOf_cons_self side n ns
    · have hne : m.id ≠ n.id := fun heq => hnodup.1 (heq ▸ List.mem_map_of_mem hn)
      rw [textsOf_cons_ne side hne]
      exact ih hn hnodup.2

/-- The notes before the batch, back where they were. -/
theorem stands_before (h : Trail d₀ shown d ps ns) :
    ∀ n ∈ ns, (d.retext (textsOf NotesStep.before ns)).notes n.id = some n.before := by
  intro n hn
  rw [Projection.retext]
  dsimp only
  rw [h.stands n hn, h.textsOf_mem NotesStep.before hn]
  rfl

/-- And the notes after it again. -/
theorem retext_after (h : Trail d₀ shown d ps ns) :
    (d.retext (textsOf NotesStep.before ns)).retext (textsOf NotesStep.after ns) = d := by
  ext id : 2
  · rfl
  · by_cases hid : id ∈ ns.map NotesStep.id
    · obtain ⟨n, hn, rfl⟩ := List.mem_map.1 hid
      have hbefore := h.stands_before n hn
      rw [Projection.retext]
      dsimp only
      rw [hbefore, h.textsOf_mem NotesStep.after hn, h.stands n hn]
      rfl
    · simp [Projection.retext, textsOf_eq_none hid, Function.comp_def]

end Trail

namespace Recorded

variable {s t : Store β} {e : UndoEntry} {ps : List (UndoSpan β)}

/-- What an undo leaves behind when the core has all the steps that were counted. -/
theorem undone (h : Recorded s t e ps) (hall : ps.length = e.steps) :
    t.undo.core = ⟨s.core.doc, s.core.undo, ps.reverse ++ t.core.redo⟩ ∧
      t.undo.undoStack = s.undoStack ∧ t.undo.redoStack = e :: t.redoStack := by
  obtain ⟨hkept, hcore, hundo, hredo⟩ :=
    Store.applyNotesSteps_stands NotesStep.after NotesStep.before
      (fun n hn => (h.trail.differ n hn).symm) h.trail.nodup
      (s := { t with undoStack := s.undoStack }) h.trail.stands
  have htimes := Core.undo_times h.trail.back s.core.undo t.core.redo
  rw [← h.undo, hall] at htimes
  unfold Store.undo
  rw [h.stack, Store.undoFrom]
  dsimp only at hcore hundo hredo ⊢
  simp only [Store.engineTimes, hkept, hcore, htimes]
  rw [if_neg fun hnothing => h.counts hnothing.1 hnothing.2]
  refine ⟨Store.flush_core _, ?_, ?_⟩
  · exact (Store.flush_undoStack _).trans hundo
  · show _ :: Store.redoStack (Store.flush _) = _
    rw [Store.flush_redoStack]
    exact congrArg (e :: ·) hredo

/-- What a redo then leaves behind. -/
theorem redone (h : Recorded s t e ps) (hall : ps.length = e.steps) :
    t.undo.redo.core.doc = t.core.doc := by
  obtain ⟨hcore, -, hredo⟩ := h.undone hall
  have htimes := Core.redo_times h.trail.back s.core.undo t.core.redo
  rw [hall] at htimes
  generalize t.undo = u at *
  have hstands : ∀ n ∈ e.notes, ({ u with
      core := ⟨t.core.doc.retext (textsOf NotesStep.before e.notes), ps ++ s.core.undo,
        t.core.redo⟩
      eventsQueued := u.eventsQueued || decide (0 < e.steps)
      redoStack := t.redoStack } : Store β).core.doc.notes n.id = some n.before :=
    h.trail.stands_before
  obtain ⟨hkept, hcore', -⟩ :=
    Store.applyNotesSteps_stands NotesStep.before NotesStep.after h.trail.differ h.trail.nodup
      hstands
  unfold Store.redo
  rw [hredo, Store.redoFrom]
  simp only [Store.engineTimes, hcore, htimes, hkept]
  rw [if_neg fun hnothing => h.counts hnothing.1 hnothing.2]
  show (Store.flush _).core.doc = _
  rw [Store.flush_core, hcore']
  exact h.trail.retext_after

end Recorded

/-! ## Faithful undo -/

/-- The recorded action is undone and redone exactly, and leaves what comes before it alone. -/
structure ActionFaithful (um : UndoManager β) (s : Store β) (a : Action β) (e : UndoEntry) :
    Prop where
  /-- The steps that were recorded are those that the core pushed. -/
  counted : (s.act um a).core.undo.length = s.core.undo.length + e.steps
  undone : (s.act um a).undo.core.doc = s.core.doc
  earlier : (s.act um a).undo.core.undo = s.core.undo ∧
    (s.act um a).undo.undoStack = s.undoStack
  redone : (s.act um a).undo.redo.core.doc = (s.act um a).core.doc

/-- An undo manager that puts the rest back and leaves the notes of the items that were there. -/
def UndoManager.restoring : UndoManager β where
  record a b :=
    { revert := fun x => ⟨a.rest, fun id => (a.notes id).bind fun _ => x.notes id⟩
      reapply := fun x => ⟨b.rest, fun id => (a.notes id).elim (b.notes id) fun _ => x.notes id⟩ }
  revert_record := by
    intro a b texts h ht
    ext id : 2
    · rfl
    · dsimp only [Projection.retext]
      cases ha : a.notes id with
      | none => rfl
      | some text => rw [Option.bind_some, h id text ha]
  reapply_record := by
    intro a b texts h ht
    ext id : 2
    · rfl
    · dsimp only [Projection.retext]
      cases ha : a.notes id with
      | none =>
        have hnone : texts id = none := by
          rw [← Option.not_isSome_iff_eq_none]
          intro hsome
          have hitem := ht id hsome
          rw [ha] at hitem
          exact Bool.false_ne_true hitem
        rw [Option.elim_none, hnone]
        simp
      | some text => rw [Option.elim_some, h id text ha]

/-- A mutation that writes. -/
def editTo (n : ℕ) : Call ℕ := fun d => .ok (some ⟨⟨n, d.notes⟩, fun _ _ h => h⟩) true

/-- A mutation that finds everything as it should be, such as a move to where the item is. -/
def moveInPlace : Call ℕ := fun _ => .ok none false

/-- A store after one edit. -/
def afterOneEdit : Store ℕ :=
  (Store.attach ⟨0, fun _ => none⟩).act .restoring (.mutate (editTo 1))

theorem afterOneEdit_reachable : (stores (.restoring (β := ℕ))).Reachable afterOneEdit :=
  .step (l := .act (.mutate (editTo 1))) (.init ⟨⟨0, fun _ => none⟩, rfl⟩) trivial rfl

end Monoplan.Web
