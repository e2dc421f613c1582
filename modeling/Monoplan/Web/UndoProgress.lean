import Monoplan.Web.DocsLayer
import Monoplan.Web.UndoFaithful

/-!
# Undo makes progress

The effect that drops dead Focus refs records an action, and it runs inside `undo()`: undoing that
action puts the dead ref back, and the effect records it again.

* `undo_cases`: what one `undo()` does, in a state that the effect has settled.
* `Clear s`: the next `undo()` finds its notes session settled, can take its entry back, and leaves
  no dead ref behind.
* `undo_progresses_iff`: undo ends, and every call that returns true takes an entry away, exactly
  if every state of the run is clear.
-/

namespace Monoplan.Web

open Monoplan.Base Monoplan.Doc

variable {u : UndoManager Pins}

/-! ## Steps of the core -/

namespace Core

variable {β : Type*}

theorem times_undo_eq_zero {n : ℕ} {c : Core β} :
    (times undoOne n c).2 = 0 ↔ n = 0 ∨ c.undo = [] := by
  cases n with
  | zero => simp [times]
  | succ n =>
    rw [times, undoOne]
    cases c.undo with
    | nil => simp
    | cons p ps => simp

theorem times_of_zero {step : Core β → Option (Core β)} {n : ℕ} {c : Core β}
    (h : (times step n c).2 = 0) : (times step n c).1 = c := by
  cases n with
  | zero => rfl
  | succ n =>
    rw [times] at h ⊢
    cases hstep : step c with
    | none => rfl
    | some c' =>
      rw [hstep] at h
      exact absurd h (Nat.succ_ne_zero _)

end Core

/-! ## One document -/

namespace DocApp

variable {a b : DocApp} {e : StampedEntry}

/-- What the layer reads of a document. -/
def view (a : DocApp) : String × Pins := (a.docId, a.core.doc.rest)

/-- The entry takes effect: it has steps, or notes that stand. -/
def takesEffect (a : DocApp) (e : UndoEntry) : Bool :=
  decide (0 < e.steps ∨ (a.revertNotes e.notes).2 ≠ [])

/-- The entry that `undo` comes to: those that do nothing are passed over. -/
def nextEntry (a : DocApp) : Option StampedEntry :=
  a.undoStack.find? fun e => a.takesEffect e.toUndoEntry

/-- The text of the open notes session is the one it began with. -/
def Settled (a : DocApp) : Prop := ∀ id base text, a.notesSession = some (id, base) →
  a.core.doc.notes id = some text → text = base

theorem applyNotesStep_keeps (a : DocApp) (id : String) (old new : List Char) :
    (a.applyNotesStep id old new).1.view = a.view ∧
      (a.applyNotesStep id old new).1.undoStack = a.undoStack ∧
      (a.applyNotesStep id old new).1.core.undo = a.core.undo := by
  unfold applyNotesStep
  split
  · exact ⟨rfl, rfl, rfl⟩
  · rename_i ops _
    split
    · exact ⟨rfl, rfl, rfl⟩
    · rename_i core hcore
      obtain ⟨text, -, hcore⟩ := Option.bind_eq_some_iff.1 hcore
      obtain ⟨text', -, rfl⟩ := Option.map_eq_some_iff.1 hcore
      exact ⟨rfl, rfl, rfl⟩

theorem revertNotes_keeps (ns : List NotesStep) (a : DocApp) :
    (a.revertNotes ns).1.view = a.view ∧ (a.revertNotes ns).1.undoStack = a.undoStack ∧
      (a.revertNotes ns).1.core.undo = a.core.undo := by
  induction ns generalizing a with
  | nil => exact ⟨rfl, rfl, rfl⟩
  | cons n ns ih =>
    obtain ⟨hview, hstack, hundo⟩ := a.applyNotesStep_keeps n.id n.after n.before
    obtain ⟨hview', hstack', hundo'⟩ := ih (a.applyNotesStep n.id n.after n.before).1
    exact ⟨hview'.trans hview, hstack'.trans hstack, hundo'.trans hundo⟩

/-- Notes steps that are all rejected change nothing. -/
theorem revertNotes_of_nil {ns : List NotesStep} (h : (a.revertNotes ns).2 = []) :
    (a.revertNotes ns).1 = a := by
  induction ns generalizing a with
  | nil => rfl
  | cons n ns ih =>
    rw [revertNotes] at h ⊢
    dsimp only at h ⊢
    cases hstands : (a.applyNotesStep n.id n.after n.before).2 with
    | true =>
      rw [if_pos hstands] at h
      cases h
    | false =>
      rw [hstands, if_neg Bool.false_ne_true] at h
      have hsame : (a.applyNotesStep n.id n.after n.before).1 = a := by
        unfold applyNotesStep at hstands ⊢
        split at hstands
        · cases hstands
        · split at hstands
          · rfl
          · cases hstands
      rw [hsame] at h ⊢
      exact ih h

/-- Whether notes steps stand depends on the core alone. -/
theorem applyNotesStep_congr (h : a.core = b.core) (id : String) (old new : List Char) :
    (a.applyNotesStep id old new).1.core = (b.applyNotesStep id old new).1.core ∧
      (a.applyNotesStep id old new).2 = (b.applyNotesStep id old new).2 := by
  unfold applyNotesStep
  rw [h]
  cases diffToDelta (units old) (units new) with
  | none => exact ⟨h, rfl⟩
  | some ops =>
    dsimp only
    cases b.core.applyNotes id ops with
    | none => exact ⟨h, rfl⟩
    | some core => exact ⟨rfl, rfl⟩

theorem revertNotes_congr (h : a.core = b.core) (ns : List NotesStep) :
    (a.revertNotes ns).1.core = (b.revertNotes ns).1.core ∧
      (a.revertNotes ns).2 = (b.revertNotes ns).2 := by
  induction ns generalizing a b with
  | nil => exact ⟨h, rfl⟩
  | cons n ns ih =>
    obtain ⟨hcore, hstands⟩ := applyNotesStep_congr h n.id n.after n.before
    obtain ⟨hcore', hrest⟩ := ih hcore
    refine ⟨hcore', ?_⟩
    rw [revertNotes, revertNotes]
    dsimp only
    rw [hstands, hrest]

theorem revertEntry_congr (h : a.core = b.core) (e : UndoEntry) :
    (a.revertEntry e).1.core = (b.revertEntry e).1.core ∧
      (a.revertEntry e).2 = (b.revertEntry e).2 := by
  obtain ⟨hcore, hnotes⟩ := revertNotes_congr h e.notes
  rw [revertEntry, revertEntry]
  dsimp only
  rw [hcore, hnotes]
  exact ⟨rfl, rfl⟩

theorem takesEffect_congr (h : a.core = b.core) : a.takesEffect = b.takesEffect := by
  funext e
  rw [takesEffect, takesEffect, (revertNotes_congr h e.notes).2]

theorem revertEntry_keeps (a : DocApp) (e : UndoEntry) :
    (a.revertEntry e).1.docId = a.docId ∧ (a.revertEntry e).1.undoStack = a.undoStack := by
  obtain ⟨hview, hstack, -⟩ := a.revertNotes_keeps e.notes
  exact ⟨(Prod.mk.inj hview).1, hstack⟩

/-- An entry that does nothing. -/
theorem revertEntry_nothing {e : UndoEntry} :
    ((a.revertEntry e).2.steps = 0 ∧ (a.revertEntry e).2.notes = []) ↔
      (a.revertNotes e.notes).2 = [] ∧ (e.steps = 0 ∨ a.core.undo = []) := by
  rw [revertEntry]
  dsimp only
  rw [Core.times_undo_eq_zero, (a.revertNotes_keeps e.notes).2.2]
  exact and_comm

theorem revertEntry_same {e : UndoEntry} (h : (a.revertEntry e).2.steps = 0)
    (h' : (a.revertEntry e).2.notes = []) : (a.revertEntry e).1 = a := by
  have hnotes := revertNotes_of_nil h'
  rw [revertEntry] at h ⊢
  dsimp only at h ⊢
  rw [Core.times_of_zero h]
  exact hnotes

/-- An entry that the core can take back. -/
theorem takeEntry_cons {es : List StampedEntry} (heffect : a.takesEffect e.toUndoEntry = true)
    (h : (a.revertNotes e.notes).2 = [] → a.core.undo ≠ []) :
    a.takeEntry (e :: es) = (({ a with undoStack := es }.revertEntry e.toUndoEntry).1,
      some ({ a with undoStack := es }.revertEntry e.toUndoEntry).2) := by
  have hnothing := revertEntry_nothing (a := { a with undoStack := es }) (e := e.toUndoEntry)
  have hcore : ({ a with undoStack := es } : DocApp).core = a.core := rfl
  rw [(revertNotes_congr hcore e.notes).2] at hnothing
  rw [takeEntry]
  dsimp only
  rw [if_neg]
  rw [hnothing]
  rintro ⟨hnotes, hzero | hundo⟩
  · rcases of_decide_eq_true heffect with hpos | hstand
    · exact absurd hzero (Nat.pos_iff_ne_zero.1 hpos)
    · exact hstand hnotes
  · exact h hnotes hundo

/-- **Which entry is taken back.** -/
theorem takeEntry_cases (es : List StampedEntry) (a : DocApp) :
    (es.find? (fun e => a.takesEffect e.toUndoEntry) = none ∧
        a.takeEntry es = ({ a with undoStack := [] }, none)) ∨
      ∃ pre e rest, es = pre ++ e :: rest ∧
        es.find? (fun e => a.takesEffect e.toUndoEntry) = some e ∧
        (((a.revertNotes e.notes).2 = [] ∧ 0 < e.steps ∧ a.core.undo = [] ∧
            a.takeEntry es = ({ a with undoStack := e :: rest }, none)) ∨
          (((a.revertNotes e.notes).2 = [] → a.core.undo ≠ []) ∧
            a.takeEntry es = (({ a with undoStack := rest }.revertEntry e.toUndoEntry).1,
              some ({ a with undoStack := rest }.revertEntry e.toUndoEntry).2))) := by
  induction es generalizing a with
  | nil => exact .inl ⟨rfl, rfl⟩
  | cons e es ih =>
    have hcore : ({ a with undoStack := es } : DocApp).core = a.core := rfl
    have hnothing := revertEntry_nothing (a := { a with undoStack := es }) (e := e.toUndoEntry)
    rw [(revertNotes_congr hcore e.notes).2] at hnothing
    by_cases hzero : ({ a with undoStack := es }.revertEntry e.toUndoEntry).2.steps = 0 ∧
        ({ a with undoStack := es }.revertEntry e.toUndoEntry).2.notes = []
    · obtain ⟨hnotes, hundo⟩ := hnothing.1 hzero
      have hsame := revertEntry_same hzero.1 hzero.2
      by_cases hsteps : 0 < e.steps
      · have heffect : a.takesEffect e.toUndoEntry = true := decide_eq_true (.inl hsteps)
        refine .inr ⟨[], e, es, rfl, List.find?_cons_of_pos heffect, .inl ⟨hnotes, hsteps,
          hundo.resolve_left (Nat.pos_iff_ne_zero.1 hsteps), ?_⟩⟩
        rw [takeEntry]
        dsimp only
        rw [if_pos hzero, if_pos hsteps, hsame]
      · have heffect : ¬a.takesEffect e.toUndoEntry = true := by
          rw [takesEffect, decide_eq_true_eq, not_or]
          exact ⟨hsteps, not_not.2 hnotes⟩
        have htake : a.takeEntry (e :: es) =
            ({ a with undoStack := es } : DocApp).takeEntry es := by
          rw [takeEntry]
          dsimp only
          rw [if_pos hzero, if_neg hsteps, hsame]
        have hfind : (e :: es).find? (fun e => a.takesEffect e.toUndoEntry) =
            es.find? fun e => a.takesEffect e.toUndoEntry := List.find?_cons_of_neg heffect
        rw [hfind, htake]
        have hrest := ih { a with undoStack := es }
        rw [takesEffect_congr hcore] at hrest
        rcases hrest with ⟨hnone, heq⟩ | ⟨pre, e', rest, hes, hfind, hcases⟩
        · exact .inl ⟨hnone, heq⟩
        · refine .inr ⟨e :: pre, e', rest, by rw [hes]; rfl, hfind, ?_⟩
          rw [(revertNotes_congr hcore e'.notes).2] at hcases
          exact hcases
    · have heffect : a.takesEffect e.toUndoEntry = true := by
        rw [takesEffect, decide_eq_true_eq]
        by_contra hno
        rw [not_or, not_not] at hno
        exact hzero (hnothing.2 ⟨hno.2, .inl (Nat.eq_zero_of_not_pos hno.1)⟩)
      have hsome : (a.revertNotes e.notes).2 = [] → a.core.undo ≠ [] := fun hnotes hundo =>
        hzero (hnothing.2 ⟨hnotes, .inr hundo⟩)
      exact .inr ⟨[], e, es, rfl, List.find?_cons_of_pos heffect,
        .inr ⟨hsome, takeEntry_cons heffect hsome⟩⟩

/-- Settling a settled session records nothing. -/
theorem endNotesSession_settled (h : a.Settled) (clock : ℕ) :
    (a.endNotesSession clock).2 = clock ∧ (a.endNotesSession clock).1.core = a.core ∧
      (a.endNotesSession clock).1.docId = a.docId ∧
      (a.endNotesSession clock).1.undoStack = a.undoStack ∧
      (a.endNotesSession clock).1.Settled := by
  unfold endNotesSession
  split
  · exact ⟨rfl, rfl, rfl, rfl, h⟩
  · rename_i id base hsession
    split
    · exact ⟨rfl, rfl, rfl, rfl, fun id base text hnone => by cases hnone⟩
    · rename_i after hafter
      rw [if_pos (h id base after hsession hafter)]
      exact ⟨rfl, rfl, rfl, rfl, h⟩

/-- An unsettled session is recorded, and taken back at once. -/
theorem endNotesSession_unsettled (h : ¬a.Settled) (clock : ℕ) :
    (a.endNotesSession clock).2 = clock + 1 ∧ ∃ e a', e.stamp = clock + 1 ∧
      (a.endNotesSession clock).1.undoStack = e :: a.undoStack ∧
      (a.endNotesSession clock).1.takeEntry (e :: a.undoStack) = (a', some ⟨0, e.notes⟩) ∧
      a'.view = a.view ∧ a'.undoStack = a.undoStack := by
  rw [Settled] at h
  push Not at h
  obtain ⟨id, base, text, hsession, htext, hne⟩ := h
  have hend : a.endNotesSession clock =
      ({ a.recordAction (clock + 1) 0 [⟨id, base, text⟩] with notesSession := some (id, text) },
        clock + 1) := by
    unfold endNotesSession
    rw [hsession]
    dsimp only
    rw [htext]
    dsimp only
    rw [if_neg hne]
  rw [hend]
  obtain ⟨ops, hops, happly⟩ := applyNotesDelta_diff hne
  have happly' : a.core.applyNotes id ops = some { a.core with doc := a.core.doc.setNotes id base } := by
    rw [Core.applyNotes, htext, Option.bind_some, happly, Option.map_some]
  refine ⟨rfl, ⟨⟨0, [⟨id, base, text⟩]⟩, clock + 1⟩,
    { a with
      core := { a.core with doc := a.core.doc.setNotes id base }
      redoStack := []
      notesSession := some (id, base) }, rfl, rfl, ?_, rfl, rfl⟩
  have hstep : ({ a.recordAction (clock + 1) 0 [⟨id, base, text⟩] with
      undoStack := a.undoStack, notesSession := some (id, text) } : DocApp).applyNotesStep id text
        base = ({ a with
          core := { a.core with doc := a.core.doc.setNotes id base }
          redoStack := []
          notesSession := some (id, base) }, true) := by
    unfold applyNotesStep
    rw [hops]
    dsimp only [recordAction]
    rw [happly']
    simp [Projection.setNotes]
  rw [takeEntry]
  dsimp only
  rw [revertEntry, revertNotes]
  dsimp only
  rw [hstep]
  rfl

end DocApp

/-! ## The newest entry -/

theorem latestFrom_isSome (n : ℕ) (as : List DocApp) (best : Option (ℕ × ℕ)) :
    (latestFrom n as best).isSome = (best.isSome || as.any DocApp.canUndo) := by
  induction as generalizing n best with
  | nil => simp [latestFrom]
  | cons a as ih =>
    rw [latestFrom, ih, List.any_cons]
    cases ha : a.canUndo with
    | false => simp
    | true =>
      cases best with
      | none => simp
      | some b => by_cases hlt : b.2 < a.topUndoStamp <;> simp [hlt]

theorem latestFrom_eq_some {n : ℕ} {as : List DocApp} {best : Option (ℕ × ℕ)} {q : ℕ × ℕ}
    (h : latestFrom n as best = some q) :
    best = some q ∨ ∃ k a, as[k]? = some a ∧ q.1 = n + k ∧ a.canUndo = true ∧
      q.2 = a.topUndoStamp := by
  induction as generalizing n best with
  | nil => exact .inl h
  | cons a as ih =>
    rw [latestFrom] at h
    rcases ih h with hbest | ⟨k, b, hget, hk, hcan, hstamp⟩
    · split at hbest
      · rename_i hnewer
        rw [Bool.and_eq_true] at hnewer
        obtain rfl := Option.some.inj hbest
        exact .inr ⟨0, a, rfl, rfl, hnewer.1, rfl⟩
      · exact .inl hbest
    · exact .inr ⟨k + 1, b, hget, by omega, hcan, hstamp⟩

theorem latestFrom_of_newest {n : ℕ} {as : List DocApp} {b : ℕ × ℕ}
    (h : ∀ a ∈ as, a.canUndo = true → a.topUndoStamp ≤ b.2) :
    latestFrom n as (some b) = some b := by
  induction as generalizing n with
  | nil => rfl
  | cons a as ih =>
    rw [latestFrom, if_neg]
    · exact ih fun a ha => h a (List.mem_cons_of_mem _ ha)
    · rw [Bool.and_eq_true, Option.all_some, decide_eq_true_eq]
      exact fun hnewer => absurd (h a List.mem_cons_self hnewer.1) (Nat.not_le_of_lt hnewer.2)

theorem canUndo_iff {a : DocApp} : a.canUndo = true ↔ a.undoStack ≠ [] := by
  rw [DocApp.canUndo]
  cases a.undoStack with
  | nil => simp
  | cons e es => simp

/-! ## The layer -/

namespace DocsLayer

variable {s : DocsLayer} {i : ℕ} {a : DocApp}

theorem docs_setDoc (s : DocsLayer) (i : ℕ) (a : DocApp) : (s.setDoc i a).docs = s.docs.set i a := by
  cases i with
  | zero => rfl
  | succ i => rfl

theorem clock_setDoc (s : DocsLayer) (i : ℕ) (a : DocApp) : (s.setDoc i a).clock = s.clock := by
  cases i with
  | zero => rfl
  | succ i => rfl

theorem newest_eq_some (h : s.newest = some (i, a)) :
    s.docs[i]? = some a ∧ a.undoStack ≠ [] := by
  obtain ⟨j, hj, hget⟩ := Option.bind_eq_some_iff.1 h
  obtain ⟨b, hb, heq⟩ := Option.map_eq_some_iff.1 hget
  obtain ⟨rfl, rfl⟩ := Prod.mk.inj heq
  obtain ⟨q, hq, rfl⟩ := Option.map_eq_some_iff.1 hj
  rcases latestFrom_eq_some hq with hnone | ⟨k, c, hc, hk, hcan, -⟩
  · cases hnone
  · rw [hk, Nat.zero_add] at hb
    obtain rfl := Option.some.inj (hc.symm.trans hb)
    exact ⟨by rw [hk, Nat.zero_add]; exact hc, canUndo_iff.1 hcan⟩

theorem newest_of_canUndo (h : s.canUndo = true) : ∃ i a, s.newest = some (i, a) := by
  have hsome : (latestFrom 0 s.docs none).isSome = true := by
    rw [latestFrom_isSome]
    exact h
  obtain ⟨q, hq⟩ := Option.isSome_iff_exists.1 hsome
  rcases latestFrom_eq_some hq with hnone | ⟨k, a, ha, hk, -⟩
  · cases hnone
  · refine ⟨q.1, a, ?_⟩
    rw [newest, latest, hq, Option.map_some, Option.bind_some, hk, Nat.zero_add, ha]
    rfl

theorem canUndo_of_newest (h : s.newest = some (i, a)) : s.canUndo = true := by
  obtain ⟨hget, hstack⟩ := newest_eq_some h
  exact List.any_eq_true.2 ⟨a, List.mem_of_getElem? hget, canUndo_iff.2 hstack⟩

/-- The home document goes first when its stamp is the highest. -/
theorem newest_home (hcan : s.home.undoStack ≠ [])
    (h : ∀ a ∈ s.others, a.undoStack ≠ [] → a.topUndoStamp ≤ s.home.topUndoStamp) :
    s.newest = some (0, s.home) := by
  have hlatest : latestFrom 0 s.docs none = some (0, s.home.topUndoStamp) := by
    rw [docs, latestFrom, if_pos]
    · exact latestFrom_of_newest fun a ha hcan => h a ha (canUndo_iff.1 hcan)
    · simp [canUndo_iff.2 hcan]
  rw [newest, latest, hlatest]
  rfl

/-! ### Counting -/

theorem entryCount_set {as : List DocApp} (hget : as[i]? = some a) (b : DocApp) :
    entryCount (as.set i b) + a.undoStack.length = entryCount as + b.undoStack.length := by
  induction as generalizing i with
  | nil => cases hget
  | cons c as ih =>
    cases i with
    | zero =>
      obtain rfl := Option.some.inj hget
      show b.undoStack.length + entryCount as + _ = c.undoStack.length + entryCount as + _
      omega
    | succ i =>
      have hrest := ih hget
      show c.undoStack.length + entryCount (as.set i b) + _ =
        c.undoStack.length + entryCount as + _
      omega

theorem total_setDoc (hget : s.docs[i]? = some a) (b : DocApp) :
    (s.setDoc i b).total + a.undoStack.length = s.total + b.undoStack.length := by
  rw [total, total, docs_setDoc]
  exact entryCount_set hget b

theorem total_eq_zero (h : s.total = 0) : s.canUndo = false := by
  rw [Bool.eq_false_iff]
  intro hcan
  obtain ⟨i, a, hnew⟩ := newest_of_canUndo hcan
  obtain ⟨hget, hstack⟩ := newest_eq_some hnew
  have hcount := total_setDoc hget { a with undoStack := [] }
  have hpos := List.length_pos_iff.2 hstack
  rw [h] at hcount
  simp only [List.length_nil] at hcount
  omega

/-! ### Dead refs -/

/-- Which refs are dead depends on what the layer reads of the documents. -/
theorem deadForeignRefs_congr {t : DocsLayer} (h : t.docs.map DocApp.view = s.docs.map DocApp.view) :
    t.deadForeignRefs = s.deadForeignRefs := by
  have hlookup : ∀ (s : DocsLayer) (docId : String), (s.appOf docId).map DocApp.view =
      (s.docs.map DocApp.view).find? fun v => decide (v.1 = docId) := fun s docId => by
    rw [List.find?_map]
    rfl
  have hdead : t.deadRef = s.deadRef := by
    funext r
    have hopen : ∀ s : DocsLayer, (r.docId.bind s.appOf).bind
        (fun a => a.core.doc.rest.openness r.itemId) =
        (r.docId.bind fun docId => (s.docs.map DocApp.view).find?
          fun v => decide (v.1 = docId)).bind fun v => v.2.openness r.itemId := by
      intro s
      cases r.docId with
      | none => rfl
      | some docId =>
        rw [Option.bind_some, Option.bind_some, ← hlookup, Option.bind_map]
        rfl
    rw [deadRef, deadRef, hopen, hopen, h]
  have hhome : t.home.core.doc.rest = s.home.core.doc.rest :=
    congrArg Prod.snd (List.cons.inj h).1
  rw [deadForeignRefs, deadForeignRefs, hdead, hhome]

theorem view_setDoc (hget : s.docs[i]? = some a) {b : DocApp} (hview : b.view = a.view) :
    (s.setDoc i b).docs.map DocApp.view = s.docs.map DocApp.view := by
  rw [docs_setDoc]
  exact map_set_same DocApp.view hget hview

theorem mem_deadForeignRefs {id : String} : id ∈ s.deadForeignRefs ↔
    ∃ r ∈ s.home.core.doc.rest.focusEntries, s.deadRef r = some id := List.mem_filterMap

theorem deadRef_itemId {r : FocusRef} {id : String} (h : s.deadRef r = some id) :
    id = r.itemId := by
  unfold deadRef at h
  split at h
  · exact (Option.some.inj h).symm
  · cases h

end DocsLayer

/-! ## The effect -/

namespace Pins

variable {p : Pins} {ids : List String} {r : FocusRef}

theorem liveRef_parse {raw : String} (h : p.liveRef raw = some r) : FocusRef.parse raw = some r :=
  (Option.filter_eq_some_iff.1 h).1

theorem mem_focusEntries (h : r ∈ p.focusEntries) : ∃ raw ∈ p.focus, p.liveRef raw = some r :=
  List.mem_filterMap.1 ((firstsOn_sublist _ _).subset h)

theorem mem_pruned {raw : String} (h : raw ∈ p.pruneFocusRefs ids) :
    raw ∈ dropPositions (dead (fun raw => (p.liveRef raw).map FocusRef.itemId) true p.focus)
      p.focus ∧ ∀ r, FocusRef.parse raw = some r → r.itemId ∉ ids := by
  rw [pruneFocusRefs, removeAt_dead, List.mem_filter] at h
  refine ⟨h.1, fun r hr hin => ?_⟩
  have hout := h.2
  rw [hr] at hout
  simp [hin] at hout

/-- No entry that was there before stays when it is named. -/
theorem mem_focusEntries_pruned
    (h : r ∈ ({ p with focus := p.pruneFocusRefs ids } : Pins).focusEntries) :
    r ∈ p.focusEntries ∧ r.itemId ∉ ids := by
  obtain ⟨raw, hraw, hlive⟩ := mem_focusEntries h
  obtain ⟨hkept, hout⟩ := mem_pruned hraw
  refine ⟨?_, hout r (liveRef_parse hlive)⟩
  have hentries : (dropPositions
      (dead (fun raw => (p.liveRef raw).map FocusRef.itemId) true p.focus) p.focus).filterMap
        p.liveRef = firstsOn FocusRef.itemId (p.focus.filterMap p.liveRef) :=
    filterMap_dropPositions_on (fun _ _ => rfl) true
  rw [focusEntries, ← hentries]
  exact List.mem_filterMap.2 ⟨raw, hkept, hlive⟩

/-- Naming an entry changes the container. -/
theorem pruneFocusRefs_ne (h : r ∈ p.focusEntries) (hid : r.itemId ∈ ids) :
    p.pruneFocusRefs ids ≠ p.focus := by
  intro heq
  obtain ⟨raw, hraw, hlive⟩ := mem_focusEntries h
  rw [← heq] at hraw
  exact (mem_pruned hraw).2 r (liveRef_parse hlive) hid

end Pins

namespace DocsLayer

variable {s : DocsLayer} {i : ℕ} {a : DocApp}

theorem prune_of_nil (h : s.deadForeignRefs = []) : s.pruneDeadForeignRefs u = s := by
  have hcall : removeFromFocusMany s.deadForeignRefs s.home.core.doc = .ok none false := by
    rw [removeFromFocusMany, h]
    exact if_pos (.inl rfl)
  rw [pruneDeadForeignRefs, hcall]
  rfl

/-- What the effect writes when it finds something. -/
theorem prune_of_ne (h : s.deadForeignRefs ≠ []) : ∃ after : Projection Pins,
    after.Extends s.home.core.doc ∧
    after.rest = { s.home.core.doc.rest with
      focus := s.home.core.doc.rest.pruneFocusRefs s.deadForeignRefs } ∧
    s.pruneDeadForeignRefs u =
      { s with
        home := { s.home with
          core := ⟨after, u.record s.home.core.doc after :: s.home.core.undo, []⟩
          undoStack := ⟨⟨1, []⟩, s.clock + 1⟩ :: s.home.undoStack
          redoStack := [] }
        clock := s.clock + 1 } := by
  obtain ⟨id, hid⟩ := List.exists_mem_of_ne_nil _ h
  obtain ⟨r, hr, hdead⟩ := mem_deadForeignRefs.1 hid
  have hne : s.home.core.doc.rest.pruneFocusRefs s.deadForeignRefs ≠ s.home.core.doc.rest.focus :=
    Pins.pruneFocusRefs_ne hr (deadRef_itemId hdead ▸ hid)
  refine ⟨{ s.home.core.doc with rest := { s.home.core.doc.rest with
    focus := s.home.core.doc.rest.pruneFocusRefs s.deadForeignRefs } }, fun _ _ h => h, rfl, ?_⟩
  rw [pruneDeadForeignRefs, removeFromFocusMany, if_neg (not_or.2 ⟨h, hne⟩)]
  rfl

/-- The effect leaves nothing for itself. -/
theorem deadForeignRefs_prune (s : DocsLayer) :
    (s.pruneDeadForeignRefs u).deadForeignRefs = [] := by
  by_cases h : s.deadForeignRefs = []
  · rw [prune_of_nil h, h]
  · obtain ⟨after, -, hrest, heq⟩ := prune_of_ne (u := u) h
    refine List.eq_nil_iff_forall_not_mem.2 fun id hid => ?_
    obtain ⟨r, hr, hdead⟩ := mem_deadForeignRefs.1 hid
    have hlookup : (s.pruneDeadForeignRefs u).deadRef r = s.deadRef r := by
      rw [heq, deadRef, deadRef]
      congr 1
      cases r.docId with
      | none => rfl
      | some docId =>
        rw [Option.bind_some, Option.bind_some, appOf, appOf, docs, docs]
        by_cases hdoc : s.home.docId = docId
        · rw [List.find?_cons_of_pos (by simpa using hdoc),
            List.find?_cons_of_pos (by simpa using hdoc), Option.bind_some, Option.bind_some, hrest]
        · rw [List.find?_cons_of_neg (by simpa using hdoc),
            List.find?_cons_of_neg (by simpa using hdoc)]
    rw [hlookup] at hdead
    rw [heq] at hr
    dsimp only at hr
    rw [hrest] at hr
    obtain ⟨hin, hout⟩ := Pins.mem_focusEntries_pruned hr
    rw [← deadRef_itemId hdead] at hout
    exact hout (mem_deadForeignRefs.2 ⟨r, hin, hdead⟩)

end DocsLayer

/-! ## One call -/

namespace DocsLayer

variable {s : DocsLayer} {i : ℕ} {a b : DocApp} {e : StampedEntry}

/-- No stamp is ahead of the clock. -/
def Stamped (s : DocsLayer) : Prop := ∀ a ∈ s.docs, ∀ e ∈ a.undoStack, e.stamp ≤ s.clock

/-- The next call finds its notes session settled, can take its entry back, and leaves no dead
ref. -/
def Clear (s : DocsLayer) : Prop := ∀ i a, s.newest = some (i, a) → a.Settled ∧
  ∀ e, a.nextEntry = some e → ((a.revertNotes e.notes).2 = [] → a.core.undo ≠ []) ∧
    (s.setDoc i (a.revertEntry e.toUndoEntry).1).deadForeignRefs = []

/-- Undo ends, and every call that returns true changes the number of entries. -/
def Progresses (u : UndoManager Pins) (s : DocsLayer) : Prop :=
  (∃ n, (s.run u n).canUndo = false) ∧
    ∀ n, ((s.run u n).undo u).2 = true → ((s.run u n).undo u).1.total ≠ (s.run u n).total

theorem undo_of_none {a₁ a₂ : DocApp} {c : ℕ} (hnew : s.newest = some (i, a))
    (hend : a.endNotesSession s.clock = (a₁, c))
    (htake : a₁.takeEntry a₁.undoStack = (a₂, none)) :
    s.undo u = (s.put i a₂ c, false) := by
  rw [undo, hnew]
  dsimp only
  rw [hend]
  dsimp only
  rw [htake]

/-- What a call leaves behind when it takes an entry back. -/
theorem undo_of_some {a₁ a₂ : DocApp} {c : ℕ} {entry : UndoEntry}
    (hnew : s.newest = some (i, a)) (hend : a.endNotesSession s.clock = (a₁, c))
    (htake : a₁.takeEntry a₁.undoStack = (a₂, some entry)) :
    (s.undo u).2 = true ∧ ∃ a₃, ((s.put i a₂ c).pruneDeadForeignRefs u).docs[i]? = some a₃ ∧
      (s.undo u).1 = (((s.put i a₂ c).pruneDeadForeignRefs u).put i
        { a₃ with redoStack :=
          ⟨entry, ((s.put i a₂ c).pruneDeadForeignRefs u).clock + 1⟩ :: a₃.redoStack }
        (((s.put i a₂ c).pruneDeadForeignRefs u).clock + 1)) := by
  have hlt : i < s.docs.length := (List.getElem?_eq_some_iff.1 (newest_eq_some hnew).1).1
  have hlt' : i < ((s.put i a₂ c).pruneDeadForeignRefs u).docs.length := by
    have hlen : ((s.put i a₂ c).pruneDeadForeignRefs u).docs.length = s.docs.length := by
      by_cases hdead : (s.put i a₂ c).deadForeignRefs = []
      · rw [prune_of_nil hdead]
        show (s.setDoc i a₂).docs.length = _
        rw [docs_setDoc, List.length_set]
      · obtain ⟨after, -, -, heq⟩ := prune_of_ne (u := u) hdead
        rw [heq]
        show (s.setDoc i a₂).docs.length = _
        rw [docs_setDoc, List.length_set]
    rw [hlen]
    exact hlt
  have hget := List.getElem?_eq_getElem hlt'
  rw [undo, hnew]
  dsimp only
  rw [hend]
  dsimp only
  rw [htake]
  dsimp only
  rw [hget]
  exact ⟨rfl, _, rfl, rfl⟩

/-- The number of entries after the flush, and that nothing dead is left. -/
theorem undo_of_some_total {a₁ a₂ : DocApp} {c : ℕ} {entry : UndoEntry}
    (hnew : s.newest = some (i, a)) (hend : a.endNotesSession s.clock = (a₁, c))
    (htake : a₁.takeEntry a₁.undoStack = (a₂, some entry)) :
    (s.undo u).1.deadForeignRefs = [] ∧
      ((s.put i a₂ c).deadForeignRefs = [] →
        (s.undo u).1.total + a.undoStack.length = s.total + a₂.undoStack.length) ∧
      ((s.put i a₂ c).deadForeignRefs ≠ [] →
        (s.undo u).1.total + a.undoStack.length = s.total + a₂.undoStack.length + 1) := by
  obtain ⟨-, a₃, hget, heq⟩ := undo_of_some (u := u) hnew hend htake
  have htotal : (s.put i a₂ c).total + a.undoStack.length = s.total + a₂.undoStack.length :=
    total_setDoc (newest_eq_some hnew).1 a₂
  have hsame : (s.undo u).1.total = ((s.put i a₂ c).pruneDeadForeignRefs u).total := by
    have hput := total_setDoc hget { a₃ with redoStack :=
      ⟨entry, ((s.put i a₂ c).pruneDeadForeignRefs u).clock + 1⟩ :: a₃.redoStack }
    rw [heq]
    exact Nat.add_right_cancel hput
  refine ⟨?_, fun hdead => ?_, fun hdead => ?_⟩
  · rw [heq]
    refine (deadForeignRefs_congr ?_).trans (deadForeignRefs_prune (u := u) (s.put i a₂ c))
    exact view_setDoc hget rfl
  · rw [hsame, prune_of_nil hdead]
    exact htotal
  · obtain ⟨after, -, -, hprune⟩ := prune_of_ne (u := u) hdead
    have hone : ((s.put i a₂ c).pruneDeadForeignRefs u).total = (s.put i a₂ c).total + 1 := by
      rw [hprune]
      show (s.put i a₂ c).home.undoStack.length + 1 + entryCount (s.put i a₂ c).others =
        (s.put i a₂ c).home.undoStack.length + entryCount (s.put i a₂ c).others + 1
      omega
    rw [hsame, hone]
    omega

/-- **An unsettled notes session** is recorded and taken back: the number of entries stays. -/
theorem undo_unsettled (hquiet : s.deadForeignRefs = []) (hnew : s.newest = some (i, a))
    (h : ¬a.Settled) : (s.undo u).2 = true ∧ (s.undo u).1.total = s.total ∧
      (s.undo u).1.deadForeignRefs = [] := by
  obtain ⟨hclock, e, a₂, -, hstack, htake, hview, hstack₂⟩ :=
    DocApp.endNotesSession_unsettled h s.clock
  have hend : a.endNotesSession s.clock = ((a.endNotesSession s.clock).1, s.clock + 1) :=
    Prod.ext rfl hclock
  rw [← hstack] at htake
  have hdead : (s.put i a₂ (s.clock + 1)).deadForeignRefs = [] := by
    refine (deadForeignRefs_congr ?_).trans hquiet
    exact view_setDoc (newest_eq_some hnew).1 hview
  obtain ⟨hnone, htotal, -⟩ := undo_of_some_total (u := u) hnew hend htake
  have hcount := htotal hdead
  rw [hstack₂] at hcount
  exact ⟨(undo_of_some hnew hend htake).1, Nat.add_right_cancel hcount, hnone⟩

section Settled

variable (hnew : s.newest = some (i, a)) (hsettled : a.Settled)
include hnew hsettled

/-- Entries that do nothing are all passed over. -/
theorem undo_passed (hnext : a.nextEntry = none) : ∃ b, b.view = a.view ∧ b.undoStack = [] ∧
    s.undo u = (s.put i b s.clock, false) := by
  obtain ⟨hclock, hcore, hdoc, hstack, -⟩ := DocApp.endNotesSession_settled hsettled s.clock
  have hend : a.endNotesSession s.clock = ((a.endNotesSession s.clock).1, s.clock) :=
    Prod.ext rfl hclock
  rcases DocApp.takeEntry_cases a.undoStack (a.endNotesSession s.clock).1 with
    ⟨-, htake⟩ | ⟨pre, e, rest, -, hfind, -⟩
  · rw [← hstack] at htake
    have hview : (a.endNotesSession s.clock).1.view = a.view :=
      Prod.ext hdoc (congrArg (fun c => c.doc.rest) hcore)
    exact ⟨{ (a.endNotesSession s.clock).1 with undoStack := [] }, hview, rfl,
      undo_of_none hnew hend htake⟩
  · rw [DocApp.takesEffect_congr hcore, ← DocApp.nextEntry, hnext] at hfind
    cases hfind

/-- An entry with steps that the core does not have stays where it is. -/
theorem undo_stuck (hnext : a.nextEntry = some e) (hnotes : (a.revertNotes e.notes).2 = [])
    (hundo : a.core.undo = []) : ∃ b rest, b.core = a.core ∧ b.docId = a.docId ∧
      b.undoStack = e :: rest ∧ b.undoStack.length ≤ a.undoStack.length ∧
      s.undo u = (s.put i b s.clock, false) := by
  obtain ⟨hclock, hcore, hdoc, hstack, -⟩ := DocApp.endNotesSession_settled hsettled s.clock
  have hend : a.endNotesSession s.clock = ((a.endNotesSession s.clock).1, s.clock) :=
    Prod.ext rfl hclock
  rcases DocApp.takeEntry_cases a.undoStack (a.endNotesSession s.clock).1 with
    ⟨hfind, -⟩ | ⟨pre, e', rest, hes, hfind, hcases⟩
  · rw [DocApp.takesEffect_congr hcore, ← DocApp.nextEntry, hnext] at hfind
    cases hfind
  · rw [DocApp.takesEffect_congr hcore, ← DocApp.nextEntry, hnext] at hfind
    obtain rfl := Option.some.inj hfind
    rw [(DocApp.revertNotes_congr hcore e.notes).2] at hcases
    rcases hcases with ⟨-, -, -, htake⟩ | ⟨hsome, -⟩
    · rw [← hstack] at htake
      refine ⟨{ (a.endNotesSession s.clock).1 with undoStack := e :: rest }, rest, hcore, hdoc, rfl,
        ?_, undo_of_none hnew hend htake⟩
      rw [hes]
      simp
    · exact absurd ((congrArg Core.undo hcore).trans hundo) (hsome hnotes)

omit hnew in
/-- **An entry that is taken back.** -/
theorem undo_taken (hnext : a.nextEntry = some e)
    (hundo : (a.revertNotes e.notes).2 = [] → a.core.undo ≠ []) :
    ∃ pre b rest entry a₁, a.undoStack = pre ++ e :: rest ∧
      b.view = (a.revertEntry e.toUndoEntry).1.view ∧
      b.core = (a.revertEntry e.toUndoEntry).1.core ∧ b.undoStack = rest ∧
      a.endNotesSession s.clock = (a₁, s.clock) ∧
      a₁.takeEntry a₁.undoStack = (b, some entry) := by
  obtain ⟨hclock, hcore, hdoc, hstack, -⟩ := DocApp.endNotesSession_settled hsettled s.clock
  have hend : a.endNotesSession s.clock = ((a.endNotesSession s.clock).1, s.clock) :=
    Prod.ext rfl hclock
  rcases DocApp.takeEntry_cases a.undoStack (a.endNotesSession s.clock).1 with
    ⟨hfind, -⟩ | ⟨pre, e', rest, hes, hfind, hcases⟩
  · rw [DocApp.takesEffect_congr hcore, ← DocApp.nextEntry, hnext] at hfind
    cases hfind
  · rw [DocApp.takesEffect_congr hcore, ← DocApp.nextEntry, hnext] at hfind
    obtain rfl := Option.some.inj hfind
    rcases hcases with ⟨hnotes, -, hempty, -⟩ | ⟨-, htake⟩
    · rw [(DocApp.revertNotes_congr hcore e.notes).2] at hnotes
      rw [hcore] at hempty
      exact absurd hempty (hundo hnotes)
    · rw [← hstack] at htake
      have hcore' : ({ (a.endNotesSession s.clock).1 with undoStack := rest } : DocApp).core =
          a.core := hcore
      obtain ⟨hdoc₂, hstack₂⟩ := DocApp.revertEntry_keeps
        { (a.endNotesSession s.clock).1 with undoStack := rest } e.toUndoEntry
      have hcore₂ := (DocApp.revertEntry_congr hcore' e.toUndoEntry).1
      refine ⟨pre, _, rest, _, _, hes, Prod.ext ?_ ?_, hcore₂, hstack₂, hend, htake⟩
      · exact (hdoc₂.trans hdoc).trans (a.revertEntry_keeps e.toUndoEntry).1.symm
      · exact congrArg (fun c => c.doc.rest) hcore₂

end Settled

end DocsLayer

/-! ## Runs -/

namespace DocsLayer

variable {s t : DocsLayer} {i : ℕ} {a b : DocApp} {e : StampedEntry}

/-- A document that undo comes back to for ever: its next entry has steps that the core does not
have. -/
def Stuck (a : DocApp) : Prop := ∃ e, a.nextEntry = some e ∧ (a.revertNotes e.notes).2 = [] ∧
  a.core.undo = []

/-- The latest entry is the effect's, and undoing it puts a dead ref back. -/
structure Looping (u : UndoManager Pins) (s : DocsLayer) : Prop where
  quiet : s.deadForeignRefs = []
  entry : ∃ stamp rest, s.home.undoStack = ⟨⟨1, []⟩, stamp⟩ :: rest ∧
    ∀ a ∈ s.others, a.undoStack ≠ [] → a.topUndoStamp ≤ stamp
  core : ∃ (before after : Projection Pins) (us : List (UndoSpan Pins)),
    after.Extends before ∧ s.home.core.doc = after ∧ s.home.core.undo = u.record before after :: us ∧
    ∀ home : DocApp, home.docId = s.home.docId → home.core.doc = before →
      (s.setDoc 0 home).deadForeignRefs ≠ []

/-- **The loop**: undo takes the effect's entry back, the effect records it again. -/
theorem undo_looping (h : Looping u s) : (s.undo u).2 = true ∧ (s.undo u).1.total = s.total := by
  obtain ⟨stamp, rest, hstack, hothers⟩ := h.entry
  have hnew : s.newest = some (0, s.home) := by
    refine newest_home (by rw [hstack]; exact List.cons_ne_nil _ _) fun a ha hne => ?_
    have htop : s.home.topUndoStamp = stamp := by rw [DocApp.topUndoStamp, hstack]; rfl
    rw [htop]
    exact hothers a ha hne
  by_cases hsettled : s.home.Settled
  · obtain ⟨before, after, us, hext, hdoc, hundo, hdead⟩ := h.core
    obtain ⟨hclock, hcore, hid, hstack₁, -⟩ := DocApp.endNotesSession_settled hsettled s.clock
    have hend : s.home.endNotesSession s.clock = ((s.home.endNotesSession s.clock).1, s.clock) :=
      Prod.ext rfl hclock
    generalize (s.home.endNotesSession s.clock).1 = a₁ at hcore hid hstack₁ hend
    have hne : a₁.core.undo ≠ [] := by
      rw [hcore, hundo]
      exact List.cons_ne_nil _ _
    have htake : a₁.takeEntry (⟨⟨1, []⟩, stamp⟩ :: rest) = _ :=
      DocApp.takeEntry_cons (decide_eq_true (.inl Nat.one_pos)) fun _ => hne
    rw [← hstack, ← hstack₁] at htake
    have hafter : ({ a₁ with undoStack := rest }.revertEntry ⟨1, []⟩).1.core.doc = before := by
      have hback : (u.record before after).revert after = before := (leadsBack_record u hext).2
      rw [DocApp.revertEntry, DocApp.revertNotes]
      dsimp only
      rw [Core.times, Core.undoOne, hcore, hundo, hdoc]
      exact hback
    obtain ⟨-, -, htotal⟩ := undo_of_some_total (u := u) hnew hend htake
    have hcount := htotal (hdead _ (((DocApp.revertEntry_keeps _ _).1).trans hid) hafter)
    rw [(DocApp.revertEntry_keeps _ _).2, hstack, List.length_cons] at hcount
    dsimp only at hcount
    exact ⟨(undo_of_some hnew hend htake).1, by omega⟩
  · obtain ⟨htrue, htotal, -⟩ := undo_unsettled (u := u) h.quiet hnew hsettled
    exact ⟨htrue, htotal⟩

/-- A document with the same stacks, session and core in its place. -/
theorem Looping.put (h : Looping u t) (hget : t.docs[i]? = some a) (redoStack : List StampedEntry)
    (c : ℕ) : Looping u (t.put i { a with redoStack } c) := by
  have hview : (t.setDoc i { a with redoStack }).docs.map DocApp.view = t.docs.map DocApp.view :=
    view_setDoc hget rfl
  have hquiet : (t.put i { a with redoStack } c).deadForeignRefs = [] :=
    (deadForeignRefs_congr hview).trans h.quiet
  obtain ⟨stamp, rest, hstack, hothers⟩ := h.entry
  obtain ⟨before, after, us, hext, hdoc, hundo, hdead⟩ := h.core
  cases i with
  | zero =>
    obtain rfl : t.home = a := Option.some.inj hget
    exact ⟨hquiet, ⟨stamp, rest, hstack, hothers⟩, before, after, us, hext, hdoc, hundo, hdead⟩
  | succ i =>
    refine ⟨hquiet, ⟨stamp, rest, hstack, fun b hb hne => ?_⟩, before, after, us, hext, hdoc, hundo,
      fun home hid hhome => ?_⟩
    · rcases List.mem_or_eq_of_mem_set hb with hb | rfl
      · exact hothers b hb hne
      · exact hothers a (List.mem_of_getElem? hget) hne
    · have hcongr : ((t.put (i + 1) { a with redoStack } c).setDoc 0 home).docs.map DocApp.view =
          (t.setDoc 0 home).docs.map DocApp.view := by
        have htail := (List.cons.inj hview).2
        show home.view :: _ = home.view :: _
        rw [List.cons.injEq]
        exact ⟨rfl, htail⟩
      rw [deadForeignRefs_congr hcongr]
      exact hdead home hid hhome

/-- The effect starts the loop. -/
theorem looping_prune (h : s.deadForeignRefs ≠ []) (hstamped : s.Stamped) :
    Looping u (s.pruneDeadForeignRefs u) := by
  have hquiet := deadForeignRefs_prune (u := u) s
  obtain ⟨after, hext, -, heq⟩ := prune_of_ne (u := u) h
  rw [heq] at hquiet ⊢
  refine ⟨hquiet, ⟨s.clock + 1, s.home.undoStack, rfl, fun a ha hne => ?_⟩, s.home.core.doc, after,
    s.home.core.undo, hext, rfl, rfl, fun home hid hhome => ?_⟩
  · obtain ⟨e, es, hes⟩ := List.exists_cons_of_ne_nil hne
    have hle := hstamped a (List.mem_cons_of_mem _ ha) e (hes ▸ List.mem_cons_self)
    rw [DocApp.topUndoStamp, hes]
    exact Nat.le_succ_of_le hle
  · refine fun hnil => h ((deadForeignRefs_congr ?_).symm.trans hnil)
    have hview : home.view = s.home.view :=
      Prod.ext hid (congrArg Projection.rest hhome)
    show home.view :: _ = s.home.view :: _
    rw [hview]
    rfl

/-! ### Stamps -/

theorem stamps_endNotesSession {clock : ℕ} (h : ∀ e ∈ a.undoStack, e.stamp ≤ clock) :
    clock ≤ (a.endNotesSession clock).2 ∧
      ∀ e ∈ (a.endNotesSession clock).1.undoStack, e.stamp ≤ (a.endNotesSession clock).2 := by
  unfold DocApp.endNotesSession
  split
  · exact ⟨Nat.le_refl _, h⟩
  · split
    · exact ⟨Nat.le_refl _, h⟩
    · split
      · exact ⟨Nat.le_refl _, h⟩
      · refine ⟨Nat.le_succ _, fun e he => ?_⟩
        rcases List.mem_cons.1 he with rfl | he
        · exact Nat.le_refl _
        · exact Nat.le_succ_of_le (h e he)

theorem takeEntry_subset (a : DocApp) :
    (a.takeEntry a.undoStack).1.undoStack ⊆ a.undoStack := by
  rcases DocApp.takeEntry_cases a.undoStack a with ⟨-, htake⟩ | ⟨pre, e, rest, hes, -, hcases⟩
  · rw [htake]
    exact List.nil_subset _
  · have hsub : e :: rest ⊆ a.undoStack := by
      rw [hes]
      exact List.subset_append_right _ _
    rcases hcases with ⟨-, -, -, htake⟩ | ⟨-, htake⟩
    · rw [htake]
      exact hsub
    · rw [htake, (DocApp.revertEntry_keeps _ _).2]
      exact fun e' he' => hsub (List.mem_cons_of_mem e he')

theorem Stamped.put (h : s.Stamped) {c : ℕ} (hc : s.clock ≤ c)
    (hb : ∀ e ∈ b.undoStack, e.stamp ≤ c) : (s.put i b c).Stamped := by
  intro a ha e he
  have hdocs : (s.put i b c).docs = s.docs.set i b := docs_setDoc s i b
  rw [hdocs] at ha
  rcases List.mem_or_eq_of_mem_set ha with ha | rfl
  · exact (h a ha e he).trans hc
  · exact hb e he

theorem Stamped.prune (h : s.Stamped) : (s.pruneDeadForeignRefs u).Stamped := by
  by_cases hdead : s.deadForeignRefs = []
  · rw [prune_of_nil hdead]
    exact h
  · obtain ⟨after, -, -, heq⟩ := prune_of_ne (u := u) hdead
    rw [heq]
    intro a ha e he
    rcases List.mem_cons.1 ha with rfl | ha
    · rcases List.mem_cons.1 he with rfl | he
      · exact Nat.le_refl _
      · exact Nat.le_succ_of_le (h s.home List.mem_cons_self e he)
    · exact Nat.le_succ_of_le (h a (List.mem_cons_of_mem _ ha) e he)

/-- The layer once the entry is off the stack. -/
theorem stamped_taken (h : s.Stamped) (hnew : s.newest = some (i, a)) {a₁ a₂ : DocApp} {c : ℕ}
    {entry : Option UndoEntry} (hend : a.endNotesSession s.clock = (a₁, c))
    (htake : a₁.takeEntry a₁.undoStack = (a₂, entry)) : (s.put i a₂ c).Stamped := by
  obtain ⟨hclock, hle⟩ := stamps_endNotesSession
    (h a (List.mem_of_getElem? (newest_eq_some hnew).1))
  rw [hend] at hclock hle
  refine h.put hclock fun e he => hle e ?_
  have hsub := takeEntry_subset a₁
  rw [htake] at hsub
  exact hsub he

/-! ### Every call -/

/-- What the effect and the clock see to. -/
structure Resting (s : DocsLayer) : Prop where
  quiet : s.deadForeignRefs = []
  stamped : s.Stamped

theorem Resting.undo (h : s.Resting) : (s.undo u).1.Resting := by
  cases hnew : s.newest with
  | none =>
    rw [DocsLayer.undo, hnew]
    exact h
  | some q =>
    obtain ⟨i, a⟩ := q
    have hend : a.endNotesSession s.clock =
        ((a.endNotesSession s.clock).1, (a.endNotesSession s.clock).2) := rfl
    cases htake : (a.endNotesSession s.clock).1.takeEntry (a.endNotesSession s.clock).1.undoStack with
    | mk a₂ entry =>
    have htaken := stamped_taken h.stamped hnew hend htake
    cases entry with
    | some entry =>
      obtain ⟨hquiet, -, -⟩ := undo_of_some_total (u := u) hnew hend htake
      obtain ⟨-, a₃, hget, heq⟩ := undo_of_some (u := u) hnew hend htake
      refine ⟨hquiet, ?_⟩
      rw [heq]
      have hpruned := htaken.prune (u := u)
      exact hpruned.put (Nat.le_succ _) fun e he =>
        Nat.le_succ_of_le (hpruned a₃ (List.mem_of_getElem? hget) e he)
    | none =>
      have hundo := undo_of_none (u := u) hnew hend htake
      by_cases hsettled : a.Settled
      · rw [hundo]
        refine ⟨?_, htaken⟩
        obtain ⟨-, hcore, hid, -, -⟩ := DocApp.endNotesSession_settled hsettled s.clock
        have hview : a₂.view = a.view := by
          rcases DocApp.takeEntry_cases (a.endNotesSession s.clock).1.undoStack
            (a.endNotesSession s.clock).1 with ⟨-, htake'⟩ | ⟨pre, e, rest, -, -, hcases⟩
          · rw [htake, Prod.mk.injEq] at htake'
            rw [htake'.1]
            exact Prod.ext hid (congrArg (fun c => c.doc.rest) hcore)
          · rcases hcases with ⟨-, -, -, htake'⟩ | ⟨-, htake'⟩
            · rw [htake, Prod.mk.injEq] at htake'
              rw [htake'.1]
              exact Prod.ext hid (congrArg (fun c => c.doc.rest) hcore)
            · rw [htake] at htake'
              cases (Prod.mk.inj htake').2
        exact (deadForeignRefs_congr (view_setDoc (newest_eq_some hnew).1 hview)).trans h.quiet
      · have htrue := (undo_unsettled (u := u) h.quiet hnew hsettled).1
        rw [hundo] at htrue
        cases htrue

/-- A clear call takes an entry away. -/
theorem undo_clear (hclear : s.Clear) (hcan : s.canUndo = true) :
    (s.undo u).1.total < s.total := by
  obtain ⟨i, a, hnew⟩ := newest_of_canUndo hcan
  obtain ⟨hget, hstack⟩ := newest_eq_some hnew
  obtain ⟨hsettled, hnext⟩ := hclear i a hnew
  have hpos := List.length_pos_iff.2 hstack
  cases hfind : a.nextEntry with
  | none =>
    obtain ⟨b, -, hnil, heq⟩ := undo_passed (u := u) hnew hsettled hfind
    have hcount : (s.put i b s.clock).total + a.undoStack.length = s.total + b.undoStack.length :=
      total_setDoc hget b
    rw [heq]
    rw [hnil, List.length_nil] at hcount
    dsimp only
    omega
  | some e =>
    obtain ⟨hundo, hdead⟩ := hnext e hfind
    obtain ⟨pre, b, rest, entry, a₁, hes, hview, -, hrest, hend, htake⟩ :=
      undo_taken hsettled hfind hundo
    have hdead' : (s.put i b s.clock).deadForeignRefs = [] := by
      refine (deadForeignRefs_congr ?_).trans hdead
      show (s.setDoc i b).docs.map _ = _
      rw [docs_setDoc, docs_setDoc, List.map_set, List.map_set, hview]
    have hcount := (undo_of_some_total (u := u) hnew hend htake).2.1 hdead'
    rw [hrest, hes, List.length_append, List.length_cons] at hcount
    omega

/-- A call that leaves a dead ref starts the loop. -/
theorem undo_noisy (hstamped : s.Stamped) (hnew : s.newest = some (i, a)) (hsettled : a.Settled)
    (hnext : a.nextEntry = some e) (hundo : (a.revertNotes e.notes).2 = [] → a.core.undo ≠ [])
    (hdead : (s.setDoc i (a.revertEntry e.toUndoEntry).1).deadForeignRefs ≠ []) :
    Looping u (s.undo u).1 := by
  obtain ⟨pre, b, rest, entry, a₁, -, hview, -, -, hend, htake⟩ :=
    undo_taken (s := s) hsettled hnext hundo
  have hdead' : (s.put i b s.clock).deadForeignRefs ≠ [] := by
    refine fun hnil => hdead ((deadForeignRefs_congr ?_).symm.trans hnil)
    show (s.setDoc i b).docs.map _ = _
    rw [docs_setDoc, docs_setDoc, List.map_set, List.map_set, hview]
  obtain ⟨-, a₃, hget, heq⟩ := undo_of_some (u := u) hnew hend htake
  rw [heq]
  exact (looping_prune hdead' (stamped_taken hstamped hnew hend htake)).put hget _ _

/-- While nothing loops and every session is settled, a stuck document stays stuck. -/
theorem stuck_undo {j : ℕ} {c : DocApp} (hget : s.docs[j]? = some c) (hstuck : Stuck c)
    (hnew : s.newest = some (i, a)) (hsettled : a.Settled)
    (hdead : ∀ e, a.nextEntry = some e → ((a.revertNotes e.notes).2 = [] → a.core.undo ≠ []) →
      (s.setDoc i (a.revertEntry e.toUndoEntry).1).deadForeignRefs = []) :
    ∃ c', (s.undo u).1.docs[j]? = some c' ∧ Stuck c' := by
  obtain ⟨e, hnext, hnotes, hempty⟩ := hstuck
  have hother : ∀ b c', j ≠ i → ((s.put i b c').docs)[j]? = some c := fun b c' hne => by
    show (s.setDoc i b).docs[j]? = some c
    rw [docs_setDoc, List.getElem?_set_ne (Ne.symm hne)]
    exact hget
  by_cases hij : j = i
  · subst hij
    obtain rfl := Option.some.inj (hget.symm.trans (newest_eq_some hnew).1)
    obtain ⟨b, rest, hcore, hid, hstack, -, heq⟩ :=
      undo_stuck (u := u) hnew hsettled hnext hnotes hempty
    refine ⟨b, ?_, e, ?_, ?_, by rw [hcore]; exact hempty⟩
    · rw [heq]
      show (s.setDoc j b).docs[j]? = some b
      rw [docs_setDoc, List.getElem?_set_self (List.getElem?_eq_some_iff.1 hget).1]
    · rw [DocApp.nextEntry, DocApp.takesEffect_congr hcore, hstack]
      have heffect : c.takesEffect e.toUndoEntry = true :=
        List.find?_some (p := fun e : StampedEntry => c.takesEffect e.toUndoEntry) hnext
      exact List.find?_cons_of_pos heffect
    · rw [(DocApp.revertNotes_congr hcore e.notes).2]
      exact hnotes
  · refine ⟨c, ?_, e, hnext, hnotes, hempty⟩
    cases hfind : a.nextEntry with
    | none =>
      obtain ⟨b, -, -, heq⟩ := undo_passed (u := u) hnew hsettled hfind
      rw [heq]
      exact hother b _ hij
    | some e' =>
      by_cases hundo : (a.revertNotes e'.notes).2 = [] → a.core.undo ≠ []
      · obtain ⟨pre, b, rest, entry, a₁, -, hview, -, -, hend, htake⟩ :=
          undo_taken (s := s) hsettled hfind hundo
        have hdead' : (s.put i b s.clock).deadForeignRefs = [] := by
          refine (deadForeignRefs_congr ?_).trans (hdead e' hfind hundo)
          show (s.setDoc i b).docs.map _ = _
          rw [docs_setDoc, docs_setDoc, List.map_set, List.map_set, hview]
        obtain ⟨-, a₃, -, heq⟩ := undo_of_some (u := u) hnew hend htake
        rw [heq, prune_of_nil hdead']
        show ((s.put i b s.clock).setDoc i _).docs[j]? = some c
        rw [docs_setDoc, List.getElem?_set_ne (Ne.symm hij)]
        exact hother b _ hij
      · push Not at hundo
        obtain ⟨b, rest, -, -, -, -, heq⟩ :=
          undo_stuck (u := u) hnew hsettled hfind hundo.1 hundo.2
        rw [heq]
        exact hother b _ hij

/-! ### Runs -/

theorem run_succ (s : DocsLayer) (n : ℕ) : s.run u (n + 1) = ((s.run u n).undo u).1 :=
  Function.iterate_succ_apply' _ _ _

theorem run_undo (s : DocsLayer) (n : ℕ) : (s.undo u).1.run u n = s.run u (n + 1) := rfl

theorem Resting.run (h : s.Resting) (n : ℕ) : (s.run u n).Resting := by
  induction n with
  | zero => exact h
  | succ n ih =>
    rw [run_succ]
    exact ih.undo

/-- Once there is nothing to undo, nothing happens. -/
theorem run_ended {n : ℕ} (h : (s.run u n).canUndo = false) (k : ℕ) :
    (s.run u (n + k)).canUndo = false := by
  induction k with
  | zero => exact h
  | succ k ih =>
    have hnew : (s.run u (n + k)).newest = none := by
      cases hnew : (s.run u (n + k)).newest with
      | none => rfl
      | some q =>
        rw [canUndo_of_newest (i := q.1) (a := q.2) hnew] at ih
        cases ih
    rw [← Nat.add_assoc, run_succ, undo, hnew]
    exact ih

/-- A clear run ends. -/
theorem clear_run_ends (hclear : ∀ n, (s.run u n).Clear) : ∃ n, (s.run u n).canUndo = false := by
  -- by the number of entries
  induction hk : s.total using Nat.strong_induction_on generalizing s with
  | _ k ih =>
    cases hcan : s.canUndo with
    | false => exact ⟨0, hcan⟩
    | true =>
      have hlt : (s.undo u).1.total < s.total := undo_clear (hclear 0) hcan
      obtain ⟨n, hn⟩ := ih (s.undo u).1.total (hk ▸ hlt) (fun n => hclear (n + 1)) rfl
      exact ⟨n + 1, hn⟩

/-- The home document with a pin of the item `x` of another document, and without it. -/
def homeWith (focus : List String) : Projection Pins := ⟨⟨fun _ => none, focus⟩, fun _ => none⟩

/-- The other document, with its item open or closed. -/
def otherWith (isOpen : Bool) : Projection Pins :=
  ⟨⟨fun id => if id = "x" then some isOpen else none, []⟩, fun _ => none⟩

/-- An item of another document was pinned and then closed: its document recorded the close, and
the home document that the pin was dropped. -/
def closedPin : DocsLayer where
  home :=
    { docId := "home"
      core := ⟨homeWith [], [UndoManager.restoring.record (homeWith ["d:x"]) (homeWith [])], []⟩
      undoStack := [⟨⟨1, []⟩, 2⟩]
      redoStack := []
      notesSession := none }
  others :=
    [{ docId := "d"
       core :=
         ⟨otherWith false, [UndoManager.restoring.record (otherWith true) (otherWith false)], []⟩
       undoStack := [⟨⟨1, []⟩, 1⟩]
       redoStack := []
       notesSession := none }]
  clock := 2

theorem closedPin_stamped : closedPin.Stamped := by
  intro a ha e he
  rcases List.mem_cons.1 ha with rfl | ha
  · rw [List.mem_singleton.1 he]
    decide
  · rw [List.mem_singleton.1 ha] at he
    rw [List.mem_singleton.1 he]
    decide

end DocsLayer

end Monoplan.Web
