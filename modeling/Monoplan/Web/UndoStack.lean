import Monoplan.Base.Machine
import Monoplan.Web.NotesDiff

/-!
# The web store's undo stack

The store counts the undo steps of a user's action on its side, and the core document pushes
undo steps on its own.

* `UndoManager` is the core's undo manager: what a local commit records can be taken back and
  put again, whatever was written to the notes in between.
* `Store` and its functions are the store's: `mutate`, `withActionBatch`, `setItemNotes`,
  `hardDelete`, `undoStep` and `redoStep`.
* `Script` is the code that runs inside a batch: calls, nested batches, errors that are thrown
  and caught.
-/

namespace Monoplan.Web

open Monoplan.Base Monoplan.Doc

variable {β : Type*}

/-! ## The document -/

/-- A document: the notes of the items that are there, and everything else. -/
@[ext] structure Projection (β : Type*) where
  rest : β
  notes : String → Option (List Char)

namespace Projection

/-- Write an item's notes. -/
def setNotes (d : Projection β) (id : String) (text : List Char) : Projection β :=
  { d with notes := Function.update d.notes id (some text) }

/-- Other notes for items that are there. -/
def retext (d : Projection β) (texts : String → Option (List Char)) : Projection β :=
  { d with notes := fun id => (d.notes id).map fun text => (texts id).getD text }

/-- No item is gone, and none has other notes. -/
def Extends (d' d : Projection β) : Prop := ∀ id text, d.notes id = some text →
  d'.notes id = some text

end Projection

/-- What the undo manager keeps of one commit. -/
structure UndoSpan (β : Type*) where
  revert : Projection β → Projection β
  reapply : Projection β → Projection β

/-- The undo manager.  What it records of a commit from `a` to `b` takes `b` back to `a` and
`a` on to `b`, and leaves the notes that were written to `a`'s items since. -/
structure UndoManager (β : Type*) where
  record : Projection β → Projection β → UndoSpan β
  revert_record {a b : Projection β} {texts : String → Option (List Char)} (h : b.Extends a)
    (ht : ∀ id, (texts id).isSome → (a.notes id).isSome) :
    (record a b).revert (b.retext texts) = a.retext texts
  reapply_record {a b : Projection β} {texts : String → Option (List Char)} (h : b.Extends a)
    (ht : ∀ id, (texts id).isSome → (a.notes id).isSome) :
    (record a b).reapply (a.retext texts) = b.retext texts

/-- The core document with the two stacks of its undo manager, the latest step first. -/
structure Core (β : Type*) where
  doc : Projection β
  undo : List (UndoSpan β)
  redo : List (UndoSpan β)

/-- What a mutation writes in its commit.  Notes are only written by `apply_notes_delta`. -/
structure Written (d : Projection β) where
  after : Projection β
  extends_ : after.Extends d

/-- How a mutation of the core ends: it may write nothing, and it may fail before or after its
commit. -/
inductive Outcome (d : Projection β)
  | ok (written : Option (Written d)) (events : Bool)
  | error (written : Option (Written d))

namespace Outcome

variable {d : Projection β}

def written : Outcome d → Option (Written d)
  | ok w _ => w
  | error w => w

def events : Outcome d → Bool
  | ok _ ev => ev
  | error _ => false

/-- The call throws. -/
def throws : Outcome d → Bool
  | ok _ _ => false
  | error _ => true

end Outcome

/-- A mutation of the core. -/
abbrev Call (β : Type*) := (d : Projection β) → Outcome d

/-- How a hard delete ends. -/
inductive PurgeOutcome (β : Type*)
  | error
  | nothing
  | purged (after : Projection β)

namespace Core

/-- A local commit is a step of its own; nothing can be redone after it. -/
def commit (um : UndoManager β) (c : Core β) (w : Option (Written c.doc)) : Core β :=
  match w with
  | none => c
  | some w => ⟨w.after, um.record c.doc w.after :: c.undo, []⟩

/-- A hard delete rearms the undo manager. -/
def purge (after : Projection β) : Core β := ⟨after, [], []⟩

/-- `undo`; `none` when there is no step. -/
def undoOne (c : Core β) : Option (Core β) :=
  match c.undo with
  | [] => none
  | p :: ps => some ⟨p.revert c.doc, ps, p :: c.redo⟩

/-- `redo`. -/
def redoOne (c : Core β) : Option (Core β) :=
  match c.redo with
  | [] => none
  | p :: ps => some ⟨p.reapply c.doc, p :: c.undo, ps⟩

/-- Take a step up to so many times, and count how often it was there to take. -/
def times (step : Core β → Option (Core β)) : ℕ → Core β → Core β × ℕ
  | 0, c => (c, 0)
  | n + 1, c =>
    match step c with
    | none => (c, 0)
    | some c' => ((times step n c').1, (times step n c').2 + 1)

end Core

/-! ## The store -/

/-- `NotesStep`. -/
structure NotesStep where
  id : String
  before : List Char
  after : List Char
  deriving DecidableEq

/-- `UndoEntry`. -/
structure UndoEntry where
  steps : ℕ
  notes : List NotesStep
  deriving DecidableEq

/-- The store of one document, with the core it drives. -/
structure Store (β : Type*) where
  core : Core β
  /-- Events the store has not drained. -/
  eventsQueued : Bool
  /-- The notes in the store's state, as of the last drain. -/
  shown : String → Option (List Char)
  version : ℕ
  undoStack : List UndoEntry
  redoStack : List UndoEntry
  actionBatchDepth : ℕ
  flushDeferred : Bool
  actionBatchStartVersion : ℕ
  pendingActionSteps : ℕ
  pendingBatchNotes : List NotesStep

namespace Store

/-- A store that has just attached to a document. -/
def attach (doc : Projection β) : Store β where
  core := ⟨doc, [], []⟩
  eventsQueued := false
  shown := doc.notes
  version := 0
  undoStack := []
  redoStack := []
  actionBatchDepth := 0
  flushDeferred := false
  actionBatchStartVersion := 0
  pendingActionSteps := 0
  pendingBatchNotes := []

/-- `drainEvents`. -/
def drainEvents (s : Store β) : Store β :=
  if s.eventsQueued then
    { s with eventsQueued := false, shown := s.core.doc.notes, version := s.version + 1 }
  else s

/-- `flush`: put off inside a batch. -/
def flush (s : Store β) : Store β :=
  if 0 < s.actionBatchDepth then { s with flushDeferred := true } else s.drainEvents

/-- `recordAction`. -/
def recordAction (s : Store β) (steps : ℕ) (notes : List NotesStep) : Store β :=
  if steps = 0 ∧ notes = [] then s
  else { s with undoStack := ⟨steps, notes⟩ :: s.undoStack, redoStack := [] }

/-- `forgetUndoHistory`. -/
def forgetUndoHistory (s : Store β) : Store β :=
  let s := { s with undoStack := [], redoStack := [] }
  if 0 < s.actionBatchDepth then
    { s with
      pendingActionSteps := 0
      pendingBatchNotes := []
      actionBatchStartVersion := s.version }
  else s

/-- Run a mutation of the core. -/
def engineCall (um : UndoManager β) (s : Store β) (call : Call β) : Store β :=
  { s with
    core := s.core.commit um (call s.core.doc).written
    eventsQueued := s.eventsQueued || (call s.core.doc).events }

/-- `engine.applyNotesDelta`: outside the undo manager; `none` throws. -/
def engineNotes (s : Store β) (id : String) (ops : List (DeltaOp UInt16)) : Option (Store β) :=
  (s.core.doc.notes id).bind fun text =>
    (applyNotesDelta text (ops.map (DeltaOp.decoded fromUtf16Lossy))).map fun text' =>
      { s with
        core := { s.core with doc := s.core.doc.setNotes id text' }
        eventsQueued := s.eventsQueued || decide (text' ≠ text) }

/-- `mutate`, with whether it throws.  No caller assumes another number of steps than one. -/
def mutate (um : UndoManager β) (s : Store β) (call : Call β) : Store β × Bool :=
  if 0 < s.actionBatchDepth then
    let s := { s with pendingActionSteps := s.pendingActionSteps + 1 }
    if (call s.core.doc).throws then (s.engineCall um call, true)
    else ((s.engineCall um call).flush, false)
  else if (call s.core.doc).throws then (s.engineCall um call, true)
  else
    let s' := (s.engineCall um call).flush
    (if s'.version ≠ s.version then s'.recordAction 1 [] else s', false)

/-- `setItemNotes`, with whether it throws. -/
def setItemNotes (s : Store β) (id : String) (notes : List Char) : Store β × Bool :=
  let before := (s.shown id).getD []
  match diffToDelta (units before) (units notes) with
  | none => (s, false)
  | some ops =>
    match s.engineNotes id ops with
    | none => (s, true)
    | some s =>
      let s := s.flush
      let step : NotesStep := ⟨id, before, notes⟩
      (if 0 < s.actionBatchDepth then
        { s with pendingBatchNotes := s.pendingBatchNotes ++ [step] }
      else s.recordAction 0 [step], false)

/-- `hardDelete`, with whether it throws. -/
def hardDelete (s : Store β) (purge : Projection β → PurgeOutcome β) : Store β × Bool :=
  match purge s.core.doc with
  | .error => (s, true)
  | .nothing => (s.flush, false)
  | .purged after =>
    let s' := { s with core := Core.purge after, eventsQueued := true }.flush
    (if s'.version ≠ s.version then s'.forgetUndoHistory else s', false)

/-- The beginning of `withActionBatch`. -/
def enterBatch (s : Store β) : Store β :=
  if s.actionBatchDepth = 0 then
    { s with
      actionBatchDepth := 1
      actionBatchStartVersion := s.version
      pendingActionSteps := 0
      pendingBatchNotes := [] }
  else { s with actionBatchDepth := s.actionBatchDepth + 1 }

/-- The end of `withActionBatch`, also when its body has thrown. -/
def leaveBatch (s : Store β) : Store β :=
  let s := { s with actionBatchDepth := s.actionBatchDepth - 1 }
  if s.actionBatchDepth = 0 then
    let s := if s.flushDeferred then { s with flushDeferred := false }.flush else s
    let s := if s.version ≠ s.actionBatchStartVersion then
      s.recordAction s.pendingActionSteps s.pendingBatchNotes else s
    { s with pendingActionSteps := 0, pendingBatchNotes := [] }
  else s

end Store

/-! ## Batches -/

/-- The code of a batch: it looks at the document between its calls. -/
inductive Script (β : Type*)
  | done
  | throw
  | mutate (call : Call β) (next : Projection β → Script β)
  | setItemNotes (id : String) (notes : List Char) (next : Projection β → Script β)
  | hardDelete (purge : Projection β → PurgeOutcome β) (next : Projection β → Script β)
  /-- A nested `withActionBatch`. -/
  | batch (body : Script β) (next : Projection β → Script β)
  /-- Errors of the body are caught. -/
  | attempt (body : Script β) (next : Projection β → Script β)

namespace Store

/-- Go on with what is left, unless something was thrown. -/
def andThen (r : Store β × Bool) (next : Store β → Store β × Bool) : Store β × Bool :=
  if r.2 then r else next r.1

/-- Run a script, with whether it throws. -/
def exec (um : UndoManager β) : Script β → Store β → Store β × Bool
  | .done, s => (s, false)
  | .throw, s => (s, true)
  | .mutate call next, s => andThen (s.mutate um call) fun s => exec um (next s.core.doc) s
  | .setItemNotes id notes next, s =>
    andThen (s.setItemNotes id notes) fun s => exec um (next s.core.doc) s
  | .hardDelete purge next, s =>
    andThen (s.hardDelete purge) fun s => exec um (next s.core.doc) s
  | .batch body next, s =>
    let r := exec um body s.enterBatch
    andThen (r.1.leaveBatch, r.2) fun s => exec um (next s.core.doc) s
  | .attempt body next, s =>
    let r := exec um body s
    exec um (next r.1.core.doc) r.1

end Store

/-- A user's action. -/
inductive Action (β : Type*)
  | mutate (call : Call β)
  | setItemNotes (id : String) (notes : List Char)
  | batch (body : Script β)

namespace Store

/-- Run an action. -/
def act (um : UndoManager β) (s : Store β) : Action β → Store β
  | .mutate call => (s.mutate um call).1
  | .setItemNotes id notes => (s.setItemNotes id notes).1
  | .batch body => (s.exec um (.batch body fun _ => .done)).1

/-! ## Undo and redo -/

/-- `applyNotesStep`, with whether the step stands. -/
def applyNotesStep (s : Store β) (id : String) (old new : List Char) : Store β × Bool :=
  match diffToDelta (units old) (units new) with
  | none => (s, true)
  | some ops =>
    match s.engineNotes id ops with
    | none => (s, false)
    | some s => (s.drainEvents, true)

/-- The notes steps one after the other, with those that stand. -/
def applyNotesSteps (old new : NotesStep → List Char) :
    List NotesStep → Store β → Store β × List NotesStep
  | [], s => (s, [])
  | n :: ns, s =>
    let r := s.applyNotesStep n.id (old n) (new n)
    let rest := applyNotesSteps old new ns r.1
    (rest.1, if r.2 then n :: rest.2 else rest.2)

/-- Up to so many steps of the core, with how many there were. -/
def engineTimes (step : Core β → Option (Core β)) (n : ℕ) (s : Store β) : Store β × ℕ :=
  let r := Core.times step n s.core
  ({ s with core := r.1, eventsQueued := s.eventsQueued || decide (0 < r.2) }, r.2)

/-- `undoStep`: the notes first, then the core's steps.  An entry that does nothing is passed
over, unless it has steps that the core does not have. -/
def undoFrom : List UndoEntry → Store β → Store β × Bool
  | [], s => ({ s with undoStack := [] }, false)
  | e :: rest, s =>
    let ns := applyNotesSteps NotesStep.after NotesStep.before e.notes { s with undoStack := rest }
    let r := engineTimes Core.undoOne e.steps ns.1
    if r.2 = 0 ∧ ns.2 = [] then
      if 0 < e.steps then ({ r.1 with undoStack := e :: rest }, false) else undoFrom rest r.1
    else
      let s := r.1.flush
      ({ s with redoStack := ⟨r.2, ns.2⟩ :: s.redoStack }, true)

/-- `redoStep`: the core's steps first. -/
def redoFrom : List UndoEntry → Store β → Store β × Bool
  | [], s => ({ s with redoStack := [] }, false)
  | e :: rest, s =>
    let r := engineTimes Core.redoOne e.steps { s with redoStack := rest }
    let ns := applyNotesSteps NotesStep.before NotesStep.after e.notes r.1
    if r.2 = 0 ∧ ns.2 = [] then
      if 0 < e.steps then ({ ns.1 with redoStack := e :: rest }, false) else redoFrom rest ns.1
    else
      let s := ns.1.flush
      ({ s with undoStack := ⟨r.2, ns.2⟩ :: s.undoStack }, true)

def undo (s : Store β) : Store β := (undoFrom s.undoStack s).1

def redo (s : Store β) : Store β := (redoFrom s.redoStack s).1

/-- What happens to a store. -/
inductive Step (β : Type*)
  | act (a : Action β)
  | hardDelete (purge : Projection β → PurgeOutcome β)
  | undo
  | redo
  /-- An import; it rearms the undo manager where it carries operations of this device. -/
  | imported (after : Projection β) (rearmed : Bool)

/-- One step. -/
def apply (um : UndoManager β) (s : Store β) : Step β → Store β
  | .act a => s.act um a
  | .hardDelete purge => (s.hardDelete purge).1
  | .undo => s.undo
  | .redo => s.redo
  | .imported after rearmed =>
    let core := if rearmed then Core.purge after else { s.core with doc := after }
    { s with core, eventsQueued := true }.drainEvents

end Store

/-- The stores of one document. -/
def stores (um : UndoManager β) : Machine (Store β) (Store.Step β) where
  init s := ∃ doc, s = Store.attach doc
  step s l := some (s.apply um l)

end Monoplan.Web
