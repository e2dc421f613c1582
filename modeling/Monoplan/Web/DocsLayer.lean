import Monoplan.Base.Machine
import Monoplan.Base.Sweep
import Monoplan.Doc.Export
import Monoplan.Web.UndoStack

/-!
# The layer over several documents

Every document has a store with undo entries of its own; the layer undoes the one whose latest
entry is the newest.  Focus is in the home document, and its foreign refs are dropped by an effect
once their items are closed or binned.

* `Pins` is what the layer reads of a core document.
* `DocApp` and its functions are one document's store: `endNotesSession`, `recordAction`, and
  `undoStep` and `redoStep` up to their flush (`takeEntry`, `takeRedo`).
* `DocsLayer.undo` and `DocsLayer.redo` are the layer's: the flush inside `undoStep` runs the
  effect (`pruneDeadForeignRefs`), which records an action of its own.
* `docsLayers` is the machine: actions, typing, hard deletes, imports, documents that come and go,
  undo and redo.
-/

namespace Monoplan.Web

open Monoplan.Base Monoplan.Doc

/-! ## Documents -/

/-- What the layer reads of a core document: whether an item that is there is open (neither closed
nor binned), and the raw `focus` container. -/
structure Pins where
  openness : String → Option Bool
  focus : List String

namespace Pins

/-- The item that a ref stands for, when it is foreign or open. -/
def liveRef (p : Pins) (raw : String) : Option FocusRef :=
  (FocusRef.parse raw).filter fun r => !r.isLocal || (p.openness r.itemId).getD false

/-- `scan_focus`: the live entries. -/
def focusEntries (p : Pins) : List FocusRef :=
  firstsOn FocusRef.itemId (p.focus.filterMap p.liveRef)

/-- `prune_focus_refs`: the dead slots go, and those that name one of the items. -/
def pruneFocusRefs (p : Pins) (ids : List String) : List String :=
  (removeAt (dead (fun raw => (p.liveRef raw).map FocusRef.itemId) true p.focus) p.focus).filter
    fun raw => !(FocusRef.parse raw).any fun r => decide (r.itemId ∈ ids)

end Pins

/-- `remove_from_focus_many`. -/
def removeFromFocusMany (ids : List String) : Call Pins := fun d =>
  if ids = [] ∨ d.rest.pruneFocusRefs ids = d.rest.focus then .ok none false
  else .ok (some ⟨{ d with rest := { d.rest with focus := d.rest.pruneFocusRefs ids } },
    fun _ _ h => h⟩) true

/-- `apply_notes_delta`: outside the undo manager; `none` throws. -/
def Core.applyNotes {β : Type*} (c : Core β) (id : String) (ops : List (DeltaOp UInt16)) :
    Option (Core β) :=
  (c.doc.notes id).bind fun text =>
    (applyNotesDelta text (ops.map (DeltaOp.decoded fromUtf16Lossy))).map fun text' =>
      { c with doc := c.doc.setNotes id text' }

/-! ## The store of one document -/

/-- An undo entry with its stamp. -/
structure StampedEntry extends UndoEntry where
  stamp : ℕ
  deriving DecidableEq

/-- The store of a document, with no action batch open.  What it shows is what its core holds. -/
structure DocApp where
  docId : String
  core : Core Pins
  undoStack : List StampedEntry
  redoStack : List StampedEntry
  /-- The item whose notes are being typed, and their text when the session began. -/
  notesSession : Option (String × List Char)

namespace DocApp

def canUndo (a : DocApp) : Bool := !a.undoStack.isEmpty

def topUndoStamp (a : DocApp) : ℕ := (a.undoStack.head?.map StampedEntry.stamp).getD 0

/-- `recordAction`, with something to record. -/
def recordAction (a : DocApp) (stamp steps : ℕ) (notes : List NotesStep) : DocApp :=
  { a with undoStack := ⟨⟨steps, notes⟩, stamp⟩ :: a.undoStack, redoStack := [] }

/-- `endNotesSession`, with the clock that stamps are taken from. -/
def endNotesSession (a : DocApp) (clock : ℕ) : DocApp × ℕ :=
  match a.notesSession with
  | none => (a, clock)
  | some (id, base) =>
    match a.core.doc.notes id with
    | none => ({ a with notesSession := none }, clock)
    | some after =>
      if after = base then (a, clock)
      else
        ({ a.recordAction (clock + 1) 0 [⟨id, base, after⟩] with
          notesSession := some (id, after) }, clock + 1)

/-- `applyNotesStep`, with whether the step stands. -/
def applyNotesStep (a : DocApp) (id : String) (old new : List Char) : DocApp × Bool :=
  match diffToDelta (units old) (units new) with
  | none => (a, true)
  | some ops =>
    match a.core.applyNotes id ops with
    | none => (a, false)
    | some core =>
      ({ a with
        core
        notesSession := a.notesSession.map fun session =>
          if session.1 = id then (id, (core.doc.notes id).getD []) else session }, true)

/-- Take notes steps back, with those that stand. -/
def revertNotes : List NotesStep → DocApp → DocApp × List NotesStep
  | [], a => (a, [])
  | n :: ns, a =>
    let r := a.applyNotesStep n.id n.after n.before
    let rest := revertNotes ns r.1
    (rest.1, if r.2 then n :: rest.2 else rest.2)

/-- Take an entry back, its notes first; with what of it took effect. -/
def revertEntry (a : DocApp) (e : UndoEntry) : DocApp × UndoEntry :=
  let ns := revertNotes e.notes a
  let r := Core.times Core.undoOne e.steps ns.1.core
  ({ ns.1 with core := r.1 }, ⟨r.2, ns.2⟩)

/-- `undoStep` up to its flush.  An entry that does nothing is passed over, unless it has steps
that the core does not have. -/
def takeEntry : List StampedEntry → DocApp → DocApp × Option UndoEntry
  | [], a => ({ a with undoStack := [] }, none)
  | e :: rest, a =>
    let r := { a with undoStack := rest }.revertEntry e.toUndoEntry
    if r.2.steps = 0 ∧ r.2.notes = [] then
      if 0 < e.steps then ({ r.1 with undoStack := e :: rest }, none) else takeEntry rest r.1
    else (r.1, some r.2)

def canRedo (a : DocApp) : Bool := !a.redoStack.isEmpty

def topRedoStamp (a : DocApp) : ℕ := (a.redoStack.head?.map StampedEntry.stamp).getD 0

/-- Put notes steps again, with those that stand. -/
def reapplyNotes : List NotesStep → DocApp → DocApp × List NotesStep
  | [], a => (a, [])
  | n :: ns, a =>
    let r := a.applyNotesStep n.id n.before n.after
    let rest := reapplyNotes ns r.1
    (rest.1, if r.2 then n :: rest.2 else rest.2)

/-- Put an entry again, its core steps first; with what of it took effect. -/
def reapplyEntry (a : DocApp) (e : UndoEntry) : DocApp × UndoEntry :=
  let r := Core.times Core.redoOne e.steps a.core
  let ns := reapplyNotes e.notes { a with core := r.1 }
  (ns.1, ⟨r.2, ns.2⟩)

/-- `redoStep` up to its flush. -/
def takeRedo : List StampedEntry → DocApp → DocApp × Option UndoEntry
  | [], a => ({ a with redoStack := [] }, none)
  | e :: rest, a =>
    let r := { a with redoStack := rest }.reapplyEntry e.toUndoEntry
    if r.2.steps = 0 ∧ r.2.notes = [] then
      if 0 < e.steps then ({ r.1 with redoStack := e :: rest }, none) else takeRedo rest r.1
    else (r.1, some r.2)

/-- A store that has just attached. -/
def attach (docId : String) (doc : Projection Pins) : DocApp where
  docId
  core := ⟨doc, [], []⟩
  undoStack := []
  redoStack := []
  notesSession := none

end DocApp

/-! ## The layer -/

/-- The open documents, and the process-wide clock. -/
structure DocsLayer where
  home : DocApp
  others : List DocApp
  clock : ℕ

/-- The place and the stamp of the newest entry; an earlier document goes first among equals. -/
def latestFrom : ℕ → List DocApp → Option (ℕ × ℕ) → Option (ℕ × ℕ)
  | _, [], best => best
  | i, a :: as, best =>
    latestFrom (i + 1) as <|
      if a.canUndo && best.all (fun b => decide (b.2 < a.topUndoStamp)) then
        some (i, a.topUndoStamp)
      else best

/-- `latest`: of the documents that can, the place and the stamp of the one whose stamp is the
highest; an earlier document goes first among equals. -/
def latestOf (stamp : DocApp → ℕ) (can : DocApp → Bool) :
    ℕ → List DocApp → Option (ℕ × ℕ) → Option (ℕ × ℕ)
  | _, [], best => best
  | i, a :: as, best =>
    latestOf stamp can (i + 1) as <|
      if can a && best.all (fun b => decide (b.2 < stamp a)) then some (i, stamp a) else best

theorem latestFrom_eq (i : ℕ) (as : List DocApp) (best : Option (ℕ × ℕ)) :
    latestFrom i as best = latestOf DocApp.topUndoStamp DocApp.canUndo i as best := by
  induction as generalizing i best with
  | nil => rfl
  | cons a as ih => exact ih _ _

/-- The number of undo entries. -/
def entryCount : List DocApp → ℕ
  | [] => 0
  | a :: as => a.undoStack.length + entryCount as

namespace DocsLayer

/-- `docs`. -/
def docs (s : DocsLayer) : List DocApp := s.home :: s.others

/-- Put a document's store back in its place. -/
def setDoc (s : DocsLayer) (i : ℕ) (a : DocApp) : DocsLayer :=
  match i with
  | 0 => { s with home := a }
  | i + 1 => { s with others := s.others.set i a }

/-- `appOf`. -/
def appOf (s : DocsLayer) (docId : String) : Option DocApp :=
  s.docs.find? fun a => decide (a.docId = docId)

/-- The item of a foreign ref, once it is closed or binned in its document. -/
def deadRef (s : DocsLayer) (r : FocusRef) : Option String :=
  match (r.docId.bind s.appOf).bind fun a => a.core.doc.rest.openness r.itemId with
  | some false => some r.itemId
  | _ => none

/-- What `pruneDeadForeignRefs` finds. -/
def deadForeignRefs (s : DocsLayer) : List String :=
  s.home.core.doc.rest.focusEntries.filterMap s.deadRef

/-- `pruneDeadForeignRefs`, through the home document's `mutate`. -/
def pruneDeadForeignRefs (um : UndoManager Pins) (s : DocsLayer) : DocsLayer :=
  let call := removeFromFocusMany s.deadForeignRefs s.home.core.doc
  let home := { s.home with core := s.home.core.commit um call.written }
  if call.events then
    { s with home := home.recordAction (s.clock + 1) 1 [], clock := s.clock + 1 }
  else { s with home }

/-- `latest`, for undo. -/
def latest (s : DocsLayer) : Option ℕ := (latestFrom 0 s.docs none).map Prod.fst

/-- The document that `undo` goes to, with its place. -/
def newest (s : DocsLayer) : Option (ℕ × DocApp) :=
  s.latest.bind fun i => (s.docs[i]?).map fun a => (i, a)

/-- Put a document's store back in its place, and the clock. -/
def put (s : DocsLayer) (i : ℕ) (a : DocApp) (clock : ℕ) : DocsLayer :=
  { s.setDoc i a with clock }

/-- `undo`, with what it returns.  The flush runs the effect before the entry is put on the redo
stack. -/
def undo (um : UndoManager Pins) (s : DocsLayer) : DocsLayer × Bool :=
  match s.newest with
  | none => (s, false)
  | some (i, a) =>
    let (a, clock) := a.endNotesSession s.clock
    let (a, entry) := a.takeEntry a.undoStack
    let s := s.put i a clock
    match entry with
    | none => (s, false)
    | some entry =>
      let s := s.pruneDeadForeignRefs um
      (match s.docs[i]? with
        | none => s
        | some a =>
          s.put i { a with redoStack := ⟨entry, s.clock + 1⟩ :: a.redoStack } (s.clock + 1), true)

/-- The document that `redo` goes to, with its place. -/
def newestRedo (s : DocsLayer) : Option (ℕ × DocApp) :=
  ((latestOf DocApp.topRedoStamp DocApp.canRedo 0 s.docs none).map Prod.fst).bind fun i =>
    (s.docs[i]?).map fun a => (i, a)

/-- `redo`, with what it returns.  It does not end the notes session. -/
def redo (um : UndoManager Pins) (s : DocsLayer) : DocsLayer × Bool :=
  match s.newestRedo with
  | none => (s, false)
  | some (i, a) =>
    let (a, entry) := a.takeRedo a.redoStack
    let s := s.put i a s.clock
    match entry with
    | none => (s, false)
    | some entry =>
      let s := s.pruneDeadForeignRefs um
      (match s.docs[i]? with
        | none => s
        | some a =>
          s.put i { a with undoStack := ⟨entry, s.clock + 1⟩ :: a.undoStack } (s.clock + 1), true)

/-- `canUndo`. -/
def canUndo (s : DocsLayer) : Bool := s.docs.any DocApp.canUndo

/-- The number of undoable entries over all documents. -/
def total (s : DocsLayer) : ℕ := entryCount s.docs

/-- Nothing but `undo()`, so many times. -/
def run (um : UndoManager Pins) (s : DocsLayer) (n : ℕ) : DocsLayer :=
  (fun s => (s.undo um).1)^[n] s

/-- Nothing but `redo()`, so many times. -/
def rerun (um : UndoManager Pins) (s : DocsLayer) (n : ℕ) : DocsLayer :=
  (fun s => (s.redo um).1)^[n] s

/-! ## The machine -/

/-- What happens to the layer.  What an action, an import and typing do to the core is arbitrary:
the undo manager adapts its steps to an import, or drops them. -/
inductive Event
  /-- An action or a batch that the store of the document records. -/
  | acted (i : ℕ) (core : Core Pins) (steps : ℕ) (notes : List NotesStep)
  /-- Typing, and notes that are opened and closed in an editor. -/
  | typed (i : ℕ) (core : Core Pins) (session : Option (String × List Char))
  | sessionEnded (i : ℕ)
  /-- A hard delete: the store forgets its history. -/
  | purged (i : ℕ) (core : Core Pins)
  /-- Remote changes. -/
  | imported (i : ℕ) (core : Core Pins)
  | added (docId : String) (doc : Projection Pins)
  /-- Every document but the home one can go. -/
  | removed (i : ℕ)
  | undo
  | redo

/-- Put a document's core back, and run the effect. -/
def changeCore (um : UndoManager Pins) (s : DocsLayer) (i : ℕ) (core : Core Pins) :
    Option DocsLayer :=
  (s.docs[i]?).map fun a => (s.put i { a with core } s.clock).pruneDeadForeignRefs um

/-- One step.  The effect runs in the flush, before an action is recorded. -/
def apply (um : UndoManager Pins) (s : DocsLayer) : Event → Option DocsLayer
  | .acted i core steps notes =>
    if steps = 0 ∧ notes = [] then none
    else
      (s.changeCore um i core).bind fun s => (s.docs[i]?).map fun a =>
        s.put i (a.recordAction (s.clock + 1) steps notes) (s.clock + 1)
  | .typed i core session =>
    (s.changeCore um i core).bind fun s => (s.docs[i]?).map fun a =>
      s.put i { a with notesSession := session } s.clock
  | .sessionEnded i =>
    (s.docs[i]?).map fun a => s.put i (a.endNotesSession s.clock).1 (a.endNotesSession s.clock).2
  | .purged i core =>
    (s.changeCore um i core).bind fun s => (s.docs[i]?).map fun a =>
      s.put i { a with undoStack := [], redoStack := [] } s.clock
  | .imported i core => s.changeCore um i core
  | .added docId doc =>
    some ({ s with others := s.others ++ [DocApp.attach docId doc] }.pruneDeadForeignRefs um)
  | .removed i => some ({ s with others := s.others.eraseIdx i }.pruneDeadForeignRefs um)
  | .undo => some (s.undo um).1
  | .redo => some (s.redo um).1

end DocsLayer

/-- The layers over the documents of one process. -/
def docsLayers (um : UndoManager Pins) : Machine DocsLayer DocsLayer.Event where
  init s := ∃ (docId : String) (doc : Projection Pins), s =
    DocsLayer.pruneDeadForeignRefs um { home := DocApp.attach docId doc, others := [], clock := 0 }
  step s l := s.apply um l

end Monoplan.Web
