import Monoplan.Web.UndoStack

/-!
# The way back through a batch

* `Script.Writes`: every mutation of an action writes something.  `Script.Plain`: the action
  deletes nothing for good, and writes the notes of an item once, over what the store shows.
* `Trail`: taking the notes steps and the core's steps back leads to where the batch began.
* `exec_tracks`: every script keeps the trail; the core has a step for each step that the store
  counts exactly if every mutation wrote.
-/

namespace Monoplan.Web

open Monoplan.Base Monoplan.Doc

variable {β : Type*} {um : UndoManager β}

/-! ## Actions -/

namespace Script

/-- A condition on every mutation, notes write and hard delete of a script, each where it
runs. -/
def Along (um : UndoManager β) (mutates : Store β → Call β → Prop)
    (notes : Store β → String → List Char → Prop)
    (deletes : Store β → (Projection β → PurgeOutcome β) → Prop) : Script β → Store β → Prop
  | .done, _ => True
  | .throw, _ => True
  | .mutate call next, s =>
    mutates s call ∧ ((s.mutate um call).2 = false →
      (next (s.mutate um call).1.core.doc).Along um mutates notes deletes (s.mutate um call).1)
  | .setItemNotes id text next, s =>
    notes s id text ∧ ((s.setItemNotes id text).2 = false →
      (next (s.setItemNotes id text).1.core.doc).Along um mutates notes deletes
        (s.setItemNotes id text).1)
  | .hardDelete purge next, s =>
    deletes s purge ∧ ((s.hardDelete purge).2 = false →
      (next (s.hardDelete purge).1.core.doc).Along um mutates notes deletes
        (s.hardDelete purge).1)
  | .batch body next, s =>
    body.Along um mutates notes deletes s.enterBatch ∧
      ((s.enterBatch.exec um body).2 = false →
        (next (s.enterBatch.exec um body).1.leaveBatch.core.doc).Along um mutates notes deletes
          (s.enterBatch.exec um body).1.leaveBatch)
  | .attempt body next, s =>
    body.Along um mutates notes deletes s ∧
      (next (s.exec um body).1.core.doc).Along um mutates notes deletes (s.exec um body).1

end Script

/-- The mutation commits something where it runs. -/
def CommitsAt (s : Store β) (call : Call β) : Prop :=
  (call s.core.doc).written.isSome = true

/-- The item is there, with the notes that the store shows. -/
def NotesShownAt (s : Store β) (id : String) (text : List Char) : Prop :=
  text ≠ (s.shown id).getD [] → s.core.doc.notes id = some ((s.shown id).getD [])

/-- The delete finds nothing to delete. -/
def DeletesNothingAt (s : Store β) (purge : Projection β → PurgeOutcome β) : Prop :=
  ∀ after, purge s.core.doc ≠ .purged after

/-- Every mutation writes something. -/
def Script.Writes (um : UndoManager β) : Script β → Store β → Prop :=
  Script.Along um CommitsAt (fun _ _ _ => True) fun _ _ => True

/-- Notes are written over what the store shows, and nothing is deleted for good. -/
def Script.Plain (um : UndoManager β) : Script β → Store β → Prop :=
  Script.Along um (fun _ _ => True) NotesShownAt DeletesNothingAt

namespace Action

/-- Every mutation of the action writes something. -/
def Writes (um : UndoManager β) : Action β → Store β → Prop
  | mutate call, s => CommitsAt s call
  | setItemNotes _ _, _ => True
  | batch body, s => body.Writes um s.enterBatch

/-- The action's notes are written over what the store shows, and nothing is deleted for
good. -/
def Plain (um : UndoManager β) : Action β → Store β → Prop
  | mutate _, _ => True
  | setItemNotes id text, s => NotesShownAt s id text
  | batch body, s => body.Plain um s.enterBatch

end Action

/-! ## Texts -/

namespace Projection

variable {d : Projection β} {id : String}

theorem retext_none (d : Projection β) : d.retext (fun _ => none) = d := by
  ext
  · rfl
  · simp [retext]

end Projection

/-- The texts of notes steps, by item. -/
def textsOf (side : NotesStep → List Char) (ns : List NotesStep) (id : String) :
    Option (List Char) :=
  (ns.find? fun n => n.id = id).map side

theorem textsOf_cons_self (side : NotesStep → List Char) (n : NotesStep) (ns : List NotesStep) :
    textsOf side (n :: ns) n.id = some (side n) := by
  simp [textsOf]

theorem textsOf_cons_ne (side : NotesStep → List Char) {n : NotesStep} {id : String}
    (h : n.id ≠ id) (ns : List NotesStep) : textsOf side (n :: ns) id = textsOf side ns id := by
  simp [textsOf, h]

theorem textsOf_eq_none {side : NotesStep → List Char} {ns : List NotesStep} {id : String}
    (h : id ∉ ns.map NotesStep.id) : textsOf side ns id = none := by
  rw [textsOf, Option.map_eq_none_iff, List.find?_eq_none]
  intro n hn
  simp only [decide_eq_true_eq]
  rintro rfl
  exact h (List.mem_map_of_mem hn)

theorem textsOf_append (side : NotesStep → List Char) (ns ms : List NotesStep) (id : String) :
    textsOf side (ns ++ ms) id = (textsOf side ns id).or (textsOf side ms id) := by
  rw [textsOf, List.find?_append, Option.map_or]
  rfl

theorem isSome_textsOf {side : NotesStep → List Char} {ns : List NotesStep} {id : String}
    (h : (textsOf side ns id).isSome) : ∃ n ∈ ns, n.id = id := by
  rw [textsOf, Option.isSome_map] at h
  obtain ⟨n, hn⟩ := Option.isSome_iff_exists.1 h
  exact ⟨n, List.mem_of_find?_eq_some hn, by simpa using List.find?_some hn⟩

/-! ## The way back -/

/-- Taking the steps back leads from `x` to `y`, and putting each again undoes that. -/
def LeadsBack : List (UndoSpan β) → Projection β → Projection β → Prop
  | [], x, y => x = y
  | p :: ps, x, y => p.reapply (p.revert x) = x ∧ LeadsBack ps (p.revert x) y

/-- A commit is a way back by itself. -/
theorem leadsBack_record (um : UndoManager β) {a b : Projection β} (h : b.Extends a) :
    LeadsBack [um.record a b] b a := by
  have hrevert : (um.record a b).revert (b.retext fun _ => none) = a.retext fun _ => none :=
    um.revert_record h fun id hsome => by cases hsome
  have hreapply : (um.record a b).reapply (a.retext fun _ => none) = b.retext fun _ => none :=
    um.reapply_record h fun id hsome => by cases hsome
  rw [Projection.retext_none, Projection.retext_none] at hrevert hreapply
  exact ⟨by rw [hrevert, hreapply], hrevert⟩

/-- The way back from `d` to `d₀`: the notes steps, which stand at different items, and then the
core's. -/
structure Trail (d₀ : Projection β) (shown : String → Option (List Char)) (d : Projection β)
    (ps : List (UndoSpan β)) (ns : List NotesStep) : Prop where
  stands : ∀ n ∈ ns, d.notes n.id = some n.after
  differ : ∀ n ∈ ns, n.before ≠ n.after
  shown : ∀ n ∈ ns, n.before = (shown n.id).getD []
  nodup : (ns.map NotesStep.id).Nodup
  back : LeadsBack ps (d.retext (textsOf NotesStep.before ns)) d₀

namespace Trail

variable {d₀ d : Projection β} {shown : String → Option (List Char)} {ps : List (UndoSpan β)}
  {ns : List NotesStep}

theorem start (d₀ : Projection β) (shown : String → Option (List Char)) :
    Trail d₀ shown d₀ [] [] where
  stands _ hn := absurd hn List.not_mem_nil
  differ _ hn := absurd hn List.not_mem_nil
  shown _ hn := absurd hn List.not_mem_nil
  nodup := List.nodup_nil
  back := Projection.retext_none d₀

/-- A commit adds its step. -/
theorem commit (h : Trail d₀ shown d ps ns) {after : Projection β} (hext : after.Extends d)
    (um : UndoManager β) : Trail d₀ shown after (um.record d after :: ps) ns := by
  have hitems : ∀ id, (textsOf NotesStep.before ns id).isSome → (d.notes id).isSome := by
    intro id hid
    obtain ⟨n, hn, rfl⟩ := isSome_textsOf hid
    rw [h.stands n hn]
    rfl
  refine ⟨fun n hn => hext _ _ (h.stands n hn), h.differ, h.shown, h.nodup, ?_, ?_⟩
  · rw [um.revert_record hext hitems, um.reapply_record hext hitems]
  · rw [um.revert_record hext hitems]
    exact h.back

/-- A notes write over what is shown adds its notes step. -/
theorem setNotes (h : Trail d₀ shown d ps ns) {id : String} {text : List Char}
    (hne : (shown id).getD [] ≠ text) (hd : d.notes id = some ((shown id).getD [])) :
    Trail d₀ shown (d.setNotes id text) ps (ns ++ [⟨id, (shown id).getD [], text⟩]) := by
  have hnew : ∀ n ∈ ns, n.id ≠ id := by
    rintro n hn rfl
    have hstands := h.stands n hn
    rw [hd, Option.some.injEq, ← h.shown n hn] at hstands
    exact h.differ n hn hstands
  have hnotin : id ∉ ns.map NotesStep.id := fun hmem => by
    obtain ⟨n, hn, hid⟩ := List.mem_map.1 hmem
    exact hnew n hn hid
  constructor
  · intro n hn
    rcases List.mem_append.1 hn with hn | hn
    · rw [Projection.setNotes]
      dsimp only
      rw [Function.update_of_ne (hnew n hn)]
      exact h.stands n hn
    · rw [List.mem_singleton.1 hn]
      exact Function.update_self _ _ _
  · intro n hn
    rcases List.mem_append.1 hn with hn | hn
    · exact h.differ n hn
    · rw [List.mem_singleton.1 hn]
      exact hne
  · intro n hn
    rcases List.mem_append.1 hn with hn | hn
    · exact h.shown n hn
    · rw [List.mem_singleton.1 hn]
  · rw [List.map_append, List.nodup_append]
    refine ⟨h.nodup, by simp, fun a ha b hb => ?_⟩
    rw [List.map_singleton, List.mem_singleton] at hb
    rw [hb]
    rintro rfl
    exact hnotin ha
  · have hsame : (d.setNotes id text).retext
        (textsOf NotesStep.before (ns ++ [⟨id, (shown id).getD [], text⟩])) =
          d.retext (textsOf NotesStep.before ns) := by
      ext id' : 2
      · rfl
      · by_cases hid : id' = id
        · subst hid
          simp only [Projection.retext, Projection.setNotes, Function.update_self,
            textsOf_append, textsOf_eq_none hnotin, Option.none_or, hd]
          simp [textsOf]
        · simp only [Projection.retext, Projection.setNotes, Function.update_of_ne hid,
            textsOf_append]
          simp [textsOf, Ne.symm hid]
    rw [hsame]
    exact h.back

end Trail

/-! ## Inside a batch -/

/-- Somewhere in the batch that began at `s₀`, with `ps` the core's steps since. -/
structure Within (s₀ s : Store β) (ps : List (UndoSpan β)) : Prop where
  depth : 0 < s.actionBatchDepth
  shown : s.shown = s₀.shown
  stack : s.undoStack = s₀.undoStack
  undo : s.core.undo = ps ++ s₀.core.undo
  trail : Trail s₀.core.doc s₀.shown s.core.doc ps s.pendingBatchNotes

/-- From `s` to `s'` the batch stays at its level and counts `k` steps more. -/
structure Counts (s s' : Store β) (k : ℕ) : Prop where
  depth : s'.actionBatchDepth = s.actionBatchDepth
  steps : s'.pendingActionSteps = s.pendingActionSteps + k

theorem Counts.trans {s s' s'' : Store β} {k l : ℕ} (h : Counts s s' k) (h' : Counts s' s'' l) :
    Counts s s'' (k + l) :=
  ⟨h'.depth.trans h.depth, by rw [h'.steps, h.steps, Nat.add_assoc]⟩

/-- From `s` to `s'` the batch goes on, with a step of the core for each step it counts exactly
if `wrote` holds. -/
def Tracks (s₀ s s' : Store β) (ps : List (UndoSpan β)) (wrote : Prop) : Prop :=
  ∃ qs k, Within s₀ s' (qs ++ ps) ∧ Counts s s' k ∧ qs.length ≤ k ∧ (qs.length = k ↔ wrote)

namespace Tracks

variable {s₀ s s' s'' : Store β} {ps : List (UndoSpan β)} {wrote wrote' : Prop}

/-- Nothing is counted, and the core takes no step. -/
theorem still (h : Within s₀ s' ps) (hcounts : Counts s s' 0) : Tracks s₀ s s' ps True :=
  ⟨[], 0, h, hcounts, Nat.le_refl _, by simp⟩

theorem congr (h : Tracks s₀ s s' ps wrote) (hiff : wrote ↔ wrote') :
    Tracks s₀ s s' ps wrote' := by
  obtain ⟨qs, k, hwithin, hcounts, hle, hwrote⟩ := h
  exact ⟨qs, k, hwithin, hcounts, hle, hwrote.trans hiff⟩

theorem trans (h : Tracks s₀ s s' ps wrote)
    (h' : ∀ qs, Within s₀ s' qs → Tracks s₀ s' s'' qs wrote') :
    Tracks s₀ s s'' ps (wrote ∧ wrote') := by
  obtain ⟨qs, k, hwithin, hcounts, hle, hwrote⟩ := h
  obtain ⟨rs, l, hwithin', hcounts', hle', hwrote'⟩ := h' _ hwithin
  refine ⟨rs ++ qs, k + l, ?_, hcounts.trans hcounts', ?_, ?_⟩
  · rw [List.append_assoc]
    exact hwithin'
  · rw [List.length_append]
    omega
  · have hsum : (rs ++ qs).length = k + l ↔ qs.length = k ∧ rs.length = l := by
      rw [List.length_append]
      omega
    rw [hsum, hwrote, hwrote']

/-- What is left of a script runs unless something was thrown. -/
theorem andThen {r : Store β × Bool} {next : Store β → Store β × Bool}
    (h : Tracks s₀ s r.1 ps wrote)
    (h' : r.2 = false → ∀ qs, Within s₀ r.1 qs → Tracks s₀ r.1 (next r.1).1 qs wrote') :
    Tracks s₀ s (Store.andThen r next).1 ps (wrote ∧ (r.2 = false → wrote')) := by
  unfold Store.andThen
  cases hr : r.2 with
  | true => exact h.congr (by simp)
  | false => exact (h.trans (h' hr)).congr (by simp)

end Tracks

namespace Within

variable {s₀ s : Store β} {ps : List (UndoSpan β)}

theorem flush_eq (h : 0 < s.actionBatchDepth) : s.flush = { s with flushDeferred := true } :=
  if_pos h

/-- The way back does not depend on what is counted. -/
theorem congr {s' : Store β} (h : Within s₀ s ps) (hdepth : 0 < s'.actionBatchDepth)
    (hshown : s'.shown = s.shown) (hstack : s'.undoStack = s.undoStack)
    (hcore : s'.core = s.core) (hnotes : s'.pendingBatchNotes = s.pendingBatchNotes) :
    Within s₀ s' ps where
  depth := hdepth
  shown := hshown.trans h.shown
  stack := hstack.trans h.stack
  undo := by rw [hcore, h.undo]
  trail := by
    rw [hcore, hnotes]
    exact h.trail

theorem engineCall (h : Within s₀ s ps) (um : UndoManager β) (call : Call β) :
    ∃ qs, Within s₀ (s.engineCall um call) (qs ++ ps) ∧ qs.length ≤ 1 ∧
      (qs.length = 1 ↔ CommitsAt s call) := by
  unfold CommitsAt Store.engineCall
  cases hw : (call s.core.doc).written with
  | none => exact ⟨[], ⟨h.depth, h.shown, h.stack, h.undo, h.trail⟩, Nat.zero_le _, by simp⟩
  | some w =>
    refine ⟨[um.record s.core.doc w.after], ⟨h.depth, h.shown, h.stack, ?_, ?_⟩, Nat.le_refl _,
      by simp⟩
    · show _ :: s.core.undo = _
      rw [h.undo]
      rfl
    · exact h.trail.commit w.extends_ um

theorem mutate (h : Within s₀ s ps) (um : UndoManager β) (call : Call β) :
    Tracks s₀ s (s.mutate um call).1 ps (CommitsAt s call) := by
  have hcounted : Within s₀ { s with pendingActionSteps := s.pendingActionSteps + 1 } ps :=
    h.congr h.depth rfl rfl rfl rfl
  obtain ⟨qs, hwithin, hle, hiff⟩ := hcounted.engineCall um call
  refine ⟨qs, 1, ?_, ?_, hle, hiff⟩
  · unfold Store.mutate
    rw [if_pos h.depth]
    dsimp only
    split
    · exact hwithin
    · rw [flush_eq hwithin.depth]
      exact hwithin.congr hwithin.depth rfl rfl rfl rfl
  · unfold Store.mutate
    rw [if_pos h.depth]
    dsimp only
    split
    · exact ⟨rfl, rfl⟩
    · rw [flush_eq hwithin.depth]
      exact ⟨rfl, rfl⟩

end Within

/-- The store after a notes write. -/
def Store.renoted (s : Store β) (id : String) (text : List Char) : Store β :=
  { s with core := { s.core with doc := s.core.doc.setNotes id text }, eventsQueued := true }

/-- What the core does with a notes write over the text that is there. -/
theorem Store.engineNotes_eq {s : Store β} {id : String} {old new : List Char}
    (hd : s.core.doc.notes id = some old) (hne : old ≠ new) :
    ∃ ops, diffToDelta (units old) (units new) = some ops ∧
      s.engineNotes id ops = some (s.renoted id new) := by
  obtain ⟨ops, hops, happly⟩ := applyNotesDelta_diff hne
  refine ⟨ops, hops, ?_⟩
  rw [Store.engineNotes, hd, Option.bind_some, happly, Option.map_some,
    decide_eq_true (Ne.symm hne), Bool.or_true]
  rfl

namespace Within

variable {s₀ s : Store β} {ps : List (UndoSpan β)}

theorem setItemNotes (h : Within s₀ s ps) {id : String} {text : List Char}
    (hok : NotesShownAt s id text) :
    Tracks s₀ s (s.setItemNotes id text).1 ps True := by
  unfold Store.setItemNotes
  dsimp only
  by_cases heq : (s.shown id).getD [] = text
  · rw [diffToDelta, if_pos (congrArg units heq)]
    exact .still h ⟨rfl, rfl⟩
  · have hd := hok (Ne.symm heq)
    obtain ⟨ops, hops, hnotes⟩ := Store.engineNotes_eq hd heq
    rw [hops]
    dsimp only
    have hdepth : 0 < (s.renoted id text).actionBatchDepth := h.depth
    have hdepth' : 0 < (s.renoted id text).flush.actionBatchDepth := by
      rw [flush_eq hdepth]
      exact hdepth
    rw [hnotes]
    dsimp only
    rw [if_pos hdepth', flush_eq hdepth]
    refine .still ⟨h.depth, h.shown, h.stack, h.undo, ?_⟩ ⟨rfl, rfl⟩
    rw [h.shown] at heq hd ⊢
    exact h.trail.setNotes heq hd

theorem hardDelete (h : Within s₀ s ps) {purge : Projection β → PurgeOutcome β}
    (hok : DeletesNothingAt s purge) :
    Tracks s₀ s (s.hardDelete purge).1 ps True := by
  unfold Store.hardDelete
  cases hp : purge s.core.doc with
  | error => exact .still h ⟨rfl, rfl⟩
  | nothing =>
    dsimp only
    rw [flush_eq h.depth]
    exact .still (h.congr h.depth rfl rfl rfl rfl) ⟨rfl, rfl⟩
  | purged after => exact absurd hp (hok after)

/-- A batch within the batch goes a level down and comes back. -/
theorem nested (h : Within s₀ s ps) (run : Store β → Store β) {wrote : Prop}
    (hrun : ∀ qs, Within s₀ s.enterBatch qs →
      Tracks s₀ s.enterBatch (run s.enterBatch) qs wrote) :
    Tracks s₀ s (run s.enterBatch).leaveBatch ps wrote := by
  have hdepth := h.depth
  have henter : s.enterBatch = { s with actionBatchDepth := s.actionBatchDepth + 1 } :=
    if_neg (Nat.pos_iff_ne_zero.1 hdepth)
  have hwithin : Within s₀ s.enterBatch ps := by
    rw [henter]
    exact h.congr (Nat.succ_pos _) rfl rfl rfl rfl
  obtain ⟨qs, k, hafter, hcounts, hle, hiff⟩ := hrun ps hwithin
  have hlevel : (run s.enterBatch).actionBatchDepth = s.actionBatchDepth + 1 := by
    rw [hcounts.depth, henter]
  have hleave : (run s.enterBatch).leaveBatch =
      { run s.enterBatch with actionBatchDepth := s.actionBatchDepth } := by
    unfold Store.leaveBatch
    dsimp only
    rw [hlevel, Nat.add_sub_cancel, if_neg (Nat.pos_iff_ne_zero.1 hdepth)]
  rw [hleave]
  refine ⟨qs, k, hafter.congr hdepth rfl rfl rfl rfl, ⟨rfl, ?_⟩, hle, hiff⟩
  rw [← show s.enterBatch.pendingActionSteps = s.pendingActionSteps by rw [henter]]
  exact hcounts.steps

end Within

/-- **Inside a batch** the way back is kept, and there are as many steps as were counted exactly
if every mutation wrote. -/
theorem exec_tracks (um : UndoManager β) {s₀ s : Store β} {ps : List (UndoSpan β)}
    {script : Script β} (h : Within s₀ s ps) (hplain : script.Plain um s) :
    Tracks s₀ s (s.exec um script).1 ps (script.Writes um s) := by
  induction script generalizing s ps with
  | done => exact .still h ⟨rfl, rfl⟩
  | throw => exact .still h ⟨rfl, rfl⟩
  | mutate call next ih =>
    exact (h.mutate um call).andThen fun hgoes _ h' => ih _ h' (hplain.2 hgoes)
  | setItemNotes id text next ih =>
    exact (h.setItemNotes hplain.1).andThen fun hgoes _ h' => ih _ h' (hplain.2 hgoes)
  | hardDelete purge next ih =>
    exact (h.hardDelete hplain.1).andThen fun hgoes _ h' => ih _ h' (hplain.2 hgoes)
  | batch body next ihb ih =>
    have hbody := h.nested (fun s => (s.exec um body).1) fun _ h' => ihb h' hplain.1
    exact hbody.andThen fun hgoes _ h' => ih _ h' (hplain.2 hgoes)
  | attempt body next ihb ih =>
    exact (ihb h hplain.1).trans fun _ h' => ih _ h' hplain.2

end Monoplan.Web
