import Monoplan.Web.UndoProgress

/-!
# Undo over several documents

Undo goes to the document whose latest entry is the newest of all.  The document passes over the
entries that do nothing any more, and the choice is not made again.

* `Ordered s`: stamps fall along every stack, and no two documents share one.
* `Reverts u s i a e`: what a call does that takes the entry `e` back.
* `InOrder s`: the document that is chosen comes to an entry that it can take back, and no other
  document has a newer one.
* `undo_order`: undo takes the newest entry back that can be taken back exactly in an ordered
  state; undone entries can all be put again.
-/

namespace Monoplan.Web

open Monoplan.Base Monoplan.Doc

variable {u : UndoManager Pins}

/-! ## What can be taken back -/

namespace DocApp

variable {a b : DocApp} {e : StampedEntry}

/-- Taking the entry back now does something. -/
def Revertible (a : DocApp) (e : UndoEntry) : Prop :=
  ¬((a.revertEntry e).2.steps = 0 ∧ (a.revertEntry e).2.notes = [])

theorem revertible_iff {e : UndoEntry} : a.Revertible e ↔
    (a.revertNotes e.notes).2 ≠ [] ∨ (0 < e.steps ∧ a.core.undo ≠ []) := by
  rw [Revertible, revertEntry_nothing, not_and_or, not_or, Nat.pos_iff_ne_zero]

theorem revertible_congr (h : a.core = b.core) (e : UndoEntry) :
    a.Revertible e ↔ b.Revertible e := by
  rw [Revertible, Revertible, (revertEntry_congr h e).2]

theorem Revertible.takesEffect {e : UndoEntry} (h : a.Revertible e) : a.takesEffect e = true := by
  rw [DocApp.takesEffect, decide_eq_true_eq]
  rcases revertible_iff.1 h with hnotes | ⟨hpos, -⟩
  · exact .inr hnotes
  · exact .inl hpos

/-- The stamps fall along the stack. -/
def Falling (es : List StampedEntry) : Prop := es.Pairwise fun e e' => e'.stamp < e.stamp

theorem Falling.eq_of_stamp {es : List StampedEntry} (h : Falling es) {e e' : StampedEntry}
    (he : e ∈ es) (he' : e' ∈ es) (hstamp : e.stamp = e'.stamp) : e = e' := by
  induction h with
  | nil => cases he
  | cons hlt _ ih =>
    rcases List.mem_cons.1 he with rfl | hin
    · rcases List.mem_cons.1 he' with rfl | hin'
      · rfl
      · exact absurd hstamp (Nat.ne_of_gt (hlt e' hin'))
    · rcases List.mem_cons.1 he' with rfl | hin'
      · exact absurd hstamp (Nat.ne_of_lt (hlt e hin))
      · exact ih hin hin'

theorem Falling.le_top (h : Falling a.undoStack) (he : e ∈ a.undoStack) :
    e.stamp ≤ a.topUndoStamp := by
  rw [topUndoStamp]
  cases hes : a.undoStack with
  | nil =>
    rw [hes] at he
    cases he
  | cons top es =>
    rw [hes] at h he
    rcases List.mem_cons.1 he with rfl | hin
    · exact Nat.le_refl _
    · exact (List.rel_of_pairwise_cons h hin).le

/-- No entry is twice in the stack. -/
theorem Falling.split {pre rest : List StampedEntry} (h : Falling (pre ++ e :: rest)) :
    e ∉ pre ∧ e ∉ rest := by
  obtain ⟨-, htail, hacross⟩ := List.pairwise_append.1 h
  refine ⟨fun hin => ?_, fun hin => ?_⟩
  · exact Nat.lt_irrefl _ (hacross e hin e List.mem_cons_self)
  · exact Nat.lt_irrefl _ (List.rel_of_pairwise_cons htail hin)

/-- **What `undoStep` comes to**, of a stack whose stamps fall. -/
theorem takeEntry_falling (a : DocApp) (h : Falling a.undoStack) :
    (a.takeEntry a.undoStack).1.core = a.core ∧ (a.takeEntry a.undoStack).2 = none ∧
        (∀ e, a.nextEntry = some e → ¬a.Revertible e.toUndoEntry) ∨
      ∃ pre e rest, a.undoStack = pre ++ e :: rest ∧ a.nextEntry = some e ∧
        a.Revertible e.toUndoEntry ∧ (∀ e' ∈ pre, ¬a.Revertible e'.toUndoEntry) ∧
        a.takeEntry a.undoStack = (({ a with undoStack := rest }.revertEntry e.toUndoEntry).1,
          some ({ a with undoStack := rest }.revertEntry e.toUndoEntry).2) := by
  rcases takeEntry_cases a.undoStack a with ⟨hfind, htake⟩ | ⟨pre, e, rest, hes, hfind, hcases⟩
  · refine .inl ⟨by rw [htake], by rw [htake], fun e hnext => ?_⟩
    rw [nextEntry, hfind] at hnext
    cases hnext
  · rcases hcases with ⟨hnotes, hpos, hundo, htake⟩ | ⟨hsome, htake⟩
    · refine .inl ⟨by rw [htake], by rw [htake], fun e' hnext hrev => ?_⟩
      rw [nextEntry, hfind] at hnext
      obtain rfl := Option.some.inj hnext
      rcases revertible_iff.1 hrev with hstand | ⟨-, hne⟩
      · exact hstand hnotes
      · exact hne hundo
    · have heffect : a.takesEffect e.toUndoEntry = true :=
        List.find?_some (p := fun e : StampedEntry => a.takesEffect e.toUndoEntry) hfind
      refine .inr ⟨pre, e, rest, hes, hfind, revertible_iff.2 ?_, fun e' he' hrev => ?_, htake⟩
      · by_cases hnotes : (a.revertNotes e.notes).2 = []
        · exact .inr ⟨(of_decide_eq_true heffect).resolve_right (not_not.2 hnotes), hsome hnotes⟩
        · exact .inl hnotes
      · -- an entry before it that takes effect would have been found first
        have hsome' : (pre.find? fun e => a.takesEffect e.toUndoEntry).isSome = true :=
          List.find?_isSome.2 ⟨e', he', hrev.takesEffect⟩
        obtain ⟨x, hx⟩ := Option.isSome_iff_exists.1 hsome'
        rw [hes, List.find?_append, hx, Option.some_or, Option.some.injEq] at hfind
        rw [hes] at h
        exact h.split.1 (hfind ▸ List.mem_of_find?_eq_some hx)

end DocApp

/-! ## Stamps -/

namespace DocsLayer

variable {s t : DocsLayer} {i : ℕ} {a b : DocApp} {e : StampedEntry}

/-- Stamps fall along every stack, no two documents share one, and none is ahead of the clock. -/
structure Ordered (s : DocsLayer) : Prop where
  falling : ∀ a ∈ s.docs, DocApp.Falling a.undoStack
  apart : ∀ (i j : ℕ) (a b : DocApp), s.docs[i]? = some a → s.docs[j]? = some b → ∀ e ∈ a.undoStack,
    ∀ e' ∈ b.undoStack, e.stamp = e'.stamp → i = j
  stamped : s.Stamped
  redoStamped : ∀ a ∈ s.docs, ∀ e ∈ a.redoStack, e.stamp ≤ s.clock

theorem docs_put (s : DocsLayer) (i : ℕ) (a : DocApp) (c : ℕ) :
    (s.put i a c).docs = s.docs.set i a := docs_setDoc s i a

theorem put_put (s : DocsLayer) (i : ℕ) (a b : DocApp) (c d : ℕ) :
    (s.put i a c).put i b d = s.put i b d := by
  cases i with
  | zero => rfl
  | succ i =>
    rw [put, put, setDoc, setDoc, put, setDoc]
    simp

theorem getElem?_put {c : ℕ} (hget : s.docs[i]? = some a) : (s.put i b c).docs[i]? = some b := by
  rw [docs_put, List.getElem?_set_self (List.getElem?_eq_some_iff.1 hget).1]

theorem getElem?_put_ne {j c : ℕ} (hne : i ≠ j) : (s.put i b c).docs[j]? = s.docs[j]? := by
  rw [docs_put, List.getElem?_set_ne hne]

/-- A document's store is put back with entries of its own, and with new ones. -/
theorem Ordered.put (h : s.Ordered) {c : ℕ} (hget : s.docs[i]? = some a) (hc : s.clock ≤ c)
    (hfall : DocApp.Falling b.undoStack)
    (hown : ∀ e ∈ b.undoStack, e ∈ a.undoStack ∨ s.clock < e.stamp ∧ e.stamp ≤ c)
    (hredo : ∀ e ∈ b.redoStack, e.stamp ≤ c) : (s.put i b c).Ordered := by
  have hmem : a ∈ s.docs := List.mem_of_getElem? hget
  refine ⟨fun d hd => ?_, fun j k d d' hj hk e he e' he' heq => ?_, ?_, fun d hd e he => ?_⟩
  · rw [docs_put] at hd
    rcases List.mem_or_eq_of_mem_set hd with hd | rfl
    · exact h.falling d hd
    · exact hfall
  · -- an entry of another document is an old one
    have hold : ∀ {j k d d'}, (s.put i b c).docs[j]? = some d → (s.put i b c).docs[k]? = some d' →
        ∀ e ∈ d.undoStack, ∀ e' ∈ d'.undoStack, e.stamp = e'.stamp → i = j → j = k := by
      intro j k d d' hj hk e he e' he' heq hij
      subst hij
      by_contra hne
      rw [getElem?_put hget] at hj
      rw [getElem?_put_ne hne] at hk
      obtain rfl := Option.some.inj hj
      rcases hown e he with hin | ⟨hnew, -⟩
      · exact hne (h.apart i k a d' hget hk e hin e' he' heq)
      · exact absurd (h.stamped d' (List.mem_of_getElem? hk) e' he') (by omega)
    by_cases hij : i = j
    · exact hold hj hk e he e' he' heq hij
    · by_cases hik : i = k
      · exact (hold hk hj e' he' e he heq.symm hik).symm
      · rw [getElem?_put_ne hij] at hj
        rw [getElem?_put_ne hik] at hk
        exact h.apart j k d d' hj hk e he e' he' heq
  · refine h.stamped.put hc fun e he => ?_
    rcases hown e he with hin | ⟨-, hle⟩
    · exact (h.stamped a hmem e hin).trans hc
    · exact hle
  · rw [docs_put] at hd
    rcases List.mem_or_eq_of_mem_set hd with hd | rfl
    · exact (h.redoStamped d hd e he).trans hc
    · exact hredo e he

/-- A new entry on top. -/
theorem falling_cons {es : List StampedEntry} {clock : ℕ} (h : DocApp.Falling es)
    (hle : ∀ e ∈ es, e.stamp ≤ clock) (he : e.stamp = clock + 1) : DocApp.Falling (e :: es) :=
  List.pairwise_cons.2 ⟨fun e' he' => by rw [he]; exact Nat.lt_succ_of_le (hle e' he'), h⟩

theorem Ordered.prune (h : s.Ordered) : (s.pruneDeadForeignRefs u).Ordered := by
  by_cases hdead : s.deadForeignRefs = []
  · rw [prune_of_nil hdead]
    exact h
  · obtain ⟨after, -, -, heq⟩ := prune_of_ne (u := u) hdead
    have hhome : s.home ∈ s.docs := List.mem_cons_self
    rw [heq]
    refine h.put (i := 0) (a := s.home) (b := ⟨s.home.docId, _, _, _, _⟩) rfl (Nat.le_succ _)
      (falling_cons (h.falling _ hhome) (h.stamped _ hhome) rfl) (fun e he => ?_) (fun e he => ?_)
    · rcases List.mem_cons.1 he with rfl | he
      · exact .inr ⟨Nat.lt_succ_self _, Nat.le_refl _⟩
      · exact .inl he
    · cases he

theorem Ordered.endNotesSession (h : s.Ordered) (hget : s.docs[i]? = some a) :
    (s.put i (a.endNotesSession s.clock).1 (a.endNotesSession s.clock).2).Ordered := by
  have hmem : a ∈ s.docs := List.mem_of_getElem? hget
  unfold DocApp.endNotesSession
  split
  · exact h.put hget (Nat.le_refl _) (h.falling a hmem) (fun e he => .inl he)
      (h.redoStamped a hmem)
  · split
    · exact h.put hget (Nat.le_refl _) (h.falling a hmem) (fun e he => .inl he)
        (h.redoStamped a hmem)
    · split
      · exact h.put hget (Nat.le_refl _) (h.falling a hmem) (fun e he => .inl he)
          (h.redoStamped a hmem)
      · refine h.put hget (Nat.le_succ _) (falling_cons (h.falling a hmem) (h.stamped a hmem) rfl)
          (fun e he => ?_) (fun e he => by cases he)
        rcases List.mem_cons.1 he with rfl | he
        · exact .inr ⟨Nat.lt_succ_self _, Nat.le_refl _⟩
        · exact .inl he

/-! ## One call -/

/-- The layer once the chosen document has ended its notes session. -/
def ended (s : DocsLayer) : DocsLayer :=
  match s.newest with
  | none => s
  | some (i, a) => s.put i (a.endNotesSession s.clock).1 (a.endNotesSession s.clock).2

/-- The flush after an entry was taken back, and the entry put on the redo stack. -/
def finish (um : UndoManager Pins) (s : DocsLayer) (i : ℕ) (r : DocApp × UndoEntry) : DocsLayer :=
  let t := (s.put i r.1 s.clock).pruneDeadForeignRefs um
  match t.docs[i]? with
  | none => t
  | some a =>
    t.put i { a with redoStack := ⟨r.2, t.clock + 1⟩ :: a.redoStack } (t.clock + 1)

theorem ended_eq (hnew : s.newest = some (i, a)) :
    s.ended = s.put i (a.endNotesSession s.clock).1 (a.endNotesSession s.clock).2 := by
  rw [ended, hnew]

theorem ended_get (hnew : s.newest = some (i, a)) :
    s.ended.docs[i]? = some (a.endNotesSession s.clock).1 := by
  rw [ended_eq hnew, getElem?_put (newest_eq_some hnew).1]

theorem Ordered.ended (h : s.Ordered) : s.ended.Ordered := by
  cases hnew : s.newest with
  | none =>
    rw [DocsLayer.ended, hnew]
    exact h
  | some q =>
    rw [ended_eq (i := q.1) (a := q.2) hnew]
    exact h.endNotesSession (newest_eq_some (i := q.1) (a := q.2) hnew).1

theorem core_endNotesSession (a : DocApp) (clock : ℕ) :
    (a.endNotesSession clock).1.core = a.core := by
  unfold DocApp.endNotesSession
  split
  · rfl
  · split
    · rfl
    · split <;> rfl

theorem cores_put {c : ℕ} (hget : s.docs[i]? = some a) (hcore : b.core = a.core) :
    (s.put i b c).docs.map DocApp.core = s.docs.map DocApp.core := by
  rw [docs_put]
  exact map_set_same DocApp.core hget hcore

/-- **What one call does**, in an ordered state. -/
theorem undo_spec (h : s.Ordered) (hnew : s.newest = some (i, a)) :
    (s.undo u).2 = false ∧ (s.undo u).1.docs.map DocApp.core = s.docs.map DocApp.core ∧
        (∀ e, (a.endNotesSession s.clock).1.nextEntry = some e →
          ¬(a.endNotesSession s.clock).1.Revertible e.toUndoEntry) ∨
      ∃ pre e rest, (a.endNotesSession s.clock).1.undoStack = pre ++ e :: rest ∧
        (a.endNotesSession s.clock).1.nextEntry = some e ∧
        (a.endNotesSession s.clock).1.Revertible e.toUndoEntry ∧
        (∀ e' ∈ pre, ¬(a.endNotesSession s.clock).1.Revertible e'.toUndoEntry) ∧
        s.undo u = (s.ended.finish u i
          ({ (a.endNotesSession s.clock).1 with undoStack := rest }.revertEntry e.toUndoEntry),
          true) := by
  have hget := (newest_eq_some hnew).1
  have hfall := h.ended.falling _ (List.mem_of_getElem? (ended_get hnew))
  have hend : a.endNotesSession s.clock =
      ((a.endNotesSession s.clock).1, (a.endNotesSession s.clock).2) := rfl
  have hput : ∀ b d, s.ended.put i b d = s.put i b d := fun b d => by
    rw [ended_eq hnew, put_put]
  have hclock : s.ended.clock = (a.endNotesSession s.clock).2 := by rw [ended_eq hnew]; rfl
  rcases DocApp.takeEntry_falling _ hfall with
    ⟨hcore, hnone, hstuck⟩ | ⟨pre, e, rest, hes, hnext, hrev, hpre, htake⟩
  · have hundo := undo_of_none (u := u) hnew hend (Prod.ext rfl hnone)
    refine .inl ⟨by rw [hundo], ?_, hstuck⟩
    rw [hundo]
    exact cores_put hget (hcore.trans (core_endNotesSession a _))
  · refine .inr ⟨pre, e, rest, hes, hnext, hrev, hpre, ?_⟩
    rw [undo, hnew]
    dsimp only
    rw [htake, finish, hput]
    exact hclock ▸ rfl

/-! ## The newest entry is taken back -/

/-- The newest entry of all that can be taken back. -/
structure Latest (s : DocsLayer) (i : ℕ) (a : DocApp) (e : StampedEntry) : Prop where
  get : s.docs[i]? = some a
  mem : e ∈ a.undoStack
  revertible : a.Revertible e.toUndoEntry
  newest : ∀ (j : ℕ) (b : DocApp) (e' : StampedEntry), s.docs[j]? = some b → e' ∈ b.undoStack →
    b.Revertible e'.toUndoEntry → e'.stamp ≤ e.stamp

/-- The call takes the entry `e` of the document back: the entries before it cannot be taken back,
and are dropped. -/
def Reverts (u : UndoManager Pins) (s : DocsLayer) (i : ℕ) (a : DocApp) (e : StampedEntry) :
    Prop :=
  ∃ pre rest, a.undoStack = pre ++ e :: rest ∧ (∀ e' ∈ pre, ¬a.Revertible e'.toUndoEntry) ∧
    s.undo u = (s.ended.finish u i ({ a with undoStack := rest }.revertEntry e.toUndoEntry), true)

/-- `undo()` takes back the newest action that can still be taken back among all documents, and
does nothing when there is none. -/
def UndoesNewest (u : UndoManager Pins) (s : DocsLayer) : Prop :=
  (∀ i a e, s.ended.Latest i a e → s.Reverts u i a e) ∧
    ((∀ i a e, ¬s.ended.Latest i a e) → (s.undo u).2 = false ∧
      (s.undo u).1.docs.map DocApp.core = s.docs.map DocApp.core)

/-- The document whose latest entry is the newest comes to an entry that it can take back, and no
entry of another document that can be taken back is newer. -/
def InOrder (s : DocsLayer) : Prop := ∀ i a, s.newest = some (i, a) →
  ∀ (j : ℕ) (b : DocApp) (e' : StampedEntry), s.ended.docs[j]? = some b → e' ∈ b.undoStack →
    b.Revertible e'.toUndoEntry →
      ∃ e, (a.endNotesSession s.clock).1.nextEntry = some e ∧
        (a.endNotesSession s.clock).1.Revertible e.toUndoEntry ∧ e'.stamp ≤ e.stamp

/-- There is a newest one among the entries that can be taken back. -/
theorem exists_latest (h : s.Ordered) {j : ℕ} (hget : s.docs[j]? = some b) (hmem : e ∈ b.undoStack)
    (hrev : b.Revertible e.toUndoEntry) : ∃ i a e', s.Latest i a e' ∧ e.stamp ≤ e'.stamp := by
  -- by the distance to the clock
  induction hk : s.clock - e.stamp using Nat.strong_induction_on generalizing j b e with
  | _ k ih =>
    by_cases hnewest : ∀ (j : ℕ) (b : DocApp) (e' : StampedEntry), s.docs[j]? = some b →
        e' ∈ b.undoStack → b.Revertible e'.toUndoEntry → e'.stamp ≤ e.stamp
    · exact ⟨j, b, e, ⟨hget, hmem, hrev, hnewest⟩, Nat.le_refl _⟩
    · push Not at hnewest
      obtain ⟨j', b', e', hget', hmem', hrev', hlt⟩ := hnewest
      have hle := h.stamped b' (List.mem_of_getElem? hget') e' hmem'
      obtain ⟨i, a, e'', hlatest, hge⟩ :=
        ih (s.clock - e'.stamp) (by omega) hget' hmem' hrev' rfl
      exact ⟨i, a, e'', hlatest, hlt.le.trans hge⟩

/-- What the flush leaves of the stacks. -/
theorem finish_get {j : ℕ} {d : DocApp} (r : DocApp × UndoEntry)
    (hget : (s.put i r.1 s.clock).docs[j]? = some d) :
    ∃ d', (s.finish u i r).docs[j]? = some d' ∧ d.undoStack ⊆ d'.undoStack ∧
      ∀ e ∈ d'.undoStack, e ∈ d.undoStack ∨ e.stamp = s.clock + 1 := by
  -- the effect puts an entry of its own on the stack of the home document
  have hprune : ∃ d', ((s.put i r.1 s.clock).pruneDeadForeignRefs u).docs[j]? = some d' ∧
      d.undoStack ⊆ d'.undoStack ∧
      ∀ e ∈ d'.undoStack, e ∈ d.undoStack ∨ e.stamp = s.clock + 1 := by
    by_cases hdead : (s.put i r.1 s.clock).deadForeignRefs = []
    · rw [prune_of_nil hdead]
      exact ⟨d, hget, fun e he => he, fun e he => .inl he⟩
    · obtain ⟨after, -, -, heq⟩ := prune_of_ne (u := u) hdead
      rw [heq]
      cases j with
      | zero =>
        obtain rfl := Option.some.inj hget
        refine ⟨_, rfl, fun e he => List.mem_cons_of_mem _ he, fun e he => ?_⟩
        rcases List.mem_cons.1 he with rfl | he
        · exact .inr rfl
        · exact .inl he
      | succ j => exact ⟨d, hget, fun e he => he, fun e he => .inl he⟩
  obtain ⟨d', hget', hsub, hnew⟩ := hprune
  rw [finish]
  cases hdoc : ((s.put i r.1 s.clock).pruneDeadForeignRefs u).docs[i]? with
  | none => exact ⟨d', hget', hsub, hnew⟩
  | some a =>
    dsimp only
    by_cases hij : i = j
    · subst hij
      obtain rfl := Option.some.inj (hdoc.symm.trans hget')
      exact ⟨_, getElem?_put hdoc, hsub, hnew⟩
    · exact ⟨d', by rw [getElem?_put_ne hij]; exact hget', hsub, hnew⟩

/-- A call takes one entry back at most. -/
theorem reverts_unique (h : s.Ordered) {j : ℕ} {e' : StampedEntry}
    (hget : s.ended.docs[i]? = some a) (hget' : s.ended.docs[j]? = some b)
    (hrev : a.Revertible e.toUndoEntry) (hrev' : b.Revertible e'.toUndoEntry)
    (hreverts : s.Reverts u i a e) (hreverts' : s.Reverts u j b e') : e = e' := by
  obtain ⟨pre, rest, hes, hpre, hundo⟩ := hreverts
  obtain ⟨pre', rest', hes', hpre', hundo'⟩ := hreverts'
  have hord := h.ended
  have hmem : e ∈ a.undoStack := by rw [hes]; simp
  by_cases hij : i = j
  · -- both are the first one that can be taken back
    subst hij
    obtain rfl := Option.some.inj (hget.symm.trans hget')
    rw [hes] at hes'
    rcases List.append_eq_append_iff.1 hes' with ⟨c, rfl, hc⟩ | ⟨c, rfl, hc⟩
    · cases c with
      | nil => exact (List.cons.inj hc).1
      | cons x c =>
        obtain ⟨rfl, -⟩ := List.cons.inj hc
        exact absurd hrev (hpre' e (by simp))
    · cases c with
      | nil => exact (List.cons.inj hc).1.symm
      | cons x c =>
        obtain ⟨rfl, -⟩ := List.cons.inj hc
        exact absurd hrev' (hpre e' (by simp))
  · -- the entry is gone from its stack, and is still there
    exfalso
    obtain ⟨d, hd, -, hnew⟩ := finish_get (u := u)
      ({ a with undoStack := rest }.revertEntry e.toUndoEntry) (getElem?_put hget)
    obtain ⟨d', hd', hsub, -⟩ := finish_get (u := u) (d := a)
      ({ b with undoStack := rest' }.revertEntry e'.toUndoEntry)
      (by rw [getElem?_put_ne (Ne.symm hij)]; exact hget)
    have hsame := (Prod.mk.inj (hundo.symm.trans hundo')).1
    rw [hsame] at hd
    obtain rfl := Option.some.inj (hd.symm.trans hd')
    rcases hnew e (hsub hmem) with hin | hstamp
    · rw [(DocApp.revertEntry_keeps _ _).2] at hin
      have hfall := hord.falling a (List.mem_of_getElem? hget)
      rw [hes] at hfall
      exact hfall.split.2 hin
    · exact absurd (hord.stamped a (List.mem_of_getElem? hget) e hmem) (by omega)

/-- **Undo takes the newest entry back** exactly where the chosen document comes to it. -/
theorem undoesNewest_iff (h : s.Ordered) : s.UndoesNewest u ↔ s.InOrder := by
  have hord := h.ended
  constructor
  · intro hundoes i a hnew j b e' hget hmem hrev
    obtain ⟨i', a', e', hlatest, hle⟩ := exists_latest hord hget hmem hrev
    have hreverts := hundoes.1 i' a' e' hlatest
    rcases undo_spec (u := u) h hnew with ⟨hfalse, -, -⟩ | ⟨pre, e, rest, hes, hnext, hrev', hpre, heq⟩
    · obtain ⟨_, _, _, _, htrue⟩ := hreverts
      rw [htrue] at hfalse
      cases hfalse
    · have hsame := reverts_unique h (ended_get hnew) hlatest.get hrev' hlatest.revertible
        ⟨pre, rest, hes, hpre, heq⟩ hreverts
      exact ⟨e, hnext, hrev', hsame ▸ hle⟩
  · intro hin
    cases hnew : s.newest with
    | none =>
      have hsame : s.ended = s := by rw [DocsLayer.ended, hnew]
      have hundo : s.undo u = (s, false) := by rw [undo, hnew]
      refine ⟨fun j b e' hlatest => ?_, fun _ => by rw [hundo]; exact ⟨rfl, rfl⟩⟩
      have hget := hlatest.get
      rw [hsame] at hget
      have hcan : s.canUndo = true := List.any_eq_true.2
        ⟨b, List.mem_of_getElem? hget, canUndo_iff.2 (List.ne_nil_of_mem hlatest.mem)⟩
      obtain ⟨i, a, hsome⟩ := newest_of_canUndo hcan
      rw [hnew] at hsome
      cases hsome
    | some q =>
      obtain ⟨i, a⟩ := q
      have hget := ended_get hnew
      rcases undo_spec (u := u) h hnew with
        ⟨hfalse, hcores, hstuck⟩ | ⟨pre, e, rest, hes, hnext, hrev, hpre, heq⟩
      · refine ⟨fun j b e' hlatest => ?_, fun _ => ⟨hfalse, hcores⟩⟩
        obtain ⟨e, hnext, hrev, -⟩ :=
          hin i a hnew j b e' hlatest.get hlatest.mem hlatest.revertible
        exact absurd hrev (hstuck e hnext)
      · have hmem : e ∈ (a.endNotesSession s.clock).1.undoStack := by rw [hes]; simp
        refine ⟨fun j b e' hlatest => ?_, fun hnone => ?_⟩
        · obtain ⟨e₁, hnext₁, -, hle⟩ :=
            hin i a hnew j b e' hlatest.get hlatest.mem hlatest.revertible
          obtain rfl := Option.some.inj (hnext.symm.trans hnext₁)
          have hstamp := Nat.le_antisymm hle (hlatest.newest i _ e hget hmem hrev)
          obtain rfl := hord.apart j i b _ hlatest.get hget e' hlatest.mem e hmem hstamp
          obtain rfl := Option.some.inj (hlatest.get.symm.trans hget)
          obtain rfl := (hord.falling _ (List.mem_of_getElem? hget)).eq_of_stamp hlatest.mem hmem
            hstamp
          exact ⟨pre, rest, hes, hpre, heq⟩
        · obtain ⟨j, b, e', hlatest, -⟩ := exists_latest hord hget hmem hrev
          exact absurd hlatest (hnone j b e')

/-- The chosen document has the highest stamp. -/
theorem newest_stamp (hnew : s.newest = some (i, a)) (hb : b ∈ s.docs)
    (hcan : b.undoStack ≠ []) : b.topUndoStamp ≤ a.topUndoStamp := by
  have hhighest : ∀ (n : ℕ) (as : List DocApp) (best : Option (ℕ × ℕ)) (q : ℕ × ℕ),
      latestFrom n as best = some q → (∀ p, best = some p → p.2 ≤ q.2) ∧
        ∀ a ∈ as, a.canUndo = true → a.topUndoStamp ≤ q.2 := by
    intro n as best q hq
    induction as generalizing n best with
    | nil => exact ⟨fun p hp => by rw [latestFrom, hp] at hq; rw [Option.some.inj hq],
        fun a ha => by cases ha⟩
    | cons c as ih =>
      obtain ⟨hbest, hrest⟩ := ih (n + 1) _ hq
      by_cases hnewer : (c.canUndo && best.all fun b => decide (b.2 < c.topUndoStamp)) = true
      · rw [if_pos hnewer] at hbest
        have hc : c.topUndoStamp ≤ q.2 := hbest _ rfl
        rw [Bool.and_eq_true] at hnewer
        refine ⟨fun p hp => ?_, fun a ha hcan => ?_⟩
        · have hlt := hnewer.2
          rw [hp, Option.all_some, decide_eq_true_eq] at hlt
          exact hlt.le.trans hc
        · rcases List.mem_cons.1 ha with rfl | ha
          · exact hc
          · exact hrest a ha hcan
      · rw [if_neg hnewer] at hbest
        refine ⟨hbest, fun a ha hcan => ?_⟩
        rcases List.mem_cons.1 ha with rfl | ha
        · cases hp : best with
          | none =>
            rw [hcan, hp] at hnewer
            exact absurd rfl hnewer
          | some p =>
            rw [hcan, hp, Bool.true_and, Option.all_some, decide_eq_true_eq] at hnewer
            exact (Nat.le_of_not_lt hnewer).trans (hbest p hp)
        · exact hrest a ha hcan
  obtain ⟨j, hj, hget⟩ := Option.bind_eq_some_iff.1 hnew
  obtain ⟨c, hc, heq⟩ := Option.map_eq_some_iff.1 hget
  obtain ⟨rfl, rfl⟩ := Prod.mk.inj heq
  obtain ⟨q, hq, rfl⟩ := Option.map_eq_some_iff.1 hj
  rcases latestFrom_eq_some hq with hnone | ⟨k, d, hd, hk, -, hstamp⟩
  · cases hnone
  · rw [hk, Nat.zero_add] at hc
    obtain rfl := Option.some.inj (hd.symm.trans hc)
    rw [← hstamp]
    exact (hhighest 0 s.docs none q hq).2 b hb (canUndo_iff.2 hcan)

/-- The order can only be lost where the latest entry of all can no longer be taken back. -/
theorem inOrder_of_revertible (h : s.Ordered) (hnew : s.newest = some (i, a))
    {es : List StampedEntry} (hes : (a.endNotesSession s.clock).1.undoStack = e :: es)
    (hrev : (a.endNotesSession s.clock).1.Revertible e.toUndoEntry) : s.InOrder := by
  intro i' a' hnew' j b e' hget hmem hrev'
  obtain ⟨rfl, rfl⟩ := Prod.mk.inj (Option.some.inj (hnew.symm.trans hnew'))
  refine ⟨e, ?_, hrev, ?_⟩
  · rw [DocApp.nextEntry, hes]
    exact List.find?_cons_of_pos hrev.takesEffect
  · have hget₁ := ended_get hnew
    by_cases hij : i = j
    · subst hij
      obtain rfl := Option.some.inj (hget₁.symm.trans hget)
      have hfall := h.ended.falling _ (List.mem_of_getElem? hget₁)
      have hle := hfall.le_top hmem
      rw [DocApp.topUndoStamp, hes] at hle
      exact hle
    · rw [ended_eq hnew, getElem?_put_ne hij] at hget
      have hb := List.mem_of_getElem? hget
      by_cases hsettled : a.Settled
      · have hstack := (DocApp.endNotesSession_settled hsettled s.clock).2.2.2.1
        have htop : a.topUndoStamp = e.stamp := by rw [DocApp.topUndoStamp, ← hstack, hes]; rfl
        exact ((h.falling b hb).le_top hmem).trans
          ((newest_stamp hnew hb (List.ne_nil_of_mem hmem)).trans_eq htop)
      · obtain ⟨-, e₁, -, hstamp, hstack, -⟩ := DocApp.endNotesSession_unsettled hsettled s.clock
        obtain rfl : e₁ = e := (List.cons.inj (hstack.symm.trans hes)).1
        rw [hstamp]
        exact Nat.le_succ_of_le (h.stamped b hb e' hmem)

end DocsLayer

/-! ## Putting back what was taken back -/

/-- The undo manager puts so many steps again once it has taken them back, and takes them back
without a change to the notes of an item that stays. -/
def Core.Returns {β : Type*} (n : ℕ) (c : Core β) : Prop :=
  times redoOne (times undoOne n c).2 (times undoOne n c).1 = (c, (times undoOne n c).2) ∧
    ∀ id text text', c.doc.notes id = some text →
      (times undoOne n c).1.doc.notes id = some text' → text' = text

/-- The steps of local changes are put again. -/
theorem Core.returns_of_leadsBack {β : Type*} {ps : List (UndoSpan β)} {x y : Projection β}
    (h : LeadsBack ps x y) (us rs : List (UndoSpan β))
    (hnotes : ∀ id text text', x.notes id = some text → y.notes id = some text' → text' = text) :
    Core.Returns ps.length ⟨x, ps ++ us, rs⟩ := by
  rw [Core.Returns, undo_times h]
  exact ⟨redo_times h us rs, hnotes⟩

namespace DocApp

variable {a b : DocApp} {e : UndoEntry}

/-- The notes steps of the entry that stand name different items, and each item still holds the
step's own part in its place. -/
structure Undisturbed (a : DocApp) (e : UndoEntry) : Prop where
  nodup : (e.notes.map NotesStep.id).Nodup
  intact : ∀ n ∈ e.notes, n.after ≠ n.before → ∀ text, a.core.doc.notes n.id = some text →
    (a.applyNotesStep n.id n.after n.before).2 = true → Intact n.after text n.before

theorem applyNotesStep_redoStack (a : DocApp) (id : String) (old new : List Char) :
    (a.applyNotesStep id old new).1.redoStack = a.redoStack := by
  unfold applyNotesStep
  split
  · rfl
  · split <;> rfl

theorem revertNotes_redoStack (ns : List NotesStep) (a : DocApp) :
    (a.revertNotes ns).1.redoStack = a.redoStack := by
  induction ns generalizing a with
  | nil => rfl
  | cons n ns ih => exact (ih _).trans (a.applyNotesStep_redoStack n.id n.after n.before)

/-- What a notes step does to the core. -/
theorem applyNotesStep_cases (a : DocApp) (id : String) (old new : List Char) :
    old = new ∧ a.applyNotesStep id old new = (a, true) ∨
      old ≠ new ∧ ∃ ops, diffToDelta (units old) (units new) = some ops ∧
        (a.applyNotesStep id old new = (a, false) ∨
          ∃ text text', a.core.doc.notes id = some text ∧
            applyNotesDelta text (ops.map (DeltaOp.decoded fromUtf16Lossy)) = some text' ∧
            (a.applyNotesStep id old new).2 = true ∧
            (a.applyNotesStep id old new).1.core =
              { a.core with doc := a.core.doc.setNotes id text' }) := by
  by_cases hsame : old = new
  · refine .inl ⟨hsame, ?_⟩
    have hnone : diffToDelta (units old) (units new) = none := if_pos (by rw [hsame])
    rw [applyNotesStep, hnone]
  · obtain ⟨ops, hops, -⟩ := diffToDelta_edits hsame
    refine .inr ⟨hsame, ops, hops, ?_⟩
    cases happly : a.core.applyNotes id ops with
    | none =>
      refine .inl ?_
      rw [applyNotesStep, hops]
      dsimp only
      rw [happly]
    | some core =>
      obtain ⟨text, htext, hcore⟩ := Option.bind_eq_some_iff.1 happly
      obtain ⟨text', htext', rfl⟩ := Option.map_eq_some_iff.1 hcore
      refine .inr ⟨text, text', htext, htext', ?_⟩
      rw [applyNotesStep, hops]
      dsimp only
      rw [happly]
      exact ⟨rfl, rfl⟩

/-- A write to other notes changes nothing for a step. -/
theorem applyNotesStep_setNotes {id id' : String} (hne : id ≠ id') {text : List Char}
    (h : b.core = { a.core with doc := a.core.doc.setNotes id text }) (old new : List Char) :
    (b.applyNotesStep id' old new).1.core = { (a.applyNotesStep id' old new).1.core with
        doc := (a.applyNotesStep id' old new).1.core.doc.setNotes id text } ∧
      (b.applyNotesStep id' old new).2 = (a.applyNotesStep id' old new).2 := by
  have hnotes : b.core.doc.notes id' = a.core.doc.notes id' := by
    rw [h]
    exact Function.update_of_ne (Ne.symm hne) _ _
  unfold applyNotesStep
  cases diffToDelta (units old) (units new) with
  | none => exact ⟨h, rfl⟩
  | some ops =>
    dsimp only
    rw [Core.applyNotes, Core.applyNotes, hnotes]
    cases a.core.doc.notes id' with
    | none => exact ⟨h, rfl⟩
    | some current =>
      dsimp only [Option.bind_some]
      cases applyNotesDelta current (ops.map (DeltaOp.decoded fromUtf16Lossy)) with
      | none => exact ⟨h, rfl⟩
      | some text' =>
        dsimp only [Option.map_some]
        refine ⟨?_, rfl⟩
        rw [h]
        dsimp only [Projection.setNotes]
        rw [Function.update_comm hne]

theorem revertNotes_setNotes {id : String} {text : List Char} {ns : List NotesStep}
    (hid : id ∉ ns.map NotesStep.id)
    (h : b.core = { a.core with doc := a.core.doc.setNotes id text }) :
    (b.revertNotes ns).1.core = { (a.revertNotes ns).1.core with
        doc := (a.revertNotes ns).1.core.doc.setNotes id text } ∧
      (b.revertNotes ns).2 = (a.revertNotes ns).2 := by
  induction ns generalizing a b with
  | nil => exact ⟨h, rfl⟩
  | cons n ns ih =>
    rw [List.map_cons, List.mem_cons, not_or] at hid
    obtain ⟨hcore, hstands⟩ := applyNotesStep_setNotes hid.1 h n.after n.before
    obtain ⟨hcore', hrest⟩ := ih hid.2 hcore
    refine ⟨hcore', ?_⟩
    rw [revertNotes, revertNotes]
    dsimp only
    rw [hstands, hrest]

/-- Other notes stay as they are. -/
theorem applyNotesStep_other {id id' : String} (hne : id ≠ id') (old new : List Char) :
    (a.applyNotesStep id' old new).1.core.doc.notes id = a.core.doc.notes id := by
  rcases a.applyNotesStep_cases id' old new with ⟨-, h⟩ | ⟨-, ops, -, h | ⟨_, _, -, -, -, h⟩⟩
  · rw [h]
  · rw [h]
  · rw [h]
    exact Function.update_of_ne hne _ _

theorem revertNotes_other {id : String} {ns : List NotesStep} (hid : id ∉ ns.map NotesStep.id) :
    (a.revertNotes ns).1.core.doc.notes id = a.core.doc.notes id := by
  induction ns generalizing a with
  | nil => rfl
  | cons n ns ih =>
    rw [List.map_cons, List.mem_cons, not_or] at hid
    exact (ih hid.2).trans (applyNotesStep_other hid.1 _ _)

theorem Undisturbed.tail {n : NotesStep} {ns : List NotesStep} {k : ℕ}
    (h : a.Undisturbed ⟨k, n :: ns⟩) : a.Undisturbed ⟨k, ns⟩ :=
  ⟨(List.nodup_cons.1 h.nodup).2, fun m hm => h.intact m (List.mem_cons_of_mem _ hm)⟩

/-- **Notes that were taken back are put again.** -/
theorem reapply_revertNotes {ns : List NotesStep} {k : ℕ} (h : a.Undisturbed ⟨k, ns⟩)
    (hb : b.core = (a.revertNotes ns).1.core) :
    (b.reapplyNotes (a.revertNotes ns).2).1.core = a.core ∧
      (b.reapplyNotes (a.revertNotes ns).2).2 = (a.revertNotes ns).2 := by
  induction ns generalizing b with
  | nil => exact ⟨hb, rfl⟩
  | cons n ns ih =>
    have hid := (List.nodup_cons.1 h.nodup).1
    rw [revertNotes] at hb ⊢
    dsimp only at hb ⊢
    rcases a.applyNotesStep_cases n.id n.after n.before with
      ⟨heq, hstep⟩ | ⟨hne, ops, hops, hstep | ⟨text, text', htext, happly, hstands, hcore⟩⟩
    · -- a step that changes nothing stands both ways
      rw [hstep] at hb ⊢
      dsimp only at hb ⊢
      obtain ⟨hcore, hrest⟩ := ih h.tail hb
      have hback : b.applyNotesStep n.id n.before n.after = (b, true) := by
        rw [applyNotesStep, show diffToDelta (units n.before) (units n.after) = none from
          if_pos (by rw [heq])]
      rw [if_pos rfl, reapplyNotes, hback]
      dsimp only
      exact ⟨hcore, by rw [if_pos rfl, hrest]⟩
    · rw [hstep] at hb ⊢
      exact ih h.tail hb
    · obtain ⟨hcore', hsame⟩ := revertNotes_setNotes hid hcore
      rw [hstands, if_pos rfl, hsame, reapplyNotes]
      dsimp only
      rw [hcore'] at hb
      -- the step finds what its taking back has left
      obtain ⟨ops₁, ops', text₁, hops₁, hops', happly₁, hback⟩ :=
        applyNotesDelta_intact hne (h.intact n List.mem_cons_self hne text htext hstands)
      obtain rfl := Option.some.inj (hops.symm.trans hops₁)
      obtain rfl := Option.some.inj (happly.symm.trans happly₁)
      have hbtext : b.core.doc.notes n.id = some text' := by
        rw [hb]
        exact Function.update_self _ _ _
      have hstep : (b.applyNotesStep n.id n.before n.after).2 = true ∧
          (b.applyNotesStep n.id n.before n.after).1.core = (a.revertNotes ns).1.core := by
        have hdone : b.core.applyNotes n.id ops' =
            some { b.core with doc := b.core.doc.setNotes n.id text } := by
          rw [Core.applyNotes, hbtext, Option.bind_some, hback, Option.map_some]
        rw [applyNotesStep, hops']
        dsimp only
        rw [hdone]
        refine ⟨rfl, ?_⟩
        rw [hb]
        dsimp only [Projection.setNotes]
        rw [Function.update_idem]
        have hown : (a.revertNotes ns).1.core.doc.notes n.id = some text :=
          (revertNotes_other hid).trans htext
        rw [← hown, Function.update_eq_self]
      obtain ⟨hcore₂, hrest⟩ := ih h.tail hstep.2
      exact ⟨hcore₂, by rw [hstep.1, if_pos rfl, hrest]⟩

/-- **An entry that was taken back is put again.** -/
theorem reapply_revertEntry (h : a.Undisturbed e)
    (hcore : (a.revertNotes e.notes).1.core.Returns e.steps)
    (hb : b.core = (a.revertEntry e).1.core) :
    (b.reapplyEntry (a.revertEntry e).2).1.core = a.core ∧
      (b.reapplyEntry (a.revertEntry e).2).2 = (a.revertEntry e).2 := by
  rw [revertEntry] at hb ⊢
  dsimp only at hb ⊢
  have hredo := hcore.1
  rw [← hb] at hredo
  rw [reapplyEntry]
  dsimp only
  rw [hredo]
  obtain ⟨hnotes, hstands⟩ := reapply_revertNotes (b := { b with
    core := (a.revertNotes e.notes).1.core }) h rfl
  exact ⟨hnotes, by rw [hstands]⟩

/-! ### What stays as it is -/

theorem docId_endNotesSession (a : DocApp) (clock : ℕ) :
    (a.endNotesSession clock).1.docId = a.docId := by
  unfold endNotesSession
  split
  · rfl
  · split
    · rfl
    · split <;> rfl

/-- `undoStep` takes entries off the stack only. -/
theorem takeEntry_keeps (a : DocApp) (h : Falling a.undoStack) :
    Falling (a.takeEntry a.undoStack).1.undoStack ∧
      (a.takeEntry a.undoStack).1.undoStack ⊆ a.undoStack ∧
      (a.takeEntry a.undoStack).1.redoStack = a.redoStack := by
  rcases takeEntry_cases a.undoStack a with ⟨-, htake⟩ | ⟨pre, e, rest, hes, -, hcases⟩
  · rw [htake]
    exact ⟨.nil, List.nil_subset _, rfl⟩
  · rw [hes] at h
    have hrest := (List.pairwise_append.1 h).2.1
    rcases hcases with ⟨-, -, -, htake⟩ | ⟨-, htake⟩
    · rw [htake, hes]
      exact ⟨hrest, List.subset_append_right _ _, rfl⟩
    · rw [htake, (revertEntry_keeps _ _).2, hes]
      exact ⟨hrest.of_cons, fun e' he' => by simp [he'],
        revertNotes_redoStack e.notes { a with undoStack := rest }⟩

/-! ### Sessions -/

/-- The item of the notes session is there, and its text is the one the session began with. -/
def Held (a : DocApp) : Prop := ∀ id base, a.notesSession = some (id, base) →
  a.core.doc.notes id = some base

theorem held_endNotesSession (a : DocApp) (clock : ℕ) : (a.endNotesSession clock).1.Held := by
  unfold endNotesSession
  split
  · rename_i hnone
    intro id base hsession
    rw [hnone] at hsession
    cases hsession
  · rename_i id base hsession
    split
    · intro id base hnone
      cases hnone
    · rename_i after hafter
      split
      · rename_i hsame
        intro id' base' hsession'
        rw [hsession, Option.some.injEq, Prod.mk.injEq] at hsession'
        obtain ⟨rfl, rfl⟩ := hsession'
        rw [hafter, hsame]
      · intro id' base' hsession'
        obtain ⟨rfl, rfl⟩ := Prod.mk.inj (Option.some.inj hsession')
        exact hafter

/-- A notes step takes the session's base along. -/
theorem Held.applyNotesStep (h : a.Held) (id : String) (old new : List Char) :
    (a.applyNotesStep id old new).1.Held := by
  unfold DocApp.applyNotesStep
  split
  · exact h
  · split
    · exact h
    · rename_i core hcore
      obtain ⟨current, -, hcore⟩ := Option.bind_eq_some_iff.1 hcore
      obtain ⟨current', -, rfl⟩ := Option.map_eq_some_iff.1 hcore
      intro id' base hsession
      obtain ⟨session, hold, hnew⟩ := Option.map_eq_some_iff.1 hsession
      dsimp only [Projection.setNotes] at hnew ⊢
      split at hnew
      · obtain ⟨rfl, rfl⟩ := Prod.mk.inj hnew
        rw [Function.update_self]
        rfl
      · rename_i hne
        obtain rfl : session = (id', base) := hnew
        rw [Function.update_of_ne hne]
        exact h id' base hold

theorem Held.revertNotes {ns : List NotesStep} (h : a.Held) : (a.revertNotes ns).1.Held := by
  induction ns generalizing a with
  | nil => exact h
  | cons n ns ih => exact ih (h.applyNotesStep n.id n.after n.before)

/-- Taking an entry back leaves the session settled. -/
theorem Held.revertEntry (h : a.Held)
    (hcore : (a.revertNotes e.notes).1.core.Returns e.steps) : (a.revertEntry e).1.Settled :=
  fun id base text hsession htext =>
    hcore.2 id base text (h.revertNotes id base hsession) htext

end DocApp

/-! ## Every redo -/

namespace DocApp

variable {a b : DocApp} {e : StampedEntry}

/-- What redo reads of a document. -/
def face (a : DocApp) : String × Core Pins × List StampedEntry := (a.docId, a.core, a.redoStack)

theorem reapplyNotes_keeps (ns : List NotesStep) (a : DocApp) :
    (a.reapplyNotes ns).1.docId = a.docId ∧ (a.reapplyNotes ns).1.redoStack = a.redoStack ∧
      (a.reapplyNotes ns).1.undoStack = a.undoStack := by
  induction ns generalizing a with
  | nil => exact ⟨rfl, rfl, rfl⟩
  | cons n ns ih =>
    obtain ⟨hview, hstack, -⟩ := a.applyNotesStep_keeps n.id n.before n.after
    have hredo := a.applyNotesStep_redoStack n.id n.before n.after
    obtain ⟨hid', hredo', hstack'⟩ := ih (a.applyNotesStep n.id n.before n.after).1
    exact ⟨hid'.trans (Prod.mk.inj hview).1, hredo'.trans hredo, hstack'.trans hstack⟩

theorem reapplyNotes_congr (h : a.core = b.core) (ns : List NotesStep) :
    (a.reapplyNotes ns).1.core = (b.reapplyNotes ns).1.core ∧
      (a.reapplyNotes ns).2 = (b.reapplyNotes ns).2 := by
  induction ns generalizing a b with
  | nil => exact ⟨h, rfl⟩
  | cons n ns ih =>
    obtain ⟨hcore, hstands⟩ := applyNotesStep_congr h n.id n.before n.after
    obtain ⟨hcore', hrest⟩ := ih hcore
    refine ⟨hcore', ?_⟩
    rw [reapplyNotes, reapplyNotes]
    dsimp only
    rw [hstands, hrest]

theorem reapplyEntry_congr (h : a.core = b.core) (e : UndoEntry) :
    (a.reapplyEntry e).1.core = (b.reapplyEntry e).1.core ∧
      (a.reapplyEntry e).2 = (b.reapplyEntry e).2 := by
  rw [reapplyEntry, reapplyEntry, h]
  obtain ⟨hcore, hstands⟩ := reapplyNotes_congr
    (a := { a with core := (Core.times Core.redoOne e.steps b.core).1 })
    (b := { b with core := (Core.times Core.redoOne e.steps b.core).1 }) rfl e.notes
  exact ⟨hcore, by rw [hstands]⟩

/-- Notes steps that are all rejected change nothing. -/
theorem reapplyNotes_of_nil {ns : List NotesStep} (h : (a.reapplyNotes ns).2 = []) :
    (a.reapplyNotes ns).1 = a := by
  induction ns generalizing a with
  | nil => rfl
  | cons n ns ih =>
    rw [reapplyNotes] at h ⊢
    dsimp only at h ⊢
    rcases a.applyNotesStep_cases n.id n.before n.after with
      ⟨-, hstep⟩ | ⟨-, ops, -, hstep | ⟨text, text', -, -, hstands, -⟩⟩
    · rw [hstep, if_pos rfl] at h
      cases h
    · rw [hstep] at h ⊢
      exact ih h
    · rw [hstands, if_pos rfl] at h
      cases h

/-- `redoStep` takes entries off the redo stack only. -/
theorem takeRedo_keeps (es : List StampedEntry) (a : DocApp) :
    (a.takeRedo es).1.docId = a.docId ∧ (a.takeRedo es).1.undoStack = a.undoStack ∧
      (a.takeRedo es).1.redoStack ⊆ es ∧
      ((a.takeRedo es).2 = none → (a.takeRedo es).1.core = a.core) := by
  induction es generalizing a with
  | nil => exact ⟨rfl, rfl, fun e he => he, fun _ => rfl⟩
  | cons e es ih =>
    obtain ⟨hid, hredo, hstack⟩ := reapplyNotes_keeps e.notes
      { a with core := (Core.times Core.redoOne e.steps a.core).1, redoStack := es }
    rw [takeRedo]
    dsimp only
    split
    · rename_i hnothing
      have hcore : ({ a with redoStack := es }.reapplyEntry e.toUndoEntry).1.core = a.core := by
        have hnotes := reapplyNotes_of_nil hnothing.2
        rw [reapplyEntry]
        dsimp only
        rw [hnotes]
        exact Core.times_of_zero hnothing.1
      split
      · exact ⟨hid, hstack, fun e he => he, fun _ => hcore⟩
      · obtain ⟨hid', hstack', hsub, hnone⟩ :=
          ih ({ a with redoStack := es }.reapplyEntry e.toUndoEntry).1
        exact ⟨hid'.trans hid, hstack'.trans hstack, List.Subset.trans hsub (List.subset_cons_self e es),
          fun h => (hnone h).trans hcore⟩
    · refine ⟨hid, hstack, ?_, fun h => by cases h⟩
      have hstack : ({ a with redoStack := es }.reapplyEntry e.toUndoEntry).1.redoStack = es := hredo
      rw [hstack]
      exact List.subset_cons_self e es

/-- The entry takes effect as a whole when it is put again. -/
def Redoable (a : DocApp) (e : UndoEntry) : Prop :=
  (a.reapplyEntry e).2 = e ∧ ¬(e.steps = 0 ∧ e.notes = [])

/-- **An entry that can be put again** is, off the redo stack. -/
theorem takeRedo_cons {rest : List StampedEntry} (h : a.Redoable e.toUndoEntry) :
    ∃ b, a.takeRedo (e :: rest) = (b, some e.toUndoEntry) ∧ b.face =
      (a.docId, (a.reapplyEntry e.toUndoEntry).1.core, rest) ∧ b.undoStack = a.undoStack := by
  obtain ⟨hback, hsome⟩ := h
  obtain ⟨hcore, hsame⟩ := reapplyEntry_congr (a := { a with redoStack := rest }) (b := a) rfl
    e.toUndoEntry
  obtain ⟨hid, hredo, hstack⟩ := reapplyNotes_keeps e.notes
    { a with core := (Core.times Core.redoOne e.steps a.core).1, redoStack := rest }
  refine ⟨({ a with redoStack := rest }.reapplyEntry e.toUndoEntry).1, ?_,
    congrArg₂ Prod.mk hid (congrArg₂ Prod.mk hcore hredo), hstack⟩
  rw [takeRedo]
  dsimp only
  rw [hsame, hback, if_neg hsome]

/-- An entry that was taken back from an undisturbed document can be put again. -/
theorem redoable_reverted {e : UndoEntry} (h : a.Undisturbed e) (hrev : a.Revertible e)
    (hcore : (a.revertNotes e.notes).1.core.Returns e.steps)
    (hb : b.core = (a.revertEntry e).1.core) :
    b.Redoable (a.revertEntry e).2 ∧ (b.reapplyEntry (a.revertEntry e).2).1.core = a.core :=
  ⟨⟨(reapply_revertEntry h hcore hb).2, hrev⟩, (reapply_revertEntry h hcore hb).1⟩

end DocApp

namespace DocsLayer

variable {s t : DocsLayer} {i : ℕ} {a b : DocApp} {e : StampedEntry}

/-- The document with the highest stamp is the latest. -/
theorem latestOf_highest {stamp : DocApp → ℕ} {can : DocApp → Bool} {n k : ℕ} {as : List DocApp}
    {best : Option (ℕ × ℕ)} (hget : as[k]? = some a) (hcan : can a = true)
    (hbest : ∀ q, best = some q → q.2 < stamp a)
    (h : ∀ j b, as[j]? = some b → j ≠ k → can b = true → stamp b < stamp a) :
    latestOf stamp can n as best = some (n + k, stamp a) := by
  have hstays : ∀ (m : ℕ) (bs : List DocApp) (q : ℕ × ℕ),
      (∀ b ∈ bs, can b = true → stamp b < q.2) → latestOf stamp can m bs (some q) = some q := by
    intro m bs q hlt
    induction bs generalizing m with
    | nil => rfl
    | cons b bs ih =>
      rw [latestOf, if_neg]
      · exact ih _ fun b' hb' => hlt b' (List.mem_cons_of_mem _ hb')
      · rw [Bool.and_eq_true, Option.all_some, decide_eq_true_eq]
        exact fun hnew => absurd (hlt b List.mem_cons_self hnew.1) (Nat.not_lt_of_lt hnew.2)
  induction as generalizing n k best with
  | nil => cases hget
  | cons b as ih =>
    rw [latestOf]
    cases k with
    | zero =>
      obtain rfl := Option.some.inj hget
      rw [if_pos]
      · refine hstays _ _ _ fun b' hb' hcan' => ?_
        obtain ⟨j, hj⟩ := List.getElem?_of_mem hb'
        exact h (j + 1) b' hj (Nat.succ_ne_zero j) hcan'
      · rw [hcan, Bool.true_and]
        cases best with
        | none => rfl
        | some q => exact decide_eq_true (hbest q rfl)
    | succ k =>
      have hbest' : ∀ q, (if (can b && best.all fun q => decide (q.2 < stamp b)) = true then
          some (n, stamp b) else best) = some q → q.2 < stamp a := by
        intro q hq
        split at hq
        · rename_i hnew
          obtain rfl := Option.some.inj hq
          rw [Bool.and_eq_true] at hnew
          exact h 0 b rfl (Nat.succ_ne_zero k).symm hnew.1
        · exact hbest q hq
      have hrest : latestOf stamp can (n + 1) as _ = some (n + 1 + k, stamp a) :=
        ih hget hbest' fun j b' hj hne => h (j + 1) b' hj (by omega)
      rw [hrest]
      exact congrArg some (Prod.ext (by omega) rfl)

/-- The document whose latest redo entry is the newest. -/
theorem newestRedo_eq {rest : List StampedEntry} (hget : s.docs[i]? = some a)
    (hstack : a.redoStack = e :: rest)
    (h : ∀ j b, s.docs[j]? = some b → j ≠ i → ∀ e' ∈ b.redoStack, e'.stamp < e.stamp) :
    s.newestRedo = some (i, a) := by
  have htop : a.topRedoStamp = e.stamp := by
    rw [DocApp.topRedoStamp, hstack]
    rfl
  have hlatest : latestOf DocApp.topRedoStamp DocApp.canRedo 0 s.docs none =
      some (0 + i, a.topRedoStamp) :=
    latestOf_highest hget (by rw [DocApp.canRedo, hstack]; rfl) (fun q hq => by cases hq)
    (fun j b hj hne hcan => by
      cases hredo : b.redoStack with
      | nil =>
        rw [DocApp.canRedo, hredo] at hcan
        cases hcan
      | cons e' es =>
        rw [DocApp.topRedoStamp, hredo, htop]
        exact h j b hj hne e' (hredo ▸ List.mem_cons_self))
  rw [newestRedo, hlatest, Nat.zero_add]
  dsimp only [Option.map_some, Option.bind_some]
  rw [hget]
  rfl

/-- So many redos go through the documents in this order and leave these cores. -/
def Backed (cores : List (Core Pins)) : List ℕ → DocsLayer → Prop
  | [], t => t.docs.map DocApp.core = cores
  | i :: is, t => ∃ a e rest, t.docs[i]? = some a ∧ a.redoStack = e :: rest ∧
      a.Redoable e.toUndoEntry ∧
      (∀ j b, t.docs[j]? = some b → j ≠ i → ∀ e' ∈ b.redoStack, e'.stamp < e.stamp) ∧
      let t' := t.setDoc i
        { a with core := (a.reapplyEntry e.toUndoEntry).1.core, redoStack := rest }
      t'.deadForeignRefs = [] ∧ Backed cores is t'

theorem Backed.congr {cores : List (Core Pins)} {is : List ℕ} (h : Backed cores is s)
    (hface : t.docs.map DocApp.face = s.docs.map DocApp.face) : Backed cores is t := by
  have hdoc : ∀ {s t : DocsLayer}, t.docs.map DocApp.face = s.docs.map DocApp.face →
      ∀ {j : ℕ} {a : DocApp}, s.docs[j]? = some a →
        ∃ b, t.docs[j]? = some b ∧ b.face = a.face := by
    intro s t hface j a hget
    have hget' : (t.docs.map DocApp.face)[j]? = some a.face := by
      rw [hface, List.getElem?_map, hget]
      rfl
    rw [List.getElem?_map] at hget'
    exact Option.map_eq_some_iff.1 hget'
  induction is generalizing s t with
  | nil =>
    have hcores := congrArg (List.map fun f : String × Core Pins × List StampedEntry => f.2.1) hface
    rw [List.map_map, List.map_map] at hcores
    exact hcores.trans h
  | cons i is ih =>
    obtain ⟨a, e, rest, hget, hstack, hredo, hnewest, hquiet, hback⟩ := h
    obtain ⟨b, hget', hb⟩ := hdoc hface hget
    obtain ⟨hid, hb⟩ := Prod.mk.inj hb
    obtain ⟨hcore, hstack'⟩ := Prod.mk.inj hb
    obtain ⟨hsame, hsame'⟩ := DocApp.reapplyEntry_congr hcore e.toUndoEntry
    have hset : (t.setDoc i { b with
        core := (b.reapplyEntry e.toUndoEntry).1.core, redoStack := rest }).docs.map DocApp.face =
        (s.setDoc i { a with
          core := (a.reapplyEntry e.toUndoEntry).1.core, redoStack := rest }).docs.map
            DocApp.face := by
      rw [docs_setDoc, docs_setDoc, List.map_set, List.map_set, hface, hsame]
      exact congrArg _ (congrArg₂ Prod.mk hid rfl)
    refine ⟨b, e, rest, hget', hstack'.trans hstack, ⟨hsame'.trans hredo.1, hredo.2⟩,
      fun j d hj hne e' he' => ?_, ?_, ih hback hset⟩
    · obtain ⟨d', hj', hd'⟩ := hdoc hface.symm hj
      have hstack'' := (Prod.mk.inj (Prod.mk.inj hd').2).2
      exact hnewest j d' hj' hne e' (hstack'' ▸ he')
    · have hview := congrArg (List.map fun f : String × Core Pins × List StampedEntry =>
        (f.1, f.2.1.doc.rest)) hset
      rw [List.map_map, List.map_map] at hview
      exact (deadForeignRefs_congr hview).trans hquiet

/-- Redo entries of a document that is not among these can go. -/
theorem Backed.drop {cores : List (Core Pins)} {is : List ℕ} (h : Backed cores is s)
    (hget : s.docs[i]? = some a) (hi : i ∉ is) :
    Backed cores is (s.setDoc i { a with redoStack := [] }) := by
  induction is generalizing s with
  | nil =>
    have hcores := cores_put (b := { a with redoStack := [] }) (c := s.clock) hget rfl
    exact hcores.trans h
  | cons j is ih =>
    rw [List.mem_cons, not_or] at hi
    obtain ⟨b, e, rest, hget', hstack, hredo, hnewest, hquiet, hback⟩ := h
    have hcomm : ∀ b', ((s.setDoc i { a with redoStack := [] }).setDoc j b').docs =
        ((s.setDoc j b').setDoc i { a with redoStack := [] }).docs := fun b' => by
      rw [docs_setDoc, docs_setDoc, docs_setDoc, docs_setDoc, List.set_comm _ _ hi.1]
    have hother : ∀ {k : ℕ} {d : DocApp}, (s.setDoc i { a with redoStack := [] }).docs[k]? = some d →
        i ≠ k → s.docs[k]? = some d := by
      intro k d hk hne
      rw [docs_setDoc, List.getElem?_set_ne hne] at hk
      exact hk
    have hget'' : (s.setDoc j { b with
        core := (b.reapplyEntry e.toUndoEntry).1.core, redoStack := rest }).docs[i]? = some a := by
      rw [docs_setDoc, List.getElem?_set_ne (Ne.symm hi.1)]
      exact hget
    refine ⟨b, e, rest, ?_, hstack, hredo, fun k d hk hne e' he' => ?_, ?_,
      (ih hback hget'' hi.2).congr (congrArg _ (hcomm _))⟩
    · rw [docs_setDoc, List.getElem?_set_ne hi.1]
      exact hget'
    · by_cases hik : i = k
      · subst hik
        rw [docs_setDoc, List.getElem?_set_self (List.getElem?_eq_some_iff.1 hget).1] at hk
        obtain rfl := Option.some.inj hk
        cases he'
      · exact hnewest k d (hother hk hik) hne e' he'
    · have hview := view_setDoc hget'' (b := { a with redoStack := [] }) rfl
      rw [deadForeignRefs_congr (congrArg _ (hcomm _)), deadForeignRefs_congr hview]
      exact hquiet

/-- **One redo** goes to the next document. -/
theorem redo_backed {cores : List (Core Pins)} {is : List ℕ} (h : Backed cores (i :: is) t) :
    (t.redo u).2 = true ∧ Backed cores is (t.redo u).1 := by
  obtain ⟨a, e, rest, hget, hstack, hredo, hnewest, hquiet, hback⟩ := h
  obtain ⟨b, htake, hface, -⟩ := DocApp.takeRedo_cons hredo
  have hput : ∀ d : DocApp, d.face = b.face → ∀ c, (t.put i d c).docs.map DocApp.face =
      (t.setDoc i { a with
        core := (a.reapplyEntry e.toUndoEntry).1.core, redoStack := rest }).docs.map
          DocApp.face := by
    intro d hd c
    rw [docs_put, docs_setDoc, List.map_set, List.map_set, hd, hface]
    rfl
  have hquiet' : (t.put i b t.clock).deadForeignRefs = [] := by
    have hview := congrArg (List.map fun f : String × Core Pins × List StampedEntry =>
      (f.1, f.2.1.doc.rest)) (hput b rfl t.clock)
    rw [List.map_map, List.map_map] at hview
    exact (deadForeignRefs_congr hview).trans hquiet
  rw [redo, newestRedo_eq hget hstack hnewest]
  dsimp only
  rw [hstack, htake]
  dsimp only
  rw [prune_of_nil hquiet', getElem?_put hget]
  refine ⟨rfl, hback.congr ?_⟩
  dsimp only
  rw [put_put]
  refine hput _ ?_ _
  rfl

/-- **As many redos.** -/
theorem rerun_backed {cores : List (Core Pins)} {is : List ℕ} (h : Backed cores is t) :
    (t.rerun u is.length).docs.map DocApp.core = cores := by
  induction is generalizing t with
  | nil => exact h
  | cons i is ih => exact ih (redo_backed (u := u) h).2

/-! ## Undone entries -/

/-- The next call takes an entry back that can be put again: its notes steps are undisturbed, the
undo manager puts its steps again, and no dead ref is left for the effect. -/
def Reversible (s : DocsLayer) : Prop := ∃ i a e, s.newest = some (i, a) ∧
  let a₁ := (a.endNotesSession s.clock).1
  a₁.nextEntry = some e ∧ a₁.Revertible e.toUndoEntry ∧ a₁.Undisturbed e.toUndoEntry ∧
    (a₁.revertNotes e.notes).1.core.Returns e.steps ∧
    (s.setDoc i (a₁.revertEntry e.toUndoEntry).1).deadForeignRefs = []

/-- The redos that lie ahead, with their documents' notes sessions settled. -/
structure Ahead (cores : List (Core Pins)) (is : List ℕ) (s : DocsLayer) : Prop where
  backed : Backed cores is s
  settled : ∀ i ∈ is, ∀ a, s.docs[i]? = some a → a.Settled

/-- What ending the notes session does to the redo stack. -/
theorem redoStack_endNotesSession (a : DocApp) (clock : ℕ) :
    (a.endNotesSession clock).1.redoStack = a.redoStack ∨
      ¬a.Settled ∧ (a.endNotesSession clock).1.redoStack = [] := by
  unfold DocApp.endNotesSession
  split
  · exact .inl rfl
  · rename_i id base hsession
    split
    · exact .inl rfl
    · rename_i after hafter
      split
      · exact .inl rfl
      · rename_i hne
        exact .inr ⟨fun hsettled => hne (hsettled id base after hsession hafter), rfl⟩

/-- **One undo** adds a redo. -/
theorem Ahead.undo {cores : List (Core Pins)} {is : List ℕ} (h : Ahead cores is s)
    (hord : s.Ordered) (hquiet : s.deadForeignRefs = []) (hrev : s.Reversible) :
    ∃ i, Ahead cores (i :: is) (s.undo u).1 := by
  obtain ⟨i, a, e, hnew, hnext, hrevert, hclean, hreturns, hdead⟩ := hrev
  have hget := (newest_eq_some hnew).1
  refine ⟨i, ?_⟩
  rcases undo_spec (u := u) hord hnew with ⟨-, -, hstuck⟩ | ⟨pre, e', rest, hes, hnext', -, -, heq⟩
  · exact absurd hrevert (hstuck e hnext)
  obtain rfl := Option.some.inj (hnext.symm.trans hnext')
  have hheld := a.held_endNotesSession s.clock
  have hcore₁ := core_endNotesSession a s.clock
  have hredo₁ := redoStack_endNotesSession a s.clock
  have hended := ended_eq hnew
  have hord' := hord.ended
  rw [hended] at heq hord'
  have hid₁ := a.docId_endNotesSession s.clock
  generalize (a.endNotesSession s.clock).1 = a₁ at *
  generalize (a.endNotesSession s.clock).2 = c at *
  have hcong : ({ a₁ with undoStack := rest } : DocApp).core = a₁.core := rfl
  obtain ⟨hcore, hentry⟩ := DocApp.revertEntry_congr hcong e.toUndoEntry
  obtain ⟨hid, -⟩ := DocApp.revertEntry_keeps { a₁ with undoStack := rest } e.toUndoEntry
  have hstack := DocApp.revertNotes_redoStack e.notes { a₁ with undoStack := rest }
  have hsession : ({ a₁ with undoStack := rest }.revertEntry e.toUndoEntry).1.Settled :=
    DocApp.Held.revertEntry (a := { a₁ with undoStack := rest }) hheld <| by
      rw [(DocApp.revertNotes_congr hcong e.notes).1]
      exact hreturns
  have hstack' : ({ a₁ with undoStack := rest }.revertEntry e.toUndoEntry).1.redoStack =
    a₁.redoStack := hstack
  generalize { a₁ with undoStack := rest }.revertEntry e.toUndoEntry = r at *
  -- the effect finds nothing
  have hview : r.1.view = (a₁.revertEntry e.toUndoEntry).1.view :=
    Prod.ext (hid.trans (a₁.revertEntry_keeps e.toUndoEntry).1.symm)
      (congrArg (fun c : Core Pins => c.doc.rest) hcore)
  have hdead' : (s.put i r.1 c).deadForeignRefs = [] := by
    refine (deadForeignRefs_congr ?_).trans hdead
    rw [docs_put, docs_setDoc, List.map_set, List.map_set, hview]
  have hundo : (s.undo u).1 = s.put i
      { r.1 with redoStack := ⟨r.2, c + 1⟩ :: a₁.redoStack } (c + 1) := by
    rw [heq, finish]
    dsimp only
    rw [put_put, prune_of_nil (u := u) (s := s.put i r.1 (s.put i a₁ c).clock) hdead',
      getElem?_put hget]
    dsimp only
    rw [put_put, hstack']
    rfl
  have hget' : (s.put i { r.1 with redoStack := ⟨r.2, c + 1⟩ :: a₁.redoStack } (c + 1)).docs[i]? =
      some { r.1 with redoStack := ⟨r.2, c + 1⟩ :: a₁.redoStack } := getElem?_put hget
  obtain ⟨hredoable, hrestored⟩ := DocApp.redoable_reverted
    (b := { r.1 with redoStack := ⟨r.2, c + 1⟩ :: a₁.redoStack }) hclean hrevert hreturns hcore
  rw [← hentry] at hredoable hrestored
  rw [hundo]
  refine ⟨⟨_, _, _, hget', rfl, hredoable, fun j b hj hne e' he' => ?_, ?_⟩, fun j hj b hb => ?_⟩
  · rw [getElem?_put_ne (Ne.symm hne)] at hj
    have hle := hord'.redoStamped b (by
      rw [docs_put]
      exact List.mem_of_getElem? (List.getElem?_set_ne (Ne.symm hne) ▸ hj)) e' he'
    exact Nat.lt_succ_of_le hle
  · dsimp only
    rw [hrestored, hcore₁]
    have hdocs : ∀ d, ((s.put i { r.1 with redoStack := ⟨r.2, c + 1⟩ :: a₁.redoStack }
        (c + 1)).setDoc i d).docs = s.docs.set i d := fun d => by
      rw [docs_setDoc, docs_put, List.set_set]
    have hid' : r.1.docId = a.docId := hid.trans hid₁
    refine ⟨?_, ?_⟩
    · refine (deadForeignRefs_congr ?_).trans hquiet
      rw [hdocs]
      exact map_set_same DocApp.view hget (congrArg₂ Prod.mk hid' rfl)
    · rcases hredo₁ with hsame | ⟨hunsettled, hnil⟩
      · refine h.backed.congr ?_
        rw [hdocs]
        exact map_set_same DocApp.face hget (congrArg₂ Prod.mk hid' (congrArg₂ Prod.mk rfl hsame))
      · have hi : i ∉ is := fun hin => hunsettled (h.settled i hin a hget)
        refine (h.backed.drop hget hi).congr ?_
        rw [hdocs, docs_setDoc, List.map_set, List.map_set, hnil]
        exact congrArg _ (congrArg₂ Prod.mk hid' rfl)
  · rcases List.mem_cons.1 hj with rfl | hin
    · obtain rfl := Option.some.inj (hget'.symm.trans hb)
      exact hsession
    · by_cases hij : i = j
      · subst hij
        obtain rfl := Option.some.inj (hget'.symm.trans hb)
        exact hsession
      · rw [getElem?_put_ne hij] at hb
        exact h.settled j hin b hb

/-! ## Every state -/

/-- What every state has. -/
structure Steady (s : DocsLayer) : Prop where
  ordered : s.Ordered
  quiet : s.deadForeignRefs = []

theorem steady_prune (h : s.Ordered) : (s.pruneDeadForeignRefs u).Steady :=
  ⟨h.prune, deadForeignRefs_prune s⟩

/-- Stacks and sessions are not seen by the effect. -/
theorem Steady.put (h : s.Steady) (hget : s.docs[i]? = some a) (hview : b.view = a.view) {c : ℕ}
    (hord : (s.put i b c).Ordered) : (s.put i b c).Steady :=
  ⟨hord, (deadForeignRefs_congr (view_setDoc hget hview)).trans h.quiet⟩

theorem Ordered.fallen (h : s.Ordered) (hget : s.docs[i]? = some a) :
    DocApp.Falling a.undoStack := h.falling a (List.mem_of_getElem? hget)

theorem Ordered.redoBound (h : s.Ordered) (hget : s.docs[i]? = some a) :
    ∀ e ∈ a.redoStack, e.stamp ≤ s.clock := h.redoStamped a (List.mem_of_getElem? hget)

theorem Ordered.bound (h : s.Ordered) (hget : s.docs[i]? = some a) :
    ∀ e ∈ a.undoStack, e.stamp ≤ s.clock := h.stamped a (List.mem_of_getElem? hget)

/-- The stack as it is. -/
theorem Ordered.keep (h : s.Ordered) {c : ℕ} (hget : s.docs[i]? = some a) (hc : s.clock ≤ c)
    (hstack : b.undoStack = a.undoStack) (hredo : ∀ e ∈ b.redoStack, e.stamp ≤ c) :
    (s.put i b c).Ordered :=
  h.put hget hc (hstack ▸ h.fallen hget) (fun _ he => .inl (hstack ▸ he)) hredo

/-- A new entry on the stack. -/
theorem Ordered.push (h : s.Ordered) (entry : UndoEntry) (hget : s.docs[i]? = some a)
    (hstack : b.undoStack = ⟨entry, s.clock + 1⟩ :: a.undoStack)
    (hredo : ∀ e ∈ b.redoStack, e.stamp ≤ s.clock + 1) : (s.put i b (s.clock + 1)).Ordered := by
  refine h.put hget (Nat.le_succ _)
    (hstack ▸ falling_cons (h.fallen hget) (h.bound hget) rfl) (fun e he => ?_) hredo
  rw [hstack] at he
  rcases List.mem_cons.1 he with rfl | he
  · exact .inr ⟨Nat.lt_succ_self _, Nat.le_refl _⟩
  · exact .inl he

theorem steady_changeCore (h : s.Steady) {core : Core Pins}
    (hs : s.changeCore u i core = some t) : t.Steady := by
  obtain ⟨a, hget, rfl⟩ := Option.map_eq_some_iff.1 hs
  exact steady_prune (h.ordered.keep hget (Nat.le_refl _) rfl (h.ordered.redoBound (a := a) hget))

/-- Documents that were there before, in other places, and new ones without entries. -/
theorem Ordered.of_docs (h : s.Ordered) (hclock : t.clock = s.clock) {place : ℕ → ℕ}
    (hplace : Function.Injective place)
    (hdocs : ∀ j b, t.docs[j]? = some b → (b.undoStack = [] ∧ b.redoStack = []) ∨
      s.docs[place j]? = some b) : t.Ordered := by
  have hmem : ∀ b ∈ t.docs, (b.undoStack = [] ∧ b.redoStack = []) ∨ b ∈ s.docs := fun b hb => by
    obtain ⟨j, hj⟩ := List.getElem?_of_mem hb
    exact (hdocs j b hj).imp_right List.mem_of_getElem?
  refine ⟨fun b hb => ?_, fun j k b d hj hk e he e' he' heq => ?_, fun b hb e he => ?_,
    fun b hb e he => ?_⟩
  · rcases hmem b hb with ⟨hnil, -⟩ | hb
    · rw [hnil]
      exact .nil
    · exact h.falling b hb
  · rcases hdocs j b hj with ⟨hnil, -⟩ | hj
    · rw [hnil] at he
      cases he
    · rcases hdocs k d hk with ⟨hnil, -⟩ | hk
      · rw [hnil] at he'
        cases he'
      · exact hplace (h.apart _ _ b d hj hk e he e' he' heq)
  · rw [hclock]
    rcases hmem b hb with ⟨hnil, -⟩ | hb
    · rw [hnil] at he
      cases he
    · exact h.stamped b hb e he
  · rw [hclock]
    rcases hmem b hb with ⟨-, hnil⟩ | hb
    · rw [hnil] at he
      cases he
    · exact h.redoStamped b hb e he

theorem Steady.undo (h : s.Steady) : (s.undo u).1.Steady := by
  refine ⟨?_, (Resting.undo (u := u) ⟨h.quiet, h.ordered.stamped⟩).quiet⟩
  cases hnew : s.newest with
  | none =>
    rw [DocsLayer.undo, hnew]
    exact h.ordered
  | some q =>
    obtain ⟨i, a⟩ := q
    have hget := (newest_eq_some hnew).1
    have hord := h.ordered.endNotesSession hget
    have hend : a.endNotesSession s.clock =
        ((a.endNotesSession s.clock).1, (a.endNotesSession s.clock).2) := rfl
    generalize (a.endNotesSession s.clock).1 = a₁ at hord hend
    generalize (a.endNotesSession s.clock).2 = c at hord hend
    have hget₁ : (s.put i a₁ c).docs[i]? = some a₁ := getElem?_put hget
    obtain ⟨hfall, hsub, hredo⟩ := DocApp.takeEntry_keeps a₁ (hord.fallen hget₁)
    cases htake : a₁.takeEntry a₁.undoStack with
    | mk a₂ entry =>
    rw [htake] at hfall hsub hredo
    have htaken := hord.put hget₁ (Nat.le_refl _) hfall (fun e he => .inl (hsub he))
      (hredo ▸ hord.redoBound hget₁)
    rw [put_put] at htaken
    cases entry with
    | none =>
      rw [undo_of_none (u := u) hnew hend htake]
      exact htaken
    | some entry =>
      obtain ⟨-, a₃, hget₃, heq⟩ := undo_of_some (u := u) hnew hend htake
      have hpruned := htaken.prune (u := u)
      rw [heq]
      refine hpruned.keep hget₃ (Nat.le_succ _) rfl fun e he => ?_
      rcases List.mem_cons.1 he with rfl | he
      · exact Nat.le_refl _
      · exact Nat.le_succ_of_le (hpruned.redoBound hget₃ e he)

theorem newestRedo_get (h : s.newestRedo = some (i, a)) : s.docs[i]? = some a := by
  obtain ⟨j, -, hget⟩ := Option.bind_eq_some_iff.1 h
  obtain ⟨b, hb, heq⟩ := Option.map_eq_some_iff.1 hget
  obtain ⟨rfl, rfl⟩ := Prod.mk.inj heq
  exact hb

theorem Steady.redo (h : s.Steady) : (s.redo u).1.Steady := by
  cases hnew : s.newestRedo with
  | none =>
    rw [DocsLayer.redo, hnew]
    exact h
  | some q =>
    obtain ⟨i, a⟩ := q
    have hget := newestRedo_get hnew
    obtain ⟨hid, hstack, hsub, hnone⟩ := DocApp.takeRedo_keeps a.redoStack a
    rw [DocsLayer.redo, hnew]
    dsimp only
    cases htake : a.takeRedo a.redoStack with
    | mk b entry =>
    rw [htake] at hid hstack hsub hnone
    have htaken : (s.put i b s.clock).Ordered := h.ordered.put hget (Nat.le_refl _)
      (hstack ▸ h.ordered.fallen hget) (fun e he => .inl (hstack ▸ he))
      fun e he => h.ordered.redoBound hget e (hsub he)
    cases entry with
    | none =>
      exact h.put hget (congrArg₂ Prod.mk hid (congrArg (fun c : Core Pins => c.doc.rest)
        (hnone rfl))) htaken
    | some entry =>
      dsimp only
      have hpruned := steady_prune (u := u) htaken
      cases hdoc : ((s.put i b s.clock).pruneDeadForeignRefs u).docs[i]? with
      | none => exact hpruned
      | some d =>
        dsimp only
        refine hpruned.put hdoc ?_ (hpruned.ordered.push entry hdoc ?_ fun e he => ?_)
        · rfl
        · rfl
        · exact Nat.le_succ_of_le (hpruned.ordered.redoBound hdoc e he)

/-- **Every step** leaves a steady state. -/
theorem Steady.apply (h : s.Steady) {l : Event} (hs : s.apply u l = some t) : t.Steady := by
  cases l with
  | acted i core steps notes =>
    rw [DocsLayer.apply] at hs
    by_cases hempty : steps = 0 ∧ notes = []
    · rw [if_pos hempty] at hs
      cases hs
    · rw [if_neg hempty] at hs
      obtain ⟨s₁, hs₁, hs⟩ := Option.bind_eq_some_iff.1 hs
      obtain ⟨a, hget, rfl⟩ := Option.map_eq_some_iff.1 hs
      have h₁ := steady_changeCore h hs₁
      refine h₁.put hget ?_ (h₁.ordered.push ⟨steps, notes⟩ hget ?_ fun e he => ?_)
      · rfl
      · rfl
      · cases he
  | typed i core session =>
    obtain ⟨s₁, hs₁, hs⟩ := Option.bind_eq_some_iff.1 hs
    obtain ⟨a, hget, rfl⟩ := Option.map_eq_some_iff.1 hs
    have h₁ := steady_changeCore h hs₁
    refine h₁.put hget ?_ (h₁.ordered.keep hget (Nat.le_refl _) ?_ ?_)
    · rfl
    · rfl
    · exact h₁.ordered.redoBound (a := a) hget
  | sessionEnded i =>
    obtain ⟨a, hget, rfl⟩ := Option.map_eq_some_iff.1 hs
    have hview : (a.endNotesSession s.clock).1.view = a.view :=
      congrArg₂ Prod.mk (a.docId_endNotesSession s.clock)
        (congrArg (fun c : Core Pins => c.doc.rest) (core_endNotesSession a s.clock))
    exact h.put hget hview (h.ordered.endNotesSession hget)
  | purged i core =>
    obtain ⟨s₁, hs₁, hs⟩ := Option.bind_eq_some_iff.1 hs
    obtain ⟨a, hget, rfl⟩ := Option.map_eq_some_iff.1 hs
    have h₁ := steady_changeCore h hs₁
    refine h₁.put hget ?_ (h₁.ordered.put hget (Nat.le_refl _) ?_ (fun e he => ?_) fun e he => ?_)
    · rfl
    · exact .nil
    · cases he
    · cases he
  | imported i core => exact steady_changeCore h hs
  | added docId doc =>
    obtain rfl := Option.some.inj hs
    refine steady_prune (h.ordered.of_docs rfl Function.injective_id fun j b hj => ?_)
    have hj' : (s.docs ++ [DocApp.attach docId doc])[j]? = some b := hj
    rcases Nat.lt_or_ge j s.docs.length with hlt | hge
    · rw [List.getElem?_append_left hlt] at hj'
      exact .inr hj'
    · rw [List.getElem?_append_right hge] at hj'
      obtain rfl := List.mem_singleton.1 (List.mem_of_getElem? hj')
      exact .inl ⟨rfl, rfl⟩
  | removed i =>
    obtain rfl := Option.some.inj hs
    have hinj : Function.Injective fun j => if j < i + 1 then j else j + 1 := by
      intro j k hjk
      dsimp only at hjk
      split at hjk <;> split at hjk <;> omega
    refine steady_prune (h.ordered.of_docs rfl hinj fun j b hj => .inr ?_)
    have hj' : (s.docs.eraseIdx (i + 1))[j]? = some b := hj
    rw [List.getElem?_eraseIdx] at hj'
    split at hj' <;> rename_i hlt
    · rw [if_pos hlt]
      exact hj'
    · rw [if_neg hlt]
      exact hj'
  | undo =>
    obtain rfl := Option.some.inj hs
    exact h.undo
  | redo =>
    obtain rfl := Option.some.inj hs
    exact h.redo

theorem steady_of_reachable (h : (docsLayers u).Reachable s) : s.Steady := by
  refine h.invariant ?_ fun s l t _ hsteady _ hs => hsteady.apply hs
  rintro s ⟨docId, doc, rfl⟩
  refine steady_prune ⟨fun a ha => ?_, fun i j a b hi hj e he => ?_, fun a ha e he => ?_,
    fun a ha e he => ?_⟩
  · obtain rfl := List.mem_singleton.1 ha
    exact .nil
  · obtain rfl := List.mem_singleton.1 (List.mem_of_getElem? hi)
    cases he
  · obtain rfl := List.mem_singleton.1 ha
    cases he
  · obtain rfl := List.mem_singleton.1 ha
    cases he

theorem Steady.run (h : s.Steady) (n : ℕ) : (s.run u n).Steady := by
  induction n with
  | zero => exact h
  | succ n ih =>
    rw [run_succ]
    exact ih.undo

/-- **As many undos** leave as many redos. -/
theorem ahead_run (h : s.Steady) {k : ℕ} (hrev : ∀ n < k, (s.run u n).Reversible) :
    ∃ is, is.length = k ∧ Ahead (s.docs.map DocApp.core) is (s.run u k) := by
  induction k with
  | zero => exact ⟨[], rfl, rfl, fun i hi => by cases hi⟩
  | succ k ih =>
    obtain ⟨is, hlength, hahead⟩ := ih fun n hn => hrev n (Nat.lt_succ_of_lt hn)
    have hsteady := h.run (u := u) k
    obtain ⟨i, hi⟩ :=
      hahead.undo (u := u) hsteady.ordered hsteady.quiet (hrev k (Nat.lt_succ_self k))
    rw [← run_succ] at hi
    exact ⟨i :: is, by rw [List.length_cons, hlength], hi⟩

/-- A document with one item. -/
def page (isOpen : Bool) (notes : Option (List Char)) : Projection Pins :=
  ⟨⟨fun id => if id = "x" then some isOpen else none, []⟩,
    fun id => if id = "x" then notes else none⟩

/-- The core once the item is closed, with these notes. -/
def closedCore (notes : Option (List Char)) : Core Pins :=
  ⟨page false notes, [UndoManager.restoring.record (page true (some [])) (page false (some []))], []⟩

/-- An item is closed in the home document, then one in the other document, and then notes are
written in the home document. -/
def threeActions : List Event :=
  [.added "d" (page true (some [])), .acted 0 (closedCore (some [])) 1 [],
    .acted 1 (closedCore (some [])) 1 [],
    .acted 0 (closedCore (some ['h', 'i'])) 0 [⟨"x", [], ['h', 'i']⟩]]

/-- The documents before. -/
def onePage : DocsLayer where
  home := DocApp.attach "home" (page true (some []))
  others := []
  clock := 0

/-- And after. -/
def threeDone : DocsLayer where
  home :=
    { docId := "home"
      core := closedCore (some ['h', 'i'])
      undoStack := [⟨⟨0, [⟨"x", [], ['h', 'i']⟩]⟩, 3⟩, ⟨⟨1, []⟩, 1⟩]
      redoStack := []
      notesSession := none }
  others :=
    [{ docId := "d"
       core := closedCore (some [])
       undoStack := [⟨⟨1, []⟩, 2⟩]
       redoStack := []
       notesSession := none }]
  clock := 3

theorem threeDone_exec : (docsLayers .restoring).exec (onePage.pruneDeadForeignRefs .restoring)
    threeActions = some threeDone := rfl

theorem threeDone_reachable : (docsLayers .restoring).Reachable threeDone :=
  Machine.reach_of_exec ⟨"home", page true (some []), rfl⟩ threeDone_exec

/-- A remote hard delete takes the item away whose notes were written last. -/
def itemGone : DocsLayer :=
  { threeDone with home := { threeDone.home with
    core := { threeDone.home.core with doc := ⟨⟨fun _ => none, []⟩, fun _ => none⟩ } } }

theorem itemGone_reachable : (docsLayers .restoring).Reachable itemGone :=
  .step (l := .imported 0 { threeDone.home.core with doc := ⟨⟨fun _ => none, []⟩, fun _ => none⟩ })
    threeDone_reachable trivial rfl

end DocsLayer

end Monoplan.Web
