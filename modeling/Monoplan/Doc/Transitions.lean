import Monoplan.Doc.Focus
import Monoplan.Doc.Keeping

/-!
# Lifecycle transitions

State, bin mask and stamps are separate registers, written by different entry points; the place of
an item is kept by the order entries that closed items retain.

* `Document.entersAt`: when an operation takes an item into a workflow state.
* `stamps_act`: the stamps are written by such a transition and by nothing else.
* `item_elsewhere`: an operation on other items leaves a binned item's map alone.
* `lifecycle_transitions`: an item that is binned and restored is what it was, where it was.
-/

namespace Monoplan.Doc

open Monoplan.Base ProjectionIndex

/-! ## Lifecycle -/

/-- `ItemView::lifecycle`; `none` is the bin, which hides the workflow state. -/
def ItemMap.lifecycleNow (m : ItemMap) : Option WorkflowState :=
  if m.binnedAt.isSome then none else some m.workflowOf.1

/-- The write takes the item into the workflow state. -/
def LifecycleWrite.enters (write : LifecycleWrite) (m : ItemMap) (s : WorkflowState) : Bool :=
  write = .set (some s) && m.lifecycleNow ≠ some s

/-- The operation is a mutation of this document, not an import, an undo or a repair. -/
def Operation.Local : Operation → Prop
  | .mutate (.rebuilt _) => False
  | .mutate (.frame _ _ _) => False
  | _ => True

/-- The mutation deletes binned items, or changes rows. -/
def Mutation.Plain : Mutation → Prop
  | .deleteBinned _ | .emptyBin | .addList _ _ _ | .editList _ _ | .moveList _ _ => True
  | _ => False

namespace Content

/-- An item's `started_at`. -/
def startedAt (c : Content) (id : String) : Option ℤ := (c.item id).bind ItemMap.startedAt

/-- An item's `done_at`. -/
def doneAt (c : Content) (id : String) : Option ℤ := (c.item id).bind ItemMap.doneAt

end Content

/-- When the operation takes the item into the workflow state: by a transition, or by creating it
there. -/
def Document.entersAt (d : Document) (op : Operation) (id : String) (s : WorkflowState) :
    Option ℤ :=
  match op with
  | .mutate (.lifecycle ids write now) =>
    if id ∈ ids ∧ (d.content.item id).any (fun m => write.enters m s) then some now else none
  | .mutate (.add _ news _ state _) =>
    if state = s then (news.find? fun n => n.id = id).map NewItem.now else none
  | _ => none

/-- What becomes of an item's stamps: `started_at` is what it was or, where it was absent, the time
of a transition into In Progress; `done_at` is the time of a transition into Done or what it was;
and an item is since then in the state it was taken into. -/
structure Document.Stamped (d d' : Document) (op : Operation) (id : String) : Prop where
  startedAt : d'.content.startedAt id = (d.content.startedAt id).or (d.entersAt op id .inProgress)
  doneAt : d'.content.doneAt id = (d.entersAt op id .done).or (d.content.doneAt id)
  since : ∀ s t, d.entersAt op id s = some t → ∃ m, d'.content.item id = some m ∧
    m.lifecycleNow = some s ∧ m.workflowOf = (s, t)

section Writes

variable {m m' : ItemMap} {write : LifecycleWrite} {now : ℤ} {s : WorkflowState}

theorem lifecycleNow_eq_none : m.lifecycleNow = none ↔ m.binnedAt.isSome = true := by
  unfold ItemMap.lifecycleNow
  split
  · rename_i h
    exact iff_of_true rfl h
  · rename_i h
    exact iff_of_false (by simp) h

theorem lifecycleNow_eq_some :
    m.lifecycleNow = some s ↔ m.binnedAt.isNone ∧ m.workflowOf.1 = s := by
  unfold ItemMap.lifecycleNow
  cases m.binnedAt with
  | none => simp
  | some t => simp

/-- A write of the current lifecycle writes nothing. -/
theorem applyLifecycle_current (target : Option WorkflowState) (h : m.lifecycleNow = target) :
    applyLifecycle m target now = none := by
  unfold applyLifecycle
  cases target with
  | none => exact if_pos (lifecycleNow_eq_none.1 h)
  | some want => exact if_pos (lifecycleNow_eq_some.1 h)

/-- What a write into another workflow state leaves. -/
theorem lifecycled_enters (h : write.enters m s = true) :
    m.lifecycled write now = { m with
      binnedAt := none
      lifecycle := some (s.code, now)
      startedAt := if s = .inProgress ∧ m.startedAt.isNone then some now else m.startedAt
      doneAt := if s = .done then some now else m.doneAt } := by
  rw [LifecycleWrite.enters, Bool.and_eq_true, decide_eq_true_eq, decide_eq_true_eq] at h
  obtain ⟨rfl, hnow⟩ := h
  rw [ItemMap.lifecycled, applyLifecycleWrite, applyLifecycle,
    if_neg fun hcur => hnow (lifecycleNow_eq_some.2 hcur)]
  rfl

/-- Every other write leaves both stamps. -/
theorem lifecycled_stays (h : ∀ want, write = .set (some want) → m.lifecycleNow ≠ some want →
    want ≠ .inProgress ∧ want ≠ .done) :
    (m.lifecycled write now).startedAt = m.startedAt ∧
      (m.lifecycled write now).doneAt = m.doneAt := by
  have hset : ∀ want, (m.lifecycleNow ≠ some want → want ≠ .inProgress ∧ want ≠ .done) →
      ((applyLifecycle m (some want) now).getD m).startedAt = m.startedAt ∧
        ((applyLifecycle m (some want) now).getD m).doneAt = m.doneAt := by
    intro want hwant
    unfold applyLifecycle
    dsimp only
    split
    · exact ⟨rfl, rfl⟩
    · rename_i hcur
      obtain ⟨hstart, hdone⟩ := hwant fun heq => hcur (lifecycleNow_eq_some.1 heq)
      exact ⟨if_neg fun hboth => hstart hboth.1, if_neg hdone⟩
  unfold ItemMap.lifecycled applyLifecycleWrite
  cases write with
  | set target =>
    cases target with
    | none =>
      dsimp only [applyLifecycle]
      split <;> exact ⟨rfl, rfl⟩
    | some want => exact hset want (h want rfl)
  | restore =>
    dsimp only
    split <;> exact ⟨rfl, rfl⟩
  | unDone =>
    dsimp only
    split
    · exact ⟨rfl, rfl⟩
    · exact hset .backlog fun _ => by decide

/-- **The stamps of one write.**  `started_at` is written by a transition into In Progress, when it
is absent; `done_at` by a transition into Done. -/
theorem lifecycled_stamps (m : ItemMap) (write : LifecycleWrite) (now : ℤ) :
    (m.lifecycled write now).startedAt =
        m.startedAt.or (if write.enters m .inProgress then some now else none) ∧
      (m.lifecycled write now).doneAt =
        (if write.enters m .done then some now else none).or m.doneAt := by
  by_cases hstart : write.enters m .inProgress = true
  · have hdone : write.enters m .done = false := by
      rw [LifecycleWrite.enters, Bool.and_eq_true, decide_eq_true_eq] at hstart
      rw [LifecycleWrite.enters, hstart.1]
      rfl
    rw [lifecycled_enters hstart, if_pos hstart, hdone]
    refine ⟨?_, rfl⟩
    dsimp only
    cases m.startedAt with
    | none => rfl
    | some t => rfl
  by_cases hdone : write.enters m .done = true
  · rw [lifecycled_enters hdone, if_pos hdone, if_neg hstart]
    refine ⟨?_, rfl⟩
    dsimp only
    rw [Option.or_none]
    exact if_neg fun hboth => WorkflowState.noConfusion hboth.1
  rw [if_neg hstart, if_neg hdone, Option.or_none, Option.none_or]
  refine lifecycled_stays fun want hwrite hnow => ⟨?_, ?_⟩
  · rintro rfl
    exact hstart (by rw [LifecycleWrite.enters, hwrite]; simpa using hnow)
  · rintro rfl
    exact hdone (by rw [LifecycleWrite.enters, hwrite]; simpa using hnow)

/-- The item is in the state it was taken into, since then. -/
theorem lifecycled_workflow (h : write.enters m s = true) :
    (m.lifecycled write now).lifecycleNow = some s ∧
      (m.lifecycled write now).workflowOf = (s, now) := by
  have hflow : (m.lifecycled write now).workflowOf = (s, now) := by
    rw [lifecycled_enters h, ItemMap.workflowOf, ItemMap.readWorkflow]
    dsimp only
    rw [Option.bind_some, WorkflowState.fromCode_code]
    rfl
  refine ⟨lifecycleNow_eq_some.2 ⟨?_, by rw [hflow]⟩, hflow⟩
  rw [lifecycled_enters h]
  rfl

end Writes

/-! ## What an operation does to an item's map -/

section Items

variable {c : Content} {d d' : Document} {l id placement : String} {target : ℕ} {now : ℤ}

/-- A batch of new items is written over nothing else. -/
theorem item_addRun (state : WorkflowState) (author : Option String) {news : List NewItem}
    (hnodup : (news.map NewItem.id).Nodup) (c : Content) (pos : ℕ) (y : String) :
    (c.addRun l state author pos news).item y =
      ((news.find? fun n => n.id = y).map fun n => n.toMap l state author).or (c.item y) := by
  induction news generalizing c pos with
  | nil => rfl
  | cons n news ih =>
    obtain ⟨hn, hnodup⟩ := List.nodup_cons.1 hnodup
    rw [Content.addRun, ih hnodup, Content.addOne, Content.item_setOrder, Content.item_setItem]
    by_cases hy : n.id = y
    · have hrest : (news.find? fun n => n.id = y) = none := by
        refine List.find?_eq_none.2 fun n' hn' heq => hn ?_
        rw [hy, ← of_decide_eq_true heq]
        exact List.mem_map_of_mem hn'
      rw [hrest, List.find?_cons_of_pos (by simpa using hy), if_pos hy.symm]
      rfl
    · rw [List.find?_cons_of_neg (by simpa using hy), if_neg (Ne.symm hy)]

theorem addItemsAt_item {news : List NewItem} {state : WorkflowState} {author : Option String}
    (hnodup : (news.map NewItem.id).Nodup)
    (hadd : d.addItemsAt l news target state author = some d') :
    state.isOpen = true ∧ ∀ y, d'.content.item y =
      ((news.find? fun n => n.id = y).map fun n => n.toMap l state author).or
        (d.content.item y) := by
  unfold Document.addItemsAt at hadd
  split at hadd
  · cases hadd
  rename_i hopen
  rw [Bool.not_eq_true, Bool.not_eq_false'] at hopen
  split at hadd
  · cases hadd
  split at hadd
  · cases hadd
  split at hadd
  · rename_i hnil
    cases hadd
    refine ⟨hopen, fun y => ?_⟩
    rw [hnil]
    rfl
  · cases hadd
    exact ⟨hopen, item_addRun state author hnodup d.content _⟩

/-- A move writes the location of the one item, if that. -/
theorem moveItem_item (hmove : d.moveItem id l target placement = some d') (y : String) :
    d'.content.item y = d.content.item y ∨
      y = id ∧ ∃ loc, d'.content.item y =
        (d.content.item y).map fun m => { m with location := loc } := by
  have hone : ∀ (m : ItemMap) (loc : Option String) (new : Option ItemMap),
      d.content.item id = some m →
      new = (if y = id then some { m with location := loc } else d.content.item y) →
        new = d.content.item y ∨
          y = id ∧ ∃ loc, new = (d.content.item y).map fun m => { m with location := loc } := by
    intro m loc new hm hnew
    by_cases hy : y = id
    · refine .inr ⟨hy, loc, ?_⟩
      rw [hnew, if_pos hy, hy, hm]
      rfl
    · rw [hnew, if_neg hy]
      exact .inl rfl
  unfold Document.moveItem at hmove
  split at hmove
  · cases hmove
  split at hmove
  · rename_i slice m hslice hm
    split at hmove
    · cases hmove
      unfold Document.reorderInList
      split
      · refine hone m (some (Location.encode ⟨l, placement⟩)) _ hm ?_
        rw [Document.replaceEntry, Content.item_setOrder, Content.item_setItem]
      · dsimp only
        split
        · exact .inl rfl
        · exact .inl rfl
    · cases hmove
      rw [moveAcrossLists_eq]
      refine hone m (some (Location.encode ⟨l, placement⟩)) _ hm ?_
      rw [Content.cross, Content.item_setOrder, Content.item_setOrder, Content.item_setItem]
  · cases hmove

theorem discard_item (placing : String → String) (now : ℤ) (c : Content) (id y : String) :
    (c.discard placing now id).item y =
      if y = id then (c.item y).map fun m =>
        { m with
          location := some (Location.encode ⟨LIST_INBOX, placing id⟩)
          binnedAt := m.binnedAt.orElse fun _ => some now }
      else c.item y := by
  unfold Content.discard
  by_cases hy : y = id
  · subst hy
    rw [if_pos rfl]
    cases hm : c.item y with
    | none => exact hm
    | some m =>
      dsimp only
      rw [Content.item_setOrder, Content.item_setItem, if_pos rfl]
      rfl
  · rw [if_neg hy]
    cases c.item id with
    | none => rfl
    | some m =>
      dsimp only
      rw [Content.item_setOrder, Content.item_setItem, if_neg hy]

/-- What the relocation of a list's items leaves alone: other items, and all stamps. -/
theorem foldl_discard_item (placing : String → String) (now : ℤ) (ids : List String)
    (c : Content) (y : String) :
    (y ∉ ids → (ids.foldl (Content.discard placing now) c).item y = c.item y) ∧
      ((ids.foldl (Content.discard placing now) c).item y).map
          (fun m => (m.startedAt, m.doneAt)) =
        (c.item y).map fun m => (m.startedAt, m.doneAt) := by
  induction ids generalizing c with
  | nil => exact ⟨fun _ => rfl, rfl⟩
  | cons id ids ih =>
    obtain ⟨hother, hstamps⟩ := ih (c.discard placing now id)
    rw [discard_item] at hother hstamps
    constructor
    · intro hy
      rw [List.mem_cons, not_or] at hy
      rw [List.foldl_cons, hother hy.2, if_neg hy.1]
    · rw [List.foldl_cons, hstamps]
      split
      · cases c.item y <;> rfl
      · rfl

theorem deleteList_item {placing : String → String}
    (hdel : d.deleteList l placing now = some d') (y : String) :
    d'.content.item y =
      ((d.index.resolved l).foldl (Content.discard placing now) d.content).item y := by
  unfold Document.deleteList at hdel
  split at hdel
  · cases hdel
  split at hdel
  · cases hdel
  · cases hdel
    rfl

theorem editItem_item {edit : ItemEdit} (hedit : d.editItem id edit = some d') (y : String) :
    if y = id then ∃ m m', d.content.item y = some m ∧ edit.apply m = some m' ∧
      d'.content.item y = some m' else d'.content.item y = d.content.item y := by
  unfold Document.editItem at hedit
  split at hedit
  · cases hedit
  obtain ⟨m', hm', rfl⟩ := Option.map_eq_some_iff.1 hedit
  obtain ⟨m, hm, happly⟩ := Option.bind_eq_some_iff.1 hm'
  dsimp only
  rw [Content.item_setItem]
  split
  · rename_i hy
    exact ⟨m, m', hy ▸ hm, happly, rfl⟩
  · rfl

/-- The other mutations write no map: they delete some, or change rows. -/
theorem plain_item {m : Mutation} (hplain : m.Plain) (hact : d.act (.mutate m) = some d')
    (y : String) :
    d'.content.item y = d.content.item y ∨
      d'.content.item y = none ∧ ∀ p, d.Spares p (.mutate m) → p y = false := by
  have hdeleted : ∀ ids : List String, (d.hardDeleteItems ids).content.item y = d.content.item y ∨
      (d.hardDeleteItems ids).content.item y = none ∧ y ∈ ids := by
    intro ids
    rw [item_hardDeleteItems]
    split
    · rename_i hy
      exact .inr ⟨rfl, hy⟩
    · exact .inl rfl
  cases m with
  | deleteBinned ids =>
    replace hact : d.deleteBinnedItems ids = some d' := hact
    unfold Document.deleteBinnedItems at hact
    split at hact
    · cases hact
      exact .inl rfl
    split at hact
    · cases hact
    split at hact
    · cases hact
    split at hact
    · cases hact
    · cases hact
      exact (hdeleted ids).imp_right fun h => ⟨h.1, fun p hspares => hspares y h.2⟩
  | emptyBin =>
    obtain rfl : d.emptyBin = d' := Option.some.inj hact
    unfold Document.emptyBin
    dsimp only
    split
    · exact .inl rfl
    · exact (hdeleted d.binnedIds).imp_right fun h => ⟨h.1, fun p hspares => hspares y h.2⟩
  | addList i n t =>
    replace hact : d.addList i n t = some d' := hact
    unfold Document.addList at hact
    split at hact
    · cases hact
    · cases hact
      exact .inl rfl
  | editList k e =>
    replace hact : d.editList k e = some d' := hact
    unfold Document.editList at hact
    split at hact
    · cases hact
    · obtain ⟨row, -, rfl⟩ := Option.map_eq_some_iff.1 hact
      exact .inl rfl
  | moveList k n =>
    replace hact : d.moveList k n = some d' := hact
    unfold Document.moveList at hact
    split at hact
    · cases hact
    · obtain ⟨row, -, rfl⟩ := Option.map_eq_some_iff.1 hact
      exact .inl rfl
  | add _ _ _ _ _ => exact hplain.elim
  | move _ _ _ _ => exact hplain.elim
  | lifecycle _ _ _ => exact hplain.elim
  | deleteList _ _ _ => exact hplain.elim
  | rebuilt _ => exact hplain.elim
  | frame _ _ _ => exact hplain.elim

end Items

/-! ## Stamps -/

section Stamps

variable {d d' : Document} {op : Operation} {id : String}

/-- Where the operation is no transition, both stamps stay. -/
theorem stamps_same (hid : (d'.content.item id).isSome)
    (hsame : (d'.content.item id).map (fun m => (m.startedAt, m.doneAt)) =
      (d.content.item id).map fun m => (m.startedAt, m.doneAt)) :
    d'.content.startedAt id = d.content.startedAt id ∧
      d'.content.doneAt id = d.content.doneAt id := by
  obtain ⟨m', hm'⟩ := Option.isSome_iff_exists.1 hid
  rw [hm', Option.map_some] at hsame
  obtain ⟨m, hm, hstamps⟩ := Option.map_eq_some_iff.1 hsame.symm
  rw [Prod.mk.injEq] at hstamps
  rw [Content.startedAt, Content.startedAt, Content.doneAt, Content.doneAt, hm, hm']
  exact ⟨hstamps.1.symm, hstamps.2.symm⟩

/-- **The stamps** are written by transitions and by no other mutation. -/
theorem stamps_act (htrust : d.Trusts op) (hlocal : op.Local) (hact : d.act op = some d')
    (hid : (d'.content.item id).isSome) : d.Stamped d' op id := by
  have hquiet : (∀ s, d.entersAt op id s = none) →
      (d'.content.item id).map (fun m => (m.startedAt, m.doneAt)) =
        (d.content.item id).map (fun m => (m.startedAt, m.doneAt)) →
      d.Stamped d' op id := by
    intro hnone hsame
    obtain ⟨hstart, hdone⟩ := stamps_same hid hsame
    refine ⟨?_, ?_, fun s t hs => ?_⟩
    · rw [hnone, Option.or_none, hstart]
    · rw [hnone, Option.none_or, hdone]
    · rw [hnone] at hs
      cases hs
  cases op with
  | edit y edit =>
    refine hquiet (fun _ => rfl) ?_
    have hitem := editItem_item hact id
    split at hitem
    · obtain ⟨m, m', hm, happly, hm'⟩ := hitem
      obtain ⟨-, -, hstart, hdone⟩ := ItemEdit.apply_keeps happly
      rw [hm, hm', Option.map_some, Option.map_some, hstart, hdone]
    · rw [hitem]
  | mutate m =>
    have hdrop : m.Plain → (∀ s, d.entersAt (.mutate m) id s = none) →
        d.Stamped d' (.mutate m) id := by
      intro hplain hnone
      rcases plain_item hplain hact id with hsame | ⟨hgone, -⟩
      · exact hquiet hnone (by rw [hsame])
      · rw [hgone] at hid
        cases hid
    cases m with
    | lifecycle ids write now =>
      have hset : d.setItemsLifecycle ids write now = some d' := hact
      obtain ⟨hnodup, hcontent⟩ := setItemsLifecycle_content hset
      have hitem : d'.content.item id = if id ∈ ids then
          (d.content.item id).map fun m => m.lifecycled write now else d.content.item id := by
        rw [hcontent]
        exact item_foldl_writeLifecycle d.content hnodup id
      by_cases hin : id ∈ ids
      · rw [if_pos hin] at hitem
        cases hm : d.content.item id with
        | none =>
          rw [hitem, hm] at hid
          cases hid
        | some m =>
          rw [hm, Option.map_some] at hitem
          have henters : ∀ s, d.entersAt (.mutate (.lifecycle ids write now)) id s =
              if write.enters m s then some now else none := fun s => by
            simp [Document.entersAt, hin, hm]
          obtain ⟨hstart, hdone⟩ := lifecycled_stamps m write now
          refine ⟨?_, ?_, fun s t hs => ⟨_, hitem, ?_⟩⟩
          · rw [Content.startedAt, Content.startedAt, hitem, hm, henters]
            exact hstart
          · rw [Content.doneAt, Content.doneAt, hitem, hm, henters]
            exact hdone
          · rw [henters] at hs
            split at hs
            · rename_i hs'
              cases hs
              exact lifecycled_workflow hs'
            · cases hs
      · rw [if_neg hin] at hitem
        refine hquiet (fun s => ?_) (by rw [hitem])
        exact if_neg fun hboth => hin hboth.1
    | add l news target state author =>
      obtain ⟨hopen, hitem⟩ := addItemsAt_item htrust.2.1 hact
      cases hfind : news.find? fun n => n.id = id with
      | none =>
        refine hquiet (fun s => ?_) (by rw [hitem, hfind]; rfl)
        rw [Document.entersAt, hfind, Option.map_none, ite_self]
      | some n =>
        have hn : n ∈ news := List.mem_of_find?_eq_some hfind
        have hnid : n.id = id := by simpa using List.find?_some hfind
        have hnone : d.content.item id = none := hnid ▸ (htrust.2.2 n hn).absent
        have hnew : d'.content.item id = some (n.toMap l state author) := by
          rw [hitem, hfind]
          rfl
        have henters : ∀ s, d.entersAt (.mutate (.add l news target state author)) id s =
            if state = s then some n.now else none := fun s => by
          rw [Document.entersAt, hfind]
          rfl
        refine ⟨?_, ?_, fun s t hs => ⟨_, hnew, ?_⟩⟩
        · rw [Content.startedAt, Content.startedAt, hnew, hnone, henters]
          rfl
        · rw [Content.doneAt, Content.doneAt, hnew, hnone, henters,
            if_neg fun heq => by rw [heq] at hopen; cases hopen]
          rfl
        · rw [henters] at hs
          split at hs
          · rename_i hstate
            cases hs
            subst hstate
            have hflow : (n.toMap l state author).workflowOf = (state, n.now) := by
              cases state <;> rfl
            exact ⟨lifecycleNow_eq_some.2 ⟨rfl, by rw [hflow]⟩, hflow⟩
          · cases hs
    | move y l target placement =>
      refine hquiet (fun _ => rfl) ?_
      rcases moveItem_item hact id with hsame | ⟨-, loc, hmoved⟩
      · rw [hsame]
      · rw [hmoved]
        cases d.content.item id <;> rfl
    | deleteList l placing now =>
      refine hquiet (fun _ => rfl) ?_
      rw [deleteList_item hact]
      exact (foldl_discard_item placing now _ d.content id).2
    | rebuilt content => exact hlocal.elim
    | frame preSettings post diffs => exact hlocal.elim
    | deleteBinned _ => exact hdrop trivial fun _ => rfl
    | emptyBin => exact hdrop trivial fun _ => rfl
    | addList _ _ _ => exact hdrop trivial fun _ => rfl
    | editList _ _ => exact hdrop trivial fun _ => rfl
    | moveList _ _ => exact hdrop trivial fun _ => rfl

end Stamps

/-! ## Binned and restored -/

/-- The operation is on other items.  To bin an item again, or to take back that it was done, is
nothing while it is binned. -/
def Document.Elsewhere (d : Document) (id : String) : Operation → Prop
  | .edit y _ => y ≠ id
  | .mutate (.lifecycle ids write _) => id ∈ ids → write = .set none ∨ write = .unDone
  | .mutate (.rebuilt content) => content.item id = d.content.item id
  | .mutate (.frame _ post _) => post.content.item id = d.content.item id
  | _ => True

section Restoring

variable {d d' : Document} {op : Operation} {id : String} {p : String → Bool} {m : ItemMap}

/-- A binned item is not changed by being binned again or un-done. -/
theorem lifecycled_binned {write : LifecycleWrite} {now : ℤ} (hbin : m.binnedAt.isSome = true)
    (hwrite : write = .set none ∨ write = .unDone) : m.lifecycled write now = m := by
  unfold ItemMap.lifecycled applyLifecycleWrite
  rcases hwrite with rfl | rfl
  · dsimp only
    rw [applyLifecycle_current none (lifecycleNow_eq_none.2 hbin)]
    rfl
  · dsimp only
    rw [if_pos (.inl hbin)]
    rfl

/-- **An operation on other items** leaves a binned item's map alone. -/
theorem item_elsewhere (hp : p id = true) (htrust : d.Trusts op) (hspares : d.Spares p op)
    (helse : d.Elsewhere id op) (hm : d.content.item id = some m)
    (hbin : m.binnedAt.isSome = true) (hact : d.act op = some d') :
    d'.content.item id = some m := by
  rw [← hm]
  cases op with
  | edit y edit =>
    have hitem := editItem_item hact id
    rwa [if_neg (Ne.symm helse)] at hitem
  | mutate mutation =>
    have hdrop : mutation.Plain → d'.content.item id = d.content.item id := by
      intro hplain
      rcases plain_item hplain hact id with hsame | ⟨-, hout⟩
      · exact hsame
      · rw [hout p hspares] at hp
        cases hp
    cases mutation with
    | lifecycle ids write now =>
      have hset : d.setItemsLifecycle ids write now = some d' := hact
      obtain ⟨hnodup, hcontent⟩ := setItemsLifecycle_content hset
      rw [hcontent, item_foldl_writeLifecycle d.content hnodup]
      split
      · rename_i hin
        rw [hm, Option.map_some, lifecycled_binned hbin (helse hin)]
      · rfl
    | add l news target state author =>
      obtain ⟨-, hitem⟩ := addItemsAt_item htrust.2.1 hact
      have hfind : (news.find? fun n => n.id = id) = none := by
        refine List.find?_eq_none.2 fun n hn heq => ?_
        have hn' := hspares n hn
        rw [of_decide_eq_true heq, hp] at hn'
        cases hn'
      rw [hitem, hfind]
      rfl
    | move y l target placement =>
      rcases moveItem_item hact id with hsame | ⟨rfl, -⟩
      · exact hsame
      · rw [show p id = false from hspares] at hp
        cases hp
    | deleteList l placing now =>
      rw [deleteList_item hact]
      refine (foldl_discard_item placing now _ d.content id).1 fun hin => ?_
      rw [hspares id hin] at hp
      cases hp
    | rebuilt content =>
      cases hact
      exact helse
    | frame preSettings post diffs =>
      cases hact
      exact helse
    | deleteBinned _ => exact hdrop trivial
    | emptyBin => exact hdrop trivial
    | addList _ _ _ => exact hdrop trivial
    | editList _ _ => exact hdrop trivial
    | moveList _ _ => exact hdrop trivial

/-- A step of a run that leaves the item binned and its place alone. -/
def Document.Aside (p : String → Bool) (id : String) (d : Document) (op : Operation) : Prop :=
  d.Trusts op ∧ d.Spares p op ∧ d.Elsewhere id op

/-- **A run of operations on other items.** -/
theorem exec_aside {ops : List Operation} (hp : p id = true) (h : Lags d.content d.index)
    (hm : d.content.item id = some m) (hbin : m.binnedAt.isSome = true)
    (hall : openDocuments.AllSteps (Document.Aside p id) d ops)
    (hrun : openDocuments.exec d ops = some d') :
    Lags d'.content d'.index ∧ d'.content.item id = some m ∧
      d.content.SamePlaces p d'.content := by
  induction ops generalizing d with
  | nil =>
    obtain rfl : d = d' := Option.some.inj hrun
    exact ⟨h, hm, .refl p _⟩
  | cons op ops ih =>
    obtain ⟨e, hact, hrest⟩ := Option.bind_eq_some_iff.1 hrun
    obtain ⟨⟨htrust, hspares, helse⟩, hnext⟩ := hall
    obtain ⟨hlags, hplaces⟩ := act_keeps (p := p) h htrust hact
    have hitem := item_elsewhere hp htrust hspares helse hm hbin hact
    obtain ⟨hlags', hitem', hplaces'⟩ := ih hlags hitem (hnext e hact) hrest
    exact ⟨hlags', hitem', (hplaces hspares).trans hplaces'⟩

end Restoring

/-- An item is what it was, and the items of the kind stand where they stood: in the orders that the
containers give, and in those that an index shows which agrees with them. -/
structure Document.Restored (p : String → Bool) (d d' : Document) (id : String) : Prop where
  item : d'.content.item id = d.content.item id
  order : ∀ l, (d'.content.order l).filter p = (d.content.order l).filter p
  openOrder : ∀ l, (d'.content.openOrder l).filter (fun y => p y && d.content.openNow y) =
    (d.content.openOrder l).filter fun y => p y && d'.content.openNow y
  resolved : Agrees d.content d.index → Agrees d'.content d'.index → ∀ l,
    (d'.index.resolved l).filter p = (d.index.resolved l).filter p
  openItemIds : Agrees d.content d.index → Agrees d'.content d'.index → ∀ l,
    (d'.index.openItemIds l).filter (fun y => p y && d.content.openNow y) =
      (d.index.openItemIds l).filter fun y => p y && d'.content.openNow y

section Restoring

variable {d d₁ d₂ d₃ : Document} {ids ids' : List String} {id : String} {now now' : ℤ}
  {ops : List Operation} {p : String → Bool}

theorem restored_of_samePlaces (hitem : d₃.content.item id = d.content.item id)
    (hplaces : d.content.SamePlaces p d₃.content) : d.Restored p d₃ id where
  item := hitem
  order := hplaces.order
  openOrder := hplaces.openOrder
  resolved h h' l := by
    have horder := hplaces.order l
    rwa [Content.order, Content.order, h.mirrors.resolved_eq (mirrors_computeIndex _),
      h'.mirrors.resolved_eq (mirrors_computeIndex _)] at horder
  openItemIds h h' l := by
    rw [(h.opens l).openItemIds, (h'.opens l).openItemIds, h.mirrors.openOf_eq,
      h'.mirrors.openOf_eq]
    exact hplaces.openOrder l

/-- **Binning and restoring**, with operations on other items between the two. -/
theorem restored (h : Lags d.content d.index) (hp : p id = true) (hid : id ∈ ids)
    (hid' : id ∈ ids') (hopen : (d.content.item id).bind ItemMap.binnedAt = none)
    (hbin : d.act (.mutate (.lifecycle ids (.set none) now)) = some d₁)
    (hall : openDocuments.AllSteps (Document.Aside p id) d₁ ops)
    (hrun : openDocuments.exec d₁ ops = some d₂)
    (hrestore : d₂.act (.mutate (.lifecycle ids' .restore now')) = some d₃) :
    d.Restored p d₃ id := by
  obtain ⟨hlags₁, hplaces₁⟩ := setItemsLifecycle_keeps (p := p) h hbin
  have hset : d.setItemsLifecycle ids (.set none) now = some d₁ := hbin
  have hset' : d₂.setItemsLifecycle ids' .restore now' = some d₃ := hrestore
  obtain ⟨hnodup, hcontent⟩ := setItemsLifecycle_content hset
  obtain ⟨hnodup', hcontent'⟩ := setItemsLifecycle_content hset'
  have hitem₁ : d₁.content.item id =
      (d.content.item id).map fun m => m.lifecycled (.set none) now := by
    rw [hcontent, item_foldl_writeLifecycle d.content hnodup, if_pos hid]
  cases hm : d.content.item id with
  | none =>
    -- an item that is not there is not binned: the call is refused
    have hnone := hbin
    unfold Document.act Document.apply Document.setItemsLifecycle at hnone
    dsimp only at hnone
    rw [if_neg (List.ne_nil_of_mem hid), if_pos] at hnone
    · cases hnone
    · refine .inr ?_
      rw [Bool.not_eq_true', List.all_eq_false]
      exact ⟨id, hid, by simp [Document.hasItem, hm]⟩
  | some m =>
    rw [hm, Option.bind_some] at hopen
    have hbinned : m.lifecycled (.set none) now = { m with binnedAt := some now } := by
      rw [ItemMap.lifecycled, applyLifecycleWrite, applyLifecycle, hopen]
      rfl
    rw [hm, Option.map_some, hbinned] at hitem₁
    obtain ⟨hlags₂, hitem₂, hplaces₂⟩ := exec_aside hp hlags₁ hitem₁ rfl hall hrun
    obtain ⟨-, hplaces₃⟩ := setItemsLifecycle_keeps (p := p) hlags₂ hrestore
    refine restored_of_samePlaces ?_ ((hplaces₁.trans hplaces₂).trans hplaces₃)
    rw [hcontent', item_foldl_writeLifecycle d₂.content hnodup', if_pos hid', hitem₂,
      Option.map_some, hm]
    obtain ⟨_, _, _, _, _, _, _, _, _, _, _, _, _, binnedAt⟩ := m
    obtain rfl : binnedAt = none := hopen
    rfl

end Restoring

/-! ## Again -/

namespace FocusedDocument

/-- What `set_items_lifecycle_impl` reports. -/
def lifecycleEvents (s : FocusedDocument) (itemIds : List String) (write : LifecycleWrite)
    (now : ℤ) : List AppEvent :=
  let closed := s.changed itemIds write now
  if closed = [] then []
  else
    (if closes write = true ∧ s.toDelete closed ≠ [] then [.focusChanged] else []) ++
      if BULK_LIFECYCLE_EVENT_THRESHOLD ≤ itemIds.length then
        s.toDocument.rebuildEvents write now itemIds
      else s.toDocument.patchEvents write now itemIds

variable {s s' : FocusedDocument} {itemIds : List String} {write : LifecycleWrite} {now : ℤ}

/-- A batch that changes no item changes nothing and reports nothing. -/
theorem setItemsLifecycle_unchanged (h : s.changed itemIds write now = [])
    (hset : s.setItemsLifecycle itemIds write now = some s') :
    s' = s ∧ s.lifecycleEvents itemIds write now = [] := by
  have hnone : ∀ id ∈ itemIds,
      ((s.content.item id).bind fun m => applyLifecycleWrite m write now) = none := by
    intro id hid
    have hnot := List.filter_eq_nil_iff.1 h id hid
    rwa [Document.writes, Bool.not_eq_true, Option.isSome_eq_false_iff,
      Option.isNone_iff_eq_none] at hnot
  have hpatch : s.toDocument.patchLifecycle itemIds write now = s.toDocument := by
    unfold Document.patchLifecycle
    clear hset h
    induction itemIds with
    | nil => rfl
    | cons id ids ih =>
      rw [List.foldl_cons, Document.syncLifecycle, hnone id List.mem_cons_self]
      exact ih fun y hy => hnone y (List.mem_cons_of_mem _ hy)
  have hrebuild : s.toDocument.rebuildLifecycle itemIds write now = s.toDocument := by
    refine if_neg fun hany => ?_
    obtain ⟨id, hid, hwrites⟩ := List.any_eq_true.1 hany
    rw [Document.writes, hnone id hid] at hwrites
    cases hwrites
  obtain ⟨d, hd, rfl⟩ := Option.map_eq_some_iff.1 hset
  have hsame : d = s.toDocument := by
    unfold Document.setItemsLifecycle at hd
    split at hd
    · exact (Option.some.inj hd).symm
    split at hd
    · cases hd
    split at hd
    · rw [← Option.some.inj hd, hrebuild]
    · rw [← Option.some.inj hd, hpatch]
  refine ⟨?_, if_pos h⟩
  rw [h, hsame]
  rfl

end FocusedDocument

/-! ## The law -/

/-- **Lifecycle transitions.**  In every document that is reached: an item that is binned and
restored is what it was before, where it was among the items that were not moved, whatever was done
to other items in between; the stamps of every item are written by its transitions and by nothing
else; and a batch that is in the lifecycle already is left alone, index, focus and consumer
included. -/
theorem lifecycle_transitions {d : Document} (h : openDocuments.Reach Document.Trusts d) :
    (∀ (p : String → Bool) (id : String) (ids ids' : List String) (now now' : ℤ)
        (ops : List Operation) (d₁ d₂ d₃ : Document),
      p id = true → id ∈ ids → id ∈ ids' → (d.content.item id).bind ItemMap.binnedAt = none →
      d.act (.mutate (.lifecycle ids (.set none) now)) = some d₁ →
      openDocuments.AllSteps (Document.Aside p id) d₁ ops →
      openDocuments.exec d₁ ops = some d₂ →
      d₂.act (.mutate (.lifecycle ids' .restore now')) = some d₃ → d.Restored p d₃ id) ∧
    (∀ (op : Operation) (d' : Document) (id : String), d.Trusts op → op.Local →
      d.act op = some d' → (d'.content.item id).isSome → d.Stamped d' op id) ∧
    ∀ (s s' : FocusedDocument) (itemIds : List String) (current : Option WorkflowState) (now : ℤ),
      s.toDocument = d →
      (∀ id ∈ itemIds, ∀ m, d.content.item id = some m → m.lifecycleNow = current) →
      s.setItemsLifecycle itemIds (.set current) now = some s' →
        s' = s ∧ s.lifecycleEvents itemIds (.set current) now = [] := by
  refine ⟨?_, ?_, ?_⟩
  · intro p id ids ids' now now' ops d₁ d₂ d₃ hp hid hid' hopen hbin hall hrun hrestore
    exact restored (reach_lags h) hp hid hid' hopen hbin hall hrun hrestore
  · intro op d' id htrust hlocal hact hid
    exact stamps_act htrust hlocal hact hid
  · rintro s s' itemIds current now rfl hcurrent hset
    refine FocusedDocument.setItemsLifecycle_unchanged ?_ hset
    refine List.filter_eq_nil_iff.2 fun id hid hwrites => ?_
    rw [Document.writes] at hwrites
    cases hm : s.content.item id with
    | none =>
      rw [hm] at hwrites
      cases hwrites
    | some m =>
      rw [hm, Option.bind_some, applyLifecycleWrite,
        applyLifecycle_current current (hcurrent id hid m hm)] at hwrites
      cases hwrites

/-- `a` is binned, `b` renamed, and `a` restored. -/
theorem lifecycle_transitions_renamed :
    ∃ d₃, (openDocuments.exec repeatedDocument
        [.mutate (.lifecycle ["a"] (.set none) 7), .edit "b" (.text "later"),
          .mutate (.lifecycle ["a"] .restore 9)]) = some d₃ ∧
      repeatedDocument.Restored (fun _ => true) d₃ "a" := by
  have hall := lifecycle_transitions (d := repeatedDocument) (.init ⟨repeatedContent, rfl⟩)
  have hsome : (openDocuments.exec repeatedDocument
      [.mutate (.lifecycle ["a"] (.set none) 7), .edit "b" (.text "later"),
        .mutate (.lifecycle ["a"] .restore 9)]).isSome = true := by decide +kernel
  obtain ⟨d₃, hrun⟩ := Option.isSome_iff_exists.1 hsome
  obtain ⟨d₁, hbin, hrest⟩ := Option.bind_eq_some_iff.1 hrun
  obtain ⟨d₂, hedit, hrest⟩ := Option.bind_eq_some_iff.1 hrest
  obtain ⟨d₃', hrestore, hend⟩ := Option.bind_eq_some_iff.1 hrest
  obtain rfl : d₃' = d₃ := Option.some.inj hend
  refine ⟨d₃', hrun, ?_⟩
  refine hall.1 (fun _ => true) "a" ["a"] ["a"] 7 9 [.edit "b" (.text "later")] d₁ d₂ d₃' rfl
    (List.mem_singleton_self _) (List.mem_singleton_self _) (by decide) hbin ?_ ?_ hrestore
  · have hne : "b" ≠ "a" := by decide
    exact ⟨⟨trivial, trivial, hne⟩, fun _ _ => trivial⟩
  · show (d₁.act (.edit "b" (.text "later"))).bind _ = some d₂
    replace hedit : d₁.act (.edit "b" (.text "later")) = some d₂ := hedit
    rw [hedit]
    rfl

end Monoplan.Doc
