import Monoplan.Base.Machine
import Monoplan.Doc.Frame

/-!
# The incremental index over whole runs

* `documents` is the machine of one open document: local mutations, wholesale rebuilds, and
  the frames of imports and of undo and redo steps.
* `agrees_step`: every step that is `Promised` and `Sound` keeps the agreement of the index
  with the containers.
* `index_matches_recomputation`: so in every run of such steps the index equals a
  recomputation in every state.
* `index_can_differ`: without soundness it does not.  An item with two canonical entries is
  moved past the second one.
-/

namespace Monoplan.Doc

open Monoplan.Base ProjectionIndex

/-! ## The machine -/

/-- What happens to an open document. -/
inductive Mutation
  | add (listId : String) (news : List NewItem) (target : ℕ) (state : WorkflowState)
      (author : Option String)
  | move (id listId : String) (target : ℕ) (placement : String)
  | lifecycle (ids : List String) (write : LifecycleWrite) (now : ℤ)
  | deleteBinned (ids : List String)
  | emptyBin
  | deleteList (listId : String) (placement : String → String) (now : ℤ)
  | addList (id name : String) (now : ℤ)
  | editList (listId : String) (edit : Document.RowEdit)
  | moveList (listId : String) (dest : ℕ)
  /-- A repair, a JSON import or a failed batch: the index is rebuilt. -/
  | rebuilt (content : Content)
  /-- An imported batch, or an undo or redo step. -/
  | frame (preSettings : Settings) (post : Workspace) (diffs : List CapturedDiff)

namespace Document

/-- One mutation; `none` is an error, which writes nothing. -/
def apply (d : Document) : Mutation → Option Document
  | .add listId news target state author => d.addItemsAt listId news target state author
  | .move id listId target placement => d.moveItem id listId target placement
  | .lifecycle ids write now => d.setItemsLifecycle ids write now
  | .deleteBinned ids => d.deleteBinnedItems ids
  | .emptyBin => some d.emptyBin
  | .deleteList listId placement now => d.deleteList listId placement now
  | .addList id name now => d.addList id name now
  | .editList listId edit => d.editList listId edit
  | .moveList listId dest => d.moveList listId dest
  | .rebuilt content => some (rebuildIndex { d with content })
  | .frame preSettings post diffs =>
    some {
      content := post.content
      index := (importFrame d.index d.content.allLists preSettings post diffs).1 }

/-- What the callers and the CRDT promise: minted ids are fresh and of the plain grammar, id
registers are written with the key, and captured diffs are exact. -/
def Promised (d : Document) : Mutation → Prop
  | .add listId news _ _ _ =>
    PlainId listId ∧ (news.map NewItem.id).Nodup ∧ ∀ n ∈ news, Minted d.content n
  | .move id listId _ placement =>
    PlainId id ∧ PlainId listId ∧
      ∀ e, some e ∈ d.content.slots listId → e.itemId = id → e.placementId ≠ placement
  | .emptyBin => d.content.Identified
  | .frame _ post diffs => Captures d.content post.content diffs ∧ post.content.Identified
  | _ => True

/-- The list's container is mirrored, empty, or one that a recomputation reads. -/
def Backed (d : Document) (l : String) : Prop :=
  d.content.Candidate l ∨ (d.index.rawOrders.get l).isSome = true ∨ d.content.slots l = []

/-- The step takes none of the two turns that leave the index behind: an item is not moved past
an entry it would still be shown through, and no list begins to count whose container has
entries that are not mirrored. -/
def Sound (d : Document) : Mutation → Prop
  | .add listId .. => d.Backed listId
  | .move id listId target _ =>
    ∀ slice, d.index.metas.get id = some slice →
      if slice.listId = listId then d.KeepsFirst id listId target slice.isOpen
      else d.Backed listId
  | .addList id .. => d.Backed id
  | .editList listId edit => ∀ name, edit = .name name → d.Backed listId
  | .frame preSettings post diffs =>
    translate d.index d.content.allLists preSettings post diffs = none ∨
      d.content.Covers post.content d.index diffs
  | _ => True

end Document

/-- One open document, booted from any content. -/
def documents : Machine Document Mutation where
  init d := ∃ c : Content, d = ⟨c, c.computeIndex⟩
  step := Document.apply

/-! ## Rows -/

variable {c c' : Content} {d d' : Document} {l : String}

theorem Content.mem_allListIds :
    l ∈ c.allListIds ↔ ∃ r v, some r ∈ c.lists ∧ listView r = some v ∧ v.id = l := by
  rw [allListIds, allLists, map_firstsOn, mem_firsts, List.mem_map]
  constructor
  · rintro ⟨v, hv, hl⟩
    obtain ⟨r, hr, hview⟩ := List.mem_filterMap.1 hv
    exact ⟨r, v, by simpa using hr, hview, hl⟩
  · rintro ⟨r, v, hr, hview, hl⟩
    exact ⟨v, List.mem_filterMap.2 ⟨r, by simpa using hr, hview⟩, hl⟩

theorem listView_eq_some {r : ListRow} {v : ListView} (h : listView r = some v) :
    r.id = some v.id ∧ r.name = some v.name ∧ r.createdAt = some v.createdAt := by
  obtain ⟨id, hid, h⟩ := Option.bind_eq_some_iff.1 h
  obtain ⟨name, hname, h⟩ := Option.bind_eq_some_iff.1 h
  obtain ⟨created, hcreated, rfl⟩ := Option.map_eq_some_iff.1 h
  exact ⟨hid, hname, hcreated⟩

theorem exists_listView {r : ListRow} {id name : String} {created : ℤ} (hid : r.id = some id)
    (hname : r.name = some name) (hcreated : r.createdAt = some created) :
    ∃ v, listView r = some v ∧ v.id = id := by
  unfold listView
  rw [hid, hname, hcreated]
  exact ⟨_, rfl, rfl⟩

/-- Writing a register of a row shows no list that was not shown, unless it is the name. -/
theorem listView_edited {edit : Document.RowEdit} {r : ListRow} {v : ListView}
    (h : listView (edit.apply r) = some v) :
    ((∃ name, edit = .name name) ∧ r.id = some v.id) ∨
      ∃ v', listView r = some v' ∧ v'.id = v.id := by
  obtain ⟨hid, hname, hcreated⟩ := listView_eq_some h
  cases edit with
  | name n => exact .inl ⟨⟨n, rfl⟩, hid⟩
  | icon _ => exact .inr (exists_listView hid hname hcreated)
  | view _ => exact .inr (exists_listView hid hname hcreated)
  | archivedAt _ => exact .inr (exists_listView hid hname hcreated)

/-- Rows do not matter to an index as long as no unmirrored list begins to count. -/
theorem Agrees.withRows (h : Agrees d.content d.index)
    {rows : List (Option ListRow)}
    (hrows : ∀ l, l ∈ ({ d.content with lists := rows } : Content).allListIds →
      d.Backed l) : Agrees { d.content with lists := rows } d.index where
  metas := h.metas
  membership := h.membership
  raw l := by
    rcases h.raw l with hsome | ⟨hnone, hnil⟩
    · exact .inl hsome
    · refine .inr ⟨hnone, fun hcand => ?_⟩
      rcases hcand with hinbox | hrow | hitem
      · exact hnil (.inl hinbox)
      · rcases hrows l hrow with hcand | hcached | hempty
        · exact hnil hcand
        · rw [hnone] at hcached
          cases hcached
        · exact hempty
      · exact hnil (.inr (.inr hitem))
  opens := h.opens

theorem backed_of_row {r : ListRow} {v : ListView} (hr : some r ∈ d.content.lists)
    (hview : listView r = some v) : d.Backed v.id :=
  .inl (.inr (.inl (Content.mem_allListIds.2 ⟨r, v, hr, hview, rfl⟩)))

theorem Agrees.rawOf_eq_of_backed (h : Agrees d.content d.index) (hl : d.Backed l) :
    d.index.rawOf l = d.content.slots l := by
  rcases hl with hcand | hcached | hempty
  · exact h.rawOf_eq hcand
  · rcases h.raw l with hsome | ⟨hnone, -⟩
    · rw [rawOf, hsome]
      rfl
    · rw [hnone] at hcached
      cases hcached
  · rcases h.raw l with hsome | ⟨hnone, -⟩
    · rw [rawOf, hsome]
      rfl
    · rw [rawOf, hnone, hempty]
      rfl

theorem mem_of_mem_moveWithin {α : Type*} {xs : List α} {source dest : ℕ} {a : α}
    (h : a ∈ moveWithin xs source dest) : a ∈ xs := by
  unfold moveWithin at h
  split at h
  · exact h
  · rename_i b hb
    rcases mem_placeAt.1 h with rfl | h
    · exact List.mem_of_getElem? hb
    · exact List.mem_of_mem_eraseIdx h

/-! ## One step -/

theorem agrees_moveItem (h : Agrees d.content d.index) {id : String} {target : ℕ}
    {placement : String} (hp : d.Promised (.move id l target placement))
    (hs : d.Sound (.move id l target placement))
    (hmove : d.moveItem id l target placement = some d') : Agrees d'.content d'.index := by
  obtain ⟨hid, hl, hfresh⟩ := hp
  unfold Document.moveItem at hmove
  split at hmove
  · cases hmove
  split at hmove
  · rename_i slice m hslice hm
    have hsound := hs slice hslice
    split at hmove
    · rename_i hlist
      cases hmove
      rw [if_pos hlist] at hsound
      exact agrees_reorderInList h hid hl hm hslice hlist hsound
    · rename_i hlist
      cases hmove
      rw [if_neg hlist] at hsound
      exact agrees_moveAcrossLists h hid hl hm hslice rfl hlist
        (h.rawOf_eq_of_backed hsound) hfresh
  · cases hmove

theorem agrees_deleteBinnedItems (h : Agrees d.content d.index) {ids : List String}
    (hdel : d.deleteBinnedItems ids = some d') : Agrees d'.content d'.index := by
  unfold Document.deleteBinnedItems at hdel
  split at hdel
  · cases hdel
    exact h
  split at hdel
  · cases hdel
  rename_i hnodup
  split at hdel
  · cases hdel
  split at hdel
  · cases hdel
  · cases hdel
    exact agrees_hardDeleteItems h (not_not.1 hnodup)

/-- The walk shows every item under its own id. -/
theorem map_id_iterItems (h : Agrees d.content d.index) (hid : d.content.Identified) :
    (d.iterItems.map ItemView.id).Nodup := by
  have hwalk := (h.toTracks.mirrors.walk d.content.allListIds).1
  unfold Document.iterItems
  generalize d.index.iterItems d.content.allListIds = walk at hwalk ⊢
  have hsub : ((walk.filterMap fun id => (d.content.item id).bind itemView).map
      ItemView.id).Sublist walk := by
    clear hwalk
    induction walk with
    | nil => exact List.Sublist.slnil
    | cons id walk ih =>
      cases hv : (d.content.item id).bind itemView with
      | none =>
        simp only [List.filterMap_cons, hv]
        exact ih.cons id
      | some v =>
        simp only [List.filterMap_cons, hv, List.map_cons]
        obtain ⟨m, hm, hview⟩ := Option.bind_eq_some_iff.1 hv
        have heq : v.id = id := by
          unfold itemView at hview
          rw [hid id m hm, Option.bind_some] at hview
          obtain ⟨text, -, hview⟩ := Option.bind_eq_some_iff.1 hview
          obtain ⟨created, -, rfl⟩ := Option.map_eq_some_iff.1 hview
          rfl
        rw [heq]
        exact ih.cons_cons id
  exact hsub.nodup hwalk

theorem agrees_emptyBin (h : Agrees d.content d.index) (hid : d.content.Identified) :
    Agrees d.emptyBin.content d.emptyBin.index := by
  unfold Document.emptyBin
  dsimp only
  split
  · exact h
  · refine agrees_hardDeleteItems h ?_
    exact ((List.filter_sublist).map ItemView.id).nodup (map_id_iterItems h hid)

theorem agrees_deleteList {placement : String → String} {now : ℤ}
    (hdel : d.deleteList l placement now = some d') : Agrees d'.content d'.index := by
  unfold Document.deleteList at hdel
  split at hdel
  · cases hdel
  split at hdel
  · cases hdel
  · cases hdel
    exact agrees_computeIndex _

theorem agrees_addList (h : Agrees d.content d.index) {id name : String} {now : ℤ}
    (hs : d.Backed id) (hadd : d.addList id name now = some d') :
    Agrees d'.content d'.index := by
  unfold Document.addList at hadd
  split at hadd
  · cases hadd
  · cases hadd
    refine h.withRows fun l hl => ?_
    obtain ⟨r, v, hr, hview, rfl⟩ := Content.mem_allListIds.1 hl
    rcases List.mem_append.1 hr with hr | hr
    · exact backed_of_row hr hview
    · rw [List.mem_singleton, Option.some.injEq] at hr
      subst hr
      cases hview
      exact hs

theorem agrees_editList (h : Agrees d.content d.index) {edit : Document.RowEdit}
    (hs : ∀ name, edit = .name name → d.Backed l) (hedit : d.editList l edit = some d') :
    Agrees d'.content d'.index := by
  unfold Document.editList at hedit
  split at hedit
  · cases hedit
  obtain ⟨row, hrow, rfl⟩ := Option.map_eq_some_iff.1 hedit
  obtain ⟨hlt, hnamed, -⟩ := List.findIdx?_eq_some_iff_getElem.1 hrow
  refine h.withRows fun l' hl' => ?_
  obtain ⟨r, v, hr, hview, rfl⟩ := Content.mem_allListIds.1 hl'
  obtain ⟨i, hi, hget⟩ := List.mem_iff_getElem.1 hr
  rw [List.length_modify] at hi
  rw [List.getElem_modify] at hget
  by_cases hrowi : row = i
  · -- the edited row shows a list that its old form already showed, unless it got a name
    subst hrowi
    rw [if_pos rfl] at hget
    obtain ⟨old, hold, rfl⟩ := Option.map_eq_some_iff.1 hget
    have hmem : some old ∈ d.content.lists := hold ▸ List.getElem_mem hi
    rw [hold] at hnamed
    have hid : old.id = some l := by simpa [Content.rowIs] using hnamed
    rcases listView_edited hview with ⟨⟨n, rfl⟩, hv⟩ | ⟨v', hv', hsame⟩
    · rw [hid, Option.some.injEq] at hv
      exact hv ▸ hs n rfl
    · exact hsame ▸ backed_of_row hmem hv'
  · rw [if_neg hrowi] at hget
    exact backed_of_row (hget ▸ List.getElem_mem hi) hview

theorem agrees_moveList (h : Agrees d.content d.index) {dest : ℕ}
    (hmove : d.moveList l dest = some d') : Agrees d'.content d'.index := by
  unfold Document.moveList at hmove
  split at hmove
  · cases hmove
  obtain ⟨row, -, rfl⟩ := Option.map_eq_some_iff.1 hmove
  refine h.withRows fun l' hl' => ?_
  obtain ⟨r, v, hr, hview, rfl⟩ := Content.mem_allListIds.1 hl'
  exact backed_of_row (mem_of_mem_moveWithin hr) hview

theorem agrees_importFrame (h : Agrees d.content d.index) {preSettings : Settings}
    {post : Workspace} {diffs : List CapturedDiff}
    (hp : d.Promised (.frame preSettings post diffs))
    (hs : d.Sound (.frame preSettings post diffs)) :
    Agrees post.content
      (importFrame d.index d.content.allLists preSettings post diffs).1 := by
  unfold importFrame
  cases ht : translate d.index d.content.allLists preSettings post diffs with
  | none => exact agrees_computeIndex _
  | some r =>
    have hcovers : d.content.Covers post.content d.index diffs := by
      rcases hs with hnone | hcovers
      · rw [hnone] at ht
        cases ht
      · exact hcovers
    obtain ⟨p, hplan, hp'⟩ := Option.bind_eq_some_iff.1 ht
    obtain ⟨evs, -, rfl⟩ := Option.map_eq_some_iff.1 hp'
    exact agrees_commit h (planned_of_plan hplan) hp.1 hp.2 hcovers

/-- **One step** keeps the agreement. -/
theorem agrees_step (h : Agrees d.content d.index) {m : Mutation} (hp : d.Promised m)
    (hs : d.Sound m) (hstep : d.apply m = some d') : Agrees d'.content d'.index := by
  cases m with
  | add l news target state author =>
    exact agrees_addItemsAt h hp.1 (h.rawOf_eq_of_backed hs) hp.2.1 hp.2.2 hstep
  | move id l target placement => exact agrees_moveItem h hp hs hstep
  | lifecycle ids write now => exact agrees_setItemsLifecycle h hstep
  | deleteBinned ids => exact agrees_deleteBinnedItems h hstep
  | emptyBin =>
    cases hstep
    exact agrees_emptyBin h hp
  | deleteList l placement now => exact agrees_deleteList hstep
  | addList id name now => exact agrees_addList h hs hstep
  | editList l edit => exact agrees_editList h hs hstep
  | moveList l dest => exact agrees_moveList h hstep
  | rebuilt content =>
    cases hstep
    exact agrees_computeIndex _
  | frame preSettings post diffs =>
    cases hstep
    exact agrees_importFrame h hp hs

/-! ## Whole runs -/

/-- **The incremental index.**  In every run from any content whose steps are sound, the index
equals a recomputation in every state. -/
theorem index_matches_recomputation
    (h : documents.Reach (fun d m => d.Promised m ∧ d.Sound m) d) :
    MatchesRecomputation d.content d.index := by
  have hagrees : Agrees d.content d.index := by
    induction h with
    | init h0 =>
      obtain ⟨c, rfl⟩ := h0
      exact agrees_computeIndex c
    | step _ hok hstep ih => exact agrees_step ih hok.1 hok.2 hstep
  exact hagrees.matches_recomputation

/-- Two merged repairs entered `x` twice under its placement. -/
def repeatedContent : Content where
  items := ((FMap.empty.insert "x"
      (some { id := some "x", location := some "inbox:p", createdAt := some 1 })).insert
    "a" (some { id := some "a", location := some "inbox:q", createdAt := some 2 })).insert
    "b" (some { id := some "b", location := some "inbox:r", createdAt := some 3 })
  orders l := if l = "inbox" then [some "x:p", some "a:q", some "x:p", some "b:r"] else []
  lists := []

def repeatedDocument : Document := ⟨repeatedContent, repeatedContent.computeIndex⟩

theorem promised_move (id : String) (target : ℕ) (h : PlainId id) :
    repeatedDocument.Promised (.move id "inbox" target "s") := by
  have hfresh : ∀ slot ∈ repeatedDocument.content.slots "inbox", ∀ e ∈ slot,
      e.placementId ≠ "s" := by decide
  exact ⟨h, by decide, fun e he _ => hfresh _ he e rfl⟩

/-- Moving `b`, which has one entry, is sound. -/
theorem index_matches_recomputation_single :
    ∃ d, documents.Reach (fun d m => d.Promised m ∧ d.Sound m) d ∧
      d.index.openItemIds "inbox" = ["b", "x", "a"] ∧
      MatchesRecomputation d.content d.index := by
  have hrun : (repeatedDocument.apply (.move "b" "inbox" 0 "s")).map
      (fun d => d.index.openItemIds "inbox") = some ["b", "x", "a"] := by decide
  obtain ⟨d, hd, hopen⟩ := Option.map_eq_some_iff.1 hrun
  have hsound : repeatedDocument.Sound (.move "b" "inbox" 0 "s") := by
    have hslice : repeatedDocument.index.metas.get "b" = some ⟨"inbox", "r", true, 3⟩ := by decide
    intro slice hs
    rw [hslice, Option.some.injEq] at hs
    subst hs
    intro source hsource _
    have hpos : repeatedDocument.index.canonicalRawPos "inbox" "b" = some 3 := by decide
    rw [hpos, Option.some.injEq] at hsource
    subst hsource
    exact .inr (.inr (by decide))
  have hreach : documents.Reach (fun d m => d.Promised m ∧ d.Sound m) d :=
    .step (.init ⟨repeatedContent, rfl⟩) ⟨promised_move "b" 0 (by decide), hsound⟩ hd
  exact ⟨d, hreach, hopen, index_matches_recomputation hreach⟩

/-- **Without soundness the index can differ.**  Moving `x` to the end moves its first entry
past the second one, so a recomputation shows it between `a` and `b`. -/
theorem index_can_differ :
    ∃ d, documents.Reach Document.Promised d ∧ ¬ MatchesRecomputation d.content d.index := by
  have hrun : (repeatedDocument.apply (.move "x" "inbox" 2 "s")).map
      (fun d => (d.index.openByList.get "inbox", d.content.computeIndex.openByList.get "inbox")) =
        some (some ["a", "b", "x"], some ["a", "x", "b"]) := by decide
  obtain ⟨d, hd, hopen⟩ := Option.map_eq_some_iff.1 hrun
  refine ⟨d, .step (.init ⟨repeatedContent, rfl⟩) (promised_move "x" 2 (by decide)) hd, ?_⟩
  intro hmatches
  rw [Prod.mk.injEq, ← hmatches.openByList] at hopen
  have heq := hopen.1.symm.trans hopen.2
  revert heq
  decide

end Monoplan.Doc
