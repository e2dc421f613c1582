import Monoplan.Web.Workspace

/-!
# Following the lists by their events

A frame that touched the lists is reported by comparing them before and after.

* `dispatchAll_diffLists`: after its events the workspace shows the lists in the order in which
  `rearrange` rebuilds it, each row as `arrived` leaves it.
* `dispatchAll_diffLists_iff`: so the workspace shows the lists of the document exactly if the
  order settles, no list arrives with an icon or a default view, and none changed its creation
  time.
* `diffLists_displaced`: three lists and a new one that are shown in another order.
-/

namespace Monoplan.Web

open Monoplan.Base Monoplan.Doc

/-! ## Rows by id -/

section Rows

variable {α : Type*} {key : α → String}

theorem rowsById_eq_none {rows : List α} {id : String} :
    rowsById key rows id = none ↔ id ∉ rows.map key := by
  simp [rowsById]

theorem rowsById_some {rows : List α} {id : String} {a : α} (h : rowsById key rows id = some a) :
    a ∈ rows ∧ key a = id :=
  ⟨List.mem_of_find?_eq_some h, by simpa using List.find?_some h⟩

theorem rowsById_of_mem {rows : List α} (hrows : (rows.map key).Nodup) {a : α} (ha : a ∈ rows) :
    rowsById key rows (key a) = some a := by
  cases hfind : rowsById key rows (key a) with
  | none => exact absurd (List.mem_map_of_mem ha) (rowsById_eq_none.1 hfind)
  | some b =>
    obtain ⟨hb, hkey⟩ := rowsById_some hfind
    rw [List.inj_on_of_nodup_map hrows hb ha hkey]

theorem rowsById_filter {rows : List α} {p : α → Bool} {id : String}
    (h : ∀ a ∈ rows, key a = id → p a = true) :
    rowsById key (rows.filter p) id = rowsById key rows id := by
  induction rows with
  | nil => rfl
  | cons a rows ih =>
    have ih' := ih fun b hb => h b (List.mem_cons_of_mem _ hb)
    rw [rowsById] at ih' ⊢
    by_cases hp : p a = true
    · rw [List.filter_cons_of_pos hp, List.find?_cons, ih', rowsById, rowsById, List.find?_cons]
    · have hne : key a ≠ id := fun heq => hp (h a List.mem_cons_self heq)
      rw [List.filter_cons_of_neg hp, ih', rowsById, rowsById,
        List.find?_cons_of_neg (by simpa using hne)]

/-- The rows with their positions are searched for the same row. -/
theorem find_zipIdx_none (key : α → String) {rows : List α} {n : ℕ} {id : String}
    (h : ((rows.zipIdx n).find? fun p => key p.1 = id) = none) : rowsById key rows id = none := by
  induction rows generalizing n with
  | nil => rfl
  | cons b rows ih =>
    rw [List.zipIdx_cons, List.find?_cons] at h
    rw [rowsById, List.find?_cons]
    by_cases hb : key b = id
    · simp [hb] at h
    · simp only [hb, decide_false] at h ⊢
      exact ih h

theorem find_zipIdx_some (key : α → String) {rows : List α} {n k : ℕ} {id : String} {a : α}
    (h : ((rows.zipIdx n).find? fun p => key p.1 = id) = some (a, k)) :
    rowsById key rows id = some a ∧ ∃ i, k = n + i ∧ (rows.map key)[i]? = some id := by
  induction rows generalizing n with
  | nil => simp at h
  | cons b rows ih =>
    rw [List.zipIdx_cons, List.find?_cons] at h
    rw [rowsById, List.find?_cons]
    by_cases hb : key b = id
    · simp only [hb, decide_true, Option.some.injEq, Prod.mk.injEq] at h ⊢
      exact ⟨h.1, 0, h.2.symm, by simp [hb]⟩
    · simp only [hb, decide_false] at h ⊢
      obtain ⟨hfind, i, hk, hget⟩ := ih h
      exact ⟨hfind, i + 1, by omega, by simpa using hget⟩

end Rows

namespace WorkspaceState

/-- The workspace shows these lists. -/
structure ShowsLists (s : WorkspaceState) (lists : List ListView) : Prop where
  order : s.listsOrder = lists.map ListView.id
  byId : s.listsById = rowsById ListView.id lists

/-! ## Lists that are gone -/

theorem removeLists (s : WorkspaceState) (ids : List String) :
    (s.dispatchAll (ids.map .listRemoved)).listsOrder =
        s.listsOrder.filter (fun x => decide (x ∉ ids)) ∧
      ∀ id, (s.dispatchAll (ids.map .listRemoved)).listsById id =
        if id ∈ ids then none else s.listsById id := by
  induction ids generalizing s with
  | nil => exact ⟨by simp, by simp⟩
  | cons x ids ih =>
    obtain ⟨horder, hby⟩ := ih (s.removeList x)
    rw [List.map_cons, dispatchAll_cons, dispatch]
    refine ⟨?_, fun id => ?_⟩
    · rw [horder, removeList, List.filter_filter]
      refine List.filter_congr fun y _ => ?_
      by_cases hy : y = x
      · simp [hy]
      · simp [hy]
    · rw [hby, removeList]
      by_cases hid : id = x
      · simp [hid]
      · simp [hid]

/-! ## Lists that stay or arrive -/

/-- What the events of a list leave of its row: a new list comes without what its event does not
carry, a list that stays keeps its creation time. -/
def arrived (pre : List ListView) (l : ListView) : ListView :=
  match rowsById ListView.id pre l.id with
  | none => { l with icon := none, defaultView := none }
  | some old => { l with createdAt := old.createdAt }

theorem editList_of_fix {s : WorkspaceState} {id : String} {v : ListView}
    {f : ListView → ListView} (hrow : s.listsById id = some v) (hf : f v = v) :
    s.editList id f = s := by
  have hsame : Function.update s.listsById id ((s.listsById id).map f) = s.listsById := by
    rw [hrow, Option.map_some, hf, ← hrow, Function.update_eq_self]
  rw [editList, hsame]

theorem editList_editList (s : WorkspaceState) (id : String) (f g : ListView → ListView) :
    (s.editList id f).editList id g = s.editList id (g ∘ f) := by
  simp [editList, Option.map_map]

/-- A change that is reported unless there is none. -/
theorem dispatchAll_edit {s : WorkspaceState} {id : String} {v : ListView}
    {f : ListView → ListView} (ev : AppEvent) {c : Prop} [Decidable c]
    (hrow : s.listsById id = some v) (hev : s.dispatch ev = s.editList id f) (hc : c → f v = v) :
    s.dispatchAll (if c then [] else [ev]) = s.editList id f := by
  by_cases h : c
  · rw [if_pos h, editList_of_fix hrow (hc h)]
    rfl
  · rw [if_neg h]
    exact hev

theorem editList_row {s : WorkspaceState} {id : String} {v : ListView} {f : ListView → ListView}
    (hrow : s.listsById id = some v) : (s.editList id f).listsById id = some (f v) := by
  simp [editList, hrow]

/-- The events of a list that stays. -/
theorem dispatchAll_listChanges {s : WorkspaceState} {old l : ListView} {preIdx postIdx : ℕ}
    (hid : old.id = l.id) (hrow : s.listsById l.id = some old) (hin : l.id ∈ s.listsOrder) :
    s.dispatchAll (listChanges old preIdx l postIdx) =
      { s with
        listsOrder := if preIdx = postIdx then s.listsOrder
          else reposition s.listsOrder postIdx l.id
        listsById := Function.update s.listsById l.id
          (some { l with createdAt := old.createdAt }) } := by
  have hname := dispatchAll_edit (.listRenamed l.id l.name) hrow
    (f := fun v => { v with name := l.name }) rfl (c := old.name = l.name) (fun h => by rw [← h])
  have hrow1 := editList_row (f := fun v => { v with name := l.name }) hrow
  have hicon := dispatchAll_edit (.listIconChanged l.id l.icon) hrow1
    (f := fun v => { v with icon := l.icon }) rfl (c := old.icon = l.icon) (fun h => by rw [← h])
  have hrow2 := editList_row (f := fun v => { v with icon := l.icon }) hrow1
  have hview := dispatchAll_edit (.listDefaultViewChanged l.id l.defaultView) hrow2
    (f := fun v => { v with defaultView := l.defaultView }) rfl
    (c := old.defaultView = l.defaultView) (fun h => by rw [← h])
  have hrow3 := editList_row (f := fun v => { v with defaultView := l.defaultView }) hrow2
  have harchived := dispatchAll_edit (.listArchivedChanged l.id l.archivedAt) hrow3
    (f := fun v => { v with archivedAt := l.archivedAt }) rfl
    (c := old.archivedAt = l.archivedAt) (fun h => by rw [← h])
  have hedited : ((((s.editList l.id fun v => { v with name := l.name }).editList l.id
      fun v => { v with icon := l.icon }).editList l.id
      fun v => { v with defaultView := l.defaultView }).editList l.id
      fun v => { v with archivedAt := l.archivedAt }) =
      { s with
        listsById := Function.update s.listsById l.id
          (some { l with createdAt := old.createdAt }) } := by
    rw [editList_editList, editList_editList, editList_editList, editList, hrow]
    simp [Function.comp_def, ← hid]
  rw [listChanges, dispatchAll_append, dispatchAll_append, dispatchAll_append, dispatchAll_append,
    hname, hicon, hview, harchived, hedited]
  by_cases hidx : preIdx = postIdx
  · rw [if_pos hidx, if_pos hidx]
    rfl
  · rw [if_neg hidx, if_neg hidx]
    exact if_pos hin

/-- The events of one list of the new sequence. -/
theorem dispatchAll_listArrival {pre : List ListView} (hpre : (pre.map ListView.id).Nodup)
    {s : WorkspaceState} {l : ListView} (i : ℕ)
    (hrow : s.listsById l.id = rowsById ListView.id pre l.id)
    (hin : l.id ∈ pre.map ListView.id → l.id ∈ s.listsOrder) :
    s.dispatchAll (listArrival pre l i) =
      { s with
        listsOrder := if (pre.map ListView.id)[i]? = some l.id then s.listsOrder
          else reposition s.listsOrder i l.id
        listsById := Function.update s.listsById l.id (some (arrived pre l)) } := by
  rw [listArrival, arrived]
  cases hfind : pre.zipIdx.find? fun p => p.1.id = l.id with
  | none =>
    have hnone := find_zipIdx_none ListView.id hfind
    have hout : (pre.map ListView.id)[i]? ≠ some l.id := fun h =>
      rowsById_eq_none.1 hnone (List.mem_of_getElem? h)
    rw [hnone] at hrow ⊢
    rw [if_neg hout]
    show s.addList l.id l.name l.createdAt l.archivedAt i = _
    rw [addList, hrow]
    rfl
  | some p =>
    obtain ⟨old, preIdx⟩ := p
    obtain ⟨hold, k, rfl, hget⟩ := find_zipIdx_some ListView.id hfind
    rw [hold] at hrow ⊢
    have hmoved : (0 + k = i) ↔ (pre.map ListView.id)[i]? = some l.id := by
      rw [Nat.zero_add]
      constructor
      · rintro rfl
        exact hget
      · intro h
        exact (List.getElem?_inj (List.getElem?_eq_some_iff.1 hget).1 hpre).1 (hget.trans h.symm)
    show s.dispatchAll (listChanges old (0 + k) l i) = _
    rw [dispatchAll_listChanges (rowsById_some hold).2 hrow (hin (List.mem_of_getElem? hget))]
    simp only [hmoved]

/-- The lists of the new sequence, from position `i` on. -/
theorem dispatchAll_arrivals {pre post : List ListView} (hpre : (pre.map ListView.id).Nodup)
    (hpost : (post.map ListView.id).Nodup) (s : WorkspaceState) (i : ℕ)
    (hrow : ∀ l ∈ post, s.listsById l.id = rowsById ListView.id pre l.id)
    (hin : ∀ l ∈ post, l.id ∈ pre.map ListView.id → l.id ∈ s.listsOrder) :
    s.dispatchAll ((post.zipIdx i).flatMap fun p => listArrival pre p.1 p.2) =
      { s with
        listsOrder := rearrange (pre.map ListView.id) i s.listsOrder (post.map ListView.id)
        listsById := fun id =>
          ((rowsById ListView.id post id).map (arrived pre)).or (s.listsById id) } := by
  induction post generalizing s i with
  | nil => rfl
  | cons l post ih =>
    obtain ⟨hl, hpost'⟩ := List.nodup_cons.1 hpost
    have hne : ∀ l' ∈ post, l'.id ≠ l.id := fun l' hl' heq =>
      hl (heq ▸ List.mem_map_of_mem hl')
    rw [List.zipIdx_cons, List.flatMap_cons, dispatchAll_append,
      dispatchAll_listArrival hpre i (hrow l List.mem_cons_self) (hin l List.mem_cons_self)]
    rw [ih hpost']
    · simp only [List.map_cons, rearrange, mk.injEq, true_and, and_true]
      funext id
      by_cases hid : id = l.id
      · have hnone : rowsById ListView.id post l.id = none := rowsById_eq_none.2 hl
        have hself : rowsById ListView.id (l :: post) l.id = some l := by simp [rowsById]
        rw [hid, hnone, hself, Function.update_self]
        rfl
      · have hskip : rowsById ListView.id (l :: post) id = rowsById ListView.id post id :=
          List.find?_cons_of_neg (by simpa using Ne.symm hid)
        rw [hskip, Function.update_of_ne hid]
    · intro l' hl'
      simp only [Function.update_of_ne (hne l' hl')]
      exact hrow l' (List.mem_cons_of_mem _ hl')
    · intro l' hl' hkept
      have := hin l' (List.mem_cons_of_mem _ hl') hkept
      dsimp only
      split_ifs
      · exact this
      · exact mem_reposition.2 (.inr this)

/-! ## The whole comparison -/

/-- What the workspace shows of the lists after the events of a frame. -/
theorem dispatchAll_diffLists {pre post : List ListView} (hpre : (pre.map ListView.id).Nodup)
    (hpost : (post.map ListView.id).Nodup) {s : WorkspaceState} (h : s.ShowsLists pre) :
    (s.dispatchAll (diffLists pre post)).listsOrder =
        rearrange (pre.map ListView.id) 0
          ((pre.map ListView.id).filter fun id => id ∈ post.map ListView.id)
          (post.map ListView.id) ∧
      (s.dispatchAll (diffLists pre post)).listsById =
        fun id => (rowsById ListView.id post id).map (arrived pre) := by
  have hgone : ((pre.filter fun l => l.id ∉ post.map ListView.id).map fun l =>
      AppEvent.listRemoved l.id) = ((pre.map ListView.id).filter fun id =>
        decide (id ∉ post.map ListView.id)).map .listRemoved := by
    rw [List.filter_map, List.map_map]
    rfl
  set gone := (pre.map ListView.id).filter fun id => decide (id ∉ post.map ListView.id) with hdef
  have hmem : ∀ id, id ∈ gone ↔ id ∈ pre.map ListView.id ∧ id ∉ post.map ListView.id := by
    simp [hdef]
  obtain ⟨horder, hby⟩ := removeLists s gone
  have hkept : (s.dispatchAll (gone.map .listRemoved)).listsOrder =
      (pre.map ListView.id).filter fun id => id ∈ post.map ListView.id := by
    rw [horder, h.order]
    refine List.filter_congr fun id hid => decide_eq_decide.2 ?_
    rw [hmem, not_and_not_right]
    exact ⟨fun hin => hin hid, fun hin _ => hin⟩
  have hrow : ∀ l ∈ post, (s.dispatchAll (gone.map .listRemoved)).listsById l.id =
      rowsById ListView.id pre l.id := by
    intro l hl
    rw [hby, if_neg fun hin => ((hmem _).1 hin).2 (List.mem_map_of_mem hl), h.byId]
  rw [diffLists, dispatchAll_append, hgone, dispatchAll_arrivals hpre hpost _ 0 hrow]
  · refine ⟨by rw [hkept], ?_⟩
    funext id
    dsimp only
    cases hfind : rowsById ListView.id post id with
    | some l => rfl
    | none =>
      rw [Option.map_none, Option.none_or, hby]
      by_cases hid : id ∈ gone
      · exact if_pos hid
      · rw [if_neg hid, h.byId]
        exact rowsById_eq_none.2 fun hin => hid ((hmem id).2 ⟨hin, rowsById_eq_none.1 hfind⟩)
  · intro l hl hin
    rw [hkept]
    exact List.mem_filter.2 ⟨hin, decide_eq_true (List.mem_map_of_mem hl)⟩

/-- A row arrives as it is. -/
theorem arrived_eq_self {pre : List ListView} (hpre : (pre.map ListView.id).Nodup) {l : ListView} :
    arrived pre l = l ↔
      (l.id ∉ pre.map ListView.id → l.icon = none ∧ l.defaultView = none) ∧
        ∀ old ∈ pre, old.id = l.id → old.createdAt = l.createdAt := by
  rw [arrived]
  cases hfind : rowsById ListView.id pre l.id with
  | none =>
    have hout := rowsById_eq_none.1 hfind
    constructor
    · intro heq
      refine ⟨fun _ => ⟨?_, ?_⟩, fun old hold hid => absurd (List.mem_map.2 ⟨old, hold, hid⟩) hout⟩
      · exact (congrArg ListView.icon heq).symm
      · exact (congrArg ListView.defaultView heq).symm
    · rintro ⟨hnew, -⟩
      obtain ⟨hicon, hview⟩ := hnew hout
      obtain ⟨id, name, icon, defaultView, archivedAt, createdAt⟩ := l
      dsimp only at hicon hview ⊢
      rw [hicon, hview]
  | some old =>
    obtain ⟨hold, hid⟩ := rowsById_some hfind
    constructor
    · intro heq
      refine ⟨fun hout => absurd (List.mem_map.2 ⟨old, hold, hid⟩) hout, fun old' hold' hid' => ?_⟩
      have hcreated := congrArg ListView.createdAt heq
      rw [List.inj_on_of_nodup_map hpre hold' hold (hid'.trans hid.symm)]
      exact hcreated
    · rintro ⟨-, hsame⟩
      dsimp only
      rw [hsame old hold hid]

/-- **The lists a workspace shows after a frame.**  They are the document's exactly if no list
is put in behind one whose place another still holds, no list arrives with an icon or a default
view, and every list that stays was created when it was before. -/
theorem dispatchAll_diffLists_iff {pre post : List ListView} (hpre : (pre.map ListView.id).Nodup)
    (hpost : (post.map ListView.id).Nodup) {s : WorkspaceState} (h : s.ShowsLists pre) :
    (s.dispatchAll (diffLists pre post)).ShowsLists post ↔
      Settles (pre.map ListView.id) (post.map ListView.id) ∧
        (∀ l ∈ post, l.id ∉ pre.map ListView.id → l.icon = none ∧ l.defaultView = none) ∧
        ∀ l ∈ post, ∀ old ∈ pre, old.id = l.id → old.createdAt = l.createdAt := by
  obtain ⟨horder, hby⟩ := dispatchAll_diffLists hpre hpost h
  have hrows : (s.dispatchAll (diffLists pre post)).listsById = rowsById ListView.id post ↔
      ∀ l ∈ post, arrived pre l = l := by
    rw [hby]
    constructor
    · intro heq l hl
      have hl' := congrFun heq l.id
      rw [rowsById_of_mem hpost hl] at hl'
      exact Option.some.inj hl'
    · intro hsame
      funext id
      cases hfind : rowsById ListView.id post id with
      | none => rfl
      | some l => rw [Option.map_some, hsame l (rowsById_some hfind).1]
  have hsettles := rearrange_eq_iff hpre hpost
  rw [← horder] at hsettles
  constructor
  · rintro ⟨ho, hb⟩
    have hall := fun l hl => (arrived_eq_self hpre).1 (hrows.1 hb l hl)
    exact ⟨hsettles.1 ho, fun l hl => (hall l hl).1, fun l hl => (hall l hl).2⟩
  · rintro ⟨hset, hnew, hsame⟩
    exact ⟨hsettles.2 hset,
      hrows.2 fun l hl => (arrived_eq_self hpre).2 ⟨hnew l hl, hsame l hl⟩⟩

end WorkspaceState

/-- A list with a name only. -/
def plainList (id : String) : ListView := ⟨id, id, none, none, none, 0⟩

theorem dispatchAll_diffLists_swapped :
    ((materialize [] [plainList "a", plainList "b"] {} []).dispatchAll
      (diffLists [plainList "a", plainList "b"] [plainList "b", plainList "a"])).ShowsLists
      [plainList "b", plainList "a"] :=
  (WorkspaceState.dispatchAll_diffLists_iff (by decide) (by decide) ⟨rfl, rfl⟩).2
    ⟨by decide, by decide, by decide⟩

/-- A list is added among three that change places; it is put in behind one that the third is
still in front of. -/
theorem diffLists_displaced :
    ¬ ∀ (pre post : List ListView) (s : WorkspaceState),
      (pre.map ListView.id).Nodup → (post.map ListView.id).Nodup → s.ShowsLists pre →
      (s.dispatchAll (diffLists pre post)).ShowsLists post := by
  intro h
  have hshown := (h [plainList "a", plainList "b", plainList "c"]
    [plainList "c", plainList "b", plainList "n", plainList "a"]
    (materialize [] [plainList "a", plainList "b", plainList "c"] {} []) (by decide) (by decide)
    ⟨rfl, rfl⟩).order
  revert hshown
  decide

end Monoplan.Web
