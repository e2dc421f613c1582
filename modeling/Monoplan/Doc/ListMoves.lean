import Monoplan.Doc.Mutate

/-!
# Moving a list

A user drags a list among the active ones; the `lists` container also holds archived rows, rows
that no list can be read from, and rows that repeat an earlier row's id.

* `moveListTo` is `move_list` with the position of the drop resolved.
* `allLists_moved`: after a move the first row of the list's id stands after the lists that come
  before it in the container.
* `moveListTo_iff`: so the list lands where it was dropped exactly if no repeated row of it comes
  to stand before it, or one that reads the same and stands at the same place.
* `moveListTo_repeated`: two rows of one id, and a move that shows the other one.
-/

namespace Monoplan.Doc

open Monoplan.Base

/-! ## The move -/

/-- The slots of the rows of other lists: whether an active list is shown through them. -/
def activeSlots (listId : String) : Finset String → List (Option ListRow) → List Bool
  | _, [] => []
  | seen, none :: rows => false :: activeSlots listId seen rows
  | seen, some r :: rows =>
    if r.id = some listId then activeSlots listId seen rows
    else match r.id with
      | none => false :: activeSlots listId seen rows
      | some id => (decide (id ∉ seen) && r.archivedAt.isNone) ::
          activeSlots listId (insert id seen) rows

/-- The slot of the list at an active position, or the one after the last active list: at `pos`,
with `active` lists before it, the last of them before `after`. -/
def slotFrom (target : ℕ) : ℕ → ℕ → ℕ → List Bool → ℕ
  | _, _, after, [] => after
  | pos, active, after, slot :: slots =>
    if slot then
      if active = target then pos else slotFrom target (pos + 1) (active + 1) (pos + 1) slots
    else slotFrom target (pos + 1) active after slots

namespace Content

/-- `resolve_active_move_target`. -/
def resolveActiveMoveTarget (c : Content) (listId : String) (target : ℕ) : ℕ :=
  slotFrom target 0 0 0 (activeSlots listId ∅ c.lists)

/-- `active_lists`. -/
def activeLists (c : Content) : List ListView := c.allLists.filter fun v => v.archivedAt.isNone

/-- The archived lists, in the same order. -/
def archivedLists (c : Content) : List ListView := c.allLists.filter fun v => v.archivedAt.isSome

/-- Where `move_list` moves the row at `from_`. -/
def moveListDest (c : Content) (listId : String) (row : Option ListRow) (target : ℕ) : ℕ :=
  if (row.bind ListRow.archivedAt).isNone then c.resolveActiveMoveTarget listId target
  else min target (c.lists.length - 1)

end Content

/-- `move_list` of the list to a position. -/
def Document.moveListTo (d : Document) (listId : String) (target : ℕ) : Option Document :=
  if Content.isReservedList listId then none
  else match d.content.findList listId with
    | none => none
    | some source =>
      let dest := d.content.moveListDest listId (d.content.lists[source]?).join target
      if source = dest then some d else d.moveList listId dest

/-! ## Rows -/

/-- What the rows read as. -/
def viewsOf (rows : List (Option ListRow)) : List ListView :=
  (rows.filterMap id).filterMap listView

/-- Every row that has an id has what makes it a list: both are written in one commit. -/
def Content.RowsComplete (c : Content) : Prop :=
  ∀ r, some r ∈ c.lists → r.id.isSome → (listView r).isSome

theorem viewsOf_append (xs ys : List (Option ListRow)) :
    viewsOf (xs ++ ys) = viewsOf xs ++ viewsOf ys := by
  rw [viewsOf, List.filterMap_append, List.filterMap_append]
  rfl

theorem viewsOf_cons_some {r : ListRow} {v : ListView} (h : listView r = some v)
    (rows : List (Option ListRow)) : viewsOf (some r :: rows) = v :: viewsOf rows := by
  simp [viewsOf, h]

theorem listView_id {r : ListRow} {v : ListView} (h : listView r = some v) :
    r.id = some v.id ∧ r.archivedAt = v.archivedAt := by
  obtain ⟨id, hid, h⟩ := Option.bind_eq_some_iff.1 h
  obtain ⟨name, -, h⟩ := Option.bind_eq_some_iff.1 h
  obtain ⟨createdAt, -, rfl⟩ := Option.map_eq_some_iff.1 h
  exact ⟨hid, rfl⟩

/-- Rows without a row of the list. -/
def others (listId : String) (rows : List (Option ListRow)) : List (Option ListRow) :=
  rows.filter fun row => !Content.rowIs listId row

/-! ## Slots -/

theorem activeSlots_cons_self {listId : String} {r : ListRow} (h : r.id = some listId)
    (seen : Finset String) (rows : List (Option ListRow)) :
    activeSlots listId seen (some r :: rows) = activeSlots listId seen rows := by
  rw [activeSlots, if_pos h]

/-- The rows of the list itself are passed over. -/
theorem activeSlots_append_cons {listId : String} {r : ListRow} (h : r.id = some listId)
    (seen : Finset String) (xs ys : List (Option ListRow)) :
    activeSlots listId seen (xs ++ some r :: ys) = activeSlots listId seen (xs ++ ys) := by
  induction xs generalizing seen with
  | nil => exact activeSlots_cons_self h seen ys
  | cons row xs ih =>
    cases row with
    | none =>
      rw [List.cons_append, List.cons_append, activeSlots, activeSlots, ih]
    | some q =>
      rw [List.cons_append, List.cons_append, activeSlots, activeSlots]
      split
      · exact ih seen
      · split
        · rw [ih]
        · rw [ih]

/-- Slots of the first rows, and how many active lists those rows show. -/
theorem activeSlots_prefix {listId : String} {xs : List (Option ListRow)}
    (hout : ∀ row ∈ xs, Content.rowIs listId row = false)
    (hcomplete : ∀ r, some r ∈ xs → r.id.isSome → (listView r).isSome)
    (seen : Finset String) (ys : List (Option ListRow)) :
    (activeSlots listId seen (xs ++ ys)).take xs.length = activeSlots listId seen xs ∧
      (activeSlots listId seen xs).length = xs.length ∧
      (activeSlots listId seen xs).count true =
        ((firstsOnFrom ListView.id seen (viewsOf xs)).filter fun v => v.archivedAt.isNone).length := by
  induction xs generalizing seen with
  | nil => exact ⟨rfl, rfl, rfl⟩
  | cons row xs ih =>
    have ih' := ih (fun row hrow => hout row (List.mem_cons_of_mem _ hrow))
      fun r hr => hcomplete r (List.mem_cons_of_mem _ hr)
    cases row with
    | none =>
      obtain ⟨htake, hlen, hcount⟩ := ih' seen
      refine ⟨?_, ?_, ?_⟩
      · rw [List.cons_append, activeSlots, activeSlots, List.length_cons, List.take_succ_cons, htake]
      · rw [activeSlots, List.length_cons, List.length_cons, hlen]
      · rw [activeSlots, List.count_cons_of_ne (by decide), hcount]
        rfl
    | some r =>
      have hne : r.id ≠ some listId := by
        have hrow := hout (some r) List.mem_cons_self
        simpa [Content.rowIs] using hrow
      cases hid : r.id with
      | none =>
        have hview : listView r = none := by
          rw [listView, hid]
          rfl
        obtain ⟨htake, hlen, hcount⟩ := ih' seen
        have hslots : ∀ rows, activeSlots listId seen (some r :: rows) =
            false :: activeSlots listId seen rows := fun rows => by
          rw [activeSlots, if_neg hne, hid]
        refine ⟨?_, ?_, ?_⟩
        · rw [List.cons_append, hslots, hslots, List.length_cons, List.take_succ_cons, htake]
        · rw [hslots, List.length_cons, List.length_cons, hlen]
        · rw [hslots, List.count_cons_of_ne (by decide), hcount]
          simp [viewsOf, hview]
      | some k =>
        obtain ⟨v, hv⟩ := Option.isSome_iff_exists.1
          (hcomplete r List.mem_cons_self (by rw [hid]; rfl))
        obtain ⟨hvid, harch⟩ := listView_id hv
        have hk : v.id = k := Option.some.inj (hvid.symm.trans hid)
        obtain ⟨htake, hlen, hcount⟩ := ih' (insert k seen)
        have hslots : ∀ rows, activeSlots listId seen (some r :: rows) =
            (decide (k ∉ seen) && r.archivedAt.isNone) ::
              activeSlots listId (insert k seen) rows := fun rows => by
          rw [activeSlots, if_neg hne, hid]
        refine ⟨?_, ?_, ?_⟩
        · rw [List.cons_append, hslots, hslots, List.length_cons, List.take_succ_cons, htake]
        · rw [hslots, List.length_cons, List.length_cons, hlen]
        · rw [hslots, viewsOf_cons_some hv, firstsOnFrom, hk]
          by_cases hseen : k ∈ seen
          · rw [if_pos hseen, List.count_cons_of_ne (by simp [hseen]), hcount,
              Finset.insert_eq_of_mem hseen]
          · rw [if_neg hseen, harch]
            cases hv' : v.archivedAt with
            | none => simp [hseen, hcount, hv']
            | some since => simp [hseen, hcount, hv']

/-- The slot of a drop: as many active lists before it as the drop says, or all of them. -/
theorem slotFrom_spec (target : ℕ) (before slots : List Bool) (after : ℕ)
    (hactive : before.count true ≤ target) (hafter : after ≤ before.length)
    (hlast : (before.take after).count true = before.count true) :
    slotFrom target before.length (before.count true) after slots ≤ (before ++ slots).length ∧
      ((before ++ slots).take (slotFrom target before.length (before.count true) after
        slots)).count true = min target ((before ++ slots).count true) := by
  induction slots generalizing before after with
  | nil =>
    rw [List.append_nil, slotFrom, hlast, Nat.min_eq_right hactive]
    exact ⟨hafter, rfl⟩
  | cons slot slots ih =>
    have hsplit : before ++ slot :: slots = (before ++ [slot]) ++ slots := by simp
    cases slot with
    | true =>
      rw [slotFrom, if_pos rfl]
      split
      · rename_i heq
        refine ⟨by rw [List.length_append]; omega, ?_⟩
        rw [List.take_left, List.count_append, heq]
        omega
      · rename_i hne
        have hcount : (before ++ [true]).count true = before.count true + 1 := by simp
        have hlen : (before ++ [true]).length = before.length + 1 := by simp
        have hstep := ih (before ++ [true]) (before.length + 1)
          (by rw [hcount]; omega) hlen.ge
          (by rw [List.take_of_length_le hlen.le])
        rw [hcount, hlen, ← hsplit] at hstep
        exact hstep
    | false =>
      rw [slotFrom, if_neg Bool.false_ne_true]
      have hcount : (before ++ [false]).count true = before.count true := by simp
      have hlen : (before ++ [false]).length = before.length + 1 := by simp
      have hstep := ih (before ++ [false]) after (by rw [hcount]; exact hactive)
        (by rw [hlen]; omega)
        (by rw [List.take_append_of_le_length hafter, hlast, hcount])
      rw [hcount, hlen, ← hsplit] at hstep
      exact hstep

theorem activeSlots_others (listId : String) (seen : Finset String)
    (rows : List (Option ListRow)) :
    activeSlots listId seen rows = activeSlots listId seen (others listId rows) := by
  induction rows generalizing seen with
  | nil => rfl
  | cons row rows ih =>
    cases row with
    | none =>
      rw [others, List.filter_cons_of_pos rfl, activeSlots, activeSlots, ih]
      rfl
    | some r =>
      by_cases hid : r.id = some listId
      · have hrow : Content.rowIs listId (some r) = true := decide_eq_true hid
        rw [activeSlots_cons_self hid, ih, others, others, List.filter_cons_of_neg (by simp [hrow])]
      · have hrow : Content.rowIs listId (some r) = false := decide_eq_false hid
        rw [others, List.filter_cons_of_pos (by simp [hrow]), activeSlots, if_neg hid, activeSlots,
          if_neg hid]
        split
        · rw [ih]
          rfl
        · rw [ih]
          rfl

/-! ## What a row shows -/

/-- The lists of other ids. -/
def otherLists (listId : String) (rows : List (Option ListRow)) : List ListView :=
  firstsOn ListView.id (viewsOf (others listId rows))

theorem viewsOf_others (listId : String) (rows : List (Option ListRow)) :
    viewsOf (others listId rows) = (viewsOf rows).filter fun v => v.id ≠ listId := by
  induction rows with
  | nil => rfl
  | cons row rows ih =>
    cases row with
    | none =>
      rw [others, List.filter_cons_of_pos rfl]
      exact ih
    | some r =>
      cases hv : listView r with
      | none =>
        have hskip : ∀ rows, viewsOf (some r :: rows) = viewsOf rows := fun rows => by
          simp [viewsOf, hv]
        rw [hskip, ← ih, others, others, List.filter_cons]
        split
        · exact hskip _
        · rfl
      | some v =>
        obtain ⟨hid, -⟩ := listView_id hv
        rw [viewsOf_cons_some hv]
        by_cases heq : v.id = listId
        · have hrow : Content.rowIs listId (some r) = true :=
            decide_eq_true (hid.trans (congrArg some heq))
          rw [others, List.filter_cons_of_neg (by simp [hrow]),
            List.filter_cons_of_neg (by simp [heq])]
          exact ih
        · have hrow : Content.rowIs listId (some r) = false :=
            decide_eq_false fun h => heq (Option.some.inj (hid.symm.trans h))
          rw [others, List.filter_cons_of_pos (by simp [hrow]),
            List.filter_cons_of_pos (by simp [heq]), viewsOf_cons_some hv]
          exact congrArg (v :: ·) ih

theorem others_of_out {listId : String} {xs : List (Option ListRow)}
    (hout : ∀ row ∈ xs, Content.rowIs listId row = false) : others listId xs = xs :=
  List.filter_eq_self.2 fun row hrow => by simp [hout row hrow]

/-- **The first row of an id** shows its list, after the lists of the rows before it. -/
theorem firstsOn_rows {listId : String} {xs ys : List (Option ListRow)} {r : ListRow}
    {v : ListView} (hout : ∀ row ∈ xs, Content.rowIs listId row = false)
    (hv : listView r = some v) (hid : v.id = listId) :
    firstsOn ListView.id (viewsOf (xs ++ some r :: ys)) =
        placeAt (otherLists listId (xs ++ some r :: ys))
          (firstsOn ListView.id (viewsOf xs)).length v ∧
      (otherLists listId (xs ++ some r :: ys)).take (firstsOn ListView.id (viewsOf xs)).length =
        firstsOn ListView.id (viewsOf xs) := by
  have hnot : v.id ∉ (viewsOf xs).map ListView.id := by
    rw [hid, ← others_of_out hout, viewsOf_others]
    simp
  have hothers : otherLists listId (xs ++ some r :: ys) =
      (firstsOn ListView.id (viewsOf xs ++ viewsOf ys)).filter fun w => w.id ≠ listId := by
    rw [otherLists, viewsOf_others, viewsOf_append, viewsOf_cons_some hv, List.filter_append,
      List.filter_cons_of_neg (by simp [hid]), ← List.filter_append]
    exact (filter_firstsOn ListView.id (fun k => decide (k ≠ listId)) _).symm
  constructor
  · rw [hothers, viewsOf_append, viewsOf_cons_some hv, firstsOn_first ListView.id hnot, hid]
  · rw [hothers, firstsOn_append, List.filter_append]
    have hkeep : (firstsOn ListView.id (viewsOf xs)).filter (fun w => w.id ≠ listId) =
        firstsOn ListView.id (viewsOf xs) := by
      refine List.filter_eq_self.2 fun w hw => decide_eq_true fun heq => hnot ?_
      rw [hid, ← heq]
      exact List.mem_map_of_mem ((firstsOn_sublist _ _).subset hw)
    rw [hkeep, List.take_left]

/-! ## What a move shows -/

namespace Content

variable {c : Content} {listId : String} {source : ℕ}

theorem findList_spec (h : c.findList listId = some source) : ∃ xs r ys,
    c.lists = xs ++ some r :: ys ∧ xs.length = source ∧ r.id = some listId ∧
      ∀ row ∈ xs, rowIs listId row = false := by
  obtain ⟨hlt, hrow, hbefore⟩ := List.findIdx?_eq_some_iff_getElem.1 h
  cases hget : c.lists[source] with
  | none =>
    rw [hget] at hrow
    exact absurd hrow Bool.false_ne_true
  | some r =>
    rw [hget] at hrow
    refine ⟨c.lists.take source, r, c.lists.drop (source + 1), ?_, ?_, of_decide_eq_true hrow, ?_⟩
    · rw [← hget, List.getElem_cons_drop, List.take_append_drop]
    · rw [List.length_take, Nat.min_eq_left hlt.le]
    · intro row hmem
      obtain ⟨i, hi, rfl⟩ := List.mem_iff_getElem.1 hmem
      rw [List.length_take, Nat.lt_min] at hi
      rw [List.getElem_take]
      simpa using hbefore i hi.1

/-- Of the list's rows, the one that is shown after the drop reads as the one that was shown, and
no active list comes to stand between it and where the list was dropped. -/
def KeepsShownRow (c : Content) (listId : String) (target : ℕ) : Prop :=
  ∀ source, c.findList listId = some source →
    let rest := c.lists.eraseIdx source
    let dest := c.resolveActiveMoveTarget listId target
    let again := rest.findIdx (rowIs listId)
    dest ≤ again ∨
      (rest[again]?.join.bind listView = (c.lists[source]?).join.bind listView ∧
        true ∉ ((activeSlots listId ∅ c.lists).take dest).drop again)

/-- The list stands where it was dropped among the active lists, and nothing else has changed. -/
structure ListMovedTo (c c' : Content) (listId : String) (target : ℕ) : Prop where
  active : ∀ v ∈ c.activeLists, v.id = listId →
    c'.activeLists = placeAt (c.activeLists.filter fun w => w.id ≠ listId)
      (min target (c.activeLists.filter fun w => w.id ≠ listId).length) v
  archived : c'.archivedLists = c.archivedLists

/-- The lists of rows whose first row of an id is `r`. -/
theorem allLists_of_rows {xs ys : List (Option ListRow)} {r : ListRow} {v : ListView}
    (hrows : c.lists = xs ++ some r :: ys)
    (hout : ∀ row ∈ xs, Content.rowIs listId row = false) (hv : listView r = some v)
    (hid : v.id = listId) :
    c.allLists = placeAt (otherLists listId c.lists) (firstsOn ListView.id (viewsOf xs)).length v ∧
      (otherLists listId c.lists).take (firstsOn ListView.id (viewsOf xs)).length =
        firstsOn ListView.id (viewsOf xs) := by
  rw [allLists]
  show firstsOn ListView.id (viewsOf c.lists) = _ ∧ _
  rw [hrows]
  exact firstsOn_rows hout hv hid

theorem filter_placeAt (p : ListView → Bool) (l : List ListView) (i : ℕ) (v : ListView) :
    (placeAt l i v).filter p =
      if p v then placeAt (l.filter p) ((l.take i).filter p).length v else l.filter p := by
  have hsplit : l.filter p = (l.take i).filter p ++ (l.drop i).filter p := by
    rw [← List.filter_append, List.take_append_drop]
  rw [placeAt, List.filter_append, List.filter_cons]
  split
  · rw [hsplit, placeAt_append]
  · exact hsplit.symm

theorem ne_of_mem_otherLists {rows : List (Option ListRow)} {v : ListView}
    (hv : v ∈ otherLists listId rows) : v.id ≠ listId := by
  have hmem := (firstsOn_sublist _ _).subset hv
  rw [viewsOf_others] at hmem
  exact of_decide_eq_true (List.mem_filter.1 hmem).2

/-- How many active lists the rows before a row of the list show. -/
theorem count_slots (hcomplete : c.RowsComplete) {xs ys : List (Option ListRow)}
    (hrows : others listId c.lists = xs ++ ys)
    (hout : ∀ row ∈ xs, Content.rowIs listId row = false) :
    xs.length ≤ (activeSlots listId ∅ c.lists).length ∧
    ((activeSlots listId ∅ c.lists).take xs.length).count true =
      ((firstsOn ListView.id (viewsOf xs)).filter fun v => v.archivedAt.isNone).length := by
  have hcomplete' : ∀ r, some r ∈ xs → r.id.isSome → (listView r).isSome := fun r hr => by
    have hmem : some r ∈ others listId c.lists := by
      rw [hrows]
      exact List.mem_append_left _ hr
    exact hcomplete r (List.mem_filter.1 hmem).1
  obtain ⟨htake, hlen, hcount⟩ := activeSlots_prefix hout hcomplete' ∅ ys
  rw [activeSlots_others, hrows]
  constructor
  · rw [← hlen, ← htake]
    exact List.length_take_le' _ _
  · rw [htake, hcount]
    rfl

/-- **What is shown** of rows whose first row of the list is `r`. -/
theorem shown_of_rows (hcomplete : c.RowsComplete) {xs ys : List (Option ListRow)} {r : ListRow}
    {v : ListView} (hrows : c.lists = xs ++ some r :: ys)
    (hout : ∀ row ∈ xs, Content.rowIs listId row = false) (hv : listView r = some v)
    (hid : v.id = listId) :
    c.activeLists =
      (if v.archivedAt.isNone then
        placeAt ((otherLists listId c.lists).filter fun v => v.archivedAt.isNone)
          (((activeSlots listId ∅ c.lists).take xs.length).count true) v
      else (otherLists listId c.lists).filter fun v => v.archivedAt.isNone) ∧
    (v.archivedAt.isNone →
      c.archivedLists = (otherLists listId c.lists).filter fun v => v.archivedAt.isSome) := by
  obtain ⟨hall, htake⟩ := allLists_of_rows hrows hout hv hid
  have hothers : others listId c.lists = xs ++ others listId (some r :: ys) := by
    rw [hrows, others, List.filter_append]
    exact congrArg (· ++ _) (others_of_out hout)
  obtain ⟨-, hcount⟩ := count_slots hcomplete hothers hout
  constructor
  · rw [activeLists, hall, filter_placeAt, htake, hcount]
  · intro hactive
    rw [archivedLists, hall, filter_placeAt, if_neg]
    rw [Option.isNone_iff_eq_none.1 hactive]
    exact Bool.false_ne_true

theorem slots_length (listId : String) (hcomplete : c.RowsComplete) :
    (activeSlots listId ∅ c.lists).length = (others listId c.lists).length ∧
      (activeSlots listId ∅ c.lists).count true =
        ((otherLists listId c.lists).filter fun v => v.archivedAt.isNone).length := by
  have hout : ∀ row ∈ others listId c.lists, Content.rowIs listId row = false := fun row hrow => by
    simpa using (List.mem_filter.1 hrow).2
  obtain ⟨-, hlen, hcount⟩ := activeSlots_prefix hout
    (fun r hr => hcomplete r (List.mem_filter.1 hr).1) ∅ []
  rw [activeSlots_others]
  exact ⟨hlen, hcount⟩

/-- Where a drop lands among the slots. -/
theorem dest_spec (c : Content) (listId : String) (target : ℕ) :
    c.resolveActiveMoveTarget listId target ≤ (activeSlots listId ∅ c.lists).length ∧
      ((activeSlots listId ∅ c.lists).take (c.resolveActiveMoveTarget listId target)).count true =
        min target ((activeSlots listId ∅ c.lists).count true) :=
  slotFrom_spec target [] _ _ (Nat.zero_le _) (Nat.le_refl _) rfl

/-- The row that was shown stays the first, so the list stands where it was dropped. -/
theorem movedTo_of_first {c c' : Content} {target : ℕ} {A : List ListView} {v : ListView} {k : ℕ}
    (hv : v.id = listId) (hne : ∀ w ∈ A, w.id ≠ listId)
    (hactive : c.activeLists = placeAt A k v) (hactive' : c'.activeLists = placeAt A (min target A.length) v)
    (harchived : c'.archivedLists = c.archivedLists) : ListMovedTo c c' listId target := by
  have hothers : (c.activeLists.filter fun w => w.id ≠ listId) = A := by
    rw [hactive, filter_placeAt, if_neg (by simp [hv])]
    exact List.filter_eq_self.2 fun w hw => decide_eq_true (hne w hw)
  refine ⟨fun w hw hid => ?_, harchived⟩
  have heq : w = v := by
    rw [hactive] at hw
    exact (mem_placeAt.1 hw).resolve_right fun hin => hne w hin hid
  rw [hothers, heq, hactive']

/-- The container after a move, and what it shows. -/
theorem movedTo_iff {c c' : Content} {target : ℕ} (hcomplete : c.RowsComplete)
    {P S : List (Option ListRow)} {r : ListRow} {v : ListView} (hrows : c.lists = P ++ some r :: S)
    (hout : ∀ row ∈ P, rowIs listId row = false) (hv : listView r = some v)
    (hid : v.id = listId) (hactive : v.archivedAt.isNone = true)
    (hmoved : c'.lists = placeAt (P ++ S) (c.resolveActiveMoveTarget listId target) (some r)) :
    ListMovedTo c c' listId target ↔
      c.resolveActiveMoveTarget listId target ≤ (P ++ S).findIdx (rowIs listId) ∨
        ((P ++ S)[(P ++ S).findIdx (rowIs listId)]?.join.bind listView = some v ∧
          true ∉ ((activeSlots listId ∅ c.lists).take
            (c.resolveActiveMoveTarget listId target)).drop ((P ++ S).findIdx (rowIs listId))) := by
  have hr : rowIs listId (some r) = true :=
    decide_eq_true ((listView_id hv).1.trans (congrArg some hid))
  obtain ⟨hshown, harch⟩ := shown_of_rows hcomplete hrows hout hv hid
  rw [if_pos hactive] at hshown
  obtain ⟨hslots, hslotsCount⟩ := slots_length listId hcomplete
  obtain ⟨hle, hcount⟩ := dest_spec c listId target
  rw [hslotsCount] at hcount
  generalize c.resolveActiveMoveTarget listId target = dest at *
  -- the other rows are the same
  have hothersRest : others listId c.lists = others listId (P ++ S) := by
    rw [hrows, others, others, List.filter_append, List.filter_append,
      List.filter_cons_of_neg (by simp [hr])]
  have hothers' : others listId c'.lists = others listId c.lists := by
    rw [hothersRest, hmoved, placeAt, others, List.filter_append,
      List.filter_cons_of_neg (by simp [hr]), ← List.filter_append, List.take_append_drop]
    rfl
  have hlists' : otherLists listId c'.lists = otherLists listId c.lists := by
    rw [otherLists, hothers', otherLists]
  have hslots' : activeSlots listId ∅ c'.lists = activeSlots listId ∅ c.lists := by
    rw [activeSlots_others, hothers', ← activeSlots_others]
  have hcomplete' : c'.RowsComplete := by
    intro q hq
    refine hcomplete q ?_
    rw [hmoved, mem_placeAt] at hq
    rw [hrows]
    rcases hq with hq | hq
    · rw [hq]
      exact List.mem_append_right _ List.mem_cons_self
    · rcases List.mem_append.1 hq with hq | hq
      · exact List.mem_append_left _ hq
      · exact List.mem_append_right _ (List.mem_cons_of_mem _ hq)
  have hbound : dest ≤ (P ++ S).length := by
    refine hle.trans ?_
    rw [hslots, hothersRest]
    exact List.length_filter_le _ _
  have hbefore : ∀ i ≤ (P ++ S).findIdx (rowIs listId), ∀ row ∈ (P ++ S).take i,
      rowIs listId row = false := by
    intro i hi row hrow
    obtain ⟨j, hj, rfl⟩ := List.mem_iff_getElem.1 hrow
    rw [List.length_take, Nat.lt_min] at hj
    rw [List.getElem_take]
    simpa using List.not_of_lt_findIdx (p := rowIs listId) (hj.1.trans_le hi)
  generalize hA : (otherLists listId c.lists).filter (fun v => v.archivedAt.isNone) = A at *
  have hne : ∀ w ∈ A, w.id ≠ listId := fun w hw =>
    ne_of_mem_otherLists (List.mem_filter.1 (hA ▸ hw)).1
  by_cases hagain : dest ≤ (P ++ S).findIdx (rowIs listId)
  · rw [iff_true_right (.inl hagain)]
    have hrows' : c'.lists = (P ++ S).take dest ++ some r :: (P ++ S).drop dest := hmoved
    obtain ⟨hshown', harch'⟩ := shown_of_rows hcomplete' hrows' (hbefore dest hagain) hv hid
    rw [if_pos hactive, hlists', hA, hslots', List.length_take, Nat.min_eq_left hbound, hcount]
      at hshown'
    refine movedTo_of_first hid hne hshown hshown' ?_
    rw [harch' hactive, harch hactive, hlists']
  · rw [or_iff_right hagain]
    generalize hj : (P ++ S).findIdx (rowIs listId) = j at *
    have hlt : j < dest := Nat.lt_of_not_le hagain
    have hin : j < (P ++ S).length := hlt.trans_le hbound
    have hrow : rowIs listId (P ++ S)[j] = true := by
      subst hj
      exact List.findIdx_getElem
    obtain ⟨q, hq⟩ : ∃ q, (P ++ S)[j] = some q := by
      cases hget : (P ++ S)[j] with
      | none =>
        rw [hget] at hrow
        exact absurd hrow Bool.false_ne_true
      | some q => exact ⟨q, rfl⟩
    rw [hq] at hrow
    have hsplit : P ++ S = (P ++ S).take j ++ some q :: (P ++ S).drop (j + 1) := by
      rw [← hq, List.getElem_cons_drop, List.take_append_drop]
    have hlenj : ((P ++ S).take j).length = j := by
      rw [List.length_take, Nat.min_eq_left hin.le]
    have hrows' : c'.lists = (P ++ S).take j ++ some q ::
        placeAt ((P ++ S).drop (j + 1)) (dest - j - 1) (some r) := by
      rw [hmoved, hsplit, placeAt_append_cons (by rw [hlenj]; exact hlt), hlenj, ← hsplit]
    obtain ⟨w, hw⟩ := Option.isSome_iff_exists.1
      (hcomplete' q (by rw [hrows']; exact List.mem_append_right _ List.mem_cons_self)
        (by rw [of_decide_eq_true hrow]; rfl))
    have hwid : w.id = listId :=
      Option.some.inj ((listView_id hw).1.symm.trans (of_decide_eq_true hrow))
    obtain ⟨hshown', harch'⟩ := shown_of_rows hcomplete' hrows' (hbefore j le_rfl) hw hwid
    rw [hlists', hA, hslots', hlenj] at hshown'
    have hget : (P ++ S)[j]?.join.bind listView = some w := by
      rw [List.getElem?_eq_getElem hin, hq]
      exact hw
    rw [hget, Option.some.injEq]
    -- the active lists between the two rows
    have hbetween : ((activeSlots listId ∅ c.lists).take j).count true +
        (((activeSlots listId ∅ c.lists).take dest).drop j).count true = min target A.length := by
      rw [← hcount, ← List.count_append]
      congr 1
      rw [← Nat.min_eq_left hlt.le, ← List.take_take, Nat.min_eq_left hlt.le,
        List.take_append_drop]
    constructor
    · intro hmovedTo
      have hv' := hmovedTo.active v (by rw [hshown]; exact mem_placeAt.2 (.inl rfl)) hid
      have hothers : (c.activeLists.filter fun w => w.id ≠ listId) = A := by
        rw [hshown, filter_placeAt, if_neg (by simp [hid])]
        exact List.filter_eq_self.2 fun w hw => decide_eq_true (hne w hw)
      rw [hothers, hshown'] at hv'
      have hwactive : w.archivedAt.isNone = true := by
        by_contra hnot
        rw [if_neg hnot] at hv'
        have hlen := congrArg List.length hv'
        rw [length_placeAt] at hlen
        omega
      rw [if_pos hwactive] at hv'
      obtain ⟨hsame, rfl⟩ := placeAt_inj (fun hin => hne w hin hwid) (by omega)
        (Nat.min_le_right _ _) hv'
      refine ⟨rfl, fun htrue => ?_⟩
      have hpos := List.count_pos_iff.2 htrue
      omega
    · rintro ⟨rfl, hnone⟩
      rw [List.count_eq_zero_of_not_mem hnone, Nat.add_zero] at hbetween
      rw [if_pos hactive, hbetween] at hshown'
      refine movedTo_of_first hid hne hshown hshown' ?_
      rw [harch' hactive, harch hactive, hlists']

end Content

/-- **`move_list`** puts an active list where it was dropped, and changes nothing else, exactly if
the row that is shown of it afterwards reads as the one that was. -/
theorem moveListTo_iff {d d' : Document} {listId : String} {target : ℕ}
    (hcomplete : d.content.RowsComplete) (hactive : ∃ v ∈ d.content.activeLists, v.id = listId)
    (h : d.moveListTo listId target = some d') :
    Content.ListMovedTo d.content d'.content listId target ↔
      d.content.KeepsShownRow listId target := by
  have hreserved : ¬Content.isReservedList listId = true := fun hres => by
    rw [Document.moveListTo, if_pos hres] at h
    cases h
  rw [Document.moveListTo, if_neg hreserved] at h
  cases hfind : d.content.findList listId with
  | none =>
    rw [hfind] at h
    cases h
  | some source =>
  rw [hfind] at h
  dsimp only at h
  obtain ⟨P, r, S, hrows, rfl, hid, hout⟩ := Content.findList_spec hfind
  have hr : some r ∈ d.content.lists := by
    rw [hrows]
    exact List.mem_append_right _ List.mem_cons_self
  obtain ⟨v, hv⟩ := Option.isSome_iff_exists.1 (hcomplete r hr (by rw [hid]; rfl))
  have hvid : v.id = listId := Option.some.inj ((listView_id hv).1.symm.trans hid)
  have hv' : v.archivedAt.isNone = true := by
    by_contra hnot
    obtain ⟨hshown, -⟩ := Content.shown_of_rows hcomplete hrows hout hv hvid
    rw [if_neg hnot] at hshown
    obtain ⟨w, hw, hwid⟩ := hactive
    rw [hshown] at hw
    exact Content.ne_of_mem_otherLists (List.mem_filter.1 hw).1 hwid
  have hget : d.content.lists[P.length]? = some (some r) := by
    rw [hrows, List.getElem?_append_right (Nat.le_refl _), Nat.sub_self]
    rfl
  have hrest : d.content.lists.eraseIdx P.length = P ++ S := by
    rw [hrows, List.eraseIdx_append_of_length_le (Nat.le_refl _), Nat.sub_self]
    rfl
  have hdest : d.content.moveListDest listId (d.content.lists[P.length]?).join target =
      d.content.resolveActiveMoveTarget listId target := by
    rw [Content.moveListDest, hget]
    refine if_pos ?_
    show (r.archivedAt).isNone = true
    rw [(listView_id hv).2]
    exact hv'
  rw [hdest] at h
  have hmoved : d'.content.lists =
      placeAt (P ++ S) (d.content.resolveActiveMoveTarget listId target) (some r) := by
    split at h
    · rename_i heq
      obtain rfl := Option.some.inj h
      rw [hrows, ← heq, placeAt_append]
    · rw [Document.moveList, if_neg hreserved, hfind] at h
      obtain rfl := Option.some.inj h
      show moveWithin d.content.lists P.length _ = _
      rw [moveWithin, hget]
      exact congrArg (placeAt · _ (some r)) hrest
  rw [Content.movedTo_iff hcomplete hrows hout hv hvid hv' hmoved]
  unfold Content.KeepsShownRow
  rw [hfind]
  constructor
  · intro hkeeps source hsource
    obtain rfl := Option.some.inj hsource
    dsimp only
    rw [hrest, hget]
    exact hkeeps.imp_right fun hkept => ⟨hkept.1.trans hv.symm, hkept.2⟩
  · intro hkeeps
    have hkept := hkeeps _ rfl
    dsimp only at hkept
    rw [hrest, hget] at hkept
    exact hkept.imp_right fun hkept => ⟨hkept.1.trans hv, hkept.2⟩

/-! ## Repeated rows -/

/-- A row that `add_list` or an import wrote. -/
def completeRow (id name : String) (archivedAt : Option ℤ) : Option ListRow :=
  some { id := some id, name := some name, createdAt := some 0, archivedAt }

/-- A document with these list rows and no items. -/
def withRows (rows : List (Option ListRow)) : Document :=
  ⟨⟨.empty, fun _ => [], rows⟩, .empty⟩

theorem withRows_complete {rows : List (Option ListRow)}
    (h : ∀ row ∈ rows, ∃ id name archivedAt, row = completeRow id name archivedAt) :
    (withRows rows).content.RowsComplete := by
  intro r hr _
  obtain ⟨id, name, archivedAt, heq⟩ := h _ hr
  obtain rfl := Option.some.inj heq
  rfl

/-- A list is dragged over an archived one and over a list with two rows. -/
def dragged : Document :=
  withRows [completeRow "a" "Home" none, completeRow "z" "Old" (some 1),
    completeRow "b" "Work" none, completeRow "b" "Arbeit" none, completeRow "c" "Read" none]

theorem moveListTo_dragged : ∃ d', dragged.moveListTo "a" 1 = some d' ∧
    d'.content.activeLists.map ListView.id = ["b", "a", "c"] := by
  have hsome : (dragged.moveListTo "a" 1).isSome = true := by decide
  obtain ⟨d', h⟩ := Option.isSome_iff_exists.1 hsome
  have hmoved := (moveListTo_iff (withRows_complete (by
    simp only [List.mem_cons, List.not_mem_nil, or_false, forall_eq_or_imp, forall_eq]
    exact ⟨⟨_, _, _, rfl⟩, ⟨_, _, _, rfl⟩, ⟨_, _, _, rfl⟩, ⟨_, _, _, rfl⟩, _, _, _, rfl⟩))
    (by decide) h).2 (by
      intro source hsource
      obtain rfl : 0 = source := Option.some.inj hsource
      exact .inl (by decide))
  refine ⟨d', h, ?_⟩
  rw [hmoved.active ⟨"a", "Home", none, none, none, 0⟩ (by decide) rfl]
  decide

/-- **Two rows of one id**, as two offline imports of one file leave them: the drop counts the
second row as no slot, lands behind it, and the list stays where it was under its other name. -/
theorem moveListTo_repeated :
    ¬∀ (d d' : Document) (listId : String) (target : ℕ), d.content.RowsComplete →
      (∃ v ∈ d.content.activeLists, v.id = listId) → d.moveListTo listId target = some d' →
        Content.ListMovedTo d.content d'.content listId target := by
  intro hclaim
  have hmoved := hclaim
    (withRows [completeRow "a" "Home" none, completeRow "a" "Heim" none,
      completeRow "b" "Work" none])
    (withRows [completeRow "a" "Heim" none, completeRow "a" "Home" none,
      completeRow "b" "Work" none]) "a" 1
    (withRows_complete (by
      simp only [List.mem_cons, List.not_mem_nil, or_false, forall_eq_or_imp, forall_eq]
      exact ⟨⟨_, _, _, rfl⟩, ⟨_, _, _, rfl⟩, _, _, _, rfl⟩)) (by decide) rfl
  have hactive := hmoved.active ⟨"a", "Home", none, none, none, 0⟩ (by decide) rfl
  exact absurd hactive (by decide)

end Monoplan.Doc
