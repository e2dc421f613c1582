import Mathlib.Algebra.BigOperators.Group.Finset.Basic
import Monoplan.Base.Shuffle
import Monoplan.Base.Sweep
import Monoplan.Doc.Export
import Monoplan.Doc.ItemMoves
import Monoplan.Doc.LifecycleEvents
import Monoplan.Doc.ListMoves

/-!
# Repairing order containers

`reconcile_with` takes out stale and repeated order entries, and those of items closed since
before a cutoff; it gives the open items of every fallback tail an entry, in tail order, and a
location to those that have none; it takes out repeated list rows and dead focus refs.

* `Cleaning c c' swept sure`: the entries of `c'` are those of `c` that stay, followed by ones for
  the open tail.  Then the open items that are `sure` stand as they stood (`openOrder`).
* `repaired_entries`: a repaired container holds one live entry for every item that stays, then one
  for each item of the open tail.
* `cleaning_repaired`: a repair is a cleaning.
-/

namespace Monoplan.Doc

open Monoplan.Base ProjectionIndex

/-! ## The repair -/

/-- A document with its raw `focus` container (a slot that is no string is empty). -/
structure FocusedDocument extends Document where
  focus : List String

/-- The repairs of one order container: the positions that go and the entries that are appended. -/
structure ListPlan where
  stale : List ℕ
  append : List OrderEntry
  deriving DecidableEq

/-- Since when the item is closed. -/
def ItemView.closedSince (v : ItemView) : Option ℤ :=
  match v.binnedAt with
  | some time => some time
  | none => if v.state.isOpen then none else some v.lifecycleAt

/-- The items closed since before the cutoff. -/
def Document.sweepSet (d : Document) (cutoff : Option ℤ) : List String :=
  match cutoff with
  | none => []
  | some cutoff =>
    (d.iterItems.filter fun v => v.closedSince.any fun time => decide (time < cutoff)).map
      ItemView.id

namespace ProjectionIndex

/-- The item an entry shows. -/
def shownBy (idx : ProjectionIndex) (listId : String) (s : Option OrderEntry) : Option String :=
  (s.filter (idx.matches_ listId)).map OrderEntry.itemId

/-- The item an entry shows, unless it is swept. -/
def entryKey (idx : ProjectionIndex) (sweep : List String) (listId : String)
    (s : Option OrderEntry) : Option String :=
  (idx.shownBy listId s).filter fun id => decide (id ∉ sweep)

/-- The open items of the list that no entry shows afterwards, in tail order. -/
def missing (idx : ProjectionIndex) (sweep : List String) (listId : String) : List String :=
  sortOn idx.tailKey idx.tailKey_injective ((idx.membersOf listId).filter fun id =>
    id ∉ (idx.rawOf listId).filterMap (idx.entryKey sweep listId) ∧ idx.isOpenItem id = true)

/-- The placement under which a missing item gets its entry: its own, or a fresh one when that is
empty. -/
def placementFor (idx : ProjectionIndex) (fresh : String → String) (id : String) : String :=
  match (idx.metas.get id).map ItemMeta.placementId with
  | none => fresh id
  | some placement => if placement = "" then fresh id else placement

/-- The plan for one list. -/
def planFor (idx : ProjectionIndex) (sweep : List String) (fresh : String → String)
    (listId : String) : ListPlan where
  stale := dead (idx.entryKey sweep listId) true (idx.rawOf listId)
  append := (idx.missing sweep listId).map fun id => ⟨id, idx.placementFor fresh id⟩

/-- `fix_location`: a missing item with an empty placement. -/
def fixes (idx : ProjectionIndex) (sweep : List String) (id : String) : Bool :=
  match idx.metas.get id with
  | none => false
  | some m => decide (m.placementId = "" ∧ id ∈ idx.missing sweep m.listId)

/-- The lists that have a mirror or an item. -/
def plannedLists (idx : ProjectionIndex) : Finset String := idx.rawOrders.keys ∪ idx.members.keys

/-- The item a focus ref stands for, when it is foreign or open. -/
def focusKey (idx : ProjectionIndex) (raw : String) : Option String :=
  ((FocusRef.parse raw).filter fun r => !r.isLocal || idx.isOpenItem r.itemId).map FocusRef.itemId

/-- The refs that `scan_focus` keeps. -/
def focusEntries (idx : ProjectionIndex) (focus : List String) : List FocusRef :=
  firstsOn FocusRef.itemId <|
    (focus.filterMap FocusRef.parse).filter fun r => !r.isLocal || idx.isOpenItem r.itemId

end ProjectionIndex

/-- The id of a list row. -/
def rowKey (row : Option ListRow) : Option String := row.bind ListRow.id

/-- A location in the inbox. -/
def ItemMap.relocated (m : ItemMap) (placement : String) : ItemMap :=
  { m with location := some (Location.encode ⟨LIST_INBOX, placement⟩) }

/-- The containers once the plans are carried out. -/
def Content.repaired (c : Content) (idx : ProjectionIndex) (sweep : List String)
    (fresh : String → String) : Content where
  items := c.items.mapWithKey fun id v =>
    if idx.fixes sweep id then v.map fun m => m.relocated (fresh id) else v
  orders l := removeAt (idx.planFor sweep fresh l).stale (c.orders l) ++
    (idx.planFor sweep fresh l).append.map fun e => some e.encode
  lists := removeAt (dead rowKey false c.lists) c.lists

namespace FocusedDocument

/-- `reconcile_with`, with the placements it mints; the number of repairs comes with it. -/
def reconcileWith (s : FocusedDocument) (cutoff : Option ℤ) (fresh : String → String) :
    FocusedDocument × ℕ :=
  let sweep := s.sweepSet cutoff
  let plan := s.index.planFor sweep fresh
  let focusDead := dead s.index.focusKey true s.focus
  let listDups := dead rowKey false s.content.lists
  let lists := s.index.plannedLists.filter fun l => plan l ≠ ⟨[], []⟩
  if lists = ∅ ∧ focusDead = [] ∧ listDups = [] then (s, 0)
  else
    let content := s.content.repaired s.index sweep fresh
    ({ content, index := content.computeIndex, focus := removeAt focusDead s.focus },
      listDups.length + ∑ l ∈ lists, ((plan l).stale.length + (plan l).append.length) +
        focusDead.length)

end FocusedDocument

/-! ## Cleanings -/

namespace Content

variable {c c' : Content} {l id : String}

/-- The open part of a list's fallback tail. -/
def openRest (c : Content) (l : String) : List String :=
  (c.order l).filter fun id => c.openNow id && decide (id ∉ c.liveIds l)

/-- The item is in the open part of its list's tail, under an empty placement. -/
def unplaced (c : Content) (id : String) : Bool :=
  match c.item id with
  | none => false
  | some m => decide (m.locatedIn.placementId = "" ∧ id ∈ c.openRest m.locatedIn.listId)

theorem unplaced_iff : c.unplaced id = true ↔ ∃ m, c.item id = some m ∧
    m.locatedIn.placementId = "" ∧ id ∈ c.openRest m.locatedIn.listId := by
  rw [unplaced]
  cases c.item id with
  | none => simp
  | some m => simp

/-- The order of a list, in two parts. -/
theorem order_eq (c : Content) (l : String) : ∃ rest, c.order l = c.liveIds l ++ rest ∧
    (rest.Pairwise fun a b => c.ageKey a < c.ageKey b) ∧
    (∀ id, id ∈ rest ↔ c.Located l id ∧ id ∉ c.liveIds l) ∧
    c.openRest l = rest.filter c.openNow := by
  obtain ⟨rest, hres, hasc, hmem⟩ := (mirrors_computeIndex c).order l
  refine ⟨rest, hres, hasc, hmem, ?_⟩
  have hlive : (c.liveIds l).filter (fun id => c.openNow id && decide (id ∉ c.liveIds l)) = [] :=
    List.filter_eq_nil_iff.2 fun id hid => by simp [hid]
  rw [openRest, order, hres, List.filter_append, hlive, List.nil_append]
  refine List.filter_congr fun id hid => ?_
  simp [((hmem id).1 hid).2]

theorem mem_openRest : id ∈ c.openRest l ↔
    c.Located l id ∧ c.openNow id = true ∧ id ∉ c.liveIds l := by
  rw [openRest, List.mem_filter, mem_order, Bool.and_eq_true, decide_eq_true_eq]

theorem openRest_nodup (c : Content) (l : String) : (c.openRest l).Nodup :=
  (resolved_nodup _ _).filter _

theorem openRest_ascending (c : Content) (l : String) :
    (c.openRest l).Pairwise fun a b => c.ageKey a < c.ageKey b := by
  obtain ⟨rest, -, hasc, -, heq⟩ := c.order_eq l
  rw [heq]
  exact hasc.filter _

theorem openOrder_eq (c : Content) (l : String) :
    c.openOrder l = (c.order l).filter c.openNow := (mirrors_computeIndex c).openOf_eq_filter l

theorem located_of_live {e : OrderEntry} (h : c.live l e = true) : c.Located l e.itemId := by
  rw [live, metaOf] at h
  cases hm : c.item e.itemId with
  | none =>
    rw [hm] at h
    cases h
  | some m =>
    rw [hm] at h
    exact ⟨m, hm, (of_decide_eq_true h).1⟩

theorem located_of_liveIds (h : id ∈ c.liveIds l) : c.Located l id := by
  rw [liveIds, mem_firsts, List.mem_map] at h
  obtain ⟨e, he, rfl⟩ := h
  exact located_of_live (List.mem_filter.1 he).2

/-- The entries of `c'` are those of `c` whose items are not swept, each item once, followed by
entries for the open part of the tail, as far as the `sure` items go. -/
structure Cleaning (c c' : Content) (swept sure : String → Bool) : Prop where
  located : ∀ l id, c'.Located l id ↔ c.Located l id
  age : ∀ id, c'.ageKey id = c.ageKey id
  isOpen : ∀ id, c'.openNow id = c.openNow id
  closed : ∀ id, swept id = true → c.openNow id = false
  shown : ∀ l, (c'.liveIds l).filter sure =
    ((c.liveIds l).filter (fun id => !swept id) ++ c.openRest l).filter sure

namespace Cleaning

variable {swept sure : String → Bool}

theorem mem_liveIds (h : Cleaning c c' swept sure) (hsure : sure id = true) :
    id ∈ c'.liveIds l ↔ (id ∈ c.liveIds l ∧ swept id = false) ∨ id ∈ c.openRest l := by
  have hiff : id ∈ (c'.liveIds l).filter sure ↔ id ∈ ((c.liveIds l).filter
      (fun id => !swept id) ++ c.openRest l).filter sure := by rw [h.shown]
  simpa [hsure] using hiff

/-- **The open projection** of the items that are sure. -/
theorem openOrder (h : Cleaning c c' swept sure) (l : String) :
    (c'.openOrder l).filter sure = (c.openOrder l).filter sure := by
  obtain ⟨rest, hres, -, -, hrest⟩ := c.order_eq l
  obtain ⟨rest', hres', -, hmem', -⟩ := c'.order_eq l
  have hopen : c'.openNow = c.openNow := funext h.isOpen
  have hnone : (rest'.filter c.openNow).filter sure = [] := by
    refine List.filter_eq_nil_iff.2 fun id hid hsure => ?_
    obtain ⟨hin, ho⟩ := List.mem_filter.1 hid
    obtain ⟨hloc, hout⟩ := (hmem' id).1 hin
    refine hout ((h.mem_liveIds hsure).2 ?_)
    by_cases hlive : id ∈ c.liveIds l
    · refine .inl ⟨hlive, ?_⟩
      cases hs : swept id with
      | false => rfl
      | true =>
        rw [h.closed id hs] at ho
        cases ho
    · exact .inr (mem_openRest.2 ⟨(h.located l id).1 hloc, ho, hlive⟩)
  have hkept : ((c.liveIds l).filter fun id => !swept id).filter c.openNow =
      (c.liveIds l).filter c.openNow := by
    rw [List.filter_filter]
    refine List.filter_congr fun id _ => ?_
    cases hs : swept id with
    | false => simp
    | true => simp [h.closed id hs]
  have hself : (c.openRest l).filter c.openNow = c.openRest l :=
    List.filter_eq_self.2 fun id hid => (mem_openRest.1 hid).2.1
  calc (c'.openOrder l).filter sure
      = ((c'.liveIds l).filter sure).filter c.openNow := by
        rw [c'.openOrder_eq, hres', hopen, List.filter_append, List.filter_append, hnone,
          List.append_nil, List.filter_comm]
    _ = ((c.liveIds l).filter c.openNow ++ c.openRest l).filter sure := by
        rw [h.shown, List.filter_comm, List.filter_append, hkept, hself]
    _ = (c.openOrder l).filter sure := by
        rw [c.openOrder_eq, hres, hrest, List.filter_append (p := c.openNow)]

/-- **The resolved order** of all items but the closed ones that are left without an entry. -/
theorem order (h : Cleaning c c' swept fun _ => true) (l : String) :
    (c'.order l).filter (fun id => c'.openNow id || decide (id ∈ c'.liveIds l)) =
      (c.order l).filter fun id => c'.openNow id || decide (id ∈ c'.liveIds l) := by
  obtain ⟨rest, hres, -, hmem, hrest⟩ := c.order_eq l
  obtain ⟨rest', hres', -, hmem', -⟩ := c'.order_eq l
  have hopen : c'.openNow = c.openNow := funext h.isOpen
  have hshown : c'.liveIds l = (c.liveIds l).filter (fun id => !swept id) ++ c.openRest l := by
    simpa using h.shown l
  have hlive : ∀ id, id ∈ c'.liveIds l ↔
      (id ∈ c.liveIds l ∧ swept id = false) ∨ id ∈ c.openRest l := fun id => h.mem_liveIds rfl
  have hself : (c'.liveIds l).filter (fun id => c'.openNow id || decide (id ∈ c'.liveIds l)) =
      c'.liveIds l := List.filter_eq_self.2 fun id hid => by simp [hid]
  have hnone : rest'.filter (fun id => c'.openNow id || decide (id ∈ c'.liveIds l)) = [] := by
    refine List.filter_eq_nil_iff.2 fun id hid hkeep => ?_
    obtain ⟨hloc, hout⟩ := (hmem' id).1 hid
    have ho : c.openNow id = true := by simpa [hout, hopen] using hkeep
    refine hout ((hlive id).2 ?_)
    by_cases hin : id ∈ c.liveIds l
    · refine .inl ⟨hin, ?_⟩
      cases hs : swept id with
      | false => rfl
      | true =>
        rw [h.closed id hs] at ho
        cases ho
    · exact .inr (mem_openRest.2 ⟨(h.located l id).1 hloc, ho, hin⟩)
  rw [hres', List.filter_append, hself, hnone, List.append_nil, hres, List.filter_append]
  rw [hshown]
  congr 1
  · refine List.filter_congr fun id hid => ?_
    cases hs : swept id with
    | false => simp [hid, hs]
    | true =>
      have ho := h.closed id hs
      have hout : id ∉ c.openRest l := fun hin => by
        rw [(mem_openRest.1 hin).2.1] at ho
        cases ho
      simp [hopen, ho, hs, hout]
  · rw [hrest]
    refine List.filter_congr fun id hid => ?_
    have hout := ((hmem id).1 hid).2
    rw [hopen]
    cases ho : c.openNow id with
    | true => simp
    | false => simp [hout, ho]

end Cleaning

end Content

/-! ## What a repair finds -/

section Finds

variable {c c' : Content} {idx : ProjectionIndex} {sweep : List String} {l id : String}
  {fresh : String → String}

theorem filterMap_shownBy (idx : ProjectionIndex) (l : String) (raw : List (Option OrderEntry)) :
    raw.filterMap (idx.shownBy l) =
      ((raw.filterMap fun s => s).filter (idx.matches_ l)).map OrderEntry.itemId := by
  rw [List.filter_filterMap, List.map_filterMap]
  rfl

theorem filterMap_entryKey (raw : List (Option OrderEntry)) :
    raw.filterMap (idx.entryKey sweep l) =
      (raw.filterMap (idx.shownBy l)).filter fun id => decide (id ∉ sweep) := by
  rw [List.filter_filterMap]
  rfl

/-- What a slot must be to stay. -/
theorem entryKey_eq_some {s : Option OrderEntry} : idx.entryKey sweep l s = some id ↔
    ∃ e, s = some e ∧ idx.matches_ l e = true ∧ e.itemId ∉ sweep ∧ e.itemId = id := by
  cases s with
  | none => simp [entryKey, shownBy]
  | some e =>
    by_cases hmatch : idx.matches_ l e = true
    · by_cases hin : e.itemId ∈ sweep
      · simp [entryKey, shownBy, Option.filter, hmatch, hin]
      · simp [entryKey, shownBy, Option.filter, hmatch, hin]
    · simp [entryKey, shownBy, Option.filter, hmatch]

theorem Mirrors.filterMap_shownBy (h : Mirrors c idx) (l : String) :
    firsts ((c.slots l).filterMap (idx.shownBy l)) = c.liveIds l := by
  rw [Doc.filterMap_shownBy, h.matches_eq]
  rfl

theorem Mirrors.filterMap_entryKey (h : Mirrors c idx) (l : String) :
    firsts ((c.slots l).filterMap (idx.entryKey sweep l)) =
      (c.liveIds l).filter fun id => decide (id ∉ sweep) := by
  rw [Doc.filterMap_entryKey, ← filter_firsts, h.filterMap_shownBy]

/-- A list's mirror is its container, or the list has neither a mirror nor an item. -/
theorem Tracks.rawOf_cases (h : Tracks c idx) (l : String) :
    idx.rawOf l = c.slots l ∨
      (idx.rawOf l = [] ∧ l ∉ idx.plannedLists ∧ ∀ id, ¬c.Located l id) := by
  by_cases hl : c.Candidate l
  · exact .inl (h.rawOf_eq hl)
  · rcases h.raw l with hsome | ⟨hnone, -⟩
    · refine .inl ?_
      rw [rawOf, hsome]
      rfl
    · have hno : ∀ id, ¬c.Located l id := fun id hid => hl (.inr (.inr ⟨id, hid⟩))
      refine .inr ⟨by rw [rawOf, hnone]; rfl, fun hin => ?_, hno⟩
      rcases Finset.mem_union.1 hin with hin | hin
      · rw [FMap.mem_keys, hnone] at hin
        cases hin
      · obtain ⟨ids, hids⟩ := Option.isSome_iff_exists.1 ((FMap.mem_keys _ _).1 hin)
        obtain ⟨id, hid⟩ : ids.Nonempty := Finset.nonempty_iff_ne_empty.2 fun heq =>
          h.membership.membersKey l (heq ▸ hids)
        refine hno id (h.located.1 ?_)
        rw [membersOf, hids]
        exact hid

theorem Tracks.rawOf_of_planned (h : Tracks c idx) (hl : l ∈ idx.plannedLists) :
    idx.rawOf l = c.slots l :=
  (h.rawOf_cases l).resolve_right fun hno => hno.2.1 hl

/-- What a recomputed index mirrors. -/
theorem Computed.candidate_of_planned (h : Computed c idx) (hl : l ∈ idx.plannedLists) :
    c.Candidate l := by
  rcases Finset.mem_union.1 hl with hl | hl
  · rw [FMap.mem_keys, h.rawOrders] at hl
    by_cases hc : l ∈ c.candidates idx
    · exact h.mem_candidates.1 hc
    · rw [if_neg hc] at hl
      cases hl
  · exact .inr (.inr (h.exists_located hl))

/-- **The missing items** are the open part of the tail. -/
theorem Tracks.missing_eq (h : Tracks c idx)
    (hclosed : ∀ id ∈ sweep, c.openNow id = false) (l : String) :
    idx.missing sweep l = c.openRest l := by
  have hm := h.mirrors
  have hasc : (idx.missing sweep l).Pairwise fun a b => c.ageKey a < c.ageKey b := by
    rw [← hm.tailKey_eq]
    exact sortOn_ascending
  refine eq_of_ascending hasc (c.openRest_ascending l) fun id => ?_
  rw [missing, mem_sortOn, Finset.mem_filter, h.located, Content.mem_openRest, hm.isOpenItem_eq]
  refine and_congr_right fun hloc => ?_
  have hraw : idx.rawOf l = c.slots l :=
    (h.rawOf_cases l).resolve_right fun hno => hno.2.2 id hloc
  rw [and_comm, hraw, ← mem_firsts, hm.filterMap_entryKey, List.mem_filter, decide_eq_true_eq]
  refine and_congr_right fun hopen => not_congr ?_
  refine and_iff_left fun hin => ?_
  rw [hclosed id hin] at hopen
  cases hopen

/-- A list without a mirror and without items has no plan. -/
theorem Tracks.planFor_eq (h : Tracks c idx) (hclosed : ∀ id ∈ sweep, c.openNow id = false)
    (hl : l ∉ idx.plannedLists) : idx.planFor sweep fresh l = ⟨[], []⟩ := by
  have hnone : ∀ id, ¬c.Located l id := fun id hid => hl <|
    Finset.mem_union_right _ (mem_members_keys (h.located.2 hid))
  have hraw : idx.rawOf l = [] := by
    rw [rawOf]
    cases hget : idx.rawOrders.get l with
    | none => rfl
    | some raw =>
      refine absurd (Finset.mem_union_left _ ((FMap.mem_keys _ _).2 ?_)) hl
      rw [hget]
      rfl
  have hmissing : idx.missing sweep l = [] := by
    rw [h.missing_eq hclosed]
    refine List.eq_nil_iff_forall_not_mem.2 fun id hid => ?_
    exact hnone id (Content.mem_openRest.1 hid).1
  rw [planFor, hraw, hmissing]
  rfl

/-- **An item that gets a location** is unplaced. -/
theorem Tracks.fixes_eq (h : Tracks c idx) (hclosed : ∀ id ∈ sweep, c.openNow id = false)
    (id : String) : idx.fixes sweep id = c.unplaced id := by
  rw [fixes, Content.unplaced, h.metas, Content.metaOf]
  cases c.item id with
  | none => rfl
  | some m =>
    rw [Option.map_some]
    dsimp only
    rw [h.missing_eq hclosed]
    rfl

end Finds

/-! ## What a repair writes -/

namespace Content

/-- The items of `c'` are those of `c`, up to a location in the inbox for items that had none. -/
def ItemsKept (c c' : Content) : Prop :=
  ∀ id, c'.item id = c.item id ∨ (c.unplaced id = true ∧ ∃ m placement, c.item id = some m ∧
    m.locatedIn = ⟨LIST_INBOX, ""⟩ ∧ placement ≠ "" ∧ c'.item id = some (m.relocated placement))

/-- What the program writes: items under their own plain ids, no empty placement but in the
inbox, and list rows that read as lists. -/
structure WellWritten (c : Content) : Prop where
  plain : ∀ id m, c.item id = some m → PlainId id
  named : ∀ id m, c.item id = some m → ∀ k, m.id = some k → k = id
  placed : ∀ id m, c.item id = some m → m.locatedIn.placementId = "" →
    m.locatedIn.listId = LIST_INBOX
  rows : c.RowsComplete

/-- A container that holds live entries only, each for an item of its own that is not swept. -/
def Tidy (c : Content) (sweep : List String) (l : String) : Prop :=
  ∃ es : List OrderEntry, c.slots l = es.map some ∧
    (∀ e ∈ es, c.live l e = true ∧ e.itemId ∉ sweep) ∧ (es.map OrderEntry.itemId).Nodup

end Content

theorem locatedIn_relocated (m : ItemMap) (placement : String) :
    (m.relocated placement).locatedIn = ⟨LIST_INBOX, placement⟩ := by
  have hplain : PlainId LIST_INBOX := by decide
  have hparse : Location.parse (Location.encode ⟨LIST_INBOX, placement⟩) =
      some ⟨LIST_INBOX, placement⟩ := Location.parse_encode hplain
  rw [ItemMap.locatedIn, ItemMap.relocated]
  simp [hparse]

section Kept

variable {c c' : Content} {l id : String}

theorem Content.ItemsKept.cases (h : c.ItemsKept c') (id : String) :
    c'.item id = c.item id ∨ ∃ m placement, c.item id = some m ∧
      m.locatedIn.listId = LIST_INBOX ∧ c'.item id = some (m.relocated placement) := by
  rcases h id with heq | ⟨-, m, placement, hm, hat, -, hm'⟩
  · exact .inl heq
  · exact .inr ⟨m, placement, hm, by rw [hat], hm'⟩

theorem Content.ItemsKept.located (h : c.ItemsKept c') :
    c'.Located l id ↔ c.Located l id := by
  rw [Content.Located, Content.Located]
  rcases h.cases id with heq | ⟨m, placement, hm, hlist, hm'⟩
  · rw [heq]
  · rw [hm, hm']
    simp [itemMeta, locatedIn_relocated, hlist]

theorem Content.ItemsKept.ageKey (h : c.ItemsKept c') (id : String) :
    c'.ageKey id = c.ageKey id := by
  rw [Content.ageKey, Content.ageKey, Content.metaOf, Content.metaOf]
  rcases h.cases id with heq | ⟨m, placement, hm, -, hm'⟩
  · rw [heq]
  · rw [hm, hm']
    rfl

theorem Content.ItemsKept.openNow (h : c.ItemsKept c') (id : String) :
    c'.openNow id = c.openNow id := by
  rw [Content.openNow, Content.openNow]
  rcases h.cases id with heq | ⟨m, placement, hm, -, hm'⟩
  · rw [heq]
  · rw [hm, hm']
    rfl

/-- **Every field of an item** is shown as it was. -/
theorem Content.ItemsKept.view (h : c.ItemsKept c') (id : String) :
    (c'.item id).bind itemView = (c.item id).bind itemView := by
  rcases h.cases id with heq | ⟨m, placement, hm, hlist, hm'⟩
  · rw [heq]
  · rw [hm, hm', Option.bind_some, Option.bind_some, itemView, itemView, locatedIn_relocated,
      hlist]
    rfl

theorem Content.ItemsKept.live (h : c.ItemsKept c') {e : OrderEntry}
    (he : c.unplaced e.itemId = false) : c'.live l e = c.live l e := by
  have heq : c'.item e.itemId = c.item e.itemId := by
    rcases h e.itemId with heq | ⟨hnot, -⟩
    · exact heq
    · rw [he] at hnot
      cases hnot
  rw [Content.live, Content.live, Content.metaOf, Content.metaOf, heq]

end Kept

/-! ## The swept items -/

theorem closedSince_closed {v : ItemView} {time : ℤ} (h : v.closedSince = some time) :
    v.isOpen = false := by
  unfold ItemView.closedSince at h
  unfold ItemView.isOpen
  split at h
  · rename_i hbin
    simp [hbin]
  · split at h
    · cases h
    · rename_i hstate
      simp [hstate]

theorem mem_iterItems {d : Document} (h : Mirrors d.content d.index) {v : ItemView} :
    v ∈ d.iterItems ↔ ∃ id, (d.content.item id).bind itemView = some v := by
  rw [Document.iterItems, List.mem_filterMap]
  constructor
  · rintro ⟨id, -, hv⟩
    exact ⟨id, hv⟩
  · rintro ⟨id, hv⟩
    refine ⟨id, ((h.walk _).2 id).2 ?_, hv⟩
    cases hitem : d.content.item id with
    | none =>
      rw [hitem] at hv
      cases hv
    | some m => rfl

/-- What is swept, by the items alone. -/
theorem mem_sweepSet {d : Document} (h : Mirrors d.content d.index) {cutoff : Option ℤ}
    {k : String} : k ∈ d.sweepSet cutoff ↔ ∃ limit, cutoff = some limit ∧ ∃ id v time,
      (d.content.item id).bind itemView = some v ∧ v.closedSince = some time ∧ time < limit ∧
        v.id = k := by
  cases cutoff with
  | none => simp [Document.sweepSet]
  | some limit =>
    simp only [Document.sweepSet, List.mem_map, List.mem_filter, mem_iterItems h,
      Option.any_eq_true, decide_eq_true_eq, Option.some.injEq, exists_eq_left']
    constructor
    · rintro ⟨v, ⟨⟨id, hv⟩, time, htime, hlt⟩, rfl⟩
      exact ⟨id, v, time, hv, htime, hlt, rfl⟩
    · rintro ⟨id, v, time, hv, htime, hlt, rfl⟩
      exact ⟨v, ⟨⟨id, hv⟩, time, htime, hlt⟩, rfl⟩

/-- A swept item is closed. -/
theorem sweepSet_closed {d : Document} (h : Mirrors d.content d.index)
    (hwritten : d.content.WellWritten) (cutoff : Option ℤ) :
    ∀ id ∈ d.sweepSet cutoff, d.content.openNow id = false := by
  intro k hk
  obtain ⟨limit, -, id, v, time, hv, htime, -, rfl⟩ := (mem_sweepSet h).1 hk
  obtain ⟨m, hm, hview⟩ := Option.bind_eq_some_iff.1 hv
  have hid : v.id = id := by
    obtain ⟨k, hreg, hv⟩ := Option.bind_eq_some_iff.1 hview
    obtain ⟨text, -, hv⟩ := Option.bind_eq_some_iff.1 hv
    obtain ⟨createdAt, -, rfl⟩ := Option.map_eq_some_iff.1 hv
    exact hwritten.named id m hm k hreg
  rw [hid, Content.openNow, hm, Option.map_some, Option.getD_some, ← (itemView_isOpen hview).1]
  exact closedSince_closed htime

/-! ## The repaired containers -/

section Repaired

variable {c c' : Content} {idx : ProjectionIndex} {sweep : List String} {l id : String}
  {fresh : String → String}

theorem item_repaired (id : String) : (c.repaired idx sweep fresh).item id =
    if idx.fixes sweep id = true then (c.item id).map fun m => m.relocated (fresh id)
    else c.item id := by
  rw [Content.item, Content.item, Content.repaired, FMap.get_mapWithKey]
  cases c.items.get id with
  | none =>
    rw [Option.map_none, Option.join_none, Option.map_none, ite_self]
  | some v =>
    rw [Option.map_some, Option.join_some, Option.join_some]

theorem repaired_kept (h : Tracks c idx) (hwritten : c.WellWritten)
    (hclosed : ∀ id ∈ sweep, c.openNow id = false) (hfresh : ∀ id, fresh id ≠ "") :
    c.ItemsKept (c.repaired idx sweep fresh) := by
  intro id
  rw [item_repaired, h.fixes_eq hclosed]
  split
  · rename_i hfix
    obtain ⟨m, hm, hempty, -⟩ := Content.unplaced_iff.1 hfix
    refine .inr ⟨hfix, m, fresh id, hm, ?_, hfresh id, by rw [hm]; rfl⟩
    have hlist := hwritten.placed id m hm hempty
    exact congrArg₂ Location.mk hlist hempty
  · exact .inl rfl

theorem slots_repaired (h : Tracks c idx) (hwritten : c.WellWritten)
    (hclosed : ∀ id ∈ sweep, c.openNow id = false) (l : String) :
    (c.repaired idx sweep fresh).slots l =
      dropPositions (idx.planFor sweep fresh l).stale (c.slots l) ++
        (idx.planFor sweep fresh l).append.map some := by
  have happend : ((idx.planFor sweep fresh l).append.map fun e => some e.encode).map
      (fun v => v.bind OrderEntry.parse) = (idx.planFor sweep fresh l).append.map some := by
    rw [List.map_map]
    refine List.map_congr_left fun e he => ?_
    obtain ⟨id, hid, rfl⟩ := List.mem_map.1 he
    rw [h.missing_eq hclosed] at hid
    obtain ⟨m, hm, -⟩ := (Content.mem_openRest.1 hid).1
    exact OrderEntry.parse_encode (hwritten.plain id m hm)
  rw [Content.slots, Content.repaired, List.map_append, happend, planFor, removeAt_dead,
    map_dropPositions]
  rfl

/-- An entry that is appended for an item with a placement is live. -/
theorem live_append (h : Tracks c idx) (hclosed : ∀ id ∈ sweep, c.openNow id = false)
    {e : OrderEntry} (he : e ∈ (idx.planFor sweep fresh l).append)
    (hsure : c.unplaced e.itemId = false) : c.live l e = true := by
  obtain ⟨id, hid, rfl⟩ := List.mem_map.1 he
  rw [h.missing_eq hclosed] at hid
  obtain ⟨m, hm, hlist⟩ := (Content.mem_openRest.1 hid).1
  have hplaced : m.locatedIn.placementId ≠ "" := fun hempty => by
    have hfix : c.unplaced id = true := Content.unplaced_iff.2
      ⟨m, hm, hempty, (congrArg (id ∈ c.openRest ·) hlist).mpr hid⟩
    rw [hfix] at hsure
    cases hsure
  have hown : idx.placementFor fresh id = m.locatedIn.placementId := by
    rw [placementFor, h.metas, Content.metaOf, hm]
    exact if_neg hplaced
  rw [Content.live, Content.metaOf, hm, hown]
  exact decide_eq_true ⟨hlist, rfl⟩

/-- So is one for an item that gets a location along with it. -/
theorem live_append_fixed (h : Tracks c idx) (hwritten : c.WellWritten)
    (hclosed : ∀ id ∈ sweep, c.openNow id = false) {e : OrderEntry}
    (he : e ∈ (idx.planFor sweep fresh l).append) (hfix : c.unplaced e.itemId = true) :
    (c.repaired idx sweep fresh).live l e = true := by
  obtain ⟨id, hid, rfl⟩ := List.mem_map.1 he
  rw [h.missing_eq hclosed] at hid
  obtain ⟨m, hm, hempty, -⟩ := Content.unplaced_iff.1 hfix
  obtain ⟨m', hm', hlist⟩ := (Content.mem_openRest.1 hid).1
  obtain rfl : m = m' := Option.some.inj (hm.symm.trans hm')
  have hown : idx.placementFor fresh id = fresh id := by
    rw [placementFor, h.metas, Content.metaOf, hm]
    exact if_pos hempty
  have hinbox : l = LIST_INBOX := hlist.symm.trans (hwritten.placed id m hm hempty)
  rw [Content.live, Content.metaOf, item_repaired, if_pos (h.fixes_eq hclosed _ ▸ hfix), hm, hown,
    hinbox]
  refine decide_eq_true ?_
  simp [itemMeta, locatedIn_relocated]

/-- An item that an entry shows needs no location. -/
theorem unplaced_of_live {e : OrderEntry} (hin : some e ∈ c.slots l) (he : c.live l e = true) :
    c.unplaced e.itemId = false := by
  rw [Bool.eq_false_iff]
  intro hfix
  obtain ⟨m, hm, -, hrest⟩ := Content.unplaced_iff.1 hfix
  obtain ⟨m', hm', hlist⟩ := Content.located_of_live he
  obtain rfl : m = m' := Option.some.inj (hm.symm.trans hm')
  refine (Content.mem_openRest.1 hrest).2.2 ?_
  rw [show m.locatedIn.listId = l from hlist, Content.liveIds, mem_firsts]
  exact List.mem_map_of_mem (List.mem_filter.2 ⟨List.mem_filterMap.2 ⟨some e, hin, rfl⟩, he⟩)

/-- What a sweep of a container leaves. -/
theorem kept_entries (sweep : List String) (fresh : String → String) (h : Tracks c idx)
    (hraw : idx.rawOf l = c.slots l) :
    ∃ ks : List OrderEntry,
      dropPositions (idx.planFor sweep fresh l).stale (c.slots l) = ks.map some ∧
      (∀ e ∈ ks, some e ∈ c.slots l ∧ c.live l e = true ∧ e.itemId ∉ sweep) ∧
      ks.map OrderEntry.itemId = (c.liveIds l).filter fun id => decide (id ∉ sweep) := by
  have hkeyed : ∀ s ∈ dropPositions (idx.planFor sweep fresh l).stale (c.slots l), ∃ e,
      s = some e ∧ c.live l e = true ∧ e.itemId ∉ sweep ∧
        idx.entryKey sweep l s = some e.itemId := by
    intro s hs
    rw [planFor, hraw] at hs
    obtain ⟨id, hid⟩ := Option.isSome_iff_exists.1 (isSome_of_mem_dropPositions hs)
    obtain ⟨e, rfl, hmatch, hout, rfl⟩ := entryKey_eq_some.1 hid
    exact ⟨e, rfl, by rw [← h.mirrors.matches_eq]; exact hmatch, hout, hid⟩
  have hsub : ∀ s ∈ dropPositions (idx.planFor sweep fresh l).stale (c.slots l), s ∈ c.slots l :=
    fun s hs => (dropPositions_sublist _ _).subset hs
  have hids : (dropPositions (idx.planFor sweep fresh l).stale (c.slots l)).filterMap
      (idx.entryKey sweep l) = (c.liveIds l).filter fun id => decide (id ∉ sweep) := by
    rw [planFor, hraw, filterMap_dropPositions, h.mirrors.filterMap_entryKey]
  generalize dropPositions (idx.planFor sweep fresh l).stale (c.slots l) = kept at *
  obtain ⟨ks, rfl⟩ := exists_map_some (l := kept) fun s hs => by
    obtain ⟨e, rfl, -⟩ := hkeyed s hs
    rfl
  refine ⟨ks, rfl, fun e he => ?_, ?_⟩
  · obtain ⟨e', heq, hlive, hout, -⟩ := hkeyed _ (List.mem_map_of_mem he)
    obtain rfl := Option.some.inj heq
    exact ⟨hsub _ (List.mem_map_of_mem he), hlive, hout⟩
  · rw [← hids, List.filterMap_map]
    refine (List.filterMap_eq_map (f := OrderEntry.itemId) ▸ List.filterMap_congr fun e he => ?_)
    obtain ⟨e', heq, -, -, hkey⟩ := hkeyed _ (List.mem_map_of_mem he)
    obtain rfl := Option.some.inj heq
    exact hkey.symm

theorem itemIds_append (idx : ProjectionIndex) (sweep : List String) (fresh : String → String)
    (l : String) :
    (idx.planFor sweep fresh l).append.map OrderEntry.itemId = idx.missing sweep l := by
  rw [planFor, List.map_map]
  exact List.map_id' _

theorem kept_append_nodup (c : Content) (sweep : List String) (l : String) :
    ((c.liveIds l).filter (fun id => decide (id ∉ sweep)) ++ c.openRest l).Nodup := by
  refine List.nodup_append.2 ⟨(firsts_nodup _).filter _, c.openRest_nodup l, ?_⟩
  rintro a ha b hb rfl
  exact (Content.mem_openRest.1 hb).2.2 (List.mem_filter.1 ha).1

/-- **A repaired container** holds one live entry for every item that stays, then one for each
item of the open tail. -/
theorem repaired_entries (h : Tracks c idx) (hwritten : c.WellWritten)
    (hclosed : ∀ id ∈ sweep, c.openNow id = false) (hfresh : ∀ id, fresh id ≠ "")
    (hraw : idx.rawOf l = c.slots l) :
    ∃ es : List OrderEntry, (c.repaired idx sweep fresh).slots l = es.map some ∧
      (∀ e ∈ es, (c.repaired idx sweep fresh).live l e = true ∧ e.itemId ∉ sweep) ∧
      es.map OrderEntry.itemId =
        (c.liveIds l).filter (fun id => decide (id ∉ sweep)) ++ c.openRest l := by
  have hitems := repaired_kept h hwritten hclosed hfresh
  obtain ⟨ks, hks, hlive, hids⟩ := kept_entries sweep fresh h hraw
  refine ⟨ks ++ (idx.planFor sweep fresh l).append, ?_, fun e he => ?_, ?_⟩
  · rw [slots_repaired h hwritten hclosed, hks, List.map_append]
  · rcases List.mem_append.1 he with he | he
    · obtain ⟨hin, hl, hout⟩ := hlive e he
      exact ⟨(hitems.live (unplaced_of_live hin hl)).trans hl, hout⟩
    · have hin : e.itemId ∈ c.openRest l := by
        rw [← h.missing_eq hclosed, ← itemIds_append idx sweep fresh]
        exact List.mem_map_of_mem he
      refine ⟨?_, fun hsweep => ?_⟩
      · cases hfix : c.unplaced e.itemId with
        | true => exact live_append_fixed h hwritten hclosed he hfix
        | false => exact (hitems.live hfix).trans (live_append h hclosed he hfix)
      · have hopen := (Content.mem_openRest.1 hin).2.1
        rw [hclosed _ hsweep] at hopen
        cases hopen
  · rw [List.map_append, hids, itemIds_append, h.missing_eq hclosed]

theorem liveIds_of_entries {es : List OrderEntry} (hslots : c.slots l = es.map some)
    (hlive : ∀ e ∈ es, c.live l e = true) (hnodup : (es.map OrderEntry.itemId).Nodup) :
    c.liveIds l = es.map OrderEntry.itemId := by
  have hes : (c.slots l).filterMap id = es := by
    rw [hslots, List.filterMap_map]
    exact List.filterMap_some
  rw [Content.liveIds, Content.liveEntries, hes, List.filter_eq_self.2 hlive,
    firsts_of_nodup hnodup]

theorem no_live (hno : ∀ id, ¬c.Located l id) : c.liveIds l = [] :=
  List.eq_nil_iff_forall_not_mem.2 fun id hid => hno id (Content.located_of_liveIds hid)

/-- **A repair is a cleaning.** -/
theorem cleaning_repaired (h : Tracks c idx) (hwritten : c.WellWritten)
    (hclosed : ∀ id ∈ sweep, c.openNow id = false) (hfresh : ∀ id, fresh id ≠ "") :
    Content.Cleaning c (c.repaired idx sweep fresh) (fun id => decide (id ∈ sweep))
      fun _ => true := by
  have hitems := repaired_kept h hwritten hclosed hfresh
  refine ⟨fun l id => hitems.located, hitems.ageKey, hitems.openNow,
    fun id hid => hclosed id (of_decide_eq_true hid), fun l => congrArg _ ?_⟩
  rcases h.rawOf_cases l with hraw | ⟨-, -, hno⟩
  · obtain ⟨es, hslots, hlive, hids⟩ := repaired_entries h hwritten hclosed hfresh hraw
    have hnodup := kept_append_nodup c sweep l
    rw [liveIds_of_entries hslots (fun e he => (hlive e he).1) (hids ▸ hnodup), hids]
    congr 1
    refine List.filter_congr fun id _ => ?_
    simp
  · have hrest : c.openRest l = [] := List.eq_nil_iff_forall_not_mem.2 fun id hid =>
      hno id (Content.mem_openRest.1 hid).1
    rw [no_live hno, hrest, no_live fun id hid => hno id (hitems.located.1 hid)]
    rfl

end Repaired

end Monoplan.Doc
