import Monoplan.Doc.Projection

/-!
# The projection law

What the computed index shows, in terms of the containers alone.

* Every item stands exactly once in all resolved orders, in the list its location names.
* A list's order is its live entries, each item once, followed by the other items located
  there by creation time and id.
* The open projection is the open part of that order.
* Only the item map and the live entries matter: two contents that agree on them show the
  same, in whatever order their tables are walked.
-/

namespace Monoplan.Doc

open Monoplan.Base

namespace Content

/-- The entry names an item under the placement that the item's location names. -/
def live (c : Content) (listId : String) (e : OrderEntry) : Bool :=
  match c.metaOf e.itemId with
  | some m => decide (m.listId = listId ∧ m.placementId = e.placementId)
  | none => false

/-- The live entries of an order container. -/
def liveEntries (c : Content) (listId : String) : List OrderEntry :=
  ((c.slots listId).filterMap id).filter (c.live listId)

/-- The items shown through an entry. -/
def liveIds (c : Content) (listId : String) : List String :=
  firsts ((c.liveEntries listId).map OrderEntry.itemId)

/-- The item is in the map, and its location names the list. -/
def Located (c : Content) (listId id : String) : Prop :=
  ∃ m, c.item id = some m ∧ (itemMeta m).listId = listId

/-- Creation time and id. -/
def ageKey (c : Content) (id : String) : ℤ ×ₗ String :=
  toLex (((c.metaOf id).map ItemMeta.createdAt).getD 0, id)

/-- The item is in the map and open. -/
def openNow (c : Content) (id : String) : Bool := ((c.item id).map ItemMap.isOpen).getD false

end Content

/-- What an index shows of the containers `c`. -/
structure ProjectionLaw (c : Content) (idx : ProjectionIndex) : Prop where
  /-- No loss, no duplication, and no other list than the one the location names. -/
  once : ∀ id m, c.item id = some m → ∀ l,
    (idx.resolved l).count id = if l = (itemMeta m).listId then 1 else 0
  /-- Nothing but items is shown. -/
  known : ∀ l, ∀ id ∈ idx.resolved l, (c.item id).isSome
  /-- Live entries first, then the rest of the list by age. -/
  order : ∀ l, ∃ rest, idx.resolved l = c.liveIds l ++ rest ∧
    (rest.Pairwise fun a b => c.ageKey a < c.ageKey b) ∧
    ∀ id, id ∈ rest ↔ c.Located l id ∧ id ∉ c.liveIds l
  /-- The open projection. -/
  opens : ∀ l, idx.openItemIds l = (idx.resolved l).filter c.openNow
  /-- The walk over all lists meets every item, and none twice. -/
  walk : (idx.iterItems c.allListIds).Nodup ∧
    ∀ id, id ∈ idx.iterItems c.allListIds ↔ (c.item id).isSome

/-- The index has the items' slices, the membership sets they define, and the order container
of every list that has items. -/
structure Mirrors (c : Content) (idx : ProjectionIndex) : Prop where
  metas : ∀ id, idx.metas.get id = c.metaOf id
  membership : idx.Membership
  raw : ∀ l ∈ idx.members.keys, idx.rawOf l = c.slots l

namespace ProjectionIndex

theorem mem_members_keys {idx : ProjectionIndex} {l id : String} (h : id ∈ idx.membersOf l) :
    l ∈ idx.members.keys := by
  rw [FMap.mem_keys]
  unfold membersOf at h
  cases hs : idx.members.get l with
  | none => simp [hs] at h
  | some s => rfl

end ProjectionIndex

namespace Mirrors

open ProjectionIndex

variable {c : Content} {idx : ProjectionIndex} {l id : String}

theorem mem_membersOf (h : Mirrors c idx) : id ∈ idx.membersOf l ↔ c.Located l id := by
  rw [h.membership.members, h.metas, Content.metaOf, Content.Located]
  cases c.item id <;> simp

theorem matches_eq (h : Mirrors c idx) : idx.matches_ l = c.live l := by
  funext e
  rw [matches_, h.metas]
  rfl

/-- A list with a live entry has a member. -/
theorem member_of_live (h : Mirrors c idx) {e : OrderEntry} (he : c.live l e = true) :
    l ∈ idx.members.keys := by
  rw [← h.matches_eq, matches_iff] at he
  obtain ⟨m, hm, hl, -⟩ := he
  exact mem_members_keys ((h.membership.members l e.itemId).2 ⟨m, hm, hl⟩)

/-- The visible ids are the live ones, whether or not the container was mirrored. -/
theorem visibleIds_eq (h : Mirrors c idx) (l : String) : idx.visibleIds l = c.liveIds l := by
  rw [visibleIds, Content.liveIds, Content.liveEntries, h.matches_eq]
  by_cases hl : l ∈ idx.members.keys
  · rw [h.raw l hl]
  · have hnil : ∀ es : List OrderEntry, es.filter (c.live l) = [] := fun es => by
      rw [List.filter_eq_nil_iff]
      exact fun e _ he => hl (h.member_of_live he)
    rw [hnil, hnil]

theorem tailKey_eq (h : Mirrors c idx) : idx.tailKey = c.ageKey := by
  funext a
  rw [tailKey, h.metas]
  rfl

theorem isOpenItem_eq (h : Mirrors c idx) : idx.isOpenItem = c.openNow := by
  funext a
  rw [isOpenItem, h.metas, Content.metaOf, Content.openNow, Option.map_map]
  rfl

theorem mem_resolved (h : Mirrors c idx) : id ∈ idx.resolved l ↔ c.Located l id := by
  rw [ProjectionIndex.mem_resolved h.membership, h.mem_membersOf]

/-- The order of a list in terms of the containers. -/
theorem order (h : Mirrors c idx) (l : String) :
    ∃ rest, idx.resolved l = c.liveIds l ++ rest ∧
      (rest.Pairwise fun a b => c.ageKey a < c.ageKey b) ∧
      ∀ id, id ∈ rest ↔ c.Located l id ∧ id ∉ c.liveIds l := by
  refine ⟨idx.tail l (idx.visibleIds l), ?_, ?_, fun id => ?_⟩
  · rw [resolved, h.visibleIds_eq]
  · rw [← h.tailKey_eq]
    exact sortOn_ascending
  · rw [mem_tail, h.mem_membersOf, h.visibleIds_eq]

/-- **Relative order.**  Two contents that agree on the items of a kind show them in the same
order. -/
theorem resolved_filter {c' : Content} {idx' : ProjectionIndex} (h : Mirrors c idx)
    (h' : Mirrors c' idx') (p : String → Bool)
    (hloc : ∀ id, p id = true → (c'.Located l id ↔ c.Located l id))
    (hkey : ∀ id, p id = true → c'.ageKey id = c.ageKey id)
    (hids : (c'.liveIds l).filter p = (c.liveIds l).filter p) :
    (idx'.resolved l).filter p = (idx.resolved l).filter p := by
  obtain ⟨rest, hres, hasc, hmem⟩ := h.order l
  obtain ⟨rest', hres', hasc', hmem'⟩ := h'.order l
  have hlive : ∀ id, p id = true → (id ∈ c'.liveIds l ↔ id ∈ c.liveIds l) := by
    intro id hid
    have hiff : id ∈ (c'.liveIds l).filter p ↔ id ∈ (c.liveIds l).filter p := by rw [hids]
    simpa [hid] using hiff
  have hrest : rest'.filter p = rest.filter p := by
    have hsorted : (rest'.filter p).Pairwise fun a b => c.ageKey a < c.ageKey b := by
      refine (hasc'.filter p).imp_of_mem fun {a b} ha hb hlt => ?_
      rw [← hkey a (List.mem_filter.1 ha).2, ← hkey b (List.mem_filter.1 hb).2]
      exact hlt
    refine eq_of_ascending hsorted (hasc.filter p) fun id => ?_
    rw [List.mem_filter, List.mem_filter, hmem, hmem']
    refine and_congr_left fun hid => ?_
    rw [hloc id hid, hlive id hid]
  rw [hres, hres', List.filter_append, List.filter_append, hids, hrest]

theorem resolved_eq {idx' : ProjectionIndex} (h : Mirrors c idx) (h' : Mirrors c idx') (l : String) :
    idx'.resolved l = idx.resolved l := by
  have hall := h.resolved_filter h' (l := l) (fun _ => true) (fun _ _ => Iff.rfl) (fun _ _ => rfl)
    rfl
  simpa using hall

theorem mem_orderedListIds (rows : List String) :
    l ∈ idx.orderedListIds rows ↔ l = LIST_INBOX ∨ l ∈ rows ∨ l ∈ idx.members.keys := by
  simp only [orderedListIds, List.mem_append, mem_firsts, List.mem_cons, mem_sortOn,
    Finset.mem_filter]
  tauto

theorem orderedListIds_nodup (idx : ProjectionIndex) (rows : List String) :
    (idx.orderedListIds rows).Nodup := by
  refine List.nodup_append.2 ⟨firsts_nodup _, sortOn_nodup, ?_⟩
  rintro a ha b hb rfl
  rw [mem_sortOn, Finset.mem_filter] at hb
  exact hb.2 ha

/-- The walk meets every item once: resolved orders of different lists are disjoint, and a
list with an item is walked. -/
theorem walk (h : Mirrors c idx) (rows : List String) :
    (idx.iterItems rows).Nodup ∧ ∀ id, id ∈ idx.iterItems rows ↔ (c.item id).isSome := by
  constructor
  · rw [iterItems, List.nodup_flatMap]
    refine ⟨fun l _ => resolved_nodup idx l, ?_⟩
    refine (orderedListIds_nodup idx rows).imp fun {l l'} hne => ?_
    intro id hl hl'
    obtain ⟨m, hm, hlist⟩ := h.mem_resolved.1 hl
    obtain ⟨m', hm', hlist'⟩ := h.mem_resolved.1 hl'
    rw [hm, Option.some.injEq] at hm'
    subst hm'
    exact hne (hlist.symm.trans hlist')
  · intro id
    rw [iterItems, List.mem_flatMap]
    constructor
    · rintro ⟨l, -, hid⟩
      obtain ⟨m, hm, -⟩ := h.mem_resolved.1 hid
      rw [hm]
      rfl
    · intro hsome
      obtain ⟨m, hm⟩ := Option.isSome_iff_exists.1 hsome
      have hloc : c.Located (itemMeta m).listId id := ⟨m, hm, rfl⟩
      refine ⟨(itemMeta m).listId, ?_, h.mem_resolved.2 hloc⟩
      rw [mem_orderedListIds]
      refine .inr (.inr ?_)
      exact mem_members_keys (h.mem_membersOf.2 hloc)

end Mirrors

namespace Computed

open ProjectionIndex

variable {c : Content} {idx : ProjectionIndex}

theorem mirrors (h : Computed c idx) : Mirrors c idx where
  metas := h.metas
  membership := h.membership
  raw l hl := by
    rw [rawOf, h.rawOrders, if_pos]
    · rfl
    · exact Finset.mem_insert_of_mem (Finset.mem_union_left _ hl)

theorem openItemIds_eq (h : Computed c idx) (l : String) :
    idx.openItemIds l = (idx.resolved l).filter c.openNow := by
  rw [← h.mirrors.isOpenItem_eq, ← openOf_eq h.membership, openItemIds, h.openByList, unlessNil]
  split
  · rename_i hnil
    exact hnil.symm
  · rfl

theorem law (h : Computed c idx) : ProjectionLaw c idx where
  once id m hm l := by
    have hiff : id ∈ idx.resolved l ↔ l = (itemMeta m).listId := by
      rw [h.mirrors.mem_resolved, Content.Located, hm]
      simp [eq_comm]
    split
    · rename_i hl
      exact List.count_eq_one_of_mem (resolved_nodup idx l) (hiff.2 hl)
    · rename_i hl
      exact List.count_eq_zero_of_not_mem fun hmem => hl (hiff.1 hmem)
  known l id hid := by
    obtain ⟨m, hm, -⟩ := h.mirrors.mem_resolved.1 hid
    rw [hm]
    rfl
  order := h.mirrors.order
  opens := h.openItemIds_eq
  walk := h.mirrors.walk _

/-- Contents with the same items and the same live entries show the same. -/
theorem same {c' : Content} {idx' : ProjectionIndex} (h : Computed c idx)
    (h' : Computed c' idx') (hitem : ∀ id, c'.item id = c.item id)
    (hlive : ∀ l, c'.liveEntries l = c.liveEntries l) (l : String) :
    idx'.resolved l = idx.resolved l ∧ idx'.openItemIds l = idx.openItemIds l := by
  have hmetas : ∀ id, c'.metaOf id = c.metaOf id := fun id => by
    rw [Content.metaOf, hitem]
    rfl
  have hkey : c'.ageKey = c.ageKey := funext fun id => by
    rw [Content.ageKey, hmetas]
    rfl
  have hids : c'.liveIds l = c.liveIds l := by
    rw [Content.liveIds, hlive]
    rfl
  have hloc : ∀ id, c'.Located l id ↔ c.Located l id := fun id => by
    rw [Content.Located, hitem]
    rfl
  have hresolved : idx'.resolved l = idx.resolved l := by
    have hall := h.mirrors.resolved_filter h'.mirrors (l := l) (fun _ => true)
      (fun id _ => hloc id) (fun id _ => congrFun hkey id) (by rw [hids])
    simpa using hall
  have hopen : c'.openNow = c.openNow := funext fun id => by
    rw [Content.openNow, hitem]
    rfl
  exact ⟨hresolved, by rw [h'.openItemIds_eq, h.openItemIds_eq, hresolved, hopen]⟩

end Computed

/-- **Projection law.**  Whatever the containers hold, and in whatever order the item map and
the candidate lists are walked, the computed index shows every item exactly once, in the list
its location names, with the live entries first and the rest by age; its open projections are
the open parts of these orders; and everything it shows depends on the items and the live
entries alone. -/
theorem projection_law (c : Content) (keys cands : List String)
    (h : c.Enumerates keys cands) :
    ProjectionLaw c (c.computeIndexOver keys cands) ∧
      ∀ (c' : Content) (keys' cands' : List String), c'.Enumerates keys' cands' →
        (∀ id, c'.item id = c.item id) → (∀ l, c'.liveEntries l = c.liveEntries l) → ∀ l,
          (c'.computeIndexOver keys' cands').resolved l =
              (c.computeIndexOver keys cands).resolved l ∧
            (c'.computeIndexOver keys' cands').openItemIds l =
              (c.computeIndexOver keys cands).openItemIds l := by
  have hcomputed := computed_computeIndexOver h
  refine ⟨hcomputed.law, fun c' keys' cands' h' hitem hlive l => ?_⟩
  exact hcomputed.same (computed_computeIndexOver h') hitem hlive l

/-- Three items: `a` moved within the inbox and left two stale entries and a repeated one, `b`
has no location, and `c` sits in a list that has no row. -/
def mergedContent : Content where
  items := ((FMap.empty.insert "a" (some { location := some "inbox:p1", createdAt := some 3 })).insert
    "b" (some { createdAt := some 2 })).insert "c"
    (some { location := some "x:p2", createdAt := some 1 })
  orders l := if l = "inbox" then [some "a:p0", some "a:p1", none, some "a:p1"] else []
  lists := []

theorem projection_law_merged :
    mergedContent.Enumerates ["a", "b", "c"] ["inbox", "x"] ∧
      ProjectionLaw mergedContent (mergedContent.computeIndexOver ["a", "b", "c"] ["inbox", "x"]) :=
  ⟨by decide, (projection_law mergedContent ["a", "b", "c"] ["inbox", "x"] (by decide)).1⟩

end Monoplan.Doc
