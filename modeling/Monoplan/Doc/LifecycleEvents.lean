import Monoplan.Doc.Closing
import Monoplan.Doc.Events

/-!
# Lifecycle writes and what they report

* `patchEvents` are the events of the branch that patches the index item by item, with the open
  position that the patched index gives; `rebuildEvents` are those of the branch that compares
  the walks before and after.
* `LifecycleOnly c c'`: only lifecycle registers differ.  Then the walk over all items meets the
  same ids in the same order (`walk_congr`).
* `openItemIds_eq_walk`: an open projection is the open part of the walk, as long as every item
  reads as one (`Legible`).
-/

namespace Monoplan.Doc

open Monoplan.Base ProjectionIndex

/-! ## Events -/

/-- What `sync_item_openness` returns: the item's position in its list's open projection. -/
def ProjectionIndex.syncedOpenIndex (idx : ProjectionIndex) (id : String) (openNow : Bool) :
    Option ℕ :=
  match idx.setOpen id openNow with
  | none => none
  | some (listId, wasOpen, idx) =>
    if !openNow then none
    else if wasOpen then (idx.openByList.get listId).bind fun arr => arr.findIdx? fun x => x = id
    else (idx.openOf listId).findIdx? fun x => x = id

namespace Document

/-- The event of one item of a batch that is patched. -/
def patchEvent (write : LifecycleWrite) (now : ℤ) (d : Document) (id : String) : List AppEvent :=
  match (d.content.item id).bind fun m => applyLifecycleWrite m write now with
  | none => []
  | some m =>
    [.itemLifecycleChanged id m.workflowOf.1 m.workflowOf.2 m.startedAt m.doneAt m.binnedAt
      (d.index.syncedOpenIndex id m.isOpen)]

/-- The events of a batch that is patched. -/
def patchEvents (write : LifecycleWrite) (now : ℤ) : Document → List String → List AppEvent
  | _, [] => []
  | d, id :: ids =>
    patchEvent write now d id ++ patchEvents write now (syncLifecycle write now d id) ids

/-- The events of a batch that is rebuilt. -/
def rebuildEvents (write : LifecycleWrite) (now : ℤ) (d : Document) (ids : List String) :
    List AppEvent :=
  if ids.any (writes write now d.content) then
    diffItems d.iterItems (d.rebuildLifecycle ids write now).iterItems
  else []

end Document

/-! ## Writes of lifecycle registers -/

/-- The item with another lifecycle. -/
def ItemView.withLifecycle (v v' : ItemView) : ItemView :=
  { v with
    state := v'.state, lifecycleAt := v'.lifecycleAt, startedAt := v'.startedAt
    doneAt := v'.doneAt, binnedAt := v'.binnedAt }

/-- The item map with other lifecycle registers. -/
def ItemMap.withLifecycle (m m' : ItemMap) : ItemMap :=
  { m with
    lifecycle := m'.lifecycle, startedAt := m'.startedAt, doneAt := m'.doneAt
    binnedAt := m'.binnedAt }

variable {c c' c'' : Content} {d : Document} {write : LifecycleWrite} {now : ℤ}
  {m m' : ItemMap} {v : ItemView}

theorem applyLifecycle_only {target : Option WorkflowState}
    (h : applyLifecycle m target now = some m') : m' = m.withLifecycle m' := by
  unfold applyLifecycle at h
  split at h <;> split at h <;> cases h <;> rfl

theorem applyLifecycleWrite_only (h : applyLifecycleWrite m write now = some m') :
    m' = m.withLifecycle m' := by
  unfold applyLifecycleWrite at h
  split at h
  · exact applyLifecycle_only h
  · split at h <;> cases h
    rfl
  · split at h
    · cases h
    · exact applyLifecycle_only h

theorem itemView_withLifecycle (hm : m' = m.withLifecycle m') (hv : itemView m = some v) :
    ∃ v', itemView m' = some v' ∧ v' = v.withLifecycle v' := by
  obtain ⟨id, hid, hv⟩ := Option.bind_eq_some_iff.1 hv
  obtain ⟨text, htext, hv⟩ := Option.bind_eq_some_iff.1 hv
  obtain ⟨createdAt, hcreated, rfl⟩ := Option.map_eq_some_iff.1 hv
  have hid' : m'.id = some id := by rw [hm]; exact hid
  have htext' : m'.text = some text := by rw [hm]; exact htext
  have hcreated' : m'.createdAt = some createdAt := by rw [hm]; exact hcreated
  refine ⟨_, by rw [itemView, hid', htext', hcreated']; rfl, ?_⟩
  rw [hm]
  rfl

/-- Only lifecycle registers differ. -/
structure Content.LifecycleOnly (c c' : Content) : Prop where
  item : ∀ id m, c.item id = some m → ∃ m', c'.item id = some m' ∧ m' = m.withLifecycle m'
  absent : ∀ id, c.item id = none → c'.item id = none
  orders : c'.orders = c.orders
  lists : c'.lists = c.lists

/-- Every item map reads as an item under its own key. -/
def Content.Legible (c : Content) : Prop :=
  ∀ id m, c.item id = some m → ∃ v, itemView m = some v ∧ v.id = id

namespace Content.LifecycleOnly

theorem refl (c : Content) : LifecycleOnly c c where
  item _ m hm := ⟨m, hm, rfl⟩
  absent _ h := h
  orders := rfl
  lists := rfl

theorem trans (h : LifecycleOnly c c') (h' : LifecycleOnly c' c'') : LifecycleOnly c c'' where
  item id m hm := by
    obtain ⟨m₁, hm₁, honly⟩ := h.item id m hm
    obtain ⟨m₂, hm₂, honly'⟩ := h'.item id m₁ hm₁
    refine ⟨m₂, hm₂, ?_⟩
    rw [honly', honly]
    rfl
  absent id hid := h'.absent id (h.absent id hid)
  orders := h'.orders.trans h.orders
  lists := h'.lists.trans h.lists

theorem setItem {id : String} (hm : c.item id = some m) (honly : m' = m.withLifecycle m') :
    LifecycleOnly c (c.setItem id m') where
  item y my hy := by
    rw [Content.item_setItem]
    by_cases heq : y = id
    · rw [if_pos heq]
      rw [heq, hm, Option.some.injEq] at hy
      exact ⟨m', rfl, hy ▸ honly⟩
    · rw [if_neg heq]
      exact ⟨my, hy, rfl⟩
  absent y hy := by
    rw [Content.item_setItem]
    by_cases heq : y = id
    · rw [heq, hm] at hy
      cases hy
    · rw [if_neg heq]
      exact hy
  orders := rfl
  lists := rfl

theorem writeLifecycle (c : Content) (id : String) :
    LifecycleOnly c (Document.writeLifecycle write now c id) := by
  unfold Document.writeLifecycle
  cases hm : c.item id with
  | none => exact refl c
  | some m =>
    rw [Option.bind_some]
    cases hw : applyLifecycleWrite m write now with
    | none => exact refl c
    | some m' => exact setItem hm (applyLifecycleWrite_only hw)

theorem foldl_writeLifecycle (c : Content) (ids : List String) :
    LifecycleOnly c (ids.foldl (Document.writeLifecycle write now) c) := by
  induction ids generalizing c with
  | nil => exact refl c
  | cons id ids ih => exact (writeLifecycle c id).trans (ih _)

theorem legible (h : LifecycleOnly c c') (hread : c.Legible) : c'.Legible := by
  intro id m' hm'
  cases hm : c.item id with
  | none =>
    rw [h.absent id hm] at hm'
    cases hm'
  | some m =>
    obtain ⟨m₁, hm₁, honly⟩ := h.item id m hm
    obtain rfl := Option.some.inj (hm₁.symm.trans hm')
    obtain ⟨v, hv, hid⟩ := hread id m hm
    obtain ⟨v', hv', honly'⟩ := itemView_withLifecycle honly hv
    exact ⟨v', hv', by rw [honly']; exact hid⟩

theorem meta_ (h : LifecycleOnly c c') (id : String) :
    (c'.metaOf id).map (fun s => (s.listId, s.placementId, s.createdAt)) =
      (c.metaOf id).map fun s => (s.listId, s.placementId, s.createdAt) := by
  rw [Content.metaOf, Content.metaOf]
  cases hm : c.item id with
  | none => rw [h.absent id hm]
  | some m =>
    obtain ⟨m', hm', honly⟩ := h.item id m hm
    rw [hm', honly]
    rfl

theorem allListIds (h : LifecycleOnly c c') : c'.allListIds = c.allListIds := by
  rw [Content.allListIds, Content.allLists, h.lists]
  rfl

end Content.LifecycleOnly

/-! ## The containers after a batch -/

theorem syncLifecycle_content (d : Document) (id : String) :
    (Document.syncLifecycle write now d id).content =
      Document.writeLifecycle write now d.content id := by
  unfold Document.syncLifecycle Document.writeLifecycle
  cases (d.content.item id).bind fun m => applyLifecycleWrite m write now with
  | none => rfl
  | some m => rfl

theorem patchLifecycle_content (d : Document) (ids : List String) :
    (d.patchLifecycle ids write now).content =
      ids.foldl (Document.writeLifecycle write now) d.content := by
  unfold Document.patchLifecycle
  induction ids generalizing d with
  | nil => rfl
  | cons id ids ih => rw [List.foldl_cons, List.foldl_cons, ih, syncLifecycle_content]

theorem rebuildLifecycle_content (d : Document) (ids : List String) :
    (d.rebuildLifecycle ids write now).content =
      ids.foldl (Document.writeLifecycle write now) d.content := by
  unfold Document.rebuildLifecycle
  split
  · rfl
  · rename_i hnone
    rw [Bool.not_eq_true, List.any_eq_false] at hnone
    symm
    induction ids with
    | nil => rfl
    | cons id ids ih =>
      have hid := hnone id List.mem_cons_self
      rw [Document.writes, Bool.not_eq_true, Option.isSome_eq_false_iff,
        Option.isNone_iff_eq_none] at hid
      rw [List.foldl_cons, Document.writeLifecycle, hid]
      exact ih fun y hy => hnone y (List.mem_cons_of_mem _ hy)

theorem setItemsLifecycle_content {d' : Document} {ids : List String}
    (h : d.setItemsLifecycle ids write now = some d') :
    ids.Nodup ∧ d'.content = ids.foldl (Document.writeLifecycle write now) d.content := by
  unfold Document.setItemsLifecycle at h
  split at h
  · rename_i hnil
    cases h
    rw [hnil]
    exact ⟨List.nodup_nil, rfl⟩
  split at h
  · cases h
  rename_i hok
  have hnodup : ids.Nodup := by
    by_contra hnot
    exact hok (.inl hnot)
  split at h
  · cases h
    exact ⟨hnodup, rebuildLifecycle_content d ids⟩
  · cases h
    exact ⟨hnodup, patchLifecycle_content d ids⟩

/-- The item after the write; as it was when nothing is written. -/
def ItemMap.lifecycled (m : ItemMap) (write : LifecycleWrite) (now : ℤ) : ItemMap :=
  (applyLifecycleWrite m write now).getD m

theorem item_writeLifecycle (c : Content) (id y : String) :
    (Document.writeLifecycle write now c id).item y =
      if y = id then (c.item y).map fun m => m.lifecycled write now else c.item y := by
  unfold Document.writeLifecycle
  by_cases hy : y = id
  · subst hy
    rw [if_pos rfl]
    cases hm : c.item y with
    | none => exact hm
    | some m =>
      rw [Option.bind_some, Option.map_some, ItemMap.lifecycled]
      cases applyLifecycleWrite m write now with
      | none => exact hm
      | some m' =>
        dsimp only
        rw [Content.item_setItem, if_pos rfl, Option.getD_some]
  · rw [if_neg hy]
    cases (c.item id).bind fun m => applyLifecycleWrite m write now with
    | none => rfl
    | some m' =>
      dsimp only
      rw [Content.item_setItem, if_neg hy]

theorem item_foldl_writeLifecycle (c : Content) {ids : List String} (hids : ids.Nodup)
    (y : String) :
    (ids.foldl (Document.writeLifecycle write now) c).item y =
      if y ∈ ids then (c.item y).map fun m => m.lifecycled write now else c.item y := by
  induction ids generalizing c with
  | nil => rw [if_neg List.not_mem_nil]; rfl
  | cons id ids ih =>
    obtain ⟨hid, hids⟩ := List.nodup_cons.1 hids
    rw [List.foldl_cons, ih _ hids, item_writeLifecycle]
    by_cases hy : y = id
    · subst hy
      rw [if_neg hid, if_pos rfl, if_pos List.mem_cons_self]
    · rw [if_neg hy]
      simp only [List.mem_cons, hy, false_or]

/-! ## The walk over all items -/

namespace Mirrors

open ProjectionIndex

variable {idx idx' : ProjectionIndex} {l : String}

theorem mem_keys (h : Mirrors c idx) : l ∈ idx.members.keys ↔ ∃ id, c.Located l id := by
  constructor
  · intro hl
    obtain ⟨s, hs⟩ := Option.isSome_iff_exists.1 ((FMap.mem_keys _ _).1 hl)
    obtain ⟨id, hid⟩ : s.Nonempty := Finset.nonempty_iff_ne_empty.2 fun he =>
      h.membership.membersKey l (he ▸ hs)
    refine ⟨id, h.mem_membersOf.1 ?_⟩
    rw [membersOf, hs]
    exact hid
  · rintro ⟨id, hid⟩
    exact mem_members_keys (h.mem_membersOf.2 hid)

/-- Only locations, creation times and order containers matter to the resolved orders. -/
theorem resolved_congr (h : Mirrors c idx) (h' : Mirrors c' idx')
    (hmeta : ∀ id, (c'.metaOf id).map (fun s => (s.listId, s.placementId, s.createdAt)) =
      (c.metaOf id).map fun s => (s.listId, s.placementId, s.createdAt))
    (horders : c'.orders = c.orders) (l : String) :
    (∀ id, c'.Located l id ↔ c.Located l id) ∧ idx'.resolved l = idx.resolved l := by
  have hslots : ∀ l, c'.slots l = c.slots l := fun l => by
    rw [Content.slots, horders]
    rfl
  have hlive : c'.live l = c.live l := by
    funext e
    have he := hmeta e.itemId
    rw [Content.live, Content.live]
    cases hs : c.metaOf e.itemId with
    | none =>
      rw [hs, Option.map_none, Option.map_eq_none_iff] at he
      rw [he]
    | some s =>
      obtain ⟨s', hs', hsame⟩ := Option.map_eq_some_iff.1 (he.trans (by rw [hs]; rfl))
      simp only [Prod.mk.injEq] at hsame
      rw [hs']
      dsimp only
      rw [hsame.1, hsame.2.1]
  have hloc : ∀ id, c'.Located l id ↔ c.Located l id := by
    have hiff : ∀ (c : Content) id, c.Located l id ↔
        ((c.metaOf id).map fun s => (s.listId, s.placementId, s.createdAt)).any
          (fun p => decide (p.1 = l)) = true := by
      intro c id
      rw [Content.Located, Content.metaOf]
      cases c.item id <;> simp
    intro id
    rw [hiff, hiff, hmeta]
  have hkey : c'.ageKey = c.ageKey := by
    have hage : ∀ (c : Content) id, ((c.metaOf id).map ItemMeta.createdAt) =
        ((c.metaOf id).map fun s => (s.listId, s.placementId, s.createdAt)).map
          fun p => p.2.2 := fun c id => by
      rw [Option.map_map]
      rfl
    funext id
    rw [Content.ageKey, Content.ageKey, hage, hage, hmeta]
  have hids : c'.liveIds l = c.liveIds l := by
    rw [Content.liveIds, Content.liveIds, Content.liveEntries, Content.liveEntries, hslots, hlive]
  have hall := h.resolved_filter h' (l := l) (fun _ => true) (fun id _ => hloc id)
    (fun id _ => congrFun hkey id) (by rw [hids])
  exact ⟨hloc, by simpa using hall⟩

theorem walk_congr (h : Mirrors c idx) (h' : Mirrors c' idx')
    (hmeta : ∀ id, (c'.metaOf id).map (fun s => (s.listId, s.placementId, s.createdAt)) =
      (c.metaOf id).map fun s => (s.listId, s.placementId, s.createdAt))
    (horders : c'.orders = c.orders) (rows : List String) :
    idx'.iterItems rows = idx.iterItems rows := by
  have hresolved := resolved_congr h h' hmeta horders
  have hkeys : idx'.members.keys = idx.members.keys := by
    ext l
    rw [h.mem_keys, h'.mem_keys]
    exact exists_congr fun id => (hresolved l).1 id
  have hlists : idx'.orderedListIds rows = idx.orderedListIds rows := by
    rw [orderedListIds, orderedListIds, hkeys]
  rw [iterItems, iterItems, hlists]
  exact List.flatMap_congr fun l _ => (hresolved l).2

end Mirrors

/-- Of parts that are all empty but one, that one is left. -/
theorem flatMap_of_single {α β : Type*} [DecidableEq α] {ks : List α} (hks : ks.Nodup)
    {f : α → List β} {a : α} (h : ∀ k, k ≠ a → f k = []) :
    ks.flatMap f = if a ∈ ks then f a else [] := by
  induction ks with
  | nil => rfl
  | cons k ks ih =>
    obtain ⟨hk, hks⟩ := List.nodup_cons.1 hks
    rw [List.flatMap_cons, ih hks]
    by_cases hka : k = a
    · rw [hka] at hk ⊢
      rw [if_neg hk, if_pos List.mem_cons_self, List.append_nil]
    · rw [h k hka, List.nil_append]
      simp [Ne.symm hka]

/-- The walk as it is shown: an item map reads as one item, of the same id. -/
theorem iterItems_map_id (hread : d.content.Legible) (h : Mirrors d.content d.index) :
    d.iterItems.map ItemView.id = d.index.iterItems d.content.allListIds := by
  have hwalk := (h.walk d.content.allListIds).2
  unfold Document.iterItems
  have hall : ∀ id ∈ d.index.iterItems d.content.allListIds, ∃ v,
      (d.content.item id).bind itemView = some v ∧ v.id = id := by
    intro id hid
    obtain ⟨m, hm⟩ := Option.isSome_iff_exists.1 ((hwalk id).1 hid)
    obtain ⟨v, hv, hvid⟩ := hread id m hm
    exact ⟨v, by rw [hm]; exact hv, hvid⟩
  generalize d.index.iterItems d.content.allListIds = walk at hall
  induction walk with
  | nil => rfl
  | cons id walk ih =>
    obtain ⟨v, hv, hvid⟩ := hall id List.mem_cons_self
    have hcons := List.filterMap_cons_some (f := fun id => (d.content.item id).bind itemView)
      (l := walk) hv
    rw [hcons, List.map_cons, hvid, ih fun y hy => hall y (List.mem_cons_of_mem _ hy)]

theorem itemView_isOpen (hv : itemView m = some v) :
    v.isOpen = m.isOpen ∧ v.listId = (itemMeta m).listId := by
  obtain ⟨id, hid, hv⟩ := Option.bind_eq_some_iff.1 hv
  obtain ⟨text, htext, hv⟩ := Option.bind_eq_some_iff.1 hv
  obtain ⟨createdAt, hcreated, rfl⟩ := Option.map_eq_some_iff.1 hv
  exact ⟨rfl, rfl⟩

/-- A list's open projection is the open part of the walk. -/
theorem openItemIds_eq_walk (hread : d.content.Legible) (h : Agrees d.content d.index)
    (l : String) : d.index.openItemIds l =
      (d.iterItems.filter fun v => v.isOpen && v.listId == l).map ItemView.id := by
  have hm := h.mirrors
  have hshown : ∀ walk : List String, (∀ id ∈ walk, (d.content.item id).isSome) →
      ((walk.filterMap fun id => (d.content.item id).bind itemView).filter
        fun v => v.isOpen && v.listId == l).map ItemView.id =
      walk.filter fun id => d.content.openNow id &&
        (d.content.metaOf id).any fun s => s.listId == l := by
    intro walk hwalk
    induction walk with
    | nil => rfl
    | cons id walk ih =>
      obtain ⟨m, hid⟩ := Option.isSome_iff_exists.1 (hwalk id List.mem_cons_self)
      obtain ⟨v, hv, hvid⟩ := hread id m hid
      have hcons := List.filterMap_cons_some (f := fun id => (d.content.item id).bind itemView)
        (l := walk) (a := id) (b := v) (by rw [hid]; exact hv)
      have hopen : (v.isOpen && v.listId == l) = (d.content.openNow id &&
          (d.content.metaOf id).any fun s => s.listId == l) := by
        rw [Content.openNow, Content.metaOf, hid, (itemView_isOpen hv).1, (itemView_isOpen hv).2]
        rfl
      rw [hcons, List.filter_cons, List.filter_cons, hopen,
        ← ih fun y hy => hwalk y (List.mem_cons_of_mem _ hy)]
      split
      · rw [List.map_cons, hvid]
      · rfl
  rw [(h.opens l).openItemIds, openOf_eq h.membership, hm.isOpenItem_eq, Document.iterItems,
    hshown _ fun id hid => ((hm.walk _).2 id).1 hid, ProjectionIndex.iterItems,
    List.filter_flatMap, flatMap_of_single (Mirrors.orderedListIds_nodup _ _) (a := l)]
  · split
    · refine List.filter_congr fun id hid => ?_
      obtain ⟨m, hitem, hl⟩ := hm.mem_resolved.1 hid
      rw [Content.metaOf, hitem, Option.map_some, Option.any_some, hl, beq_self_eq_true,
        Bool.and_true]
    · rename_i hout
      refine List.filter_eq_nil_iff.2 fun id hid => absurd ?_ hout
      rw [Mirrors.mem_orderedListIds]
      exact .inr (.inr (mem_members_keys (hm.mem_membersOf.2 (hm.mem_resolved.1 hid))))
  · intro k hk
    refine List.filter_eq_nil_iff.2 fun id hid hin => ?_
    obtain ⟨m, hitem, hl⟩ := hm.mem_resolved.1 hid
    rw [Content.metaOf, hitem, Option.map_some, Option.any_some, hl, Bool.and_eq_true,
      beq_iff_eq] at hin
    exact hk hin.2

/-! ## The walk before and after -/

/-- Item by item, only the lifecycle differs. -/
theorem walk_lifecycleOnly {d' : Document} (hread : d.content.Legible)
    (h : Mirrors d.content d.index) (h' : Mirrors d'.content d'.index)
    (honly : d.content.LifecycleOnly d'.content) :
    List.Forall₂ (fun v v' => v' = v.withLifecycle v') d.iterItems d'.iterItems := by
  have hwalk := (h.walk d.content.allListIds).2
  unfold Document.iterItems
  rw [honly.allListIds, h.walk_congr h' honly.meta_ honly.orders]
  have hall : ∀ id ∈ d.index.iterItems d.content.allListIds, ∃ v v',
      (d.content.item id).bind itemView = some v ∧
        (d'.content.item id).bind itemView = some v' ∧ v' = v.withLifecycle v' := by
    intro id hid
    obtain ⟨m, hm⟩ := Option.isSome_iff_exists.1 ((hwalk id).1 hid)
    obtain ⟨v, hv, hvid⟩ := hread id m hm
    obtain ⟨m', hm', hmonly⟩ := honly.item id m hm
    obtain ⟨v', hv', hvonly⟩ := itemView_withLifecycle hmonly hv
    exact ⟨v, v', by rw [hm]; exact hv, by rw [hm']; exact hv', hvonly⟩
  generalize d.index.iterItems d.content.allListIds = walk at hall
  induction walk with
  | nil => exact .nil
  | cons id walk ih =>
    obtain ⟨v, v', hv, hv', hvonly⟩ := hall id List.mem_cons_self
    have hcons := List.filterMap_cons_some (f := fun id => (d.content.item id).bind itemView)
      (l := walk) hv
    have hcons' := List.filterMap_cons_some (f := fun id => (d'.content.item id).bind itemView)
      (l := walk) hv'
    rw [hcons, hcons']
    exact .cons hvonly (ih fun y hy => hall y (List.mem_cons_of_mem _ hy))

/-- One item's map is replaced by one that differs in its lifecycle: so does the walk. -/
theorem walk_setItem (d' : Document) {id : String} (hread : d.content.Legible)
    (h : Mirrors d.content d.index) (h' : Mirrors d'.content d'.index)
    (hm : d.content.item id = some m) (honly : m' = m.withLifecycle m')
    (hd' : d'.content = d.content.setItem id m') :
    ∃ A B v v', d.iterItems = A ++ v :: B ∧ d'.iterItems = A ++ v' :: B ∧ v.id = id ∧
      itemView m = some v ∧ itemView m' = some v' ∧ v' = v.withLifecycle v' := by
  have hlife : d.content.LifecycleOnly d'.content := hd' ▸ .setItem hm honly
  obtain ⟨v, hv, hvid⟩ := hread id m hm
  obtain ⟨v', hv', hvonly⟩ := itemView_withLifecycle honly hv
  obtain ⟨hnodup, hwalk⟩ := h.walk d.content.allListIds
  obtain ⟨P, Q, hsplit⟩ := List.append_of_mem ((hwalk id).2 (by rw [hm]; rfl))
  have hsplit' : d'.index.iterItems d'.content.allListIds = P ++ id :: Q := by
    rw [hlife.allListIds, h.walk_congr h' hlife.meta_ hlife.orders, hsplit]
  rw [hsplit] at hnodup
  obtain ⟨-, hQ, hdisj⟩ := List.nodup_append.1 hnodup
  have hother : ∀ y, y ≠ id → (d'.content.item y).bind itemView =
      (d.content.item y).bind itemView := fun y hy => by
    rw [hd', Content.item_setItem, if_neg hy]
  refine ⟨P.filterMap fun y => (d.content.item y).bind itemView,
    Q.filterMap fun y => (d.content.item y).bind itemView, v, v', ?_, ?_, hvid, hv, hv', hvonly⟩
  · rw [Document.iterItems, hsplit, List.filterMap_append]
    exact congrArg _ (List.filterMap_cons_some (by rw [hm]; exact hv))
  · rw [Document.iterItems, hsplit', List.filterMap_append]
    congr 1
    · refine List.filterMap_congr fun y hy => hother y fun heq => ?_
      exact hdisj y hy id List.mem_cons_self heq
    · refine (List.filterMap_cons_some (b := v') ?_).trans (congrArg _ ?_)
      · rw [hd', Content.item_setItem, if_pos rfl]
        exact hv'
      · refine List.filterMap_congr fun y hy => hother y fun heq => ?_
        exact (List.nodup_cons.1 hQ).1 (heq ▸ hy)

/-! ## The reported position -/

/-- An item that opens is reported where it comes to stand. -/
theorem syncedOpenIndex_opens {idx : ProjectionIndex} {id : String} {slice : ItemMeta}
    (hslice : idx.metas.get id = some slice) (hclosed : slice.isOpen = false) :
    idx.syncedOpenIndex id true =
      ((idx.syncItemOpenness id true).openItemIds slice.listId).findIdx? fun x => x = id := by
  obtain ⟨base, hset, -⟩ := setOpen_eq hslice true
  rw [syncedOpenIndex, syncItemOpenness, hset, hclosed]
  dsimp only
  rw [Bool.not_true, if_neg Bool.false_ne_true, if_neg Bool.false_ne_true,
    if_neg Bool.false_ne_true, if_neg Bool.false_ne_true, openItemIds,
    get_openByList_refreshOpen, if_pos rfl, getD_unlessNil]

theorem findIdx_middle {xs ys : List String} {id : String} (hid : id ∉ xs) :
    (xs ++ id :: ys).findIdx? (fun x => decide (x = id)) = some xs.length := by
  rw [List.findIdx?_append, List.findIdx?_eq_none_iff.2 fun x hx => by
    simpa using fun heq : x = id => hid (heq ▸ hx)]
  simp [List.findIdx?_cons]

end Monoplan.Doc
