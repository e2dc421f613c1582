import Monoplan.Doc.Focus
import Monoplan.Doc.Transitions

/-!
# What deletions leave alone

* `Relocates`: `delete_list` bins every item of the list into the inbox, behind the items its
  entries show, and no other list is shown differently.  The list's order container stays behind.
* `Purges`: a hard deletion takes the named items and their entries in the lists that show them;
  every other item stands where it stood.
-/

namespace Monoplan.Doc

open Monoplan.Base ProjectionIndex

/-! ## Statements -/

/-- An item after its list was deleted. -/
def ItemMap.discarded (m : ItemMap) (placement : String) (now : ℤ) : ItemMap :=
  { m with
    location := some (Location.encode ⟨LIST_INBOX, placement⟩)
    binnedAt := m.binnedAt.orElse fun _ => some now }

/-- What the minted ids promise: the ids are of the plain grammar, and no entry of the inbox names
an item under the placement it will get. -/
def Document.MintedFor (d : Document) (l : String) (placing : String → String) : Prop :=
  ∀ id ∈ d.index.resolved l, PlainId id ∧
    ∀ e, some e ∈ d.content.slots LIST_INBOX → e.itemId = id → e.placementId ≠ placing id

/-- What `delete_list` does and what it leaves alone. -/
structure Relocates (d d' : Document) (l : String) (placing : String → String) (now : ℤ) :
    Prop where
  items : ∀ id, d'.content.item id =
    if id ∈ d.index.resolved l then (d.content.item id).map fun m => m.discarded (placing id) now
    else d.content.item id
  /-- Every item of the list is among those. -/
  all : ∀ id m, d.content.item id = some m → ((itemMeta m).listId = l ↔ id ∈ d.index.resolved l)
  emptied : d'.index.resolved l = []
  /-- The inbox gets them in their order, behind its entries and before the rest. -/
  inbox : ∃ rest, d.index.resolved LIST_INBOX = d.content.liveIds LIST_INBOX ++ rest ∧
    d'.index.resolved LIST_INBOX =
      d.content.liveIds LIST_INBOX ++ d.index.resolved l ++ rest
  others : ∀ l', l' ≠ l → l' ≠ LIST_INBOX → d'.index.resolved l' = d.index.resolved l'
  opens : ∀ l', l' ≠ l → d'.index.openItemIds l' = d.index.openItemIds l'
  /-- The first row of the list goes, no other. -/
  rows : ∃ row, d.content.findList l = some row ∧ d'.content.lists = d.content.lists.eraseIdx row
  containers : ∀ l', l' ≠ LIST_INBOX → d'.content.orders l' = d.content.orders l'
  agrees : Agrees d'.content d'.index

/-- What a hard deletion does and what it leaves alone. -/
structure Purges (d d' : Document) (ids : List String) : Prop where
  items : ∀ id, d'.content.item id = if id ∈ ids then none else d.content.item id
  /-- Each container loses the entries of the named items located in its list. -/
  slots : ∀ l, d'.content.slots l = (d.content.slots l).filter fun s =>
    !s.any fun e => decide (e.itemId ∈ Document.locatedAmong d.index ids l)
  resolved : ∀ l, d'.index.resolved l = (d.index.resolved l).filter fun id => id ∉ ids
  opens : ∀ l, d'.index.openItemIds l = d.index.openItemIds l
  /-- The focus lens showed none of them. -/
  focus : ∀ raw, d'.index.focusEntries raw = d.index.focusEntries raw
  rows : d'.content.lists = d.content.lists
  agrees : Agrees d'.content d'.index

/-- The open projections of an index that agrees. -/
theorem Agrees.openItemIds_eq {c : Content} {idx : ProjectionIndex} (h : Agrees c idx)
    (l : String) : idx.openItemIds l = (idx.resolved l).filter c.openNow := by
  rw [(h.opens l).openItemIds, openOf_eq h.membership, h.toTracks.mirrors.isOpenItem_eq]

/-! ## Relocation -/

section Relocation

variable {c : Content} {idx : ProjectionIndex} {d d' : Document} {l : String}
  {placing : String → String} {now : ℤ} {ids : List String}

theorem discard_item_eq (c : Content) (id y : String) :
    (c.discard placing now id).item y =
      if y = id then (c.item y).map fun m => m.discarded (placing y) now else c.item y := by
  rw [discard_item]
  split
  · rename_i hy
    rw [hy]
    rfl
  · rfl

/-- The maps after a run of relocations. -/
theorem item_discardAll (hids : ids.Nodup) (c : Content) (y : String) :
    (ids.foldl (Content.discard placing now) c).item y =
      if y ∈ ids then (c.item y).map fun m => m.discarded (placing y) now else c.item y := by
  induction ids generalizing c with
  | nil => rfl
  | cons id ids ih =>
    obtain ⟨hid, hids⟩ := List.nodup_cons.1 hids
    rw [List.foldl_cons, ih hids, discard_item_eq]
    by_cases hy : y = id
    · rw [if_pos (List.mem_cons.2 (.inl hy)), if_pos hy, if_neg (hy ▸ hid)]
    · simp [hy]

/-- A relocation writes the inbox's container alone. -/
theorem orders_discardAll (c : Content) (l' : String) (hl' : l' ≠ LIST_INBOX) :
    (ids.foldl (Content.discard placing now) c).orders l' = c.orders l' := by
  induction ids generalizing c with
  | nil => rfl
  | cons id ids ih =>
    rw [List.foldl_cons, ih]
    unfold Content.discard
    split
    · rfl
    · rw [Content.orders_setOrder, if_neg hl']
      rfl

theorem lists_discardAll (c : Content) :
    (ids.foldl (Content.discard placing now) c).lists = c.lists := by
  induction ids generalizing c with
  | nil => rfl
  | cons id ids ih =>
    rw [List.foldl_cons, ih]
    unfold Content.discard
    split <;> rfl

/-- The inbox gets an entry for each. -/
theorem slots_discardAll (hids : ids.Nodup) (hplain : ∀ id ∈ ids, PlainId id) (c : Content)
    (hin : ∀ id ∈ ids, (c.item id).isSome = true) :
    (ids.foldl (Content.discard placing now) c).slots LIST_INBOX =
      c.slots LIST_INBOX ++ ids.map fun id => some ⟨id, placing id⟩ := by
  induction ids generalizing c with
  | nil => exact (List.append_nil _).symm
  | cons id ids ih =>
    obtain ⟨hid, hnodup⟩ := List.nodup_cons.1 hids
    have hone : (c.discard placing now id).slots LIST_INBOX =
        c.slots LIST_INBOX ++ [some ⟨id, placing id⟩] := by
      obtain ⟨m, hm⟩ := Option.isSome_iff_exists.1 (hin id List.mem_cons_self)
      simp only [Content.discard, hm]
      rw [Content.slots_setOrder, if_pos rfl, List.map_append, List.map_singleton,
        Option.bind_some, OrderEntry.parse_encode (e := ⟨id, placing id⟩)
          (hplain id List.mem_cons_self)]
      rfl
    have hin' : ∀ y ∈ ids, ((c.discard placing now id).item y).isSome = true := by
      intro y hy
      have hne : y ≠ id := fun heq => hid (heq ▸ hy)
      rw [discard_item_eq, if_neg hne]
      exact hin y (List.mem_cons_of_mem _ hy)
    rw [List.foldl_cons, ih hnodup (fun y hy => hplain y (List.mem_cons_of_mem _ hy)) _ hin', hone,
      List.append_assoc, List.map_cons, List.singleton_append]

theorem itemMeta_discarded (m : ItemMap) (placement : String) :
    itemMeta (m.discarded placement now) =
      ⟨LIST_INBOX, placement, false, m.createdAt.getD 0⟩ := by
  have hloc : (m.discarded placement now).locatedIn = ⟨LIST_INBOX, placement⟩ := by
    have hparse : Location.parse (Location.encode ⟨LIST_INBOX, placement⟩) =
        some ⟨LIST_INBOX, placement⟩ := Location.parse_encode (show PlainId LIST_INBOX by decide)
    rw [ItemMap.locatedIn, ItemMap.discarded, Option.bind_some, hparse]
    rfl
  have hopen : (m.discarded placement now).isOpen = false := by
    rw [ItemMap.isOpen, ItemMap.discarded]
    cases m.binnedAt <;> rfl
  rw [itemMeta, hloc, hopen]
  rfl

/-- The items are binned into the inbox, in this order, and the rest is as it was. -/
structure Content.Discarded (c c' : Content) (ids : List String) (placing : String → String) :
    Prop where
  moved : ∀ id ∈ ids, ∃ t, c'.metaOf id = some ⟨LIST_INBOX, placing id, false, t⟩ ∧
    (c.metaOf id).map ItemMeta.createdAt = some t
  stay : ∀ id ∉ ids, c'.metaOf id = c.metaOf id
  inbox : c'.slots LIST_INBOX = c.slots LIST_INBOX ++ ids.map fun id => some ⟨id, placing id⟩
  others : ∀ l', l' ≠ LIST_INBOX → c'.slots l' = c.slots l'

namespace Content.Discarded

variable {c' : Content} {l' id : String}

theorem located (h : c.Discarded c' ids placing) :
    c'.Located l' id ↔ if id ∈ ids then l' = LIST_INBOX else c.Located l' id := by
  have hiff : ∀ c : Content, c.Located l' id ↔ ∃ s, c.metaOf id = some s ∧ s.listId = l' := by
    intro c
    rw [Content.Located, Content.metaOf]
    cases c.item id <;> simp
  rw [hiff]
  split
  · rename_i hid
    obtain ⟨t, ht, -⟩ := h.moved id hid
    rw [ht]
    simp [eq_comm]
  · rename_i hid
    rw [h.stay id hid, hiff]

theorem ageKey (h : c.Discarded c' ids placing) : c'.ageKey = c.ageKey := by
  funext id
  rw [Content.ageKey, Content.ageKey]
  by_cases hid : id ∈ ids
  · obtain ⟨t, ht, hold⟩ := h.moved id hid
    rw [ht, hold]
    rfl
  · rw [h.stay id hid]

theorem openNow (h : c.Discarded c' ids placing) :
    c'.openNow id = if id ∈ ids then false else c.openNow id := by
  have hof : ∀ c : Content, c.openNow id = ((c.metaOf id).map ItemMeta.isOpen).getD false := by
    intro c
    rw [Content.openNow, Content.metaOf, Option.map_map]
    rfl
  rw [hof, hof]
  split
  · rename_i hid
    obtain ⟨t, ht, -⟩ := h.moved id hid
    rw [ht]
    rfl
  · rename_i hid
    rw [h.stay id hid]

/-- An entry of an item that was located elsewhere shows nothing, before or after. -/
theorem live (h : c.Discarded c' ids placing) (haway : ∀ id ∈ ids, ¬c.Located l' id)
    {e : OrderEntry} (he : e.itemId ∈ ids → l' = LIST_INBOX → e.placementId ≠ placing e.itemId) :
    c'.live l' e = c.live l' e := by
  by_cases hid : e.itemId ∈ ids
  · obtain ⟨t, ht, -⟩ := h.moved _ hid
    have hold : c.live l' e = false := by
      refine Bool.eq_false_iff.2 fun hlive => haway _ hid ?_
      rw [Content.live, Content.metaOf] at hlive
      cases hm : c.item e.itemId with
      | none => simp [hm] at hlive
      | some m =>
        simp only [hm, Option.map_some, decide_eq_true_eq] at hlive
        exact ⟨m, hm, hlive.1⟩
    rw [hold, Content.live, ht]
    exact decide_eq_false fun hboth => he hid hboth.1.symm hboth.2.symm
  · rw [Content.live, h.stay _ hid]
    rfl

/-- The inbox's entries show what they showed, and then the items. -/
theorem liveIds_inbox (h : c.Discarded c' ids placing) (hids : ids.Nodup)
    (haway : ∀ id ∈ ids, ¬c.Located LIST_INBOX id)
    (hfresh : ∀ id ∈ ids, ∀ e, some e ∈ c.slots LIST_INBOX → e.itemId = id →
      e.placementId ≠ placing id) :
    c'.liveIds LIST_INBOX = c.liveIds LIST_INBOX ++ ids := by
  have hnew : ∀ e ∈ ids.map fun id => (⟨id, placing id⟩ : OrderEntry),
      c'.live LIST_INBOX e = true := by
    intro e he
    obtain ⟨id, hid, rfl⟩ := List.mem_map.1 he
    obtain ⟨t, ht, -⟩ := h.moved id hid
    simp [Content.live, ht]
  have hold : ((c.slots LIST_INBOX).filterMap id).filter (c'.live LIST_INBOX) =
      c.liveEntries LIST_INBOX := by
    refine List.filter_congr fun e he => h.live haway fun hid _ => ?_
    obtain ⟨s, hs, rfl⟩ := List.mem_filterMap.1 he
    exact hfresh _ hid e hs rfl
  have hentries : c'.liveEntries LIST_INBOX =
      c.liveEntries LIST_INBOX ++ ids.map fun id => ⟨id, placing id⟩ := by
    have hmap : (ids.map fun id => some (⟨id, placing id⟩ : OrderEntry)).filterMap id =
        ids.map fun id => ⟨id, placing id⟩ := by
      rw [List.filterMap_map]
      exact congrFun (List.filterMap_eq_map (f := fun id => (⟨id, placing id⟩ : OrderEntry))) ids
    rw [Content.liveEntries, h.inbox, List.filterMap_append, List.filter_append, hold, hmap,
      List.filter_eq_self.2 hnew]
  have hback : (ids.map fun id => (⟨id, placing id⟩ : OrderEntry)).map OrderEntry.itemId = ids := by
    simp [Function.comp_def]
  rw [Content.liveIds, hentries, List.map_append, hback, firsts_append, firsts_of_nodup hids]
  refine congrArg _ (List.filter_eq_self.2 fun id hid => decide_eq_true fun hmem => ?_)
  obtain ⟨e, he, rfl⟩ := List.mem_map.1 hmem
  obtain ⟨-, hlive⟩ := List.mem_filter.1 he
  refine haway _ hid ?_
  rw [Content.live, Content.metaOf] at hlive
  cases hm : c.item e.itemId with
  | none => simp [hm] at hlive
  | some m =>
    simp only [hm, Option.map_some, decide_eq_true_eq] at hlive
    exact ⟨m, hm, hlive.1⟩

end Content.Discarded

/-- `delete_list`, once it is let through. -/
theorem deleteList_eq (hdel : d.deleteList l placing now = some d') :
    l ≠ LIST_INBOX ∧ ∃ row, d.content.findList l = some row ∧
      (∀ y, d'.content.item y =
        ((d.index.resolved l).foldl (Content.discard placing now) d.content).item y) ∧
      d'.content.orders =
        ((d.index.resolved l).foldl (Content.discard placing now) d.content).orders ∧
      d'.content.lists = d.content.lists.eraseIdx row ∧
      d'.index = d'.content.computeIndex := by
  unfold Document.deleteList at hdel
  split at hdel
  · cases hdel
  rename_i hreserved
  split at hdel
  · cases hdel
  rename_i row hrow
  cases hdel
  refine ⟨fun hl => hreserved ?_, row, hrow, fun _ => rfl, rfl, ?_, rfl⟩
  · rw [hl]
    rfl
  · show List.eraseIdx _ row = _
    rw [lists_discardAll]

/-- Deleting a list discards what it shows. -/
theorem discarded_deleteList (h : Agrees d.content d.index) (hminted : d.MintedFor l placing)
    (hdel : d.deleteList l placing now = some d') :
    d.content.Discarded d'.content (d.index.resolved l) placing := by
  obtain ⟨-, row, -, hitem, horders, -, -⟩ := deleteList_eq hdel
  have hids : (d.index.resolved l).Nodup := resolved_nodup _ _
  have hin : ∀ id ∈ d.index.resolved l, ∃ m, d.content.item id = some m := by
    intro id hid
    obtain ⟨m, hm, -⟩ := h.toTracks.mirrors.mem_resolved.1 hid
    exact ⟨m, hm⟩
  refine ⟨fun id hid => ?_, fun id hid => ?_, ?_, fun l' hl' => ?_⟩
  · obtain ⟨m, hm⟩ := hin id hid
    refine ⟨m.createdAt.getD 0, ?_, ?_⟩
    · rw [Content.metaOf, hitem, item_discardAll hids, if_pos hid, hm, Option.map_some,
        Option.map_some, itemMeta_discarded]
    · rw [Content.metaOf, hm]
      rfl
  · rw [Content.metaOf, hitem, item_discardAll hids, if_neg hid]
    rfl
  · rw [Content.slots, horders]
    refine slots_discardAll hids (fun id hid => (hminted id hid).1) _ fun id hid => ?_
    obtain ⟨m, hm⟩ := hin id hid
    rw [hm]
    rfl
  · rw [Content.slots, horders, orders_discardAll _ l' hl']
    rfl

/-- **Deleting a list** bins its items into the inbox and leaves every other list as it was. -/
theorem relocates (h : Agrees d.content d.index) (hminted : d.MintedFor l placing)
    (hdel : d.deleteList l placing now = some d') : Relocates d d' l placing now := by
  obtain ⟨hne, row, hrow, hitem, horders, hlists, hindex⟩ := deleteList_eq hdel
  have hdisc := discarded_deleteList h hminted hdel
  have hids : (d.index.resolved l).Nodup := resolved_nodup _ _
  have hmir := h.toTracks.mirrors
  have hagrees : Agrees d'.content d'.index := hindex ▸ agrees_computeIndex d'.content
  have hmir' := hagrees.toTracks.mirrors
  have hmem : ∀ id, id ∈ d.index.resolved l ↔ d.content.Located l id := fun id => hmir.mem_resolved
  have haway : ∀ l', l' ≠ l → ∀ id ∈ d.index.resolved l, ¬d.content.Located l' id := by
    rintro l' hl' id hid ⟨m', hm', hlist'⟩
    obtain ⟨m, hm, hlist⟩ := (hmem id).1 hid
    obtain rfl := Option.some.inj (hm.symm.trans hm')
    exact hl' (hlist'.symm.trans hlist)
  have hresolved : ∀ l', l' ≠ l → l' ≠ LIST_INBOX →
      d'.index.resolved l' = d.index.resolved l' := by
    intro l' hl' hbox
    have hall := hmir.resolved_filter hmir' (l := l') (fun _ => true)
      (fun id _ => ?_) (fun id _ => congrFun hdisc.ageKey id) ?_
    · simpa using hall
    · rw [hdisc.located]
      split
      · rename_i hid
        exact ⟨fun heq => absurd heq hbox, fun hloc => absurd hloc (haway l' hl' id hid)⟩
      · exact Iff.rfl
    · rw [Content.liveIds, Content.liveEntries, hdisc.others l' hbox]
      refine congrArg (fun es : List OrderEntry => (firsts (es.map OrderEntry.itemId)).filter _) ?_
      exact List.filter_congr fun e _ => hdisc.live (haway l' hl') fun _ heq => absurd heq hbox
  obtain ⟨rest, hres, hasc, hrest⟩ := hmir.order LIST_INBOX
  obtain ⟨rest', hres', hasc', hrest'⟩ := hmir'.order LIST_INBOX
  have hlive := hdisc.liveIds_inbox hids (haway _ (Ne.symm hne)) fun id hid => (hminted id hid).2
  rw [hlive] at hres' hrest'
  have hsame : rest' = rest := by
    rw [hdisc.ageKey] at hasc'
    refine eq_of_ascending hasc' hasc fun id => ?_
    rw [hrest, hrest', hdisc.located, List.mem_append, not_or]
    split
    · rename_i hid
      exact ⟨fun hboth => absurd hid hboth.2.2,
        fun hboth => absurd hboth.1 (haway _ (Ne.symm hne) id hid)⟩
    · rename_i hid
      tauto
  have hinbox : d'.index.resolved LIST_INBOX =
      d.content.liveIds LIST_INBOX ++ d.index.resolved l ++ rest := by rw [hres', hsame]
  refine ⟨fun id => ?_, fun id m hm => ?_, ?_, ⟨rest, hres, hinbox⟩, hresolved, fun l' hl' => ?_,
    ⟨row, hrow, hlists⟩, fun l' hl' => ?_, hagrees⟩
  · rw [hitem, item_discardAll hids]
  · rw [hmem, Content.Located, hm]
    simp
  · refine List.eq_nil_iff_forall_not_mem.2 fun id hid => ?_
    rw [hmir'.mem_resolved, hdisc.located] at hid
    split at hid
    · exact hne hid
    · rename_i hnot
      exact hnot ((hmem id).2 hid)
  · have hkeep : ∀ ids : List String, (∀ id ∈ ids, id ∉ d.index.resolved l) →
        ids.filter d'.content.openNow = ids.filter d.content.openNow := by
      intro ids hout
      refine List.filter_congr fun id hid => ?_
      rw [hdisc.openNow, if_neg (hout id hid)]
    have hout : ∀ id ∈ d.index.resolved l', id ∉ d.index.resolved l :=
      fun id hid hin => haway l' hl' id hin (hmir.mem_resolved.1 hid)
    rw [hagrees.openItemIds_eq, h.openItemIds_eq]
    by_cases hbox : l' = LIST_INBOX
    · subst hbox
      rw [hres] at hout ⊢
      have hclosed : (d.index.resolved l).filter d'.content.openNow = [] := by
        refine List.filter_eq_nil_iff.2 fun id hid => ?_
        rw [hdisc.openNow, if_pos hid]
        simp
      rw [hinbox, List.filter_append, List.filter_append, List.filter_append, hclosed,
        List.append_nil, ← List.filter_append, ← List.filter_append, hkeep _ hout]
    · rw [hresolved l' hl' hbox, hkeep _ hout]
  · rw [horders, orders_discardAll _ l' hl']

end Relocation

/-! ## Hard deletion -/

section Deletion

variable {d d' : Document} {ids : List String}

/-- **A hard deletion of binned items** takes them out of the map, the containers that show them and
every projection, and leaves every other item where it stood. -/
theorem purges_hardDelete (h : Agrees d.content d.index) (hnodup : ids.Nodup)
    (hbinned : ∀ id ∈ ids, d.content.openNow id = false) :
    Purges d (d.hardDeleteItems ids) ids := by
  have hagrees := agrees_hardDeleteItems h hnodup
  have hmir := h.toTracks.mirrors
  have hmir' := hagrees.toTracks.mirrors
  have hitem := item_hardDeleteItems d ids
  have hopen : ∀ id, (d.hardDeleteItems ids).content.openNow id = d.content.openNow id := by
    intro id
    rw [Content.openNow, hitem]
    split
    · rename_i hid
      rw [hbinned id hid]
      rfl
    · rfl
  have hplaces := (hardDeleteItems_keeps (p := fun id => decide (id ∉ ids)) h.lags ids).2
    fun id hid => decide_eq_false (not_not.2 hid)
  have hresolved : ∀ l, (d.hardDeleteItems ids).index.resolved l =
      (d.index.resolved l).filter fun id => id ∉ ids := by
    intro l
    have hkept := hmir.resolved_filter hmir' (l := l) (fun id => decide (id ∉ ids))
      (fun id hid => hplaces.located hid l) (fun id hid => hplaces.ageKey hid)
      (liveIds_filterOf hplaces.place (hplaces.entries l))
    rw [← hkept]
    refine (List.filter_eq_self.2 fun id hid => ?_).symm
    have hout : id ∉ ids := by
      intro hin
      obtain ⟨m, hm, -⟩ := hmir'.mem_resolved.1 hid
      rw [hitem, if_pos hin] at hm
      cases hm
    simpa using hout
  refine ⟨hitem, fun l => ?_, hresolved, fun l => ?_, fun raw => ?_, rfl, hagrees⟩
  · rw [slots_hardDeleteItems]
    rcases h.raw l with hsome | ⟨hnone, hnil⟩
    · have hraw : d.index.rawOf l = d.content.slots l := by rw [rawOf, hsome]; rfl
      rw [hraw, removeAt_positionsOf]
    · have hraw : d.index.rawOf l = [] := by rw [rawOf, hnone]; rfl
      rw [hraw]
      refine (List.filter_eq_self.2 fun s hs => ?_).symm
      -- A list that shows one of the items is read, so its container is empty.
      cases s with
      | none => rfl
      | some e =>
        rw [Option.any_some, Bool.not_eq_true', decide_eq_false_iff_not, mem_locatedAmong]
        rintro ⟨-, m, hm, hl⟩
        have hloc : d.content.Located l e.itemId := by
          rw [h.metas, Content.metaOf] at hm
          obtain ⟨m', hm', rfl⟩ := Option.map_eq_some_iff.1 hm
          exact ⟨m', hm', hl⟩
        rw [hnil (.inr (.inr ⟨_, hloc⟩))] at hs
        exact List.not_mem_nil hs
  · rw [hagrees.openItemIds_eq, h.openItemIds_eq, hresolved, List.filter_filter]
    refine List.filter_congr fun id _ => ?_
    rw [hopen]
    by_cases hid : id ∈ ids
    · rw [hbinned id hid, Bool.false_and]
    · simp [hid]
  · refine focusEntries_congr ?_ raw
    rw [hmir'.isOpenItem_eq, hmir.isOpenItem_eq]
    exact funext hopen

theorem Purges.nothing (h : Agrees d.content d.index) : Purges d d [] :=
  ⟨fun _ => rfl, fun _ => (List.filter_eq_self.2 fun s _ => by cases s <;> rfl).symm,
    fun _ => (List.filter_eq_self.2 fun _ _ => rfl).symm, fun _ => rfl, fun _ => rfl, rfl, h⟩

theorem purges_deleteBinned (h : Agrees d.content d.index)
    (hdel : d.deleteBinnedItems ids = some d') : Purges d d' ids := by
  unfold Document.deleteBinnedItems at hdel
  split at hdel
  · rename_i hnil
    cases hdel
    exact hnil ▸ .nothing h
  split at hdel
  · cases hdel
  rename_i hnodup
  split at hdel
  · cases hdel
  split at hdel
  · cases hdel
  rename_i hbinned
  cases hdel
  refine purges_hardDelete h (not_not.1 hnodup) fun id hid => ?_
  have hall : ∀ id ∈ ids, (d.content.item id).any (fun m => m.binnedAt.isSome) = true := by
    simpa using hbinned
  obtain ⟨m, hm, hsome⟩ := (Option.any_eq_true _ _).1 (hall id hid)
  exact FocusedDocument.openNow_of_binned hm hsome

theorem purges_emptyBin (h : Agrees d.content d.index) (hid : d.content.Identified) :
    Purges d d.emptyBin d.binnedIds := by
  unfold Document.emptyBin
  dsimp only
  split
  · rename_i hnil
    rw [show d.binnedIds = [] from hnil]
    exact .nothing h
  · refine purges_hardDelete h ?_ fun id hmem => ?_
    · exact ((List.filter_sublist).map ItemView.id).nodup (map_id_iterItems h hid)
    · obtain ⟨v, hv, rfl⟩ := List.mem_map.1 hmem
      obtain ⟨hv, hbinned⟩ := List.mem_filter.1 hv
      obtain ⟨key, -, hview⟩ := List.mem_filterMap.1 hv
      obtain ⟨m, hm, hview⟩ := Option.bind_eq_some_iff.1 hview
      unfold itemView at hview
      rw [hid key m hm, Option.bind_some] at hview
      obtain ⟨text, -, hview⟩ := Option.bind_eq_some_iff.1 hview
      obtain ⟨created, -, rfl⟩ := Option.map_eq_some_iff.1 hview
      exact FocusedDocument.openNow_of_binned hm hbinned

/-- **Deletions conserve the rest**: a list's items go to the inbox in the bin, a hard deletion
takes what it names, and what is shown of everything else stays. -/
theorem deletion_conserves (h : Agrees d.content d.index) :
    (∀ l placing now d', d.MintedFor l placing → d.deleteList l placing now = some d' →
      Relocates d d' l placing now) ∧
    (∀ ids d', d.deleteBinnedItems ids = some d' → Purges d d' ids) ∧
    (d.content.Identified → Purges d d.emptyBin d.binnedIds) :=
  ⟨fun _ _ _ _ => relocates h, fun _ _ => purges_deleteBinned h, purges_emptyBin h⟩

end Deletion

/-- Two items of a list, one of them binned, which the container of another list still names. -/
def movedContent : Content where
  items := (FMap.empty.insert "a" (some { id := some "a", location := some "x:p1" })).insert "b"
    (some { id := some "b", location := some "x:p2", binnedAt := some 5 })
  orders l := if l = "x" then [some "b:p2", some "a:p1"] else if l = "y" then [some "b:p0"] else []
  lists := [some { id := some "x", name := some "X", createdAt := some 1 }]

def movedDocument : Document := ⟨movedContent, movedContent.computeIndex⟩

theorem movedContent_item {id : String} {m : ItemMap} (h : movedContent.item id = some m) :
    id = "a" ∨ id = "b" := by
  by_cases hb : id = "b"
  · exact .inr hb
  · by_cases ha : id = "a"
    · exact .inl ha
    · simp [Content.item, movedContent, FMap.get_insert, hb, ha] at h

theorem movedDocument_mintedFor (placing : String → String) :
    movedDocument.MintedFor "x" placing := by
  intro id hid
  obtain ⟨m, hm, -⟩ := (mirrors_computeIndex movedContent).mem_resolved.1 hid
  constructor
  · rcases movedContent_item hm with rfl | rfl <;> decide
  · intro e he
    have hnil : movedDocument.content.slots LIST_INBOX = [] := by decide
    rw [hnil] at he
    exact absurd he List.not_mem_nil

theorem movedContent_identified : movedContent.Identified := by
  intro id m hm
  rcases movedContent_item hm with rfl | rfl
  · simp [Content.item, movedContent, FMap.get_insert] at hm
    rw [← hm]
  · simp [Content.item, movedContent] at hm
    rw [← hm]

theorem deletion_conserves_moved :
    (∃ d', movedDocument.deleteList "x" (fun id => id ++ "!") 9 = some d' ∧
      Relocates movedDocument d' "x" (fun id => id ++ "!") 9) ∧
    (∃ d', movedDocument.deleteBinnedItems ["b"] = some d' ∧ Purges movedDocument d' ["b"]) ∧
    Purges movedDocument movedDocument.emptyBin movedDocument.binnedIds := by
  have h := deletion_conserves (d := movedDocument) (agrees_computeIndex movedContent)
  refine ⟨⟨_, rfl, h.1 "x" _ 9 _ (movedDocument_mintedFor _) rfl⟩, ?_,
    h.2.2 movedContent_identified⟩
  obtain ⟨d', hd'⟩ := Option.isSome_iff_exists.1
      (show (movedDocument.deleteBinnedItems ["b"]).isSome = true by decide +kernel)
  exact ⟨d', hd', h.2.1 _ _ hd'⟩

/-- The deleted list's container keeps its entries, the inbox is shown with more items than before,
and the entry another container has of a purged item stays there. -/
theorem deletions_leave_entries :
    (∃ d', movedDocument.deleteList "x" (fun id => id ++ "!") 9 = some d' ∧
      d'.content.orders "x" = [some "b:p2", some "a:p1"] ∧
      d'.index.resolved LIST_INBOX ≠ movedDocument.index.resolved LIST_INBOX) ∧
    ∃ d', movedDocument.deleteBinnedItems ["b"] = some d' ∧
      d'.content.orders "y" = [some "b:p0"] := by
  constructor
  · refine ⟨_, rfl, ?_⟩
    have hmoved : Relocates movedDocument _ "x" (fun id => id ++ "!") 9 :=
      relocates (agrees_computeIndex movedContent) (movedDocument_mintedFor _) rfl
    constructor
    · exact hmoved.containers "x" (by decide)
    · intro hsame
      obtain ⟨rest, hold, hnew⟩ := hmoved.inbox
      rw [hnew, hold, List.append_assoc, List.append_cancel_left_eq] at hsame
      have hlen := congrArg List.length hsame
      rw [List.length_append] at hlen
      have hin : "a" ∈ movedDocument.index.resolved "x" :=
        (mirrors_computeIndex movedContent).mem_resolved.2 ⟨_, rfl, by decide⟩
      have hpos := List.length_pos_of_mem hin
      omega
  · have hkept : ((movedDocument.deleteBinnedItems ["b"]).map fun d => d.content.orders "y") =
        some [some "b:p0"] := by
      decide +kernel
    exact Option.map_eq_some_iff.1 hkept

end Monoplan.Doc
