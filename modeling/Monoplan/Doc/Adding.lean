import Monoplan.Doc.Splice

/-!
# Adding keeps the agreement

One new item joins its list through a fresh entry (`addOne_spec`); a batch is a run of them
(`addRun_spec`), spliced where the plan says or refreshed (`agrees_addItemsAt`).
-/

namespace Monoplan.Doc

open Monoplan.Base

/-! ## Writing containers -/

namespace Content

variable {c : Content} {l l' id j : String} {m : ItemMap}

@[simp] theorem item_setItem (c : Content) (id j : String) (m : ItemMap) :
    (c.setItem id m).item j = if j = id then some m else c.item j := by
  unfold item setItem
  rw [FMap.get_insert]
  split <;> rfl

@[simp] theorem item_setOrder (c : Content) (l j : String) (vs : List (Option String)) :
    (c.setOrder l vs).item j = c.item j := rfl

@[simp] theorem orders_setItem (c : Content) (id : String) (m : ItemMap) :
    (c.setItem id m).orders = c.orders := rfl

theorem orders_setOrder (c : Content) (l l' : String) (vs : List (Option String)) :
    (c.setOrder l vs).orders l' = if l' = l then vs else c.orders l' := by
  unfold setOrder
  exact Function.update_apply _ _ _ _

@[simp] theorem slots_setItem (c : Content) (id l : String) (m : ItemMap) :
    (c.setItem id m).slots l = c.slots l := rfl

theorem slots_setOrder (c : Content) (l l' : String) (vs : List (Option String)) :
    (c.setOrder l vs).slots l' =
      if l' = l then vs.map fun v => v.bind OrderEntry.parse else c.slots l' := by
  unfold slots
  rw [orders_setOrder]
  split <;> rfl

/-- Lists that nothing is moved to stay what they were for a recomputation. -/
theorem Candidate.of_items {c' : Content} (h : c'.Candidate l) (hlists : c'.lists = c.lists)
    (hitems : ∀ id, c'.Located l id → c.Located l id) : c.Candidate l := by
  rcases h with hinbox | hrow | ⟨id, hid⟩
  · exact .inl hinbox
  · refine .inr (.inl ?_)
    unfold allListIds allLists at hrow ⊢
    rwa [hlists] at hrow
  · exact .inr (.inr ⟨id, hitems id hid⟩)

/-- An entry with the item's id stands somewhere. -/
def Names (c : Content) (l id : String) : Prop := ∃ e, some e ∈ c.slots l ∧ e.itemId = id

end Content

/-- The slice of a map whose location is well written. -/
theorem itemMeta_of_location {m : ItemMap} {l placement : String} (hl : PlainId l)
    (h : m.location = some (Location.encode ⟨l, placement⟩)) :
    itemMeta m = ⟨l, placement, m.isOpen, m.createdAt.getD 0⟩ := by
  rw [itemMeta, ItemMap.locatedIn, h, Option.bind_some, Location.parse_encode hl]
  rfl

namespace NewItem

theorem itemMeta_toMap (n : NewItem) {l : String} (hl : PlainId l) {state : WorkflowState}
    (hs : state.isOpen = true) (author : Option String) :
    itemMeta (n.toMap l state author) = n.toMeta l := by
  rw [itemMeta_of_location hl rfl]
  have hopen : (n.toMap l state author).isOpen = true := by
    rw [ItemMap.isOpen, Bool.and_eq_true]
    refine ⟨rfl, ?_⟩
    unfold ItemMap.workflowOf ItemMap.readWorkflow toMap
    by_cases hb : state = .backlog
    · subst hb
      rfl
    · simp [hb, WorkflowState.fromCode_code, hs]
  rw [hopen]
  rfl

end NewItem

/-! ## Frames -/

namespace ProjectionIndex

variable {idx idx' : ProjectionIndex} {l id : String}

/-- **Frame.**  A list that nothing concerns stays right. -/
theorem OpenAt.frame (h : idx.OpenAt l) (hi : idx.Membership) (hi' : idx'.Membership)
    (hraw : idx'.rawOf l = idx.rawOf l) (hsame : ∀ y, SameFor idx idx' l y)
    (hlist : idx'.openByList.get l = idx.openByList.get l)
    (hcount : idx'.openVisibleCounts.get l = idx.openVisibleCounts.get l) : idx'.OpenAt l :=
  h.congr hlist hcount (openOf_congr hi hi' hraw hsame)

/-- An item is the same for every list it is in neither before nor after. -/
theorem sameFor_of_elsewhere {y : String}
    (h : ∀ m, idx.metas.get y = some m → m.listId ≠ l)
    (h' : ∀ m, idx'.metas.get y = some m → m.listId ≠ l) : SameFor idx idx' l y :=
  fun m hm => ⟨fun hg => absurd hm (h' m hg), fun hg => absurd hm (h m hg)⟩

@[simp] theorem openByList_setMeta (idx : ProjectionIndex) (id : String) (m : ItemMeta) :
    (idx.setMeta id m).openByList = idx.openByList := by
  have hleave : (idx.leaveSets id m).openByList = idx.openByList := by
    unfold leaveSets
    split
    · rfl
    · dsimp only
      split_ifs <;> rfl
  simp only [setMeta]
  split <;> exact hleave

@[simp] theorem openVisibleCounts_setMeta (idx : ProjectionIndex) (id : String) (m : ItemMeta) :
    (idx.setMeta id m).openVisibleCounts = idx.openVisibleCounts := by
  have hleave : (idx.leaveSets id m).openVisibleCounts = idx.openVisibleCounts := by
    unfold leaveSets
    split
    · rfl
    · dsimp only
      split_ifs <;> rfl
  simp only [setMeta]
  split <;> exact hleave

@[simp] theorem rawOrders_setMeta (idx : ProjectionIndex) (id : String) (m : ItemMeta) :
    (idx.setMeta id m).rawOrders = idx.rawOrders := by
  have hleave : (idx.leaveSets id m).rawOrders = idx.rawOrders := by
    unfold leaveSets
    split
    · rfl
    · dsimp only
      split_ifs <;> rfl
  simp only [setMeta]
  split <;> exact hleave

@[simp] theorem rawOf_setMeta (idx : ProjectionIndex) (id l : String) (m : ItemMeta) :
    (idx.setMeta id m).rawOf l = idx.rawOf l := by
  rw [rawOf, rawOrders_setMeta]
  rfl

theorem get_setRaw (idx : ProjectionIndex) (l l' : String) (raw : List (Option OrderEntry)) :
    (idx.setRaw l raw).rawOrders.get l' = if l' = l then some raw else idx.rawOrders.get l' := by
  rw [setRaw, FMap.get_insert]

theorem rawOf_setRaw (idx : ProjectionIndex) (l l' : String) (raw : List (Option OrderEntry)) :
    (idx.setRaw l raw).rawOf l' = if l' = l then raw else idx.rawOf l' := by
  rw [rawOf, get_setRaw]
  split <;> rfl

theorem Membership.setRaw (h : idx.Membership) (l : String) (raw : List (Option OrderEntry)) :
    (idx.setRaw l raw).Membership :=
  ⟨h.members, h.openMembers, h.membersKey, h.openMembersKey⟩

theorem SameBase.rawOf (h : SameBase idx idx') (l : String) : idx'.rawOf l = idx.rawOf l := by
  rw [ProjectionIndex.rawOf, h.rawOrders]
  rfl

end ProjectionIndex

open ProjectionIndex

/-! ## One new item -/

/-- The id is new to the document. -/
structure Minted (c : Content) (n : NewItem) : Prop where
  plain : PlainId n.id
  absent : c.item n.id = none
  unnamed : ∀ l, ¬ c.Names l n.id

/-- What a mutation keeps while one list's splice is still outstanding. -/
structure Outstanding (c : Content) (idx : ProjectionIndex) (l : String) : Prop
    extends Tracks c idx where
  raws : idx.rawOf l = c.slots l
  others : ∀ l', l' ≠ l → idx.OpenAt l'
  count : idx.openVisibleCounts.get l = unlessZero (idx.openVisible l).length

variable {c : Content} {idx : ProjectionIndex} {l : String}

theorem ProjectionIndex.addOne_eq (idx : ProjectionIndex) (l : String) (pos : ℕ) (n : NewItem) :
    idx.addOne l pos n = ((idx.setMeta n.id (n.toMeta l)).setRaw l
      (placeAt (idx.rawOf l) pos (some n.entry))).bumpVisible l 1 := by
  rw [addOne, rawOf_setMeta]

theorem slots_addOne {n : NewItem} (hplain : PlainId n.id) (state : WorkflowState)
    (author : Option String) (pos : ℕ) (l' : String) :
    (c.addOne l state author pos n).slots l' =
      if l' = l then placeAt (c.slots l) pos (some n.entry) else c.slots l' := by
  unfold Content.addOne
  rw [Content.slots_setOrder, map_placeAt, Option.bind_some,
    OrderEntry.parse_encode (e := n.entry) hplain]
  rfl

theorem addOne_spec (h : Outstanding c idx l) (hl : PlainId l) {n : NewItem} (hn : Minted c n)
    {state : WorkflowState} (hs : state.isOpen = true) (author : Option String) (pos : ℕ) :
    Outstanding (c.addOne l state author pos n) (idx.addOne l pos n) l ∧
      Joins idx (idx.addOne l pos n) l n.entry pos := by
  have hbase := sameBase_bumpVisible
    ((idx.setMeta n.id (n.toMeta l)).setRaw l (placeAt (idx.rawOf l) pos (some n.entry))) l 1
  have hget : ∀ y, (idx.addOne l pos n).metas.get y =
      if y = n.id then some (n.toMeta l) else idx.metas.get y := fun y => by
    rw [addOne_eq, hbase.metas, setRaw, setMeta_metas, FMap.get_insert]
  have hnone : idx.metas.get n.id = none := by
    rw [h.metas, Content.metaOf, hn.absent]
    rfl
  have hmember : (idx.addOne l pos n).Membership := by
    rw [addOne_eq]
    exact hbase.membership ((h.membership.setMeta n.id _).setRaw l _)
  have hrawget : ∀ l', (idx.addOne l pos n).rawOrders.get l' =
      if l' = l then some (placeAt (idx.rawOf l) pos (some n.entry))
      else idx.rawOrders.get l' := fun l' => by
    rw [addOne_eq, hbase.rawOrders, get_setRaw, rawOrders_setMeta]
  have hrawOf : ∀ l', (idx.addOne l pos n).rawOf l' =
      if l' = l then placeAt (idx.rawOf l) pos (some n.entry) else idx.rawOf l' := fun l' => by
    rw [rawOf, hrawget]
    split <;> rfl
  have hslots := slots_addOne (c := c) (l := l) hn.plain state author pos
  have hsame : ∀ l' y, y ≠ n.id → SameFor idx (idx.addOne l pos n) l' y := fun l' y hy =>
    .of_eq (by rw [hget, if_neg hy])
  have hjoins : Joins idx (idx.addOne l pos n) l n.entry pos := by
    refine ⟨by rw [hrawOf, if_pos rfl], ?_, ?_, ?_, hsame l⟩
    · have hm : (idx.addOne l pos n).metas.get n.entry.itemId = some (n.toMeta l) := by
        rw [hget]
        exact if_pos rfl
      have hmatch : (idx.addOne l pos n).matches_ l n.entry = true :=
        matches_iff.2 ⟨_, hm, rfl, rfl⟩
      have hopen : (idx.addOne l pos n).isOpenItem n.entry.itemId = true :=
        isOpenItem_iff.2 ⟨_, hm, rfl⟩
      simp [openSlot, hmatch, hopen]
    · intro hmem
      obtain ⟨m, hm, -⟩ := (h.membership.openMembers l _).1 hmem
      rw [show n.entry.itemId = n.id from rfl, hnone] at hm
      cases hm
    · intro e he hid
      rw [h.raws] at he
      exact absurd ⟨e, he, hid⟩ (hn.unnamed l)
  have htracks : Tracks (c.addOne l state author pos n) (idx.addOne l pos n) := by
    refine ⟨fun y => ?_, hmember, fun l' => ?_⟩
    · rw [hget, Content.metaOf, Content.addOne, Content.item_setOrder, Content.item_setItem]
      split
      · rw [Option.map_some, n.itemMeta_toMap hl hs]
      · exact h.metas y
    · unfold RawAt
      rw [hrawget, hslots]
      by_cases hll : l' = l
      · left
        rw [if_pos hll, if_pos hll, h.raws]
      · rw [if_neg hll, if_neg hll]
        refine (h.raw l').imp_right fun hmiss => ⟨hmiss.1, fun hcand => hmiss.2 ?_⟩
        refine hcand.of_items rfl fun y hy => ?_
        obtain ⟨m, hm, hlist⟩ := hy
        rw [Content.addOne, Content.item_setOrder, Content.item_setItem] at hm
        split at hm
        · rw [Option.some.injEq] at hm
          subst hm
          rw [n.itemMeta_toMap hl hs] at hlist
          exact absurd hlist.symm hll
        · exact ⟨m, hm, hlist⟩
  refine ⟨⟨htracks, by rw [hrawOf, if_pos rfl, hslots, if_pos rfl, h.raws], fun l' hl' => ?_, ?_⟩,
    hjoins⟩
  · refine (h.others l' hl').frame h.membership hmember (by rw [hrawOf, if_neg hl']) (fun y => ?_)
      ?_ ?_
    · by_cases hy : y = n.id
      · subst hy
        refine sameFor_of_elsewhere (fun m hm => ?_) fun m hm => ?_
        · rw [hnone] at hm
          cases hm
        · rw [hget, if_pos rfl, Option.some.injEq] at hm
          rw [← hm]
          exact fun heq => hl' heq.symm
      · exact hsame l' y hy
    · rw [addOne_eq, openByList_bumpVisible, setRaw, openByList_setMeta]
    · rw [addOne_eq, get_bumpVisible_ne hl', setRaw, openVisibleCounts_setMeta]
  · have hcount : ((idx.setMeta n.id (n.toMeta l)).setRaw l
        (placeAt (idx.rawOf l) pos (some n.entry))).openVisibleCounts.get l =
        unlessZero (idx.openVisible l).length := by
      rw [setRaw, openVisibleCounts_setMeta]
      exact h.count
    rw [addOne_eq, getD_openVisibleCounts_bumpVisible 1 hcount, ← addOne_eq, (openOf_joins h.membership hmember hjoins).1, length_placeAt]
    rfl

/-! ## A batch -/

/-- The base patches of a batch. -/
theorem addRun_spec (hl : PlainId l) {state : WorkflowState} (hs : state.isOpen = true)
    (author : Option String) (news : List NewItem) (hnodup : (news.map NewItem.id).Nodup)
    {c : Content} {idx : ProjectionIndex} (h : Outstanding c idx l)
    (hnews : ∀ n ∈ news, Minted c n) {pos : ℕ} (hpos : pos ≤ (idx.rawOf l).length) :
    Outstanding (c.addRun l state author pos news) (idx.addRun l pos news) l ∧
      (idx.addRun l pos news).openByList = idx.openByList ∧
      (idx.addRun l pos news).openOf l =
        placeRun (idx.openOf l) (idx.shownBefore l pos) (news.map NewItem.id) := by
  induction news generalizing c idx pos with
  | nil => exact ⟨h, rfl, rfl⟩
  | cons n news ih =>
    obtain ⟨hone, hjoins⟩ := addOne_spec h hl (hnews n List.mem_cons_self) hs author pos
    rw [List.map_cons, List.nodup_cons] at hnodup
    have hpos' : pos + 1 ≤ ((idx.addOne l pos n).rawOf l).length := by
      rw [hjoins.raw, length_placeAt]
      omega
    have hminted : ∀ n' ∈ news, Minted (c.addOne l state author pos n) n' := by
      intro n' hn'
      have hold := hnews n' (List.mem_cons_of_mem n hn')
      have hne : n'.id ≠ n.id := fun heq => hnodup.1 (heq ▸ List.mem_map_of_mem hn')
      refine ⟨hold.plain, ?_, ?_⟩
      · unfold Content.addOne
        rw [Content.item_setOrder, Content.item_setItem, if_neg hne]
        exact hold.absent
      · rintro l' ⟨e, he, hid⟩
        rw [slots_addOne (hnews n List.mem_cons_self).plain] at he
        split at he
        · rw [mem_placeAt] at he
          rcases he with heq | he
          · rw [Option.some.injEq] at heq
            exact hne (by rw [← hid, heq]; rfl)
          · exact hold.unnamed l ⟨e, he, hid⟩
        · exact hold.unnamed l' ⟨e, he, hid⟩
    obtain ⟨hrun, hlist, hof⟩ := ih hnodup.2 hone hminted hpos'
    refine ⟨hrun, hlist.trans ?_, hof.trans ?_⟩
    · rw [addOne_eq, openByList_bumpVisible, setRaw, openByList_setMeta]
    · rw [(openOf_joins h.membership hone.membership hjoins).2,
        shownBefore_joins h.membership hjoins hpos, List.map_cons, placeRun]
      rfl

/-- The splices of a batch. -/
theorem spliceRun_spec (ids : List String) {pos : OpenPos} (hpos : pos ≠ .refresh)
    {idx : ProjectionIndex} {arr : List String} {k : ℕ}
    (harr : idx.openByList.get l = unlessNil arr) (hnodup : ids.Nodup)
    (hnew : ∀ id ∈ ids, id ∉ arr) (hfits : Fits pos k arr.length) :
    SameBase idx (idx.spliceRun l pos ids) ∧
      (idx.spliceRun l pos ids).openVisibleCounts = idx.openVisibleCounts ∧
      ∀ l', (idx.spliceRun l pos ids).openByList.get l' =
        if l' = l then unlessNil (placeRun arr k ids) else idx.openByList.get l' := by
  induction ids generalizing pos idx arr k with
  | nil =>
    refine ⟨.refl idx, rfl, fun l' => ?_⟩
    by_cases hl : l' = l
    · rw [if_pos hl, hl]
      exact harr
    · rw [if_neg hl]
      rfl
  | cons id ids ih =>
    rw [List.nodup_cons] at hnodup
    have hitems : idx.openItemIds l = arr := by rw [openItemIds, harr, getD_unlessNil]
    have hself : arr.filter (fun x => x ≠ id) = arr :=
      List.filter_eq_self.2 fun x hx => by
        have : x ≠ id := fun heq => hnew id List.mem_cons_self (heq ▸ hx)
        simpa using this
    have hindex : pos.index arr.length = k := by
      cases pos with
      | refresh => exact absurd rfl hpos
      | «at» p => exact hfits
      | append => exact hfits.symm
    have hone : ∀ l', (idx.spliceOpenIn l id pos).openByList.get l' =
        if l' = l then unlessNil (placeAt arr k id) else idx.openByList.get l' := fun l' => by
      rw [get_spliceOpenIn, hitems, hself, hindex, unlessNil_placeAt]
    have hnext : pos.next ≠ .refresh := by
      cases pos with
      | refresh => exact absurd rfl hpos
      | «at» p => exact OpenPos.noConfusion
      | append => exact OpenPos.noConfusion
    have hfits' : Fits pos.next (k + 1) (placeAt arr k id).length := by
      rw [length_placeAt]
      cases pos with
      | refresh => trivial
      | «at» p => exact congrArg (· + 1) hfits
      | append => exact congrArg (· + 1) hfits
    obtain ⟨hbase, hcounts, hget⟩ := ih hnext ((hone l).trans (if_pos rfl)) hnodup.2
      (fun x hx hmem => by
        rcases mem_placeAt.1 hmem with heq | hmem
        · exact hnodup.1 (heq ▸ hx)
        · exact hnew x (List.mem_cons_of_mem id hx) hmem) hfits'
    refine ⟨(sameBase_spliceOpenIn idx l id pos).trans hbase, hcounts, fun l' => ?_⟩
    rw [spliceRun, hget, hone]
    by_cases hl : l' = l
    · simp [hl, placeRun]
    · simp [hl]

/-- The open list of the one outstanding list is spliced in. -/
theorem Outstanding.settle {idx' : ProjectionIndex} (h : Outstanding c idx l)
    (hbase : SameBase idx idx') (hcounts : idx'.openVisibleCounts = idx.openVisibleCounts)
    (hlist : ∀ l', idx'.openByList.get l' =
      if l' = l then unlessNil (idx.openOf l) else idx.openByList.get l') : Agrees c idx' := by
  refine ⟨h.toTracks.of_sameBase hbase, fun l' => ?_⟩
  rw [OpenAt, hbase.openOf, hbase.openVisible, hcounts, hlist]
  by_cases hl : l' = l
  · rw [if_pos hl, hl]
    exact ⟨rfl, h.count⟩
  · rw [if_neg hl]
    exact h.others l' hl

/-- **Adding** keeps the agreement. -/
theorem agrees_addItemsAt {d d' : Document} (h : Agrees d.content d.index) {news : List NewItem}
    {target : ℕ} {state : WorkflowState} {author : Option String} (hl : PlainId l)
    (hraw : d.index.rawOf l = d.content.slots l) (hnodup : (news.map NewItem.id).Nodup)
    (hnews : ∀ n ∈ news, Minted d.content n)
    (hadd : d.addItemsAt l news target state author = some d') : Agrees d'.content d'.index := by
  unfold Document.addItemsAt at hadd
  split at hadd
  · cases hadd
  rename_i hs
  split at hadd
  · cases hadd
  split at hadd
  · cases hadd
  split at hadd
  · cases hadd
    exact h
  rw [Bool.not_eq_true, Bool.not_eq_false'] at hs
  have hout : Outstanding d.content d.index l :=
    ⟨h.toTracks, hraw, fun l' _ => h.opens l', (h.opens l).2⟩
  have hfits := planTarget_fits h.membership (h.opens l) target
  obtain ⟨hrun, hlist, hof⟩ := addRun_spec hl hs author news hnodup hout hnews
    (planTarget_rawPos_le d.index l target true none)
  dsimp only at hadd
  cases hadd
  dsimp only
  split
  · exact hrun.toTracks.refresh hrun.others
  · rename_i hne
    have harr : ((d.index.addRun l (d.index.planTarget l target true none).rawPos news).openByList).get
        l = unlessNil (d.index.openOf l) := by
      rw [hlist]
      exact (h.opens l).1
    have hnew : ∀ id ∈ news.map NewItem.id, id ∉ d.index.openOf l := by
      intro id hid hmem
      obtain ⟨n, hn, rfl⟩ := List.mem_map.1 hid
      obtain ⟨m, hm, -⟩ := (h.membership.openMembers l _).1 ((mem_openOf h.membership).1 hmem)
      rw [h.metas, Content.metaOf, (hnews n hn).absent] at hm
      cases hm
    obtain ⟨hbase, hcounts, hget⟩ := spliceRun_spec (news.map NewItem.id) hne harr hnodup hnew hfits
    refine hrun.settle hbase hcounts fun l' => ?_
    rw [hget, hof]

end Monoplan.Doc
