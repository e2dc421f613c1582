import Monoplan.Doc.Adding

/-!
# Moving keeps the agreement

* `agrees_replaceEntry`: a fresh placement in the same list, followed by a refresh.
* `agrees_reorderInList`: an entry moved in place.  The splice is right as long as the item is
  not still shown through an earlier entry (`KeepsFirst`).
* `agrees_moveAcrossLists`: the item leaves one list and joins another.
-/

namespace Monoplan.Doc

open Monoplan.Base

namespace ProjectionIndex

variable {idx idx' : ProjectionIndex} {l id : String}

/-- Rewriting a slice that stays in its list and as open as it was keeps the sets right. -/
theorem Membership.insert_same (h : idx.Membership) {old : ItemMeta} (new : ItemMeta)
    (hget : idx.metas.get id = some old) (hlist : new.listId = old.listId)
    (hopen : new.isOpen = old.isOpen) :
    Membership { idx with metas := idx.metas.insert id new } := by
  refine ⟨fun l y => ?_, fun l y => ?_, h.membersKey, h.openMembersKey⟩
  · show y ∈ idx.membersOf l ↔ ∃ m, (idx.metas.insert id new).get y = some m ∧ _
    rw [h.members, FMap.get_insert]
    by_cases hy : y = id
    · subst hy
      simp [hget, hlist]
    · simp [hy]
  · show y ∈ idx.openMembersOf l ↔ ∃ m, (idx.metas.insert id new).get y = some m ∧ _
    rw [h.openMembers, FMap.get_insert]
    by_cases hy : y = id
    · subst hy
      simp [hget, hlist, hopen]
    · simp [hy]

theorem get_mapRaw (idx : ProjectionIndex) (l l' : String)
    (f : List (Option OrderEntry) → List (Option OrderEntry)) :
    (idx.mapRaw l f).rawOrders.get l' =
      if l' = l then (idx.rawOrders.get l).map f else idx.rawOrders.get l' := by
  unfold mapRaw
  cases hget : idx.rawOrders.get l with
  | none =>
    by_cases hl : l' = l
    · rw [if_pos hl, hl, hget]
      rfl
    · rw [if_neg hl]
  | some raw =>
    dsimp only
    rw [FMap.get_insert]
    rfl

theorem rawOf_mapRaw (idx : ProjectionIndex) (l l' : String)
    {f : List (Option OrderEntry) → List (Option OrderEntry)} (hf : f [] = []) :
    (idx.mapRaw l f).rawOf l' = if l' = l then f (idx.rawOf l) else idx.rawOf l' := by
  rw [rawOf, get_mapRaw]
  by_cases hl : l' = l
  · rw [if_pos hl, if_pos hl, rawOf]
    cases idx.rawOrders.get l with
    | none => exact hf.symm
    | some raw => rfl
  · rw [if_neg hl, if_neg hl]
    rfl

@[simp] theorem metas_mapRaw (idx : ProjectionIndex) (l : String)
    (f : List (Option OrderEntry) → List (Option OrderEntry)) :
    (idx.mapRaw l f).metas = idx.metas := by
  unfold mapRaw
  split <;> rfl

@[simp] theorem members_mapRaw (idx : ProjectionIndex) (l : String)
    (f : List (Option OrderEntry) → List (Option OrderEntry)) :
    (idx.mapRaw l f).members = idx.members := by
  unfold mapRaw
  split <;> rfl

@[simp] theorem openMembers_mapRaw (idx : ProjectionIndex) (l : String)
    (f : List (Option OrderEntry) → List (Option OrderEntry)) :
    (idx.mapRaw l f).openMembers = idx.openMembers := by
  unfold mapRaw
  split <;> rfl

@[simp] theorem openByList_mapRaw (idx : ProjectionIndex) (l : String)
    (f : List (Option OrderEntry) → List (Option OrderEntry)) :
    (idx.mapRaw l f).openByList = idx.openByList := by
  unfold mapRaw
  split <;> rfl

@[simp] theorem openVisibleCounts_mapRaw (idx : ProjectionIndex) (l : String)
    (f : List (Option OrderEntry) → List (Option OrderEntry)) :
    (idx.mapRaw l f).openVisibleCounts = idx.openVisibleCounts := by
  unfold mapRaw
  split <;> rfl

theorem Membership.mapRaw (h : idx.Membership) (l : String)
    (f : List (Option OrderEntry) → List (Option OrderEntry)) :
    (idx.mapRaw l f).Membership := by
  refine ⟨fun l' y => ?_, fun l' y => ?_, fun l' => ?_, fun l' => ?_⟩
  · rw [membersOf, members_mapRaw, metas_mapRaw]
    exact h.members l' y
  · rw [openMembersOf, openMembers_mapRaw, metas_mapRaw]
    exact h.openMembers l' y
  · rw [members_mapRaw]
    exact h.membersKey l'
  · rw [openMembers_mapRaw]
    exact h.openMembersKey l'

end ProjectionIndex

open ProjectionIndex

variable {c : Content} {idx : ProjectionIndex} {l id placement : String} {m : ItemMap}
  {target : ℕ} {isOpen : Bool} {d d' : Document}

/-- Where the index locates an item, its map does. -/
theorem Tracks.slice_eq (h : Tracks c idx) {slice : ItemMeta} (hm : c.item id = some m)
    (hslice : idx.metas.get id = some slice) : itemMeta m = slice := by
  rw [h.metas, Content.metaOf, hm, Option.map_some, Option.some.injEq] at hslice
  exact hslice

/-! ## A fresh entry in the same list -/

/-- The index once a list has an entry under the item's fresh placement. -/
def ProjectionIndex.replaced (idx : ProjectionIndex) (id placement l : String) (pos : ℕ) :
    ProjectionIndex :=
  let metas := match idx.metas.get id with
    | none => idx.metas
    | some slice => idx.metas.insert id { slice with placementId := placement }
  let index := { idx with metas }
  index.setRaw l (placeAt (index.rawOf l) pos (some ⟨id, placement⟩))

theorem get_replaced {slice : ItemMeta} (hslice : idx.metas.get id = some slice) (pos : ℕ)
    (y : String) : (idx.replaced id placement l pos).metas.get y =
      if y = id then some { slice with placementId := placement } else idx.metas.get y := by
  unfold ProjectionIndex.replaced
  rw [hslice]
  exact FMap.get_insert _ _ _ _

theorem rawOf_replaced (idx : ProjectionIndex) (id placement l l' : String) (pos : ℕ) :
    (idx.replaced id placement l pos).rawOf l' =
      if l' = l then placeAt (idx.rawOf l) pos (some ⟨id, placement⟩) else idx.rawOf l' := by
  rw [ProjectionIndex.replaced, rawOf_setRaw]
  rfl

/-- Before its open projection is refreshed, everything but that is right. -/
theorem replaceEntry_tracks (h : Agrees d.content d.index) (hid : PlainId id) (hl : PlainId l)
    (hm : d.content.item id = some m) {slice : ItemMeta}
    (hslice : d.index.metas.get id = some slice) (hlist : slice.listId = l) (target : ℕ)
    (isOpen : Bool) (placement : String) :
    let base := d.index.replaced id placement l
      (d.index.planTarget l target isOpen (some id)).rawPos
    Tracks (d.replaceEntry id m l target isOpen placement).content base ∧
      ∀ l', l' ≠ l → base.OpenAt l' := by
  intro base
  have hraws : d.index.rawOf l = d.content.slots l :=
    h.rawOf_eq (.inr (.inr ⟨id, m, hm, (congrArg ItemMeta.listId (h.slice_eq hm hslice)).trans hlist⟩))
  have hmetas : ∀ y, base.metas.get y = _ := get_replaced hslice _
  have hmember : base.Membership := by
    have hsame := (h.membership.insert_same { slice with placementId := placement } hslice rfl
      rfl).setRaw l (placeAt (d.index.rawOf l)
        (d.index.planTarget l target isOpen (some id)).rawPos (some ⟨id, placement⟩))
    show (d.index.replaced id placement l _).Membership
    unfold ProjectionIndex.replaced
    rw [hslice]
    exact hsame
  have hraw : ∀ l', base.rawOrders.get l' = if l' = l then some (placeAt (d.index.rawOf l)
      (d.index.planTarget l target isOpen (some id)).rawPos (some ⟨id, placement⟩))
      else d.index.rawOrders.get l' := fun l' => get_setRaw _ _ _ _
  generalize hpos : (d.index.planTarget l target isOpen (some id)).rawPos = pos at *
  refine ⟨⟨fun y => ?_, hmember, fun l' => ?_⟩, fun l' hl' => ?_⟩
  · rw [hmetas, Document.replaceEntry, Content.metaOf, Content.item_setOrder, Content.item_setItem]
    split
    · have hnew := itemMeta_of_location (m := { m with
        location := some (Location.encode ⟨l, placement⟩) }) hl rfl
      have hopen : ({ m with location := some (Location.encode ⟨l, placement⟩) } : ItemMap).isOpen =
        m.isOpen := rfl
      rw [Option.map_some, hnew, hopen, ← hlist, ← h.slice_eq hm hslice]
      rfl
    · exact h.metas y
  · unfold RawAt
    rw [hraw, Document.replaceEntry, Content.slots_setOrder, hpos]
    by_cases hll : l' = l
    · left
      rw [if_pos hll, if_pos hll, map_placeAt, Option.bind_some,
        OrderEntry.parse_encode (e := ⟨id, placement⟩) hid]
      show some (placeAt (d.index.rawOf l) pos _) = some (placeAt (d.content.slots l) pos _)
      rw [hraws]
    · rw [if_neg hll, if_neg hll]
      refine (h.raw l').imp_right fun hmiss => ⟨hmiss.1, fun hcand => hmiss.2 ?_⟩
      refine hcand.of_items rfl fun y hy => ?_
      obtain ⟨m', hm', hlist'⟩ := hy
      rw [Content.item_setOrder, Content.item_setItem] at hm'
      split at hm'
      · rw [Option.some.injEq] at hm'
        subst hm'
        rw [itemMeta_of_location hl rfl] at hlist'
        exact absurd hlist'.symm hll
      · exact ⟨m', hm', hlist'⟩
  · refine (h.opens l').frame h.membership hmember ?_ (fun y => ?_) rfl rfl
    · rw [rawOf, hraw, if_neg hl']
      rfl
    · by_cases hy : y = id
      · subst hy
        refine sameFor_of_elsewhere (fun m' hm' => ?_) fun m' hm' => ?_
        · rw [hslice, Option.some.injEq] at hm'
          rw [← hm', hlist]
          exact fun heq => hl' heq.symm
        · have hnew := (hmetas y).symm.trans hm'
          rw [if_pos rfl, Option.some.injEq] at hnew
          rw [← hnew]
          exact fun heq => hl' (heq.symm.trans hlist)
      · exact .of_eq ((hmetas y).trans (if_neg hy))

/-- **Replacing an entry** keeps the agreement. -/
theorem agrees_replaceEntry (h : Agrees d.content d.index) (hid : PlainId id) (hl : PlainId l)
    (hm : d.content.item id = some m) {slice : ItemMeta}
    (hslice : d.index.metas.get id = some slice) (hlist : slice.listId = l) :
    Agrees (d.replaceEntry id m l target isOpen placement).content
      (d.replaceEntry id m l target isOpen placement).index := by
  have htracks := replaceEntry_tracks h hid hl hm hslice hlist target isOpen placement
  exact htracks.1.refresh htracks.2

/-! ## Within a list -/

/-- An open item is not moved past another entry it would still be shown through. -/
def Document.KeepsFirst (d : Document) (id l : String) (target : ℕ) (isOpen : Bool) : Prop :=
  ∀ source, d.index.canonicalRawPos l id = some source → isOpen = true →
    let plan := d.index.planTarget l target isOpen (some id)
    plan.openPos = .refresh ∨ source = moveDest source plan.rawPos ∨
      d.index.KeepsFirst l id source (moveDest source plan.rawPos)

/-- Before its open projection is spliced, everything but that is right. -/
theorem reorder_tracks (h : Agrees d.content d.index) {slice : ItemMeta}
    (hslice : d.index.metas.get id = some slice) {source : ℕ}
    (hsource : d.index.canonicalRawPos l id = some source) (dest : ℕ) :
    let base := d.index.mapRaw l fun raw => moveWithin raw source dest
    Tracks (d.content.setOrder l (moveWithin (d.content.orders l) source dest)) base ∧
      (∀ l', l' ≠ l → base.OpenAt l') ∧
      (d.index.rawOf l)[source]? = some (some ⟨id, slice.placementId⟩) ∧
      base.rawOf l =
        placeAt ((d.index.rawOf l).eraseIdx source) dest (some ⟨id, slice.placementId⟩) := by
  intro base
  obtain ⟨m', hm', -, hget, -⟩ := canonicalRawPos_eq_some hsource
  rw [hslice, Option.some.injEq] at hm'
  subst hm'
  have hrawget : d.index.rawOrders.get l = some (d.content.slots l) := by
    rcases h.raw l with hsome | ⟨hnone, -⟩
    · exact hsome
    · rw [rawOf, hnone] at hget
      cases hget
  have hrawOf : ∀ l', base.rawOf l' =
      if l' = l then moveWithin (d.index.rawOf l) source dest else d.index.rawOf l' := fun l' =>
    rawOf_mapRaw _ _ _ rfl
  have htracks : Tracks
      (d.content.setOrder l (moveWithin (d.content.orders l) source dest)) base := by
    refine ⟨fun y => ?_, h.membership.mapRaw l _, fun l' => ?_⟩
    · rw [metas_mapRaw]
      exact h.metas y
    · unfold RawAt
      rw [get_mapRaw, Content.slots_setOrder]
      by_cases hll : l' = l
      · left
        rw [if_pos hll, if_pos hll, hrawget, map_moveWithin]
        rfl
      · rw [if_neg hll, if_neg hll]
        exact (h.raw l').imp_right fun hmiss =>
          ⟨hmiss.1, fun hcand => hmiss.2 (hcand.of_items rfl fun y hy => hy)⟩
  refine ⟨htracks, fun l' hl' => ?_, hget, ?_⟩
  · exact (h.opens l').frame h.membership htracks.membership (by rw [hrawOf, if_neg hl'])
      (fun y => .of_eq (by rw [metas_mapRaw])) (by rw [openByList_mapRaw])
      (by rw [openVisibleCounts_mapRaw])
  · rw [hrawOf, if_pos rfl, moveWithin, hget]

/-- The entry of an open item moves. -/
theorem reorder_moves (h : Agrees d.content d.index) {slice : ItemMeta}
    (hslice : d.index.metas.get id = some slice) (hopen : slice.isOpen = true) {source : ℕ}
    (hsource : d.index.canonicalRawPos l id = some source) (dest : ℕ) :
    Moves d.index (d.index.mapRaw l fun raw => moveWithin raw source dest) l
      ⟨id, slice.placementId⟩ source dest := by
  obtain ⟨-, -, hget, hmoved⟩ := reorder_tracks h hslice hsource dest
  obtain ⟨e, -, hgete, hshown, -⟩ := canonical_shown hsource (isOpenItem_iff.2 ⟨slice, hslice, hopen⟩)
  rw [hget, Option.some.injEq, Option.some.injEq] at hgete
  subst hgete
  exact ⟨hget, hshown, hmoved, metas_mapRaw _ _ _, members_mapRaw _ _ _, openMembers_mapRaw _ _ _⟩

/-- **Reordering** keeps the agreement under that condition. -/
theorem agrees_reorderInList (h : Agrees d.content d.index) (hid : PlainId id) (hl : PlainId l)
    (hm : d.content.item id = some m) {slice : ItemMeta}
    (hslice : d.index.metas.get id = some slice) (hlist : slice.listId = l)
    (hkeeps : d.KeepsFirst id l target slice.isOpen) :
    Agrees (d.reorderInList id m l target slice.isOpen placement).content
      (d.reorderInList id m l target slice.isOpen placement).index := by
  unfold Document.reorderInList
  cases hsource : d.index.canonicalRawPos l id with
  | none => exact agrees_replaceEntry h hid hl hm hslice hlist
  | some source =>
    dsimp only
    have hkeep := hkeeps source hsource
    dsimp only at hkeep
    generalize hplan : d.index.planTarget l target slice.isOpen (some id) = plan at hkeep ⊢
    split
    · exact h
    rename_i hmoves
    generalize hdest : moveDest source plan.rawPos = dest at hkeep hmoves ⊢
    obtain ⟨htracks, hothers, hget, hmoved⟩ := reorder_tracks h hslice hsource dest
    have hsame : ∀ l' y, SameFor d.index
        (d.index.mapRaw l fun raw => moveWithin raw source dest) l' y := fun l' y =>
      .of_eq (by rw [metas_mapRaw])
    cases hopen : slice.isOpen with
    | false =>
      -- a hidden item's entry shows nothing wherever it stands
      rw [Bool.not_false, if_pos rfl]
      have hclosed : d.index.isOpenItem id = false := by
        rw [isOpenItem, hslice]
        exact hopen
      refine ⟨htracks, fun l' => ?_⟩
      by_cases hl' : l' = l
      · rw [hl']
        have hnone : ∀ ix : ProjectionIndex, ix.metas = d.index.metas →
            ix.openSlot l (some ⟨id, slice.placementId⟩) = none := by
          intro ix hix
          have : ix.isOpenItem id = false := by
            rw [isOpenItem, hix]
            exact hclosed
          simp [openSlot, this]
        have hvis : (d.index.mapRaw l fun raw => moveWithin raw source dest).openVisible l =
            d.index.openVisible l := by
          rw [openVisible_eq, openVisible_eq, hmoved,
            openIds_congr fun e _ => (hsame l e.itemId).openSlot]
          congr 1
          obtain ⟨hlt, hget'⟩ := List.getElem?_eq_some_iff.1 hget
          have hsplit : d.index.rawOf l = (d.index.rawOf l).take source ++
              some ⟨id, slice.placementId⟩ :: (d.index.rawOf l).drop (source + 1) := by
            rw [← hget', List.getElem_cons_drop, List.take_append_drop]
          have herase : d.index.openIds l ((d.index.rawOf l).eraseIdx source) =
              d.index.openIds l (d.index.rawOf l) := by
            rw [List.eraseIdx_eq_take_drop_succ]
            conv_rhs => rw [hsplit]
            rw [openIds, openIds, List.filterMap_append, List.filterMap_append,
              List.filterMap_cons_none (hnone d.index rfl)]
          rw [← herase, openIds, openIds, placeAt, List.filterMap_append,
            List.filterMap_cons_none (hnone d.index rfl), ← List.filterMap_append,
            List.take_append_drop]
        refine (h.opens l).congr (by rw [openByList_mapRaw]) (by rw [openVisibleCounts_mapRaw])
          ⟨hvis, openOf_of_openVisible h.membership htracks.membership (fun y _ => hsame l y)
            (fun y => (hsame l y).openMember h.membership htracks.membership) hvis⟩
      · exact hothers l' hl'
    | true =>
      rw [Bool.not_true, if_neg Bool.false_ne_true]
      split
      · exact htracks.refresh hothers
      rename_i hexact
      have hx : d.index.isOpenItem id = true := isOpenItem_iff.2 ⟨slice, hslice, hopen⟩
      have hmovesTo := reorder_moves h hslice hopen hsource dest
      have hfirst : d.index.KeepsFirst l id source dest := by
        rcases hkeep hopen with hrefresh | heq | hfirst
        · exact absurd hrefresh hexact
        · exact absurd heq hmoves
        · exact hfirst
      obtain ⟨hvis, hof⟩ := openOf_moves h.membership hmovesTo hfirst
      have hfits := planTarget_fits_moving h.membership (h.opens l) hsource hx target
      rw [hopen] at hplan
      rw [hplan] at hfits
      dsimp only at hfits
      rw [hdest] at hfits
      have hmem : id ∈ d.index.openVisible l :=
        (isSome_canonicalRawPos hx).1 (by rw [hsource]; rfl)
      refine ⟨htracks.of_sameBase (sameBase_spliceOpenIn _ _ _ _), fun l' => ?_⟩
      have hbase := sameBase_spliceOpenIn (d.index.mapRaw l fun raw => moveWithin raw source dest) l
        id plan.openPos
      have hitems : (d.index.mapRaw l fun raw => moveWithin raw source dest).openItemIds l =
          d.index.openOf l := by
        rw [openItemIds, openByList_mapRaw]
        exact (h.opens l).openItemIds
      rw [OpenAt, hbase.openOf, hbase.openVisible, get_spliceOpenIn, hitems,
        openVisibleCounts_spliceOpenIn]
      by_cases hl' : l' = l
      · rw [if_pos hl', hl', hof, hvis, unlessNil_placeAt, openVisibleCounts_mapRaw]
        constructor
        · congr 2
          cases hp : plan.openPos with
          | refresh => exact absurd hp hexact
          | «at» p =>
            rw [hp] at hfits
            exact hfits
          | append =>
            rw [hp] at hfits
            exact hfits.symm
        · rw [(h.opens l).2, length_placeAt]
          congr 1
          rw [filter_ne_eq_erase (openVisible_nodup d.index l), List.length_erase_of_mem hmem]
          have := List.length_pos_of_mem hmem
          omega
      · rw [if_neg hl']
        exact hothers l' hl'

/-! ## Across lists -/

/-- The container writes of a move across lists. -/
def Content.cross (c : Content) (id : String) (m : ItemMap) (current l placement : String)
    (pos : ℕ) (positions : List ℕ) : Content :=
  let c := c.setItem id { m with location := some (Location.encode ⟨l, placement⟩) }
  let c := c.setOrder l (placeAt (c.orders l) pos (some (OrderEntry.encode ⟨id, placement⟩)))
  c.setOrder current (removeAt positions (c.orders current))

/-- The slice and the two mirrors after a move across lists. -/
def ProjectionIndex.cross (idx : ProjectionIndex) (id : String) (new : ItemMeta) (current : String)
    (pos : ℕ) (positions : List ℕ) : ProjectionIndex :=
  let idx := (idx.setMeta id new).mapRaw current (removeAt positions)
  idx.setRaw new.listId (placeAt (idx.rawOf new.listId) pos (some ⟨id, new.placementId⟩))

theorem ProjectionIndex.setRaw_bumpVisible (idx : ProjectionIndex) (k l : String) (delta : ℤ)
    (raw : List (Option OrderEntry)) :
    (idx.bumpVisible k delta).setRaw l raw = (idx.setRaw l raw).bumpVisible k delta := by
  unfold bumpVisible setOpenCount setRaw
  dsimp only
  split <;> rfl

theorem moveAcrossLists_eq (d : Document) (id : String) (m : ItemMap) (current l : String)
    (target : ℕ) (isOpen : Bool) (placement : String) :
    let plan := d.index.planTarget l target isOpen none
    let positions := d.index.entryPositions current id
    let base := d.index.cross id ⟨l, placement, isOpen, m.createdAt.getD 0⟩ current plan.rawPos
      positions
    d.moveAcrossLists id m current l target isOpen placement =
      { content := d.content.cross id m current l placement plan.rawPos positions
        index :=
          if isOpen then
            let base :=
              if (d.index.canonicalRawPos current id).isSome then base.bumpVisible current (-1)
              else base
            let index := (base.bumpVisible l 1).spliceOpenOut current id
            if plan.openPos = .refresh then index.refreshOpen l
            else index.spliceOpenIn l id plan.openPos
          else base } := by
  intro plan positions base
  unfold Document.moveAcrossLists
  cases isOpen with
  | false =>
    simp only [Bool.and_false, Bool.false_eq_true, if_false, Bool.not_false, if_true]
    rfl
  | true =>
    simp only [Bool.and_true, Bool.not_true, Bool.false_eq_true, if_false, if_true]
    have hraw : ∀ ix : ProjectionIndex, (ix.bumpVisible current (-1)).rawOf l = ix.rawOf l :=
      fun ix => (sameBase_bumpVisible ix current (-1)).rawOf l
    cases (d.index.canonicalRawPos current id).isSome with
    | false =>
      simp only [Bool.false_eq_true, if_false]
      rfl
    | true =>
      simp only [if_true, hraw, setRaw_bumpVisible]
      rfl

section Cross

variable {current : String} {slice : ItemMeta} {pos : ℕ}

/-- The new slice of an item that changes its list. -/
def ItemMeta.movedTo (slice : ItemMeta) (l placement : String) : ItemMeta :=
  { slice with listId := l, placementId := placement }

theorem cross_get (idx : ProjectionIndex) (id : String) (new : ItemMeta) (current : String)
    (pos : ℕ) (positions : List ℕ) :
    (∀ y, (idx.cross id new current pos positions).metas.get y =
      if y = id then some new else idx.metas.get y) ∧
    (current ≠ new.listId → ∀ l', (idx.cross id new current pos positions).rawOrders.get l' =
      if l' = new.listId then some (placeAt (idx.rawOf new.listId) pos (some ⟨id, new.placementId⟩))
      else if l' = current then (idx.rawOrders.get current).map (removeAt positions)
      else idx.rawOrders.get l') ∧
    (idx.cross id new current pos positions).openByList = idx.openByList ∧
    (idx.cross id new current pos positions).openVisibleCounts = idx.openVisibleCounts := by
  unfold ProjectionIndex.cross
  dsimp only
  refine ⟨fun y => ?_, fun hne l' => ?_, ?_, ?_⟩
  · show ((idx.setMeta id new).mapRaw current (removeAt positions)).metas.get y = _
    rw [metas_mapRaw, setMeta_metas, FMap.get_insert]
  · have hraw : ((idx.setMeta id new).mapRaw current (removeAt positions)).rawOf new.listId =
        idx.rawOf new.listId := by
      rw [rawOf, get_mapRaw, if_neg (Ne.symm hne), rawOrders_setMeta]
      rfl
    rw [get_setRaw, hraw, get_mapRaw, rawOrders_setMeta]
  · show ((idx.setMeta id new).mapRaw current (removeAt positions)).openByList = _
    rw [openByList_mapRaw, openByList_setMeta]
  · show ((idx.setMeta id new).mapRaw current (removeAt positions)).openVisibleCounts = _
    rw [openVisibleCounts_mapRaw, openVisibleCounts_setMeta]

theorem Content.slots_cross (c : Content) (hid : PlainId id) (hne : current ≠ l) (m : ItemMap)
    (placement : String) (pos : ℕ) (positions : List ℕ) (l' : String) :
    (c.cross id m current l placement pos positions).slots l' =
      if l' = l then placeAt (c.slots l) pos (some ⟨id, placement⟩)
      else if l' = current then removeAt positions (c.slots current) else c.slots l' := by
  unfold Content.cross
  rw [Content.slots_setOrder, Content.slots_setOrder, Content.orders_setOrder, if_neg hne]
  by_cases hl' : l' = l
  · rw [if_neg (fun heq => hne (heq.symm.trans hl')), if_pos hl', if_pos hl', map_placeAt,
      Option.bind_some, OrderEntry.parse_encode (e := ⟨id, placement⟩) hid]
    rfl
  · rw [if_neg hl', if_neg hl', map_removeAt]
    rfl

/-- The base of a move across lists. -/
theorem cross_spec (pos : ℕ) (h : Agrees c idx) (hid : PlainId id) (hl : PlainId l)
    (hm : c.item id = some m) (hslice : idx.metas.get id = some slice)
    (hlist : slice.listId = current) (hne : current ≠ l) (hraw : idx.rawOf l = c.slots l)
    (hfresh : ∀ e, some e ∈ c.slots l → e.itemId = id → e.placementId ≠ placement) :
    let base := idx.cross id (slice.movedTo l placement) current pos (idx.entryPositions current id)
    Tracks (c.cross id m current l placement pos (idx.entryPositions current id)) base ∧
      Leaves idx base current (fun y => decide (y = id)) ∧
      (∀ l', l' ≠ current → l' ≠ l → base.OpenAt l') ∧
      if slice.isOpen then Joins idx base l ⟨id, placement⟩ pos
      else base.openVisible l = idx.openVisible l ∧ base.openOf l = idx.openOf l := by
  intro base
  obtain ⟨hget, hrawget, hlists, hcounts⟩ := cross_get idx id (slice.movedTo l placement) current
    pos (idx.entryPositions current id)
  have hrawget : ∀ l', base.rawOrders.get l' =
      if l' = l then some (placeAt (idx.rawOf l) pos (some ⟨id, placement⟩))
      else if l' = current then
        (idx.rawOrders.get current).map (removeAt (idx.entryPositions current id))
      else idx.rawOrders.get l' := hrawget hne
  have hmember : base.Membership :=
    ((h.membership.setMeta id (slice.movedTo l placement)).mapRaw current _).setRaw l _
  have hcurrent : idx.rawOf current = c.slots current :=
    h.rawOf_eq (.inr (.inr ⟨id, m, hm, (congrArg ItemMeta.listId (h.slice_eq hm hslice)).trans hlist⟩))
  have hrawOf : ∀ l', base.rawOf l' =
      if l' = l then placeAt (idx.rawOf l) pos (some ⟨id, placement⟩)
      else if l' = current then
        (idx.rawOf current).filter fun s => !s.any fun e => decide (e.itemId = id)
      else idx.rawOf l' := by
    intro l'
    rw [rawOf, hrawget]
    by_cases hl' : l' = l
    · rw [if_pos hl', if_pos hl']
      rfl
    · rw [if_neg hl', if_neg hl']
      by_cases hc' : l' = current
      · rw [if_pos hc', if_pos hc', ← removeAt_positionsOf, rawOf]
        cases hr : idx.rawOrders.get current with
        | none => rfl
        | some raw =>
          rw [entryPositions, rawOf, hr]
          rfl
      · rw [if_neg hc', if_neg hc']
        rfl
  have hget : ∀ y, base.metas.get y =
      if y = id then some (slice.movedTo l placement) else idx.metas.get y := hget
  have hlists : base.openByList = idx.openByList := hlists
  have hcounts : base.openVisibleCounts = idx.openVisibleCounts := hcounts
  have hsame : ∀ l' y, y ≠ id → SameFor idx base l' y := fun l' y hy =>
    .of_eq ((hget y).trans (if_neg hy))
  have hnew : base.metas.get id = some (slice.movedTo l placement) := (hget id).trans (if_pos rfl)
  have helsewhere : ∀ l', l' ≠ current → l' ≠ l → SameFor idx base l' id := by
    intro l' hc' hl'
    refine sameFor_of_elsewhere (fun m' hm' => ?_) fun m' hm' => ?_
    · rw [hslice, Option.some.injEq] at hm'
      rw [← hm', hlist]
      exact fun heq => hc' heq.symm
    · rw [hnew, Option.some.injEq] at hm'
      rw [← hm']
      exact fun heq => hl' heq.symm
  have hslots := c.slots_cross hid hne m placement pos (idx.entryPositions current id)
  have htracks : Tracks (c.cross id m current l placement pos (idx.entryPositions current id))
      base := by
    refine ⟨fun y => ?_, hmember, fun l' => ?_⟩
    · rw [hget, Content.metaOf]
      unfold Content.cross
      rw [Content.item_setOrder, Content.item_setOrder, Content.item_setItem]
      split
      · have hmeta := itemMeta_of_location (m := { m with
          location := some (Location.encode ⟨l, placement⟩) }) hl rfl
        have hopen : ({ m with location := some (Location.encode ⟨l, placement⟩) } :
          ItemMap).isOpen = m.isOpen := rfl
        rw [Option.map_some, hmeta, hopen, ItemMeta.movedTo, ← h.slice_eq hm hslice]
        rfl
      · exact h.metas y
    · unfold RawAt
      rw [hrawget, hslots]
      by_cases hl' : l' = l
      · left
        rw [if_pos hl', if_pos hl', ← hraw]
      · rw [if_neg hl', if_neg hl']
        by_cases hc' : l' = current
        · rw [if_pos hc', if_pos hc']
          refine (h.raw current).imp (fun hsome => by rw [hsome]; rfl) fun hmiss => ?_
          have hnone := hmiss.1
          rw [hnone]
          refine ⟨rfl, fun _ => ?_⟩
          have hnil : c.slots current = [] := by
            rw [← hcurrent, rawOf, hnone]
            rfl
          rw [hnil, entryPositions, hcurrent, hnil]
          rfl
        · rw [if_neg hc', if_neg hc']
          refine (h.raw l').imp_right fun hmiss => ⟨hmiss.1, fun hcand => hmiss.2 ?_⟩
          refine hcand.of_items rfl fun y hy => ?_
          obtain ⟨m', hm', hlist'⟩ := hy
          unfold Content.cross at hm'
          rw [Content.item_setOrder, Content.item_setOrder, Content.item_setItem] at hm'
          split at hm'
          · rw [Option.some.injEq] at hm'
            subst hm'
            rw [itemMeta_of_location hl rfl] at hlist'
            exact absurd hlist'.symm hl'
          · exact ⟨m', hm', hlist'⟩
  refine ⟨htracks, ⟨.inr ?_, fun y hy hmem => ?_, fun y hy => hsame current y ?_⟩,
    fun l' hc' hl' => ?_, ?_⟩
  · rw [hrawOf, if_neg hne, if_pos rfl]
  · rw [of_decide_eq_true hy] at hmem
    obtain ⟨m', hm', hlist', -⟩ := (hmember.openMembers current id).1 hmem
    rw [hnew, Option.some.injEq] at hm'
    rw [← hm'] at hlist'
    exact hne hlist'.symm
  · exact of_decide_eq_false hy
  · refine (h.opens l').frame h.membership hmember ?_ (fun y => ?_) (by rw [hlists])
      (by rw [hcounts])
    · rw [hrawOf, if_neg hl', if_neg hc']
    · by_cases hy : y = id
      · rw [hy]
        exact helsewhere l' hc' hl'
      · exact hsame l' y hy
  · have hnotmem : id ∉ idx.openMembersOf l := by
      intro hmem
      obtain ⟨m', hm', hlist', -⟩ := (h.membership.openMembers l id).1 hmem
      rw [hslice, Option.some.injEq] at hm'
      rw [← hm', hlist] at hlist'
      exact hne hlist'
    have hstale : ∀ e, some e ∈ idx.rawOf l → e.itemId = id → base.openSlot l (some e) = none := by
      intro e he hei
      have hnot : base.matches_ l e = false := by
        rw [Bool.eq_false_iff]
        intro hmatch
        obtain ⟨m', hm', -, hp⟩ := matches_iff.1 hmatch
        rw [hei, hnew, Option.some.injEq] at hm'
        rw [hraw] at he
        exact hfresh e he hei (by rw [← hp, ← hm']; rfl)
      simp [openSlot, hnot]
    have hat : base.rawOf l = placeAt (idx.rawOf l) pos (some ⟨id, placement⟩) := by
      rw [hrawOf, if_pos rfl]
    split
    · rename_i hopen
      refine ⟨hat, ?_, hnotmem, hstale, fun y hy => hsame l y hy⟩
      have hmatch : base.matches_ l ⟨id, placement⟩ = true := matches_iff.2 ⟨_, hnew, rfl, rfl⟩
      have hopen' : base.isOpenItem id = true := isOpenItem_iff.2 ⟨_, hnew, hopen⟩
      simp [openSlot, hmatch, hopen']
    · rename_i hclosed
      have hclosed' : base.isOpenItem id = false := by
        rw [isOpenItem, hnew]
        exact Bool.eq_false_iff.2 hclosed
      have hnone : base.openSlot l (some ⟨id, placement⟩) = none := by
        simp [openSlot, hclosed']
      have hvis : base.openVisible l = idx.openVisible l := by
        rw [openVisible_eq, openVisible_eq, hat, openIds, placeAt, List.filterMap_append,
          List.filterMap_cons_none hnone, ← List.filterMap_append, List.take_append_drop]
        show firsts (base.openIds l _) = _
        congr 1
        refine openIds_congr fun e he => ?_
        by_cases hei : e.itemId = id
        · rw [hstale e he hei, eq_comm]
          have : idx.matches_ l e = false := by
            rw [Bool.eq_false_iff]
            intro hmatch
            obtain ⟨m', hm', hl', -⟩ := matches_iff.1 hmatch
            rw [hei, hslice, Option.some.injEq] at hm'
            exact hne (hlist.symm.trans (hm' ▸ hl'))
          simp [openSlot, this]
        · exact (hsame l e.itemId hei).openSlot
      refine ⟨hvis, openOf_of_openVisible h.membership hmember (fun y hy => hsame l y ?_)
        (fun y => ?_) hvis⟩
      · exact fun heq => hnotmem (heq ▸ hy)
      · by_cases hy : y = id
        · rw [hy]
          refine iff_of_false (fun hmem => ?_) hnotmem
          obtain ⟨m', hm', -, ho⟩ := (hmember.openMembers l id).1 hmem
          rw [hnew, Option.some.injEq] at hm'
          rw [← hm'] at ho
          exact hclosed ho
        · exact (hsame l y hy).openMember h.membership hmember

/-- **Moving across lists** keeps the agreement. -/
theorem agrees_moveAcrossLists (h : Agrees d.content d.index) (hid : PlainId id) (hl : PlainId l)
    (hm : d.content.item id = some m) (hslice : d.index.metas.get id = some slice)
    (hlist : slice.listId = current) (hne : current ≠ l)
    (hraw : d.index.rawOf l = d.content.slots l)
    (hfresh : ∀ e, some e ∈ d.content.slots l → e.itemId = id → e.placementId ≠ placement) :
    Agrees (d.moveAcrossLists id m current l target slice.isOpen placement).content
      (d.moveAcrossLists id m current l target slice.isOpen placement).index := by
  have hmoved : (⟨l, placement, slice.isOpen, m.createdAt.getD 0⟩ : ItemMeta) =
      slice.movedTo l placement := by
    rw [← h.slice_eq hm hslice]
    rfl
  rw [moveAcrossLists_eq, hmoved]
  dsimp only
  have hfits := planTarget_fits h.membership (h.opens l) target
  generalize hplan : d.index.planTarget l target slice.isOpen none = plan
  obtain ⟨htracks, hleaves, hothers, hjoins⟩ := cross_spec plan.rawPos h hid hl hm hslice hlist hne hraw
    hfresh
  obtain ⟨-, -, hlists, hcounts⟩ := cross_get d.index id (slice.movedTo l placement) current
    plan.rawPos (d.index.entryPositions current id)
  generalize d.index.cross id (slice.movedTo l placement) current plan.rawPos
    (d.index.entryPositions current id) = base at *
  obtain ⟨hvisc, hofc⟩ := openOf_leaves h.membership htracks.membership hleaves
  cases hopen : slice.isOpen with
  | false =>
    rw [if_neg Bool.false_ne_true]
    rw [hopen, if_neg Bool.false_ne_true] at hjoins
    refine ⟨htracks, fun l' => ?_⟩
    by_cases hc' : l' = current
    · -- a hidden item is in no open projection
      rw [hc']
      have hnot : ∀ y ∈ d.index.openMembersOf current, y ≠ id := by
        rintro y hy rfl
        obtain ⟨m', hm', -, ho⟩ := (h.membership.openMembers current y).1 hy
        rw [hslice, Option.some.injEq] at hm'
        rw [← hm', hopen] at ho
        cases ho
      have hself : ∀ ids : List String, (∀ y ∈ ids, y ∈ d.index.openMembersOf current) →
          ids.filter (fun y => !decide (y = id)) = ids := fun ids hids =>
        List.filter_eq_self.2 fun y hy => by simpa using hnot y (hids y hy)
      refine (h.opens current).congr (by rw [hlists]) (by rw [hcounts]) ⟨?_, ?_⟩
      · rw [hvisc, hself _ fun y hy => mem_openVisible_members h.membership hy]
      · rw [hofc, hself _ fun y hy => (mem_openOf h.membership).1 hy]
    · by_cases hl' : l' = l
      · rw [hl']
        exact (h.opens l).congr (by rw [hlists]) (by rw [hcounts]) hjoins
      · exact hothers l' hc' hl'
  | true =>
    rw [if_pos rfl]
    rw [hopen, if_pos rfl] at hjoins
    rw [hopen] at hplan
    rw [hplan] at hfits
    have hx : d.index.isOpenItem id = true := isOpenItem_iff.2 ⟨slice, hslice, hopen⟩
    obtain ⟨hvisl, hofl⟩ := openOf_joins h.membership htracks.membership hjoins
    -- the two counts
    generalize hbumped : (if (d.index.canonicalRawPos current id).isSome = true then
      base.bumpVisible current (-1) else base) = bumped
    have hbase : SameBase base bumped ∧ bumped.openByList = base.openByList := by
      rw [← hbumped]
      split
      · exact ⟨sameBase_bumpVisible _ _ _, openByList_bumpVisible _ _ _⟩
      · exact ⟨.refl base, rfl⟩
    have hcountc : bumped.openVisibleCounts.get current =
        unlessZero (base.openVisible current).length := by
      have herase : base.openVisible current = (d.index.openVisible current).erase id := by
        rw [hvisc, ← filter_ne_eq_erase (openVisible_nodup d.index current)]
        exact List.filter_congr fun y _ => decide_not.symm
      rw [herase, ← hbumped]
      split
      · rename_i hsome
        have hmem := (isSome_canonicalRawPos hx).1 hsome
        have hcount : base.openVisibleCounts.get current =
            unlessZero (d.index.openVisible current).length := by
          rw [hcounts]
          exact (h.opens current).2
        have hpos := List.length_pos_of_mem hmem
        rw [getD_openVisibleCounts_bumpVisible (-1) hcount, List.length_erase_of_mem hmem]
        congr 1
        omega
      · rename_i hnone
        have hnot : id ∉ d.index.openVisible current := fun hmem =>
          hnone ((isSome_canonicalRawPos hx).2 hmem)
        rw [List.erase_of_not_mem hnot, hcounts]
        exact (h.opens current).2
    have hcountl : bumped.openVisibleCounts.get l = unlessZero (d.index.openVisible l).length := by
      rw [← hbumped]
      split
      · rw [get_bumpVisible_ne (Ne.symm hne), hcounts]
        exact (h.opens l).2
      · rw [hcounts]
        exact (h.opens l).2
    have hcounto : ∀ l', l' ≠ current →
        bumped.openVisibleCounts.get l' = base.openVisibleCounts.get l' := by
      intro l' hl'
      rw [← hbumped]
      split
      · exact get_bumpVisible_ne hl' _
      · rfl
    -- the index before the open list of the target is touched
    generalize hout : (bumped.bumpVisible l 1).spliceOpenOut current id = out
    have hsame : SameBase base out := by
      rw [← hout]
      exact (hbase.1.trans (sameBase_bumpVisible _ _ _)).trans (sameBase_spliceOpenOut _ _ _)
    have hlistc : (bumped.bumpVisible l 1).openByList.get current =
        unlessNil (d.index.openOf current) := by
      rw [openByList_bumpVisible, hbase.2, hlists]
      exact (h.opens current).1
    have houtlist : ∀ l', out.openByList.get l' =
        if l' = current then unlessNil (base.openOf current) else d.index.openByList.get l' := by
      intro l'
      rw [← hout, get_spliceOpenOut hlistc, hofc]
      by_cases hc' : l' = current
      · rw [if_pos hc', if_pos hc']
        congr 1
        exact List.filter_congr fun y _ => by simp
      · rw [if_neg hc', if_neg hc', openByList_bumpVisible, hbase.2, hlists]
    have houtstanding : Outstanding (d.content.cross id m current l placement plan.rawPos
        (d.index.entryPositions current id)) out l := by
      refine ⟨htracks.of_sameBase hsame, ?_, fun l' hl' => ?_, ?_⟩
      · rcases htracks.raw l with hsome | ⟨hnone, -⟩
        · rw [hsame.rawOf, rawOf, hsome]
          rfl
        · have := hjoins.raw
          rw [rawOf, hnone] at this
          have hlen := congrArg List.length this
          rw [length_placeAt] at hlen
          cases hlen
      · rw [OpenAt, hsame.openOf, hsame.openVisible, houtlist, ← hout,
          openVisibleCounts_spliceOpenOut, get_bumpVisible_ne hl']
        by_cases hc' : l' = current
        · rw [if_pos hc', hc']
          exact ⟨rfl, hcountc⟩
        · rw [if_neg hc', hcounto l' hc', ← hlists]
          exact hothers l' hc' hl'
      · rw [hsame.openVisible, hvisl, length_placeAt, ← hout, openVisibleCounts_spliceOpenOut,
          getD_openVisibleCounts_bumpVisible 1 hcountl]
        rfl
    split
    · exact houtstanding.toTracks.refresh houtstanding.others
    · rename_i hexact
      have harr : out.openItemIds l = d.index.openOf l := by
        rw [openItemIds, houtlist, if_neg (Ne.symm hne), (h.opens l).1, getD_unlessNil]
      have hself : (d.index.openOf l).filter (fun y => y ≠ id) = d.index.openOf l :=
        List.filter_eq_self.2 fun y hy => by
          have : y ≠ id := fun heq => hjoins.absent (heq ▸ (mem_openOf h.membership).1 hy)
          simpa using this
      refine houtstanding.settle (sameBase_spliceOpenIn _ _ _ _) rfl fun l' => ?_
      rw [get_spliceOpenIn, harr, hself, hsame.openOf, hofl, unlessNil_placeAt]
      have hindex : plan.openPos.index (d.index.openOf l).length =
          d.index.shownBefore l plan.rawPos := by
        cases hp : plan.openPos with
        | refresh => exact absurd hp hexact
        | «at» p =>
          rw [hp] at hfits
          exact hfits
        | append =>
          rw [hp] at hfits
          exact hfits.symm
      rw [hindex]

end Cross

end Monoplan.Doc
