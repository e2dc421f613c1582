import Mathlib.Data.Finset.Card
import Monoplan.Base.ListEdit
import Monoplan.Doc.ProjectionLaw

/-!
# Patching the index in place

The pieces local mutations patch the index with, and what each of them does to a list's open
projection.

* `openIds` are the open live ids of a run of slots, repetitions included; the open projection
  is their first occurrences followed by the open members not among them
  (`openOf_eq_append`).
* `SameFor l y` says that two indices agree on item `y` as far as list `l` is concerned.
* `openOf_joins`: an item that joins a list through a fresh entry stands after the open ids
  its entry follows.  `openOf_leaves`: an item that leaves is filtered out.  `openOf_congr`:
  a list that none of this concerns keeps its projection.
-/

namespace Monoplan.Doc

open Monoplan.Base

/-! ## Plans -/

/-- Where an open projection is to be spliced: `append` is `Some(usize::MAX)`, and `refresh` is
`None`, the projection has to be recomputed. -/
inductive OpenPos
  | refresh
  | at (pos : ℕ)
  | append
  deriving DecidableEq

/-- The position for the next element of a run. -/
def OpenPos.next : OpenPos → OpenPos
  | refresh => refresh
  | .at pos => .at (pos + 1)
  | append => append

/-- The position of the splice in a list of the given length. -/
def OpenPos.index (pos : OpenPos) (length : ℕ) : ℕ :=
  match pos with
  | .at pos => pos
  | _ => length

/-- `TargetPlan`. -/
structure TargetPlan where
  rawPos : ℕ
  openPos : OpenPos
  deriving DecidableEq

namespace ProjectionIndex

/-- `tail_is_empty`: every open item of the list is visible through an entry. -/
def tailIsEmpty (idx : ProjectionIndex) (listId : String) : Bool :=
  (idx.openMembersOf listId).card = (idx.openVisibleCounts.get listId).getD 0

/-- `bump_visible`. -/
def bumpVisible (idx : ProjectionIndex) (listId : String) (delta : ℤ) : ProjectionIndex :=
  idx.setOpenCount listId (((idx.openVisibleCounts.get listId).getD 0 : ℤ) + delta).toNat

/-- `splice_open_in`: the key is set even where it was missing. -/
def spliceOpenIn (idx : ProjectionIndex) (listId id : String) (pos : OpenPos) :
    ProjectionIndex :=
  let arr := (idx.openItemIds listId).filter fun x => x ≠ id
  { idx with openByList := idx.openByList.insert listId (placeAt arr (pos.index arr.length) id) }

/-- `splice_open_out`. -/
def spliceOpenOut (idx : ProjectionIndex) (listId id : String) : ProjectionIndex :=
  match idx.openByList.get listId with
  | none => idx
  | some arr => idx.setOpenList listId (arr.filter fun x => x ≠ id)

/-- `canonical_raw_pos`: the first entry of the item under its own placement. -/
def canonicalRawPos (idx : ProjectionIndex) (listId id : String) : Option ℕ :=
  match idx.metas.get id with
  | none => none
  | some m =>
    if m.listId ≠ listId then none
    else (idx.rawOf listId).findIdx? fun s =>
      s.any fun e => decide (e.itemId = id ∧ e.placementId = m.placementId)

/-- `entry_positions`: every entry that names the item. -/
def entryPositions (idx : ProjectionIndex) (listId id : String) : List ℕ :=
  positionsOf (fun s => s.any fun e => decide (e.itemId = id)) (idx.rawOf listId)

/-- The anchor's index in the projection the caller's index speaks about. -/
def anchorIndex (seq : List String) (target : ℕ) (exclude : Option String) : ℕ :=
  match exclude.bind fun x => seq.findIdx? fun y => y = x with
  | some c => if c ≤ target then target + 1 else target
  | none => target

/-- `plan_target`. -/
def planTarget (idx : ProjectionIndex) (listId : String) (target : ℕ) (isOpen : Bool)
    (exclude : Option String) : TargetPlan :=
  let rawLen := (idx.rawOf listId).length
  if isOpen then
    let seq := idx.openItemIds listId
    match seq[anchorIndex seq target exclude]? with
    | some anchor =>
      match idx.canonicalRawPos listId anchor with
      | some pos => ⟨pos, .at target⟩
      | none => ⟨rawLen, .refresh⟩
    | none => ⟨rawLen, if idx.tailIsEmpty listId then .append else .refresh⟩
  else
    let seq := idx.resolved listId
    let rawPos := (seq[anchorIndex seq target exclude]?.bind (idx.canonicalRawPos listId)).getD rawLen
    ⟨rawPos, .append⟩

/-- `set_open`: the item's list, whether it was open, and the index with the flag flipped. -/
def setOpen (idx : ProjectionIndex) (id : String) (isOpen : Bool) :
    Option (String × Bool × ProjectionIndex) :=
  (idx.metas.get id).map fun m =>
    let sets :=
      if isOpen && !m.isOpen then insertMember idx.openMembers m.listId id
      else if !isOpen && m.isOpen then unsetMember idx.openMembers m.listId id
      else idx.openMembers
    (m.listId, m.isOpen,
      { idx with metas := idx.metas.insert id { m with isOpen }, openMembers := sets })

/-- `remove_item`. -/
def removeItem (idx : ProjectionIndex) (id : String) : ProjectionIndex :=
  match idx.metas.get id with
  | none => idx
  | some m =>
    { idx with
      metas := idx.metas.erase id
      members := unsetMember idx.members m.listId id
      openMembers :=
        if m.isOpen then unsetMember idx.openMembers m.listId id else idx.openMembers }

/-- Change a list's mirror; a list that is not mirrored stays so. -/
def mapRaw (idx : ProjectionIndex) (listId : String)
    (f : List (Option OrderEntry) → List (Option OrderEntry)) : ProjectionIndex :=
  match idx.rawOrders.get listId with
  | none => idx
  | some raw => { idx with rawOrders := idx.rawOrders.insert listId (f raw) }

/-- Change a list's mirror, starting one where there is none. -/
def setRaw (idx : ProjectionIndex) (listId : String) (raw : List (Option OrderEntry)) :
    ProjectionIndex :=
  { idx with rawOrders := idx.rawOrders.insert listId raw }

/-! ## The open projection in two parts -/

variable {idx idx' : ProjectionIndex} {l id : String}

/-- The item a slot shows in the open projection. -/
def openSlot (idx : ProjectionIndex) (listId : String) (s : Option OrderEntry) : Option String :=
  s.bind fun e => if idx.matches_ listId e && idx.isOpenItem e.itemId then some e.itemId else none

/-- The open live ids of a run of slots. -/
def openIds (idx : ProjectionIndex) (listId : String) (raw : List (Option OrderEntry)) :
    List String :=
  raw.filterMap (idx.openSlot listId)

theorem openVisible_eq (idx : ProjectionIndex) (l : String) :
    idx.openVisible l = firsts (idx.openIds l (idx.rawOf l)) := by
  rw [openVisible, visibleIds, filter_firsts, openIds]
  congr 1
  induction idx.rawOf l with
  | nil => rfl
  | cons s raw ih =>
    cases s with
    | none => simpa [openSlot] using ih
    | some e =>
      by_cases hm : idx.matches_ l e = true
      · by_cases ho : idx.isOpenItem e.itemId = true
        · simpa [openSlot, hm, ho] using ih
        · simpa [openSlot, hm, ho] using ih
      · simpa [openSlot, hm] using ih

theorem mem_openIds {raw : List (Option OrderEntry)} : id ∈ idx.openIds l raw ↔
    ∃ e, some e ∈ raw ∧ e.itemId = id ∧ idx.matches_ l e = true ∧ idx.isOpenItem id = true := by
  rw [openIds, List.mem_filterMap]
  constructor
  · rintro ⟨- | e, he, hs⟩
    · cases hs
    · unfold openSlot at hs
      rw [Option.bind_some] at hs
      split at hs
      · rename_i hboth
        cases hs
        rw [Bool.and_eq_true] at hboth
        exact ⟨e, he, rfl, hboth⟩
      · cases hs
  · rintro ⟨e, he, rfl, hm, ho⟩
    exact ⟨some e, he, by simp [openSlot, hm, ho]⟩

theorem openVisible_nodup (idx : ProjectionIndex) (l : String) : (idx.openVisible l).Nodup :=
  (visibleIds_nodup idx l).filter _

theorem mem_openVisible_members (h : idx.Membership) (hid : id ∈ idx.openVisible l) :
    id ∈ idx.openMembersOf l := by
  obtain ⟨hvis, hopen⟩ := List.mem_filter.1 hid
  obtain ⟨m, hm, hl⟩ := (h.members l id).1 (visible_located h hvis)
  obtain ⟨m', hm', ho⟩ := isOpenItem_iff.1 hopen
  rw [hm, Option.some.injEq] at hm'
  subst hm'
  exact (h.openMembers l id).2 ⟨m, hm, hl, ho⟩

theorem isOpenItem_of_mem (h : idx.Membership) (hid : id ∈ idx.openMembersOf l) :
    idx.isOpenItem id = true := by
  obtain ⟨m, hm, -, ho⟩ := (h.openMembers l id).1 hid
  exact isOpenItem_iff.2 ⟨m, hm, ho⟩

/-- The open projection: the open visible ids, then the other open members by age. -/
theorem openOf_eq_append (h : idx.Membership) (l : String) :
    idx.openOf l = idx.openVisible l ++ sortOn idx.tailKey idx.tailKey_injective
      ((idx.openMembersOf l).filter fun id => id ∉ idx.openVisible l) := by
  rw [openOf, openTail]
  congr 1
  refine sortOn_congr (Finset.filter_congr fun id hid => not_congr ?_) fun _ _ => rfl
  have : idx.isOpenItem id = true := isOpenItem_of_mem h hid
  simp [openVisible, this]

theorem mem_openOf (h : idx.Membership) : id ∈ idx.openOf l ↔ id ∈ idx.openMembersOf l := by
  rw [openOf_eq_append h, List.mem_append, mem_sortOn, Finset.mem_filter]
  constructor
  · rintro (hvis | ⟨hid, -⟩)
    · exact mem_openVisible_members h hvis
    · exact hid
  · intro hid
    by_cases hvis : id ∈ idx.openVisible l
    · exact .inl hvis
    · exact .inr ⟨hid, hvis⟩

theorem openOf_nodup (h : idx.Membership) (l : String) : (idx.openOf l).Nodup := by
  rw [openOf_eq h]
  exact (resolved_nodup idx l).filter _

/-! ## Indices that agree about an item -/

/-- As far as the list is concerned, the item is the same in both indices. -/
def SameFor (idx idx' : ProjectionIndex) (l y : String) : Prop :=
  ∀ m : ItemMeta, m.listId = l → (idx'.metas.get y = some m ↔ idx.metas.get y = some m)

theorem SameFor.of_eq {y : String} (h : idx'.metas.get y = idx.metas.get y) :
    SameFor idx idx' l y := fun m _ => by rw [h]

theorem SameFor.openSlot {e : OrderEntry} (h : SameFor idx idx' l e.itemId) :
    idx'.openSlot l (some e) = idx.openSlot l (some e) := by
  have hiff : (idx'.matches_ l e && idx'.isOpenItem e.itemId) = true ↔
      (idx.matches_ l e && idx.isOpenItem e.itemId) = true := by
    simp only [Bool.and_eq_true, matches_iff, isOpenItem_iff]
    constructor
    · rintro ⟨⟨m, hm, hl, hp⟩, m', hm', ho⟩
      rw [hm, Option.some.injEq] at hm'
      subst hm'
      have := (h m hl).1 hm
      exact ⟨⟨m, this, hl, hp⟩, m, this, ho⟩
    · rintro ⟨⟨m, hm, hl, hp⟩, m', hm', ho⟩
      rw [hm, Option.some.injEq] at hm'
      subst hm'
      have := (h m hl).2 hm
      exact ⟨⟨m, this, hl, hp⟩, m, this, ho⟩
  unfold ProjectionIndex.openSlot
  rw [Option.bind_some, Option.bind_some, if_congr hiff rfl rfl]

theorem SameFor.openMember {y : String} (h : SameFor idx idx' l y) (hi : idx.Membership)
    (hi' : idx'.Membership) : y ∈ idx'.openMembersOf l ↔ y ∈ idx.openMembersOf l := by
  rw [hi.openMembers, hi'.openMembers]
  constructor
  · rintro ⟨m, hm, hl, ho⟩
    exact ⟨m, (h m hl).1 hm, hl, ho⟩
  · rintro ⟨m, hm, hl, ho⟩
    exact ⟨m, (h m hl).2 hm, hl, ho⟩

theorem SameFor.tailKey {y : String} (h : SameFor idx idx' l y) (hi : idx.Membership)
    (hy : y ∈ idx.openMembersOf l) : idx'.tailKey y = idx.tailKey y := by
  obtain ⟨m, hm, hl, -⟩ := (hi.openMembers l y).1 hy
  rw [ProjectionIndex.tailKey, ProjectionIndex.tailKey, hm, (h m hl).2 hm]

/-- Slots of items that are the same show the same. -/
theorem openIds_congr {raw : List (Option OrderEntry)}
    (h : ∀ e, some e ∈ raw → idx'.openSlot l (some e) = idx.openSlot l (some e)) :
    idx'.openIds l raw = idx.openIds l raw := by
  refine List.filterMap_congr fun s hs => ?_
  cases s with
  | none => rfl
  | some e => exact h e hs

/-! ## What a patch does to a list -/

/-- The tail depends on the open members and the visible part only. -/
theorem openOf_of_openVisible (hi : idx.Membership) (hi' : idx'.Membership)
    (hsame : ∀ y ∈ idx.openMembersOf l, SameFor idx idx' l y)
    (hmem : ∀ y, y ∈ idx'.openMembersOf l ↔ y ∈ idx.openMembersOf l)
    (hvis : idx'.openVisible l = idx.openVisible l) : idx'.openOf l = idx.openOf l := by
  rw [openOf_eq_append hi, openOf_eq_append hi', hvis]
  congr 1
  refine sortOn_congr (Finset.ext fun y => ?_) fun y hy => ?_
  · rw [Finset.mem_filter, Finset.mem_filter, hmem]
  · have hy' := (Finset.mem_filter.1 hy).1
    exact (hsame y hy').tailKey hi hy'

/-- **Frame.**  A list whose slots and items are the same keeps its projection. -/
theorem openOf_congr (hi : idx.Membership) (hi' : idx'.Membership)
    (hraw : idx'.rawOf l = idx.rawOf l) (hsame : ∀ y, SameFor idx idx' l y) :
    idx'.openVisible l = idx.openVisible l ∧ idx'.openOf l = idx.openOf l := by
  have hvis : idx'.openVisible l = idx.openVisible l := by
    rw [openVisible_eq, openVisible_eq, hraw, openIds_congr fun e _ => (hsame e.itemId).openSlot]
  exact ⟨hvis, openOf_of_openVisible hi hi' (fun y _ => hsame y)
    (fun y => (hsame y).openMember hi hi') hvis⟩

/-- How many open items the entries before a position show. -/
def shownBefore (idx : ProjectionIndex) (l : String) (pos : ℕ) : ℕ :=
  (firsts (idx.openIds l ((idx.rawOf l).take pos))).length

/-- The visible part splits at every raw position. -/
theorem openVisible_split (idx : ProjectionIndex) (l : String) (pos : ℕ) :
    idx.openVisible l = firsts (idx.openIds l ((idx.rawOf l).take pos)) ++
      (firsts (idx.openIds l ((idx.rawOf l).drop pos))).filter
        fun a => a ∉ idx.openIds l ((idx.rawOf l).take pos) := by
  rw [← firsts_append, openVisible_eq, openIds, openIds, openIds, ← List.filterMap_append,
    List.take_append_drop]

/-- The item joins the list through a fresh entry at a raw position. -/
structure Joins (idx idx' : ProjectionIndex) (l : String) (e : OrderEntry) (pos : ℕ) : Prop where
  raw : idx'.rawOf l = placeAt (idx.rawOf l) pos (some e)
  shown : idx'.openSlot l (some e) = some e.itemId
  /-- It was not there before. -/
  absent : e.itemId ∉ idx.openMembersOf l
  /-- Its other entries stay stale. -/
  fresh : ∀ e', some e' ∈ idx.rawOf l → e'.itemId = e.itemId →
    idx'.openSlot l (some e') = none
  others : ∀ y, y ≠ e.itemId → SameFor idx idx' l y

variable {e : OrderEntry} {pos : ℕ}

/-- The joining item was shown by nothing before. -/
theorem Joins.not_mem_openIds (h : Joins idx idx' l e pos) (hi : idx.Membership)
    (raw : List (Option OrderEntry)) : e.itemId ∉ idx.openIds l raw := by
  intro hmem
  obtain ⟨e', -, hid, hm, ho⟩ := mem_openIds.1 hmem
  obtain ⟨m, hmeta, hlist, -⟩ := matches_iff.1 hm
  obtain ⟨m', hmeta', hopen⟩ := isOpenItem_iff.1 ho
  rw [hid, hmeta', Option.some.injEq] at hmeta
  subst hmeta
  exact h.absent ((hi.openMembers l _).2 ⟨m', hmeta', hlist, hopen⟩)

/-- The old entries show what they showed. -/
theorem Joins.openIds_eq (h : Joins idx idx' l e pos) (hi : idx.Membership)
    {raw : List (Option OrderEntry)} (hsub : ∀ s ∈ raw, s ∈ idx.rawOf l) :
    idx'.openIds l raw = idx.openIds l raw := by
  refine openIds_congr fun e' he' => ?_
  by_cases hid : e'.itemId = e.itemId
  · rw [h.fresh e' (hsub _ he') hid, eq_comm, Option.eq_none_iff_forall_ne_some]
    intro a ha
    refine h.not_mem_openIds hi [some e'] ?_
    rw [openIds, List.mem_filterMap]
    refine ⟨some e', List.mem_singleton_self _, ?_⟩
    rw [ha]
    unfold openSlot at ha
    rw [Option.bind_some] at ha
    split at ha
    · rw [← ha, hid]
    · cases ha
  · exact (h.others _ hid).openSlot

/-- A new entry shows an item that nothing in the list showed. -/
structure Enters (idx idx' : ProjectionIndex) (l : String) (e : OrderEntry) (pos : ℕ) : Prop where
  raw : idx'.rawOf l = placeAt (idx.rawOf l) pos (some e)
  shown : idx'.openSlot l (some e) = some e.itemId
  unseen : ∀ raw, (∀ s ∈ raw, s ∈ idx.rawOf l) → e.itemId ∉ idx.openIds l raw
  kept : ∀ raw, (∀ s ∈ raw, s ∈ idx.rawOf l) → idx'.openIds l raw = idx.openIds l raw

/-- It stands after what the entries before it show. -/
theorem openVisible_enters (h : Enters idx idx' l e pos) :
    idx'.openVisible l = placeAt (idx.openVisible l) (idx.shownBefore l pos) e.itemId := by
  rw [openVisible_split idx l pos, shownBefore, placeAt_append, openVisible_eq, h.raw, openIds,
    placeAt, List.filterMap_append, List.filterMap_cons_some h.shown]
  show firsts (idx'.openIds l _ ++ e.itemId :: idx'.openIds l _) = _
  rw [h.kept _ fun s hs => List.mem_of_mem_take hs, h.kept _ fun s hs => List.mem_of_mem_drop hs]
  exact firsts_insert (h.unseen _ fun s hs => List.mem_of_mem_take hs)
    (h.unseen _ fun s hs => List.mem_of_mem_drop hs)

theorem Joins.enters (h : Joins idx idx' l e pos) (hi : idx.Membership) :
    Enters idx idx' l e pos where
  raw := h.raw
  shown := h.shown
  unseen raw _ := h.not_mem_openIds hi raw
  kept _ hsub := h.openIds_eq hi hsub

/-- **Joining.**  The item stands right after the open items its entry follows. -/
theorem openOf_joins (hi : idx.Membership) (hi' : idx'.Membership)
    (h : Joins idx idx' l e pos) :
    idx'.openVisible l = placeAt (idx.openVisible l) (idx.shownBefore l pos) e.itemId ∧
      idx'.openOf l = placeAt (idx.openOf l) (idx.shownBefore l pos) e.itemId := by
  have hvis : idx'.openVisible l =
      placeAt (idx.openVisible l) (idx.shownBefore l pos) e.itemId :=
    openVisible_enters (h.enters hi)
  refine ⟨hvis, ?_⟩
  rw [openOf_eq_append hi, openOf_eq_append hi', hvis]
  have hlen : idx.shownBefore l pos ≤ (idx.openVisible l).length := by
    rw [openVisible_split idx l pos, List.length_append]
    exact Nat.le_add_right _ _
  rw [placeAt_append_of_le hlen]
  congr 1
  refine sortOn_congr (Finset.ext fun y => ?_) fun y hy => ?_
  · rw [Finset.mem_filter, Finset.mem_filter, mem_placeAt, not_or]
    by_cases hy : y = e.itemId
    · subst hy
      simp [h.absent]
    · rw [(h.others y hy).openMember hi hi']
      simp [hy]
  · obtain ⟨hmem, -⟩ := Finset.mem_filter.1 hy
    have hne : y ≠ e.itemId := fun heq => h.absent (heq ▸ hmem)
    exact (h.others y hne).tailKey hi hmem

/-- One more open item is shown before the position after the new entry. -/
theorem shownBefore_joins (hi : idx.Membership) (h : Joins idx idx' l e pos)
    (hpos : pos ≤ (idx.rawOf l).length) :
    idx'.shownBefore l (pos + 1) = idx.shownBefore l pos + 1 := by
  have htake : (idx'.rawOf l).take (pos + 1) = (idx.rawOf l).take pos ++ [some e] := by
    have hlen : ((idx.rawOf l).take pos ++ [some e]).length = pos + 1 := by
      rw [List.length_append, List.length_take, Nat.min_eq_left hpos]
      rfl
    rw [h.raw, placeAt, ← List.singleton_append (x := some e), ← List.append_assoc, ← hlen,
      List.take_left]
  have hids : idx'.openIds l ((idx.rawOf l).take pos ++ [some e]) =
      idx.openIds l ((idx.rawOf l).take pos) ++ [e.itemId] := by
    rw [openIds, List.filterMap_append, List.filterMap_cons_some h.shown]
    show idx'.openIds l _ ++ _ = _
    rw [h.openIds_eq hi fun s hs => List.mem_of_mem_take hs]
    rfl
  rw [shownBefore, htake, hids, firsts_insert (h.not_mem_openIds hi _) List.not_mem_nil]
  simp [shownBefore, firsts, firstsFrom]

/-- Items leave the list's open items; entries that name them may go with them. -/
structure Leaves (idx idx' : ProjectionIndex) (l : String) (p : String → Bool) : Prop where
  raw : idx'.rawOf l = idx.rawOf l ∨
    idx'.rawOf l = (idx.rawOf l).filter fun s => !s.any fun e => p e.itemId
  gone : ∀ y, p y = true → y ∉ idx'.openMembersOf l
  others : ∀ y, p y = false → SameFor idx idx' l y

variable {p : String → Bool}

/-- Nothing shows the items that have left. -/
theorem Leaves.openSlot (h : Leaves idx idx' l p) (hi' : idx'.Membership)
    (s : Option OrderEntry) :
    idx'.openSlot l s = (idx.openSlot l s).filter fun y => !p y := by
  cases s with
  | none => rfl
  | some e =>
    cases he : p e.itemId with
    | true =>
      have hnone : idx'.openSlot l (some e) = none := by
        by_contra hne
        obtain ⟨a, ha⟩ := Option.ne_none_iff_exists'.1 hne
        have hmem : a ∈ idx'.openIds l [some e] :=
          List.mem_filterMap.2 ⟨some e, List.mem_singleton_self _, ha⟩
        obtain ⟨e', he', hid, hm, ho⟩ := mem_openIds.1 hmem
        obtain ⟨m, hmeta, hlist, -⟩ := matches_iff.1 hm
        obtain ⟨m', hmeta', hopen⟩ := isOpenItem_iff.1 ho
        rw [hid, hmeta', Option.some.injEq] at hmeta
        subst hmeta
        rw [List.mem_singleton, Option.some.injEq] at he'
        subst he'
        rw [hid] at he
        exact h.gone a he ((hi'.openMembers l a).2 ⟨m', hmeta', hlist, hopen⟩)
      rw [hnone]
      unfold ProjectionIndex.openSlot
      rw [Option.bind_some]
      split
      · simp [Option.filter, he]
      · rfl
    | false =>
      rw [(h.others _ he).openSlot]
      unfold ProjectionIndex.openSlot
      rw [Option.bind_some]
      split
      · simp [Option.filter, he]
      · rfl

/-- **Leaving.**  The items are filtered out. -/
theorem openOf_leaves (hi : idx.Membership) (hi' : idx'.Membership) (h : Leaves idx idx' l p) :
    idx'.openVisible l = (idx.openVisible l).filter (fun y => !p y) ∧
      idx'.openOf l = (idx.openOf l).filter fun y => !p y := by
  have hids : ∀ raw : List (Option OrderEntry), idx'.openIds l raw =
      (idx.openIds l raw).filter fun y => !p y := by
    intro raw
    rw [openIds, openIds, ← List.filterMap_eq_filter, List.filterMap_filterMap]
    refine List.filterMap_congr fun s _ => ?_
    rw [h.openSlot hi' s]
    cases idx.openSlot l s <;> rfl
  have hdrop : ∀ raw : List (Option OrderEntry),
      idx'.openIds l (raw.filter fun s => !s.any fun e => p e.itemId) = idx'.openIds l raw := by
    intro raw
    rw [openIds, openIds, List.filterMap_filter]
    refine List.filterMap_congr fun s _ => ?_
    split
    · rfl
    · rename_i hs
      cases s with
      | none => simp at hs
      | some e =>
        have he : p e.itemId = true := by simpa using hs
        rw [h.openSlot hi']
        unfold ProjectionIndex.openSlot
        rw [Option.bind_some]
        split
        · simp [Option.filter, he]
        · rfl
  have hvis : idx'.openVisible l = (idx.openVisible l).filter fun y => !p y := by
    rw [openVisible_eq, openVisible_eq, filter_firsts, ← hids]
    rcases h.raw with hraw | hraw
    · rw [hraw]
    · rw [hraw, hdrop]
  refine ⟨hvis, ?_⟩
  rw [openOf_eq_append hi, openOf_eq_append hi', hvis, List.filter_append, filter_sortOn]
  congr 1
  refine sortOn_congr (Finset.ext fun y => ?_) fun y hy => ?_
  · simp only [Finset.mem_filter, List.mem_filter]
    cases hy : p y with
    | true => simp [h.gone y hy]
    | false =>
      rw [(h.others y hy).openMember hi hi']
      simp
  · rw [Finset.mem_filter, Finset.mem_filter] at hy
    have hp : p y = false := by simpa using hy.2
    exact (h.others y hp).tailKey hi hy.1.1

/-- An item's entry is moved within its list. -/
structure Moves (idx idx' : ProjectionIndex) (l : String) (e : OrderEntry) (source dest : ℕ) :
    Prop where
  entry : (idx.rawOf l)[source]? = some (some e)
  shown : idx.openSlot l (some e) = some e.itemId
  raw : idx'.rawOf l = placeAt ((idx.rawOf l).eraseIdx source) dest (some e)
  metas : idx'.metas = idx.metas
  members : idx'.members = idx.members
  openMembers : idx'.openMembers = idx.openMembers

/-- The open ids before the destination, once the entry is taken out. -/
def passed (idx : ProjectionIndex) (l : String) (source dest : ℕ) : List String :=
  firsts (idx.openIds l (((idx.rawOf l).eraseIdx source).take dest))

/-- No open item is first shown between another entry of the item and its destination. -/
def KeepsFirst (idx : ProjectionIndex) (l x : String) (source dest : ℕ) : Prop :=
  (idx.passed l source dest).dropWhile (fun y => y ≠ x) = [] ∨
    (idx.passed l source dest).dropWhile (fun y => y ≠ x) = [x]

instance (idx : ProjectionIndex) (l x : String) (source dest : ℕ) :
    Decidable (idx.KeepsFirst l x source dest) :=
  inferInstanceAs (Decidable (_ ∨ _))

section Moves

variable {source dest : ℕ}

theorem Moves.sameFor (h : Moves idx idx' l e source dest) (y : String) : SameFor idx idx' l y :=
  .of_eq (by rw [h.metas])

theorem Moves.membership (h : Moves idx idx' l e source dest) (hi : idx.Membership) :
    idx'.Membership := by
  refine ⟨fun l id => ?_, fun l id => ?_, fun l => ?_, fun l => ?_⟩
  · rw [membersOf, h.members, h.metas]
    exact hi.members l id
  · rw [openMembersOf, h.openMembers, h.metas]
    exact hi.openMembers l id
  · rw [h.members]
    exact hi.membersKey l
  · rw [h.openMembers]
    exact hi.openMembersKey l

/-- The open ids after the destination, once the entry is taken out. -/
def ahead (idx : ProjectionIndex) (l : String) (source dest : ℕ) : List String :=
  idx.openIds l (((idx.rawOf l).eraseIdx source).drop dest)

/-- What the entries show once one has moved. -/
theorem Moves.openVisible_eq (h : Moves idx idx' l e source dest) :
    idx'.openVisible l =
      firsts (idx.openIds l (((idx.rawOf l).eraseIdx source).take dest) ++
        e.itemId :: idx.ahead l source dest) := by
  have hids : ∀ raw, idx'.openIds l raw = idx.openIds l raw := fun raw =>
    openIds_congr fun e _ => (h.sameFor e.itemId).openSlot
  rw [ProjectionIndex.openVisible_eq, hids, h.raw, openIds, placeAt, List.filterMap_append,
    List.filterMap_cons_some h.shown]
  rfl

/-- The other items stand as they stood. -/
theorem Moves.others_eq (h : Moves idx idx' l e source dest) :
    (idx.openVisible l).filter (fun y => y ≠ e.itemId) =
      firsts ((idx.openIds l (((idx.rawOf l).eraseIdx source).take dest) ++
        idx.ahead l source dest).filter fun y => y ≠ e.itemId) := by
  have hall : idx.openIds l (((idx.rawOf l).eraseIdx source).take dest) ++ idx.ahead l source dest =
      idx.openIds l ((idx.rawOf l).eraseIdx source) := by
    rw [ahead, openIds, openIds, openIds, ← List.filterMap_append, List.take_append_drop]
  rw [ProjectionIndex.openVisible_eq, filter_firsts, hall]
  congr 1
  obtain ⟨hlt, hget⟩ := List.getElem?_eq_some_iff.1 h.entry
  have hraw : idx.rawOf l = (idx.rawOf l).take source ++
      some e :: (idx.rawOf l).drop (source + 1) := by
    rw [← hget, List.getElem_cons_drop, List.take_append_drop]
  have herase : (idx.rawOf l).eraseIdx source =
      (idx.rawOf l).take source ++ (idx.rawOf l).drop (source + 1) :=
    List.eraseIdx_eq_take_drop_succ _ _
  rw [herase]
  conv_lhs => rw [hraw]
  rw [openIds, openIds, List.filterMap_append, List.filterMap_append,
    List.filterMap_cons_some h.shown, List.filter_append, List.filter_append,
    List.filter_cons_of_neg (by simp)]

theorem Moves.length_passed_le (h : Moves idx idx' l e source dest) :
    ((idx.passed l source dest).filter fun y => y ≠ e.itemId).length ≤
      ((idx.openVisible l).filter fun y => y ≠ e.itemId).length := by
  rw [h.others_eq, passed, List.filter_append, firsts_append, filter_firsts, List.length_append]
  exact Nat.le_add_right _ _

/-- Where the item stands after the others its entry follows, the entry is the one that shows
it. -/
theorem Moves.keepsFirst (h : Moves idx idx' l e source dest)
    (hat : (idx'.openVisible l)[((idx.passed l source dest).filter
      fun y => y ≠ e.itemId).length]? = some e.itemId) : idx.KeepsFirst l e.itemId source dest := by
  rw [h.openVisible_eq, passed] at hat
  exact getElem?_firsts_move hat

/-- **Moving.**  The item stands after the other open items its entry now follows, provided it
is not still shown through an earlier entry. -/
theorem openOf_moves (hi : idx.Membership) (h : Moves idx idx' l e source dest)
    (hkeep : idx.KeepsFirst l e.itemId source dest) :
    let k := ((idx.passed l source dest).filter fun y => y ≠ e.itemId).length
    idx'.openVisible l = placeAt ((idx.openVisible l).filter fun y => y ≠ e.itemId) k e.itemId ∧
      idx'.openOf l = placeAt ((idx.openOf l).filter fun y => y ≠ e.itemId) k e.itemId := by
  intro k
  have hi' := h.membership hi
  have hvis : idx'.openVisible l =
      placeAt ((idx.openVisible l).filter fun y => y ≠ e.itemId) k e.itemId := by
    rw [h.openVisible_eq, h.others_eq]
    exact firsts_move hkeep
  refine ⟨hvis, ?_⟩
  have hx : e.itemId ∈ idx.openVisible l := by
    rw [openVisible_eq, mem_firsts, openIds, List.mem_filterMap]
    exact ⟨some e, List.mem_of_getElem? h.entry, h.shown⟩
  have hmem : ∀ y, y ∈ idx'.openVisible l ↔ y ∈ idx.openVisible l := by
    intro y
    rw [hvis, mem_placeAt, List.mem_filter]
    by_cases hy : y = e.itemId
    · subst hy
      simp [hx]
    · simp [hy]
  rw [openOf_eq_append hi, openOf_eq_append hi', hvis, List.filter_append]
  rw [placeAt_append_of_le h.length_passed_le]
  congr 1
  rw [filter_sortOn]
  refine sortOn_congr (Finset.ext fun y => ?_) fun y hy => ?_
  · simp only [Finset.mem_filter, decide_eq_true_eq]
    rw [(h.sameFor y).openMember hi hi', ← hvis, hmem]
    constructor
    · rintro ⟨hm, hv⟩
      exact ⟨⟨hm, hv⟩, fun h => hv (h ▸ hx)⟩
    · rintro ⟨⟨hm, hv⟩, -⟩
      exact ⟨hm, hv⟩
  · exact (h.sameFor y).tailKey hi (Finset.mem_filter.1 (Finset.mem_filter.1 hy).1).1

end Moves

end ProjectionIndex

end Monoplan.Doc
