import Mathlib.Data.Int.Init
import Monoplan.Base.Machine
import Monoplan.Base.StableSort
import Monoplan.Base.Stretch

/-!
# Selecting rows

A selection is a list of blocks, each from its anchor to another row.  The rows are kept as keys and
looked up in the order.

* `DndSelection` and its operations.  The active block is marked.
* `ranges_merge`: merging is `fuse` on the rows of the blocks, with the anchor of the active block
  as the stop.
* `actsAsSet_iff`: along a run, every operation does to the set of selected keys what it is for
  exactly where no merge fuses rows on both sides of the active anchor, no new order lacks an end of
  a block (unless the rows above are selected anyway), and no key is toggled off while other blocks
  touch.
-/

namespace Monoplan.Web

open Monoplan.Base

/-- The keys of the rows, each once: `indexToKey` and `orderIndex`. -/
structure Order (Key : Type) where
  keys : List Key
  nodup : keys.Nodup

/-- A block of rows, and whether it is `this.active`. -/
structure Block (Key : Type) where
  anchor : Key
  toKey : Key
  active : Bool
  deriving DecidableEq

structure DndSelection (Key : Type) where
  order : Order Key
  blocks : List (Block Key)

variable {Key : Type} [DecidableEq Key]

namespace Order

/-- `orderIndex.get`. -/
def index (o : Order Key) (key : Key) : Option ℕ := o.keys.idxOf? key

/-- `indexToKey[i]`.  Where there are no rows it is a key that has none, as `undefined` is. -/
def keyAt (o : Order Key) (i : ℕ) (key : Key) : Key := o.keys.getD i key

/-- The rows of a block; a key without a row counts as the first row. -/
def blockRange (o : Order Key) (b : Block Key) : Stretch :=
  .between ((o.index b.anchor).getD 0) ((o.index b.toKey).getD 0)

/-- The order of blocks by their top rows. -/
def byTop (o : Order Key) : Block Key → Block Key → Ordering :=
  compareOn fun b => (o.blockRange b).lo

instance transCmp_byTop (o : Order Key) : Std.TransCmp o.byTop :=
  inferInstanceAs (Std.TransCmp (compareOn _))

/-! ## Merging -/

/-- Two blocks that touch, as one: the active anchor stays where one of them is the active block. -/
def fused (o : Order Key) (activeAnchor : Option Key) (hasActive : Bool)
    (current next : Block Key) : Block Key :=
  let newTop := (o.blockRange current).lo
  let newBottom := max (o.blockRange current).hi (o.blockRange next).hi
  match if hasActive then activeAnchor else none with
  | some anchor =>
    let anchorIdx := (o.index anchor).getD newTop
    let toIdx := if anchorIdx = newTop then newBottom else newTop
    ⟨anchor, o.keyAt toIdx current.toKey, false⟩
  | none => ⟨o.keyAt newTop current.anchor, o.keyAt newBottom current.toKey, false⟩

/-- The loop of `merge`: the merged blocks, and whether the last one has the active block. -/
def mergeLoop (o : Order Key) (activeAnchor : Option Key) :
    Block Key → Bool → List (Block Key) → List (Block Key) × Bool
  | current, hasActive, [] => ([current], hasActive)
  | current, hasActive, next :: rest =>
    if (o.blockRange next).lo ≤ (o.blockRange current).hi + 1 then
      mergeLoop o activeAnchor (o.fused activeAnchor (hasActive || next.active) current next)
        (hasActive || next.active) rest
    else
      let q := mergeLoop o activeAnchor next next.active rest
      (current :: q.1, q.2)

end Order

/-- Make the first such block the active one. -/
def activate (p : Block Key → Bool) : List (Block Key) → List (Block Key)
  | [] => []
  | b :: bs =>
    if p b then { b with active := true } :: bs.map ({ · with active := false })
    else { b with active := false } :: activate p bs

namespace DndSelection

def activeBlock (s : DndSelection Key) : Option (Block Key) := s.blocks.find? (·.active)

def merge (s : DndSelection Key) : DndSelection Key :=
  if s.blocks.length ≤ 1 then s
  else match sortBy s.order.byTop s.blocks with
    | [] => s
    | first :: rest =>
      let q := s.order.mergeLoop (s.activeBlock.map (·.anchor)) first first.active rest
      { s with blocks :=
          if q.2 ∨ ¬q.1.any (·.active) then
            -- the active block is the one that has its top now
            match s.activeBlock with
            | some b => activate (fun m => (s.order.blockRange b).lo ∈ s.order.blockRange m) q.1
            | none => q.1
          else q.1 }

/-! ## Operations -/

def keyInBlock (o : Order Key) (key : Key) (b : Block Key) : Bool :=
  match o.index key with
  | none => false
  | some i => i ∈ o.blockRange b

def isSelected (s : DndSelection Key) (key : Key) : Bool :=
  s.blocks.any (keyInBlock s.order key)

/-- The selected keys, block by block. -/
def getSelectedKeys (s : DndSelection Key) : List Key :=
  s.blocks.flatMap fun b =>
    let r := s.order.blockRange b
    (List.range' r.lo (r.hi + 1 - r.lo)).filterMap (s.order.keys[·]?)

def updateOrder (s : DndSelection Key) (order : Order Key) : DndSelection Key :=
  { s with order := order }

def selectOnly (s : DndSelection Key) (item : Key) : DndSelection Key :=
  { s with blocks := [⟨item, item, true⟩] }

def addBlock (s : DndSelection Key) (item : Key) : DndSelection Key :=
  merge { s with blocks := s.blocks.map ({ · with active := false }) ++ [⟨item, item, true⟩] }

/-- The item is on the other side of the anchor. -/
def pivots (o : Order Key) (b : Block Key) (item : Key) : Bool :=
  match o.index b.anchor, o.index b.toKey, o.index item with
  | some a, some t, some i => a ≠ t ∧ Int.sign (i - a) = -Int.sign (t - a)
  | _, _, _ => false

/-- The block to the item: a flip pivots it. -/
def extend (o : Order Key) (b : Block Key) (item : Key) : Block Key :=
  { b with anchor := if pivots o b item then b.toKey else b.anchor, toKey := item }

def extendActive (s : DndSelection Key) (item : Key) : DndSelection Key :=
  match s.activeBlock with
  | none => s.selectOnly item
  | some _ => merge
      { s with blocks := s.blocks.map fun b => if b.active then extend s.order b item else b }

/-- A block without a row. -/
def removeRow (o : Order Key) (x : ℕ) (b : Block Key) : List (Block Key) :=
  let r := o.blockRange b
  if x < r.lo ∨ r.hi < x then [b]
  else if r.lo = r.hi then []
  else if x = r.lo then
    [{ b with anchor := o.keyAt (r.lo + 1) b.anchor, toKey := o.keyAt r.hi b.toKey }]
  else if x = r.hi then
    [{ b with anchor := o.keyAt r.lo b.anchor, toKey := o.keyAt (r.hi - 1) b.toKey }]
  else
    [⟨o.keyAt r.lo b.anchor, o.keyAt (x - 1) b.toKey, false⟩,
      ⟨o.keyAt (x + 1) b.anchor, o.keyAt r.hi b.toKey, b.active⟩]

/-- How far the nearer end of a block is from a row. -/
def distance (o : Order Key) (x : ℕ) (b : Block Key) : ℕ :=
  let r := o.blockRange b
  min ((r.lo - x) + (x - r.lo)) ((r.hi - x) + (x - r.hi))

def removeItem (s : DndSelection Key) (item : Key) : DndSelection Key :=
  match s.order.index item with
  | none => s
  | some x =>
    let newBlocks := s.blocks.flatMap (removeRow s.order x)
    { s with blocks :=
        if newBlocks.any (·.active) then newBlocks
        else activate (fun b => some (distance s.order x b) =
          (newBlocks.map (distance s.order x)).min?) newBlocks }

def toggleItem (s : DndSelection Key) (item : Key) : DndSelection Key :=
  if s.isSelected item then s.removeItem item else s.addBlock item

/-- One block per key, the last one active. -/
def setSelectedKeys (s : DndSelection Key) (keys : List Key) : DndSelection Key :=
  merge { s with blocks := (keys.dropLast.map fun k => ⟨k, k, false⟩) ++
    keys.getLast?.toList.map fun k => ⟨k, k, true⟩ }

end DndSelection

/-- What is done to a selection. -/
inductive SelectOp (Key : Type)
  | selectOnly (item : Key)
  | addBlock (item : Key)
  | extendActive (item : Key)
  | toggleItem (item : Key)
  | setSelectedKeys (keys : List Key)
  | updateOrder (order : Order Key)

namespace SelectOp

/-- The keys are rows of the order. -/
def Legal (o : Order Key) : SelectOp Key → Prop
  | selectOnly item | addBlock item | extendActive item | toggleItem item => item ∈ o.keys
  | setSelectedKeys keys => ∀ key ∈ keys, key ∈ o.keys
  | updateOrder _ => True

instance decLegal (o : Order Key) (op : SelectOp Key) : Decidable (op.Legal o) :=
  match op with
  | selectOnly item | addBlock item | extendActive item | toggleItem item =>
    inferInstanceAs (Decidable (item ∈ o.keys))
  | setSelectedKeys keys => inferInstanceAs (Decidable (∀ key ∈ keys, key ∈ o.keys))
  | updateOrder _ => inferInstanceAs (Decidable True)

def apply (s : DndSelection Key) : SelectOp Key → DndSelection Key
  | selectOnly item => s.selectOnly item
  | addBlock item => s.addBlock item
  | extendActive item => s.extendActive item
  | toggleItem item => s.toggleItem item
  | setSelectedKeys keys => s.setSelectedKeys keys
  | updateOrder order => s.updateOrder order

end SelectOp

/-! ## Rows and ranges -/

namespace Order

variable {o : Order Key} {k anchor : Key} {i x : ℕ} {a? : Option Key} {hasActive mark : Bool}
  {b current next : Block Key} {rest : List (Block Key)}

theorem index_eq_some : o.index k = some i ↔ o.keys[i]? = some k := by
  rw [index, List.idxOf?_eq_some_iff]
  constructor
  · rintro ⟨hi, rfl, -⟩
    exact List.getElem?_eq_getElem hi
  · intro h
    obtain ⟨hi, rfl⟩ := List.getElem?_eq_some_iff.1 h
    refine ⟨hi, rfl, fun j hj heq => ?_⟩
    exact hj.ne ((List.Nodup.getElem_inj_iff o.nodup).1 heq)

theorem index_lt (h : o.index k = some i) : i < o.keys.length :=
  (List.getElem?_eq_some_iff.1 (index_eq_some.1 h)).1

theorem index_of_mem (h : k ∈ o.keys) : ∃ i, o.index k = some i := by
  obtain ⟨i, hi⟩ := List.getElem?_of_mem h
  exact ⟨i, index_eq_some.2 hi⟩

theorem index_keyAt (h : i < o.keys.length) (k : Key) : o.index (o.keyAt i k) = some i := by
  rw [index_eq_some, keyAt, List.getD_eq_getElem?_getD, List.getElem?_eq_getElem h,
    Option.getD_some]

theorem getD_index_lt (h : 0 < o.keys.length) (k : Key) : (o.index k).getD 0 < o.keys.length := by
  cases hk : o.index k with
  | none => exact h
  | some i => exact index_lt hk

theorem blockRange_hi_lt (h : 0 < o.keys.length) (b : Block Key) :
    (o.blockRange b).hi < o.keys.length :=
  max_lt (getD_index_lt h _) (getD_index_lt h _)

theorem mem_blockRange_lt (h : 0 < o.keys.length) (hi : i ∈ o.blockRange b) : i < o.keys.length :=
  hi.2.trans_lt (blockRange_hi_lt h b)

/-- An anchor with a row is an end of its block. -/
theorem anchor_end (h : o.index b.anchor = some x) :
    x ∈ o.blockRange b ∧ (x = (o.blockRange b).lo ∨ x = (o.blockRange b).hi) := by
  rw [blockRange, Stretch.mem_def, Stretch.between, h]
  show (min x _ ≤ x ∧ x ≤ max x _) ∧ (x = min x _ ∨ x = max x _)
  omega

/-- A block whose anchor has no row begins with the first row. -/
theorem blockRange_lo (h : o.index b.anchor = none) : (o.blockRange b).lo = 0 := by
  rw [blockRange, Stretch.between, h]
  exact Nat.zero_min _

theorem blockRange_single (h : o.index k = some x) (a : Bool) :
    o.blockRange ⟨k, k, a⟩ = .single x := by
  rw [blockRange, h, Stretch.ext_iff]
  exact ⟨min_self x, max_self x⟩

/-- The rows of a block of two keys. -/
theorem blockRange_keyAt {j : ℕ} (hi : i < o.keys.length) (hj : j < o.keys.length) (k k' : Key)
    (a : Bool) : o.blockRange ⟨o.keyAt i k, o.keyAt j k', a⟩ = .between i j := by
  rw [blockRange, index_keyAt hi, index_keyAt hj]
  rfl

/-- The blocks' rows, and whether they are active. -/
def marked (o : Order Key) (bs : List (Block Key)) : List (Stretch × Bool) :=
  bs.map fun b => (o.blockRange b, b.active)

/-- What two blocks are fused to has the rows that are joined. -/
theorem blockRange_fused (hne : 0 < o.keys.length) (htouch : (o.blockRange next).lo ≤
      (o.blockRange current).hi + 1)
    (h : Fusible (a?.bind o.index)
      ((o.blockRange current, hasActive) :: (o.blockRange next, mark) :: o.marked rest))
    (habsent : (hasActive || mark) = true → ∀ a ∈ a?, o.index a = none →
      (o.blockRange current).lo = 0) :
    o.blockRange (o.fused a? (hasActive || mark) current next) =
      joined (a?.bind o.index) (o.blockRange current) (hasActive || mark) (o.blockRange next) := by
  have hlo := (o.blockRange current).le.trans_lt (blockRange_hi_lt hne current)
  have hhi : max (o.blockRange current).hi (o.blockRange next).hi < o.keys.length :=
    max_lt (blockRange_hi_lt hne _) (blockRange_hi_lt hne _)
  have hle : (o.blockRange current).lo ≤
      max (o.blockRange current).hi (o.blockRange next).hi :=
    (o.blockRange current).le.trans (le_max_left _ _)
  have hjoin : Stretch.between (o.blockRange current).lo
      (max (o.blockRange current).hi (o.blockRange next).hi) =
      (o.blockRange current).join (o.blockRange next) :=
    Stretch.ext (min_eq_left hle) (max_eq_right hle)
  have hstop := fun hm x => h.stop_mem (x := x) htouch hm
  have hplain : o.blockRange ⟨o.keyAt (o.blockRange current).lo current.anchor,
      o.keyAt (max (o.blockRange current).hi (o.blockRange next).hi) current.toKey, false⟩ =
      (o.blockRange current).join (o.blockRange next) := by
    rw [blockRange_keyAt hlo hhi, hjoin]
  unfold fused joined
  cases hm : hasActive || mark with
  | false => exact hplain
  | true =>
    cases a? with
    | none => exact hplain
    | some a =>
      rw [hm] at habsent
      show o.blockRange ⟨a, o.keyAt (if (o.index a).getD (o.blockRange current).lo =
        (o.blockRange current).lo then max (o.blockRange current).hi (o.blockRange next).hi else
        (o.blockRange current).lo) current.toKey, false⟩ = (o.index a).elim _ _
      cases hx : o.index a with
      | none =>
        -- the anchor has no row: the block goes on to begin with the first one
        have htop := habsent rfl a rfl hx
        rw [Option.getD_none, if_pos rfl, blockRange, hx, index_keyAt hhi, Option.elim_none,
          ← hjoin, htop]
        rfl
      | some x =>
        have hmem := hstop hm x hx
        have hbelow := Stretch.stopAt_of_le (x := x)
          (s := (o.blockRange current).join (o.blockRange next))
        have habove := Stretch.stopAt_of_lt (x := x)
          (s := (o.blockRange current).join (o.blockRange next))
        rw [Option.getD_some, blockRange, hx, Option.elim_some]
        by_cases htop : x = (o.blockRange current).lo
        · rw [if_pos htop, index_keyAt hhi, hbelow htop.le, ← hjoin, htop]
          rfl
        · have hlt : (o.blockRange current).lo < x := lt_of_le_of_ne hmem.1 (Ne.symm htop)
          rw [if_neg htop, index_keyAt hlo, habove hlt]
          exact Stretch.ext (min_eq_right hlt.le) (max_eq_left hlt.le)

/-- **The loop is `fuse`** on the rows. -/
theorem ranges_mergeLoop (hne : 0 < o.keys.length)
    (h : Fusible (a?.bind o.index) ((o.blockRange current, hasActive) :: o.marked rest))
    (hcurrent : hasActive = true → ∀ a ∈ a?, o.index a = none → (o.blockRange current).lo = 0)
    (hrest : ∀ b ∈ rest, b.active = true → ∀ a ∈ a?, o.index a = none → (o.blockRange b).lo = 0) :
    (o.mergeLoop a? current hasActive rest).1.map o.blockRange =
      fuse (a?.bind o.index) (o.blockRange current) hasActive (o.marked rest) := by
  induction rest generalizing current hasActive with
  | nil => rfl
  | cons next rest ih =>
    obtain ⟨hnext, hrest⟩ := List.forall_mem_cons.1 hrest
    have hle : (o.blockRange current).lo ≤ (o.blockRange next).lo := h.le_next
    have habsent : (hasActive || next.active) = true → ∀ a ∈ a?, o.index a = none →
        (o.blockRange current).lo = 0 := fun hm a ha hnone => by
      rcases (Bool.or_eq_true _ _).mp hm with hm | hm
      · exact hcurrent hm a ha hnone
      · exact Nat.le_zero.1 (hle.trans (hnext hm a ha hnone).le)
    rw [mergeLoop]
    by_cases htouch : (o.blockRange next).lo ≤ (o.blockRange current).hi + 1
    · have hfused := blockRange_fused hne htouch h habsent
      have hjoin := h.join htouch
      rw [← hfused] at hjoin
      have hlo := joined_lo (a?.bind o.index) (o.blockRange current) (hasActive || next.active)
        (o.blockRange next)
      rw [← hfused] at hlo
      rw [if_pos htouch, ih hjoin (fun hm a ha hnone => hlo.trans (habsent hm a ha hnone)) hrest,
        hfused]
      exact (fuse_join htouch).symm
    · rw [if_neg htouch]
      show o.blockRange current :: _ = _
      rw [ih h.tail hnext hrest]
      exact (fuse_apart htouch).symm

/-- The loop makes no block the active one. -/
theorem filter_mergeLoop (o : Order Key) (a? : Option Key) (current : Block Key)
    (hasActive : Bool) (rest : List (Block Key)) :
    ((o.mergeLoop a? current hasActive rest).1.filter (·.active)).Sublist
      ((current :: rest).filter (·.active)) := by
  induction rest generalizing current hasActive with
  | nil => exact List.Sublist.refl _
  | cons next rest ih =>
    rw [mergeLoop]
    split
    · have hfused : (o.fused a? (hasActive || next.active) current next).active = false := by
        unfold fused
        split <;> rfl
      refine (ih _ _).trans ?_
      rw [List.filter_cons_of_neg (by rw [hfused]; exact Bool.false_ne_true)]
      exact ((List.sublist_cons_self _ _).trans (List.sublist_cons_self _ _)).filter _
    · rw [List.filter_cons, List.filter_cons]
      split
      · exact (ih _ _).cons_cons current
      · exact ih _ _

end Order

section Activate

variable {p : Block Key → Bool} {bs : List (Block Key)}

theorem ranges_activate (o : Order Key) (p : Block Key → Bool) (bs : List (Block Key)) :
    (activate p bs).map o.blockRange = bs.map o.blockRange := by
  induction bs with
  | nil => rfl
  | cons b bs ih =>
    rw [activate]
    split
    · rw [List.map_cons, List.map_cons, List.map_map]
      rfl
    · rw [List.map_cons, List.map_cons, ih]
      rfl

omit [DecidableEq Key] in
/-- One block is made active where there is such a block. -/
theorem filter_activate (h : ∃ b ∈ bs, p b = true) :
    ∃ b, (activate p bs).filter (·.active) = [b] := by
  induction bs with
  | nil =>
    obtain ⟨b, hb, -⟩ := h
    exact absurd hb List.not_mem_nil
  | cons b bs ih =>
    rw [activate]
    by_cases hp : p b = true
    · refine ⟨{ b with active := true }, ?_⟩
      rw [if_pos hp, List.filter_cons_of_pos rfl, List.filter_map]
      have hnone : bs.filter ((fun c : Block Key => c.active) ∘ ({ · with active := false })) =
          [] := List.filter_eq_nil_iff.2 fun _ _ => Bool.false_ne_true
      rw [hnone]
      rfl
    · rw [if_neg hp, List.filter_cons_of_neg Bool.false_ne_true]
      obtain ⟨c, hc, hpc⟩ := h
      rcases List.mem_cons.1 hc with rfl | hc
      · exact absurd hpc hp
      · exact ih ⟨c, hc, hpc⟩

end Activate

namespace DndSelection

variable {s : DndSelection Key} {act b : Block Key} {i x : ℕ} {key : Key}

/-- The rows of the blocks. -/
def ranges (s : DndSelection Key) : List Stretch := s.blocks.map s.order.blockRange

/-- It is the active block, and the only one. -/
def Activated (s : DndSelection Key) (act : Block Key) : Prop :=
  s.blocks.filter (·.active) = [act]

namespace Activated

variable (h : s.Activated act)

include h

omit [DecidableEq Key] in
theorem activeBlock : s.activeBlock = some act := by
  rw [DndSelection.activeBlock, ← List.head?_filter, h]
  rfl

omit [DecidableEq Key] in
theorem mem : act ∈ s.blocks ∧ act.active = true :=
  List.mem_filter.1 (h ▸ List.mem_cons_self)

omit [DecidableEq Key] in
theorem eq_of_mem (hb : b ∈ s.blocks) (hactive : b.active = true) : b = act :=
  List.mem_singleton.1 (h ▸ List.mem_filter.2 ⟨hb, hactive⟩)

/-- The blocks in the order of their rows can be fused. -/
theorem fusible {bs : List (Block Key)} (hperm : bs.Perm s.blocks)
    (hsorted : bs.Pairwise fun b c => (s.order.blockRange b).lo ≤ (s.order.blockRange c).lo) :
    Fusible (s.order.index act.anchor) (s.order.marked bs) := by
  refine ⟨List.pairwise_map.2 hsorted, fun r hr x hx => ?_⟩
  obtain ⟨b, hb, heq⟩ := List.mem_map.1 hr
  obtain ⟨rfl, hactive⟩ := Prod.mk.inj heq
  obtain rfl := h.eq_of_mem (hperm.mem_iff.1 hb) hactive
  exact Order.anchor_end hx

end Activated

theorem merge_order (s : DndSelection Key) : s.merge.order = s.order := by
  unfold merge
  split
  · rfl
  · split <;> rfl

/-- **Merging fuses the rows**, with the active anchor as the stop. -/
theorem ranges_merge (h : s.Activated act) (hne : 0 < s.order.keys.length) :
    ∃ first rest, (first :: rest).Perm s.blocks ∧
      Fusible (s.order.index act.anchor) (s.order.marked (first :: rest)) ∧
      s.merge.ranges = fuse (s.order.index act.anchor) (s.order.blockRange first) first.active
        (s.order.marked rest) ∧ ∃ act', s.merge.Activated act' := by
  have hmem := h.mem
  by_cases hlen : s.blocks.length ≤ 1
  · have hsingle : s.blocks = [act] := by
      rcases hblocks : s.blocks with - | ⟨b, bs⟩
      · rw [hblocks] at hmem
        exact absurd hmem.1 List.not_mem_nil
      · rw [hblocks] at hmem hlen
        obtain rfl := List.length_eq_zero_iff.1 (Nat.le_zero.1 (Nat.le_of_succ_le_succ hlen))
        rw [List.mem_singleton.1 hmem.1]
    have hmerge : s.merge = s := if_pos hlen
    refine ⟨act, [], hsingle ▸ List.Perm.refl _, ?_, ?_, act, by rw [hmerge]; exact h⟩
    · exact h.fusible (hsingle ▸ List.Perm.refl _) (List.pairwise_singleton _ _)
    · rw [hmerge, ranges, hsingle]
      rfl
  · have hpair : (sortBy s.order.byTop s.blocks).Pairwise fun b c => (s.order.byTop b c).isLE :=
      sortBy_pairwise
    have hsorted : (sortBy s.order.byTop s.blocks).Pairwise
        fun b c => (s.order.blockRange b).lo ≤ (s.order.blockRange c).lo :=
      hpair.imp fun hle => Nat.isLE_compare.1 hle
    have hperm : (sortBy s.order.byTop s.blocks).Perm s.blocks := List.perm_insertionSort _ _
    rcases hl : sortBy s.order.byTop s.blocks with - | ⟨first, rest⟩
    · rw [hl] at hperm
      rw [← hperm.length_eq] at hlen
      exact absurd (Nat.zero_le 1) hlen
    · rw [hl] at hsorted hperm
      have hfusible := h.fusible hperm hsorted
      have habsent : ∀ b ∈ first :: rest, b.active = true → ∀ a ∈ some act.anchor,
          s.order.index a = none → (s.order.blockRange b).lo = 0 := by
        intro b hb hactive a ha hnone
        obtain rfl := h.eq_of_mem (hperm.mem_iff.1 hb) hactive
        rw [← Option.some.inj ha] at hnone
        exact Order.blockRange_lo hnone
      obtain ⟨hfirst, hrest⟩ := List.forall_mem_cons.1 habsent
      have hranges : (s.order.mergeLoop (some act.anchor) first first.active rest).1.map _ =
          fuse (s.order.index act.anchor) _ _ _ :=
        Order.ranges_mergeLoop hne hfusible hfirst hrest
      -- the top row of the active block is kept
      have hkept : ∃ m ∈ (s.order.mergeLoop (some act.anchor) first first.active rest).1,
          (s.order.blockRange act).lo ∈ s.order.blockRange m := by
        have hmarked : (s.order.blockRange act, act.active) ∈ s.order.marked (first :: rest) :=
          List.mem_map.2 ⟨act, hperm.mem_iff.2 hmem.1, rfl⟩
        rcases covers_fuse hfusible hmarked ⟨le_rfl, (s.order.blockRange act).le⟩ with
          hcovers | ⟨x, hx, hlt, -⟩
        · obtain ⟨r, hr, htop⟩ := hcovers
          obtain ⟨m, hm, rfl⟩ := List.mem_map.1 (hranges ▸ hr)
          exact ⟨m, hm, htop⟩
        · exact absurd (Order.anchor_end hx).1.1 (Nat.not_le_of_lt hlt)
      refine ⟨first, rest, hperm, hfusible, ?_, ?_⟩
      · rw [ranges, merge_order, ← hranges, merge, if_neg hlen, hl, h.activeBlock]
        dsimp only [Option.map_some]
        split
        · exact ranges_activate _ _ _
        · rfl
      · have hfilter := hperm.filter (·.active)
        rw [show s.blocks.filter (·.active) = [act] from h, List.perm_singleton] at hfilter
        have hsub := Order.filter_mergeLoop s.order (some act.anchor) first first.active rest
        rw [hfilter] at hsub
        show ∃ act', s.merge.blocks.filter (·.active) = [act']
        rw [merge, if_neg hlen, hl, h.activeBlock]
        dsimp only [Option.map_some]
        split
        · refine filter_activate (hkept.imp fun m hm => ⟨hm.1, decide_eq_true hm.2⟩)
        · rename_i hany
          rw [not_or, not_not] at hany
          obtain ⟨m, hm, hactive⟩ := List.any_eq_true.1 hany.2
          refine ⟨act, hsub.eq_of_length_le ?_⟩
          exact List.length_pos_of_mem (List.mem_filter.2 ⟨hm, hactive⟩)

theorem covers_marked {bs : List (Block Key)} (h : bs.Perm s.blocks) :
    CoversMarked (s.order.marked bs) i ↔ Covers s.ranges i := by
  simp only [CoversMarked, Order.marked, Covers, ranges, List.map_map, List.mem_map,
    Function.comp_apply, h.mem_iff]

section Merge

variable (h : s.Activated act) (hne : 0 < s.order.keys.length)

include h hne

theorem apart_merge : Apart s.merge.ranges := by
  obtain ⟨first, rest, -, hfusible, hranges, -⟩ := ranges_merge h hne
  rw [hranges]
  exact (apart_fuse hfusible).1

theorem covers_of_merge (hi : Covers s.merge.ranges i) : Covers s.ranges i := by
  obtain ⟨first, rest, hperm, hfusible, hranges, -⟩ := ranges_merge h hne
  rw [hranges] at hi
  exact (covers_marked hperm).1 (covers_of_fuse hfusible hi)

/-- A row of a block is kept, unless it is behind the anchor and the row before the anchor is
selected too. -/
theorem covers_merge (hb : b ∈ s.blocks) (hi : i ∈ s.order.blockRange b) :
    Covers s.merge.ranges i ∨ ∃ j, s.order.index act.anchor = some (j + 1) ∧ Covers s.ranges j ∧
      j + 2 ∈ s.order.blockRange b := by
  obtain ⟨first, rest, hperm, hfusible, hranges, -⟩ := ranges_merge h hne
  rw [hranges]
  have hmarked : (s.order.blockRange b, b.active) ∈ s.order.marked (first :: rest) :=
    List.mem_map.2 ⟨b, hperm.mem_iff.2 hb, rfl⟩
  rcases covers_fuse hfusible hmarked hi with hcovers | ⟨x, hx, hlt, hlo, ⟨j, rfl, hj⟩, -⟩
  · exact .inl hcovers
  · exact .inr ⟨j, hx, (covers_marked hperm).1 hj, hlo, (Nat.succ_le_of_lt hlt).trans hi.2⟩

/-- The row behind the anchor is lost where the one before it is selected. -/
theorem not_covers_merge {j : ℕ} (hj : s.order.index act.anchor = some (j + 1))
    (hbefore : Covers s.ranges j) : ¬Covers s.merge.ranges (j + 2) := by
  obtain ⟨first, rest, hperm, hfusible, hranges, -⟩ := ranges_merge h hne
  rw [hranges]
  have hmarked : (s.order.blockRange act, true) ∈ s.order.marked (first :: rest) :=
    List.mem_map.2 ⟨act, hperm.mem_iff.2 h.mem.1, by rw [h.mem.2]⟩
  exact not_covers_fuse hfusible hj ⟨_, hmarked⟩ ((covers_marked hperm).2 hbefore)

end Merge

/-! ## Selected keys -/

theorem keyInBlock_iff {o : Order Key} :
    keyInBlock o key b = true ↔ ∃ i, o.index key = some i ∧ i ∈ o.blockRange b := by
  unfold keyInBlock
  cases o.index key with
  | none => simp
  | some i => simp

theorem isSelected_iff :
    s.isSelected key = true ↔ ∃ i, s.order.index key = some i ∧ Covers s.ranges i := by
  simp only [isSelected, List.any_eq_true, keyInBlock_iff, Covers, ranges, List.mem_map,
    exists_exists_and_eq_and]
  constructor
  · rintro ⟨b, hb, i, hi, hmem⟩
    exact ⟨i, hi, b, hb, hmem⟩
  · rintro ⟨i, hi, b, hb, hmem⟩
    exact ⟨b, hb, i, hi, hmem⟩

/-- **The selected keys**, read block by block, are those that are selected. -/
theorem mem_getSelectedKeys : key ∈ s.getSelectedKeys ↔ s.isSelected key = true := by
  simp only [getSelectedKeys, isSelected, List.mem_flatMap, List.any_eq_true, keyInBlock_iff,
    List.mem_filterMap, List.mem_range'_1, ← Order.index_eq_some]
  refine exists_congr fun b => and_congr_right fun _ => exists_congr fun i => ?_
  have hle := (s.order.blockRange b).le
  rw [Stretch.mem_def, and_comm]
  refine and_congr_right fun _ => ?_
  omega

/-- A covered row has a key. -/
theorem exists_key (hne : 0 < s.order.keys.length) (h : Covers s.ranges i) :
    ∃ key, s.order.index key = some i := by
  obtain ⟨r, hr, hi⟩ := h
  obtain ⟨b, -, rfl⟩ := List.mem_map.1 hr
  have hlt := Order.mem_blockRange_lt hne hi
  exact ⟨_, Order.index_eq_some.2 (List.getElem?_eq_getElem hlt)⟩

end DndSelection

/-! ## What the operations are for -/

/-- A key with such keys in the rows above and below. -/
def Order.Flanked (o : Order Key) (above below : Key → Prop) (key : Key) : Prop :=
  ∃ i a b, o.index a = some i ∧ o.index key = some (i + 1) ∧ o.index b = some (i + 2) ∧
    above a ∧ below b

namespace DndSelection

/-- Selected in a block that is not the active one. -/
def SelectedByOther (s : DndSelection Key) (key : Key) : Prop :=
  ∃ b ∈ s.blocks, b.active = false ∧ keyInBlock s.order key b = true

/-- Between two ends of a block, in an order that has both. -/
def BetweenEnds (s : DndSelection Key) (o : Order Key) (key : Key) : Prop :=
  ∃ b ∈ s.blocks, b.anchor ∈ o.keys ∧ b.toKey ∈ o.keys ∧ keyInBlock o key b = true

/-- **The operation acts on a set**: selecting leaves blocks that are in order, disjoint and not
adjacent, and selects what it should; a new order adds nothing but what has come to lie in a
block. -/
def ActsAsSet (s : DndSelection Key) (op : SelectOp Key) : Prop :=
  let s' := op.apply s
  match op with
  | .selectOnly item => Apart s'.ranges ∧ ∀ key, s'.isSelected key = true ↔ key = item
  | .addBlock item =>
    Apart s'.ranges ∧ ∀ key, s'.isSelected key = true ↔ s.isSelected key = true ∨ key = item
  | .extendActive _ =>
    Apart s'.ranges ∧ ∀ key, s.SelectedByOther key → s'.isSelected key = true
  | .toggleItem item =>
    Apart s'.ranges ∧ ∀ key, s'.isSelected key = true ↔ Xor (s.isSelected key = true) (key = item)
  | .setSelectedKeys keys => Apart s'.ranges ∧ ∀ key, s'.isSelected key = true ↔ key ∈ keys
  | .updateOrder order =>
    ∀ key, s'.isSelected key = true → s.isSelected key = true ∨ s.BetweenEnds order key

/-- The condition for it.  No block is fused on both sides of its anchor; no key is taken out while
other blocks touch; and where an order lacks an end of a block, the rows from the first one to the
end it has are selected anyway. -/
def Safe (s : DndSelection Key) : SelectOp Key → Prop
  | .selectOnly _ => True
  | .addBlock item => ¬s.order.Flanked (s.isSelected ·) (s.isSelected ·) item
  | .extendActive item => ∀ act ∈ s.activeBlock,
    ¬s.order.Flanked
      (fun key => keyInBlock s.order key (extend s.order act item) ∨ s.SelectedByOther key)
      s.SelectedByOther (extend s.order act item).anchor
  | .toggleItem item =>
    if s.isSelected item then ∀ x ∈ s.order.index item, ApartBut x s.ranges
    else ¬s.order.Flanked (s.isSelected ·) (s.isSelected ·) item
  | .setSelectedKeys keys => ∀ item ∈ keys.getLast?, ¬s.order.Flanked (· ∈ keys) (· ∈ keys) item
  | .updateOrder order => ∀ b ∈ s.blocks, ¬(b.anchor ∈ order.keys ∧ b.toKey ∈ order.keys) →
    ∀ key i, order.index key = some i →
      (i = 0 ∨ ∃ j, (order.index b.anchor = some j ∨ order.index b.toKey = some j) ∧ i ≤ j) →
      s.isSelected key = true ∨ s.BetweenEnds order key

end DndSelection

namespace DndSelection

variable {s : DndSelection Key} {act b : Block Key} {i x : ℕ} {key item : Key}

omit [DecidableEq Key] in
theorem isActivated_push (o : Order Key) {l : List (Block Key)} (hl : ∀ b ∈ l, b.active = false)
    (item : Key) :
    (⟨o, l ++ [⟨item, item, true⟩]⟩ : DndSelection Key).Activated ⟨item, item, true⟩ := by
  rw [Activated, List.filter_append, List.filter_eq_nil_iff.2 fun b hb => by simp [hl b hb]]
  rfl

theorem flanked_congr {o : Order Key} {p p' q q' : Key → Prop}
    (hp : ∀ k, k ≠ item → (p k ↔ p' k)) (hq : ∀ k, k ≠ item → (q k ↔ q' k)) :
    o.Flanked p q item ↔ o.Flanked p' q' item := by
  refine exists_congr fun i => exists_congr fun a => exists_congr fun b =>
    and_congr_right fun ha => and_congr_right fun hitem => and_congr_right fun hb =>
    and_congr (hp a ?_) (hq b ?_)
  · rintro rfl
    rw [ha, Option.some.injEq] at hitem
    omega
  · rintro rfl
    rw [hb, Option.some.injEq] at hitem
    omega

/-- **Merging keeps the keys of blocks** unless the rows on both sides of the active anchor are
selected, the one behind by them. -/
theorem merge_keeps_iff (h : s.Activated act) (hne : 0 < s.order.keys.length)
    (p : Block Key → Prop) :
    (∀ key, (∃ b ∈ s.blocks, p b ∧ keyInBlock s.order key b = true) →
        s.merge.isSelected key = true) ↔
      ¬s.order.Flanked (s.isSelected ·)
        (fun key => ∃ b ∈ s.blocks, p b ∧ keyInBlock s.order key b = true) act.anchor := by
  constructor
  · rintro hkeeps ⟨j, a, c, ha, hanchor, hc, hsel, hp⟩
    obtain ⟨j', hj', hbefore⟩ := isSelected_iff.1 hsel
    rw [ha, Option.some.injEq] at hj'
    obtain ⟨i, hi, hafter⟩ := isSelected_iff.1 (hkeeps c hp)
    rw [merge_order, hc, Option.some.injEq] at hi
    subst hi hj'
    exact not_covers_merge h hne hanchor hbefore hafter
  · rintro hflanked key ⟨b, hb, hpb, hkey⟩
    obtain ⟨i, hi, hmem⟩ := keyInBlock_iff.1 hkey
    rcases covers_merge h hne hb hmem with hcovers | ⟨j, hanchor, hbefore, hbehind⟩
    · exact isSelected_iff.2 ⟨i, by rw [merge_order]; exact hi, hcovers⟩
    · obtain ⟨a, ha⟩ := exists_key hne hbefore
      obtain ⟨c, hc⟩ := exists_key hne
        (show Covers s.ranges (j + 2) from ⟨_, List.mem_map.2 ⟨b, hb, rfl⟩, hbehind⟩)
      exact absurd ⟨j, a, c, ha, hanchor, hc, isSelected_iff.2 ⟨j, ha, hbefore⟩, b, hb, hpb,
        keyInBlock_iff.2 ⟨j + 2, hc, hbehind⟩⟩ hflanked

theorem isSelected_of_merge (h : s.Activated act) (hne : 0 < s.order.keys.length)
    (hkey : s.merge.isSelected key = true) : s.isSelected key = true := by
  obtain ⟨i, hi, hcovers⟩ := isSelected_iff.1 hkey
  rw [merge_order] at hi
  exact isSelected_iff.2 ⟨i, hi, covers_of_merge h hne hcovers⟩

/-- Merging keeps the selected keys unless the active anchor has selected rows on both sides. -/
theorem isSelected_merge_iff (h : s.Activated act) (hne : 0 < s.order.keys.length) :
    (∀ key, s.merge.isSelected key = true ↔ s.isSelected key = true) ↔
      ¬s.order.Flanked (s.isSelected ·) (s.isSelected ·) act.anchor := by
  have hall := merge_keeps_iff h hne fun _ => True
  simp only [true_and] at hall
  have hsel : ∀ key, (∃ b ∈ s.blocks, keyInBlock s.order key b = true) ↔ s.isSelected key = true :=
    fun key => List.any_eq_true.symm
  simp only [hsel] at hall
  rw [← hall]
  exact forall_congr' fun key => ⟨Iff.mpr, fun hk => ⟨isSelected_of_merge h hne, hk⟩⟩

/-! ## One operation -/

theorem index_inj {o : Order Key} (h : o.index key = some x) (h' : o.index item = some x) :
    key = item := by
  rw [Order.index_eq_some] at h h'
  exact Option.some.inj (h.symm.trans h')

theorem keyInBlock_single {o : Order Key} (h : item ∈ o.keys) (a : Bool) :
    keyInBlock o key ⟨item, item, a⟩ = true ↔ key = item := by
  obtain ⟨x, hx⟩ := Order.index_of_mem h
  rw [keyInBlock_iff, Order.blockRange_single hx]
  constructor
  · rintro ⟨i, hi, hlo, hhi⟩
    obtain rfl : i = x := le_antisymm hhi hlo
    exact index_inj hi hx
  · rintro rfl
    exact ⟨x, hx, le_rfl, le_rfl⟩

/-- **A block of one key is merged in** exactly where its row does not have selected ones on both
sides. -/
theorem push_iff {o : Order Key} {l : List (Block Key)} (hl : ∀ b ∈ l, b.active = false)
    (hitem : item ∈ o.keys) {p : Key → Prop}
    (hp : ∀ key, p key ↔ (∃ b ∈ l, keyInBlock o key b = true) ∨ key = item) :
    (Apart (merge ⟨o, l ++ [⟨item, item, true⟩]⟩).ranges ∧
      ∀ key, (merge ⟨o, l ++ [⟨item, item, true⟩]⟩).isSelected key = true ↔ p key) ↔
      ¬o.Flanked p p item := by
  have h := isActivated_push o hl item
  have hne : 0 < o.keys.length := List.length_pos_of_mem hitem
  have hsel : ∀ key, (⟨o, l ++ [⟨item, item, true⟩]⟩ : DndSelection Key).isSelected key = true ↔
      p key := fun key => by
    rw [hp, isSelected, List.any_append, Bool.or_eq_true, List.any_eq_true, List.any_cons,
      List.any_nil, Bool.or_false, keyInBlock_single hitem]
  have hmerge := isSelected_merge_iff h hne
  simp only [hsel] at hmerge
  rw [← hmerge]
  exact and_iff_right (apart_merge h hne)

theorem addBlock_iff (h : item ∈ s.order.keys) :
    s.ActsAsSet (.addBlock item) ↔ s.Safe (.addBlock item) := by
  have hinactive : ∀ b ∈ s.blocks.map ({ · with active := false }), b.active = false := by
    intro b hb
    obtain ⟨c, -, rfl⟩ := List.mem_map.1 hb
    rfl
  have hsel : ∀ key, (s.isSelected key = true ∨ key = item) ↔
      (∃ b ∈ s.blocks.map ({ · with active := false }), keyInBlock s.order key b = true) ∨
        key = item := fun key => by
    rw [isSelected, ← List.any_eq_true, List.any_map]
    rfl
  have hflanked : s.order.Flanked (fun key => s.isSelected key = true ∨ key = item)
      (fun key => s.isSelected key = true ∨ key = item) item ↔
      s.order.Flanked (s.isSelected ·) (s.isSelected ·) item :=
    flanked_congr (fun _ hk => or_iff_left hk) fun _ hk => or_iff_left hk
  have hpush := push_iff hinactive h hsel
  rw [hflanked] at hpush
  exact hpush

/-- Taking a row out of a block. -/
theorem ranges_removeRow {o : Order Key} (hne : 0 < o.keys.length) (x : ℕ) (b : Block Key) :
    (removeRow o x b).map o.blockRange = (o.blockRange b).without x := by
  have hle := (o.blockRange b).le
  have hhi := Order.blockRange_hi_lt hne b
  have hat : ∀ {i j : ℕ} (k k' : Key) (a : Bool) (hij : i ≤ j), j ≤ (o.blockRange b).hi →
      o.blockRange ⟨o.keyAt i k, o.keyAt j k', a⟩ = ⟨i, j, hij⟩ := fun k k' a hij hj => by
    rw [Order.blockRange_keyAt ((hij.trans hj).trans_lt hhi) (hj.trans_lt hhi)]
    exact Stretch.ext (min_eq_left hij) (max_eq_right hij)
  unfold removeRow Stretch.without
  dsimp only
  by_cases hout : x < (o.blockRange b).lo ∨ (o.blockRange b).hi < x
  · have hmem : x ∉ o.blockRange b := fun h => by
      rw [Stretch.mem_def] at h
      omega
    rw [if_pos hout, if_neg hmem]
    rfl
  · rw [if_neg hout, if_pos (show x ∈ o.blockRange b by rw [Stretch.mem_def]; omega)]
    by_cases hone : (o.blockRange b).lo = (o.blockRange b).hi
    · rw [if_pos hone, dif_neg (by omega), dif_neg (by omega)]
      rfl
    · rw [if_neg hone]
      by_cases hlo : x = (o.blockRange b).lo
      · subst hlo
        rw [if_pos rfl, dif_neg (by omega), dif_pos (by omega), List.map_singleton,
          hat b.anchor b.toKey b.active (by omega) le_rfl]
        rfl
      · rw [if_neg hlo]
        by_cases hhi' : x = (o.blockRange b).hi
        · subst hhi'
          rw [if_pos rfl, dif_pos (by omega), dif_neg (by omega), List.map_singleton,
            hat b.anchor b.toKey b.active (by omega) (Nat.sub_le _ _)]
          rfl
        · rw [if_neg hhi', dif_pos (by omega), dif_pos (by omega), List.map_cons,
            List.map_singleton, hat b.anchor b.toKey false (by omega) (by omega),
            hat b.anchor b.toKey b.active (by omega) le_rfl]
          rfl

theorem ranges_removeItem (h : s.order.index item = some x) :
    (s.removeItem item).ranges = s.ranges.flatMap (Stretch.without x) := by
  have hne : 0 < s.order.keys.length := Nat.zero_lt_of_lt (Order.index_lt h)
  have hrows : (s.blocks.flatMap (removeRow s.order x)).map s.order.blockRange =
      s.ranges.flatMap (Stretch.without x) := by
    rw [List.map_flatMap, ranges, List.flatMap_map]
    exact List.flatMap_congr fun b _ => ranges_removeRow hne x b
  unfold removeItem
  rw [h]
  dsimp only [ranges]
  split
  · exact hrows
  · rw [ranges_activate]
    exact hrows

theorem order_removeItem (s : DndSelection Key) (item : Key) :
    (s.removeItem item).order = s.order := by
  unfold removeItem
  split <;> rfl

theorem toggleItem_iff (h : item ∈ s.order.keys) :
    s.ActsAsSet (.toggleItem item) ↔ s.Safe (.toggleItem item) := by
  by_cases hsel : s.isSelected item = true
  · obtain ⟨x, hx⟩ := Order.index_of_mem h
    have hranges := ranges_removeItem hx
    have hafter : s.toggleItem item = s.removeItem item := if_pos hsel
    have hkeys : ∀ key, (s.toggleItem item).isSelected key = true ↔
        Xor (s.isSelected key = true) (key = item) := fun key => by
      rw [hafter, isSelected_iff, order_removeItem, hranges]
      simp only [covers_flatMap, covers_without]
      constructor
      · rintro ⟨i, hi, r, hr, hmem, hne⟩
        refine .inl ⟨isSelected_iff.2 ⟨i, hi, r, hr, hmem⟩, ?_⟩
        rintro rfl
        exact hne (Option.some.inj (hi.symm.trans hx))
      · rintro (⟨hkey, hne⟩ | ⟨rfl, hkey⟩)
        · obtain ⟨i, hi, r, hr, hmem⟩ := isSelected_iff.1 hkey
          refine ⟨i, hi, r, hr, hmem, ?_⟩
          rintro rfl
          exact hne (index_inj hi hx)
        · exact absurd hsel hkey
    have hsafe : s.Safe (.toggleItem item) ↔ ApartBut x s.ranges := by
      rw [Safe, if_pos hsel, hx]
      exact ⟨fun hall => hall x rfl, fun hapart y hy => by cases hy; exact hapart⟩
    rw [hsafe, ← apart_without, ← hranges, ← hafter]
    exact and_iff_left hkeys
  · have hafter : s.toggleItem item = s.addBlock item := if_neg hsel
    have hxor : ∀ key, Xor (s.isSelected key = true) (key = item) ↔
        s.isSelected key = true ∨ key = item := fun key => by
      rw [xor_iff_or_and_not_and, and_iff_left]
      rintro ⟨hkey, rfl⟩
      exact hsel hkey
    rw [Safe, if_neg hsel]
    refine Iff.trans ?_ (addBlock_iff h)
    show (Apart (s.toggleItem item).ranges ∧ ∀ key, (s.toggleItem item).isSelected key = true ↔ _) ↔
      _
    rw [hafter]
    exact and_congr_right fun _ => forall_congr' fun key => by rw [hxor]; rfl

theorem setSelectedKeys_concat (s : DndSelection Key) (init : List Key) (last : Key) :
    s.setSelectedKeys (init ++ [last]) =
      merge ⟨s.order, (init.map fun k => ⟨k, k, false⟩) ++ [⟨last, last, true⟩]⟩ := by
  rw [setSelectedKeys, List.dropLast_concat, List.getLast?_concat]
  rfl

theorem setSelectedKeys_iff {keys : List Key} (h : ∀ key ∈ keys, key ∈ s.order.keys) :
    s.ActsAsSet (.setSelectedKeys keys) ↔ s.Safe (.setSelectedKeys keys) := by
  rcases List.eq_nil_or_concat' keys with rfl | ⟨init, last, rfl⟩
  · have hempty : s.ActsAsSet (.setSelectedKeys []) :=
      ⟨List.Pairwise.nil, fun key => iff_of_false Bool.false_ne_true List.not_mem_nil⟩
    exact iff_of_true hempty fun item hitem => by cases hitem
  · have hinactive : ∀ b ∈ init.map fun k => (⟨k, k, false⟩ : Block Key), b.active = false :=
      fun b hb => by
        obtain ⟨k, -, rfl⟩ := List.mem_map.1 hb
        rfl
    have hsel : ∀ key, key ∈ init ++ [last] ↔
        (∃ b ∈ init.map fun k => (⟨k, k, false⟩ : Block Key), keyInBlock s.order key b = true) ∨
          key = last := fun key => by
      rw [List.mem_append, List.mem_singleton]
      simp only [List.mem_map, exists_exists_and_eq_and]
      refine or_congr_left ⟨fun hkey => ?_, ?_⟩
      · exact ⟨key, hkey, (keyInBlock_single (h key (List.mem_append_left _ hkey)) _).2 rfl⟩
      · rintro ⟨k, hk, hkey⟩
        rw [keyInBlock_single (h k (List.mem_append_left _ hk))] at hkey
        exact hkey ▸ hk
    have hpush := push_iff hinactive (h last (List.mem_append_right _ List.mem_cons_self)) hsel
    have hsafe : s.Safe (.setSelectedKeys (init ++ [last])) ↔
        ¬s.order.Flanked (· ∈ init ++ [last]) (· ∈ init ++ [last]) last := by
      rw [Safe, List.getLast?_concat]
      exact ⟨fun hall => hall last rfl, fun hlast item hitem => by cases hitem; exact hlast⟩
    rw [hsafe, ← hpush, ← setSelectedKeys_concat]
    exact Iff.rfl

/-- The extended block stays the active one. -/
theorem Activated.extend (h : s.Activated act) (item : Key) :
    (⟨s.order, s.blocks.map fun b => if b.active then DndSelection.extend s.order b item else b⟩ :
      DndSelection Key).Activated (DndSelection.extend s.order act item) := by
  have hactive : ∀ b : Block Key,
      (if b.active then DndSelection.extend s.order b item else b).active = b.active := fun b => by
    split <;> rfl
  show (s.blocks.map _).filter (fun b : Block Key => b.active) = _
  rw [List.filter_map]
  simp only [Function.comp_def, hactive]
  rw [show s.blocks.filter (·.active) = [act] from h, List.map_singleton, if_pos h.mem.2]

theorem extendActive_iff (hinv : s.blocks = [] ∨ ∃ act, s.Activated act)
    (hitem : item ∈ s.order.keys) :
    s.ActsAsSet (.extendActive item) ↔ s.Safe (.extendActive item) := by
  rcases hinv with hempty | ⟨act, hact⟩
  · have hnone : s.activeBlock = none := by
      rw [activeBlock, hempty]
      rfl
    have hacts : s.ActsAsSet (.extendActive item) := by
      constructor
      · show Apart (s.extendActive item).ranges
        rw [extendActive, hnone]
        exact List.pairwise_singleton _ _
      · rintro key ⟨b, hb, -⟩
        rw [hempty] at hb
        exact absurd hb List.not_mem_nil
    refine iff_of_true hacts fun act hact => ?_
    rw [hnone] at hact
    cases hact
  · have hne : 0 < s.order.keys.length := List.length_pos_of_mem hitem
    let t : DndSelection Key :=
      { s with blocks := s.blocks.map fun b => if b.active then extend s.order b item else b }
    have ht : t.Activated (extend s.order act item) := hact.extend item
    have hafter : s.extendActive item = t.merge := by
      rw [extendActive, hact.activeBlock]
    have hother : ∀ key, (∃ b ∈ t.blocks, b.active = false ∧ keyInBlock t.order key b = true) ↔
        s.SelectedByOther key := fun key => by
      constructor
      · rintro ⟨b, hb, hinactive, hkey⟩
        obtain ⟨c, hc, rfl⟩ := List.mem_map.1 hb
        by_cases hc' : c.active = true
        · rw [if_pos hc'] at hinactive
          exact absurd hc' (Bool.eq_false_iff.1 hinactive)
        · rw [if_neg hc'] at hkey
          exact ⟨c, hc, Bool.eq_false_iff.2 hc', hkey⟩
      · rintro ⟨b, hb, hinactive, hkey⟩
        refine ⟨b, List.mem_map.2 ⟨b, hb, ?_⟩, hinactive, hkey⟩
        rw [if_neg (Bool.eq_false_iff.1 hinactive)]
    have hsel : ∀ key, t.isSelected key = true ↔
        keyInBlock s.order key (extend s.order act item) ∨ s.SelectedByOther key := fun key => by
      rw [← hother, isSelected, List.any_eq_true]
      constructor
      · rintro ⟨b, hb, hkey⟩
        by_cases hactive : b.active = true
        · exact .inl (ht.eq_of_mem hb hactive ▸ hkey)
        · exact .inr ⟨b, hb, Bool.eq_false_iff.2 hactive, hkey⟩
      · rintro (hkey | ⟨b, hb, -, hkey⟩)
        · exact ⟨_, ht.mem.1, hkey⟩
        · exact ⟨b, hb, hkey⟩
    have hkeeps := merge_keeps_iff ht hne fun b => b.active = false
    simp only [hother, hsel] at hkeeps
    have hsafe : s.Safe (.extendActive item) ↔ ¬s.order.Flanked
        (fun key => keyInBlock s.order key (extend s.order act item) ∨ s.SelectedByOther key)
        s.SelectedByOther (extend s.order act item).anchor := by
      rw [Safe, hact.activeBlock]
      exact ⟨fun hall => hall act rfl, fun hlast b hb => by cases hb; exact hlast⟩
    rw [hsafe, ← hkeeps, ← hafter]
    refine and_iff_right ?_
    show Apart (s.extendActive item).ranges
    rw [hafter]
    exact apart_merge ht hne

theorem order_index_none {o : Order Key} : o.index key = none ↔ key ∉ o.keys :=
  List.idxOf?_eq_none_iff

theorem updateOrder_iff (order : Order Key) :
    s.ActsAsSet (.updateOrder order) ↔ s.Safe (.updateOrder order) := by
  have hkey : ∀ b : Block Key, b.anchor ∉ order.keys ∨ b.toKey ∉ order.keys → ∀ key,
      keyInBlock order key b = true ↔ ∃ i, order.index key = some i ∧
        (i = 0 ∨ ∃ j, (order.index b.anchor = some j ∨ order.index b.toKey = some j) ∧ i ≤ j) :=
    fun b hb key => by
      rw [keyInBlock_iff]
      refine exists_congr fun i => and_congr_right fun _ => ?_
      have hrows : ∀ p : Option ℕ, i ≤ p.getD 0 ↔ i = 0 ∨ ∃ j, p = some j ∧ i ≤ j := fun p => by
        cases p with
        | none => simp
        | some j =>
          simp only [Option.getD_some, Option.some.injEq, exists_eq_left']
          omega
      rw [Order.blockRange, Stretch.mem_def, Stretch.between]
      rw [← order_index_none, ← order_index_none] at hb
      rcases hb with hb | hb
      · simp [hb, hrows]
      · simp [hb, hrows]
  constructor
  · intro hacts b hb hends key i hi hrow
    rw [not_and_or] at hends
    exact hacts key (List.any_eq_true.2 ⟨b, hb, (hkey b hends key).2 ⟨i, hi, hrow⟩⟩)
  · intro hsafe key hsel
    obtain ⟨b, hb, hin⟩ := List.any_eq_true.1 hsel
    by_cases hends : b.anchor ∈ order.keys ∧ b.toKey ∈ order.keys
    · exact .inr ⟨b, hb, hends.1, hends.2, hin⟩
    · obtain ⟨i, hi, hrow⟩ := (hkey b (not_and_or.1 hends) key).1 hin
      exact hsafe b hb hends key i hi hrow

theorem selectOnly_acts (h : item ∈ s.order.keys) : s.ActsAsSet (.selectOnly item) := by
  refine ⟨List.pairwise_singleton _ _, fun key => ?_⟩
  show (List.any [_] _) = true ↔ _
  rw [List.any_cons, List.any_nil, Bool.or_false]
  exact keyInBlock_single h true

/-- **One operation acts on a set exactly if it is safe.** -/
theorem actsAsSet_iff_safe (hs : s.blocks = [] ∨ ∃ act, s.Activated act) {op : SelectOp Key}
    (hop : op.Legal s.order) : s.ActsAsSet op ↔ s.Safe op := by
  cases op with
  | selectOnly item => exact iff_of_true (selectOnly_acts hop) trivial
  | addBlock item => exact addBlock_iff hop
  | extendActive item => exact extendActive_iff hs hop
  | toggleItem item => exact toggleItem_iff hop
  | setSelectedKeys keys => exact setSelectedKeys_iff hop
  | updateOrder order => exact updateOrder_iff order

/-! ## Runs -/

/-- **One block is active**, unless there is none. -/
def OneActive (s : DndSelection Key) : Prop := s.blocks = [] ∨ ∃ act, s.Activated act

theorem oneActive_merge (h : s.Activated act) (hne : 0 < s.order.keys.length) :
    s.merge.OneActive := by
  obtain ⟨first, rest, -, -, -, hact⟩ := ranges_merge h hne
  exact .inr hact

/-- Taking a row out leaves no more than one active block. -/
theorem length_filter_removeRow (o : Order Key) (x : ℕ) (bs : List (Block Key)) :
    ((bs.flatMap (removeRow o x)).filter (·.active)).length ≤ (bs.filter (·.active)).length := by
  induction bs with
  | nil => exact le_rfl
  | cons b bs ih =>
    have hb : ((removeRow o x b).filter (·.active)).length ≤ ([b].filter (·.active)).length := by
      unfold removeRow
      cases hactive : b.active <;> dsimp only <;> repeat' split
      all_goals simp [hactive]
    rw [List.flatMap_cons, List.filter_append, List.length_append, ← List.singleton_append,
      List.filter_append, List.length_append]
    exact Nat.add_le_add hb ih

theorem oneActive_removeItem (h : s.OneActive) (item : Key) : (s.removeItem item).OneActive := by
  unfold removeItem
  split
  · exact h
  · rename_i x _
    dsimp only
    split
    · rename_i hany
      obtain ⟨b, hb, hactive⟩ := List.any_eq_true.1 hany
      have hpos : b ∈ (s.blocks.flatMap (removeRow s.order x)).filter (·.active) :=
        List.mem_filter.2 ⟨hb, hactive⟩
      have hle := length_filter_removeRow s.order x s.blocks
      rcases h with hempty | ⟨act, hact⟩
      · rw [hempty] at hb
        exact absurd hb List.not_mem_nil
      · rw [show s.blocks.filter (·.active) = [act] from hact] at hle
        exact .inr (List.length_eq_one_iff.1 (le_antisymm hle (List.length_pos_of_mem hpos)))
    · rcases hrest : s.blocks.flatMap (removeRow s.order x) with - | ⟨b, bs⟩
      · exact .inl rfl
      · -- the nearest block
        refine .inr (filter_activate ?_)
        rcases hmin : ((b :: bs).map (distance s.order x)).min? with - | d
        · exact absurd (List.min?_eq_none_iff.1 hmin) (List.cons_ne_nil _ _)
        · obtain ⟨c, hc, hd⟩ := List.mem_map.1 (List.min?_mem hmin)
          exact ⟨c, hc, decide_eq_true (congrArg some hd)⟩

theorem OneActive.apply {op : SelectOp Key} (h : s.OneActive) (hop : op.Legal s.order) :
    (op.apply s).OneActive := by
  have hadd : ∀ item ∈ s.order.keys, (s.addBlock item).OneActive := fun item hitem =>
    oneActive_merge (isActivated_push s.order (fun b hb => by
      obtain ⟨c, -, rfl⟩ := List.mem_map.1 hb
      rfl) item) (List.length_pos_of_mem hitem)
  cases op with
  | selectOnly item => exact .inr ⟨_, rfl⟩
  | addBlock item => exact hadd item hop
  | extendActive item =>
    show (s.extendActive item).OneActive
    have hne : 0 < s.order.keys.length := List.length_pos_of_mem hop
    rcases h with hempty | ⟨act, hact⟩
    · rw [extendActive, activeBlock, hempty]
      exact .inr ⟨_, rfl⟩
    · rw [extendActive, hact.activeBlock]
      exact oneActive_merge (hact.extend item) hne
  | toggleItem item =>
    show (s.toggleItem item).OneActive
    unfold toggleItem
    split
    · exact oneActive_removeItem h item
    · exact hadd item hop
  | setSelectedKeys keys =>
    show (s.setSelectedKeys keys).OneActive
    rcases List.eq_nil_or_concat' keys with rfl | ⟨init, last, rfl⟩
    · exact .inl rfl
    · have hlast : last ∈ s.order.keys := hop last (List.mem_append_right _ List.mem_cons_self)
      rw [setSelectedKeys_concat]
      refine oneActive_merge (isActivated_push s.order (fun b hb => ?_) last)
        (List.length_pos_of_mem hlast)
      obtain ⟨k, -, rfl⟩ := List.mem_map.1 hb
      rfl
  | updateOrder order => exact h

end DndSelection

/-- A selection over rows that change. -/
def dndSelection (Key : Type) [DecidableEq Key] : Machine (DndSelection Key) (SelectOp Key) where
  init s := s.blocks = []
  step s op := if op.Legal s.order then some (op.apply s) else none

open DndSelection in
/-- **Where a selection is a set.**  Along a run over keys of the order, every operation acts on the
selected keys as on a set exactly if every one is safe. -/
theorem actsAsSet_iff (order : Order Key) (ops : List (SelectOp Key)) :
    (dndSelection Key).AllSteps (fun s op => op.Legal s.order → s.ActsAsSet op) ⟨order, []⟩ ops ↔
      (dndSelection Key).AllSteps (fun s op => op.Legal s.order → s.Safe op) ⟨order, []⟩ ops := by
  have hgen : ∀ s : DndSelection Key, s.OneActive →
      ((dndSelection Key).AllSteps (fun s op => op.Legal s.order → s.ActsAsSet op) s ops ↔
        (dndSelection Key).AllSteps (fun s op => op.Legal s.order → s.Safe op) s ops) := by
    induction ops with
    | nil => exact fun _ _ => Iff.rfl
    | cons op ops ih =>
      intro s hs
      refine and_congr (forall_congr' fun hop => actsAsSet_iff_safe hs hop) ?_
      refine forall_congr' fun s' => forall_congr' fun hstep => ih s' ?_
      obtain ⟨hop, heq⟩ := Option.ite_none_right_eq_some.1 hstep
      exact Option.some.inj heq ▸ hs.apply hop
  exact hgen _ (.inl rfl)

/-- Three rows. -/
def threeRows : Order ℕ := ⟨[0, 1, 2], by decide⟩

open DndSelection in
/-- **A row is lost, and a row is added.**  Adding the row between two selected ones deselects the
lower one.  When the lower end of a block is no longer in the list, the block goes up to the first
row. -/
theorem actsAsSet_fails :
    ¬(dndSelection ℕ).AllSteps (fun s op => op.Legal s.order → s.ActsAsSet op) ⟨threeRows, []⟩
        [.addBlock 0, .addBlock 2, .addBlock 1] ∧
      ¬(dndSelection ℕ).AllSteps (fun s op => op.Legal s.order → s.ActsAsSet op) ⟨threeRows, []⟩
        [.selectOnly 1, .extendActive 2, .updateOrder ⟨[0, 1], by decide⟩] := by
  constructor
  · rintro ⟨-, h⟩
    obtain ⟨hacts, -⟩ := (h _ rfl).2 _ rfl
    have hlower := (hacts (by decide)).2 2
    exact absurd (hlower.2 (.inl (by decide))) (by decide)
  · rintro ⟨-, h⟩
    obtain ⟨hacts, -⟩ := (h _ rfl).2 _ rfl
    rcases hacts trivial 0 (by decide) with hfirst | ⟨b, hb, -, hto, -⟩
    · exact absurd hfirst (by decide)
    · have hall : ∀ b ∈ ((⟨threeRows, []⟩ : DndSelection ℕ).selectOnly 1 |>.extendActive 2).blocks,
          b.toKey ∉ [0, 1] := by decide
      exact hall b hb hto

end Monoplan.Web
