import Mathlib.Data.List.Infix
import Mathlib.Data.List.Perm.Basic
import Mathlib.Data.List.TakeWhile
import Monoplan.Base.ListEdit

/-!
# Planning a reorder

A drag of some rows is sent to the document as moves of single rows.

* `planReorderMoves` plans them: rows in front of the anchor go bottom-up, the others top-down.
* `converges_above` and `converges_below` are what the two directions do to an order.
* `planReorderMoves_converges_iff`: the plan converges, unless the anchor has vanished from the
  list.  All rows go top-down then, towards the end of the list, and that works only where all of
  them but the first are at the end already.
-/

namespace Monoplan.Web

open Monoplan.Base

structure ReorderMove where
  id : String
  index : ℕ
  deriving DecidableEq

/-- Take the row out, and insert it at the index. -/
def applyMove (order : List String) (m : ReorderMove) : List String :=
  placeAt (order.erase m.id) m.index m.id

/-- A moved row, with its place among the moved rows and in the list. -/
structure IndexedRow where
  id : String
  offset : ℕ
  originalIndex : ℕ

/-- The loop of the planner: the moves, and the order they lead to. -/
def planFrom : List String → List ReorderMove → List ReorderMove × List String
  | current, [] => ([], current)
  | current, m :: ms =>
    if m.id ∉ current ∨ current.idxOf m.id = m.index then planFrom current ms
    else (m :: (planFrom (applyMove current m) ms).1, (planFrom (applyMove current m) ms).2)

/-- `indexOf`. -/
def indexOf (ids : List String) (id : String) : ℤ := if id ∈ ids then ids.idxOf id else -1

/-- Where the moved rows go among the others: `insertAt`. -/
def insertIndex (remaining : List String) (beforeKey : Option String) : ℕ :=
  let beforeIndex : ℤ := (beforeKey.map (indexOf remaining)).getD (-1)
  if 0 ≤ beforeIndex then beforeIndex.toNat else remaining.length

/-- The moved rows, with the offsets from `n` on. -/
def indexedFrom (ids : List String) (n : ℕ) (movedIds : List String) : List IndexedRow :=
  (movedIds.zipIdx n).map fun q => ⟨q.1, q.2, ids.idxOf q.1⟩

/-- Rows in front of the anchor, the last one first, and rows behind it: `above` and `below`. -/
def rounds (indexed : List IndexedRow) (anchorIndex : ℤ) : List IndexedRow :=
  (indexed.filter fun it => (it.originalIndex : ℤ) < anchorIndex).reverse ++
    indexed.filter fun it => (it.originalIndex : ℤ) > anchorIndex

/-- `none` stands for the error thrown when the plan does not converge. -/
def planReorderMoves (ids movedKeys : List String) (beforeKey : Option String) :
    Option (List ReorderMove) :=
  let movedIds := ids.filter fun id => decide (id ∈ movedKeys)
  if movedIds = [] then some []
  else
    let remaining := ids.filter fun id => !decide (id ∈ movedKeys)
    let insertAt := insertIndex remaining beforeKey
    let indexed := indexedFrom ids 0 movedIds
    let expected := remaining.take insertAt ++ movedIds ++ remaining.drop insertAt
    let anchorIndex : ℤ := (beforeKey.map (indexOf ids)).getD ids.length
    let plan := planFrom ids
      ((rounds indexed anchorIndex).map fun it => ⟨it.id, insertAt + it.offset⟩)
    if plan.2.isPrefixOf expected then some plan.1 else none

/-- The order that a drag asks for: the moved rows as one block in front of the anchor. -/
def reordered (ids movedKeys : List String) (beforeKey : Option String) : List String :=
  let remaining := ids.filter fun id => !decide (id ∈ movedKeys)
  remaining.takeWhile (fun id => some id ≠ beforeKey) ++
    (ids.filter (fun id => decide (id ∈ movedKeys)) ++
      remaining.dropWhile fun id => some id ≠ beforeKey)

/-! ## The loop -/

variable {ids movedKeys : List String} {beforeKey : Option String} {c xs ys : List String}
  {x y : String} {n : ℕ}

/-- One round of the loop. -/
def moveTo (current : List String) (m : ReorderMove) : List String :=
  if m.id ∉ current ∨ current.idxOf m.id = m.index then current else applyMove current m

theorem planFrom_snd (c : List String) (ms : List ReorderMove) :
    (planFrom c ms).2 = ms.foldl moveTo c := by
  induction ms generalizing c with
  | nil => rfl
  | cons m ms ih =>
    rw [planFrom, List.foldl_cons, moveTo]
    split
    · exact ih c
    · exact ih _

/-- The moves do what the loop does. -/
theorem foldl_planFrom (c : List String) (ms : List ReorderMove) :
    (planFrom c ms).1.foldl applyMove c = (planFrom c ms).2 := by
  induction ms generalizing c with
  | nil => rfl
  | cons m ms ih =>
    rw [planFrom]
    split
    · exact ih c
    · exact ih _

theorem planFrom_sublist (c : List String) (ms : List ReorderMove) :
    (planFrom c ms).1.Sublist ms := by
  induction ms generalizing c with
  | nil => exact List.Sublist.slnil
  | cons m ms ih =>
    rw [planFrom]
    split
    · exact (ih c).cons m
    · exact (ih _).cons_cons m

/-- A round takes the row from where it is to its index. -/
theorem moveTo_split (hy : y ∉ xs) (ys : List String) (i : ℕ) :
    moveTo (xs ++ y :: ys) ⟨y, i⟩ = placeAt (xs ++ ys) i y := by
  have hidx : (xs ++ y :: ys).idxOf y = xs.length := by
    rw [List.idxOf_append_of_notMem hy, List.idxOf_cons_self, Nat.add_zero]
  have herase : (xs ++ y :: ys).erase y = xs ++ ys := by
    rw [List.erase_append_right _ hy, List.erase_cons_head]
  have hin : y ∈ xs ++ y :: ys := List.mem_append_right _ List.mem_cons_self
  rw [moveTo]
  dsimp only
  split
  · rename_i hstay
    rw [← hstay.resolve_left (not_not_intro hin), hidx, placeAt_append]
  · rw [applyMove, herase]

/-- Rows that are to go to places that follow one another. -/
def targets (n : ℕ) (l : List String) : List ReorderMove :=
  (l.zipIdx n).map fun p => ⟨p.1, p.2⟩

theorem targets_cons (n : ℕ) (x : String) (l : List String) :
    targets n (x :: l) = ⟨x, n⟩ :: targets (n + 1) l := rfl

theorem targets_concat (n : ℕ) (l : List String) (x : String) :
    targets n (l ++ [x]) = targets n l ++ [⟨x, n + l.length⟩] := by
  rw [targets, List.zipIdx_append, List.map_append]
  rfl

theorem map_id_targets (n : ℕ) (l : List String) : (targets n l).map ReorderMove.id = l := by
  induction l generalizing n with
  | nil => rfl
  | cons x l ih => rw [targets_cons, List.map_cons, ih]

/-! ## The two directions -/

section Directions

variable (p : String → Bool)

/-- **Bottom-up**: the rows go behind what they pass, the last one first. -/
theorem converges_above (xs ws rest : List String)
    (hnodup : (xs ++ (ws ++ rest)).Nodup) :
    (targets ((xs.filter fun x => !p x).length + ws.length) (xs.filter p)).reverse.foldl moveTo
        (xs ++ (ws ++ rest)) =
      xs.filter (fun x => !p x) ++ (ws ++ (xs.filter p ++ rest)) := by
  induction xs using List.reverseRecOn generalizing ws rest with
  | nil => rfl
  | append_singleton xs x ih =>
    rw [List.append_assoc, List.singleton_append] at hnodup
    cases hp : p x with
    | false =>
      -- a row that stays is passed by those in front of it
      have hrest := ih (x :: ws) rest hnodup
      simp only [List.filter_append, List.filter_cons, hp, List.filter_nil, List.length_append,
        List.length_cons, List.length_nil, List.append_assoc, List.cons_append, List.nil_append,
        Bool.not_false, if_true, Bool.false_eq_true, if_false, List.append_nil,
        Nat.zero_add] at hrest ⊢
      rw [Nat.add_assoc, Nat.add_comm 1]
      exact hrest
    | true =>
      have hx : x ∉ xs := fun hin =>
        (List.nodup_append.1 hnodup).2.2 x hin x List.mem_cons_self rfl
      have hrest := ih ws (x :: rest)
        ((List.Perm.append_left xs List.perm_middle).nodup_iff.2 hnodup)
      have hlen : (xs.filter fun x => !p x).length + ws.length + (xs.filter p).length =
          (xs ++ ws).length := by
        have hsplit := List.length_eq_length_filter_add (l := xs) p
        rw [List.length_append]
        omega
      simp only [List.filter_append, List.filter_cons, hp, List.filter_nil, Bool.not_true, if_true,
        Bool.false_eq_true, if_false, List.append_nil, List.append_assoc, List.cons_append,
        List.nil_append]
      rw [targets_concat, List.reverse_append, List.reverse_singleton, List.singleton_append,
        List.foldl_cons, moveTo_split hx, hlen, ← List.append_assoc, placeAt_append,
        List.append_assoc]
      exact hrest

/-- **Top-down**: the rows go in front of what they pass, the first one first. -/
theorem converges_below (done xs ws : List String)
    (hnodup : (done ++ (ws ++ xs)).Nodup) :
    (targets done.length (xs.filter p)).foldl moveTo (done ++ (ws ++ xs)) =
      done ++ (xs.filter p ++ (ws ++ xs.filter fun x => !p x)) := by
  induction xs generalizing done ws with
  | nil => rfl
  | cons x xs ih =>
    cases hp : p x with
    | false =>
      have hrest := ih done (ws ++ [x]) (by simpa using hnodup)
      simpa [List.filter_cons, hp] using hrest
    | true =>
      have hx : x ∉ done ++ ws := by
        rw [← List.append_assoc] at hnodup
        exact fun hin => (List.nodup_append.1 hnodup).2.2 x hin x List.mem_cons_self rfl
      have hperm : (done ++ (ws ++ x :: xs)).Perm (done ++ [x] ++ (ws ++ xs)) := by
        rw [List.append_assoc, List.singleton_append]
        exact List.Perm.append_left done List.perm_middle
      have hrest := ih (done ++ [x]) ws (hperm.nodup_iff.1 hnodup)
      rw [List.filter_cons_of_pos hp, targets_cons, List.foldl_cons, ← List.append_assoc done ws,
        moveTo_split hx, List.append_assoc, placeAt_append]
      simpa [List.filter_cons, hp] using hrest

end Directions

/-! ## An anchor in the list -/

theorem indexedFrom_append (ids : List String) (l r : List String) :
    indexedFrom ids 0 (l ++ r) = indexedFrom ids 0 l ++ indexedFrom ids l.length r := by
  rw [indexedFrom, List.zipIdx_append, List.map_append, Nat.zero_add]
  rfl

theorem targets_indexedFrom (ids : List String) (i n : ℕ) (l : List String) :
    (indexedFrom ids n l).map (fun it => ReorderMove.mk it.id (i + it.offset)) =
      targets (i + n) l := by
  induction l generalizing n with
  | nil => rfl
  | cons x l ih =>
    rw [targets_cons, Nat.add_assoc, ← ih (n + 1)]
    rfl

theorem mem_indexedFrom {it : IndexedRow} {l : List String} (h : it ∈ indexedFrom ids n l) :
    ∃ x ∈ l, it.originalIndex = ids.idxOf x := by
  obtain ⟨q, hq, rfl⟩ := List.mem_map.1 h
  exact ⟨q.1, List.fst_mem_of_mem_zipIdx hq, rfl⟩

/-- What the loop is given when the moved rows of a first part lie in front of the anchor, and the
others behind it. -/
theorem rounds_eq (xs ys : List String) (p : String → Bool) (anchorIndex : ℤ) (insertAt : ℕ)
    (hx : ∀ x ∈ xs.filter p, ((xs ++ ys).idxOf x : ℤ) < anchorIndex)
    (hy : ∀ y ∈ ys.filter p, ((xs ++ ys).idxOf y : ℤ) > anchorIndex) :
    (rounds (indexedFrom (xs ++ ys) 0 ((xs ++ ys).filter p)) anchorIndex).map
        (fun it => ReorderMove.mk it.id (insertAt + it.offset)) =
    (targets insertAt (xs.filter p)).reverse ++
      targets (insertAt + (xs.filter p).length) (ys.filter p) := by
  have hxs : ∀ it ∈ indexedFrom (xs ++ ys) 0 (xs.filter p),
      (it.originalIndex : ℤ) < anchorIndex := fun it hit => by
    obtain ⟨x, hin, heq⟩ := mem_indexedFrom hit
    rw [heq]
    exact hx x hin
  have hys : ∀ it ∈ indexedFrom (xs ++ ys) (xs.filter p).length (ys.filter p),
      (it.originalIndex : ℤ) > anchorIndex := fun it hit => by
    obtain ⟨y, hin, heq⟩ := mem_indexedFrom hit
    rw [heq]
    exact hy y hin
  have habove : (indexedFrom (xs ++ ys) 0 (xs.filter p)).filter
      (fun it => (it.originalIndex : ℤ) > anchorIndex) = [] :=
    List.filter_eq_nil_iff.2 fun it hit => by simpa using Int.le_of_lt (hxs it hit)
  have hbelow : (indexedFrom (xs ++ ys) (xs.filter p).length (ys.filter p)).filter
      (fun it => (it.originalIndex : ℤ) < anchorIndex) = [] :=
    List.filter_eq_nil_iff.2 fun it hit => by simpa using Int.le_of_lt (hys it hit)
  have habove' := List.filter_eq_self.2 fun it hit => decide_eq_true (hxs it hit)
  have hbelow' := List.filter_eq_self.2 fun it hit => decide_eq_true (hys it hit)
  rw [rounds, List.filter_append, indexedFrom_append, List.filter_append, List.filter_append,
    habove, hbelow, habove', hbelow', List.append_nil, List.nil_append, List.map_append,
    List.map_reverse,
    targets_indexedFrom, targets_indexedFrom, Nat.add_zero]

/-- The loop brings the moved rows between what stays of the two parts. -/
theorem rounds_converge (p : String → Bool) (hnodup : (xs ++ ys).Nodup) :
    ((targets (xs.filter fun x => !p x).length (xs.filter p)).reverse ++
        targets ((xs.filter fun x => !p x).length + (xs.filter p).length) (ys.filter p)).foldl
          moveTo (xs ++ ys) =
      xs.filter (fun x => !p x) ++ ((xs ++ ys).filter p ++ ys.filter fun y => !p y) := by
  have habove := converges_above p xs [] ys hnodup
  have hperm : (xs ++ ys).Perm (xs.filter (fun x => !p x) ++ xs.filter p ++ ys) := by
    refine List.Perm.append_right ys ?_
    exact ((List.filter_append_perm p xs).symm.trans List.perm_append_comm)
  have hbelow := converges_below p (xs.filter (fun x => !p x) ++ xs.filter p) ys []
    (hperm.nodup_iff.1 hnodup)
  rw [List.length_append] at hbelow
  simp only [List.nil_append, List.length_nil, Nat.add_zero, List.append_assoc] at habove hbelow
  rw [List.foldl_append, habove, hbelow, List.filter_append, List.append_assoc]

/-! ## An anchor that has vanished -/

theorem moveTo_perm (c : List String) (m : ReorderMove) : (moveTo c m).Perm c := by
  rw [moveTo]
  split
  · exact .refl c
  · rename_i hmove
    have hin : m.id ∈ c := not_not.1 fun hout => hmove (.inl hout)
    exact (placeAt_perm _ _ _).trans (List.perm_cons_erase hin).symm

theorem foldl_moveTo_perm (c : List String) (ms : List ReorderMove) :
    (ms.foldl moveTo c).Perm c := by
  induction ms generalizing c with
  | nil => exact .refl c
  | cons m ms ih => exact (ih _).trans (moveTo_perm c m)

/-- The row stands where it was put. -/
theorem idxOf_placeAt (hx : x ∉ xs) (hn : n ≤ xs.length) : (placeAt xs n x).idxOf x = n := by
  rw [placeAt, List.idxOf_append_of_notMem fun hin => hx (List.mem_of_mem_take hin),
    List.idxOf_cons_self, List.length_take, Nat.min_eq_left hn, Nat.add_zero]

theorem erase_placeAt (hx : x ∉ xs) (n : ℕ) : (placeAt xs n x).erase x = xs := by
  rw [placeAt, List.erase_append_right _ fun hin => hx (List.mem_of_mem_take hin),
    List.erase_cons_head, List.take_append_drop]

theorem sublist_placeAt (xs : List String) (n : ℕ) (x : String) : xs.Sublist (placeAt xs n x) := by
  have hsub := List.Sublist.append (List.Sublist.refl (xs.take n))
    (List.sublist_cons_self x (xs.drop n))
  rw [List.take_append_drop] at hsub
  exact hsub

/-- Rows that are sent one behind the other, behind a row that is in its place already, come to
their places only if they are there from the beginning: a row that leaves from in front of
another one pulls that one forward. -/
theorem settled_before {pre l : List String} (hnodup : c.Nodup) (hfinal : (pre ++ x :: l).Nodup)
    (hsub : l.Sublist c) (hlen : c.length = pre.length + 1 + l.length)
    (hx : c.idxOf x = pre.length)
    (h : (targets (pre.length + 1) l).foldl moveTo c = pre ++ x :: l) : c = pre ++ x :: l := by
  induction l generalizing c pre x with
  | nil => exact h
  | cons y l ih =>
    obtain ⟨as, bs, rfl, hy⟩ := List.eq_append_cons_of_mem (hsub.subset List.mem_cons_self)
    have hbs : l.Sublist bs := by
      obtain ⟨l₁, l₂, hl, h₁, h₂⟩ := List.sublist_append_iff.1 hsub
      cases l₁ with
      | nil =>
        rw [List.nil_append] at hl
        rw [← hl] at h₂
        exact List.cons_sublist_cons.1 h₂
      | cons z l₁ =>
        rw [List.cons_append, List.cons.injEq] at hl
        exact absurd (h₁.subset (hl.1 ▸ List.mem_cons_self)) hy
    have hperm : (as ++ y :: bs).Perm (y :: (as ++ bs)) := List.perm_middle
    obtain ⟨hyin, hrest⟩ := List.nodup_cons.1 (hperm.nodup_iff.1 hnodup)
    have hlen' : (as ++ bs).length = pre.length + 1 + l.length := by
      have hcons := hperm.length_eq
      rw [List.length_cons, hlen, List.length_cons] at hcons
      omega
    rw [targets_cons, List.foldl_cons, moveTo_split hy] at h
    have hnext : placeAt (as ++ bs) (pre.length + 1) y = pre ++ [x] ++ y :: l := by
      refine ih ((placeAt_perm _ _ _).nodup_iff.2 (List.nodup_cons.2 ⟨hyin, hrest⟩)) ?_
        ((hbs.trans (List.sublist_append_right as bs)).trans (sublist_placeAt _ _ _)) ?_ ?_ ?_
      · simpa using hfinal
      · rw [length_placeAt, hlen', List.length_append, List.length_singleton]
        omega
      · rw [idxOf_placeAt hyin (by omega), List.length_append, List.length_singleton]
      · rw [List.length_append, List.length_singleton, h, List.append_assoc]
        rfl
    have hsame : as ++ bs = pre ++ x :: l := by
      rw [← erase_placeAt hyin (pre.length + 1), hnext, List.append_assoc, List.singleton_append,
        List.erase_append_right, List.erase_cons_tail, List.erase_cons_head]
      · intro heq
        rw [beq_iff_eq] at heq
        subst heq
        exact (List.nodup_cons.1 (List.nodup_append.1 hfinal).2.1).1 List.mem_cons_self
      · intro hin
        exact (List.nodup_append.1 hfinal).2.2 y hin y (.tail _ List.mem_cons_self) rfl
    -- the row comes from behind the one in its place, and in front of those that follow
    have has : as.length = pre.length + 1 := by
      have hle := hbs.length_le
      have htotal := congrArg List.length hsame
      rw [List.length_append, List.length_append, List.length_cons] at htotal
      rcases Nat.lt_or_ge pre.length as.length with hlt | hge
      · omega
      · have hxas : x ∉ as := fun hin => by
          have hpre : as <+: pre := List.prefix_of_prefix_length_le
            (hsame ▸ List.prefix_append as bs) (List.prefix_append pre (x :: l)) hge
          rw [List.append_cons] at hfinal
          exact (List.nodup_append.1 (List.nodup_append.1 hfinal).1).2.2 x (hpre.subset hin) x
            (List.mem_singleton_self x) rfl
        have hpos : (as ++ bs).idxOf x = pre.length := by
          rw [hsame, List.idxOf_append_of_notMem, List.idxOf_cons_self, Nat.add_zero]
          intro hin
          exact (List.nodup_append.1 hfinal).2.2 x hin x List.mem_cons_self rfl
        have hxy : y ≠ x := fun heq => hyin (by
          rw [hsame, heq]
          exact List.mem_append_right _ List.mem_cons_self)
        rw [List.idxOf_append_of_notMem hxas] at hpos hx
        rw [List.idxOf_cons_ne _ hxy] at hx
        omega
    have hcut : as = pre ++ [x] ∧ bs = l := by
      rw [List.append_cons] at hsame
      exact List.append_inj hsame (by rw [has, List.length_append, List.length_singleton])
    rw [hcut.1, hcut.2, List.append_assoc]
    rfl

/-- **All rows top-down to the end**: they come to stand there only if all but the first are there
already. -/
theorem converges_end_iff {p : String → Bool} {l : List String} (hids : ids.Nodup)
    (hmoved : ids.filter p = x :: l) :
    (targets (ids.filter fun id => !p id).length (x :: l)).foldl moveTo ids =
        ids.filter (fun id => !p id) ++ x :: l ↔ l <:+ ids := by
  obtain ⟨as, bs, rfl, has, hpx, hl⟩ := List.filter_eq_cons_iff.1 hmoved
  have hxas : x ∉ as := fun hin => has x hin hpx
  have hperm : (as ++ x :: bs).Perm (x :: (as ++ bs)) := List.perm_middle
  obtain ⟨hxin, hrest⟩ := List.nodup_cons.1 (hperm.nodup_iff.1 hids)
  have hkept : (as ++ x :: bs).filter (fun id => !p id) = as ++ bs.filter fun id => !p id := by
    rw [List.filter_append, List.filter_cons_of_neg (by simp [hpx]),
      List.filter_eq_self.2 fun y hy => by simpa using has y hy]
  have hlen : (as ++ bs).length = (as ++ bs.filter fun id => !p id).length + l.length := by
    have hsplit := List.length_eq_length_filter_add (l := bs) p
    rw [hl] at hsplit
    rw [List.length_append, List.length_append]
    omega
  have hfinal : (as ++ bs.filter (fun id => !p id) ++ x :: l).Nodup := by
    rw [← hkept, ← hmoved]
    exact (List.perm_append_comm.trans (List.filter_append_perm p _)).nodup_iff.2 hids
  rw [hkept, targets_cons, List.foldl_cons, moveTo_split hxas]
  constructor
  · intro h
    have hsettled := settled_before
      ((placeAt_perm (as ++ bs) _ x).nodup_iff.2 (List.nodup_cons.2 ⟨hxin, hrest⟩)) hfinal
      ((hl ▸ List.filter_sublist).trans
        ((List.sublist_append_right as bs).trans (sublist_placeAt _ _ _)))
      (by rw [length_placeAt, hlen]; omega) (idxOf_placeAt hxin (by omega)) h
    have herase := congrArg (fun c => c.erase x) hsettled
    rw [erase_placeAt hxin, List.erase_append_right _ fun hin =>
        (List.nodup_append.1 hfinal).2.2 x hin x List.mem_cons_self rfl, List.erase_cons_head,
      List.append_assoc] at herase
    refine ⟨as ++ x :: bs.filter fun id => !p id, ?_⟩
    rw [List.append_assoc, List.cons_append, ← List.append_cancel_left herase]
  · rintro ⟨t, ht⟩
    -- what stays of the rows behind the first one ends where the others begin
    obtain ⟨b, rfl⟩ : l <:+ bs := by
      refine List.suffix_of_suffix_length_le ⟨t, ht⟩ ?_ (hl ▸ List.length_filter_le p bs)
      exact ⟨as ++ [x], by rw [List.append_assoc]; rfl⟩
    have hall : l.filter p = l := by
      rw [← hl, List.filter_filter]
      simp
    have hnone : l.filter (fun id => !p id) = [] :=
      List.filter_eq_nil_iff.2 fun y hy => by simpa using (List.filter_eq_self.1 hall) y hy
    have hstay : b.filter (fun id => !p id) = b := by
      rw [List.filter_append, hall] at hl
      have hb := List.append_left_eq_self.1 hl
      exact List.filter_eq_self.2 fun y hy => by simpa using List.filter_eq_nil_iff.1 hb y hy
    rw [List.filter_append, hstay, hnone, List.append_nil] at hfinal ⊢
    rw [← List.append_assoc, placeAt_append, List.append_cons]
    have hbelow := converges_below p (as ++ b ++ [x]) l [] (by simpa using hfinal)
    rw [hall, hnone, List.length_append, List.length_singleton] at hbelow
    simpa using hbelow

/-! ## The plan -/

/-- The plan is kept for the rows it moves, each at most once, and leads to the order. -/
def Converges (ids movedKeys : List String) (beforeKey : Option String) : Prop :=
  ∃ moves, planReorderMoves ids movedKeys beforeKey = some moves ∧
    (moves.map ReorderMove.id).Nodup ∧ (∀ m ∈ moves, m.id ∈ ids ∧ m.id ∈ movedKeys) ∧
      moves.foldl applyMove ids = reordered ids movedKeys beforeKey

/-- Whether the rounds of the loop lead to the order decides it. -/
theorem converges_iff {ms : List ReorderMove} {moved : List String} (hids : ids.Nodup)
    (hms : (ms.map ReorderMove.id).Perm (ids.filter fun id => decide (id ∈ movedKeys)))
    (hexpected : moved.length = ids.length) :
    (∃ moves, (if (planFrom ids ms).2.isPrefixOf moved then some (planFrom ids ms).1 else none) =
          some moves ∧ (moves.map ReorderMove.id).Nodup ∧
        (∀ m ∈ moves, m.id ∈ ids ∧ m.id ∈ movedKeys) ∧ moves.foldl applyMove ids = moved) ↔
      ms.foldl moveTo ids = moved := by
  have hlen : (planFrom ids ms).2.length = moved.length := by
    rw [hexpected, planFrom_snd]
    exact (foldl_moveTo_perm ids ms).length_eq
  have hsub := (planFrom_sublist ids ms).map ReorderMove.id
  constructor
  · rintro ⟨moves, hplan, -, -, hmoves⟩
    split at hplan
    · rename_i hprefix
      rw [← planFrom_snd]
      exact (List.isPrefixOf_iff_prefix.1 hprefix).eq_of_length hlen
    · cases hplan
  · intro h
    rw [← planFrom_snd] at h
    refine ⟨(planFrom ids ms).1, if_pos ?_, ?_, fun m hm => ?_, (foldl_planFrom ids ms).trans h⟩
    · rw [List.isPrefixOf_iff_prefix, h]
    · exact (hms.nodup_iff.2 (hids.filter _)).sublist hsub
    · have hin := hms.subset (hsub.subset (List.mem_map_of_mem hm))
      rw [List.mem_filter, decide_eq_true_eq] at hin
      exact hin

theorem indexOf_of_mem (h : x ∈ xs) : indexOf xs x = xs.idxOf x := if_pos h

theorem indexOf_of_notMem (h : x ∉ xs) : indexOf xs x = -1 := if_neg h

/-- The list parts at its anchor, or at its end. -/
theorem exists_parts (hids : ids.Nodup)
    (hbefore : ∀ k, beforeKey = some k → k ∈ ids ∧ k ∉ movedKeys) :
    ∃ xs ys, ids = xs ++ ys ∧
      (∀ x ∈ xs.filter fun id => decide (id ∈ movedKeys),
        (ids.idxOf x : ℤ) < (beforeKey.map (indexOf ids)).getD ids.length) ∧
      (∀ y ∈ ys.filter fun id => decide (id ∈ movedKeys),
        (ids.idxOf y : ℤ) > (beforeKey.map (indexOf ids)).getD ids.length) ∧
      insertIndex (ids.filter fun id => !decide (id ∈ movedKeys)) beforeKey =
        (xs.filter fun id => !decide (id ∈ movedKeys)).length ∧
      reordered ids movedKeys beforeKey =
        xs.filter (fun id => !decide (id ∈ movedKeys)) ++
          (ids.filter (fun id => decide (id ∈ movedKeys)) ++
            ys.filter fun id => !decide (id ∈ movedKeys)) := by
  cases beforeKey with
  | none =>
    refine ⟨ids, [], (List.append_nil ids).symm, fun x hx => ?_, fun y hy => ?_, rfl, ?_⟩
    · exact Int.ofNat_lt.2 (List.idxOf_lt_length_of_mem (List.mem_of_mem_filter hx))
    · cases hy
    · have hall : ∀ id ∈ ids.filter fun id => !decide (id ∈ movedKeys),
          decide (some id ≠ none) = true := fun id _ => by simp
      rw [reordered, List.takeWhile_eq_self_iff.2 hall, List.dropWhile_eq_nil_iff.2 hall,
        List.filter_nil]
  | some k =>
    obtain ⟨hin, hout⟩ := hbefore k rfl
    obtain ⟨as, bs, rfl, has⟩ := List.eq_append_cons_of_mem hin
    have hidx : (as ++ k :: bs).idxOf k = as.length := by
      rw [List.idxOf_append_of_notMem has, List.idxOf_cons_self, Nat.add_zero]
    have hkas : k ∉ as.filter fun id => !decide (id ∈ movedKeys) := fun h =>
      has (List.mem_of_mem_filter h)
    have hremaining : (as ++ k :: bs).filter (fun id => !decide (id ∈ movedKeys)) =
        as.filter (fun id => !decide (id ∈ movedKeys)) ++
          k :: bs.filter fun id => !decide (id ∈ movedKeys) := by
      rw [List.filter_append, List.filter_cons_of_pos (by simp [hout])]
    refine ⟨as, k :: bs, rfl, fun x hx => ?_, fun y hy => ?_, ?_, ?_⟩
    · rw [Option.map_some, Option.getD_some, indexOf_of_mem hin, hidx,
        List.idxOf_append_of_mem (List.mem_of_mem_filter hx)]
      exact Int.ofNat_lt.2 (List.idxOf_lt_length_of_mem (List.mem_of_mem_filter hx))
    · rw [List.filter_cons_of_neg (by simp [hout])] at hy
      have hybs := List.mem_of_mem_filter hy
      have hyas : y ∉ as := fun h =>
        (List.nodup_append.1 hids).2.2 y h y (List.mem_cons_of_mem k hybs) rfl
      have hyk : k ≠ y := fun h =>
        (List.nodup_cons.1 (List.nodup_append.1 hids).2.1).1 (h ▸ hybs)
      rw [Option.map_some, Option.getD_some, indexOf_of_mem hin, hidx,
        List.idxOf_append_of_notMem hyas, List.idxOf_cons_ne _ hyk]
      omega
    · rw [insertIndex, hremaining, Option.map_some, Option.getD_some,
        indexOf_of_mem (List.mem_append_right _ List.mem_cons_self),
        List.idxOf_append_of_notMem hkas, List.idxOf_cons_self, Nat.add_zero,
        if_pos (Int.natCast_nonneg _), Int.toNat_natCast]
    · have hne : ∀ id ∈ as.filter fun id => !decide (id ∈ movedKeys),
          decide (some id ≠ some k) = true := fun id h => by
        have hidk : id ≠ k := fun heq => hkas (heq ▸ h)
        simpa using hidk
      rw [reordered, hremaining, List.takeWhile_append_of_pos hne, List.dropWhile_append_of_pos hne,
        List.takeWhile_cons_of_neg (by simp), List.dropWhile_cons_of_neg (by simp),
        List.append_nil, List.filter_cons_of_pos (by simp [hout])]

/-- Where the anchor has vanished, the block goes to the end. -/
theorem vanished (movedKeys : List String) {k : String} (hk : k ∉ ids) :
    insertIndex (ids.filter fun id => !decide (id ∈ movedKeys)) (some k) =
        (ids.filter fun id => !decide (id ∈ movedKeys)).length ∧
      reordered ids movedKeys (some k) =
        ids.filter (fun id => !decide (id ∈ movedKeys)) ++
          ids.filter fun id => decide (id ∈ movedKeys) := by
  have hk' : k ∉ ids.filter fun id => !decide (id ∈ movedKeys) := fun h =>
    hk (List.mem_of_mem_filter h)
  have hall : ∀ id ∈ ids.filter fun id => !decide (id ∈ movedKeys),
      decide (some id ≠ some k) = true := fun id hid => by
    have hne : id ≠ k := fun heq => hk' (heq ▸ hid)
    simpa using hne
  constructor
  · rw [insertIndex, Option.map_some, indexOf_of_notMem hk']
    rfl
  · rw [reordered, List.takeWhile_eq_self_iff.2 hall, List.dropWhile_eq_nil_iff.2 hall,
      List.append_nil]

/-- A list has as many rows as those that stay and those that move. -/
theorem length_block (ids movedKeys : List String) {front back : List String}
    (h : front ++ back = ids.filter fun id => !decide (id ∈ movedKeys)) :
    (front ++ (ids.filter (fun id => decide (id ∈ movedKeys)) ++ back)).length = ids.length := by
  have hsplit := List.length_eq_length_filter_add (l := ids) fun id => decide (id ∈ movedKeys)
  have hlen := congrArg List.length h
  rw [List.length_append] at hlen
  rw [List.length_append, List.length_append]
  omega

/-- **The plan converges**, unless the anchor has vanished from the list and the moved rows but the
first do not stand at its end already. -/
theorem planReorderMoves_converges_iff (hids : ids.Nodup)
    (hbefore : ∀ k, beforeKey = some k → k ∈ ids → k ∉ movedKeys) :
    Converges ids movedKeys beforeKey ↔ (∀ k, beforeKey = some k → k ∈ ids) ∨
      (ids.filter fun id => decide (id ∈ movedKeys)).tail <:+ ids := by
  rw [Converges]
  by_cases hnone : (ids.filter fun id => decide (id ∈ movedKeys)) = []
  · have hstay : ids.filter (fun id => !decide (id ∈ movedKeys)) = ids :=
      List.filter_eq_self.2 fun id hid => by
        simpa using List.filter_eq_nil_iff.1 hnone id hid
    refine iff_of_true ⟨[], if_pos hnone, List.nodup_nil, List.forall_mem_nil _, ?_⟩
      (.inr (by rw [hnone]; exact List.nil_suffix))
    rw [reordered, hnone, hstay]
    exact List.takeWhile_append_dropWhile.symm
  · rw [planReorderMoves, if_neg hnone]
    dsimp only
    by_cases hanchor : ∀ k, beforeKey = some k → k ∈ ids
    · refine iff_of_true ?_ (.inl hanchor)
      obtain ⟨xs, ys, rfl, hx, hy, hinsert, hreordered⟩ := exists_parts hids
        fun k hk => ⟨hanchor k hk, hbefore k hk (hanchor k hk)⟩
      have hconverge := rounds_converge (fun id => decide (id ∈ movedKeys)) hids
      have hkept := List.filter_append (p := fun id => !decide (id ∈ movedKeys)) xs ys
      rw [hinsert, rounds_eq xs ys _ _ _ hx hy, hkept, List.take_left, List.drop_left,
        List.append_assoc, hreordered]
      refine (converges_iff hids ?_ (length_block _ _ hkept.symm)).2 hconverge
      rw [List.map_append, List.map_reverse, map_id_targets, map_id_targets, List.filter_append]
      exact (List.reverse_perm _).append_right _
    · obtain ⟨k, rfl, hk⟩ : ∃ k, beforeKey = some k ∧ k ∉ ids := by
        by_contra hall
        exact hanchor fun k hk => by_contra fun hin => hall ⟨k, hk, hin⟩
      obtain ⟨hinsert, hreordered⟩ := vanished movedKeys hk
      have hnotall : ¬∀ k', some k = some k' → k' ∈ ids := fun h => hk (h k rfl)
      rw [or_iff_right hnotall, hinsert, hreordered, Option.map_some, Option.getD_some,
        indexOf_of_notMem hk, List.take_length, List.drop_length, List.append_nil]
      -- no row lies in front of the anchor
      have hrounds := rounds_eq [] ids (fun id => decide (id ∈ movedKeys)) (-1)
        (ids.filter fun id => !decide (id ∈ movedKeys)).length
        (List.forall_mem_nil _) fun y _ => by rw [List.nil_append]; omega
      rw [List.nil_append, List.filter_nil, List.length_nil, Nat.add_zero] at hrounds
      have hlen := length_block ids movedKeys
        (List.append_nil (ids.filter fun id => !decide (id ∈ movedKeys)))
      rw [List.append_nil] at hlen
      rw [hrounds]
      refine (converges_iff hids ?_ hlen).trans ?_
      · rw [targets, List.zipIdx_nil, List.map_nil, List.reverse_nil, List.nil_append,
          map_id_targets]
      · cases hmoved : ids.filter fun id => decide (id ∈ movedKeys) with
        | nil => exact absurd hmoved hnone
        | cons x l => exact converges_end_iff hids hmoved

theorem planReorderMoves_converges_twoRows :
    Converges ["a", "b", "c", "d", "e"] ["d", "b"] (some "c") := by
  have hids : ["a", "b", "c", "d", "e"].Nodup := by decide
  refine (planReorderMoves_converges_iff hids fun k hk _ => ?_).2 (.inl fun k hk => ?_)
  · obtain rfl := Option.some.inj hk
    decide
  · obtain rfl := Option.some.inj hk
    decide

/-- **Two rows are dropped in front of a row that has just gone**: the planner throws. -/
theorem planReorderMoves_vanished :
    planReorderMoves ["a", "b", "c"] ["a", "b"] (some "gone") = none ∧
      reordered ["a", "b", "c"] ["a", "b"] (some "gone") = ["c", "a", "b"] := by
  decide

end Monoplan.Web
