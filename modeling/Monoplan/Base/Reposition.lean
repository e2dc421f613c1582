import Mathlib.Data.List.Perm.Subperm
import Mathlib.Tactic.SplitIfs
import Monoplan.Base.ListEdit

/-!
# Rebuilding a list by repositioning

A copy of a list is brought to a target by walking the target: an element that stands at the
same index in the old list is passed over, any other is taken out and put in at its index.

* `reposition` is one such edit; it leaves the order of the others alone
  (`filter_reposition`).
* `rearrange` is the walk.  An element that is passed over need not stand at its index at that
  moment: an element from before it may still wait to be taken out.
* `rearrange_eq_iff`: the walk ends at the target exactly if no element that is put in follows
  one that was passed over in that situation (`Settles`).
-/

namespace Monoplan.Base

variable {α : Type*} [DecidableEq α]

/-! ## One edit -/

/-- Take an element out, if it is there, and put it in at a position. -/
def reposition (l : List α) (i : ℕ) (a : α) : List α := placeAt (l.erase a) i a

@[simp] theorem mem_reposition {l : List α} {i : ℕ} {a b : α} :
    b ∈ reposition l i a ↔ b = a ∨ b ∈ l := by
  rw [reposition, mem_placeAt]
  by_cases h : b = a
  · simp [h]
  · simp [h, List.mem_erase_of_ne h]

theorem reposition_nodup {l : List α} (h : l.Nodup) (i : ℕ) (a : α) :
    (reposition l i a).Nodup :=
  (placeAt_perm _ i a).nodup_iff.2
    (List.nodup_cons.2 ⟨fun hin => (h.mem_erase_iff.1 hin).1 rfl, h.erase a⟩)

/-- The others stay in their order. -/
theorem filter_reposition {p : α → Bool} {a : α} (ha : p a = false) (l : List α) (i : ℕ) :
    (reposition l i a).filter p = l.filter p := by
  have hcons : ∀ xs : List α, (a :: xs).filter p = xs.filter p := fun xs =>
    List.filter_cons_of_neg (by simp [ha])
  have herase : (l.erase a).filter p = l.filter p := by
    induction l with
    | nil => rfl
    | cons b l ih =>
      by_cases hb : b = a
      · rw [hb, List.erase_cons_head, hcons]
      · rw [List.erase_cons_tail (by simpa using hb), List.filter_cons, List.filter_cons, ih]
  rw [reposition, filter_placeAt ha, herase]

/-! ## The walk -/

/-- Walk the target from position `i` on. -/
def rearrange (pre : List α) : ℕ → List α → List α → List α
  | _, cur, [] => cur
  | i, cur, x :: post =>
    rearrange pre (i + 1) (if pre[i]? = some x then cur else reposition cur i x) post

/-- No element that changes its place follows one that keeps it while a third one, from before
the second, is still to come. -/
def Settles (pre post : List α) : Prop :=
  ∀ i < post.length - 1, pre[i]? = post[i]? → pre[i + 1]? ≠ post[i + 1]? →
    ∀ z ∈ pre.take i, z ∉ post.drop (i + 2)

instance instDecidableSettles (pre post : List α) : Decidable (Settles pre post) :=
  inferInstanceAs (Decidable (∀ i < post.length - 1, _))

/-- Elements that keep their place, or that the walk has left behind, stay in their order. -/
theorem filter_rearrange {p : α → Bool} (pre : List α) (i : ℕ) (cur post : List α)
    (h : ∀ j x, post[j]? = some x → p x = true → pre[i + j]? = some x) :
    (rearrange pre i cur post).filter p = cur.filter p := by
  induction post generalizing i cur with
  | nil => rfl
  | cons x post ih =>
    have hrest : ∀ j y, post[j]? = some y → p y = true → pre[i + 1 + j]? = some y := by
      intro j y hy hp
      rw [Nat.add_assoc, Nat.add_comm 1 j]
      exact h (j + 1) y hy hp
    rw [rearrange, ih _ _ hrest]
    split_ifs with hx
    · rfl
    · exact filter_reposition (Bool.eq_false_iff.2 fun hp => hx (h 0 x rfl hp)) cur i

/-! ## Where the walk stands -/

/-- Behind the elements that are in place, and before those that kept their place since, stand
the ones that are still to be taken out. -/
def Standing (pre done todo cur : List α) : Prop :=
  ∃ settled kept, done = settled ++ kept ∧
    cur = settled ++ (pre.take done.length).filter (· ∈ todo) ++ kept ++
      (pre.drop done.length).filter (· ∈ todo) ∧
    (kept ≠ [] → pre[done.length - 1]? = done.getLast?)

theorem standing_init (pre post : List α) : Standing pre [] post (pre.filter (· ∈ post)) :=
  ⟨[], [], rfl, by simp, fun h => absurd rfl h⟩

theorem Standing.done {pre done cur : List α} (h : Standing pre done [] cur) : cur = done := by
  obtain ⟨settled, kept, hdone, hcur, -⟩ := h
  rw [hcur, hdone]
  simp

/-- A waiting element leaves the waiting ones. -/
theorem filter_todo_tail {x : α} {todo l : List α} (hx : x ∉ l) :
    l.filter (· ∈ x :: todo) = l.filter (· ∈ todo) := by
  refine List.filter_congr fun y hy => decide_eq_decide.2 ?_
  have hne : y ≠ x := fun h => hx (h ▸ hy)
  simp [hne]

theorem erase_todo {x : α} {todo l : List α} (hl : l.Nodup) (hx : x ∉ todo) :
    (l.filter (· ∈ x :: todo)).erase x = l.filter (· ∈ todo) := by
  rw [(hl.filter _).erase_eq_filter, List.filter_filter]
  refine List.filter_congr fun y _ => ?_
  rw [Bool.eq_iff_iff]
  simp only [bne_iff_ne, Bool.and_eq_true, decide_eq_true_eq, List.mem_cons]
  constructor
  · rintro ⟨hne, hy⟩
    exact hy.resolve_left hne
  · intro hy
    exact ⟨fun h => hx (h ▸ hy), .inr hy⟩

/-- One step of the walk. -/
theorem Standing.step {pre done todo cur : List α} {x : α} (hpre : pre.Nodup)
    (hpost : (done ++ x :: todo).Nodup) (hsettles : Settles pre (done ++ x :: todo))
    (h : Standing pre done (x :: todo) cur) :
    Standing pre (done ++ [x]) todo
      (if pre[done.length]? = some x then cur else reposition cur done.length x) := by
  obtain ⟨settled, kept, rfl, rfl, hlast⟩ := h
  set i := (settled ++ kept).length with hi
  have hxdone : x ∉ settled ++ kept := fun hin =>
    (List.nodup_append.1 hpost).2.2 x hin x List.mem_cons_self rfl
  have hxtodo : x ∉ todo := (List.nodup_cons.1 (List.nodup_append.1 hpost).2.1).1
  have hlen : (settled ++ kept ++ [x]).length = i + 1 := by rw [List.length_append, ← hi]; rfl
  by_cases hx : pre[i]? = some x
  · -- the element keeps its place, so it is the first of those after position `i`
    obtain ⟨hlt, hget⟩ := List.getElem?_eq_some_iff.1 hx
    have hdrop : pre.drop i = x :: pre.drop (i + 1) := by
      rw [← hget]
      exact List.drop_eq_getElem_cons hlt
    have hnodup : (pre.take i ++ x :: pre.drop (i + 1)).Nodup := by
      rw [← hdrop, List.take_append_drop]
      exact hpre
    have hbefore : x ∉ pre.take i := fun hin =>
      (List.nodup_append.1 hnodup).2.2 x hin x List.mem_cons_self rfl
    have hafter : x ∉ pre.drop (i + 1) := (List.nodup_cons.1 (List.nodup_append.1 hnodup).2.1).1
    have htake : (pre.take (i + 1)).filter (· ∈ todo) = (pre.take i).filter (· ∈ todo) := by
      rw [List.take_add_one, hx, List.filter_append, Option.toList_some,
        List.filter_cons_of_neg (by simp [hxtodo]), List.filter_nil, List.append_nil]
    refine ⟨settled, kept ++ [x], by rw [List.append_assoc], ?_, fun _ => ?_⟩
    · rw [if_pos hx, hlen, htake, hdrop, filter_todo_tail hbefore,
        List.filter_cons_of_pos (by simp), filter_todo_tail hafter]
      simp
    · rw [hlen, Nat.add_sub_cancel, hx, List.getLast?_concat]
  · -- it is taken out and put in behind those that are in place
    rw [if_neg hx]
    have hsplit : pre.filter (· ∈ todo) =
        (pre.take i).filter (· ∈ todo) ++ (pre.drop i).filter (· ∈ todo) := by
      rw [← List.filter_append, List.take_append_drop]
    have hwait : kept = [] ∨ (pre.take i).filter (· ∈ todo) = [] := by
      by_cases hkept : kept = []
      · exact .inl hkept
      · right
        have hpos : 0 < i := by
          rw [hi, List.length_append]
          have := List.length_pos_iff.2 hkept
          omega
        have hlen' : (settled ++ kept ++ x :: todo).length = i + (todo.length + 1) := by
          rw [List.length_append, ← hi, List.length_cons]
        have hprev : (settled ++ kept ++ x :: todo)[i - 1]? = (settled ++ kept).getLast? := by
          rw [List.getElem?_append_left (by omega), List.getLast?_eq_getElem?]
        have hnext : (settled ++ kept ++ x :: todo)[i - 1 + 1]? = some x := by
          rw [Nat.sub_add_cancel hpos, List.getElem?_append_right (Nat.le_refl _), ← hi,
            Nat.sub_self]
          rfl
        have hafter : (settled ++ kept ++ x :: todo).drop (i - 1 + 2) = todo := by
          have : i - 1 + 2 = i + 1 := by omega
          rw [this, hi, List.drop_length_add_append]
          rfl
        have hnone := hsettles (i - 1) (by omega) ((hlast hkept).trans hprev.symm)
          (by rw [hnext, Nat.sub_add_cancel hpos]; exact hx)
        rw [hafter] at hnone
        refine List.filter_eq_nil_iff.2 fun z hz hin => ?_
        rw [decide_eq_true_eq] at hin
        have htake : pre.take i = pre.take (i - 1) ++ (pre[i - 1]?).toList := by
          rw [← List.take_add_one, Nat.sub_add_cancel hpos]
        rw [htake, List.mem_append, Option.mem_toList, hlast hkept] at hz
        rcases hz with hz | hz
        · exact hnone z hz hin
        · have hdone : z ∈ settled ++ kept := List.mem_of_getLast? hz
          exact (List.nodup_append.1 hpost).2.2 z hdone z (List.mem_cons_of_mem _ hin) rfl
    have herase : (settled ++ (pre.take i).filter (· ∈ x :: todo) ++ kept ++
        (pre.drop i).filter (· ∈ x :: todo)).erase x =
        settled ++ kept ++ pre.filter (· ∈ todo) := by
      have hout : (settled ++ (pre.take i).filter (· ∈ x :: todo) ++ kept ++
          (pre.drop i).filter (· ∈ x :: todo)).erase x =
          settled ++ ((pre.take i).filter (· ∈ todo) ++ (kept ++
            (pre.drop i).filter (· ∈ todo))) := by
        obtain ⟨hxs, hxk⟩ := not_or.1 (List.mem_append.not.1 hxdone)
        rw [List.append_assoc, List.append_assoc, List.erase_append_right _ hxs]
        have hnodup : (pre.take i ++ pre.drop i).Nodup := by
          rw [List.take_append_drop]
          exact hpre
        by_cases hin : x ∈ pre.take i
        · have hout : x ∉ pre.drop i := fun h => (List.nodup_append.1 hnodup).2.2 x hin x h rfl
          rw [List.erase_append_left _ (List.mem_filter.2 ⟨hin, by simp⟩),
            erase_todo (List.nodup_append.1 hnodup).1 hxtodo, filter_todo_tail hout]
        · rw [List.erase_append_right _ fun h => hin (List.mem_filter.1 h).1,
            List.erase_append_right _ hxk, filter_todo_tail hin,
            erase_todo (List.nodup_append.1 hnodup).2.1 hxtodo]
      rw [hout, hsplit]
      rcases hwait with hnone | hnone
      · simp [hnone]
      · simp [hnone]
    refine ⟨settled ++ kept ++ [x], [], (List.append_nil _).symm, ?_, fun h => absurd rfl h⟩
    rw [reposition, herase, hi, placeAt_append, hlen, List.append_nil,
      List.append_assoc _ ((pre.take (i + 1)).filter _), ← List.filter_append,
      List.take_append_drop, List.append_assoc _ [x]]
    rfl

/-- The whole walk, when nothing is put in behind a place that another still holds. -/
theorem Standing.rearrange {pre todo cur : List α} (done : List α) (hpre : pre.Nodup)
    (hpost : (done ++ todo).Nodup) (hsettles : Settles pre (done ++ todo))
    (h : Standing pre done todo cur) :
    Base.rearrange pre done.length cur todo = done ++ todo := by
  induction todo generalizing done cur with
  | nil => rw [Base.rearrange, h.done, List.append_nil]
  | cons x todo ih =>
    have hstep := h.step hpre hpost hsettles
    have hassoc : done ++ x :: todo = done ++ [x] ++ todo := by simp
    rw [hassoc] at hpost hsettles ⊢
    have hrest := ih (done ++ [x]) hpost hsettles hstep
    rw [List.length_append, List.length_singleton] at hrest
    exact hrest

/-! ## When an element is put in too early -/

theorem rearrange_append (pre : List α) (i : ℕ) (cur xs ys : List α) :
    rearrange pre i cur (xs ++ ys) =
      rearrange pre (i + xs.length) (rearrange pre i cur xs) ys := by
  induction xs generalizing i cur with
  | nil => rfl
  | cons x xs ih =>
    rw [List.cons_append, rearrange, rearrange, ih, List.length_cons, Nat.add_assoc i 1,
      Nat.add_comm 1]

omit [DecidableEq α] in
/-- What stands before an element in a part of the list stands before it in the list. -/
theorem sublist_of_concat_sublist {a : α} (xs : List α) {ys zs : List α} (h : (ys ++ a :: zs).Nodup)
    (hsub : (xs ++ [a]).Sublist (ys ++ a :: zs)) : xs.Sublist ys := by
  induction ys generalizing xs with
  | nil =>
    cases xs with
    | nil => exact List.Sublist.refl []
    | cons x xs =>
      exfalso
      refine (List.nodup_cons.1 h).1 ?_
      rcases List.cons_sublist_cons'.1 hsub with hin | ⟨-, hin⟩
      · exact hin.subset (by simp)
      · exact hin.subset (by simp)
  | cons y ys ih =>
    cases xs with
    | nil => exact List.nil_sublist _
    | cons x xs =>
      have hys := (List.nodup_cons.1 h).2
      rcases List.cons_sublist_cons'.1 hsub with hin | ⟨rfl, hin⟩
      · exact (ih (x :: xs) hys hin).cons y
      · exact (ih xs hys hin).cons_cons x

theorem rearrange_nodup {pre cur : List α} (h : cur.Nodup) (i : ℕ) (post : List α) :
    (rearrange pre i cur post).Nodup := by
  induction post generalizing i cur with
  | nil => exact h
  | cons x post ih =>
    refine ih ?_ (i + 1)
    split_ifs
    · exact h
    · exact reposition_nodup h i x

/-- The walk does not change how elements stand that it leaves alone. -/
theorem sublist_rearrange {pre cur post xs : List α} {i : ℕ} (hsub : xs.Sublist cur)
    (h : ∀ j x, post[j]? = some x → x ∈ xs → pre[i + j]? = some x) :
    xs.Sublist (rearrange pre i cur post) := by
  have hself : xs.filter (· ∈ xs) = xs := List.filter_eq_self.2 fun x hx => by simpa using hx
  have hfilter := filter_rearrange (p := fun x => decide (x ∈ xs)) pre i cur post
    fun j x hx hp => h j x hx (by simpa using hp)
  have hcur := hsub.filter fun x => decide (x ∈ xs)
  rw [hself, ← hfilter] at hcur
  exact hcur.trans List.filter_sublist

/-- An element put in at a position that is not past another comes to stand before it. -/
theorem sublist_reposition {a b : α} {ys zs : List α} {i : ℕ} (hne : a ≠ b)
    (hi : i ≤ (ys.erase a).length) : [a, b].Sublist (reposition (ys ++ b :: zs) i a) := by
  have herase : ∃ zs', (ys ++ b :: zs).erase a = ys.erase a ++ b :: zs' := by
    by_cases ha : a ∈ ys
    · exact ⟨zs, List.erase_append_left _ ha⟩
    · refine ⟨zs.erase a, ?_⟩
      rw [List.erase_append_right _ ha, List.erase_of_not_mem ha,
        List.erase_cons_tail (by simpa using hne.symm)]
  obtain ⟨zs', herase⟩ := herase
  rw [reposition, herase, placeAt_append_of_le hi]
  have ha : [a].Sublist (placeAt (ys.erase a) i a) :=
    List.singleton_sublist.2 (mem_placeAt.2 (.inl rfl))
  exact ha.append (List.singleton_sublist.2 List.mem_cons_self)

theorem settles_of_rearrange {pre post : List α} (hpre : pre.Nodup) (hpost : post.Nodup)
    (h : rearrange pre 0 (pre.filter (· ∈ post)) post = post) : Settles pre post := by
  intro i hi hsame hdiff z hz hz'
  have hlt : i < post.length := by omega
  have hlt' : i + 1 < post.length := by omega
  obtain ⟨f, w, hf, hw⟩ : ∃ f w, post[i]? = some f ∧ post[i + 1]? = some w :=
    ⟨_, _, List.getElem?_eq_getElem hlt, List.getElem?_eq_getElem hlt'⟩
  set xs := post.take i with hxs
  set ys := post.drop (i + 2) with hys
  have hlen : xs.length = i := by rw [hxs, List.length_take]; omega
  have hsplit : post = xs ++ f :: w :: ys := by
    conv_lhs => rw [← List.take_append_drop i post]
    rw [hxs, List.drop_eq_getElem_cons hlt, List.drop_eq_getElem_cons hlt']
    rw [List.getElem?_eq_getElem hlt, Option.some.injEq] at hf
    rw [List.getElem?_eq_getElem hlt', Option.some.injEq] at hw
    rw [hf, hw]
  have hpf : pre[i]? = some f := hsame.trans hf
  have hpw : pre[i + 1]? ≠ some w := fun hkeeps => hdiff (hkeeps.trans hw.symm)
  clear_value xs ys
  subst hsplit
  obtain ⟨-, hfys, hdisj⟩ := List.nodup_append.1 hpost
  obtain ⟨hfnot, hwys⟩ := List.nodup_cons.1 hfys
  have hwf : w ≠ f := fun heq => hfnot (heq ▸ List.mem_cons_self)
  have hzw : z ≠ w := fun heq => (List.nodup_cons.1 hwys).1 (heq ▸ hz')
  have hzf : z ≠ f := fun heq => hfnot (heq ▸ List.mem_cons_of_mem _ hz')
  have hzxs : z ∉ xs := fun hin => hdisj z hin z (by simp [hz']) rfl
  have hwxs : w ∉ xs := fun hin => hdisj w hin w (by simp) rfl
  have hfxs : f ∉ xs := fun hin => hdisj f hin f (by simp) rfl
  -- how the list stands before `w` is put in
  set cur := rearrange pre 0 (pre.filter (· ∈ xs ++ f :: w :: ys)) (xs ++ [f]) with hcur
  have hend : rearrange pre (i + 1) cur (w :: ys) = xs ++ f :: w :: ys := by
    have hassoc : xs ++ f :: w :: ys = (xs ++ [f]) ++ w :: ys := by simp
    have happ := rearrange_append pre 0 (pre.filter (· ∈ xs ++ f :: w :: ys)) (xs ++ [f]) (w :: ys)
    rw [← hassoc, h, List.length_append, hlen, List.length_singleton, Nat.zero_add] at happ
    exact happ.symm
  have hnodup : cur.Nodup := rearrange_nodup (hpre.filter _) 0 _
  -- the elements before `f` in the target stand before it by now
  have hbefore : (xs ++ [f]).Sublist cur := by
    have hfilter := filter_rearrange (p := fun x => decide (x ∈ xs ++ [f])) pre (i + 1) cur (w :: ys)
      fun j x hx hp => absurd rfl (by
        rw [decide_eq_true_eq] at hp
        have hassoc : xs ++ f :: w :: ys = (xs ++ [f]) ++ w :: ys := by simp
        rw [hassoc] at hpost
        exact (List.nodup_append.1 hpost).2.2 x hp x (List.mem_of_getElem? hx))
    have hself : (xs ++ f :: w :: ys).filter (fun x => decide (x ∈ xs ++ [f])) = xs ++ [f] := by
      have hassoc : xs ++ f :: w :: ys = (xs ++ [f]) ++ w :: ys := by simp
      rw [hassoc] at hpost ⊢
      rw [List.filter_append, List.filter_eq_self.2 fun x hx => by simpa using hx,
        List.filter_eq_nil_iff.2 fun x hx hin => (List.nodup_append.1 hpost).2.2 x
          (by simpa using hin) x hx rfl, List.append_nil]
    rw [hend, hself] at hfilter
    rw [hfilter]
    exact List.filter_sublist
  -- and so does `z`, which was before it
  have hwaits : [z, f].Sublist cur := by
    refine sublist_rearrange ?_ fun j x hx hin => ?_
    · have hold : [z, f].Sublist pre := by
        obtain ⟨hpi, hget⟩ := List.getElem?_eq_some_iff.1 hpf
        rw [← List.take_append_drop i pre, List.drop_eq_getElem_cons hpi, hget]
        exact (List.singleton_sublist.2 hz).append (List.singleton_sublist.2 List.mem_cons_self)
      have hkept := hold.filter fun x => decide (x ∈ xs ++ f :: w :: ys)
      rwa [List.filter_eq_self.2 fun x hx => by
        rcases List.mem_pair.1 hx with rfl | rfl
        · simp [hz']
        · simp] at hkept
    · have hxf : x = f := by
        rcases List.mem_pair.1 hin with rfl | rfl
        · have := List.mem_of_getElem? hx
          exact absurd this (by simp [hzxs, hzf])
        · rfl
      subst hxf
      rw [Nat.zero_add]
      rcases Nat.lt_trichotomy j i with hj | rfl | hj
      · rw [List.getElem?_append_left (by omega)] at hx
        exact absurd (List.mem_of_getElem? hx) hfxs
      · exact hpf
      · rw [List.getElem?_eq_none (by simp; omega)] at hx
        exact absurd hx (by simp)
  obtain ⟨before, after, hsplit⟩ := List.append_of_mem (hbefore.subset (by simp : f ∈ xs ++ [f]))
  rw [hsplit] at hnodup hbefore hwaits
  have hxsb : xs ⊆ before := (sublist_of_concat_sublist _ hnodup hbefore).subset
  have hzb : z ∈ before :=
    List.singleton_sublist.1 (sublist_of_concat_sublist [z] hnodup hwaits)
  -- so there are too many for `w` to come to stand behind `f`
  have hroom : i + 1 ≤ (before.erase w).length := by
    have hsub : z :: xs ⊆ before.erase w := by
      intro x hx
      rcases List.mem_cons.1 hx with rfl | hx
      · exact (List.mem_erase_of_ne hzw).2 hzb
      · exact (List.mem_erase_of_ne fun heq => hwxs (by rwa [heq] at hx)).2 (hxsb hx)
    have hle := (List.Nodup.subperm (List.nodup_cons.2 ⟨hzxs, (List.nodup_append.1 hpost).1⟩)
      hsub).length_le
    rwa [List.length_cons, hlen] at hle
  have hwrong : [w, f].Sublist (xs ++ f :: w :: ys) := by
    rw [rearrange, if_neg hpw, hsplit] at hend
    rw [← hend]
    refine sublist_rearrange (sublist_reposition hwf hroom) fun j x hx hin => ?_
    have hxys := List.mem_of_getElem? hx
    rcases List.mem_pair.1 hin with rfl | rfl
    · exact absurd hxys (List.nodup_cons.1 hwys).1
    · exact absurd (List.mem_cons_of_mem _ hxys) hfnot
  exact hwxs (List.singleton_sublist.1 (sublist_of_concat_sublist [w] hpost hwrong))

/-- **Rebuilding by repositioning.**  The walk ends at the target exactly if no element is put
in behind one that still waits for another to leave. -/
theorem rearrange_eq_iff {pre post : List α} (hpre : pre.Nodup) (hpost : post.Nodup) :
    rearrange pre 0 (pre.filter (· ∈ post)) post = post ↔ Settles pre post :=
  ⟨settles_of_rearrange hpre hpost, fun h =>
    Standing.rearrange [] hpre hpost h (standing_init pre post)⟩

end Monoplan.Base
