import Mathlib.Data.Finset.Basic
import Mathlib.Data.Finset.Lattice.Lemmas
import Mathlib.Data.List.Basic
import Monoplan.Base.ListEdit

/-!
# First occurrences

`firsts l` is a list without the later repetitions of a member.  The lemmas say how it is
assembled from parts (`firsts_append`), that filtering commutes with it, and where a
member stands when it is put in where it did not occur (`firsts_insert`) or moved among its own
repetitions (`firsts_move`).
-/

namespace Monoplan.Base

variable {α : Type*} [DecidableEq α]

/-- Keep the first occurrence of every member that is not in `seen`. -/
def firstsFrom (seen : Finset α) : List α → List α
  | [] => []
  | a :: l => if a ∈ seen then firstsFrom seen l else a :: firstsFrom (insert a seen) l

/-- The list without the later repetitions of a member. -/
def firsts (l : List α) : List α := firstsFrom ∅ l

theorem mem_firstsFrom {seen : Finset α} {l : List α} {a : α} :
    a ∈ firstsFrom seen l ↔ a ∈ l ∧ a ∉ seen := by
  induction l generalizing seen with
  | nil => simp [firstsFrom]
  | cons b l ih =>
    unfold firstsFrom
    split
    · rename_i hb
      rw [ih, List.mem_cons]
      constructor
      · exact fun ⟨hl, hs⟩ => ⟨.inr hl, hs⟩
      · rintro ⟨rfl | hl, hs⟩
        · exact absurd hb hs
        · exact ⟨hl, hs⟩
    · rename_i hb
      rw [List.mem_cons, List.mem_cons, ih, Finset.mem_insert, not_or]
      constructor
      · rintro (rfl | ⟨hl, -, hs⟩)
        · exact ⟨.inl rfl, hb⟩
        · exact ⟨.inr hl, hs⟩
      · rintro ⟨rfl | hl, hs⟩
        · exact .inl rfl
        · by_cases hab : a = b
          · exact .inl hab
          · exact .inr ⟨hl, hab, hs⟩

theorem firstsFrom_nodup (seen : Finset α) (l : List α) : (firstsFrom seen l).Nodup := by
  induction l generalizing seen with
  | nil => exact List.nodup_nil
  | cons b l ih =>
    unfold firstsFrom
    split
    · exact ih seen
    · refine List.nodup_cons.2 ⟨fun hb => ?_, ih _⟩
      exact (mem_firstsFrom.1 hb).2 (Finset.mem_insert_self b seen)

theorem firstsFrom_sublist (seen : Finset α) (l : List α) : (firstsFrom seen l).Sublist l := by
  induction l generalizing seen with
  | nil => exact List.Sublist.slnil
  | cons b l ih =>
    unfold firstsFrom
    split
    · exact (ih seen).cons b
    · exact (ih _).cons_cons b

@[simp] theorem mem_firsts {l : List α} {a : α} : a ∈ firsts l ↔ a ∈ l := by
  simp [firsts, mem_firstsFrom]

theorem firsts_nodup (l : List α) : (firsts l).Nodup := firstsFrom_nodup ∅ l

theorem firsts_sublist (l : List α) : (firsts l).Sublist l := firstsFrom_sublist ∅ l

/-! ## First occurrences by a key -/

section Keyed

variable {β : Type*} (f : β → α)

/-- Keep the first element of every key that is not in `seen`. -/
def firstsOnFrom (seen : Finset α) : List β → List β
  | [] => []
  | b :: l => if f b ∈ seen then firstsOnFrom seen l else b :: firstsOnFrom (insert (f b) seen) l

/-- The list without the elements that repeat an earlier key. -/
def firstsOn (l : List β) : List β := firstsOnFrom f ∅ l

theorem map_firstsOnFrom (seen : Finset α) (l : List β) :
    (firstsOnFrom f seen l).map f = firstsFrom seen (l.map f) := by
  induction l generalizing seen with
  | nil => rfl
  | cons b l ih =>
    rw [List.map_cons, firstsOnFrom, firstsFrom]
    split
    · exact ih seen
    · rw [List.map_cons, ih]

@[simp] theorem map_firstsOn (l : List β) : (firstsOn f l).map f = firsts (l.map f) :=
  map_firstsOnFrom f ∅ l

theorem firstsOnFrom_sublist (seen : Finset α) (l : List β) :
    (firstsOnFrom f seen l).Sublist l := by
  induction l generalizing seen with
  | nil => exact List.Sublist.slnil
  | cons b l ih =>
    rw [firstsOnFrom]
    split
    · exact (ih seen).cons b
    · exact (ih _).cons_cons b

theorem firstsOn_sublist (l : List β) : (firstsOn f l).Sublist l := firstsOnFrom_sublist f ∅ l

/-- Where no key repeats, every element is the first of its key. -/
theorem firstsOnFrom_of_nodup {seen : Finset α} {l : List β} (h : (l.map f).Nodup)
    (hseen : ∀ b ∈ l, f b ∉ seen) : firstsOnFrom f seen l = l := by
  induction l generalizing seen with
  | nil => rfl
  | cons b l ih =>
    obtain ⟨hb, hl⟩ := List.nodup_cons.1 h
    rw [firstsOnFrom, if_neg (hseen b (List.mem_cons_self ..)), ih hl]
    intro c hc hmem
    rcases Finset.mem_insert.1 hmem with heq | hmem
    · exact hb (heq ▸ List.mem_map_of_mem hc)
    · exact hseen c (List.mem_cons_of_mem _ hc) hmem

theorem firstsOn_of_nodup {l : List β} (h : (l.map f).Nodup) : firstsOn f l = l :=
  firstsOnFrom_of_nodup f h fun _ _ => Finset.notMem_empty _

end Keyed

/-! ## Parts -/

theorem firstsFrom_eq (seen : Finset α) (l : List α) :
    firstsFrom seen l = (firsts l).filter fun a => a ∉ seen := by
  suffices h : ∀ s t : Finset α, firstsFrom (s ∪ t) l = (firstsFrom s l).filter fun a => a ∉ t by
    rw [firsts, ← h ∅ seen, Finset.empty_union]
  induction l with
  | nil => simp [firstsFrom]
  | cons b l ih =>
    intro s t
    unfold firstsFrom
    by_cases hs : b ∈ s
    · rw [if_pos (Finset.mem_union_left _ hs), if_pos hs, ih]
    · rw [if_neg hs]
      by_cases ht : b ∈ t
      · rw [if_pos (Finset.mem_union_right _ ht), ih, List.filter_cons_of_neg (by simpa using ht)]
        have h := ih s {b}
        rw [Finset.union_comm, ← Finset.insert_eq] at h
        rw [h, List.filter_filter]
        refine List.filter_congr fun a _ => ?_
        by_cases hab : a = b
        · simp [hab, ht]
        · simp [hab]
      · rw [if_neg (by simp [hs, ht]), List.filter_cons_of_pos (by simpa using ht),
          ← Finset.insert_union, ih]

/-- What the first part already named is dropped from the second. -/
theorem firsts_append (xs ys : List α) :
    firsts (xs ++ ys) = firsts xs ++ (firsts ys).filter fun a => a ∉ xs := by
  suffices h : ∀ seen, firstsFrom seen (xs ++ ys) =
      firstsFrom seen xs ++ firstsFrom (seen ∪ xs.toFinset) ys by
    rw [firsts, h, firstsFrom_eq (∅ ∪ xs.toFinset) ys]
    simp [firsts]
  induction xs with
  | nil => exact fun seen => by simp [firstsFrom]
  | cons b xs ih =>
    intro seen
    rw [List.cons_append, firstsFrom, firstsFrom]
    by_cases hb : b ∈ seen
    · rw [if_pos hb, if_pos hb, ih, List.toFinset_cons]
      rw [Finset.union_insert, Finset.insert_eq_of_mem (Finset.mem_union_left _ hb)]
    · rw [if_neg hb, if_neg hb, ih, List.toFinset_cons, List.cons_append, Finset.union_insert,
        Finset.insert_union]

theorem firsts_of_nodup {l : List α} (h : l.Nodup) : firsts l = l := by
  induction l with
  | nil => rfl
  | cons b l ih =>
    have hb := List.nodup_cons.1 h
    have : firsts (b :: l) = firsts ([b] ++ l) := rfl
    rw [this, firsts_append, ih hb.2, List.filter_eq_self.2]
    · rfl
    · intro a ha
      have hab : a ≠ b := fun h => hb.1 (h ▸ ha)
      simpa using hab

theorem filter_firsts (p : α → Bool) (l : List α) : (firsts l).filter p = firsts (l.filter p) := by
  induction l with
  | nil => rfl
  | cons b l ih =>
    have hcons : firsts (b :: l) = b :: (firsts l).filter fun a => a ∉ [b] :=
      firsts_append [b] l
    rw [hcons]
    by_cases hb : p b
    · have hcons' : firsts (b :: l.filter p) = b :: (firsts (l.filter p)).filter fun a => a ∉ [b] :=
        firsts_append [b] (l.filter p)
      rw [List.filter_cons_of_pos hb, List.filter_cons_of_pos hb, hcons', ← ih, List.filter_comm]
    · rw [List.filter_cons_of_neg hb, List.filter_cons_of_neg hb, ← ih, List.filter_filter]
      refine List.filter_congr fun a _ => ?_
      by_cases ha : p a
      · have : a ≠ b := fun h => hb (h ▸ ha)
        simp [ha, this]
      · simp [ha]

/-- A member that occurs nowhere else keeps the place it is put at. -/
theorem firsts_insert {xs ys : List α} {a : α} (hx : a ∉ xs) (hy : a ∉ ys) :
    firsts (xs ++ a :: ys) = firsts xs ++ a :: (firsts ys).filter fun b => b ∉ xs := by
  have hcons : firsts (a :: ys) = a :: (firsts ys).filter fun b => b ∉ [a] :=
    firsts_append [a] ys
  have hrest : ((firsts ys).filter fun b => b ∉ [a]) = firsts ys :=
    List.filter_eq_self.2 fun b hb => by
      have : b ≠ a := fun h => hy (h ▸ mem_firsts.1 hb)
      simpa using this
  rw [firsts_append, hcons, hrest, List.filter_cons_of_pos (by simpa using hx)]

/-- A member is put in among repetitions of it.  Nothing else may be named for the first time
between the first of them and its place; then it stands after the others named before. -/
theorem firsts_move {xs ys : List α} {a : α}
    (h : (firsts xs).dropWhile (fun b => b ≠ a) = [] ∨
      (firsts xs).dropWhile (fun b => b ≠ a) = [a]) :
    firsts (xs ++ a :: ys) = placeAt (firsts ((xs ++ ys).filter fun b => b ≠ a))
      ((firsts xs).filter fun b => b ≠ a).length a := by
  have hsplit : firsts ((xs ++ ys).filter fun b => b ≠ a) =
      (firsts xs).filter (fun b => b ≠ a) ++
        ((firsts ys).filter fun b => b ≠ a).filter fun b => b ∉ xs.filter fun b => b ≠ a := by
    rw [List.filter_append, firsts_append, ← filter_firsts, ← filter_firsts]
  have hcons : firsts (a :: ys) = a :: (firsts ys).filter fun b => b ≠ a := by
    refine (firsts_append [a] ys).trans (congrArg (List.cons a) ?_)
    exact List.filter_congr fun b _ => by simp
  rw [hsplit, placeAt_append, firsts_append, hcons]
  have hparts := List.takeWhile_append_dropWhile (p := fun b => decide (b ≠ a)) (l := firsts xs)
  have hbefore : ∀ b ∈ (firsts xs).takeWhile fun b => decide (b ≠ a), b ≠ a := fun b hb => by
    have := List.all_takeWhile (p := fun b => decide (b ≠ a)) (l := firsts xs)
    rw [List.all_eq_true] at this
    exact of_decide_eq_true (this b hb)
  have hself : ((firsts xs).takeWhile fun b => decide (b ≠ a)).filter (fun b => b ≠ a) =
      (firsts xs).takeWhile fun b => decide (b ≠ a) :=
    List.filter_eq_self.2 fun b hb => decide_eq_true (hbefore b hb)
  have hrest : ((firsts ys).filter fun b => b ≠ a).filter
        (fun b => b ∉ xs.filter fun b => b ≠ a) =
      ((firsts ys).filter fun b => b ≠ a).filter fun b => b ∉ xs :=
    List.filter_congr fun b hb => by
      have hne : b ≠ a := of_decide_eq_true (List.mem_filter.1 hb).2
      simp [hne]
  rw [hrest]
  rcases h with hnil | hlast
  · -- the first part does not name the member
    rw [hnil, List.append_nil] at hparts
    rw [hparts] at hself hbefore
    have hnot : a ∉ xs := fun hmem => hbefore a (mem_firsts.2 hmem) rfl
    rw [hself, List.filter_cons_of_pos (by simpa using hnot)]
  · -- it names the member last
    rw [hlast] at hparts
    have hmem : a ∈ xs := by
      rw [← mem_firsts, ← hparts]
      simp
    rw [List.filter_cons_of_neg (by simpa using hmem), ← hparts, List.filter_append, hself]
    simp

/-- Otherwise it stands elsewhere. -/
theorem getElem?_firsts_move {xs ys : List α} {a : α}
    (h : (firsts (xs ++ a :: ys))[((firsts xs).filter fun b => b ≠ a).length]? = some a) :
    (firsts xs).dropWhile (fun b => b ≠ a) = [] ∨
      (firsts xs).dropWhile (fun b => b ≠ a) = [a] := by
  have hparts := List.takeWhile_append_dropWhile (p := fun b => decide (b ≠ a)) (l := firsts xs)
  have hnodup : (firsts (xs ++ a :: ys)).Nodup := firsts_nodup _
  cases hdrop : (firsts xs).dropWhile fun b => decide (b ≠ a) with
  | nil => exact .inl rfl
  | cons b rest =>
    have hb : b = a := by
      have hhead := List.head?_dropWhile_not (fun b => decide (b ≠ a)) (firsts xs)
      rw [hdrop] at hhead
      simpa using hhead
    subst hb
    right
    rw [hdrop] at hparts
    generalize hbefore : (firsts xs).takeWhile (fun c => decide (c ≠ b)) = before at hparts
    have hxs : (firsts xs).Nodup := firsts_nodup xs
    rw [← hparts] at hxs
    have hout : b ∉ before ∧ b ∉ rest := by
      have hperm := List.nodup_middle.1 hxs
      have hnot := (List.nodup_cons.1 hperm).1
      exact ⟨fun hin => hnot (List.mem_append_left _ hin),
        fun hin => hnot (List.mem_append_right _ hin)⟩
    have hlen : ((firsts xs).filter fun c => c ≠ b).length = before.length + rest.length := by
      have hself : ∀ zs : List α, b ∉ zs → zs.filter (fun c => c ≠ b) = zs := fun zs hzs =>
        List.filter_eq_self.2 fun c hc => decide_eq_true fun heq : c = b => hzs (heq ▸ hc)
      rw [← hparts, List.filter_append, List.filter_cons_of_neg (by simp), hself _ hout.1,
        hself _ hout.2, List.length_append]
    have hat : (firsts (xs ++ b :: ys))[before.length]? = some b := by
      rw [firsts_append, ← hparts, List.append_assoc, List.getElem?_append_right le_rfl,
        Nat.sub_self]
      rfl
    rw [hlen] at h
    obtain ⟨hlt, hget⟩ := List.getElem?_eq_some_iff.1 h
    obtain ⟨hlt', hget'⟩ := List.getElem?_eq_some_iff.1 hat
    have hsame := (List.Nodup.getElem_inj_iff hnodup).1 (hget.trans hget'.symm)
    have hnil : rest = [] := List.length_eq_zero_iff.1 (by omega)
    rw [hnil]

/-! ## Parts, by a key -/

section Keyed

variable {β : Type*} (f : β → α)

theorem firstsOnFrom_eq (seen : Finset α) (l : List β) :
    firstsOnFrom f seen l = (firstsOn f l).filter fun b => f b ∉ seen := by
  suffices h : ∀ s t : Finset α,
      firstsOnFrom f (s ∪ t) l = (firstsOnFrom f s l).filter fun b => f b ∉ t by
    rw [firstsOn, ← h ∅ seen, Finset.empty_union]
  induction l with
  | nil => simp [firstsOnFrom]
  | cons b l ih =>
    intro s t
    unfold firstsOnFrom
    by_cases hs : f b ∈ s
    · rw [if_pos (Finset.mem_union_left _ hs), if_pos hs, ih]
    · rw [if_neg hs]
      by_cases ht : f b ∈ t
      · rw [if_pos (Finset.mem_union_right _ ht), ih, List.filter_cons_of_neg (by simpa using ht)]
        have h := ih s {f b}
        rw [Finset.union_comm, ← Finset.insert_eq] at h
        rw [h, List.filter_filter]
        refine List.filter_congr fun a _ => ?_
        by_cases hab : f a = f b
        · simp [hab, ht]
        · simp [hab]
      · rw [if_neg (by simp [hs, ht]), List.filter_cons_of_pos (by simpa using ht),
          ← Finset.insert_union, ih]

theorem firstsOn_cons (b : β) (l : List β) :
    firstsOn f (b :: l) = b :: (firstsOn f l).filter fun c => f c ≠ f b := by
  rw [firstsOn, firstsOnFrom, if_neg (Finset.notMem_empty _), firstsOnFrom_eq]
  simp

/-- What the first part already has is dropped from the second. -/
theorem firstsOn_append (xs ys : List β) :
    firstsOn f (xs ++ ys) = firstsOn f xs ++ (firstsOn f ys).filter fun b => f b ∉ xs.map f := by
  induction xs with
  | nil => simp [firstsOn, firstsOnFrom]
  | cons b xs ih =>
    rw [List.cons_append, firstsOn_cons, firstsOn_cons, ih, List.filter_append, List.filter_filter,
      List.cons_append]
    congr 2
    refine List.filter_congr fun c _ => ?_
    simp

/-- Filtering by the key and keeping the first of every key commute. -/
theorem filter_firstsOn (p : α → Bool) (l : List β) :
    (firstsOn f l).filter (fun b => p (f b)) = firstsOn f (l.filter fun b => p (f b)) := by
  induction l with
  | nil => rfl
  | cons b l ih =>
    rw [firstsOn_cons]
    by_cases hb : p (f b)
    · rw [List.filter_cons_of_pos (p := fun b => p (f b)) hb,
        List.filter_cons_of_pos (p := fun b => p (f b)) hb, firstsOn_cons, ← ih, List.filter_comm]
    · rw [List.filter_cons_of_neg (p := fun b => p (f b)) hb,
        List.filter_cons_of_neg (p := fun b => p (f b)) hb, ← ih, List.filter_filter]
      refine List.filter_congr fun c _ => ?_
      by_cases hc : p (f c)
      · have hne : f c ≠ f b := fun h => hb (h ▸ hc)
        simp [hc, hne]
      · simp [hc]

/-- The first element of a key stands after the elements of other keys that come before it. -/
theorem firstsOn_first {xs ys : List β} {b : β} (hb : f b ∉ xs.map f) :
    firstsOn f (xs ++ b :: ys) =
      placeAt ((firstsOn f (xs ++ ys)).filter fun c => f c ≠ f b) (firstsOn f xs).length b := by
  have hxs : (firstsOn f xs).filter (fun c => f c ≠ f b) = firstsOn f xs := by
    refine List.filter_eq_self.2 fun c hc => decide_eq_true fun heq => hb ?_
    exact heq ▸ List.mem_map_of_mem ((firstsOn_sublist f xs).subset hc)
  rw [firstsOn_append, firstsOn_append, List.filter_append, hxs, placeAt_append, firstsOn_cons,
    List.filter_cons_of_pos (by simpa using hb), List.filter_comm]

end Keyed

end Monoplan.Base
