import Mathlib.Data.List.Infix
import Mathlib.Order.Lattice

/-!
# Stretches of rows

A set of rows kept as a list of stretches, each from one row to another.

* `Stretch`, `Covers`, `Apart`: the rows in a list of stretches, and that they are in order with a
  row between any two.
* `Stretch.without` takes one row out.  The rest is apart just when the stretches met at that row
  alone (`apart_without`).
* `fuse` joins stretches that touch, from the first to the last.  Where a joined stretch is marked
  it ends at most at a given row, its `stop`: rows behind the stop are lost, which happens to the
  next row just when the one before the stop is there (`covers_fuse`, `not_covers_fuse`).
-/

namespace Monoplan.Base

/-- The rows from `lo` to `hi`. -/
@[ext] structure Stretch where
  lo : ℕ
  hi : ℕ
  le : lo ≤ hi
  deriving DecidableEq

namespace Stretch

instance : Membership ℕ Stretch := ⟨fun s i => s.lo ≤ i ∧ i ≤ s.hi⟩

instance decMem (i : ℕ) (s : Stretch) : Decidable (i ∈ s) :=
  inferInstanceAs (Decidable (s.lo ≤ i ∧ i ≤ s.hi))

theorem mem_def {i : ℕ} {s : Stretch} : i ∈ s ↔ s.lo ≤ i ∧ i ≤ s.hi := Iff.rfl

/-- The rows between two, both included. -/
def between (a b : ℕ) : Stretch :=
  ⟨min a b, max a b, (Nat.min_le_left a b).trans (Nat.le_max_left a b)⟩

/-- One row. -/
def single (x : ℕ) : Stretch := ⟨x, x, le_rfl⟩

/-- From the first row of one to the last row of either. -/
def join (s t : Stretch) : Stretch := ⟨s.lo, max s.hi t.hi, s.le.trans (le_max_left _ _)⟩

/-- Without a row. -/
def without (x : ℕ) (s : Stretch) : List Stretch :=
  if x ∈ s then
    (if h : s.lo < x then [⟨s.lo, x - 1, Nat.le_sub_one_of_lt h⟩] else []) ++
      if h : x < s.hi then [⟨x + 1, s.hi, h⟩] else []
  else [s]

/-- End at a row in it. -/
def stopAt (x : ℕ) (s : Stretch) : Stretch := if h : s.lo < x then ⟨s.lo, x, h.le⟩ else s

theorem stopAt_of_lt {x : ℕ} {s : Stretch} (h : s.lo < x) : s.stopAt x = ⟨s.lo, x, h.le⟩ :=
  dif_pos h

theorem stopAt_of_le {x : ℕ} {s : Stretch} (h : x ≤ s.lo) : s.stopAt x = s :=
  dif_neg (Nat.not_lt_of_le h)

end Stretch

open Stretch

/-- A stretch has the row. -/
def Covers (ss : List Stretch) (i : ℕ) : Prop := ∃ s ∈ ss, i ∈ s

/-- In order, with a row between any two. -/
def Apart (ss : List Stretch) : Prop := ss.Pairwise fun s t => s.hi + 1 < t.lo

/-- In order, with a row between any two or both ending at `x`; stretches of `x` alone do not
count. -/
def ApartBut (x : ℕ) (ss : List Stretch) : Prop :=
  ss.Pairwise fun s t => s = single x ∨ t = single x ∨
    s.hi ≤ t.lo ∧ (s.hi + 1 < t.lo ∨ s.hi = x ∨ t.lo = x)

variable {i x : ℕ} {s t : Stretch} {ss : List Stretch}

@[simp] theorem covers_nil : Covers [] i ↔ False := by simp [Covers]

@[simp] theorem covers_cons : Covers (s :: ss) i ↔ i ∈ s ∨ Covers ss i := by simp [Covers]

theorem covers_flatMap {f : Stretch → List Stretch} :
    Covers (ss.flatMap f) i ↔ ∃ s ∈ ss, Covers (f s) i := by
  simp only [Covers, List.mem_flatMap]
  constructor
  · rintro ⟨t, ⟨s, hs, ht⟩, hi⟩
    exact ⟨s, hs, t, ht, hi⟩
  · rintro ⟨s, hs, t, ht, hi⟩
    exact ⟨t, ⟨s, hs, ht⟩, hi⟩

theorem eq_single_iff : s = single x ↔ s.lo = x ∧ s.hi = x := Stretch.ext_iff

/-! ## Taking a row out -/

/-- What is left of a stretch: all of it, what was above the row and what was below it. -/
theorem mem_without : t ∈ s.without x ↔ (x ∉ s ∧ t = s) ∨
    (x ∈ s ∧ s.lo < x ∧ t.lo = s.lo ∧ t.hi + 1 = x) ∨
    (x ∈ s ∧ x < s.hi ∧ t.lo = x + 1 ∧ t.hi = s.hi) := by
  unfold without
  by_cases hx : x ∈ s
  · have habove : t ∈ (if h : s.lo < x then [⟨s.lo, x - 1, Nat.le_sub_one_of_lt h⟩] else []) ↔
        s.lo < x ∧ t.lo = s.lo ∧ t.hi + 1 = x := by
      split
      · rw [List.mem_singleton, Stretch.ext_iff]
        dsimp only
        omega
      · rename_i hlo
        exact iff_of_false List.not_mem_nil fun h => hlo h.1
    have hbelow : t ∈ (if h : x < s.hi then [⟨x + 1, s.hi, h⟩] else []) ↔
        x < s.hi ∧ t.lo = x + 1 ∧ t.hi = s.hi := by
      split
      · rename_i hhi
        rw [List.mem_singleton, Stretch.ext_iff, and_iff_right hhi]
      · rename_i hhi
        exact iff_of_false List.not_mem_nil fun h => hhi h.1
    rw [if_pos hx, List.mem_append, habove, hbelow]
    simp [hx]
  · rw [if_neg hx, List.mem_singleton]
    simp [hx]

theorem covers_without : Covers (s.without x) i ↔ i ∈ s ∧ i ≠ x := by
  constructor
  · rintro ⟨t, ht, hi⟩
    rcases mem_without.1 ht with ⟨hx, rfl⟩ | ⟨hx, -, hlo, hhi⟩ | ⟨hx, -, hlo, hhi⟩
    · exact ⟨hi, fun heq => hx (heq ▸ hi)⟩
    all_goals
      rw [mem_def] at *
      omega
  · rintro ⟨hi, hne⟩
    by_cases hx : x ∈ s
    · rw [mem_def] at *
      rcases Nat.lt_or_gt_of_ne hne with hlt | hgt
      · refine ⟨⟨s.lo, x - 1, by omega⟩, mem_without.2 (.inr (.inl ⟨hx, ?_⟩)), ?_⟩
        · dsimp only
          omega
        · exact ⟨hi.1, Nat.le_sub_one_of_lt hlt⟩
      · refine ⟨⟨x + 1, s.hi, by omega⟩, mem_without.2 (.inr (.inr ⟨hx, ?_⟩)), hgt, hi.2⟩
        exact ⟨by omega, rfl, rfl⟩
    · exact ⟨s, mem_without.2 (.inl ⟨hx, rfl⟩), hi⟩

/-- The last row that is left. -/
theorem exists_last_without (h : s ≠ single x) : ∃ p ∈ s.without x,
    (p.hi = if s.hi = x then x - 1 else s.hi) ∧ ∀ q ∈ s.without x, q.hi ≤ p.hi := by
  have hle := s.le
  rw [Ne, eq_single_iff] at h
  have hall : ∀ q ∈ s.without x, q.hi ≤ if s.hi = x then x - 1 else s.hi := fun q hq => by
    rcases mem_without.1 hq with ⟨hx, rfl⟩ | ⟨hx, hlt, hlo, hhi⟩ | ⟨hx, hlt, hlo, hhi⟩
    all_goals
      rw [mem_def] at hx
      split <;> omega
  by_cases hhi : s.hi = x
  · refine ⟨⟨s.lo, x - 1, by omega⟩, mem_without.2 (.inr (.inl ?_)), ?_, ?_⟩
    · rw [mem_def]
      dsimp only
      omega
    · rw [if_pos hhi]
    · rw [if_pos hhi] at hall
      exact hall
  · rw [if_neg hhi] at hall ⊢
    by_cases hx : x ∈ s
    · refine ⟨⟨x + 1, s.hi, ?_⟩, mem_without.2 (.inr (.inr ⟨hx, ?_, rfl, rfl⟩)), rfl, hall⟩
      all_goals
        rw [mem_def] at hx
        omega
    · exact ⟨s, mem_without.2 (.inl ⟨hx, rfl⟩), rfl, hall⟩

/-- The first row that is left. -/
theorem exists_first_without (h : s ≠ single x) : ∃ p ∈ s.without x,
    (p.lo = if s.lo = x then x + 1 else s.lo) ∧ ∀ q ∈ s.without x, p.lo ≤ q.lo := by
  have hle := s.le
  rw [Ne, eq_single_iff] at h
  have hall : ∀ q ∈ s.without x, (if s.lo = x then x + 1 else s.lo) ≤ q.lo := fun q hq => by
    rcases mem_without.1 hq with ⟨hx, rfl⟩ | ⟨hx, hlt, hlo, hhi⟩ | ⟨hx, hlt, hlo, hhi⟩
    all_goals
      rw [mem_def] at hx
      split <;> omega
  by_cases hlo : s.lo = x
  · refine ⟨⟨x + 1, s.hi, by omega⟩, mem_without.2 (.inr (.inr ?_)), ?_, ?_⟩
    · rw [mem_def]
      dsimp only
      omega
    · rw [if_pos hlo]
    · rw [if_pos hlo] at hall
      exact hall
  · rw [if_neg hlo] at hall ⊢
    by_cases hx : x ∈ s
    · rw [mem_def] at hx
      have hlt : s.lo < x := by omega
      refine ⟨⟨s.lo, x - 1, by omega⟩, mem_without.2 (.inr (.inl ⟨hx, hlt, rfl, ?_⟩)), rfl, hall⟩
      exact Nat.sub_add_cancel (Nat.one_le_of_lt hlt)
    · exact ⟨s, mem_without.2 (.inl ⟨hx, rfl⟩), rfl, hall⟩

/-- Two stretches without a row are apart just when they met at it alone. -/
theorem forall_without : (∀ p ∈ s.without x, ∀ q ∈ t.without x, p.hi + 1 < q.lo) ↔
    s = single x ∨ t = single x ∨
      s.hi ≤ t.lo ∧ (s.hi + 1 < t.lo ∨ s.hi = x ∨ t.lo = x) := by
  have hnone : (single x).without x = [] := by
    refine List.eq_nil_iff_forall_not_mem.2 fun p hp => ?_
    obtain ⟨⟨hlo, hhi⟩, hne⟩ := covers_without.1 ⟨p, hp, le_rfl, p.le⟩
    exact hne (le_antisymm hhi hlo)
  by_cases hs : s = single x
  · refine iff_of_true (fun p hp => ?_) (.inl hs)
    rw [hs, hnone] at hp
    exact absurd hp List.not_mem_nil
  by_cases ht : t = single x
  · refine iff_of_true (fun p _ q hq => ?_) (.inr (.inl ht))
    rw [ht, hnone] at hq
    exact absurd hq List.not_mem_nil
  obtain ⟨p, hp, hlast, hhi⟩ := exists_last_without hs
  obtain ⟨q, hq, hfirst, hlo⟩ := exists_first_without ht
  have hboth : (∀ p ∈ s.without x, ∀ q ∈ t.without x, p.hi + 1 < q.lo) ↔ p.hi + 1 < q.lo :=
    ⟨fun h => h p hp q hq, fun h p' hp' q' hq' => by
      have hp'' := hhi p' hp'
      have hq'' := hlo q' hq'
      omega⟩
  rw [hboth, hlast, hfirst, or_iff_right hs, or_iff_right ht]
  rw [eq_single_iff] at hs ht
  have hsle := s.le
  have htle := t.le
  split <;> split <;> omega

theorem pairwise_without (x : ℕ) (s : Stretch) : Apart (s.without x) := by
  unfold without Apart
  split
  · split <;> split <;> simp
    omega
  · exact List.pairwise_singleton _ _

/-- **Without a row the stretches are apart** just when they met at that row alone. -/
theorem apart_without (x : ℕ) (ss : List Stretch) :
    Apart (ss.flatMap (without x)) ↔ ApartBut x ss := by
  rw [Apart, List.pairwise_flatMap, ApartBut]
  constructor
  · rintro ⟨-, h⟩
    exact h.imp fun hst => forall_without.1 hst
  · intro h
    exact ⟨fun s _ => pairwise_without x s, h.imp fun hst => forall_without.2 hst⟩

/-! ## Joining stretches that touch -/

/-- Join each stretch to the one before it where they touch.  A stretch joined from a marked one
ends at the stop. -/
def fuse (stop : Option ℕ) : Stretch → Bool → List (Stretch × Bool) → List Stretch
  | current, _, [] => [current]
  | current, marked, (next, mark) :: rest =>
    if next.lo ≤ current.hi + 1 then
      let joined := current.join next
      fuse stop (if marked || mark then stop.elim joined joined.stopAt else joined)
        (marked || mark) rest
    else current :: fuse stop next mark rest

section Fuse

variable {stop : Option ℕ} {current next : Stretch} {marked mark : Bool}
  {rest : List (Stretch × Bool)}

/-- The stop is an end of every marked stretch, and the stretches are in the order of their first
rows. -/
structure Fusible (stop : Option ℕ) (ms : List (Stretch × Bool)) : Prop where
  sorted : ms.Pairwise fun s t => s.1.lo ≤ t.1.lo
  ends : ∀ s, (s, true) ∈ ms → ∀ x ∈ stop, x ∈ s ∧ (x = s.lo ∨ x = s.hi)

/-- The next stretch joined to the current one. -/
def joined (stop : Option ℕ) (current : Stretch) (marked : Bool) (next : Stretch) : Stretch :=
  if marked then stop.elim (current.join next) (current.join next).stopAt else current.join next

theorem fuse_join (h : next.lo ≤ current.hi + 1) :
    fuse stop current marked ((next, mark) :: rest) =
      fuse stop (joined stop current (marked || mark) next) (marked || mark) rest := by
  rw [fuse, if_pos h]
  rfl

theorem fuse_apart (h : ¬next.lo ≤ current.hi + 1) :
    fuse stop current marked ((next, mark) :: rest) = current :: fuse stop next mark rest := by
  rw [fuse, if_neg h]

@[simp] theorem joined_lo (stop : Option ℕ) (current : Stretch) (marked : Bool) (next : Stretch) :
    (joined stop current marked next).lo = current.lo := by
  unfold joined
  cases stop with
  | none => split <;> rfl
  | some x =>
    split
    · show ((current.join next).stopAt x).lo = _
      rw [stopAt]
      split <;> rfl
    · rfl

/-- The stop cuts a joined stretch that begins above it. -/
theorem joined_cases (stop : Option ℕ) (current : Stretch) (marked : Bool) (next : Stretch) :
    joined stop current marked next = current.join next ∧
        (marked = true → ∀ x ∈ stop, x ≤ current.lo) ∨
      ∃ x ∈ stop, marked = true ∧ current.lo < x ∧ (joined stop current marked next).hi = x := by
  unfold joined
  cases marked with
  | false => exact .inl ⟨rfl, fun h => Bool.noConfusion h⟩
  | true =>
    cases stop with
    | none => exact .inl ⟨rfl, fun _ x hx => by cases hx⟩
    | some x =>
      show (current.join next).stopAt x = _ ∧ _ ∨ ∃ y ∈ some x, _ ∧ _ ∧
        ((current.join next).stopAt x).hi = y
      rcases Nat.lt_or_ge current.lo x with h | h
      · exact .inr ⟨x, rfl, rfl, h, by
          rw [stopAt_of_lt (show (current.join next).lo < x from h)]⟩
      · refine .inl ⟨stopAt_of_le h, fun _ y hy => ?_⟩
        cases hy
        exact h

theorem mem_join (h : next.lo ≤ current.hi + 1) (hle : current.lo ≤ next.lo) :
    i ∈ current.join next ↔ i ∈ current ∨ i ∈ next := by
  rw [mem_def, mem_def, mem_def]
  show current.lo ≤ i ∧ i ≤ max current.hi next.hi ↔ _
  omega

namespace Fusible

variable (h : Fusible stop ((current, marked) :: (next, mark) :: rest))

include h

theorem le_next : current.lo ≤ next.lo :=
  (List.pairwise_cons.1 h.sorted).1 _ List.mem_cons_self

theorem tail : Fusible stop ((next, mark) :: rest) :=
  ⟨(List.pairwise_cons.1 h.sorted).2, fun s hs => h.ends s (List.mem_cons_of_mem _ hs)⟩

/-- The stop is in what is joined from a marked stretch. -/
theorem stop_mem (htouch : next.lo ≤ current.hi + 1) (hmarked : (marked || mark) = true) {x : ℕ}
    (hx : x ∈ stop) : x ∈ current.join next := by
  rw [mem_join htouch h.le_next]
  rcases (Bool.or_eq_true _ _).mp hmarked with rfl | rfl
  · exact .inl (h.ends current List.mem_cons_self x hx).1
  · exact .inr (h.ends next (List.mem_cons_of_mem _ List.mem_cons_self) x hx).1

/-- What is joined has no other rows. -/
theorem joined_sub (htouch : next.lo ≤ current.hi + 1)
    (hi : i ∈ joined stop current (marked || mark) next) : i ∈ current ∨ i ∈ next := by
  rw [← mem_join htouch h.le_next]
  rcases joined_cases stop current (marked || mark) next with ⟨heq, -⟩ | ⟨x, hx, hmarked, -, hhi⟩
  · exact heq ▸ hi
  · have hmem := h.stop_mem htouch hmarked hx
    rw [mem_def, joined_lo, hhi] at hi
    exact ⟨hi.1, hi.2.trans hmem.2⟩

theorem join (htouch : next.lo ≤ current.hi + 1) :
    Fusible stop ((joined stop current (marked || mark) next, marked || mark) :: rest) := by
  refine ⟨List.pairwise_cons.2 ⟨fun t ht => ?_, h.tail.sorted.tail⟩, fun s hs x hx => ?_⟩
  · rw [joined_lo]
    exact (List.pairwise_cons.1 h.sorted).1 t (List.mem_cons_of_mem _ ht)
  · rcases List.mem_cons.1 hs with heq | hs
    · rw [Prod.mk.injEq] at heq
      obtain ⟨rfl, hmarked⟩ := heq
      have hmem := h.stop_mem htouch hmarked.symm hx
      rcases joined_cases stop current (marked || mark) next with ⟨heq, hle⟩ | ⟨y, hy, -, hlt, hhi⟩
      · rw [heq]
        exact ⟨hmem, .inl (le_antisymm (hle hmarked.symm x hx) hmem.1)⟩
      · obtain rfl := Option.mem_unique hx hy
        exact ⟨⟨by rw [joined_lo]; exact hlt.le, hhi.ge⟩, .inr hhi.symm⟩
    · exact h.tail.ends s (List.mem_cons_of_mem _ hs) x hx

end Fusible

/-- **What is fused is apart**, and begins where the first stretch does. -/
theorem apart_fuse (h : Fusible stop ((current, marked) :: rest)) :
    Apart (fuse stop current marked rest) ∧
      ∀ s ∈ fuse stop current marked rest, current.lo ≤ s.lo := by
  induction rest generalizing current marked with
  | nil =>
    refine ⟨List.pairwise_singleton _ _, fun s hs => ?_⟩
    rw [List.mem_singleton.1 hs]
  | cons m rest ih =>
    obtain ⟨next, mark⟩ := m
    by_cases htouch : next.lo ≤ current.hi + 1
    · have hrest := ih (h.join htouch)
      rw [joined_lo] at hrest
      rw [fuse_join htouch]
      exact hrest
    · obtain ⟨hapart, hfirst⟩ := ih h.tail
      rw [fuse_apart htouch]
      refine ⟨List.pairwise_cons.2 ⟨fun s hs => ?_, hapart⟩, fun s hs => ?_⟩
      · exact (Nat.lt_of_not_le htouch).trans_le (hfirst s hs)
      · rcases List.mem_cons.1 hs with rfl | hs
        · exact le_rfl
        · exact h.le_next.trans (hfirst s hs)

/-- The rows of marked stretches. -/
abbrev CoversMarked (ms : List (Stretch × Bool)) (i : ℕ) : Prop := Covers (ms.map Prod.fst) i

/-- No rows are added. -/
theorem covers_of_fuse (h : Fusible stop ((current, marked) :: rest))
    (hi : Covers (fuse stop current marked rest) i) :
    CoversMarked ((current, marked) :: rest) i := by
  induction rest generalizing current marked with
  | nil => exact hi
  | cons m rest ih =>
    obtain ⟨next, mark⟩ := m
    by_cases htouch : next.lo ≤ current.hi + 1
    · rw [fuse_join htouch] at hi
      have hrest := ih (h.join htouch) hi
      simp only [CoversMarked, List.map_cons, covers_cons] at hrest ⊢
      rcases hrest with hi | hi
      · rw [← or_assoc]
        exact .inl (h.joined_sub htouch hi)
      · exact .inr (.inr hi)
    · rw [fuse_apart htouch, covers_cons] at hi
      rw [CoversMarked, List.map_cons, covers_cons]
      exact hi.imp id (ih h.tail)

/-- The rows of a stretch that can be lost: those behind the stop, where the stretch begins above
the row behind it and the row before the stop is there. -/
def Loses (stop : Option ℕ) (ms : List (Stretch × Bool)) (s : Stretch) (i : ℕ) : Prop :=
  ∃ x ∈ stop, x < i ∧ s.lo ≤ x + 1 ∧ (∃ j, j + 1 = x ∧ CoversMarked ms j) ∧ ∃ t, (t, true) ∈ ms

/-- Every row is at or behind the first one. -/
theorem Fusible.le_of_coversMarked (h : Fusible stop ((current, marked) :: rest))
    (hi : CoversMarked ((current, marked) :: rest) i) : current.lo ≤ i := by
  obtain ⟨s, hs, hlo, -⟩ := hi
  obtain ⟨m, hm, rfl⟩ := List.mem_map.1 hs
  rcases List.mem_cons.1 hm with rfl | hm
  · exact hlo
  · exact ((List.pairwise_cons.1 h.sorted).1 m hm).trans hlo

namespace Fusible

variable (h : Fusible stop ((current, marked) :: (next, mark) :: rest))

include h

theorem coversMarked_join (htouch : next.lo ≤ current.hi + 1)
    (hi : CoversMarked ((joined stop current (marked || mark) next, marked || mark) :: rest) i) :
    CoversMarked ((current, marked) :: (next, mark) :: rest) i := by
  simp only [CoversMarked, List.map_cons, covers_cons] at hi ⊢
  rcases hi with hi | hi
  · rw [← or_assoc]
    exact .inl (h.joined_sub htouch hi)
  · exact .inr (.inr hi)

end Fusible

/-- A mark in front of a joined stretch is one in front of either. -/
theorem exists_mark_join {s : Stretch} : (∃ t, (t, true) ∈ (s, marked || mark) :: rest) ↔
    ∃ t, (t, true) ∈ (current, marked) :: (next, mark) :: rest := by
  cases marked <;> cases mark <;> simp

section Front

variable {s : Stretch} (h : Fusible stop ((current, marked) :: (next, mark) :: rest))
  (htouch : next.lo ≤ current.hi + 1) (hs : s = current ∨ s = next)

include h htouch hs

/-- A row of either stretch is in what is joined, or lost. -/
theorem mem_joined_or_loses (hi : i ∈ s) : i ∈ joined stop current (marked || mark) next ∨
    Loses stop ((current, marked) :: (next, mark) :: rest) s i := by
  have hle := h.le_next
  have hjoin : i ∈ current.join next := by
    rw [mem_join htouch hle]
    rcases hs with rfl | rfl
    · exact .inl hi
    · exact .inr hi
  rcases joined_cases stop current (marked || mark) next with
    ⟨heq, -⟩ | ⟨x, hx, hmarked, hlt, hhi⟩
  · exact .inl (heq ▸ hjoin)
  · by_cases hxi : x < i
    · have hstop := h.stop_mem htouch hmarked hx
      have hj : x - 1 ∈ current.join next :=
        ⟨Nat.le_sub_one_of_lt hlt, (Nat.sub_le x 1).trans hstop.2⟩
      rw [mem_join htouch hle] at hj
      have hnext : next.lo ≤ x + 1 := by
        rcases (Bool.or_eq_true _ _).mp hmarked with rfl | rfl
        · have hend := (h.ends current List.mem_cons_self x hx).2
          omega
        · have hmem := (h.ends next (List.mem_cons_of_mem _ List.mem_cons_self) x hx).1.1
          omega
      refine .inr ⟨x, hx, hxi, ?_, ⟨x - 1, Nat.sub_add_cancel (Nat.one_le_of_lt hlt), ?_⟩, ?_⟩
      · rcases hs with rfl | rfl
        · exact hle.trans hnext
        · exact hnext
      · simp only [CoversMarked, List.map_cons, covers_cons]
        rw [← or_assoc]
        exact .inl hj
      · rw [← exists_mark_join (s := current), hmarked]
        exact ⟨current, List.mem_cons_self⟩
    · refine .inl ⟨?_, ?_⟩
      · rw [joined_lo]
        exact hjoin.1
      · rw [hhi]
        exact Nat.le_of_not_lt hxi

/-- What is lost of the joined stretch is lost of either. -/
theorem loses_of_joined
    (hlost : Loses stop ((joined stop current (marked || mark) next, marked || mark) :: rest)
      (joined stop current (marked || mark) next) i)
    (hi : i ∈ joined stop current (marked || mark) next) :
    Loses stop ((current, marked) :: (next, mark) :: rest) s i := by
  obtain ⟨x, hx, hxi, -, ⟨j, hj, hcovers⟩, t, ht⟩ := hlost
  have hcovers' := h.coversMarked_join htouch hcovers
  have hfirst := h.le_of_coversMarked hcovers'
  rcases List.mem_cons.1 ht with ht | ht
  · -- a marked stretch that was joined ends at the stop, or begins there
    rcases joined_cases stop current (marked || mark) next with
      ⟨-, hstop⟩ | ⟨y, hy, -, -, hhi⟩
    · have hle := hstop (Prod.mk.inj ht).2.symm x hx
      omega
    · rw [Option.mem_unique hy hx] at hhi
      exact absurd (hi.2.trans hhi.le) (Nat.not_le_of_lt hxi)
  · have hmem := (h.join htouch).ends t (List.mem_cons_of_mem _ ht) x hx
    have hnext := (List.pairwise_cons.1 h.tail.sorted).1 _ ht
    have hlo : s.lo ≤ next.lo := by
      rcases hs with rfl | rfl
      · exact h.le_next
      · exact le_rfl
    exact ⟨x, hx, hxi, (hlo.trans hnext).trans (hmem.1.1.trans (Nat.le_succ x)),
      ⟨j, hj, hcovers'⟩, t, List.mem_cons_of_mem _ (List.mem_cons_of_mem _ ht)⟩

end Front

/-- **Other rows are kept.** -/
theorem covers_fuse (h : Fusible stop ((current, marked) :: rest)) {s : Stretch} {m : Bool}
    (hs : (s, m) ∈ (current, marked) :: rest) (hi : i ∈ s) :
    Covers (fuse stop current marked rest) i ∨ Loses stop ((current, marked) :: rest) s i := by
  induction rest generalizing current marked s m with
  | nil =>
    obtain ⟨rfl, -⟩ := Prod.mk.inj (List.mem_singleton.1 hs)
    exact .inl ⟨s, List.mem_cons_self, hi⟩
  | cons n rest ih =>
    obtain ⟨next, mark⟩ := n
    by_cases htouch : next.lo ≤ current.hi + 1
    · rw [fuse_join htouch]
      by_cases hfront : s = current ∨ s = next
      · rcases mem_joined_or_loses h htouch hfront hi with hjoined | hlost
        · exact (ih (h.join htouch) List.mem_cons_self hjoined).imp id fun hlost =>
            loses_of_joined h htouch hfront hlost hjoined
        · exact .inr hlost
      · rw [not_or] at hfront
        have hrest : (s, m) ∈ rest := by
          rcases List.mem_cons.1 hs with heq | hs
          · exact absurd (Prod.mk.inj heq).1 hfront.1
          · exact (List.mem_cons.1 hs).resolve_left fun heq => hfront.2 (Prod.mk.inj heq).1
        rcases ih (h.join htouch) (List.mem_cons_of_mem _ hrest) hi with
          hkept | ⟨x, hx, hxi, hlo, ⟨j, hj, hcovers⟩, hmark⟩
        · exact .inl hkept
        · exact .inr ⟨x, hx, hxi, hlo, ⟨j, hj, h.coversMarked_join htouch hcovers⟩,
            exists_mark_join.1 hmark⟩
    · rw [fuse_apart htouch]
      rcases List.mem_cons.1 hs with heq | hs
      · obtain ⟨rfl, -⟩ := Prod.mk.inj heq
        exact .inl ⟨s, List.mem_cons_self, hi⟩
      · rcases ih h.tail hs hi with hkept | ⟨x, hx, hxi, hlo, ⟨j, hj, hcovers⟩, t, ht⟩
        · exact .inl (covers_cons.2 (.inr hkept))
        · exact .inr ⟨x, hx, hxi, hlo, ⟨j, hj, covers_cons.2 (.inr hcovers)⟩, t,
            List.mem_cons_of_mem _ ht⟩

/-- **The row behind the stop is lost** where the one before it is there. -/
theorem not_covers_fuse (h : Fusible stop ((current, marked) :: rest)) {x : ℕ}
    (hx : x + 1 ∈ stop) (hmark : ∃ t, (t, true) ∈ (current, marked) :: rest)
    (hbefore : CoversMarked ((current, marked) :: rest) x) :
    ¬Covers (fuse stop current marked rest) (x + 2) := by
  induction rest generalizing current marked with
  | nil =>
    obtain ⟨t, ht⟩ := hmark
    obtain ⟨hmem, hend⟩ := h.ends t ht _ hx
    obtain ⟨rfl, -⟩ := Prod.mk.inj (List.mem_singleton.1 ht)
    obtain ⟨hlo, -⟩ := (covers_cons.1 hbefore).resolve_right covers_nil.1
    rw [fuse, covers_cons, covers_nil, or_false]
    rw [mem_def] at *
    dsimp only at hlo
    omega
  | cons n rest ih =>
    obtain ⟨next, mark⟩ := n
    have hle := h.le_next
    by_cases htouch : next.lo ≤ current.hi + 1
    · rw [fuse_join htouch]
      refine ih (h.join htouch) (exists_mark_join.2 hmark) ?_
      simp only [CoversMarked, List.map_cons, covers_cons] at hbefore ⊢
      rw [← or_assoc, ← mem_join htouch hle] at hbefore
      rcases hbefore with hjoin | hrest
      · rcases joined_cases stop current (marked || mark) next with
          ⟨heq, -⟩ | ⟨y, hy, -, hlt, hhi⟩
        · exact .inl (heq ▸ hjoin)
        · rw [Option.mem_unique hy hx] at hhi
          exact .inl ⟨by rw [joined_lo]; exact hjoin.1, by rw [hhi]; exact Nat.le_succ x⟩
      · exact .inr hrest
    · rw [fuse_apart htouch, covers_cons]
      have hbehind : ∀ j, CoversMarked ((next, mark) :: rest) j → next.lo ≤ j := fun j =>
        h.tail.le_of_coversMarked
      rw [CoversMarked, List.map_cons, covers_cons] at hbefore
      obtain ⟨t, ht⟩ := hmark
      obtain ⟨hmem, hend⟩ := h.ends t ht _ hx
      rcases List.mem_cons.1 ht with heq | ht
      · -- the stop ends the current stretch
        obtain ⟨rfl, -⟩ := Prod.mk.inj heq
        have hxt : x ∈ t := hbefore.resolve_right fun hrest => by
          have hle' := hbehind x hrest
          have hhi := hmem.2
          omega
        rintro (hcur | hrest)
        · rw [mem_def] at hcur hxt
          omega
        · have hle' := hbehind _ (covers_of_fuse h.tail hrest)
          have hhi := hmem.2
          omega
      · have hxt : next.lo ≤ x + 1 := hbehind (x + 1)
          ⟨t, List.mem_map.2 ⟨_, ht, rfl⟩, hmem⟩
        have hrest := hbefore.resolve_left fun hcur => by
          have hhi := hcur.2
          dsimp only at hhi
          omega
        rintro (hcur | hfuse)
        · have hhi := hcur.2
          omega
        · exact ih h.tail ⟨t, ht⟩ hrest hfuse

end Fuse

end Monoplan.Base
