import Monoplan.Base.Loop
import Monoplan.Calendar.Agree
import Monoplan.Calendar.Days

/-!
# Spans of days

A `when` with a duration covers days, and `groupByDay` places its item on those that are not over.

* `due` says, by the calendar, on which days an item belongs and by which field.
* `Stepped` is what a span and a day must satisfy for the web to find the days of the span by
  stepping through stamps and comparing them as strings.  `visits_iff` and `past_iff` are the two
  halves of it, on days that are left and on spans that are over.
* `PlacesExactly` is what the groups should be; `groupByDay_exact_iff` says that they are if and
  only if every span that is looked at is `Stepped`.  Otherwise the loop over days does not end, or
  passes over days, or finds ones that are none.
-/

namespace Monoplan.Calendar

open Monoplan.Base Monoplan.Doc

/-! ## Where items belong -/

/-- The days of a `when` that are not over. -/
def dueDays (today when : String) (duration : Option ℕ) : List String :=
  let days := (List.range (spanEndOffset when duration + 1)).map fun i =>
    (dayOf (whenDay when)).plus i
  (days.filter fun d => decide ((dayOf today).rank ≤ d.rank)).map Date.stamp

/-- Where an item belongs that no `when` places. -/
def dueElsewhere (today : String) (it : ItemView) : List (String × DayPlacedBy) :=
  if it.isBinned ∨ isClosed it then []
  else
    match it.deadline with
    | some d => if d < today then [(OVERDUE_KEY, .deadline)] else [(d, .deadline)]
    | none => if it.isEvent ∧ it.when = none then [(UNSCHEDULED_KEY, .none)] else []

/-- Where an item belongs: a closed one by its `when` only, an open one by what is first. -/
def due (today : String) (it : ItemView) : List (String × DayPlacedBy) :=
  match it.when.map fun w => dueDays today w it.duration with
  | some (first :: days) =>
    if it.isBinned = false ∧ (isClosed it ∨ ∀ d ∈ it.deadline, first ≤ d) then
      (first :: days).map fun d => (d, .when)
    else dueElsewhere today it
  | _ => dueElsewhere today it

/-- The last day of four digits. -/
def LAST_DATE : Date := ⟨9999, 12, 31⟩

/-- The last day whose stamp begins with a zero. -/
def LAST_PADDED : Date := ⟨999, 12, 31⟩

/-- What a span of `k` days after `s` and today must satisfy for the web to step through it as the
calendar does.

A span that is over must have an end that the web writes as a stamp before today.  One that is not
must end before the last day of all, the web must find its end behind its last day and no earlier
than that, and, unless only the last day is left, it must have no padded stamp but the last one. -/
def Stepped (s : Date) (k : ℕ) (t : Date) : Prop :=
  if (s.plus k).rank < t.rank then
    k = 0 ∨ 1000 ≤ (s.plus k).year ∨ (100 ≤ s.year ∧ 10 * (s.plus k).year ≤ t.year) ∨
      (s.year < 100 ∧ (s.asRead.plus k).rank < t.rank)
  else
    (s.plus k).rank < LAST_DATE.rank ∧
      (k = 0 ∨ 1000 ≤ (s.plus k).year ∨
        (100 ≤ s.year ∧ (s.plus k).rank < LAST_PADDED.rank) ∨
        ((s.plus k).year < 100 ∧ ∀ i < k, s.plus i ≠ Date.LEAP_DAY)) ∧
      (max s.rank t.rank = (s.plus k).rank ∨ LAST_PADDED.rank ≤ max s.rank t.rank)

/-! ## Stepping through stamps -/

/-- The step of the loops. -/
def nextStamp (stamp : String) : String := addDaysToStamp stamp 1

/-- The end of a span, as the web writes it. -/
def lastStamp (s : Date) (k : ℕ) : String :=
  if 0 < k then addDaysToStamp s.stamp k else s.stamp

section Dates

open Date

variable {d e s t : Date} {i k m n : ℕ}

theorem lastDate_rank (h : d.Real) (hyear : d.year < 10000) : d.rank ≤ LAST_DATE.rank := by
  have hbounds := h.bounds
  show d.rank ≤ 372 * 9999 + 31 * 12 + 31
  omega

/-- From the last padded stamp on, the step is the calendar's. -/
theorem nextStamp_stamp (h : d.Real) (hlo : LAST_PADDED.rank ≤ d.rank)
    (hhi : d.rank < LAST_DATE.rank) : nextStamp d.stamp = d.next.stamp := by
  have hbounds := h.bounds
  have hnext := h.next.bounds
  have hlt := h.rank_lt_next
  have hle := h.next_rank_le (t := LAST_DATE) ⟨by decide, by decide, by decide, by decide⟩ hhi
  have hlo' : 372 * 999 + 31 * 12 + 31 ≤ d.rank := hlo
  have hle' : d.next.rank ≤ 372 * 9999 + 31 * 12 + 31 := hle
  have hlo' : 1000 ≤ d.next.year := by omega
  have hhi' : d.next.year < 10000 := by omega
  rw [nextStamp, addDaysToStamp_stamp h (by omega), asRead_of_le h (by omega)]
  exact localDateStamp_eq h.next hlo' hhi'

theorem iterate_nextStamp (h : d.Real) (hlo : LAST_PADDED.rank ≤ d.rank)
    (hhi : (d.plus n).rank ≤ LAST_DATE.rank) : nextStamp^[n] d.stamp = (d.plus n).stamp := by
  induction n with
  | zero => rfl
  | succ n ih =>
    have hlt : (d.plus n).rank < (d.plus (n + 1)).rank := h.rank_plus_lt (Nat.lt_succ_self n)
    have hge : d.rank ≤ (d.plus n).rank := h.rank_plus_le (m := 0) (Nat.zero_le n)
    rw [Function.iterate_succ_apply', ih (by omega), plus_succ]
    exact nextStamp_stamp (h.plus n) (hlo.trans hge) (by omega)

/-- Before, the step is to a stamp that is no day's, or to another century. -/
theorem nextStamp_ne (h : d.Real) (hlt : d.rank < LAST_PADDED.rank) (he : e.Real)
    (hyear : e.year ≤ d.year + 1) : nextStamp d.stamp ≠ e.stamp := by
  have hbounds := h.bounds
  have hlt' : d.rank < 372 * 999 + 31 * 12 + 31 := hlt
  rw [nextStamp, addDaysToStamp_stamp h (by omega)]
  rcases Nat.lt_or_ge d.year 100 with hcentury | hcentury
  · have hread := asRead_year h hcentury
    have hnext := next_year d.asRead
    show localDateStamp d.asRead.next ≠ _
    rw [localDateStamp_eq h.asRead.1.next (by omega) (by omega)]
    intro heq
    have hsame := congrArg Date.year (stamp_inj h.asRead.1.next he (by omega) (by omega) heq)
    omega
  · have hle := h.next_rank_le (t := LAST_PADDED) ⟨by decide, by decide, by decide, by decide⟩ hlt
    have hle' : d.next.rank ≤ 372 * 999 + 31 * 12 + 31 := hle
    have hnext := h.next.bounds
    have hyears := next_year d
    rw [asRead_of_le h hcentury]
    exact fun heq => stamp_ne_short h.next (by omega) (by omega) e heq.symm

/-- Stamps with a year of three digits are ordered as their days. -/
theorem short_lt_iff (h : d.Real) (he : e.Real) (hd : 100 ≤ d.year ∧ d.year < 1000)
    (he' : 100 ≤ e.year ∧ e.year < 1000) :
    localDateStamp d < localDateStamp e ↔ d.rank < e.rank := by
  have hcons {d : Date} (h : d.Real) (hd : 100 ≤ d.year ∧ d.year < 1000) :
      d.stamp.toList = '0' :: (localDateStamp d).toList := by
    rw [toList_stamp, toList_localDateStamp h, numeral_eq_three hd.1 hd.2, four, three, two]
    have hzero : d.year / 100 / 10 = 0 := by omega
    have hhundred : d.year / 100 % 10 = d.year / 100 := by omega
    rw [hzero, hhundred]
    rfl
  rw [← stamp_lt_iff h he (by omega) (by omega), String.lt_iff_toList_lt, String.lt_iff_toList_lt,
    hcons h hd, hcons he he', List.cons_lt_cons_iff]
  simp

/-- What follows the last day is before it. -/
theorem nextStamp_last : ¬LAST_DATE.stamp < nextStamp LAST_DATE.stamp := by decide +kernel

/-- A stamp is before the next one, but for the last day. -/
theorem lt_nextStamp_iff (h : d.Real) (hyear : d.year < 10000) :
    d.stamp < nextStamp d.stamp ↔ d.rank < LAST_DATE.rank := by
  have hlast : LAST_DATE.Real := ⟨by decide, by decide, by decide, by decide⟩
  constructor
  · intro hlt
    refine lt_of_le_of_ne (lastDate_rank h hyear) fun heq => ?_
    rw [h.eq_of_rank hlast heq] at hlt
    exact nextStamp_last hlt
  · intro hlt
    refine lt_addDaysToStamp (validDate_stamp h hyear) fun heq => ?_
    have hsame : d = LAST_DATE := stamp_inj h hlast hyear (by decide) heq
    exact hlt.ne (congrArg Date.rank hsame)

/-- The end of a span as a date that is written. -/
theorem lastStamp_eq (h : s.Real) (hyear : s.year < 10000) (hk : 0 < k) :
    lastStamp s k = localDateStamp (s.asRead.plus k) := by
  rw [lastStamp, if_pos hk, addDaysToStamp_stamp h hyear]

/-- The end of a span, where the web writes it right. -/
theorem lastStamp_long (h : s.Real) (hyear : 100 ≤ s.year) (hlo : 1000 ≤ (s.plus k).year)
    (hhi : (s.plus k).year < 10000) : lastStamp s k = (s.plus k).stamp := by
  rcases Nat.eq_zero_or_pos k with rfl | hk
  · rfl
  · have hle := (h.plus k).bounds
    have hs := h.bounds
    have hrank : s.rank ≤ (s.plus k).rank := h.rank_plus_le (m := 0) (Nat.zero_le k)
    rw [lastStamp_eq h (by omega) hk, asRead_of_le h hyear]
    exact localDateStamp_eq (h.plus k) hlo hhi

/-- **The loop passes the end of a span** right behind its last day. -/
theorem stops_iff (h : s.Real) (hk : k ≤ 365) (hyear : (s.plus k).year < 10000) :
    ((s.plus k).stamp ≤ lastStamp s k ∧ lastStamp s k < nextStamp (s.plus k).stamp) ↔
      (s.plus k).rank < LAST_DATE.rank ∧
        (k = 0 ∨ 1000 ≤ (s.plus k).year ∨
          (100 ≤ s.year ∧ (s.plus k).rank < LAST_PADDED.rank) ∨
          ((s.plus k).year < 100 ∧ ∀ i < k, s.plus i ≠ LEAP_DAY)) := by
  have hend := h.plus k
  have hbounds := hend.bounds
  have hsbounds := h.bounds
  have hrank : s.rank ≤ (s.plus k).rank := h.rank_plus_le (m := 0) (Nat.zero_le k)
  have hnear := h.plus_year_le hk
  have hlast : LAST_DATE.rank = 372 * 9999 + 31 * 12 + 31 := rfl
  have hpadded : LAST_PADDED.rank = 372 * 999 + 31 * 12 + 31 := rfl
  -- where the end is written as it is, only the last day matters
  have hexact (heq : lastStamp s k = (s.plus k).stamp) :
      ((s.plus k).stamp ≤ lastStamp s k ∧ lastStamp s k < nextStamp (s.plus k).stamp) ↔
        (s.plus k).rank < LAST_DATE.rank := by
    rw [heq, and_iff_right le_rfl, lt_nextStamp_iff hend hyear]
  rcases Nat.eq_zero_or_pos k with rfl | hpos
  · rw [hexact rfl]
    exact (and_iff_left (.inl rfl)).symm
  rcases Nat.lt_or_ge s.year 100 with hcentury | hcentury
  · -- the end is in the twentieth century
    have hread := asRead_year h hcentury
    have hc := (h.asRead.1.plus k)
    have hclo := (plus_bounds k s.asRead h.asRead.1.ranges.1).1
    have hchi := h.asRead.1.plus_year_le hk
    have hstamp : lastStamp s k = (s.asRead.plus k).stamp := by
      rw [lastStamp_eq h (by omega) hpos]
      exact localDateStamp_eq hc (by omega) (by omega)
    have hbefore : (s.plus k).stamp ≤ lastStamp s k := by
      have hcbounds := hc.bounds
      rw [hstamp, stamp_le_iff hend hc hyear (by omega)]
      omega
    rw [and_iff_right hbefore, hstamp, nextStamp, addDaysToStamp_stamp hend hyear]
    rcases Nat.lt_or_ge (s.plus k).year 100 with hshort | hshort
    · have heread := asRead_year hend hshort
      have henext := next_year (s.plus k).asRead
      have hnext : localDateStamp (s.plus k).asRead.next = (s.plus k).asRead.next.stamp :=
        localDateStamp_eq hend.asRead.1.next (by omega) (by omega)
      show (s.asRead.plus k).stamp < localDateStamp (s.plus k).asRead.next ↔ _
      rw [hnext, stamp_lt_iff hc hend.asRead.1.next (by omega) (by omega)]
      constructor
      · intro hlt
        refine ⟨by omega, .inr (.inr (.inr ⟨hshort, fun i hi hleap => ?_⟩))⟩
        have hlater := asRead_plus_leap h hshort hi hleap
        have hle := hend.asRead.1.next_rank_le hc hlater
        omega
      · rintro ⟨-, hzero | hlong | ⟨hge, -⟩ | ⟨-, hleap⟩⟩
        · omega
        · omega
        · omega
        · rw [← asRead_plus h hshort hleap]
          exact hend.asRead.1.rank_lt_next
    · -- in the year 100 the next stamp has three digits
      have hnyear := next_year (s.plus k)
      rw [asRead_of_le hend hshort]
      refine iff_of_false (fun hlt => ?_) (by omega)
      have hback : ¬(s.asRead.plus k).stamp < localDateStamp (s.plus k).next := by
        rw [stamp_lt_short_iff hend.next (by omega) (by omega) (by omega)]
        omega
      exact hback hlt
  · rcases Nat.lt_or_ge (s.plus k).year 1000 with hshort | hshort
    · -- the end is written with three digits
      have hstamp : lastStamp s k = localDateStamp (s.plus k) := by
        rw [lastStamp_eq h (by omega) hpos, asRead_of_le h hcentury]
      have hthree : 100 ≤ (s.plus k).year := by omega
      have hnyear := next_year (s.plus k)
      have hbefore : (s.plus k).stamp ≤ lastStamp s k := by
        rw [hstamp]
        exact ((stamp_lt_short_iff hend hthree hshort hyear).2 (by omega)).le
      rw [and_iff_right hbefore, hstamp, nextStamp, addDaysToStamp_stamp hend hyear,
        asRead_of_le hend hthree]
      show localDateStamp (s.plus k) < localDateStamp (s.plus k).next ↔ _
      have hnbounds := hend.next.bounds
      rcases Nat.lt_or_ge (s.plus k).next.year 1000 with hnext | hnext
      · rw [short_lt_iff hend hend.next ⟨hthree, hshort⟩ ⟨by omega, hnext⟩]
        refine iff_of_true hend.rank_lt_next ⟨by omega, .inr (.inr (.inl ⟨hcentury, ?_⟩))⟩
        have hlt := hend.rank_lt_next
        omega
      · have hback : localDateStamp (s.plus k).next < localDateStamp (s.plus k) := by
          rw [localDateStamp_eq hend.next hnext (by omega),
            stamp_lt_short_iff hend hthree hshort (by omega)]
          omega
        refine iff_of_false (lt_asymm hback) ?_
        rintro ⟨-, hzero | hlong | ⟨-, hlt⟩ | ⟨hlt, -⟩⟩
        · omega
        · omega
        · have hle := hend.next_rank_le (t := LAST_PADDED)
            ⟨by decide, by decide, by decide, by decide⟩ hlt
          omega
        · omega
    · rw [hexact (lastStamp_long h hcentury hshort hyear)]
      exact (and_iff_left (.inr (.inl hshort))).symm

/-- **A span that is over** is passed by, where its end is written as a stamp before today. -/
theorem past_iff (h : s.Real) (ht : t.Real) (hyear : t.year < 10000) (hk : k ≤ 365)
    (hover : (s.plus k).rank < t.rank) : lastStamp s k < t.stamp ↔ Stepped s k t := by
  have hend := h.plus k
  have hbounds := hend.bounds
  have hsbounds := h.bounds
  have htbounds := ht.bounds
  have hrank : s.rank ≤ (s.plus k).rank := h.rank_plus_le (m := 0) (Nat.zero_le k)
  have hnear := h.plus_year_le hk
  have hlast := lastDate_rank ht hyear
  have hdate : LAST_DATE.rank = 372 * 9999 + 31 * 12 + 31 := rfl
  rw [Stepped, if_pos hover]
  rcases Nat.eq_zero_or_pos k with rfl | hpos
  · exact iff_of_true ((stamp_lt_iff h ht (by omega) hyear).2 hover) (.inl rfl)
  rcases Nat.lt_or_ge s.year 100 with hcentury | hcentury
  · have hread := asRead_year h hcentury
    have hclo := (plus_bounds k s.asRead h.asRead.1.ranges.1).1
    have hchi := h.asRead.1.plus_year_le hk
    rw [lastStamp_eq h (by omega) hpos, localDateStamp_eq (h.asRead.1.plus k) (by omega) (by omega),
      stamp_lt_iff (h.asRead.1.plus k) ht (by omega) hyear]
    constructor
    · exact fun hlt => .inr (.inr (.inr ⟨hcentury, hlt⟩))
    · rintro (hzero | hlong | ⟨hge, -⟩ | ⟨-, hlt⟩)
      · omega
      · omega
      · omega
      · exact hlt
  · rcases Nat.lt_or_ge (s.plus k).year 1000 with hshort | hshort
    · have hthree : 100 ≤ (s.plus k).year := by omega
      rw [lastStamp_eq h (by omega) hpos, asRead_of_le h hcentury]
      have hiff := stamp_lt_short_iff hend hthree hshort hyear
      have hne := stamp_ne_short hend hthree hshort t
      constructor
      · intro hlt
        refine .inr (.inr (.inl ⟨hcentury, ?_⟩))
        by_contra hfew
        exact lt_asymm hlt (hiff.2 (by omega))
      · rintro (hzero | hlong | ⟨-, hten⟩ | ⟨hlt, -⟩)
        · omega
        · omega
        · refine lt_of_le_of_ne (not_lt.1 fun hlt => ?_) hne.symm
          have := hiff.1 hlt
          omega
        · omega
    · rw [lastStamp_long h hcentury hshort (by omega)]
      exact iff_of_true ((stamp_lt_iff hend ht (by omega) hyear).2 hover) (.inr (.inl hshort))

/-- The first day of a span that is not over: its own, or today. -/
def firstDate (s t : Date) : Date := if t.rank ≤ s.rank then s else t

/-- The days of a span that are not over. -/
def dueDates (s : Date) (k : ℕ) (t : Date) : List Date :=
  ((List.range (k + 1)).map s.plus).filter fun d => decide (t.rank ≤ d.rank)

theorem rank_firstDate (s t : Date) : (firstDate s t).rank = max s.rank t.rank := by
  unfold firstDate
  split
  · rename_i h
    exact (max_eq_left h).symm
  · rename_i h
    exact (max_eq_right (not_le.1 h).le).symm

theorem firstDate_real (h : s.Real) (ht : t.Real) : (firstDate s t).Real := by
  unfold firstDate
  split
  · exact h
  · exact ht

/-- Nothing is left of a span that is over. -/
theorem dueDates_past (h : s.Real) (hover : (s.plus k).rank < t.rank) : dueDates s k t = [] := by
  refine List.filter_eq_nil_iff.2 fun d hd => ?_
  obtain ⟨i, hi, rfl⟩ := List.mem_map.1 hd
  have hle : (s.plus i).rank ≤ (s.plus k).rank :=
    h.rank_plus_le (Nat.le_of_lt_succ (List.mem_range.1 hi))
  simpa using hle.trans_lt hover

/-- **What is left of a span** are its days from the first on that is not over. -/
theorem dueDates_running (h : s.Real) (ht : t.Real) (hleft : t.rank ≤ (s.plus k).rank) :
    ∃ m, m ≤ k ∧ (firstDate s t).plus m = s.plus k ∧
      dueDates s k t = (List.range (m + 1)).map (firstDate s t).plus := by
  have hfirst : ∃ a ≤ k, firstDate s t = s.plus a := by
    unfold firstDate
    split
    · exact ⟨0, Nat.zero_le k, rfl⟩
    · rename_i hlate
      exact h.exists_plus ht (not_le.1 hlate).le hleft
  obtain ⟨a, ha, heq⟩ := hfirst
  obtain ⟨m, rfl⟩ := Nat.exists_eq_add_of_le ha
  refine ⟨m, Nat.le_add_left m a, by rw [heq, plus_plus], ?_⟩
  have hrank := rank_firstDate s t
  rw [heq] at hrank
  have hkeep (i : ℕ) : decide (t.rank ≤ (s.plus i).rank) = decide (a ≤ i) := by
    refine decide_eq_decide.2 ⟨fun hle => ?_, fun hle => ?_⟩
    · by_contra hlt
      have hbefore := h.rank_plus_lt (not_le.1 hlt)
      have hstart : s.rank ≤ (s.plus i).rank := h.rank_plus_le (m := 0) (Nat.zero_le i)
      omega
    · have hafter := h.rank_plus_le hle
      omega
  have hsplit : (List.range (a + m + 1)).filter (fun i => decide (a ≤ i)) =
      (List.range (m + 1)).map (a + ·) := by
    rw [Nat.add_assoc, List.range_add, List.filter_append, List.filter_eq_nil_iff.2,
      List.nil_append, List.filter_eq_self]
    · intro i hi
      obtain ⟨j, -, rfl⟩ := List.mem_map.1 hi
      exact decide_eq_true (Nat.le_add_right a j)
    · intro i hi
      simpa using List.mem_range.1 hi
  rw [dueDates, List.filter_map, heq]
  show ((List.range (a + m + 1)).filter fun i => decide (t.rank ≤ (s.plus i).rank)).map s.plus = _
  rw [List.filter_congr fun i _ => hkeep i, hsplit, List.map_map]
  exact List.map_congr_left fun i _ => (plus_plus s a i).symm

/-- The loop over the days of a span. -/
def spanVisits (s : Date) (k : ℕ) (fuel : ℕ) (first : String) : Option (List String) :=
  visits nextStamp (fun day => day ≤ lastStamp s k) fuel first

theorem stepped_running (hleft : t.rank ≤ (s.plus k).rank) : Stepped s k t ↔
    ((s.plus k).rank < LAST_DATE.rank ∧
      (k = 0 ∨ 1000 ≤ (s.plus k).year ∨ (100 ≤ s.year ∧ (s.plus k).rank < LAST_PADDED.rank) ∨
        ((s.plus k).year < 100 ∧ ∀ i < k, s.plus i ≠ LEAP_DAY))) ∧
      ((firstDate s t).rank = (s.plus k).rank ∨ LAST_PADDED.rank ≤ (firstDate s t).rank) := by
  rw [Stepped, if_neg (not_lt.2 hleft), rank_firstDate, and_assoc]

/-- **The loop visits the days that are left**, each once. -/
theorem spanVisits_of_stepped (h : s.Real) (ht : t.Real) (hyear : t.year < 10000) (hk : k ≤ 365)
    (hleft : t.rank ≤ (s.plus k).rank) (hstep : Stepped s k t) :
    (s.plus k).year < 10000 ∧ t.stamp ≤ lastStamp s k ∧
      ∃ fuel, spanVisits s k fuel (firstDate s t).stamp = some ((dueDates s k t).map stamp) := by
  obtain ⟨hstops, hpadded⟩ := (stepped_running hleft).1 hstep
  have hend := h.plus k
  have hbounds := hend.bounds
  have hlast : LAST_DATE.rank = 372 * 9999 + 31 * 12 + 31 := rfl
  have hendyear : (s.plus k).year < 10000 := by
    have hlt := hstops.1
    omega
  obtain ⟨hle, hlt⟩ := (stops_iff h hk hendyear).2 hstops
  obtain ⟨m, hm, hfirst, hdue⟩ := dueDates_running h ht hleft
  have hreal := firstDate_real h ht
  have hsteps (i : ℕ) (hi : i ≤ m) :
      nextStamp^[i] (firstDate s t).stamp = ((firstDate s t).plus i).stamp := by
    rcases hpadded with heq | hpadded
    · -- only the last day is left
      rw [← hfirst] at heq
      have hzero : m = 0 := by
        by_contra hne
        exact (hreal.rank_plus_lt (m := 0) (Nat.pos_of_ne_zero hne)).ne heq
      subst hzero
      rw [Nat.le_zero.1 hi]
      rfl
    · refine iterate_nextStamp hreal hpadded ?_
      have hbefore := hreal.rank_plus_le hi
      rw [hfirst] at hbefore
      exact hbefore.trans hstops.1.le
  refine ⟨hendyear, ((stamp_le_iff ht hend hyear hendyear).2 hleft).trans hle, m + 2, ?_⟩
  refine visits_eq_some_iff.2 ⟨m + 1, Nat.lt_succ_self _, ?_, fun i hi => ?_, ?_⟩
  · rw [hdue, List.map_map]
    exact List.map_congr_left fun i hi => (hsteps i (Nat.le_of_lt_succ (List.mem_range.1 hi))).symm
  · have hi := Nat.le_of_lt_succ hi
    have hbefore := hreal.rank_plus_le hi
    have hibounds := (hreal.plus i).bounds
    rw [hfirst] at hbefore
    rw [hsteps i hi]
    exact ((stamp_le_iff (hreal.plus i) hend (by omega) hendyear).2 hbefore).trans hle
  · rw [Function.iterate_succ_apply', hsteps m le_rfl, hfirst]
    exact not_le.2 hlt

/-- **A loop that visits the days that are left** steps as the calendar does. -/
theorem stepped_of_spanVisits (h : s.Real) (hs : s.year < 10000) (ht : t.Real)
    (hyear : t.year < 10000) (hk : k ≤ 365) (hleft : t.rank ≤ (s.plus k).rank) {fuel : ℕ}
    {xs : List String} (hxs : spanVisits s k fuel (firstDate s t).stamp = some xs)
    (hperm : xs.Perm ((dueDates s k t).map stamp)) : Stepped s k t := by
  have hend := h.plus k
  have hbounds := hend.bounds
  have hsbounds := h.bounds
  have hnear := h.plus_year_le hk
  have hrank : s.rank ≤ (s.plus k).rank := h.rank_plus_le (m := 0) (Nat.zero_le k)
  have hreal := firstDate_real h ht
  have hfbounds := hreal.bounds
  have hfrank := rank_firstDate s t
  have hlast : LAST_DATE.rank = 372 * 9999 + 31 * 12 + 31 := rfl
  have hpadded : LAST_PADDED.rank = 372 * 999 + 31 * 12 + 31 := rfl
  have hfyear : (firstDate s t).year < 10000 := by
    unfold firstDate
    split
    · exact hs
    · exact hyear
  obtain ⟨m, hm, hfirst, hdue⟩ := dueDates_running h ht hleft
  obtain ⟨n, hn, rfl, hall, hstop⟩ := visits_eq_some_iff.1 hxs
  have hlen : n = m + 1 := by
    have hlen := hperm.length_eq
    rwa [hdue, List.length_map, List.length_map, List.length_map, List.length_range,
      List.length_range] at hlen
  subst hlen
  have hendyear : (s.plus k).year < 10000 := by
    -- an end beyond the year 9999 is written before the first day
    by_contra hlong
    have hpos : 0 < k := by
      rcases Nat.eq_zero_or_pos k with rfl | hpos
      · exact absurd hs hlong
      · exact hpos
    have hle := hall 0 (Nat.succ_pos m)
    rw [lastStamp_eq h hs hpos, asRead_of_le h (by omega)] at hle
    exact not_lt_of_ge hle (long_lt_stamp hend (by omega) (by omega) hfyear (by omega))
  rw [stepped_running hleft]
  have hsteps : m = 0 ∨ LAST_PADDED.rank ≤ (firstDate s t).rank := by
    rcases Nat.eq_zero_or_pos m with hzero | hpos
    · exact .inl hzero
    · refine .inr (not_lt.1 fun hlt => ?_)
      have hmem : nextStamp (firstDate s t).stamp ∈ (dueDates s k t).map stamp :=
        hperm.subset (List.mem_map.2 ⟨1, List.mem_range.2 (Nat.succ_lt_succ hpos), rfl⟩)
      rw [hdue, List.map_map] at hmem
      obtain ⟨j, hj, heq⟩ := List.mem_map.1 hmem
      have hj := hreal.plus_year_le (show j ≤ 365 by have := List.mem_range.1 hj; omega)
      exact nextStamp_ne hreal hlt (hreal.plus j) hj heq.symm
  have hreach : nextStamp^[m] (firstDate s t).stamp = (s.plus k).stamp := by
    rw [← hfirst]
    rcases hsteps with rfl | hpadded
    · rfl
    · refine iterate_nextStamp hreal hpadded ?_
      rw [hfirst]
      exact lastDate_rank hend hendyear
  have hle := hall m (Nat.lt_succ_self m)
  rw [hreach] at hle
  rw [Function.iterate_succ_apply', hreach] at hstop
  refine ⟨(stops_iff h hk hendyear).1 ⟨hle, not_le.1 hstop⟩, ?_⟩
  rcases hsteps with rfl | hpadded
  · exact .inl (congrArg Date.rank hfirst)
  · exact .inr hpadded

/-- Every day of a span is found from its start. -/
theorem exists_position (h : s.Real) (hs : s.year < 10000) (hi : i ≤ 365)
    (hyear : (s.plus i).year < 10000) :
    ∃ fuel xs, visits nextStamp (fun d => d < (s.plus i).stamp) fuel s.stamp = some xs := by
  have hend := h.plus i
  have hsbounds := h.bounds
  have hnear := h.plus_year_le hi
  have hrank : s.rank ≤ (s.plus i).rank := h.rank_plus_le (m := 0) (Nat.zero_le i)
  have hpadded : LAST_PADDED.rank = 372 * 999 + 31 * 12 + 31 := rfl
  rcases Nat.lt_or_ge s.rank LAST_PADDED.rank with hlt | hge
  · -- the second stamp is behind all days of the span
    have hbehind : (s.plus i).stamp ≤ nextStamp s.stamp := by
      rw [nextStamp, addDaysToStamp_stamp h hs]
      rcases Nat.lt_or_ge s.year 100 with hcentury | hcentury
      · have hread := asRead_year h hcentury
        have hnext := next_year s.asRead
        have hnbounds := h.asRead.1.next.bounds
        have hebounds := hend.bounds
        show _ ≤ localDateStamp s.asRead.next
        rw [localDateStamp_eq h.asRead.1.next (by omega) (by omega),
          stamp_le_iff hend h.asRead.1.next hyear (by omega)]
        omega
      · have hle := h.next_rank_le (t := LAST_PADDED)
          ⟨by decide, by decide, by decide, by decide⟩ hlt
        have hnbounds := h.next.bounds
        have hnyear := next_year s
        rw [asRead_of_le h hcentury]
        exact ((stamp_lt_short_iff h.next (by omega) (by omega) hyear).2 (by omega)).le
    by_cases hfirst : s.stamp < (s.plus i).stamp
    · refine ⟨2, _, visits_eq_some_iff.2 ⟨1, Nat.lt_succ_self 1, rfl, fun j hj => ?_, ?_⟩⟩
      · rw [Nat.lt_one_iff.1 hj]
        exact hfirst
      · exact not_lt.2 hbehind
    · exact ⟨1, _, visits_eq_some_iff.2 ⟨0, Nat.lt_succ_self 0, rfl,
        fun j hj => absurd hj (Nat.not_lt_zero j), hfirst⟩⟩
  · have hsteps (j : ℕ) (hj : j ≤ i) : nextStamp^[j] s.stamp = (s.plus j).stamp :=
      iterate_nextStamp h hge ((h.rank_plus_le hj).trans (lastDate_rank hend hyear))
    refine ⟨i + 1, _, visits_eq_some_iff.2 ⟨i, Nat.lt_succ_self i, rfl, fun j hj => ?_, ?_⟩⟩
    · have hbefore := h.rank_plus_lt hj
      have hjbounds := (h.plus j).bounds
      have hebounds := hend.bounds
      rw [hsteps j hj.le]
      exact (stamp_lt_iff (h.plus j) hend (by omega) hyear).2 hbefore
    · rw [hsteps i le_rfl]
      exact lt_irrefl _

end Dates

/-! ## The loops of the web -/

section Loops

variable {it : ItemView} {raw day first : String} {span : Span} {tone : Tone} {fuel n : ℕ}
  {rows : List PlacedRow} {xs : List String}

theorem spanDay_eq (fuel : ℕ) (d day : String) (n : ℕ) : spanDay fuel d day n =
    (visits nextStamp (fun d => d < day) fuel d).map fun xs => n + xs.length := by
  induction fuel generalizing d n with
  | zero => rfl
  | succ fuel ih =>
    rw [spanDay, visits]
    split
    · show spanDay fuel (nextStamp d) day (n + 1) = _
      rw [ih, Option.map_map]
      congr 1
      funext xs
      simp only [Function.comp_apply, List.length_cons]
      omega
    · rfl

theorem spanDay_mono {d : String} {fuel' : ℕ} (h : spanDay fuel d day 1 = some n)
    (hle : fuel ≤ fuel') : spanDay fuel' d day 1 = some n := by
  rw [spanDay_eq] at h ⊢
  obtain ⟨xs, hxs, rfl⟩ := Option.map_eq_some_iff.1 h
  rw [visits_mono hxs hle, Option.map_some]

/-- The rows of a `when`: one for every day that the loop visits. -/
theorem placeWhen_eq_some (h : placeWhen it raw span tone fuel day = some rows) :
    visits nextStamp (fun d => d ≤ span.last) fuel day = some (rows.map (·.day)) ∧
      ∀ r ∈ rows, r.raw = raw ∧ r.row.item = it ∧ r.row.placedBy = .when := by
  induction fuel generalizing day rows with
  | zero => cases h
  | succ fuel ih =>
    rw [placeWhen] at h
    rw [visits]
    split at h
    · rename_i hle
      obtain ⟨position, -, hmap⟩ := Option.bind_eq_some_iff.1 h
      obtain ⟨rest, hrest, rfl⟩ := Option.map_eq_some_iff.1 hmap
      obtain ⟨hvisits, hall⟩ := ih hrest
      rw [if_pos hle]
      refine ⟨?_, List.forall_mem_cons.2 ⟨⟨rfl, rfl, rfl⟩, hall⟩⟩
      show (visits nextStamp _ fuel (addDaysToStamp day 1)).map _ = _
      rw [hvisits]
      rfl
    · rename_i hle
      cases h
      rw [if_neg hle]
      exact ⟨rfl, fun r hr => by cases hr⟩

theorem placeWhen_mono {fuel' : ℕ} (h : placeWhen it raw span tone fuel day = some rows)
    (hle : fuel ≤ fuel') : placeWhen it raw span tone fuel' day = some rows := by
  induction fuel generalizing day rows fuel' with
  | zero => cases h
  | succ fuel ih =>
    obtain ⟨fuel', rfl⟩ : ∃ k, fuel' = k + 1 := ⟨fuel' - 1, by omega⟩
    have hle := Nat.le_of_succ_le_succ hle
    rw [placeWhen] at h ⊢
    split at h
    · rename_i hday
      obtain ⟨position, hposition, hmap⟩ := Option.bind_eq_some_iff.1 h
      obtain ⟨rest, hrest, rfl⟩ := Option.map_eq_some_iff.1 hmap
      rw [if_pos hday, ih hrest hle]
      refine Option.bind_eq_some_iff.2 ⟨position, ?_, rfl⟩
      split at hposition
      · rename_i htotal
        obtain ⟨n, hn, rfl⟩ := Option.map_eq_some_iff.1 hposition
        rw [if_pos htotal, spanDay_mono hn hle]
        rfl
      · rename_i htotal
        rw [if_neg htotal]
        exact hposition
    · rename_i hday
      rw [if_neg hday]
      exact h

/-- A loop that visits days, each of which has a position in the span, places rows. -/
theorem exists_placeWhen (h : visits nextStamp (fun d => d ≤ span.last) fuel day = some xs)
    (hall : ∀ x ∈ xs, ∃ fuel n, spanDay fuel span.start x 1 = some n) :
    ∃ fuel rows, placeWhen it raw span tone fuel day = some rows ∧ rows.map (·.day) = xs := by
  induction fuel generalizing day xs with
  | zero => cases h
  | succ fuel ih =>
    rw [visits] at h
    split at h
    · rename_i hday
      obtain ⟨rest, hrest, rfl⟩ := Option.map_eq_some_iff.1 h
      obtain ⟨⟨fuel₁, n, hn⟩, hall⟩ := List.forall_mem_cons.1 hall
      obtain ⟨fuel₂, rows, hrows, hdays⟩ := ih hrest hall
      have hposition : ∃ position, (if 1 < span.total then
          (spanDay (max fuel₁ fuel₂) span.start day 1).map fun n => some (n, span.total)
          else some none) = some position := by
        split
        · rw [spanDay_mono hn (le_max_left _ _)]
          exact ⟨_, rfl⟩
        · exact ⟨_, rfl⟩
      obtain ⟨position, hposition⟩ := hposition
      refine ⟨max fuel₁ fuel₂ + 1, ⟨day, raw, ⟨it, .when, tone, position⟩⟩ :: rows, ?_, ?_⟩
      · rw [placeWhen, if_pos hday]
        refine Option.bind_eq_some_iff.2 ⟨position, hposition, ?_⟩
        show (placeWhen it raw span tone _ (nextStamp day)).map _ = _
        rw [placeWhen_mono hrows (le_max_right _ _)]
        rfl
      · rw [List.map_cons, hdays]
    · rename_i hday
      cases h
      exact ⟨1, [], by rw [placeWhen, if_neg hday], rfl⟩

end Loops

/-! ## One item -/

/-- The registers hold what the document accepts. -/
structure Accepted (it : ItemView) : Prop where
  when : ∀ w ∈ it.when, parseWhen w = some w
  deadline : ∀ d ∈ it.deadline, parseDeadline d = some d
  duration : ∀ n ∈ it.duration, 1 ≤ n ∧ n ≤ 525600

/-- If the `when` of an item is looked at, its span is one that the web steps through. -/
def SpanStepped (today : String) (it : ItemView) : Prop :=
  ∀ w ∈ it.when, it.isBinned = false →
    (isClosed it = true ∨ ∀ d ∈ it.deadline, whenDay w ≤ d ∧ today ≤ d) →
    Stepped (dayOf (whenDay w)) (spanEndOffset w it.duration) (dayOf today)

/-- A row: the key of its group, its item, and what placed it. -/
def PlacedRow.tagged (r : PlacedRow) : String × ItemView × DayPlacedBy :=
  (r.day, r.row.item, r.row.placedBy)

/-- All rows that the loop over the items has collected. -/
def Buckets.rows (b : Buckets) : List (String × ItemView × DayPlacedBy) :=
  b.overdueRows.map (fun r => (OVERDUE_KEY, r.row.item, r.row.placedBy)) ++
    b.unscheduled.map (fun it => (UNSCHEDULED_KEY, it, .none)) ++ b.placed.map PlacedRow.tagged

/-- The rows of one item. -/
def tagRows (it : ItemView) (l : List (String × DayPlacedBy)) :
    List (String × ItemView × DayPlacedBy) :=
  l.map fun p => (p.1, it, p.2)

/-- A row of a day that is not over. -/
structure PlacedRow.Sound (today : String) (r : PlacedRow) : Prop where
  day : validDate r.day.toList = true
  le : today ≤ r.day
  raw : DateString r.raw

section Items

variable {today w : String} {it : ItemView} {b b' : Buckets} {fuel : ℕ}

theorem Accepted.truthy_when (h : Accepted it) : truthy it.when = it.when := by
  cases hw : it.when with
  | none => rfl
  | some w => exact if_pos (decide_eq_true (parseWhen_ne (h.when w hw)))

theorem Accepted.truthy_deadline (h : Accepted it) : truthy it.deadline = it.deadline := by
  cases hd : it.deadline with
  | none => rfl
  | some d => exact if_pos (decide_eq_true (parseDeadline_ne (h.deadline d hd)))

/-- A time of day is before midnight. -/
theorem whenTime_lt {start : ℕ} (h : parseWhen w = some w) (hs : whenTime w = some start) :
    start < DAY_MINUTES := by
  obtain ⟨v, hv⟩ := (validWhen_iff _).1 (validWhen_of_parseWhen h)
  rw [whenTime, hv] at hs
  obtain ⟨day, none | ⟨hour, minute, hhour, hminute⟩⟩ := v
  · have hten : (When.chars ⟨day, none⟩).length = 10 := rfl
    rw [if_neg fun hshape => absurd (hten.symm.trans hshape.1) (by decide)] at hs
    cases hs
  · split at hs
    · obtain ⟨h₁, hh, hmap⟩ := Option.bind_eq_some_iff.1 hs
      obtain ⟨m₁, hm, rfl⟩ := Option.map_eq_some_iff.1 hmap
      have hhours : digits (two hour) = some hour := digits_of_two (by omega)
      have hminutes : digits (two minute) = some minute := digits_of_two (by omega)
      have heq : h₁ = hour := Option.some.inj (hh.symm.trans hhours)
      have heq' : m₁ = minute := Option.some.inj (hm.symm.trans hminutes)
      rw [heq, heq', DAY_MINUTES]
      omega
    · cases hs

/-- **A span is a year long** at most. -/
theorem Accepted.offset_le (h : Accepted it) (hw : it.when = some w) :
    spanEndOffset w it.duration ≤ 365 := by
  have hminutes : DAY_MINUTES = 1440 := rfl
  rw [spanEndOffset]
  cases hstart : whenTime w with
  | some start =>
    have hlt := whenTime_lt (h.when w hw) hstart
    cases hn : it.duration with
    | none => exact Nat.zero_le _
    | some n =>
      have hle := (h.duration n hn).2
      dsimp only
      split
      · exact Nat.zero_le _
      · rw [endDayOffset, hminutes]
        omega
  | none =>
    cases hn : it.duration with
    | none => exact Nat.zero_le _
    | some n =>
      have hle := (h.duration n hn).2
      rw [allDayEndOffset]
      dsimp only
      split
      · exact Nat.zero_le _
      · rw [hminutes]
        omega

/-- The span of a `when` by its days. -/
theorem Accepted.exists_span (h : Accepted it) (hw : it.when = some w) :
    ∃ s : Date, s.Real ∧ s.year < 10000 ∧ whenDay w = s.stamp ∧ dayOf (whenDay w) = s ∧
      whenSpan w it.duration = ⟨s.stamp, lastStamp s (spanEndOffset w it.duration),
        spanEndOffset w it.duration + 1⟩ := by
  obtain ⟨s, hs, hyear, hday⟩ := Date.exists_stamp (validDate_whenDay (h.when w hw))
  refine ⟨s, hs, hyear, hday, by rw [hday, Date.dayOf_stamp hs hyear], ?_⟩
  rw [whenSpan, hday]
  rfl

/-- The `when` of an item that is not over for the web, its span and the stamp to begin with. -/
def webDay (today : String) (it : ItemView) : Option (String × Span × String) :=
  (it.when.map fun w => (w, whenSpan w it.duration)).bind fun s =>
    if today ≤ s.2.last then some (s.1, s.2, if today ≤ s.2.start then s.2.start else today)
    else none

/-- The first day of its `when` is where an item belongs. -/
def ByWhen (first : String) (it : ItemView) : Prop :=
  it.isBinned = false ∧ (isClosed it = true ∨ ∀ d ∈ it.deadline, first ≤ d)

instance (first : String) (it : ItemView) : Decidable (ByWhen first it) :=
  inferInstanceAs (Decidable (_ ∧ _))

theorem webDay_le {v : String × Span × String} (h : webDay today it = some v) : today ≤ v.2.2 := by
  obtain ⟨s, -, hs⟩ := Option.bind_eq_some_iff.1 h
  split at hs
  · cases hs
    dsimp only
    split
    · assumption
    · exact le_rfl
  · cases hs

/-- What the loop adds for an item that no `when` places. -/
def AddsElsewhere (today : String) (it : ItemView) : Prop :=
  ∀ b : Buckets, ∃ b', (∀ fuel, b.add fuel today it = some b') ∧
    b'.rows.Perm (b.rows ++ tagRows it (dueElsewhere today it)) ∧
    ∃ new, b'.placed = b.placed ++ new ∧ ∀ r ∈ new, r.Sound today

/-- What it adds for an item that its `when` places. -/
def AddsByWhen (today : String) (it : ItemView) (v : String × Span × String) : Prop :=
  ∃ tone, ∀ fuel (b : Buckets), b.add fuel today it =
    (placeWhen it v.1 v.2.1 tone fuel v.2.2).map fun rows => { b with placed := b.placed ++ rows }

theorem rows_placed (b : Buckets) (new : List PlacedRow) :
    Buckets.rows { b with placed := b.placed ++ new } = b.rows ++ new.map PlacedRow.tagged := by
  simp [Buckets.rows]

theorem addsElsewhere_nothing (hadd : ∀ fuel (b : Buckets), b.add fuel today it = some b)
    (hdue : dueElsewhere today it = []) : AddsElsewhere today it := fun b => by
  refine ⟨b, fun fuel => hadd fuel b, ?_, [], (List.append_nil _).symm, fun r hr => by cases hr⟩
  rw [hdue]
  exact List.Perm.of_eq (List.append_nil _).symm

theorem addsElsewhere_deadline {d : String} (tone : Tone) (h : Accepted it)
    (hd : it.deadline = some d) (hle : today ≤ d)
    (hadd : ∀ fuel (b : Buckets), b.add fuel today it =
      some { b with placed := b.placed ++ [⟨d, d, ⟨it, .deadline, tone, none⟩⟩] })
    (hdue : dueElsewhere today it = [(d, .deadline)]) : AddsElsewhere today it := fun b => by
  have hdate := validDate_of_parseDeadline (h.deadline d hd)
  refine ⟨_, fun fuel => hadd fuel b, ?_, _, rfl, fun r hr => ?_⟩
  · rw [hdue, rows_placed]
    exact List.Perm.refl _
  · rw [List.mem_singleton.1 hr]
    exact ⟨hdate, hle, dateString_of_validDate hdate⟩

theorem dueElsewhere_closed (hc : isClosed it = true) : dueElsewhere today it = [] :=
  if_pos (.inr hc)

theorem dueElsewhere_open (today : String) (hb : it.isBinned = false) (hc : isClosed it = false) :
    dueElsewhere today it =
      match it.deadline with
      | some d => if d < today then [(OVERDUE_KEY, .deadline)] else [(d, .deadline)]
      | none => if it.isEvent ∧ it.when = none then [(UNSCHEDULED_KEY, .none)] else [] := by
  rw [dueElsewhere, if_neg (by simp [hb, hc])]

/-- What the loop adds for an open item. -/
def Buckets.addOpen (fuel : ℕ) (today : String) (b : Buckets) (it : ItemView) : Option Buckets :=
  let place (tone : Tone) (w : String × Span × String) : Option Buckets :=
    (placeWhen it w.1 w.2.1 tone fuel w.2.2).map fun rows => { b with placed := b.placed ++ rows }
  match it.deadline.filter fun d => decide (d < today) with
  | some d =>
    some { b with overdueRows := b.overdueRows ++ [⟨d, ⟨it, .deadline, .overdue, none⟩⟩] }
  | none =>
    let tone : Tone := if it.deadline = some today then .warning else .neutral
    match webDay today it, it.deadline with
    | none, none => some b
    | some w, none => place tone w
    | none, some d =>
      some { b with placed := b.placed ++ [⟨d, d, ⟨it, .deadline, tone, none⟩⟩] }
    | some w, some d =>
      if d = "" ∨ w.2.2 ≤ d then place tone w
      else some { b with placed := b.placed ++ [⟨d, d, ⟨it, .deadline, tone, none⟩⟩] }

theorem add_eq_addOpen (h : Accepted it) (hun : isUnscheduledEvent it = false)
    (hb : it.isBinned = false) (hnone : (it.when.isNone && it.deadline.isNone) = false)
    (hc : isClosed it = false) (fuel : ℕ) (b : Buckets) :
    b.add fuel today it = b.addOpen fuel today it := by
  simp only [Buckets.add, Buckets.addOpen, hun, hb, hc, h.truthy_deadline, h.truthy_when, hnone,
    Bool.false_eq_true, if_false, Bool.or_false]
  rfl

/-- **One item**: its rows come from the loop over the days of its `when`, or from elsewhere. -/
theorem add_cases (today : String) (h : Accepted it) :
    (∃ v, webDay today it = some v ∧ ByWhen v.2.2 it ∧ AddsByWhen today it v) ∨
      ((∀ v, webDay today it = some v → ¬ByWhen v.2.2 it) ∧ AddsElsewhere today it) := by
  have hweb : (((truthy it.when).map fun w => (w, whenSpan w it.duration)).bind fun s =>
      if today ≤ s.2.last then some (s.1, s.2, if today ≤ s.2.start then s.2.start else today)
      else none) = webDay today it := by
    rw [h.truthy_when]
    rfl
  have hun_eq : isUnscheduledEvent it =
      (it.isEvent && isOpen it && it.when.isNone && it.deadline.isNone) := by
    rw [isUnscheduledEvent, h.truthy_when, h.truthy_deadline]
  cases hun : isUnscheduledEvent it with
  | true =>
    have hparts := hun_eq.symm.trans hun
    simp only [isOpen, Bool.and_eq_true, Bool.not_eq_true', Option.isNone_iff_eq_none] at hparts
    obtain ⟨⟨⟨hevent, hb, hc⟩, hw⟩, hd⟩ := hparts
    have hnone : webDay today it = none := by
      rw [webDay, hw]
      rfl
    refine .inr ⟨fun v hv => absurd (hnone.symm.trans hv) (by simp), fun b =>
      ⟨{ b with unscheduled := b.unscheduled ++ [it] }, fun fuel => ?_, ?_, [],
        (List.append_nil _).symm, fun r hr => by cases hr⟩⟩
    · simp only [Buckets.add, hun, if_true]
    · have hdue : dueElsewhere today it = [(UNSCHEDULED_KEY, .none)] := by
        rw [dueElsewhere_open today hb hc, hd]
        exact if_pos ⟨hevent, hw⟩
      rw [hdue, Buckets.rows, Buckets.rows]
      simp only [List.map_append, List.append_assoc]
      refine List.Perm.append_left _ (List.Perm.append_left _ ?_)
      exact List.perm_append_comm
  | false =>
    cases hb : it.isBinned with
    | true =>
      refine .inr ⟨fun v _ hby => absurd (hb.symm.trans hby.1) (by decide),
        addsElsewhere_nothing (fun fuel b => ?_) (if_pos (.inl hb))⟩
      simp only [Buckets.add, hun, hb, Bool.true_or, Bool.false_eq_true, if_false, if_true]
    | false =>
      cases hnone : it.when.isNone && it.deadline.isNone with
      | true =>
        have hparts := hnone
        rw [Bool.and_eq_true, Option.isNone_iff_eq_none, Option.isNone_iff_eq_none] at hparts
        have hwhen : webDay today it = none := by
          rw [webDay, hparts.1]
          rfl
        refine .inr ⟨fun v hv => absurd (hwhen.symm.trans hv) (by simp),
          addsElsewhere_nothing (fun fuel b => ?_) ?_⟩
        · simp only [Buckets.add, hun, hb, h.truthy_when, h.truthy_deadline, hnone, Bool.or_true,
            Bool.false_eq_true, if_false, if_true]
        · cases hc : isClosed it with
          | true => exact dueElsewhere_closed hc
          | false =>
            rw [dueElsewhere_open today hb hc, hparts.2]
            refine if_neg fun hevent => ?_
            rw [hun_eq, isOpen, hb, hevent.1, hparts.1, hparts.2] at hun
            rw [isClosed] at hc
            rw [hc] at hun
            exact absurd hun (by decide)
      | false =>
        rw [h.truthy_when] at hweb
        cases hc : isClosed it with
        | true =>
          cases hv : webDay today it with
          | none =>
            refine .inr ⟨fun v hv => absurd hv (by simp),
              addsElsewhere_nothing (fun fuel b => ?_) (dueElsewhere_closed hc)⟩
            simp only [Buckets.add, hun, hb, h.truthy_deadline, h.truthy_when, hnone, hc, hweb, hv,
              Bool.false_eq_true, if_false, if_true, Bool.or_false]
          | some v =>
            refine .inl ⟨v, rfl, ⟨hb, .inl hc⟩, .neutral, fun fuel b => ?_⟩
            simp only [Buckets.add, hun, hb, h.truthy_deadline, h.truthy_when, hnone, hc, hweb, hv,
              Bool.false_eq_true, if_false, if_true, Bool.or_false]
        | false =>
          have hdue := dueElsewhere_open today hb hc
          have hstart (fuel : ℕ) (b : Buckets) :
              b.add fuel today it = b.addOpen fuel today it :=
            add_eq_addOpen h hun hb hnone hc fuel b
          have hrule {v : String × Span × String} (hby : ByWhen v.2.2 it) :
              ∀ d ∈ it.deadline, v.2.2 ≤ d := hby.2.resolve_left (by simp [hc])
          cases hover : it.deadline.filter fun d => decide (d < today) with
          | some d =>
            obtain ⟨hd, hlt⟩ := Option.filter_eq_some_iff.1 hover
            have hlt : d < today := of_decide_eq_true hlt
            refine .inr ⟨fun v hv hby => ?_, fun b =>
              ⟨{ b with overdueRows := b.overdueRows ++ [⟨d, ⟨it, .deadline, .overdue, none⟩⟩] },
                fun fuel => ?_, ?_, [], (List.append_nil _).symm, fun r hr => by cases hr⟩⟩
            · exact not_lt_of_ge ((webDay_le hv).trans (hrule hby d hd)) hlt
            · rw [hstart, Buckets.addOpen]
              simp only [hover]
            · rw [hdue, hd]
              dsimp only
              rw [if_pos hlt, Buckets.rows, Buckets.rows]
              simp only [List.map_append, List.append_assoc]
              refine List.Perm.append_left _ ?_
              refine List.perm_append_comm.trans (List.Perm.of_eq ?_)
              rw [List.append_assoc]
              rfl
          | none =>
            have hready {d : String} (hd : it.deadline = some d) : today ≤ d := by
              rw [hd, Option.filter_some] at hover
              split at hover
              · cases hover
              · rename_i hlt
                exact not_lt.1 fun h => hlt (decide_eq_true h)
            cases hd : it.deadline with
            | none =>
              cases hv : webDay today it with
              | none =>
                refine .inr ⟨fun v hv => absurd hv (by simp),
                  addsElsewhere_nothing (fun fuel b => ?_) ?_⟩
                · rw [hstart, Buckets.addOpen]
                  simp only [hv, hd, Option.filter_none]
                · rw [hdue, hd]
                  refine if_neg fun hevent => ?_
                  rw [hevent.2, hd] at hnone
                  exact absurd hnone (by decide)
              | some v =>
                refine .inl ⟨v, rfl, ⟨hb, .inr fun d hd' => absurd (hd.symm.trans hd') (by simp)⟩,
                  if it.deadline = some today then .warning else .neutral, fun fuel b => ?_⟩
                rw [hstart, Buckets.addOpen]
                simp only [hv, hd, Option.filter_none]
            | some d =>
              have hempty : d ≠ "" := parseDeadline_ne (h.deadline d hd)
              have hkept : (some d).filter (fun d => decide (d < today)) = none := by
                rw [← hd, hover]
              have hsplit : dueElsewhere today it = [(d, .deadline)] := by
                rw [hdue, hd]
                exact if_neg (not_lt.2 (hready hd))
              cases hv : webDay today it with
              | none =>
                refine .inr ⟨fun v hv => absurd hv (by simp),
                  addsElsewhere_deadline (if it.deadline = some today then .warning else .neutral) h
                    hd (hready hd) (fun fuel b => ?_) hsplit⟩
                rw [hstart, Buckets.addOpen]
                simp only [hv, hd, hkept]
              | some v =>
                by_cases hle : v.2.2 ≤ d
                · refine .inl ⟨v, rfl, ⟨hb, .inr fun d' hd' => ?_⟩,
                    if it.deadline = some today then .warning else .neutral, fun fuel b => ?_⟩
                  · rw [← Option.some.inj (hd.symm.trans hd')]
                    exact hle
                  · rw [hstart, Buckets.addOpen]
                    simp only [hv, hd, hkept, if_pos (Or.inr hle : d = "" ∨ v.2.2 ≤ d)]
                · refine .inr ⟨fun v' hv' hby => ?_,
                    addsElsewhere_deadline (if it.deadline = some today then .warning else .neutral) h
                      hd (hready hd) (fun fuel b => ?_) hsplit⟩
                  · rw [Option.some.inj hv'] at hle
                    exact hle (hrule hby d hd)
                  · rw [hstart, Buckets.addOpen]
                    simp only [hv, hd, hkept, if_neg (not_or.2 ⟨hempty, hle⟩)]

theorem dueElsewhere_single {p : String × DayPlacedBy} (hp : p ∈ dueElsewhere today it) :
    p.2 ≠ .when ∧ dueElsewhere today it = [p] := by
  unfold dueElsewhere at hp ⊢
  repeat' split at hp
  all_goals simp_all

theorem dueElsewhere_nodup (today : String) (it : ItemView) : (dueElsewhere today it).Nodup := by
  rcases hnil : dueElsewhere today it with - | ⟨p, l⟩
  · exact List.nodup_nil
  · have hp : p ∈ dueElsewhere today it := hnil ▸ List.mem_cons_self
    rw [← hnil, (dueElsewhere_single hp).2]
    exact List.nodup_singleton p

/-- The span of an item and today, as dates. -/
structure SpanOf (today : String) (it : ItemView) (w : String) (s : Date) (k : ℕ) (t : Date) :
    Prop where
  when : it.when = some w
  start : s.Real
  start_year : s.year < 10000
  day : t.Real
  day_year : t.year < 10000
  short : k ≤ 365
  offset : spanEndOffset w it.duration = k
  today_eq : today = t.stamp
  whenDay_eq : whenDay w = s.stamp
  whenSpan_eq : whenSpan w it.duration = ⟨s.stamp, lastStamp s k, k + 1⟩

theorem exists_spanOf (h : Accepted it) (htoday : validDate today.toList = true)
    (hw : it.when = some w) : ∃ s k t, SpanOf today it w s k t := by
  obtain ⟨s, hs, hyear, hday, -, hspan⟩ := h.exists_span hw
  obtain ⟨t, ht, htyear, heq⟩ := Date.exists_stamp htoday
  exact ⟨s, _, t, hw, hs, hyear, ht, htyear, h.offset_le hw, rfl, heq, hday, hspan⟩

namespace SpanOf

variable {s t : Date} {k : ℕ} (hs : SpanOf today it w s k t)

include hs

theorem dayOf_eq : dayOf (whenDay w) = s ∧ dayOf today = t := by
  rw [hs.whenDay_eq, hs.today_eq, Date.dayOf_stamp hs.start hs.start_year,
    Date.dayOf_stamp hs.day hs.day_year]
  exact ⟨rfl, rfl⟩

theorem dueDays_eq : dueDays today w it.duration = (dueDates s k t).map Date.stamp := by
  rw [dueDays, hs.dayOf_eq.1, hs.dayOf_eq.2, hs.offset]
  rfl

theorem first_eq : (if today ≤ s.stamp then s.stamp else today) = (firstDate s t).stamp := by
  rw [firstDate, hs.today_eq]
  by_cases hle : t.rank ≤ s.rank
  · rw [if_pos hle, if_pos ((Date.stamp_le_iff hs.day hs.start hs.day_year hs.start_year).2 hle)]
  · rw [if_neg hle, if_neg fun h =>
      hle ((Date.stamp_le_iff hs.day hs.start hs.day_year hs.start_year).1 h)]

theorem webDay_eq : webDay today it =
    if today ≤ lastStamp s k then
      some (w, ⟨s.stamp, lastStamp s k, k + 1⟩, (firstDate s t).stamp)
    else none := by
  rw [webDay, hs.when, Option.map_some, Option.bind_some, hs.whenSpan_eq]
  dsimp only
  rw [hs.first_eq]

/-- What places an item by its `when`, in the words of its registers. -/
theorem byWhen_iff : ByWhen (firstDate s t).stamp it ↔ it.isBinned = false ∧
    (isClosed it = true ∨ ∀ d ∈ it.deadline, whenDay w ≤ d ∧ today ≤ d) := by
  have hmax (d : String) : (firstDate s t).stamp ≤ d ↔ whenDay w ≤ d ∧ today ≤ d := by
    rw [← hs.first_eq, hs.whenDay_eq]
    split
    · rename_i hle
      exact ⟨fun h => ⟨h, hle.trans h⟩, fun h => h.1⟩
    · rename_i hlt
      exact ⟨fun h => ⟨(not_le.1 hlt).le.trans h, h⟩, fun h => h.2⟩
  simp only [ByWhen, hmax]

theorem stepped (hstep : SpanStepped today it) (hby : ByWhen (firstDate s t).stamp it) :
    Stepped s k t := by
  obtain ⟨hb, hwhy⟩ := hs.byWhen_iff.1 hby
  have hstepped := hstep w hs.when hb hwhy
  rwa [hs.dayOf_eq.1, hs.dayOf_eq.2, hs.offset] at hstepped

theorem spanStepped (hstep : ByWhen (firstDate s t).stamp it → Stepped s k t) :
    SpanStepped today it := by
  intro w' hw' hb hwhy
  obtain rfl : w' = w := Option.some.inj (hw'.symm.trans hs.when)
  rw [hs.dayOf_eq.1, hs.dayOf_eq.2, hs.offset]
  exact hstep (hs.byWhen_iff.2 ⟨hb, hwhy⟩)

/-- A span that is over places nothing. -/
theorem due_past (hover : (s.plus k).rank < t.rank) : due today it = dueElsewhere today it := by
  rw [due, hs.when, Option.map_some, hs.dueDays_eq, dueDates_past hs.start hover]
  rfl

theorem due_running (hleft : t.rank ≤ (s.plus k).rank) : due today it =
    if ByWhen (firstDate s t).stamp it then
      ((dueDates s k t).map Date.stamp).map fun d => (d, .when)
    else dueElsewhere today it := by
  obtain ⟨m, -, -, hdue⟩ := dueDates_running hs.start hs.day hleft
  have hcons : (dueDates s k t).map Date.stamp = (firstDate s t).stamp ::
      ((List.range m).map fun i => (firstDate s t).plus (i + 1)).map Date.stamp := by
    rw [hdue, List.range_succ_eq_map, List.map_cons, List.map_cons, List.map_map, List.map_map,
      List.map_map]
    rfl
  rw [due, hs.when, Option.map_some, hs.dueDays_eq, hcons]
  rfl

theorem webDay_some (hle : today ≤ lastStamp s k) : webDay today it =
    some (w, ⟨s.stamp, lastStamp s k, k + 1⟩, (firstDate s t).stamp) := by
  rw [hs.webDay_eq, if_pos hle]

theorem webDay_past (hover : (s.plus k).rank < t.rank) (hstep : Stepped s k t) :
    webDay today it = none := by
  have hlt := (past_iff hs.start hs.day hs.day_year hs.short hover).2 hstep
  rw [hs.webDay_eq, hs.today_eq, if_neg (not_le.2 hlt)]

/-- The days that are left are stamps from today on. -/
theorem dueDates_sound (hyear : (s.plus k).year < 10000) {d : Date} (hd : d ∈ dueDates s k t) :
    validDate d.stamp.toList = true ∧ today ≤ d.stamp ∧ ∃ i ≤ k, d = s.plus i := by
  obtain ⟨hmem, hle⟩ := List.mem_filter.1 hd
  obtain ⟨i, hi, rfl⟩ := List.mem_map.1 hmem
  have hi := Nat.le_of_lt_succ (List.mem_range.1 hi)
  have hrank := hs.start.rank_plus_le hi
  have hbounds := (hs.start.plus i).bounds
  have hebounds := (hs.start.plus k).bounds
  have hiyear : (s.plus i).year < 10000 := by omega
  refine ⟨Date.validDate_stamp (hs.start.plus i) hiyear, ?_, i, hi, rfl⟩
  rw [hs.today_eq, Date.stamp_le_iff hs.day (hs.start.plus i) hs.day_year hiyear]
  exact of_decide_eq_true hle

theorem dueDates_nodup (hyear : (s.plus k).year < 10000) :
    ((dueDates s k t).map Date.stamp).Nodup := by
  have hdates : (dueDates s k t).Nodup :=
    (List.nodup_range.map_on fun i _ j _ heq => hs.start.plus_inj heq).filter _
  refine hdates.map_on fun d hd e he heq => ?_
  obtain ⟨-, -, i, hi, rfl⟩ := hs.dueDates_sound hyear hd
  obtain ⟨-, -, j, hj, rfl⟩ := hs.dueDates_sound hyear he
  have hbounds := (hs.start.plus k).bounds
  have hibounds := (hs.start.plus i).bounds
  have hjbounds := (hs.start.plus j).bounds
  have hirank := hs.start.rank_plus_le hi
  have hjrank := hs.start.rank_plus_le hj
  exact Date.stamp_inj (hs.start.plus i) (hs.start.plus j) (by omega) (by omega) heq

/-- **The loop over the days of a span** places its item on those that are left. -/
theorem exists_rows (hleft : t.rank ≤ (s.plus k).rank) (hstep : Stepped s k t) (tone : Tone) :
    today ≤ lastStamp s k ∧ (s.plus k).year < 10000 ∧ ∃ fuel rows,
      placeWhen it w ⟨s.stamp, lastStamp s k, k + 1⟩ tone fuel (firstDate s t).stamp = some rows ∧
        rows.map (·.day) = (dueDates s k t).map Date.stamp := by
  obtain ⟨hyear, hle, fuel, hvisits⟩ :=
    spanVisits_of_stepped hs.start hs.day hs.day_year hs.short hleft hstep
  refine ⟨hs.today_eq ▸ hle, hyear, exists_placeWhen hvisits fun x hx => ?_⟩
  obtain ⟨d, hd, rfl⟩ := List.mem_map.1 hx
  obtain ⟨-, -, i, hi, rfl⟩ := hs.dueDates_sound hyear hd
  have hrank := hs.start.rank_plus_le hi
  have hbounds := (hs.start.plus i).bounds
  have hebounds := (hs.start.plus k).bounds
  obtain ⟨fuel, xs, hxs⟩ := exists_position (i := i) hs.start hs.start_year (hi.trans hs.short)
    (by omega)
  refine ⟨fuel, 1 + xs.length, ?_⟩
  rw [spanDay_eq, hxs, Option.map_some]

end SpanOf

/-- Rows of a `when` are tagged with its days. -/
theorem tagged_placeWhen {raw day : String} {span : Span} {tone : Tone} {rows : List PlacedRow}
    (h : placeWhen it raw span tone fuel day = some rows) :
    rows.map PlacedRow.tagged = tagRows it ((rows.map (·.day)).map fun d => (d, .when)) := by
  rw [tagRows, List.map_map, List.map_map]
  refine List.map_congr_left fun r hr => ?_
  obtain ⟨-, hitem, hby⟩ := (placeWhen_eq_some h).2 r hr
  rw [PlacedRow.tagged, hitem, hby]
  rfl

/-- **What the loop adds for an item whose span it steps through** is where the item belongs. -/
theorem add_exact (h : Accepted it) (htoday : validDate today.toList = true)
    (hstep : SpanStepped today it) :
    (due today it).Nodup ∧ ∃ n, ∀ b : Buckets, ∃ b', (∀ fuel, n ≤ fuel →
      b.add fuel today it = some b') ∧ b'.rows.Perm (b.rows ++ tagRows it (due today it)) ∧
      ∃ new, b'.placed = b.placed ++ new ∧ ∀ r ∈ new, r.Sound today := by
  rcases add_cases today h with ⟨v, hv, hby, tone, hadd⟩ | ⟨hno, helse⟩
  · obtain ⟨w, hw⟩ : ∃ w, it.when = some w := by
      rcases hw : it.when with - | w
      · rw [webDay, hw] at hv
        cases hv
      · exact ⟨w, rfl⟩
    obtain ⟨s, k, t, hs⟩ := exists_spanOf h htoday hw
    have hweb := hs.webDay_eq
    rw [hv] at hweb
    split at hweb
    · obtain rfl := Option.some.inj hweb
      have hstepped := hs.stepped hstep hby
      have hleft : t.rank ≤ (s.plus k).rank := by
        by_contra hover
        rw [hs.webDay_past (not_le.1 hover) hstepped] at hv
        cases hv
      obtain ⟨-, hyear, fuel, rows, hrows, hdays⟩ := hs.exists_rows hleft hstepped tone
      have hdue : due today it =
          ((dueDates s k t).map Date.stamp).map fun d => (d, .when) := by
        rw [hs.due_running hleft, if_pos hby]
      refine ⟨?_, fuel, fun b => ⟨{ b with placed := b.placed ++ rows }, fun fuel' hfuel => ?_, ?_,
        rows, rfl, fun r hr => ?_⟩⟩
      · rw [hdue]
        exact (hs.dueDates_nodup hyear).map fun a b heq => (Prod.mk.inj heq).1
      · rw [hadd, placeWhen_mono hrows hfuel]
        rfl
      · rw [rows_placed, tagged_placeWhen hrows, hdays, hdue]
      · have hmem : r.day ∈ (dueDates s k t).map Date.stamp := hdays ▸ List.mem_map_of_mem hr
        obtain ⟨d, hd, heq⟩ := List.mem_map.1 hmem
        obtain ⟨hvalid, hle, -⟩ := hs.dueDates_sound hyear hd
        refine ⟨heq ▸ hvalid, heq ▸ hle, ?_⟩
        rw [((placeWhen_eq_some hrows).2 r hr).1]
        exact validWhen_of_parseWhen (h.when w hw)
    · cases hweb
  · have hdue : due today it = dueElsewhere today it := by
      rcases hw : it.when with - | w
      · rw [due, hw]
        rfl
      · obtain ⟨s, k, t, hs⟩ := exists_spanOf h htoday hw
        rcases Nat.lt_or_ge (s.plus k).rank t.rank with hover | hleft
        · exact hs.due_past hover
        · rw [hs.due_running hleft]
          refine if_neg fun hby => ?_
          obtain ⟨hle, -⟩ := hs.exists_rows hleft (hs.stepped hstep hby) .neutral
          exact hno _ (hs.webDay_some hle) hby
    rw [hdue]
    refine ⟨dueElsewhere_nodup today it, 0, fun b => ?_⟩
    obtain ⟨b', hb', hrest⟩ := helse b
    exact ⟨b', fun fuel _ => hb' fuel, hrest⟩

/-- **An item that gets the rows it should** has a span that the loop steps through. -/
theorem exists_added (h : Accepted it) (htoday : validDate today.toList = true) (fuel : ℕ) :
    ∃ l : List (String × DayPlacedBy), ∀ b b' : Buckets, b.add fuel today it = some b' →
      b'.rows.Perm (b.rows ++ tagRows it l) ∧ (l.Perm (due today it) → SpanStepped today it) := by
  rcases add_cases today h with ⟨v, hv, hby, tone, hadd⟩ | ⟨hno, helse⟩
  · obtain ⟨w, hw⟩ : ∃ w, it.when = some w := by
      rcases hw : it.when with - | w
      · rw [webDay, hw] at hv
        cases hv
      · exact ⟨w, rfl⟩
    obtain ⟨s, k, t, hs⟩ := exists_spanOf h htoday hw
    have hweb := hs.webDay_eq
    rw [hv] at hweb
    split at hweb
    · rename_i hle
      obtain rfl := Option.some.inj hweb
      refine ⟨(((placeWhen it w ⟨s.stamp, lastStamp s k, k + 1⟩ tone fuel
        (firstDate s t).stamp).getD []).map (·.day)).map fun d => (d, .when), fun b b' hb' => ?_⟩
      rw [hadd] at hb'
      obtain ⟨rows, hrows, rfl⟩ := Option.map_eq_some_iff.1 hb'
      dsimp only at hrows
      rw [hrows, Option.getD_some, rows_placed, tagged_placeWhen hrows]
      refine ⟨List.Perm.refl _, fun hperm => hs.spanStepped fun _ => ?_⟩
      obtain ⟨hvisits, -⟩ := placeWhen_eq_some hrows
      rcases Nat.lt_or_ge (s.plus k).rank t.rank with hover | hleft
      · -- a span that is over is placed today all the same
        have hfirst : (firstDate s t).stamp ≤ lastStamp s k := by
          have hlate : ¬t.rank ≤ s.rank := fun hle => not_lt_of_ge
            (hle.trans (hs.start.rank_plus_le (m := 0) (Nat.zero_le k))) hover
          rw [firstDate, if_neg hlate, ← hs.today_eq]
          exact hle
        obtain ⟨n, -, hdays, -, hstop⟩ := visits_eq_some_iff.1 hvisits
        rcases n with - | n
        · exact absurd hfirst hstop
        · rw [hs.due_past hover, hdays, List.range_succ_eq_map] at hperm
          exact absurd rfl (dueElsewhere_single (hperm.subset List.mem_cons_self)).1
      · rw [hs.due_running hleft, if_pos hby] at hperm
        have hdays : (rows.map (·.day)).Perm ((dueDates s k t).map Date.stamp) := by
          simpa [Function.comp_def] using hperm.map Prod.fst
        exact stepped_of_spanVisits hs.start hs.start_year hs.day hs.day_year hs.short hleft hvisits
          hdays
    · cases hweb
  · refine ⟨dueElsewhere today it, fun b b' hb' => ?_⟩
    obtain ⟨b₁, hb₁, hperm, -⟩ := helse b
    obtain rfl := Option.some.inj ((hb₁ fuel).symm.trans hb')
    refine ⟨hperm, fun hdue w hw => ?_⟩
    obtain ⟨s, k, t, hs⟩ := exists_spanOf h htoday hw
    refine hs.spanStepped (fun hby => ?_) w hw
    rcases Nat.lt_or_ge (s.plus k).rank t.rank with hover | hleft
    · refine (past_iff hs.start hs.day hs.day_year hs.short hover).1 (not_le.1 fun hle => ?_)
      exact hno _ (hs.webDay_some (hs.today_eq ▸ hle)) hby
    · obtain ⟨m, -, -, hdates⟩ := dueDates_running hs.start hs.day hleft
      rw [hs.due_running hleft, if_pos hby, hdates, List.range_succ_eq_map] at hdue
      exact absurd rfl (dueElsewhere_single (hdue.symm.subset List.mem_cons_self)).1

end Items

/-! ## All items -/

/-- The rows of a group. -/
def DayGroup.tagged (g : DayGroup) : List (String × ItemView × DayPlacedBy) :=
  g.rows.map fun r => (g.key, r.item, r.placedBy)

/-- Every item has the rows it should have and no other row is there; and the groups of days begin
with today and go on day by day. -/
structure PlacesExactly (today : String) (items : List ItemView) (groups : List DayGroup) :
    Prop where
  rows : (groups.flatMap DayGroup.tagged).Perm
    (items.flatMap fun it => tagRows it (due today it))
  once : ∀ it ∈ items, (due today it).Nodup
  keys : ∃ ahead days, groups = ahead ++ days ∧
    (∀ g ∈ ahead, g.key = OVERDUE_KEY ∨ g.key = UNSCHEDULED_KEY) ∧
    (days.map DayGroup.key).head? = some today ∧ (days.map DayGroup.key).Pairwise (· < ·)

section All

variable {today : String} {items : List ItemView} {b b' : Buckets} {fuel : ℕ}

/-- Rows of several items are the rows of each. -/
theorem tagRows_perm {f g : ItemView → List (String × DayPlacedBy)}
    (h : (items.flatMap fun it => tagRows it (f it)).Perm
      (items.flatMap fun it => tagRows it (g it))) {it : ItemView} (hit : it ∈ items) :
    (f it).Perm (g it) := by
  classical
  have hcount (f : ItemView → List (String × DayPlacedBy)) (p : String × DayPlacedBy)
      (items : List ItemView) : (items.flatMap fun it => tagRows it (f it)).count (p.1, it, p.2) =
        items.count it * (f it).count p := by
    induction items with
    | nil => simp
    | cons x items ih =>
      rw [List.flatMap_cons, List.count_append, ih, List.count_cons, tagRows]
      by_cases hx : x = it
      · subst hx
        have hinj : Function.Injective fun p : String × DayPlacedBy => (p.1, x, p.2) := by
          rintro ⟨k, by₁⟩ ⟨k', by₂⟩ heq
          simpa using heq
        rw [List.count_map_of_injective (f x) _ hinj p]
        simp
        ring
      · rw [List.count_eq_zero.2]
        · simp [hx]
        · simp [hx]
  refine List.perm_iff_count.2 fun p => ?_
  have heq := h.count_eq (p.1, it, p.2)
  rw [hcount, hcount] at heq
  exact Nat.eq_of_mul_eq_mul_left (List.count_pos_iff.2 hit) heq

/-- **The loop over items** whose spans it steps through. -/
theorem foldlM_exact (hall : ∀ it ∈ items, Accepted it) (htoday : validDate today.toList = true)
    (hstep : ∀ it ∈ items, SpanStepped today it) (b : Buckets) :
    ∃ n b', (∀ fuel, n ≤ fuel → items.foldlM (Buckets.add fuel today) b = some b') ∧
      b'.rows.Perm (b.rows ++ items.flatMap fun it => tagRows it (due today it)) ∧
      ∃ new, b'.placed = b.placed ++ new ∧ ∀ r ∈ new, r.Sound today := by
  induction items generalizing b with
  | nil =>
    refine ⟨0, b, fun _ _ => rfl, ?_, [], (List.append_nil _).symm, fun r hr => by cases hr⟩
    exact List.Perm.of_eq (List.append_nil _).symm
  | cons it items ih =>
    obtain ⟨hit, hall⟩ := List.forall_mem_cons.1 hall
    obtain ⟨hits, hstep⟩ := List.forall_mem_cons.1 hstep
    obtain ⟨-, n₁, hadd⟩ := add_exact hit htoday hits
    obtain ⟨b₁, hb₁, hperm₁, new₁, hnew₁, hsound₁⟩ := hadd b
    obtain ⟨n₂, b₂, hb₂, hperm₂, new₂, hnew₂, hsound₂⟩ := ih hall hstep b₁
    refine ⟨max n₁ n₂, b₂, fun fuel hfuel => ?_, ?_, new₁ ++ new₂, ?_, fun r hr => ?_⟩
    · rw [List.foldlM_cons, hb₁ fuel ((le_max_left _ _).trans hfuel)]
      exact hb₂ fuel ((le_max_right _ _).trans hfuel)
    · rw [List.flatMap_cons, ← List.append_assoc]
      exact hperm₂.trans (hperm₁.append_right _)
    · rw [hnew₂, hnew₁, List.append_assoc]
    · rcases List.mem_append.1 hr with hr | hr
      · exact hsound₁ r hr
      · exact hsound₂ r hr

/-- What the loop over items adds, if it ends. -/
theorem foldlM_added {l : ItemView → List (String × DayPlacedBy)}
    (hl : ∀ it ∈ items, ∀ b b' : Buckets, b.add fuel today it = some b' →
      b'.rows.Perm (b.rows ++ tagRows it (l it)) ∧
        ((l it).Perm (due today it) → SpanStepped today it))
    (h : items.foldlM (Buckets.add fuel today) b = some b') :
    b'.rows.Perm (b.rows ++ items.flatMap fun it => tagRows it (l it)) ∧
      ∀ it ∈ items, (l it).Perm (due today it) → SpanStepped today it := by
  induction items generalizing b with
  | nil =>
    cases h
    exact ⟨List.Perm.of_eq (List.append_nil _).symm, fun it hit => by cases hit⟩
  | cons it items ih =>
    obtain ⟨hit, hl⟩ := List.forall_mem_cons.1 hl
    rw [List.foldlM_cons] at h
    obtain ⟨b₁, hb₁, hrest⟩ := Option.bind_eq_some_iff.1 h
    obtain ⟨hperm₁, hstep₁⟩ := hit b b₁ hb₁
    obtain ⟨hperm₂, hstep₂⟩ := ih hl hrest
    refine ⟨?_, List.forall_mem_cons.2 ⟨hstep₁, hstep₂⟩⟩
    rw [List.flatMap_cons, ← List.append_assoc]
    exact hperm₂.trans (hperm₁.append_right _)

/-- **Pushing rows** adds each to the group of its day, and days in order stay in order. -/
theorem foldl_pushGroup_days (gs : List DayGroup) (g : DayGroup) (ps : List PlacedRow) :
    ∃ days, ps.foldl pushGroup (gs ++ [g]) = gs ++ days ∧
      days.flatMap DayGroup.tagged = g.tagged ++ ps.map PlacedRow.tagged ∧
      (days.map DayGroup.key).head? = some g.key ∧
      ((g.key :: ps.map (·.day)).Pairwise (· ≤ ·) → (days.map DayGroup.key).Pairwise (· < ·)) := by
  induction ps generalizing gs g with
  | nil =>
    refine ⟨[g], rfl, ?_, rfl, fun _ => List.pairwise_singleton _ _⟩
    rw [List.flatMap_cons, List.flatMap_nil, List.map_nil]
  | cons p ps ih =>
    rw [List.foldl_cons, pushGroup_append, pushGroup]
    split
    · rename_i hday
      obtain ⟨days, hdays, htagged, hhead, hkeys⟩ := ih gs { g with rows := g.rows ++ [p.row] }
      refine ⟨days, hdays, ?_, hhead, fun hsorted => hkeys ?_⟩
      · rw [htagged, DayGroup.tagged, DayGroup.tagged, List.map_append, List.append_assoc,
          List.map_cons]
        dsimp only
        rw [hday]
        rfl
      · rw [List.map_cons, ← hday] at hsorted
        exact (List.pairwise_cons.1 hsorted).2
    · rename_i hday
      obtain ⟨days, hdays, htagged, hhead, hkeys⟩ := ih (gs ++ [g]) ⟨p.day, .future, [p.row]⟩
      refine ⟨g :: days, ?_, ?_, rfl, fun hsorted => ?_⟩
      · simpa only [List.append_assoc, List.cons_append, List.nil_append] using hdays
      · rw [List.flatMap_cons, htagged]
        rfl
      · rw [List.map_cons] at hsorted
        obtain ⟨hfirst, hsorted⟩ := List.pairwise_cons.1 hsorted
        have hpairs := hkeys hsorted
        have hlt : g.key < p.day := lt_of_le_of_ne (hfirst p.day List.mem_cons_self) hday
        refine List.pairwise_cons.2 ⟨fun key hkey => ?_, hpairs⟩
        rcases hcons : days.map DayGroup.key with - | ⟨first, rest⟩
        · rw [hcons] at hkey
          cases hkey
        · rw [hcons] at hhead hpairs hkey
          obtain rfl : first = p.day := Option.some.inj hhead
          rcases List.mem_cons.1 hkey with rfl | hrest
          · exact hlt
          · exact hlt.trans ((List.pairwise_cons.1 hpairs).1 key hrest)

/-- **The groups** of what the loop collected. -/
theorem groups_exact (localeCompare : String → String → Ordering) (today : String) (b : Buckets) :
    ((b.groups localeCompare today).flatMap DayGroup.tagged).Perm b.rows ∧
      ∃ ahead days, b.groups localeCompare today = ahead ++ days ∧
        (∀ g ∈ ahead, g.key = OVERDUE_KEY ∨ g.key = UNSCHEDULED_KEY) ∧
        (days.map DayGroup.key).head? = some today ∧
        ((today :: (sortBy (cmpPlacedRow localeCompare) b.placed).map (·.day)).Pairwise (· ≤ ·) →
          (days.map DayGroup.key).Pairwise (· < ·)) := by
  set owed : List DayGroup := if sortBy (cmpOverdue localeCompare) b.overdueRows = [] then []
    else [⟨OVERDUE_KEY, .overdue, (sortBy (cmpOverdue localeCompare) b.overdueRows).map (·.row)⟩]
  set undated : List DayGroup := if b.unscheduled = [] then []
    else [⟨UNSCHEDULED_KEY, .unscheduled, (sortBy (cmpUnscheduled localeCompare) b.unscheduled).map
      fun item => ⟨item, .none, .neutral, none⟩⟩]
  obtain ⟨days, hdays, htagged, hhead, hkeys⟩ := foldl_pushGroup_days (owed ++ undated)
    ⟨today, .today, []⟩ (sortBy (cmpPlacedRow localeCompare) b.placed)
  have hgroups : b.groups localeCompare today = owed ++ undated ++ days := hdays
  have howed : (owed.flatMap DayGroup.tagged).Perm
      (b.overdueRows.map fun r => (OVERDUE_KEY, r.row.item, r.row.placedBy)) := by
    have hsort : (sortBy (cmpOverdue localeCompare) b.overdueRows).Perm b.overdueRows :=
      List.perm_insertionSort _ _
    have hflat : owed.flatMap DayGroup.tagged = (sortBy (cmpOverdue localeCompare)
        b.overdueRows).map fun r => (OVERDUE_KEY, r.row.item, r.row.placedBy) := by
      by_cases hnil : sortBy (cmpOverdue localeCompare) b.overdueRows = []
      · simp [owed, hnil]
      · simp [owed, hnil, DayGroup.tagged, Function.comp_def]
    rw [hflat]
    exact hsort.map _
  have hundated : (undated.flatMap DayGroup.tagged).Perm
      (b.unscheduled.map fun it => (UNSCHEDULED_KEY, it, .none)) := by
    have hsort : (sortBy (cmpUnscheduled localeCompare) b.unscheduled).Perm b.unscheduled :=
      List.perm_insertionSort _ _
    by_cases hnil : b.unscheduled = []
    · simp [undated, hnil]
    · have hflat : undated.flatMap DayGroup.tagged = (sortBy (cmpUnscheduled localeCompare)
          b.unscheduled).map fun it => (UNSCHEDULED_KEY, it, .none) := by
        simp [undated, hnil, DayGroup.tagged, Function.comp_def]
      rw [hflat]
      exact hsort.map _
  have hplaced : (sortBy (cmpPlacedRow localeCompare) b.placed).Perm b.placed :=
    List.perm_insertionSort _ _
  refine ⟨?_, owed ++ undated, days, hgroups, fun g hg => ?_, hhead, hkeys⟩
  · rw [hgroups, List.flatMap_append, List.flatMap_append, htagged]
    exact (howed.append hundated).append (hplaced.map _)
  · rcases List.mem_append.1 hg with hg | hg
    · simp only [owed] at hg
      split at hg
      · cases hg
      · rw [List.mem_singleton.1 hg]
        exact .inl rfl
    · simp only [undated] at hg
      split at hg
      · cases hg
      · rw [List.mem_singleton.1 hg]
        exact .inr rfl

/-- Rows of days that are not over are sorted by their days. -/
theorem sortBy_days {localeCompare : String → String → Ordering}
    (hlc : ∀ s t, DateString s → DateString t → localeCompare s t = compare s t)
    {rows : List PlacedRow} (hrows : ∀ r ∈ rows, r.Sound today) :
    (today :: (sortBy (cmpPlacedRow localeCompare) rows).map (·.day)).Pairwise (· ≤ ·) := by
  have hentries : (sortBy (cmpPlacedRow localeCompare) rows).map PlacedRow.entry =
      sortBy cmpEntry (rows.map PlacedRow.entry) := by
    refine sortBy_map _ fun a ha b hb => ?_
    rw [cmpPlacedRow, byRawThenCreated,
      hlc _ _ (dateString_of_validDate (hrows a ha).day) (dateString_of_validDate (hrows b hb).day),
      hlc _ _ (hrows a ha).raw (hrows b hb).raw]
    rfl
  have hdays : (sortBy (cmpPlacedRow localeCompare) rows).map (·.day) =
      (sortBy cmpEntry (rows.map PlacedRow.entry)).map (·.day) := by
    rw [← hentries, List.map_map]
    rfl
  refine List.pairwise_cons.2 ⟨fun day hday => ?_, ?_⟩
  · obtain ⟨r, hr, rfl⟩ := List.mem_map.1 hday
    exact (hrows r (mem_sortBy.1 hr)).le
  · rw [hdays]
    refine List.pairwise_map.2 (sortBy_pairwise.imp fun {a b} hle => not_lt.1 fun hlt => ?_)
    have hgt : cmpEntry a b = (Ordering.gt).then _ :=
      congrArg (Ordering.then · _) (compare_gt_iff_gt.2 hlt)
    rw [hgt] at hle
    exact absurd hle (by simp)

/-- **`groupByDay` terminates and places exactly** if and only if every span that it looks at is
one that it steps through as the calendar does. -/
theorem groupByDay_exact_iff {localeCompare : String → String → Ordering}
    (hall : ∀ it ∈ items, Accepted it) (htoday : validDate today.toList = true)
    (hlc : ∀ s t, DateString s → DateString t → localeCompare s t = compare s t) :
    (∃ n groups,
      (∀ fuel, n ≤ fuel → groupByDay localeCompare fuel items today = some groups) ∧
        PlacesExactly today items groups) ↔ ∀ it ∈ items, SpanStepped today it := by
  constructor
  · rintro ⟨n, groups, hgroups, hexact⟩
    obtain ⟨b, hb, rfl⟩ := Option.map_eq_some_iff.1 (hgroups n le_rfl)
    have hadded (it : ItemView) : ∃ l : List (String × DayPlacedBy), Accepted it →
        ∀ b b' : Buckets, b.add n today it = some b' →
          b'.rows.Perm (b.rows ++ tagRows it l) ∧
            (l.Perm (due today it) → SpanStepped today it) := by
      by_cases h : Accepted it
      · obtain ⟨l, hl⟩ := exists_added h htoday n
        exact ⟨l, fun _ => hl⟩
      · exact ⟨[], fun h' => absurd h' h⟩
    choose l hl using hadded
    obtain ⟨hperm, hstep⟩ := foldlM_added (fun it hit => hl it (hall it hit)) hb
    have hrows := (groups_exact localeCompare today b).1.symm.trans hexact.rows
    intro it hit
    exact hstep it hit (tagRows_perm (hperm.symm.trans hrows) hit)
  · intro hstep
    obtain ⟨n, b, hb, hperm, new, hnew, hsound⟩ := foldlM_exact hall htoday hstep ⟨[], [], []⟩
    obtain ⟨hrows, ahead, days, hgroups, hahead, hhead, hkeys⟩ :=
      groups_exact localeCompare today b
    refine ⟨n, b.groups localeCompare today, fun fuel hfuel => ?_, hrows.trans hperm,
      fun it hit => (add_exact (hall it hit) htoday (hstep it hit)).1,
      ahead, days, hgroups, hahead, hhead, hkeys ?_⟩
    · rw [groupByDay, hb fuel hfuel]
      rfl
    · refine sortBy_days hlc fun r hr => hsound r ?_
      rw [hnew] at hr
      exact hr

end All

/-! ## Runs -/

instance (it : ItemView) : Decidable (Accepted it) :=
  decidable_of_iff ((∀ w ∈ it.when, parseWhen w = some w) ∧
      (∀ d ∈ it.deadline, parseDeadline d = some d) ∧ ∀ n ∈ it.duration, 1 ≤ n ∧ n ≤ 525600)
    ⟨fun h => ⟨h.1, h.2.1, h.2.2⟩, fun h => ⟨h.when, h.deadline, h.duration⟩⟩

instance (s : Date) (k : ℕ) (t : Date) : Decidable (Stepped s k t) := by
  unfold Stepped
  infer_instance

instance (today : String) (it : ItemView) : Decidable (SpanStepped today it) :=
  inferInstanceAs (Decidable (∀ w ∈ it.when, _ → _ → _))

/-- Items with spans: over the end of a year and a leap day, begun before today, over, and behind a
deadline. -/
def spanItems : List ItemView :=
  [{ sampleItem "a" "inbox" .todo none (some "2027-12-30T22:00") with duration := some 2880 },
    { sampleItem "b" "inbox" .done (some "2020-01-01") (some "2028-02-28") with
      duration := some 4320 },
    { sampleItem "c" "inbox" .todo (some "2027-12-29") (some "2027-12-20") with
      duration := some 525600 },
    { sampleItem "d" "events" .backlog none (some "2027-12-01") with duration := some 14400 },
    { sampleItem "e" "inbox" .todo (some "2027-12-29") (some "2028-01-05") with
      duration := some 2880 }]

theorem groupByDay_exact_spanItems :
    ∃ n groups, (∀ fuel, n ≤ fuel → groupByDay compare fuel spanItems "2027-12-29" = some groups) ∧
      PlacesExactly "2027-12-29" spanItems groups :=
  (groupByDay_exact_iff (by decide +kernel) (by decide +kernel) fun _ _ _ _ => rfl).2
    (by decide +kernel)

deriving instance DecidableEq for Span

/-- Two days, of which the second is the last day of the year 9999. -/
def lastDaysItem : ItemView :=
  { sampleItem "a" "inbox" .todo none (some "9999-12-30") with duration := some 2880 }

/-- The loop over its days does not end. -/
theorem groupByDay_lastDays : Accepted lastDaysItem ∧
    due "2026-01-10" lastDaysItem = [("9999-12-30", .when), ("9999-12-31", .when)] ∧
    ∀ fuel, groupByDay compare fuel [lastDaysItem] "2026-01-10" = none := by
  have haccepted : Accepted lastDaysItem := by decide +kernel
  refine ⟨haccepted, by decide +kernel, fun fuel => ?_⟩
  have hv : webDay "2026-01-10" lastDaysItem =
      some ("9999-12-30", ⟨"9999-12-30", "9999-12-31", 2⟩, "9999-12-30") := by decide +kernel
  have hby : ByWhen "9999-12-30" lastDaysItem := by decide +kernel
  obtain ⟨hnext, hstuck, hle⟩ := beyond_last
  have hvisits (n : ℕ) : nextStamp^[n] "9999-12-30" ≤ "9999-12-31" := by
    have hbeyond (n : ℕ) : nextStamp^[n] "10000-01-01" = "10000-01-01" := by
      induction n with
      | zero => rfl
      | succ n ih => rw [Function.iterate_succ_apply, nextStamp, hstuck, ih]
    rcases n with - | - | n
    · decide
    · decide +kernel
    · rw [Function.iterate_succ_apply, Function.iterate_succ_apply,
        show nextStamp (nextStamp "9999-12-30") = "10000-01-01" by decide +kernel, hbeyond]
      exact hle
  rcases add_cases "2026-01-10" haccepted with ⟨v, hv', -, tone, hadd⟩ | ⟨hno, -⟩
  · obtain rfl := Option.some.inj (hv.symm.trans hv')
    rcases hgroups : groupByDay compare fuel [lastDaysItem] "2026-01-10" with - | groups
    · rfl
    · obtain ⟨b, hb, -⟩ := Option.map_eq_some_iff.1 hgroups
      rw [List.foldlM_cons] at hb
      obtain ⟨b₁, hb₁, -⟩ := Option.bind_eq_some_iff.1 hb
      rw [hadd] at hb₁
      obtain ⟨rows, hrows, -⟩ := Option.map_eq_some_iff.1 hb₁
      obtain ⟨n, -, -, -, hstop⟩ := visits_eq_some_iff.1 (placeWhen_eq_some hrows).1
      exact absurd (hvisits n) hstop
  · exact absurd hby (hno _ hv)

end Monoplan.Calendar
