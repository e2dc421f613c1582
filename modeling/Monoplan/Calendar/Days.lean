import Monoplan.Calendar.Stamp
import Monoplan.Doc.Dates

/-!
# Days of the calendar

The days that a `Date` steps through, in order, and the stamps that stand for them.

* `Real` is a day of the Gregorian calendar, of any year; `rank` numbers the days in order, with
  gaps.  `next` is the day that follows: nothing lies between the two.
* `stamp` is the text of a day of a year of four digits, `dayOf` the day of a text.
* `addDaysToStamp_stamp`: the web reads a year of two digits as one of the twentieth century, and
  writes a year as it is.  So its stamps are those of the calendar from the year 1000 on
  (`localDateStamp_eq`), and those of the years before compare by their first digits
  (`stamp_lt_short_iff`).
-/

namespace Monoplan.Calendar

open Monoplan.Doc

namespace Date

/-- A number for a day: greater for a later one. -/
def rank (d : Date) : ℕ := 372 * d.year + 31 * d.month + d.day

/-- A day of the Gregorian calendar. -/
structure Real (d : Date) : Prop where
  month_pos : 1 ≤ d.month
  month_le : d.month ≤ 12
  day_pos : 1 ≤ d.day
  day_le : d.day ≤ monthDays d.year d.month

/-- `YYYY-MM-DD`. -/
def stamp (d : Date) : String :=
  String.ofList (four d.year ++ '-' :: (two d.month ++ '-' :: two d.day))

end Date

/-- The day of a stamp. -/
def dayOf (stamp : String) : Date :=
  let cs := stamp.toList
  ⟨(digits (cs.take 4)).getD 0, (digits ((cs.drop 5).take 2)).getD 0,
    (digits ((cs.drop 8).take 2)).getD 0⟩

namespace Date

variable {d e s t : Date} {k n : ℕ}

/-! ## Order -/

theorem monthDays_bounds (year : ℕ) {month : ℕ} (h : 1 ≤ month) (h' : month ≤ 12) :
    28 ≤ monthDays year month ∧ monthDays year month ≤ 31 := by
  refine ⟨?_, monthDays_le year month⟩
  unfold monthDays daysInMonth
  interval_cases month
  case «2» =>
    dsimp only
    split <;> simp_all
    split <;> omega
  all_goals simp

theorem Real.ranges (h : d.Real) : (1 ≤ d.month ∧ d.month ≤ 12) ∧ 1 ≤ d.day ∧ d.day ≤ 31 :=
  ⟨⟨h.month_pos, h.month_le⟩, h.day_pos, h.day_le.trans (monthDays_le _ _)⟩

theorem Real.bounds (h : d.Real) : 372 * d.year + 32 ≤ d.rank ∧ d.rank ≤ 372 * d.year + 403 := by
  have hranges := h.ranges
  unfold rank
  omega

theorem Real.next (h : d.Real) : d.next.Real := by
  obtain ⟨hlo, hhi, hpos, hle⟩ := h
  unfold Date.next
  split
  · rename_i hday
    exact ⟨hlo, hhi, Nat.succ_pos _, hday⟩
  split
  · rename_i hmonth
    refine ⟨Nat.succ_pos _, hmonth, le_rfl, ?_⟩
    have hlong := (monthDays_bounds d.year (Nat.succ_pos d.month) hmonth).1
    exact (show 1 ≤ 28 by decide).trans hlong
  · have hlong : 28 ≤ monthDays (d.year + 1) 1 :=
      (monthDays_bounds _ le_rfl (by decide)).1
    exact ⟨le_rfl, (show 1 ≤ 12 by decide), le_rfl, (show 1 ≤ 28 by decide).trans hlong⟩

theorem Real.rank_lt_next (h : d.Real) : d.rank < d.next.rank := by
  have hranges := h.ranges
  unfold Date.next rank
  repeat' split
  all_goals dsimp only
  all_goals omega

/-- **Nothing lies between a day and the next one.** -/
theorem Real.next_rank_le (h : d.Real) (ht : t.Real) (hlt : d.rank < t.rank) :
    d.next.rank ≤ t.rank := by
  have hranges := h.ranges
  have htranges := ht.ranges
  unfold Date.next rank at *
  split
  · dsimp only
    omega
  · rename_i hend
    -- the month has no further day
    have hother : ¬(t.year = d.year ∧ t.month = d.month) := fun ⟨hyear, hmonth⟩ => by
      have hle := ht.day_le
      rw [hyear, hmonth] at hle hlt
      omega
    split
    · dsimp only
      omega
    · dsimp only
      omega

theorem Real.eq_of_rank (h : d.Real) (he : e.Real) (heq : d.rank = e.rank) : d = e := by
  have hranges := h.ranges
  have heranges := he.ranges
  obtain ⟨y, m, n⟩ := d
  obtain ⟨y', m', n'⟩ := e
  simp only [rank] at *
  obtain ⟨rfl, rfl, rfl⟩ : y = y' ∧ m = m' ∧ n = n' := by omega
  rfl

/-! ## Days on -/

theorem plus_succ (d : Date) (n : ℕ) : d.plus (n + 1) = (d.plus n).next :=
  Function.iterate_succ_apply' Date.next n d

theorem plus_plus (d : Date) (m n : ℕ) : (d.plus m).plus n = d.plus (m + n) := by
  rw [plus, plus, plus, ← Function.iterate_add_apply, Nat.add_comm]

theorem Real.plus (h : d.Real) (n : ℕ) : (d.plus n).Real := by
  induction n with
  | zero => exact h
  | succ n ih =>
    rw [plus_succ]
    exact ih.next

theorem Real.rank_plus_lt (h : d.Real) {m n : ℕ} (hlt : m < n) :
    (d.plus m).rank < (d.plus n).rank := by
  induction n with
  | zero => exact absurd hlt (Nat.not_lt_zero m)
  | succ n ih =>
    rw [plus_succ]
    have hstep := (h.plus n).rank_lt_next
    rcases Nat.lt_or_eq_of_le (Nat.le_of_lt_succ hlt) with hmn | rfl
    · exact (ih hmn).trans hstep
    · exact hstep

theorem Real.rank_plus_le (h : d.Real) {m n : ℕ} (hle : m ≤ n) :
    (d.plus m).rank ≤ (d.plus n).rank := by
  rcases Nat.lt_or_eq_of_le hle with hlt | rfl
  · exact (h.rank_plus_lt hlt).le
  · exact le_rfl

theorem Real.plus_inj (h : d.Real) {m n : ℕ} (heq : d.plus m = d.plus n) : m = n := by
  rcases Nat.lt_trichotomy m n with hlt | hmn | hlt
  · exact absurd (congrArg rank heq) (h.rank_plus_lt hlt).ne
  · exact hmn
  · exact absurd (congrArg rank heq) (h.rank_plus_lt hlt).ne'

/-- Every day of a span is some days from its start. -/
theorem Real.exists_plus (h : s.Real) (ht : t.Real) (hlo : s.rank ≤ t.rank)
    (hhi : t.rank ≤ (s.plus k).rank) : ∃ a ≤ k, t = s.plus a := by
  induction k with
  | zero => exact ⟨0, le_rfl, ht.eq_of_rank h (le_antisymm hhi hlo)⟩
  | succ k ih =>
    rcases Nat.lt_or_ge (s.plus k).rank t.rank with hlt | hge
    · refine ⟨k + 1, le_rfl, ht.eq_of_rank (h.plus _) (le_antisymm hhi ?_)⟩
      rw [plus_succ]
      exact (h.plus k).next_rank_le ht hlt
    · obtain ⟨a, ha, rfl⟩ := ih hge
      exact ⟨a, ha.trans (Nat.le_succ k), rfl⟩

/-- The days of a year that has no leap day, before a month. -/
def daysBefore (month : ℕ) : ℕ :=
  [0, 31, 59, 90, 120, 151, 181, 212, 243, 273, 304, 334].getD (month - 1) 0

/-- **A year of days ends in the next year** at the latest. -/
theorem Real.plus_year_le (h : d.Real) (hn : n ≤ 365) : (d.plus n).year ≤ d.year + 1 := by
  have hcount {e : Date} (he : e.Real) :
      365 * e.year + 1 ≤ 365 * e.year + daysBefore e.month + e.day ∧
      365 * e.year + daysBefore e.month + e.day ≤ 365 * e.year + 365 ∧
      365 * e.next.year + daysBefore e.next.month + e.next.day ≤
        365 * e.year + daysBefore e.month + e.day + 1 := by
    obtain ⟨hlo, hhi, hpos, hle⟩ := he
    obtain ⟨y, m, x⟩ := e
    dsimp only at *
    have hlong (month : ℕ) (h : month ≠ 2) : monthDays y month = (daysInMonth 1 month).getD 0 := by
      unfold monthDays daysInMonth
      simp [h]
    have hfeb : 28 ≤ monthDays y 2 ∧ monthDays y 2 ≤ 29 := by
      unfold monthDays daysInMonth
      dsimp only
      split <;> simp_all
      split <;> omega
    unfold Date.next daysBefore
    dsimp only
    interval_cases m
    case «2» =>
      split
      · simp
        omega
      · simp
        omega
    all_goals
      rw [hlong _ (by decide)] at hle ⊢
      simp only [daysInMonth, Nat.reduceSub] at hle ⊢
      simp at hle ⊢
      split
      all_goals simp
      all_goals omega
  have hrun (n : ℕ) : 365 * (d.plus n).year + daysBefore (d.plus n).month + (d.plus n).day ≤
      365 * d.year + daysBefore d.month + d.day + n := by
    induction n with
    | zero => exact le_rfl
    | succ n ih =>
      have hstep := (hcount (h.plus n)).2.2
      rw [plus_succ]
      omega
  have hend := (hcount (h.plus n)).1
  have hstart := (hcount h).2.1
  have hn' := hrun n
  omega

/-! ## Stamps -/

theorem toList_stamp (d : Date) :
    d.stamp.toList = four d.year ++ '-' :: (two d.month ++ '-' :: two d.day) :=
  String.toList_ofList

theorem Real.month_lt (h : d.Real) : d.month < 100 := h.month_le.trans_lt (by decide)

theorem Real.day_lt (h : d.Real) : d.day < 100 :=
  (h.day_le.trans (monthDays_le _ _)).trans_lt (by decide)

/-- A day of four digits. -/
def Real.toDay (h : d.Real) (hyear : d.year < 10000) : Day :=
  ⟨d.year, d.month, d.day, hyear, h.month_pos, h.month_le, h.day_pos,
    monthDays_eq h.month_pos h.month_le ▸ h.day_le⟩

theorem validDate_stamp (h : d.Real) (hyear : d.year < 10000) :
    validDate d.stamp.toList = true :=
  (validDate_iff _).2 ⟨h.toDay hyear, d.toList_stamp⟩

/-- Every valid stamp is a day's. -/
theorem exists_stamp {stamp : String} (h : validDate stamp.toList = true) :
    ∃ d : Date, d.Real ∧ d.year < 10000 ∧ stamp = d.stamp := by
  obtain ⟨d, hd⟩ := (validDate_iff _).1 h
  refine ⟨⟨d.year, d.month, d.day⟩, ⟨d.month_pos, d.month_le, d.day_pos, ?_⟩, d.year_lt, ?_⟩
  · exact (monthDays_eq d.month_pos d.month_le).symm ▸ d.day_le
  · rw [← String.ofList_toList (s := stamp), hd]
    rfl

/-- **Stamps are ordered as their days.** -/
theorem stamp_lt_iff (h : d.Real) (he : e.Real) (hyear : d.year < 10000)
    (hyear' : e.year < 10000) : d.stamp < e.stamp ↔ d.rank < e.rank := by
  have hlt {a b : Date} (ha : a.Real) (hb : b.Real) (hyear : a.year < 10000)
      (hyear' : b.year < 10000) (hrank : a.rank < b.rank) : a.stamp < b.stamp := by
    have hranges := ha.ranges
    have hranges' := hb.ranges
    have hbefore : (ha.toDay hyear).Before (hb.toDay hyear') := by
      unfold rank at hrank
      show a.year < b.year ∨ a.year = b.year ∧ (a.month < b.month ∨
        a.month = b.month ∧ a.day < b.day)
      omega
    have hchars := hbefore.chars_lt [] []
    rw [List.append_nil, List.append_nil] at hchars
    rw [String.lt_iff_toList_lt, toList_stamp, toList_stamp]
    exact hchars
  refine ⟨fun hstamp => ?_, hlt h he hyear hyear'⟩
  by_contra hrank
  rcases Nat.lt_or_eq_of_le (not_lt.1 hrank) with hrank | heq
  · exact lt_asymm hstamp (hlt he h hyear' hyear hrank)
  · rw [h.eq_of_rank he heq.symm] at hstamp
    exact lt_irrefl _ hstamp

theorem stamp_le_iff (h : d.Real) (he : e.Real) (hyear : d.year < 10000)
    (hyear' : e.year < 10000) : d.stamp ≤ e.stamp ↔ d.rank ≤ e.rank := by
  rw [← not_lt, stamp_lt_iff he h hyear' hyear, not_lt]

theorem stamp_inj (h : d.Real) (he : e.Real) (hyear : d.year < 10000) (hyear' : e.year < 10000)
    (heq : d.stamp = e.stamp) : d = e :=
  h.eq_of_rank he (le_antisymm ((stamp_le_iff h he hyear hyear').1 heq.le)
    ((stamp_le_iff he h hyear' hyear).1 heq.ge))

/-- The parts of a stamp. -/
theorem digits_stamp (h : d.Real) (hyear : d.year < 10000) :
    digits (d.stamp.toList.take 4) = some d.year ∧
      digits ((d.stamp.toList.drop 5).take 2) = some d.month ∧
      digits ((d.stamp.toList.drop 8).take 2) = some d.day := by
  rw [toList_stamp]
  exact ⟨digits_of_four hyear, digits_of_two h.month_lt, digits_of_two h.day_lt⟩

theorem dayOf_stamp (h : d.Real) (hyear : d.year < 10000) : dayOf d.stamp = d := by
  obtain ⟨hyears, hmonths, hdays⟩ := digits_stamp h hyear
  rw [dayOf, hyears, hmonths, hdays]
  rfl

/-! ## The stamps of the web -/

/-- A day as the web reads it. -/
def asRead (d : Date) : Date := ofParts d.year d.month d.day

theorem parseLocalDateParts_stamp (h : d.Real) (hyear : d.year < 10000) :
    parseLocalDateParts d.stamp = some d.asRead := by
  obtain ⟨hyears, hmonths, hdays⟩ := digits_stamp h hyear
  have hshape : d.stamp.toList.length = 10 ∧ d.stamp.toList[4]? = some '-' ∧
      d.stamp.toList[7]? = some '-' := by
    rw [toList_stamp]
    exact ⟨rfl, rfl, rfl⟩
  rw [parseLocalDateParts, if_pos hshape, hyears, hmonths, hdays]
  rfl

/-- From the year 100 on a date keeps its parts. -/
theorem ofParts_plus (h : d.Real) (hyear : 100 ≤ d.year) (n : ℕ) :
    ofParts d.year d.month (d.day + n) = d.plus n := by
  obtain ⟨i, hi⟩ : ∃ i, d.day = i + 1 := ⟨d.day - 1, by have := h.day_pos; omega⟩
  have hle := h.day_le
  rw [show d.day + n = (i + n) + 1 by omega, ofParts_eq hyear h.month_pos h.month_le, ← plus_plus,
    plus_of_le (by omega), ← hi]

theorem asRead_of_le (h : d.Real) (hyear : 100 ≤ d.year) : d.asRead = d :=
  ofParts_plus h hyear 0

/-- A year of at most two digits is one of the twentieth century. -/
theorem asRead_of_lt (h : d.Real) (hyear : d.year < 100) :
    d.asRead = (Date.mk (1900 + d.year) d.month 1).plus (d.day - 1) := by
  have hshort : d.year ≤ 99 := by omega
  have hlong : ¬1900 + d.year ≤ 99 := by omega
  have hpos := h.day_pos
  rw [← ofParts_eq (by omega) h.month_pos h.month_le, Nat.sub_add_cancel hpos]
  simp only [asRead, ofParts, if_pos hshort, if_neg hlong]

theorem Real.asRead (h : d.Real) : d.asRead.Real ∧ 100 ≤ d.asRead.year := by
  rcases Nat.lt_or_ge d.year 100 with hyear | hyear
  · have hfirst : (Date.mk (1900 + d.year) d.month 1).Real :=
      ⟨h.month_pos, h.month_le, le_rfl, (show 1 ≤ 28 by decide).trans
        (monthDays_bounds _ h.month_pos h.month_le).1⟩
    have hle := (plus_bounds (d.day - 1) (Date.mk (1900 + d.year) d.month 1)
      ⟨h.month_pos, h.month_le⟩).1
    rw [asRead_of_lt h hyear]
    dsimp only at hle
    exact ⟨hfirst.plus _, by omega⟩
  · rw [asRead_of_le h hyear]
    exact ⟨h, hyear⟩

theorem asRead_year (h : d.Real) (hyear : d.year < 100) :
    1900 ≤ d.asRead.year ∧ d.asRead.year ≤ 2000 := by
  have hfirst : (Date.mk (1900 + d.year) d.month 1).Real :=
    ⟨h.month_pos, h.month_le, le_rfl, (show 1 ≤ 28 by decide).trans
      (monthDays_bounds _ h.month_pos h.month_le).1⟩
  have hranges := h.ranges
  have hlo := (plus_bounds (d.day - 1) (Date.mk (1900 + d.year) d.month 1) hranges.1).1
  have hhi := hfirst.plus_year_le (show d.day - 1 ≤ 365 by omega)
  rw [asRead_of_lt h hyear]
  dsimp only at hlo hhi
  omega

/-- **What the web steps to**: the day as it reads it, some days on. -/
theorem addDaysToStamp_stamp (h : d.Real) (hyear : d.year < 10000) (n : ℕ) :
    addDaysToStamp d.stamp n = localDateStamp (d.asRead.plus n) := by
  rw [addDaysToStamp, parseLocalDateParts_stamp h hyear]
  show localDateStamp (ofParts d.asRead.year d.asRead.month (d.asRead.day + n)) = _
  rw [ofParts_plus h.asRead.1 h.asRead.2]

theorem toList_localDateStamp (h : d.Real) :
    (localDateStamp d).toList =
      numeral d.year ++ '-' :: (two d.month ++ '-' :: two d.day) := by
  rw [localDateStamp, String.toList_ofList, pad2_numeral h.month_lt, pad2_numeral h.day_lt]

theorem localDateStamp_eq (h : d.Real) (hlo : 1000 ≤ d.year) (hhi : d.year < 10000) :
    localDateStamp d = d.stamp := by
  rw [← String.toList_inj, toList_localDateStamp h, toList_stamp, numeral_four hlo hhi]

/-- A number of at most three digits, in three. -/
def three (n : ℕ) : List Char := Nat.digitChar (n / 100) :: two (n % 100)

theorem four_eq_three (n : ℕ) : four n = three (n / 10) ++ [Nat.digitChar (n % 10)] := by
  simp only [four, three, two, List.cons_append, List.nil_append]
  rw [show n / 100 / 10 = n / 10 / 100 by omega, show n / 100 % 10 = n / 10 % 100 / 10 by omega,
    show n % 100 / 10 = n / 10 % 100 % 10 by omega, show n % 100 % 10 = n % 10 by omega]

theorem three_lt {m n : ℕ} (h : m < n) (hn : n < 1000) (xs ys : List Char) :
    three m ++ xs < three n ++ ys := by
  rw [three, three, List.cons_append, List.cons_append, List.cons_lt_cons_iff]
  rcases Nat.lt_or_eq_of_le (Nat.div_le_div_right (c := 100) h.le) with hdiv | hdiv
  · exact .inl (digitChar_lt hdiv (by omega))
  · exact .inr ⟨by rw [hdiv], two_lt (by omega) (by omega) _ _⟩

theorem numeral_eq_three {n : ℕ} (hlo : 100 ≤ n) (hn : n < 1000) : numeral n = three n := by
  rw [numeral, three, two, Nat.toDigits_of_base_le (by decide) (by omega),
    Nat.toDigits_of_base_le (by decide) (by omega), Nat.toDigits_of_lt_base (by omega)]
  simp only [List.cons_append, List.nil_append]
  rw [show n / 10 / 10 = n / 100 by omega, show n / 10 % 10 = n % 100 / 10 by omega,
    show n % 10 = n % 100 % 10 by omega]

/-- **A stamp with a year of three digits** is between those of the years whose first three digits
they are, and the years before. -/
theorem stamp_lt_short_iff (h : d.Real) (hlo : 100 ≤ d.year) (hhi : d.year < 1000)
    (he : e.year < 10000) : e.stamp < localDateStamp d ↔ e.year < 10 * d.year := by
  rw [String.lt_iff_toList_lt, toList_stamp, toList_localDateStamp h, numeral_eq_three hlo hhi,
    four_eq_three, List.append_assoc]
  constructor
  · intro hlt
    by_contra hge
    rcases Nat.lt_or_eq_of_le (show d.year ≤ e.year / 10 by omega) with hyear | hyear
    · exact List.lt_asymm hlt (three_lt hyear (by omega) _ _)
    · rw [hyear] at hlt
      -- the hyphen is before every digit
      have hdash : '-' < Nat.digitChar (e.year % 10) := by
        have hten : e.year % 10 < 10 := Nat.mod_lt _ (by decide)
        generalize e.year % 10 = i at hten
        interval_cases i <;> decide
      exact List.lt_asymm hlt (append_lt_append _ (List.cons_lt_cons_iff.2 (.inl hdash)))
  · intro hlt
    exact three_lt (by omega) hhi _ _

/-- A stamp with a year of three digits is none of four. -/
theorem stamp_ne_short (h : d.Real) (hlo : 100 ≤ d.year) (hhi : d.year < 1000)
    (e : Date) : e.stamp ≠ localDateStamp d := by
  intro heq
  have hlen := congrArg (fun s : String => s.toList.length) heq
  simp only [toList_stamp, toList_localDateStamp h, numeral_eq_three hlo hhi, three, four, two,
    List.length_append, List.length_cons, List.length_nil] at hlen
  omega

/-- It has no next one. -/
theorem addDaysToStamp_short (h : d.Real) (hlo : 100 ≤ d.year) (hhi : d.year < 1000) (n : ℕ) :
    addDaysToStamp (localDateStamp d) n = localDateStamp d := by
  have hparse : parseLocalDateParts (localDateStamp d) = none := by
    rw [parseLocalDateParts, if_neg]
    rintro ⟨hlen, -⟩
    simp [toList_localDateStamp h, numeral_eq_three hlo hhi, three, two] at hlen
  rw [addDaysToStamp, hparse]

/-- Beyond the year 9999 the stamp begins with a one. -/
theorem long_lt_stamp (h : d.Real) (hlo : 10000 ≤ d.year) (hhi : d.year < 20000)
    (he : e.year < 10000) (helo : 2000 ≤ e.year) : localDateStamp d < e.stamp := by
  have hone : ∃ cs, numeral d.year = Nat.digitChar 1 :: cs := by
    rw [numeral, Nat.toDigits_of_base_le (by decide) (by omega),
      Nat.toDigits_of_base_le (by decide) (by omega),
      Nat.toDigits_of_base_le (by decide) (by omega),
      Nat.toDigits_of_base_le (by decide) (by omega), Nat.toDigits_of_lt_base (by omega),
      show d.year / 10 / 10 / 10 / 10 = 1 by omega]
    exact ⟨_, rfl⟩
  obtain ⟨cs, hcs⟩ := hone
  rw [String.lt_iff_toList_lt, toList_stamp, toList_localDateStamp h, hcs, four, two]
  exact List.cons_lt_cons_iff.2 (.inl (digitChar_lt (by omega) (by omega)))

/-! ## The twentieth century -/

/-- The leap day of the year 0, which the year 1900 has not. -/
def LEAP_DAY : Date := ⟨0, 2, 29⟩

theorem monthDays_1900 {year month : ℕ} (hyear : year < 100) (h : ¬(year = 0 ∧ month = 2)) :
    monthDays (1900 + year) month = monthDays year month := by
  unfold monthDays daysInMonth
  by_cases hmonth : month = 2
  · have hsame : ((1900 + year) % 4 = 0 ∧ ((1900 + year) % 100 ≠ 0 ∨ (1900 + year) % 400 = 0)) ↔
        (year % 4 = 0 ∧ (year % 100 ≠ 0 ∨ year % 400 = 0)) := by omega
    simp only [hsame]
  · simp only [if_neg hmonth]

/-- The day after is read as the day after, but for the leap day of the year 0. -/
theorem asRead_next (h : d.Real) (hyear : d.next.year < 100) (hleap : d ≠ LEAP_DAY) :
    d.next.asRead = d.asRead.next := by
  have hle : d.year < 100 := (next_year d).1.trans_lt hyear
  have hpos := h.day_pos
  have hnext := asRead_of_lt h.next hyear
  rw [hnext, asRead_of_lt h hle]
  rcases Nat.lt_or_ge d.day (monthDays d.year d.month) with hday | hday
  · -- within a month
    rw [Date.next, if_pos hday, ← plus_succ]
    dsimp only
    rw [show d.day + 1 - 1 = d.day - 1 + 1 by omega]
  · have hend : d.day = monthDays d.year d.month := le_antisymm h.day_le hday
    have hsame : monthDays (1900 + d.year) d.month = monthDays d.year d.month := by
      refine monthDays_1900 hle ?_
      rintro ⟨hy, hm⟩
      obtain ⟨y, m, x⟩ := d
      dsimp only at hy hm hend
      subst hy hm
      exact hleap (by rw [hend]; rfl)
    have hfull : ¬d.day < monthDays (1900 + d.year) d.month := by omega
    rw [plus_of_le (n := d.day - 1) (by omega), Nat.sub_add_cancel hpos]
    rcases Nat.lt_or_ge d.month 12 with hmonth | hmonth
    · simp only [Date.next, if_neg (not_lt.2 hday), if_neg hfull, if_pos hmonth]
      rfl
    · simp only [Date.next, if_neg (not_lt.2 hday), if_neg hfull, if_neg (not_lt.2 hmonth)]
      rfl

/-- **Read 1900 years later, a span is as long**, if it has no leap day of the year 0 before its
last day. -/
theorem asRead_plus (h : s.Real) (hyear : (s.plus k).year < 100)
    (hleap : ∀ i < k, s.plus i ≠ LEAP_DAY) : (s.plus k).asRead = s.asRead.plus k := by
  induction k with
  | zero => rfl
  | succ k ih =>
    have hk : (s.plus k).year < 100 := by
      rw [plus_succ] at hyear
      exact (next_year _).1.trans_lt hyear
    rw [plus_succ] at hyear ⊢
    rw [asRead_next (h.plus k) hyear (hleap k (Nat.lt_succ_self k)),
      ih hk fun i hi => hleap i (Nat.lt_succ_of_lt hi), ← plus_succ]

/-- And ends later, if it has one. -/
theorem asRead_plus_leap (h : s.Real) (hyear : (s.plus k).year < 100) {i : ℕ} (hi : i < k)
    (hleap : s.plus i = LEAP_DAY) : (s.plus k).asRead.rank < (s.asRead.plus k).rank := by
  obtain ⟨j, rfl⟩ : ∃ j, k = i + 1 + j := ⟨k - (i + 1), by omega⟩
  have honly (m : ℕ) (hm : s.plus m = LEAP_DAY) : m = i := h.plus_inj (hm.trans hleap.symm)
  have hupto : (s.plus i).asRead = s.asRead.plus i := by
    refine asRead_plus h ?_ fun m hm heq => hm.ne (honly m heq)
    rw [hleap]
    decide
  have hstay : (s.plus (i + 1)).asRead = (s.plus i).asRead := by
    rw [plus_succ, hleap]
    decide +kernel
  have hbehind : ((s.plus (i + 1)).plus j).asRead = (s.plus (i + 1)).asRead.plus j := by
    refine asRead_plus (h.plus _) ?_ fun m _ heq => ?_
    · rw [plus_plus]
      exact hyear
    · rw [plus_plus] at heq
      have := honly _ heq
      omega
  rw [← plus_plus, hbehind, hstay, hupto, plus_plus]
  exact h.asRead.1.rank_plus_lt (by omega)

end Date

end Monoplan.Calendar
