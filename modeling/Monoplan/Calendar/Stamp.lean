import Mathlib.Data.String.Basic
import Mathlib.Tactic.IntervalCases
import Mathlib.Tactic.Ring
import Monoplan.Doc.Formats

/-!
# Day stamps

Days are `YYYY-MM-DD` strings, compared as strings.  The web steps from a stamp to the next one
through a local `Date` and back, and writes the year without padding: from the last day of the
year 9999 it comes to a stamp that is smaller as a string, and that it cannot read any more.

* `addDaysToStamp` and what it stands on, and the length of a `when`.
* `lt_addDaysToStamp`: from every other day the next stamp is greater.
-/

namespace Monoplan.Calendar

open Monoplan.Doc

/-! ## Dates -/

/-- The local parts of a `Date`; months count from `1`. -/
structure Date where
  year : ℕ
  month : ℕ
  day : ℕ
  deriving DecidableEq

namespace Date

/-- The length of a month. -/
def monthDays (year month : ℕ) : ℕ := (daysInMonth year month).getD 0

def next (d : Date) : Date :=
  if d.day < monthDays d.year d.month then { d with day := d.day + 1 }
  else if d.month < 12 then ⟨d.year, d.month + 1, 1⟩
  else ⟨d.year + 1, 1, 1⟩

def prev (d : Date) : Date :=
  if 1 < d.day then { d with day := d.day - 1 }
  else if 1 < d.month then ⟨d.year, d.month - 1, monthDays d.year (d.month - 1)⟩
  else ⟨d.year - 1, 12, 31⟩

def plus (n : ℕ) (d : Date) : Date := next^[n] d

/-- `new Date(year, month - 1, day)`: a year of at most two digits is one of the twentieth century,
and months and days beyond their range carry over. -/
def ofParts (year month day : ℕ) : Date :=
  let year := if year ≤ 99 then 1900 + year else year
  let first : Date :=
    if month = 0 then ⟨year - 1, 12, 1⟩ else ⟨year + (month - 1) / 12, (month - 1) % 12 + 1, 1⟩
  if day = 0 then first.prev else first.plus (day - 1)

end Date

/-- `String(n)`. -/
def numeral (n : ℕ) : List Char := Nat.toDigits 10 n

/-- `padStart(2, "0")`. -/
def pad2 (cs : List Char) : List Char := List.replicate (2 - cs.length) '0' ++ cs

def localDateStamp (d : Date) : String :=
  String.ofList (numeral d.year ++ '-' :: (pad2 (numeral d.month) ++ '-' :: pad2 (numeral d.day)))

def parseLocalDateParts (stamp : String) : Option Date :=
  let cs := stamp.toList
  if cs.length = 10 ∧ cs[4]? = some '-' ∧ cs[7]? = some '-' then
    (digits (cs.take 4)).bind fun year => (digits ((cs.drop 5).take 2)).bind fun month =>
      (digits ((cs.drop 8).take 2)).map fun day => Date.ofParts year month day
  else none

def addDaysToStamp (stamp : String) (n : ℕ) : String :=
  match parseLocalDateParts stamp with
  | none => stamp
  | some d => localDateStamp (Date.ofParts d.year d.month (d.day + n))

/-! ## The length of a `when` -/

def whenDay (when : String) : String := String.ofList (when.toList.take 10)

def DAY_MINUTES : ℕ := 24 * 60

/-- `whenTime`, as the minute of the day. -/
def whenTime (when : String) : Option ℕ :=
  let cs := when.toList
  if cs.length = 16 ∧ cs[4]? = some '-' ∧ cs[7]? = some '-' ∧ cs[10]? = some 'T' ∧
      cs[13]? = some ':' ∧ (digits (cs.take 4)).isSome ∧ (digits ((cs.drop 5).take 2)).isSome ∧
      (digits ((cs.drop 8).take 2)).isSome then
    (digits ((cs.drop 11).take 2)).bind fun hour =>
      (digits ((cs.drop 14).take 2)).map fun minute => hour * 60 + minute
  else none

def endDayOffset (start minutes : ℕ) : ℕ := (start + minutes) / DAY_MINUTES

def allDayEndOffset (minutes : Option ℕ) : ℕ :=
  match minutes with
  | none => 0
  | some n => if n = 0 then 0 else (n + (DAY_MINUTES - 1)) / DAY_MINUTES - 1

def spanEndOffset (when : String) (minutes : Option ℕ) : ℕ :=
  match whenTime when with
  | some start =>
    match minutes with
    | none => 0
    | some n => if n = 0 then 0 else endDayOffset start n
  | none => allDayEndOffset minutes

/-- The days a `when` covers. -/
structure Span where
  start : String
  last : String
  total : ℕ

def whenSpan (when : String) (duration : Option ℕ) : Span :=
  let start := whenDay when
  let offset := spanEndOffset when duration
  ⟨start, if 0 < offset then addDaysToStamp start offset else start, offset + 1⟩

/-! ## Numerals -/

/-- A number of at most two digits, in two. -/
def two (n : ℕ) : List Char := [Nat.digitChar (n / 10), Nat.digitChar (n % 10)]

/-- A number of at most four digits, in four. -/
def four (n : ℕ) : List Char := two (n / 100) ++ two (n % 100)

theorem digitChar_lt {i j : ℕ} (h : i < j) (hj : j < 10) : Nat.digitChar i < Nat.digitChar j := by
  interval_cases j <;> interval_cases i <;> decide

theorem digitChar_of_isDigit {c : Char} (h : c.isDigit = true) :
    c.toNat - 48 < 10 ∧ c = Nat.digitChar (c.toNat - 48) := by
  have hrange : 48 ≤ c.toNat ∧ c.toNat ≤ 57 := by
    simp only [Char.isDigit, Bool.and_eq_true, decide_eq_true_eq] at h
    exact ⟨UInt32.le_iff_toNat_le.1 h.1, UInt32.le_iff_toNat_le.1 h.2⟩
  refine ⟨by omega, ?_⟩
  have hc : c = Char.ofNat c.toNat := (Char.ofNat_toNat c).symm
  rw [hc]
  generalize c.toNat = n at hrange ⊢
  obtain ⟨hlo, hhi⟩ := hrange
  interval_cases n <;> decide

theorem digits_two {cs : List Char} {n : ℕ} (hlen : cs.length = 2) (h : digits cs = some n) :
    n < 100 ∧ cs = two n := by
  obtain ⟨a, b, rfl⟩ := List.length_eq_two.1 hlen
  unfold digits at h
  split at h
  · rename_i hall
    simp only [List.all_cons, List.all_nil, Bool.and_true, Bool.and_eq_true] at hall
    obtain ⟨ha, hac⟩ := digitChar_of_isDigit hall.1
    obtain ⟨hb, hbc⟩ := digitChar_of_isDigit hall.2
    have hn := Option.some.inj h
    simp only [List.foldl_cons, List.foldl_nil] at hn
    generalize a.toNat - 48 = i at *
    generalize b.toNat - 48 = j at *
    refine ⟨by omega, ?_⟩
    rw [two, show n / 10 = i by omega, show n % 10 = j by omega, ← hac, ← hbc]
  · exact absurd h (by simp)

theorem digits_append {xs ys : List Char} {n : ℕ} (h : digits (xs ++ ys) = some n) :
    ∃ i j, digits xs = some i ∧ digits ys = some j ∧ n = i * 10 ^ ys.length + j := by
  unfold digits at h
  split at h
  · rename_i hall
    rw [List.all_append, Bool.and_eq_true] at hall
    have hfold (zs : List Char) (m : ℕ) :
        zs.foldl (fun n c => 10 * n + (c.toNat - 48)) m =
          m * 10 ^ zs.length + zs.foldl (fun n c => 10 * n + (c.toNat - 48)) 0 := by
      induction zs generalizing m with
      | nil => simp
      | cons z zs ih =>
        rw [List.foldl_cons, List.foldl_cons, ih, ih (10 * 0 + _), List.length_cons, pow_succ]
        ring
    refine ⟨_, _, if_pos hall.1, if_pos hall.2, ?_⟩
    rw [← Option.some.inj h, List.foldl_append, hfold ys]
  · exact absurd h (by simp)

theorem digits_four {cs : List Char} {n : ℕ} (hlen : cs.length = 4) (h : digits cs = some n) :
    n < 10000 ∧ cs = four n := by
  rw [← List.take_append_drop 2 cs] at h
  obtain ⟨i, j, hi, hj, hn⟩ := digits_append h
  obtain ⟨hi', hxs⟩ := digits_two (by simp [hlen]) hi
  obtain ⟨hj', hys⟩ := digits_two (by simp [hlen]) hj
  rw [List.length_drop, hlen] at hn
  refine ⟨by omega, ?_⟩
  rw [four, show n / 100 = i by omega, show n % 100 = j by omega, ← hxs, ← hys,
    List.take_append_drop]

theorem two_lt {m n : ℕ} (h : m < n) (hn : n < 100) (xs ys : List Char) :
    two m ++ xs < two n ++ ys := by
  simp only [two, List.cons_append, List.nil_append]
  rw [List.cons_lt_cons_iff, List.cons_lt_cons_iff]
  rcases Nat.lt_or_eq_of_le (Nat.div_le_div_right (c := 10) h.le) with hdiv | hdiv
  · exact .inl (digitChar_lt hdiv (by omega))
  · exact .inr ⟨by rw [hdiv], .inl (digitChar_lt (by omega) (by omega))⟩

theorem append_lt_append (xs : List Char) {ys zs : List Char} (h : ys < zs) :
    xs ++ ys < xs ++ zs := by
  induction xs with
  | nil => exact h
  | cons x xs ih => exact List.cons_lt_cons_iff.2 (.inr ⟨rfl, ih⟩)

theorem four_lt {m n : ℕ} (h : m < n) (hn : n < 10000) (xs ys : List Char) :
    four m ++ xs < four n ++ ys := by
  rw [four, four, List.append_assoc, List.append_assoc]
  rcases Nat.lt_or_eq_of_le (Nat.div_le_div_right (c := 100) h.le) with hdiv | hdiv
  · exact two_lt hdiv (by omega) _ _
  · rw [hdiv]
    exact append_lt_append _ (two_lt (by omega) (by omega) _ _)

theorem pad2_numeral {n : ℕ} (hn : n < 100) : pad2 (numeral n) = two n := by
  rw [numeral, two]
  rcases Nat.lt_or_ge n 10 with h | h
  · rw [Nat.toDigits_of_lt_base h, Nat.div_eq_of_lt h, Nat.mod_eq_of_lt h]
    rfl
  · rw [Nat.toDigits_of_base_le (by decide) h, Nat.toDigits_of_lt_base (by omega)]
    rfl

theorem numeral_four {n : ℕ} (hlo : 1000 ≤ n) (hn : n < 10000) : numeral n = four n := by
  rw [numeral, four, two, two, Nat.toDigits_of_base_le (by decide) (by omega),
    Nat.toDigits_of_base_le (by decide) (by omega), Nat.toDigits_of_base_le (by decide) (by omega),
    Nat.toDigits_of_lt_base (by omega)]
  simp only [List.cons_append, List.nil_append]
  rw [show n / 10 / 10 / 10 = n / 100 / 10 by omega, show n / 10 / 10 % 10 = n / 100 % 10 by omega,
    show n / 10 % 10 = n % 100 / 10 by omega, show n % 10 = n % 100 % 10 by omega]

/-- A year of three digits is written in three, and so beyond its padded form. -/
theorem numeral_three {n : ℕ} (hlo : 100 ≤ n) (hn : n < 1000) (m : ℕ) (hm : m < 1000)
    (xs ys : List Char) : four m ++ xs < numeral n ++ ys := by
  have hnum : ∃ zs, numeral n = Nat.digitChar (n / 10 / 10) :: zs := by
    rw [numeral, Nat.toDigits_of_base_le (by decide) (by omega),
      Nat.toDigits_of_base_le (by decide) (by omega), Nat.toDigits_of_lt_base (by omega)]
    exact ⟨_, rfl⟩
  obtain ⟨zs, hzs⟩ := hnum
  rw [hzs]
  simp only [four, two, List.cons_append, List.nil_append]
  rw [List.cons_lt_cons_iff]
  refine .inl (digitChar_lt ?_ ?_) <;> omega

/-! ## The next day -/

section Next

variable {d e : Date} {n year month day : ℕ}

/-- A stamp that is a day of the calendar. -/
theorem of_validDate {stamp : String} (h : validDate stamp.toList = true) :
    ∃ year month day, year < 10000 ∧ 1 ≤ month ∧ month ≤ 12 ∧ 1 ≤ day ∧
      day ≤ Date.monthDays year month ∧
      stamp.toList = four year ++ '-' :: (two month ++ '-' :: two day) ∧
      parseLocalDateParts stamp = some (Date.ofParts year month day) := by
  unfold parseLocalDateParts
  generalize stamp.toList = cs at h ⊢
  simp only [validDate, Bool.and_eq_true, decide_eq_true_eq] at h
  obtain ⟨⟨⟨hlen, h4⟩, h7⟩, hparts⟩ := h
  have hcs : cs = cs.take 4 ++ '-' :: ((cs.drop 5).take 2 ++ '-' :: (cs.drop 8).take 2) := by
    have hdash {i : ℕ} (hi : cs[i]? = some '-') : cs.drop i = '-' :: cs.drop (i + 1) := by
      obtain ⟨hlt, heq⟩ := List.getElem?_eq_some_iff.1 hi
      rw [List.drop_eq_getElem_cons hlt, heq]
    calc cs = cs.take 4 ++ cs.drop 4 := (List.take_append_drop 4 cs).symm
      _ = cs.take 4 ++ '-' :: ((cs.drop 5).take 2 ++ (cs.drop 5).drop 2) := by
        rw [hdash h4, List.take_append_drop]
      _ = cs.take 4 ++ '-' :: ((cs.drop 5).take 2 ++ '-' :: (cs.drop 8).take 2) := by
        rw [List.drop_drop, hdash h7, List.take_of_length_le (l := cs.drop 8) (by simp [hlen])]
  split at hparts
  · rename_i year month day hy hm hd
    obtain ⟨hyear, hyear'⟩ := digits_four (by simp [hlen]) hy
    obtain ⟨-, hmonth'⟩ := digits_two (by simp [hlen]) hm
    obtain ⟨-, hday'⟩ := digits_two (by simp [hlen]) hd
    rw [Bool.and_eq_true, Option.any_eq_true] at hparts
    obtain ⟨hday, days, hdays, hle⟩ := hparts
    have hmonth : 1 ≤ month ∧ month ≤ 12 := by
      by_contra hout
      have hlong : month ∉ [1, 3, 5, 7, 8, 10, 12] := by
        simp only [List.mem_cons, List.not_mem_nil, or_false]
        omega
      have hshort : month ∉ [4, 6, 9, 11] := by
        simp only [List.mem_cons, List.not_mem_nil, or_false]
        omega
      rw [daysInMonth, if_neg hlong, if_neg hshort, if_neg (by omega)] at hdays
      exact absurd hdays (by simp)
    refine ⟨year, month, day, hyear, hmonth.1, hmonth.2, of_decide_eq_true hday, ?_, ?_, ?_⟩
    · rw [Date.monthDays, hdays]
      exact of_decide_eq_true hle
    · rw [← hyear', ← hmonth', ← hday']
      exact hcs
    · dsimp only
      rw [if_pos ⟨hlen, h4, h7⟩, hy, hm, hd]
      rfl
  · exact absurd hparts (by simp)

theorem monthDays_le (year month : ℕ) : Date.monthDays year month ≤ 31 := by
  unfold Date.monthDays daysInMonth
  dsimp only
  repeat' split
  all_goals simp

theorem next_year (d : Date) : d.year ≤ d.next.year ∧ d.next.year ≤ d.year + 1 := by
  unfold Date.next
  split
  · exact ⟨le_rfl, Nat.le_succ _⟩
  · split
    · exact ⟨le_rfl, Nat.le_succ _⟩
    · exact ⟨Nat.le_succ _, le_rfl⟩

/-- Some days on, the year has not moved by more than as many, and the day is no later. -/
theorem plus_bounds (n : ℕ) (d : Date) (hmonth : 1 ≤ d.month ∧ d.month ≤ 12) :
    d.year ≤ (d.plus n).year ∧ (d.plus n).year ≤ d.year + n ∧
      (1 ≤ (d.plus n).month ∧ (d.plus n).month ≤ 12) ∧ (d.plus n).day ≤ d.day + n := by
  have hstep (e : Date) (he : 1 ≤ e.month ∧ e.month ≤ 12) :
      (1 ≤ e.next.month ∧ e.next.month ≤ 12) ∧ e.next.day ≤ e.day + 1 := by
    unfold Date.next
    split
    · exact ⟨he, le_rfl⟩
    · split <;> refine ⟨⟨?_, ?_⟩, ?_⟩ <;> dsimp only <;> omega
  induction n with
  | zero => exact ⟨le_rfl, le_rfl, hmonth, le_rfl⟩
  | succ n ih =>
    obtain ⟨hlo, hhi, hm, hd⟩ := ih
    rw [show d.plus (n + 1) = (d.plus n).next from Function.iterate_succ_apply' Date.next n d]
    have hyear := next_year (d.plus n)
    have hnext := hstep _ hm
    exact ⟨by omega, by omega, hnext.1, by omega⟩

/-- The days of a month follow one another. -/
theorem plus_of_le (hday : n < Date.monthDays year month) :
    (Date.mk year month 1).plus n = ⟨year, month, n + 1⟩ := by
  induction n with
  | zero => rfl
  | succ n ih =>
    rw [show (Date.mk year month 1).plus (n + 1) = ((Date.mk year month 1).plus n).next from
      Function.iterate_succ_apply' Date.next n _, ih (by omega), Date.next, if_pos (by exact hday)]

/-- The parts of a date from the year 100 on are its own. -/
theorem ofParts_eq (hyear : 100 ≤ year) (hmonth : 1 ≤ month) (hmonth' : month ≤ 12) (n : ℕ) :
    Date.ofParts year month (n + 1) = (Date.mk year month 1).plus n := by
  rw [Date.ofParts, if_neg (by omega), if_neg (by omega), if_neg (by omega),
    show (month - 1) / 12 = 0 by omega, show (month - 1) % 12 + 1 = month by omega]
  rfl

/-- The text of a stamp grows with the year. -/
theorem stamp_lt_of_year {y y' : ℕ} (hy' : 1000 ≤ y' ∧ y' < 10000) (h : y < y')
    (xs ys : List Char) : four y ++ xs < numeral y' ++ ys := by
  rw [numeral_four hy'.1 hy'.2]
  exact four_lt h hy'.2 xs ys

/-- From the year 100 on: the next day is in the same year or opens the next one. -/
theorem four_lt_next {d : Date} (hyear : 100 ≤ d.year) (hyear' : d.year < 10000)
    (hmonth : 1 ≤ d.month ∧ d.month ≤ 12) (hday : d.day ≤ Date.monthDays d.year d.month)
    (hlast : ¬(d.year = 9999 ∧ d.month = 12 ∧ d.day = Date.monthDays d.year d.month)) :
    four d.year ++ '-' :: (two d.month ++ '-' :: two d.day) <
      numeral d.next.year ++
        '-' :: (pad2 (numeral d.next.month) ++ '-' :: pad2 (numeral d.next.day)) := by
  have hsame {xs ys : List Char} (h : xs < ys) :
      four d.year ++ '-' :: xs < numeral d.year ++ '-' :: ys := by
    rcases Nat.lt_or_ge d.year 1000 with hy | hy
    · exact numeral_three hyear hy d.year hy _ _
    · rw [numeral_four hy hyear']
      exact append_lt_append _ (List.cons_lt_cons_iff.2 (.inr ⟨rfl, h⟩))
  have hbound := monthDays_le d.year d.month
  unfold Date.next
  split
  · apply hsame
    rw [pad2_numeral (by dsimp only; omega), pad2_numeral (by dsimp only; omega)]
    refine append_lt_append _ (List.cons_lt_cons_iff.2 (.inr ⟨rfl, ?_⟩))
    have h := two_lt (Nat.lt_succ_self d.day) (by omega) [] []
    rwa [List.append_nil, List.append_nil] at h
  · split
    · apply hsame
      rw [pad2_numeral (by dsimp only; omega)]
      exact two_lt (Nat.lt_succ_self d.month) (by omega) _ _
    · have hnine : d.year ≠ 9999 := fun h => hlast ⟨h, by omega, by omega⟩
      rcases Nat.lt_or_ge (d.year + 1) 1000 with hy | hy
      · exact numeral_three (by omega) hy d.year (by omega) _ _
      · exact stamp_lt_of_year ⟨hy, by omega⟩ (Nat.lt_succ_self _) _ _

/-- **The next stamp is greater**, unless it is the last day that four digits write. -/
theorem lt_addDaysToStamp {stamp : String} (h : validDate stamp.toList = true)
    (hlast : stamp ≠ "9999-12-31") : stamp < addDaysToStamp stamp 1 := by
  obtain ⟨year, month, day, hyear, hm, hm', hd, hd', hcs, hparse⟩ := of_validDate h
  rw [addDaysToStamp, hparse, String.lt_iff_toList_lt]
  show stamp.toList < (String.ofList _).toList
  rw [String.toList_ofList, hcs]
  obtain ⟨n, rfl⟩ : ∃ n, day = n + 1 := ⟨day - 1, by omega⟩
  rcases Nat.lt_or_ge year 100 with hcentury | hcentury
  · -- a year of at most two digits is read as one of the twentieth century
    have hfirst : Date.ofParts year month (n + 1) = (Date.mk (1900 + year) month 1).plus n := by
      have h₁ : year ≤ 99 := by omega
      have h₂ : ¬1900 + year ≤ 99 := by omega
      rw [← ofParts_eq (by omega) hm hm']
      simp only [Date.ofParts, if_pos h₁, if_neg h₂]
    have hbound := monthDays_le year month
    rw [hfirst]
    obtain ⟨hlo, hhi, hmonth, hday⟩ := plus_bounds n (Date.mk (1900 + year) month 1) ⟨hm, hm'⟩
    generalize (Date.mk (1900 + year) month 1).plus n = d at *
    dsimp only at hlo hhi hday
    rw [ofParts_eq (by omega) hmonth.1 hmonth.2]
    obtain ⟨hlo', hhi', -, -⟩ := plus_bounds d.day (Date.mk d.year d.month 1) hmonth
    dsimp only at hlo' hhi'
    exact stamp_lt_of_year ⟨by omega, by omega⟩ (by omega) _ _
  · rw [ofParts_eq hcentury hm hm', plus_of_le (by omega), ofParts_eq hcentury hm hm']
    rw [show (Date.mk year month 1).plus (n + 1) = ((Date.mk year month 1).plus n).next from
      Function.iterate_succ_apply' Date.next n _, plus_of_le (by omega)]
    refine four_lt_next (d := ⟨year, month, n + 1⟩) hcentury hyear ⟨hm, hm'⟩ hd' ?_
    rintro ⟨rfl, rfl, hday⟩
    dsimp only at hday
    refine hlast (String.toList_inj.1 ?_)
    rw [hcs, hday]
    decide

end Next

end Monoplan.Calendar
