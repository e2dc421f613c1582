import Monoplan.Base.Utf8
import Monoplan.Calendar.Stamp

/-!
# Dates as bytes

`parse_deadline` and `parse_when` read their input by byte positions and slice it there, and a
slice that begins or ends inside a character is a panic.

* `parseDeadlineStr`, `parseWhenStr` are the two as the code has them, panics included; they are
  the parsers of `Monoplan.Doc.Formats` (`parseDeadlineStr_eq`, `parseWhenStr_eq`), so they
  never panic.
* `Day` is a day of the Gregorian calendar and `When` a day with a time or without one; `written`
  is the text that stands for it.
* `parse_language`: what is accepted is exactly what is written, up to the white space around
  it, and texts are ordered as the times they stand for.
-/

namespace Monoplan.Doc

open Monoplan.Base Monoplan.Calendar

/-! ## The parsers -/

/-- How a parser fails. -/
inductive Fault
  /-- A slice out of its bounds, or `unreachable!`. -/
  | panicked
  /-- `DocError::Invalid`: what was expected, and the input. -/
  | invalid (expected raw : String)
  deriving DecidableEq

/-- `&s[from..to]`. -/
def sliceStr (s : List Char) (lo hi : ℕ) : Except Fault (List Char) :=
  match slice lo hi s with
  | some part => .ok part
  | none => .error .panicked

/-- `part.parse::<u32>()` where all its bytes are digits. -/
def parseDigits (part : List Char) : Option ℕ :=
  let bytes := utf8 part
  if bytes.all fun b => 48 ≤ b.toNat && b.toNat ≤ 57 then
    if bytes.isEmpty then none
    else
      let n := bytes.foldl (fun n b => 10 * n + (b.toNat - 48)) 0
      if n < 4294967296 then some n else none
  else none

/-- The calendar check of `parse_deadline`. -/
def checkDay (e : Fault) : Option ℕ → Option ℕ → Option ℕ → Except Fault Unit
  | some year, some month, some day => do
    if ¬ (1 ≤ month ∧ month ≤ 12) ∨ day < 1 then throw e
    let leap := year % 4 = 0 ∧ (year % 100 ≠ 0 ∨ year % 400 = 0)
    let days ←
      if month ∈ [1, 3, 5, 7, 8, 10, 12] then pure 31
      else if month ∈ [4, 6, 9, 11] then pure 30
      else if month = 2 then pure (if leap then 29 else 28)
      else throw .panicked
    if days < day then throw e
  | _, _, _ => throw e

/-- `parse_deadline` after trimming. -/
def checkDeadline (e : Fault) (s : List Char) : Except Fault Unit :=
  let bytes := utf8 s
  if bytes.length ≠ 10 ∨ bytes[4]? ≠ some 45 ∨ bytes[7]? ≠ some 45 then throw e
  else do
    let year ← sliceStr s 0 4
    let month ← sliceStr s 5 7
    let day ← sliceStr s 8 10
    checkDay e (parseDigits year) (parseDigits month) (parseDigits day)

/-- `parse_deadline`. -/
def parseDeadlineStr (raw : String) : Except Fault String := do
  checkDeadline (.invalid "deadline must be YYYY-MM-DD" raw) (trimmed raw.toList)
  pure (trim raw)

/-- `map_err(|_| invalid())`: an error is replaced, a panic is not. -/
def mapInvalid (e : Fault) {α : Type} : Except Fault α → Except Fault α
  | .ok a => .ok a
  | .error .panicked => .error .panicked
  | .error (.invalid _ _) => .error e

/-- The time check of `parse_when`. -/
def checkTime (e : Fault) : Option ℕ → Option ℕ → Except Fault Unit
  | some hour, some minute => if hour ≤ 23 ∧ minute ≤ 59 then pure () else throw e
  | _, _ => throw e

/-- `parse_when` after trimming. -/
def checkWhen (e : Fault) (s : List Char) : Except Fault Unit :=
  let bytes := utf8 s
  if bytes.length = 10 then do
    let _ ← mapInvalid e (parseDeadlineStr (String.ofList s))
  else if bytes.length = 16 then
    if bytes[10]? ≠ some 84 ∨ bytes[13]? ≠ some 58 then throw e
    else do
      let date ← sliceStr s 0 10
      let _ ← mapInvalid e (parseDeadlineStr (String.ofList date))
      let hour ← sliceStr s 11 13
      let minute ← sliceStr s 14 16
      checkTime e (parseDigits hour) (parseDigits minute)
  else throw e

/-- `parse_when`. -/
def parseWhenStr (raw : String) : Except Fault String := do
  checkWhen (.invalid "when must be YYYY-MM-DD or YYYY-MM-DDTHH:MM" raw) (trimmed raw.toList)
  pure (trim raw)

/-! ## Days and times -/

/-- A leap year. -/
def IsLeap (year : ℕ) : Prop := 4 ∣ year ∧ (100 ∣ year → 400 ∣ year)

instance decIsLeap (year : ℕ) : Decidable (IsLeap year) := inferInstanceAs (Decidable (_ ∧ _))

/-- The length of a month of the Gregorian calendar, counted from `1`. -/
def monthLength (year month : ℕ) : ℕ :=
  [31, if IsLeap year then 29 else 28, 31, 30, 31, 30, 31, 31, 30, 31, 30, 31].getD (month - 1) 0

/-- A day of the Gregorian calendar, with a year of at most four digits. -/
@[ext] structure Day where
  year : ℕ
  month : ℕ
  day : ℕ
  year_lt : year < 10000
  month_pos : 1 ≤ month
  month_le : month ≤ 12
  day_pos : 1 ≤ day
  day_le : day ≤ monthLength year month
  deriving DecidableEq

/-- A time of day, to the minute. -/
@[ext] structure Clock where
  hour : ℕ
  minute : ℕ
  hour_lt : hour < 24
  minute_lt : minute < 60
  deriving DecidableEq

/-- A day, or a time on it. -/
structure When where
  day : Day
  time : Option Clock
  deriving DecidableEq

namespace Day

/-- `YYYY-MM-DD`. -/
def chars (d : Day) : List Char := four d.year ++ '-' :: (two d.month ++ '-' :: two d.day)

def written (d : Day) : String := String.ofList d.chars

/-- The day is before the other one. -/
def Before (a b : Day) : Prop :=
  a.year < b.year ∨ a.year = b.year ∧ (a.month < b.month ∨ a.month = b.month ∧ a.day < b.day)

end Day

namespace Clock

/-- `HH:MM`. -/
def chars (t : Clock) : List Char := two t.hour ++ ':' :: two t.minute

def Before (a b : Clock) : Prop := a.hour < b.hour ∨ a.hour = b.hour ∧ a.minute < b.minute

end Clock

namespace When

/-- `YYYY-MM-DD`, or with `THH:MM` after it. -/
def chars (w : When) : List Char :=
  match w.time with
  | none => w.day.chars
  | some t => w.day.chars ++ 'T' :: t.chars

def written (w : When) : String := String.ofList w.chars

/-- Chronological order, a day before every time on it. -/
def Before (a b : When) : Prop :=
  a.day.Before b.day ∨ a.day = b.day ∧
    match a.time, b.time with
    | none, some _ => True
    | some s, some t => s.Before t
    | _, none => False

end When

/-! ## Digits -/

/-- A text of digits or other one-byte characters. -/
theorem isDigit_ascii {c : Char} (h : c.isDigit = true) : IsAscii c := by
  obtain ⟨hlt, hc⟩ := digitChar_of_isDigit h
  have hle : c.toNat ≤ 57 := by
    have hdigit : c.toNat - 48 < 10 := hlt
    omega
  exact lt_of_le_of_lt hle (by decide)

theorem isDigits_ascii {cs : List Char} {n : ℕ} (h : digits cs = some n) :
    ∀ c ∈ cs, IsAscii c := by
  unfold digits at h
  split at h
  · rename_i hall
    exact fun c hc => isDigit_ascii (List.all_eq_true.1 hall c hc)
  · cases h

theorem isDigit_digitChar {n : ℕ} (h : n < 10) :
    (Nat.digitChar n).isDigit = true ∧ (Nat.digitChar n).toNat - 48 = n := by
  interval_cases n <;> decide

theorem two_isDigit {n : ℕ} (h : n < 100) : ∀ c ∈ two n, c.isDigit = true := by
  intro c hc
  rcases List.mem_pair.1 hc with rfl | rfl
  · exact (isDigit_digitChar (by omega)).1
  · exact (isDigit_digitChar (by omega)).1

theorem four_isDigit {n : ℕ} (h : n < 10000) : ∀ c ∈ four n, c.isDigit = true := by
  intro c hc
  rcases List.mem_append.1 hc with hc | hc
  · exact two_isDigit (by omega) c hc
  · exact two_isDigit (by omega) c hc

theorem digits_of_two {n : ℕ} (h : n < 100) : digits (two n) = some n := by
  rw [digits, if_pos (List.all_eq_true.2 (two_isDigit h))]
  simp only [two, List.foldl_cons, List.foldl_nil, (isDigit_digitChar (n := n / 10) (by omega)).2,
    (isDigit_digitChar (n := n % 10) (by omega)).2]
  congr 1
  omega

theorem digits_of_four {n : ℕ} (h : n < 10000) : digits (four n) = some n := by
  rw [digits, if_pos (List.all_eq_true.2 (four_isDigit h))]
  simp only [four, two, List.cons_append, List.nil_append, List.foldl_cons, List.foldl_nil,
    (isDigit_digitChar (n := n / 100 / 10) (by omega)).2,
    (isDigit_digitChar (n := n / 100 % 10) (by omega)).2,
    (isDigit_digitChar (n := n % 100 / 10) (by omega)).2,
    (isDigit_digitChar (n := n % 100 % 10) (by omega)).2]
  congr 1
  omega

/-- The bytes of a digit are those of its character. -/
theorem byte_isDigit {c : Char} (h : IsAscii c) :
    (48 ≤ (UInt8.ofNat c.toNat).toNat && (UInt8.ofNat c.toNat).toNat ≤ 57) = c.isDigit ∧
      (UInt8.ofNat c.toNat).toNat = c.toNat := by
  have hlt : c.toNat < 128 := h
  have hnat : (UInt8.ofNat c.toNat).toNat = c.toNat := by
    rw [UInt8.toNat_ofNat', Nat.mod_eq_of_lt (by omega)]
  refine ⟨?_, hnat⟩
  rw [hnat, Char.isDigit]
  simp only [ge_iff_le, UInt32.le_iff_toNat_le]
  rfl

theorem digits_lt {cs : List Char} {n : ℕ} (h : digits cs = some n) : n < 10 ^ cs.length := by
  unfold digits at h
  split at h
  · rename_i hall
    have hfold (m : ℕ) (ds : List Char) (hds : ∀ c ∈ ds, c.isDigit = true) :
        ds.foldl (fun n c => 10 * n + (c.toNat - 48)) m < (m + 1) * 10 ^ ds.length := by
      induction ds generalizing m with
      | nil => simp
      | cons c ds ih =>
        have hdigit := (digitChar_of_isDigit (hds c List.mem_cons_self)).1
        have hrest := ih (10 * m + (c.toNat - 48)) fun d hd => hds d (List.mem_cons_of_mem _ hd)
        rw [List.foldl_cons, List.length_cons, pow_succ]
        refine hrest.trans_le ?_
        calc (10 * m + (c.toNat - 48) + 1) * 10 ^ ds.length
            ≤ (10 * (m + 1)) * 10 ^ ds.length := Nat.mul_le_mul_right _ (by omega)
          _ = (m + 1) * (10 ^ ds.length * 10) := by ring
    have hlt := hfold 0 cs (List.all_eq_true.1 hall)
    rw [Nat.zero_add, Nat.one_mul] at hlt
    rw [← Option.some.inj h]
    exact hlt
  · exact absurd h (by simp)

/-- **Digits by bytes are digits by characters.** -/
theorem parseDigits_iff {part : List Char} {n : ℕ} (hlen : (utf8 part).length ≤ 4) :
    parseDigits part = some n ↔ digits part = some n ∧ part ≠ [] := by
  have hone : (∀ c ∈ part, IsAscii c) →
      ((utf8 part).all fun b => 48 ≤ b.toNat && b.toNat ≤ 57) = part.all Char.isDigit ∧
      (utf8 part).foldl (fun n b => 10 * n + (b.toNat - 48)) 0 =
        part.foldl (fun n c => 10 * n + (c.toNat - 48)) 0 ∧
      (utf8 part).isEmpty = part.isEmpty := by
    intro hascii
    rw [utf8_of_ascii hascii, List.all_map, List.foldl_map]
    refine ⟨?_, ?_, by cases part <;> rfl⟩
    · rw [List.all_eq, List.all_eq]
      exact decide_eq_decide.2 (forall₂_congr fun c hc => by
        rw [Function.comp_apply, (byte_isDigit (hascii c hc)).1])
    · refine List.foldl_ext _ _ _ fun m c hc => ?_
      rw [(byte_isDigit (hascii c hc)).2]
  constructor
  · intro h
    simp only [parseDigits] at h
    split at h
    · rename_i hall
      -- bytes of digits are below `128`
      have hascii : ∀ c ∈ part, IsAscii c := ascii_of_utf8 fun b hb => by
        have hb := List.all_eq_true.1 hall b hb
        simp only [Bool.and_eq_true, decide_eq_true_eq] at hb
        omega
      obtain ⟨hdig, hval, hempty⟩ := hone hascii
      rw [hempty] at h
      split at h
      · cases h
      · rename_i hne
        simp only [hval] at h
        split at h
        · refine ⟨?_, by simpa using hne⟩
          rw [digits, ← hdig, if_pos hall]
          exact h
        · cases h
    · cases h
  · rintro ⟨h, hne⟩
    have hlt := digits_lt h
    unfold digits at h
    split at h
    · rename_i hall
      have hascii : ∀ c ∈ part, IsAscii c := fun c hc =>
        isDigit_ascii (List.all_eq_true.1 hall c hc)
      obtain ⟨hdig, hval, hempty⟩ := hone hascii
      have hshort : n < 10 ^ 4 := hlt.trans_le
        (Nat.pow_le_pow_right (by decide) (length_utf8_of_ascii hascii ▸ hlen))
      have hfalse : part.isEmpty = false := by simpa using hne
      unfold parseDigits
      simp only [hdig, hall, hempty, hfalse, hval, if_true, Bool.false_eq_true, if_false,
        Option.some.inj h]
      rw [if_pos (by omega)]
    · cases h

/-! ## Slices -/

theorem sliceStr_eq {s p q r : List Char} {lo hi : ℕ} (hs : s = p ++ q ++ r)
    (hlo : (utf8 p).length = lo) (hhi : lo + (utf8 q).length = hi) : sliceStr s lo hi = .ok q := by
  have hcut : (utf8 (p ++ q)).length = hi := by
    rw [utf8_append, List.length_append, hlo, hhi]
  rw [sliceStr, hs, ← hlo, ← hcut, slice_append]

/-- The text is cut at a known one-byte character. -/
theorem exists_split_at {s : List Char} {n : ℕ} {c : Char} (hc : IsAscii c)
    (hb : (utf8 s)[n]? = some (UInt8.ofNat c.toNat)) :
    ∃ p q, s = p ++ c :: q ∧ (utf8 p).length = n ∧ (utf8 s).length = n + 1 + (utf8 q).length ∧
      ∀ k, (utf8 s)[n + 1 + k]? = (utf8 q)[k]? := by
  have hlt : (UInt8.ofNat c.toNat).toNat < 128 := by
    rw [(byte_isDigit hc).2]
    exact hc
  obtain ⟨p, d, q, hs, hlen, hd, hbd⟩ := exists_split_of_ascii hb hlt
  obtain rfl := (ofNat_inj hc hd).1 hbd
  have hbytes : utf8 s = (utf8 p ++ [UInt8.ofNat c.toNat]) ++ utf8 q := by
    rw [hs, utf8_append, utf8_cons, utf8EncodeChar_of_ascii hc, List.append_assoc]
  have hfront : (utf8 p ++ [UInt8.ofNat c.toNat]).length = n + 1 := by
    rw [List.length_append, hlen, List.length_singleton]
  refine ⟨p, q, hs, hlen, by rw [hbytes, List.length_append, hfront], fun k => ?_⟩
  rw [hbytes, ← hfront, List.getElem?_append_right (Nat.le_add_right _ _), Nat.add_sub_cancel_left]

/-- Where the dashes are where they belong, the slices are what is between them. -/
theorem checkDeadline_split (e : Fault) {p q r : List Char} (hp : (utf8 p).length = 4)
    (hq : (utf8 q).length = 2) (hr : (utf8 r).length = 2) :
    checkDeadline e (p ++ '-' :: (q ++ '-' :: r)) =
      checkDay e (parseDigits p) (parseDigits q) (parseDigits r) := by
  have hdash : utf8 ['-'] = [45] := by decide
  have hbytes : utf8 (p ++ '-' :: (q ++ '-' :: r)) = utf8 p ++ 45 :: (utf8 q ++ 45 :: utf8 r) := by
    simp only [utf8_append, utf8_cons '-', utf8EncodeChar_of_ascii (c := '-') (by decide)]
    rfl
  have hguard : ¬ ((utf8 (p ++ '-' :: (q ++ '-' :: r))).length ≠ 10 ∨
      (utf8 (p ++ '-' :: (q ++ '-' :: r)))[4]? ≠ some 45 ∨
      (utf8 (p ++ '-' :: (q ++ '-' :: r)))[7]? ≠ some 45) := by
    rw [hbytes]
    simp [hp, hq, hr]
  have hyear : sliceStr (p ++ '-' :: (q ++ '-' :: r)) 0 4 = .ok p :=
    sliceStr_eq (p := []) rfl rfl (by rw [hp])
  have hmonth : sliceStr (p ++ '-' :: (q ++ '-' :: r)) 5 7 = .ok q :=
    sliceStr_eq (p := p ++ ['-']) (r := '-' :: r) (by simp)
      (by rw [utf8_append, hdash, List.length_append, hp]; rfl) (by rw [hq])
  have hday : sliceStr (p ++ '-' :: (q ++ '-' :: r)) 8 10 = .ok r :=
    sliceStr_eq (p := p ++ '-' :: (q ++ ['-'])) (r := []) (by simp)
      (by rw [utf8_append, utf8_cons, utf8_append, hdash, utf8EncodeChar_of_ascii (by decide)]
          simp [hp, hq]) (by rw [hr])
  simp only [checkDeadline, if_neg hguard, hyear, hmonth, hday]
  rfl

/-- Everything else is refused before it is sliced. -/
theorem checkDeadline_cases (e : Fault) (s : List Char) :
    checkDeadline e s = .error e ∨
      ∃ p q r, s = p ++ '-' :: (q ++ '-' :: r) ∧ (utf8 p).length = 4 ∧ (utf8 q).length = 2 ∧
        (utf8 r).length = 2 := by
  by_cases hguard : (utf8 s).length ≠ 10 ∨ (utf8 s)[4]? ≠ some 45 ∨ (utf8 s)[7]? ≠ some 45
  · left
    simp only [checkDeadline, if_pos hguard]
    rfl
  · right
    push Not at hguard
    obtain ⟨hlen, h4, h7⟩ := hguard
    obtain ⟨p, t, hs, hp, hslen, hget⟩ := exists_split_at (c := '-') (by decide) h4
    have h2 : (utf8 t)[2]? = some (UInt8.ofNat '-'.toNat) := by rw [← hget 2]; exact h7
    obtain ⟨q, r, ht, hq, htlen, -⟩ := exists_split_at (c := '-') (by decide) h2
    exact ⟨p, q, r, by rw [hs, ht], hp, hq, by omega⟩

/-! ## Days -/

theorem isLeap_iff (year : ℕ) :
    (year % 4 = 0 ∧ (year % 100 ≠ 0 ∨ year % 400 = 0)) ↔ IsLeap year := by
  unfold IsLeap
  omega

theorem checkDay_some (e : Fault) (year month day : ℕ) :
    checkDay e (some year) (some month) (some day) =
      if (1 ≤ month ∧ month ≤ 12) ∧ 1 ≤ day ∧ day ≤ monthLength year month then .ok ()
      else .error e := by
  have hleap := isLeap_iff year
  by_cases hrange : ¬ (1 ≤ month ∧ month ≤ 12) ∨ day < 1
  · rw [if_neg (by omega)]
    simp only [checkDay, if_pos hrange]
    rfl
  · obtain ⟨⟨hlo, hhi⟩, hpos⟩ : (1 ≤ month ∧ month ≤ 12) ∧ 1 ≤ day := by omega
    have hlast : ∀ n, monthLength year month = n →
        ((if n < day then throw e else pure ()) : Except Fault Unit) =
          if (1 ≤ month ∧ month ≤ 12) ∧ 1 ≤ day ∧ day ≤ monthLength year month then .ok ()
          else .error e := by
      intro n hn
      by_cases hday : day ≤ n
      · rw [if_neg (not_lt.2 hday), if_pos ⟨⟨hlo, hhi⟩, hpos, hn ▸ hday⟩]
        rfl
      · rw [if_pos (not_le.1 hday), if_neg fun h => hday (hn ▸ h.2.2)]
        rfl
    simp only [checkDay, if_neg hrange]
    interval_cases month
    case «2» =>
      refine (Eq.trans ?_ (hlast (if IsLeap year then 29 else 28) rfl))
      simp only [hleap]
      rfl
    all_goals exact hlast _ rfl

theorem monthLength_le (year month : ℕ) : monthLength year month ≤ 31 := by
  unfold monthLength
  rcases Nat.lt_or_ge (month - 1) 12 with h | h
  · have hleap : (if IsLeap year then 29 else 28) ≤ 31 := by split <;> decide
    generalize month - 1 = i at h
    interval_cases i <;> first | exact hleap | exact Nat.le_of_ble_eq_true rfl
  · rw [List.getD_eq_getElem?_getD, List.getElem?_eq_none (by simpa using h)]
    exact Nat.zero_le _

theorem Day.day_lt (d : Day) : d.day < 100 :=
  (d.day_le.trans (monthLength_le _ _)).trans_lt (by decide)

theorem Day.month_lt (d : Day) : d.month < 100 := d.month_le.trans_lt (by decide)

theorem two_ascii {n : ℕ} (h : n < 100) : ∀ c ∈ two n, IsAscii c :=
  fun c hc => isDigit_ascii (two_isDigit h c hc)

theorem four_ascii {n : ℕ} (h : n < 10000) : ∀ c ∈ four n, IsAscii c :=
  fun c hc => isDigit_ascii (four_isDigit h c hc)

theorem utf8_two {n : ℕ} (h : n < 100) : (utf8 (two n)).length = 2 :=
  length_utf8_of_ascii (two_ascii h)

theorem utf8_four {n : ℕ} (h : n < 10000) : (utf8 (four n)).length = 4 :=
  length_utf8_of_ascii (four_ascii h)

theorem parseDigits_two {n : ℕ} (h : n < 100) : parseDigits (two n) = some n :=
  (parseDigits_iff (utf8_two h ▸ by decide)).2 ⟨digits_of_two h, by simp [two]⟩

theorem parseDigits_four {n : ℕ} (h : n < 10000) : parseDigits (four n) = some n :=
  (parseDigits_iff (utf8_four h).le).2 ⟨digits_of_four h, by simp [four, two]⟩

/-- Two bytes that parse as a number. -/
theorem eq_two {part : List Char} {n : ℕ} (hlen : (utf8 part).length = 2)
    (h : parseDigits part = some n) : n < 100 ∧ part = two n := by
  have hdig := ((parseDigits_iff (hlen ▸ by decide)).1 h).1
  have hchars : part.length = 2 := hlen ▸ (length_utf8_of_ascii (isDigits_ascii hdig)).symm
  exact digits_two hchars hdig

/-- Four bytes that parse as a number. -/
theorem eq_four {part : List Char} {n : ℕ} (hlen : (utf8 part).length = 4)
    (h : parseDigits part = some n) : n < 10000 ∧ part = four n := by
  have hdig := ((parseDigits_iff hlen.le).1 h).1
  have hchars : part.length = 4 := hlen ▸ (length_utf8_of_ascii (isDigits_ascii hdig)).symm
  exact digits_four hchars hdig

theorem checkDeadline_chars (e : Fault) (d : Day) : checkDeadline e d.chars = .ok () := by
  rw [Day.chars, checkDeadline_split e (utf8_four d.year_lt) (utf8_two d.month_lt)
    (utf8_two d.day_lt), parseDigits_four d.year_lt, parseDigits_two d.month_lt,
    parseDigits_two d.day_lt, checkDay_some,
    if_pos ⟨⟨d.month_pos, d.month_le⟩, d.day_pos, d.day_le⟩]

/-- **A deadline passes exactly when it is a day of the calendar**, and never panics. -/
theorem checkDeadline_eq (e : Fault) (s : List Char) :
    (∃ d : Day, s = d.chars) ∧ checkDeadline e s = .ok () ∨
      (∀ d : Day, s ≠ d.chars) ∧ checkDeadline e s = .error e := by
  have hor : (∃ d : Day, s = d.chars) ∨ checkDeadline e s = .error e := by
    rcases checkDeadline_cases e s with herr | ⟨p, q, r, rfl, hp, hq, hr⟩
    · exact .inr herr
    · rw [checkDeadline_split e hp hq hr]
      cases hy : parseDigits p with
      | none => exact .inr rfl
      | some year =>
        cases hm : parseDigits q with
        | none => exact .inr rfl
        | some month =>
          cases hd : parseDigits r with
          | none => exact .inr rfl
          | some day =>
            rw [checkDay_some]
            split
            · rename_i hok
              obtain ⟨hyear, rfl⟩ := eq_four hp hy
              obtain ⟨-, rfl⟩ := eq_two hq hm
              obtain ⟨-, rfl⟩ := eq_two hr hd
              exact .inl ⟨⟨year, month, day, hyear, hok.1.1, hok.1.2, hok.2.1, hok.2.2⟩, rfl⟩
            · exact .inr rfl
  rcases hor with ⟨d, rfl⟩ | herr
  · exact .inl ⟨⟨d, rfl⟩, checkDeadline_chars e d⟩
  · refine .inr ⟨?_, herr⟩
    rintro d rfl
    rw [checkDeadline_chars] at herr
    cases herr

theorem Day.chars_ascii (d : Day) : ∀ c ∈ d.chars, IsAscii c := by
  intro c hc
  simp only [Day.chars, List.mem_append, List.mem_cons] at hc
  rcases hc with hc | rfl | hc | rfl | hc
  · exact four_ascii d.year_lt c hc
  · decide
  · exact two_ascii d.month_lt c hc
  · decide
  · exact two_ascii d.day_lt c hc

@[simp] theorem Day.length_chars (d : Day) : d.chars.length = 10 := rfl

@[simp] theorem Clock.length_chars (t : Clock) : t.chars.length = 5 := rfl

theorem Clock.chars_ascii (t : Clock) : ∀ c ∈ t.chars, IsAscii c := by
  intro c hc
  simp only [Clock.chars, List.mem_append, List.mem_cons] at hc
  rcases hc with hc | rfl | hc
  · exact two_ascii (t.hour_lt.trans (by decide)) c hc
  · decide
  · exact two_ascii (t.minute_lt.trans (by decide)) c hc

/-! ## White space -/

theorem isDigit_solid {c : Char} (h : c.isDigit = true) : isWhitespace c = false := by
  simp only [Char.isDigit, Bool.and_eq_true, decide_eq_true_eq] at h
  have hlo : 48 ≤ c.toNat := UInt32.le_iff_toNat_le.1 h.1
  have hhi : c.toNat ≤ 57 := UInt32.le_iff_toNat_le.1 h.2
  simp only [isWhitespace, Bool.or_eq_false_iff, Bool.and_eq_false_iff, decide_eq_false_iff_not]
  omega

theorem trimmed_of_solid {cs : List Char} (h : ∀ c ∈ cs, isWhitespace c = false) :
    trimmed cs = cs := by
  have hdrop : cs.dropWhile isWhitespace = cs := by
    rw [List.dropWhile_eq_self_iff]
    intro hl
    simp [h _ (List.getElem_mem hl)]
  rw [trimmed, hdrop, List.rdropWhile_eq_self_iff]
  intro hne
  simp [h _ (List.getLast_mem hne)]

theorem two_solid {n : ℕ} (h : n < 100) : ∀ c ∈ two n, isWhitespace c = false :=
  fun c hc => isDigit_solid (two_isDigit h c hc)

theorem Day.chars_solid (d : Day) : ∀ c ∈ d.chars, isWhitespace c = false := by
  intro c hc
  simp only [Day.chars, List.mem_append, List.mem_cons] at hc
  rcases hc with hc | rfl | hc | rfl | hc
  · exact isDigit_solid (four_isDigit d.year_lt c hc)
  · decide
  · exact two_solid d.month_lt c hc
  · decide
  · exact two_solid d.day_lt c hc

/-! ## The parsers -/

theorem trim_eq_iff {raw : String} {cs : List Char} :
    trim raw = String.ofList cs ↔ trimmed raw.toList = cs := by
  rw [trim]
  constructor
  · intro h
    rw [← String.toList_ofList (l := trimmed raw.toList), h, String.toList_ofList]
  · exact fun h => h ▸ rfl

/-- **What `parse_deadline` does with any text.** -/
theorem parseDeadlineStr_cases (raw : String) :
    (∃ d : Day, trim raw = d.written ∧ parseDeadlineStr raw = .ok d.written) ∨
      (∀ d : Day, trim raw ≠ d.written) ∧
        parseDeadlineStr raw = .error (.invalid "deadline must be YYYY-MM-DD" raw) := by
  rcases checkDeadline_eq (.invalid "deadline must be YYYY-MM-DD" raw) (trimmed raw.toList) with
    ⟨⟨d, hd⟩, hok⟩ | ⟨hnone, herr⟩
  · have htrim : trim raw = d.written := trim_eq_iff.2 hd
    refine .inl ⟨d, htrim, ?_⟩
    simp only [parseDeadlineStr, hok, htrim]
    rfl
  · refine .inr ⟨fun d hd => hnone d (trim_eq_iff.1 hd), ?_⟩
    simp only [parseDeadlineStr, herr]
    rfl

theorem length_le_utf8 (cs : List Char) : cs.length ≤ (utf8 cs).length := by
  induction cs with
  | nil => exact Nat.zero_le _
  | cons c cs ih =>
    have hpos : 0 < (String.utf8EncodeChar c).length :=
      List.length_pos_of_ne_nil String.utf8EncodeChar_ne_nil
    rw [utf8_cons, List.length_append, List.length_cons]
    omega

/-- The date part of a `when` is checked as it stands: with white space around it, it would be
too short. -/
theorem parseDeadlineStr_ten (e : Fault) {p : List Char} (hp : (utf8 p).length = 10) :
    (∃ d : Day, p = d.chars ∧ mapInvalid e (parseDeadlineStr (String.ofList p)) = .ok d.written) ∨
      (∀ d : Day, p ≠ d.chars) ∧
        mapInvalid e (parseDeadlineStr (String.ofList p)) = .error e := by
  rcases parseDeadlineStr_cases (String.ofList p) with ⟨d, hd, hok⟩ | ⟨hnone, herr⟩
  · rw [Day.written, trim_eq_iff, String.toList_ofList] at hd
    have hsub := trimmed_sublist p
    have hlen : (trimmed p).length = p.length := by
      have hle := hsub.length_le
      have hle' := length_le_utf8 p
      rw [hd, Day.length_chars] at hle ⊢
      omega
    exact .inl ⟨d, (hsub.eq_of_length hlen).symm.trans hd, by rw [hok]; rfl⟩
  · rcases checkDeadline_eq e p with ⟨⟨d, rfl⟩, -⟩ | ⟨hno, -⟩
    · -- a written day has no white space to trim
      refine absurd ?_ (hnone d)
      rw [Day.written, trim_eq_iff, String.toList_ofList, trimmed_of_solid d.chars_solid]
    · exact .inr ⟨hno, by rw [herr]; rfl⟩

theorem checkTime_some (e : Fault) (hour minute : ℕ) :
    checkTime e (some hour) (some minute) =
      if hour < 24 ∧ minute < 60 then .ok () else .error e := by
  by_cases h : hour < 24 ∧ minute < 60
  · rw [if_pos h, checkTime, if_pos (by omega)]
    rfl
  · rw [if_neg h, checkTime, if_neg (by omega)]
    rfl

/-- Where the separators are where they belong. -/
theorem checkWhen_split (e : Fault) {p h m : List Char} (hp : (utf8 p).length = 10)
    (hh : (utf8 h).length = 2) (hm : (utf8 m).length = 2) :
    checkWhen e (p ++ 'T' :: (h ++ ':' :: m)) =
      (mapInvalid e (parseDeadlineStr (String.ofList p))).bind fun _ =>
        checkTime e (parseDigits h) (parseDigits m) := by
  have hmark : utf8 ['T'] = [84] ∧ utf8 [':'] = [58] := by decide
  have hbytes : utf8 (p ++ 'T' :: (h ++ ':' :: m)) = utf8 p ++ 84 :: (utf8 h ++ 58 :: utf8 m) := by
    simp only [utf8_append, utf8_cons 'T', utf8_cons ':',
      utf8EncodeChar_of_ascii (c := 'T') (by decide),
      utf8EncodeChar_of_ascii (c := ':') (by decide)]
    rfl
  have hlen : (utf8 (p ++ 'T' :: (h ++ ':' :: m))).length = 16 := by
    rw [hbytes]
    simp [hp, hh, hm]
  have hguard : ¬ ((utf8 (p ++ 'T' :: (h ++ ':' :: m)))[10]? ≠ some 84 ∨
      (utf8 (p ++ 'T' :: (h ++ ':' :: m)))[13]? ≠ some 58) := by
    rw [hbytes, List.getElem?_append_right (by omega), List.getElem?_append_right (by omega), hp]
    simp [hh]
  have hdate : sliceStr (p ++ 'T' :: (h ++ ':' :: m)) 0 10 = .ok p :=
    sliceStr_eq (p := []) rfl rfl (by rw [hp])
  have hhour : sliceStr (p ++ 'T' :: (h ++ ':' :: m)) 11 13 = .ok h :=
    sliceStr_eq (p := p ++ ['T']) (r := ':' :: m) (by simp)
      (by rw [utf8_append, hmark.1, List.length_append, hp]; rfl) (by rw [hh])
  have hminute : sliceStr (p ++ 'T' :: (h ++ ':' :: m)) 14 16 = .ok m :=
    sliceStr_eq (p := p ++ 'T' :: (h ++ [':'])) (r := []) (by simp)
      (by rw [utf8_append, utf8_cons, utf8_append, hmark.2, utf8EncodeChar_of_ascii (by decide)]
          simp [hp, hh]) (by rw [hm])
  simp only [checkWhen, hlen, if_neg hguard, hdate, hhour, hminute]
  rw [if_neg (by decide), if_pos trivial]
  cases hd : mapInvalid e (parseDeadlineStr (String.ofList p)) with
  | error f => simp only [bind, Except.bind, hd]
  | ok u => simp only [bind, Except.bind, hd]

/-- **A `when` passes exactly when it is a day or a time on one**, and never panics. -/
theorem checkWhen_eq (e : Fault) (s : List Char) :
    (∃ w : When, s = w.chars) ∧ checkWhen e s = .ok () ∨
      (∀ w : When, s ≠ w.chars) ∧ checkWhen e s = .error e := by
  have hday (d : Day) : checkWhen e d.chars = .ok () := by
    have hlen : (utf8 d.chars).length = 10 := length_utf8_of_ascii d.chars_ascii
    rcases parseDeadlineStr_ten e hlen with ⟨d', -, hok⟩ | ⟨hno, -⟩
    · simp only [checkWhen, if_pos hlen, hok]
      rfl
    · exact absurd rfl (hno d)
  have htime (d : Day) (t : Clock) : checkWhen e (d.chars ++ 'T' :: t.chars) = .ok () := by
    have hlen : (utf8 d.chars).length = 10 := length_utf8_of_ascii d.chars_ascii
    have hhour : t.hour < 100 := t.hour_lt.trans (by decide)
    have hminute : t.minute < 100 := t.minute_lt.trans (by decide)
    rw [Clock.chars, checkWhen_split e hlen (utf8_two hhour) (utf8_two hminute),
      parseDigits_two hhour, parseDigits_two hminute, checkTime_some,
      if_pos ⟨t.hour_lt, t.minute_lt⟩]
    rcases parseDeadlineStr_ten e hlen with ⟨d', -, hok⟩ | ⟨hno, -⟩
    · rw [hok]
      rfl
    · exact absurd rfl (hno d)
  have hor : (∃ w : When, s = w.chars) ∨ checkWhen e s = .error e := by
    by_cases h10 : (utf8 s).length = 10
    · rcases parseDeadlineStr_ten e h10 with ⟨d, hd, -⟩ | ⟨-, herr⟩
      · exact .inl ⟨⟨d, none⟩, hd⟩
      · right
        simp only [checkWhen, if_pos h10, herr]
        rfl
    · by_cases h16 : (utf8 s).length = 16
      · by_cases hguard : (utf8 s)[10]? ≠ some 84 ∨ (utf8 s)[13]? ≠ some 58
        · right
          simp only [checkWhen, if_neg h10, if_pos h16, if_pos hguard]
          rfl
        · push Not at hguard
          obtain ⟨p, u, hs, hp, hslen, hget⟩ :=
            exists_split_at (c := 'T') (by decide) hguard.1
          have h2 : (utf8 u)[2]? = some (UInt8.ofNat ':'.toNat) := by
            rw [← hget 2]
            exact hguard.2
          obtain ⟨h, m, hu, hh, hulen, -⟩ := exists_split_at (c := ':') (by decide) h2
          have hm : (utf8 m).length = 2 := by omega
          rw [hs, hu, checkWhen_split e hp hh hm]
          rcases parseDeadlineStr_ten e hp with ⟨d, rfl, hok⟩ | ⟨-, herr⟩
          · rw [hok]
            cases hhour : parseDigits h with
            | none => exact .inr rfl
            | some hour =>
              cases hminute : parseDigits m with
              | none => exact .inr rfl
              | some minute =>
                simp only [Except.bind, checkTime_some]
                split
                · rename_i hrange
                  obtain ⟨-, rfl⟩ := eq_two hh hhour
                  obtain ⟨-, rfl⟩ := eq_two hm hminute
                  exact .inl ⟨⟨d, some ⟨hour, minute, hrange.1, hrange.2⟩⟩, rfl⟩
                · exact .inr rfl
          · right
            rw [herr]
            rfl
      · right
        simp only [checkWhen, if_neg h10, if_neg h16]
        rfl
  rcases hor with ⟨⟨d, none | t⟩, rfl⟩ | herr
  · exact .inl ⟨⟨_, rfl⟩, hday d⟩
  · exact .inl ⟨⟨_, rfl⟩, htime d t⟩
  · refine .inr ⟨?_, herr⟩
    rintro ⟨d, none | t⟩ rfl
    · have hok : checkWhen e (When.chars ⟨d, none⟩) = .ok () := hday d
      rw [hok] at herr
      cases herr
    · have hok : checkWhen e (When.chars ⟨d, some t⟩) = .ok () := htime d t
      rw [hok] at herr
      cases herr

/-- **What `parse_when` does with any text.** -/
theorem parseWhenStr_cases (raw : String) :
    (∃ w : When, trim raw = w.written ∧ parseWhenStr raw = .ok w.written) ∨
      (∀ w : When, trim raw ≠ w.written) ∧ parseWhenStr raw =
        .error (.invalid "when must be YYYY-MM-DD or YYYY-MM-DDTHH:MM" raw) := by
  rcases checkWhen_eq (.invalid "when must be YYYY-MM-DD or YYYY-MM-DDTHH:MM" raw)
    (trimmed raw.toList) with ⟨⟨w, hw⟩, hok⟩ | ⟨hnone, herr⟩
  · have htrim : trim raw = w.written := trim_eq_iff.2 hw
    refine .inl ⟨w, htrim, ?_⟩
    simp only [parseWhenStr, hok, htrim]
    rfl
  · refine .inr ⟨fun w hw => hnone w (trim_eq_iff.1 hw), ?_⟩
    simp only [parseWhenStr, herr]
    rfl

/-! ## By characters -/

theorem monthDays_eq {year month : ℕ} (hlo : 1 ≤ month) (hhi : month ≤ 12) :
    Date.monthDays year month = monthLength year month := by
  have hleap := isLeap_iff year
  unfold Date.monthDays daysInMonth monthLength
  interval_cases month
  case «2» => simp only [hleap]; rfl
  all_goals rfl

theorem validDate_iff (cs : List Char) : validDate cs = true ↔ ∃ d : Day, cs = d.chars := by
  constructor
  · intro h
    obtain ⟨year, month, day, hyear, hmonth, hmonth', hday, hday', hcs, -⟩ :=
      @of_validDate (String.ofList cs) (by rwa [String.toList_ofList])
    rw [String.toList_ofList] at hcs
    rw [monthDays_eq hmonth hmonth'] at hday'
    exact ⟨⟨year, month, day, hyear, hmonth, hmonth', hday, hday'⟩, hcs⟩
  · rintro ⟨d, rfl⟩
    have hyear : digits (d.chars.take 4) = some d.year := digits_of_four d.year_lt
    have hmonth : digits ((d.chars.drop 5).take 2) = some d.month := digits_of_two d.month_lt
    have hday : digits ((d.chars.drop 8).take 2) = some d.day := digits_of_two d.day_lt
    have hmonths : daysInMonth d.year d.month = some (monthLength d.year d.month) := by
      have hleap := isLeap_iff d.year
      have hlo := d.month_pos
      have hhi := d.month_le
      unfold daysInMonth monthLength
      generalize d.month = month at hlo hhi
      interval_cases month
      case «2» => simp only [hleap]; rfl
      all_goals rfl
    have hshape : d.chars.length = 10 ∧ d.chars[4]? = some '-' ∧ d.chars[7]? = some '-' :=
      ⟨rfl, rfl, rfl⟩
    simp only [validDate, hshape, hyear, hmonth, hday, hmonths, d.day_pos, d.day_le,
      Option.any_some, decide_true, Bool.and_self]

theorem validWhen_iff (cs : List Char) : validWhen cs = true ↔ ∃ w : When, cs = w.chars := by
  constructor
  · intro h
    unfold validWhen at h
    split at h
    · obtain ⟨d, hd⟩ := (validDate_iff cs).1 h
      exact ⟨⟨d, none⟩, hd⟩
    · simp only [Bool.and_eq_true, decide_eq_true_eq] at h
      obtain ⟨⟨⟨⟨hlen, h10⟩, h13⟩, hdate⟩, hparts⟩ := h
      obtain ⟨d, hd⟩ := (validDate_iff _).1 hdate
      have hfront : cs.take 10 = d.chars := by
        refine ((trimmed_sublist _).eq_of_length ?_).symm.trans hd
        rw [hd, Day.length_chars, List.length_take, hlen]
        rfl
      split at hparts
      · rename_i hour minute hh hm
        rw [Bool.and_eq_true, decide_eq_true_eq, decide_eq_true_eq] at hparts
        obtain ⟨-, hhour⟩ := digits_two (by simp [hlen]) hh
        obtain ⟨-, hminute⟩ := digits_two (by simp [hlen]) hm
        have hmark {i : ℕ} {c : Char} (hi : cs[i]? = some c) : cs.drop i = c :: cs.drop (i + 1) := by
          obtain ⟨hlt, heq⟩ := List.getElem?_eq_some_iff.1 hi
          rw [List.drop_eq_getElem_cons hlt, heq]
        refine ⟨⟨d, some ⟨hour, minute, by omega, by omega⟩⟩, ?_⟩
        calc cs = cs.take 10 ++ cs.drop 10 := (List.take_append_drop 10 cs).symm
          _ = cs.take 10 ++ 'T' :: ((cs.drop 11).take 2 ++ (cs.drop 11).drop 2) := by
            rw [hmark h10, List.take_append_drop]
          _ = cs.take 10 ++ 'T' :: ((cs.drop 11).take 2 ++ ':' :: (cs.drop 14).take 2) := by
            rw [List.drop_drop, hmark h13, List.take_of_length_le (l := cs.drop 14) (by simp [hlen])]
          _ = _ := by rw [hfront, hhour, hminute]; rfl
      · cases hparts
  · rintro ⟨⟨d, none | t⟩, rfl⟩
    · exact (validDate_iff _).2 ⟨d, rfl⟩
    · have hdate : validDate (trimmed ((When.chars ⟨d, some t⟩).take 10)) = true :=
        (validDate_iff _).2 ⟨d, trimmed_of_solid d.chars_solid⟩
      have hhour : digits (((When.chars ⟨d, some t⟩).drop 11).take 2) = some t.hour :=
        digits_of_two (t.hour_lt.trans (by decide))
      have hminute : digits (((When.chars ⟨d, some t⟩).drop 14).take 2) = some t.minute :=
        digits_of_two (t.minute_lt.trans (by decide))
      have hshape : (When.chars ⟨d, some t⟩).length = 16 ∧
          (When.chars ⟨d, some t⟩)[10]? = some 'T' ∧ (When.chars ⟨d, some t⟩)[13]? = some ':' :=
        ⟨rfl, rfl, rfl⟩
      have hbounds : t.hour ≤ 23 ∧ t.minute ≤ 59 :=
        ⟨Nat.le_of_lt_succ t.hour_lt, Nat.le_of_lt_succ t.minute_lt⟩
      simp only [validWhen, hshape, hdate, hhour, hminute, hbounds, decide_true, Bool.and_self]
      rfl

/-- **Read by bytes or by characters**, a deadline is the same. -/
theorem parseDeadlineStr_eq (raw : String) :
    parseDeadlineStr raw = (parseDeadline raw).elim
      (.error (.invalid "deadline must be YYYY-MM-DD" raw)) .ok := by
  have hvalid := validDate_iff (trim raw).toList
  rcases parseDeadlineStr_cases raw with ⟨d, htrim, hok⟩ | ⟨hnone, herr⟩
  · rw [parseDeadline, if_pos (hvalid.2 ⟨d, by rw [htrim, Day.written, String.toList_ofList]⟩), hok,
      htrim, Option.elim_some]
  · rw [parseDeadline, if_neg, herr, Option.elim_none]
    rw [hvalid]
    rintro ⟨d, hd⟩
    exact hnone d (by rw [Day.written, ← hd, String.ofList_toList])

/-- And so is a `when`. -/
theorem parseWhenStr_eq (raw : String) :
    parseWhenStr raw = (parseWhen raw).elim
      (.error (.invalid "when must be YYYY-MM-DD or YYYY-MM-DDTHH:MM" raw)) .ok := by
  have hvalid := validWhen_iff (trim raw).toList
  rcases parseWhenStr_cases raw with ⟨w, htrim, hok⟩ | ⟨hnone, herr⟩
  · rw [parseWhen, if_pos (hvalid.2 ⟨w, by rw [htrim, When.written, String.toList_ofList]⟩), hok,
      htrim, Option.elim_some]
  · rw [parseWhen, if_neg, herr, Option.elim_none]
    rw [hvalid]
    rintro ⟨w, hw⟩
    exact hnone w (by rw [When.written, ← hw, String.ofList_toList])

/-! ## Order -/

theorem Day.Before.chars_lt {a b : Day} (h : a.Before b) (xs ys : List Char) :
    a.chars ++ xs < b.chars ++ ys := by
  simp only [Day.chars, List.append_assoc, List.cons_append]
  rcases h with hyear | ⟨hyear, hmonth | ⟨hmonth, hday⟩⟩
  · exact four_lt hyear b.year_lt _ _
  · rw [hyear]
    refine append_lt_append _ (List.cons_lt_cons_iff.2 (.inr ⟨rfl, ?_⟩))
    exact two_lt hmonth b.month_lt _ _
  · rw [hyear, hmonth]
    refine append_lt_append _ (List.cons_lt_cons_iff.2 (.inr ⟨rfl, ?_⟩))
    refine append_lt_append _ (List.cons_lt_cons_iff.2 (.inr ⟨rfl, ?_⟩))
    exact two_lt hday b.day_lt _ _

theorem Day.before_trichotomy (a b : Day) : a.Before b ∨ a = b ∨ b.Before a := by
  unfold Day.Before
  rcases Nat.lt_trichotomy a.year b.year with hy | hy | hy
  · exact .inl (.inl hy)
  · rcases Nat.lt_trichotomy a.month b.month with hm | hm | hm
    · exact .inl (.inr ⟨hy, .inl hm⟩)
    · rcases Nat.lt_trichotomy a.day b.day with hd | hd | hd
      · exact .inl (.inr ⟨hy, .inr ⟨hm, hd⟩⟩)
      · exact .inr (.inl (Day.ext hy hm hd))
      · exact .inr (.inr (.inr ⟨hy.symm, .inr ⟨hm.symm, hd⟩⟩))
    · exact .inr (.inr (.inr ⟨hy.symm, .inl hm⟩))
  · exact .inr (.inr (.inl hy))

theorem Clock.Before.chars_lt {a b : Clock} (h : a.Before b) : a.chars < b.chars := by
  have hhour : b.hour < 100 := b.hour_lt.trans (by decide)
  have hminute : b.minute < 100 := b.minute_lt.trans (by decide)
  rcases h with hlt | ⟨heq, hlt⟩
  · exact two_lt hlt hhour _ _
  · rw [Clock.chars, Clock.chars, heq]
    refine append_lt_append _ (List.cons_lt_cons_iff.2 (.inr ⟨rfl, ?_⟩))
    have h := two_lt hlt hminute [] []
    rwa [List.append_nil, List.append_nil] at h

theorem Clock.before_trichotomy (a b : Clock) : a.Before b ∨ a = b ∨ b.Before a := by
  unfold Clock.Before
  rcases Nat.lt_trichotomy a.hour b.hour with hh | hh | hh
  · exact .inl (.inl hh)
  · rcases Nat.lt_trichotomy a.minute b.minute with hm | hm | hm
    · exact .inl (.inr ⟨hh, hm⟩)
    · exact .inr (.inl (Clock.ext hh hm))
    · exact .inr (.inr (.inr ⟨hh.symm, hm⟩))
  · exact .inr (.inr (.inl hh))

namespace When

theorem chars_ascii (w : When) : ∀ c ∈ w.chars, IsAscii c := by
  rcases w with ⟨d, none | t⟩
  · exact d.chars_ascii
  · intro c hc
    have hc : c ∈ d.chars ++ 'T' :: t.chars := hc
    rcases List.mem_append.1 hc with hc | hc
    · exact d.chars_ascii c hc
    · rcases List.mem_cons.1 hc with rfl | hc
      · decide
      · exact t.chars_ascii c hc

theorem Before.chars_lt {v w : When} (h : v.Before w) : v.chars < w.chars := by
  have hsplit : ∀ u : When, ∃ tail, u.chars = u.day.chars ++ tail ∧
      tail = (u.time.map fun t => 'T' :: t.chars).getD [] := by
    rintro ⟨d, none | t⟩
    · exact ⟨[], (List.append_nil _).symm, rfl⟩
    · exact ⟨'T' :: t.chars, rfl, rfl⟩
  obtain ⟨x, hv, hx⟩ := hsplit v
  obtain ⟨y, hw, hy⟩ := hsplit w
  rw [hv, hw]
  rcases h with hday | ⟨hday, htime⟩
  · exact hday.chars_lt x y
  · rw [hday]
    refine append_lt_append _ ?_
    rw [hx, hy]
    cases hs : v.time with
    | none =>
      cases ht : w.time with
      | none => simp [hs, ht] at htime
      | some t => exact List.nil_lt_cons _ _
    | some s =>
      cases ht : w.time with
      | none => simp [hs, ht] at htime
      | some t =>
        simp only [hs, ht] at htime
        exact List.cons_lt_cons_iff.2 (.inr ⟨rfl, htime.chars_lt⟩)

theorem before_trichotomy (v w : When) : v.Before w ∨ v = w ∨ w.Before v := by
  obtain ⟨a, s⟩ := v
  obtain ⟨b, t⟩ := w
  rcases a.before_trichotomy b with h | rfl | h
  · exact .inl (.inl h)
  · cases s with
    | none =>
      cases t with
      | none => exact .inr (.inl rfl)
      | some t => exact .inl (.inr ⟨rfl, trivial⟩)
    | some s =>
      cases t with
      | none => exact .inr (.inr (.inr ⟨rfl, trivial⟩))
      | some t =>
        rcases s.before_trichotomy t with h | rfl | h
        · exact .inl (.inr ⟨rfl, h⟩)
        · exact .inr (.inl rfl)
        · exact .inr (.inr (.inr ⟨rfl, h⟩))
  · exact .inr (.inr (.inl h))

/-- **Written, times are ordered as they are.** -/
theorem chars_lt_iff (v w : When) : v.chars < w.chars ↔ v.Before w := by
  refine ⟨fun h => ?_, fun h => h.chars_lt⟩
  rcases v.before_trichotomy w with hb | rfl | hb
  · exact hb
  · exact absurd h (List.lt_irrefl _)
  · exact absurd hb.chars_lt (List.lt_asymm h)

theorem written_injective {v w : When} (h : v.written = w.written) : v = w := by
  have hchars : v.chars = w.chars := String.ofList_injective h
  rcases v.before_trichotomy w with hb | heq | hb
  · exact absurd (hchars ▸ hb.chars_lt) (List.lt_irrefl _)
  · exact heq
  · exact absurd (hchars ▸ hb.chars_lt) (List.lt_irrefl _)

end When

/-- **The language of dates.**  For every text: `parse_deadline` accepts exactly the days and
`parse_when` exactly the days and the times on one, with white space around them; neither
panics; what they return is the written form, which they return unchanged; and comparing two
accepted values byte by byte compares the times they stand for. -/
theorem parse_language (raw : String) :
    (∀ s, parseDeadlineStr raw = .ok s ↔ ∃ d : Day, trim raw = d.written ∧ s = d.written) ∧
    (∀ s, parseWhenStr raw = .ok s ↔ ∃ w : When, trim raw = w.written ∧ s = w.written) ∧
    parseDeadlineStr raw ≠ .error .panicked ∧ parseWhenStr raw ≠ .error .panicked ∧
    (∀ s, parseDeadlineStr raw = .ok s → parseDeadlineStr s = .ok s) ∧
    (∀ s, parseWhenStr raw = .ok s → parseWhenStr s = .ok s) ∧
    (∀ other s t, parseWhenStr raw = .ok s → parseWhenStr other = .ok t →
      ∃ v w : When, s = v.written ∧ t = w.written ∧ (utf8 s.toList < utf8 t.toList ↔ v.Before w)) ∧
    ∀ (d : Day) (t : Clock),
      utf8 (When.written ⟨d, none⟩).toList < utf8 (When.written ⟨d, some t⟩).toList := by
  have hdeadline : ∀ raw s, parseDeadlineStr raw = .ok s ↔
      ∃ d : Day, trim raw = d.written ∧ s = d.written := by
    intro raw s
    rcases parseDeadlineStr_cases raw with ⟨d, htrim, hok⟩ | ⟨hnone, herr⟩
    · rw [hok, Except.ok.injEq]
      constructor
      · exact fun h => ⟨d, htrim, h.symm⟩
      · rintro ⟨d', htrim', rfl⟩
        rw [← htrim', htrim]
    · rw [herr]
      refine iff_of_false (by simp) ?_
      rintro ⟨d, htrim, -⟩
      exact hnone d htrim
  have hwhen : ∀ raw s, parseWhenStr raw = .ok s ↔
      ∃ w : When, trim raw = w.written ∧ s = w.written := by
    intro raw s
    rcases parseWhenStr_cases raw with ⟨w, htrim, hok⟩ | ⟨hnone, herr⟩
    · rw [hok, Except.ok.injEq]
      constructor
      · exact fun h => ⟨w, htrim, h.symm⟩
      · rintro ⟨w', htrim', rfl⟩
        rw [← htrim', htrim]
    · rw [herr]
      refine iff_of_false (by simp) ?_
      rintro ⟨w, htrim, -⟩
      exact hnone w htrim
  have hbytes : ∀ v w : When,
      utf8 v.written.toList < utf8 w.written.toList ↔ v.Before w := by
    intro v w
    rw [When.written, When.written, String.toList_ofList, String.toList_ofList,
      utf8_lt_of_ascii v.chars_ascii w.chars_ascii, When.chars_lt_iff]
  refine ⟨hdeadline raw, hwhen raw, ?_, ?_, ?_, ?_, ?_, fun d t => ?_⟩
  · rcases parseDeadlineStr_cases raw with ⟨d, -, h⟩ | ⟨-, h⟩ <;> rw [h] <;> simp
  · rcases parseWhenStr_cases raw with ⟨w, -, h⟩ | ⟨-, h⟩ <;> rw [h] <;> simp
  · intro s hs
    obtain ⟨d, htrim, rfl⟩ := (hdeadline raw s).1 hs
    exact (hdeadline _ _).2 ⟨d, by rw [← htrim, trim_idem], rfl⟩
  · intro s hs
    obtain ⟨w, htrim, rfl⟩ := (hwhen raw s).1 hs
    exact (hwhen _ _).2 ⟨w, by rw [← htrim, trim_idem], rfl⟩
  · intro other s t hs ht
    obtain ⟨v, -, rfl⟩ := (hwhen raw s).1 hs
    obtain ⟨w, -, rfl⟩ := (hwhen other t).1 ht
    exact ⟨v, w, rfl, rfl, hbytes v w⟩
  · exact (hbytes _ _).2 (.inr ⟨rfl, trivial⟩)

example : parseWhenStr " 2024-02-29T23:59\n" = .ok "2024-02-29T23:59" := by decide
example : parseWhenStr "2023-02-29" =
    .error (.invalid "when must be YYYY-MM-DD or YYYY-MM-DDTHH:MM" "2023-02-29") := by decide

end Monoplan.Doc
