import Mathlib.Data.List.TakeWhile
import Mathlib.Data.Nat.Init

/-!
# JSON texts

The texts of JSON values and a parser for them, for arbitrary numbers: `text` writes a number, and
`number` reads a token of digits, signs, dots and exponents as one.

* `stringify` writes a value without spaces.  In strings it escapes quotes, backslashes and control
  characters.
* `parse` reads any text of the grammar.  A string with half a surrogate pair is no list of
  characters and reads as an error.
* `field` looks up a member; the last one of a name counts.
* `parse_stringify`: a value whose numbers are read from their texts is read from its text.
-/

namespace Monoplan.Base

inductive Json (ν : Type)
  | null
  | bool (b : Bool)
  | num (n : ν)
  | str (s : String)
  | arr (items : List (Json ν))
  | obj (members : List (String × Json ν))

namespace Json

variable {ν : Type}

/-! ## Writing -/

/-- A lowercase hexadecimal digit. -/
def hexDigit (n : ℕ) : Char := if n < 10 then Char.ofNat (48 + n) else Char.ofNat (87 + n)

/-- A character in a string. -/
def escapeChar (c : Char) : List Char :=
  if c = '"' then ['\\', '"']
  else if c = '\\' then ['\\', '\\']
  else if c.toNat = 8 then ['\\', 'b']
  else if c.toNat = 9 then ['\\', 't']
  else if c.toNat = 10 then ['\\', 'n']
  else if c.toNat = 12 then ['\\', 'f']
  else if c.toNat = 13 then ['\\', 'r']
  else if c.toNat < 32 then ['\\', 'u', '0', '0', hexDigit (c.toNat / 16), hexDigit (c.toNat % 16)]
  else [c]

/-- A string and its closing quote. -/
def unquoted (cs : List Char) : List Char := cs.flatMap escapeChar ++ ['"']

/-- A string with its quotes. -/
def quoted (s : String) : List Char := '"' :: unquoted s.toList

section Write

variable (text : ν → List Char)

mutual

def stringify : Json ν → List Char
  | null => ['n', 'u', 'l', 'l']
  | bool true => ['t', 'r', 'u', 'e']
  | bool false => ['f', 'a', 'l', 's', 'e']
  | num n => text n
  | str s => quoted s
  | arr [] => ['[', ']']
  | arr (v :: vs) => '[' :: (stringify v ++ stringifyItems vs)
  | obj [] => ['{', '}']
  | obj ((k, v) :: ms) => '{' :: (quoted k ++ ':' :: (stringify v ++ stringifyMembers ms))

/-- The items behind the first one. -/
def stringifyItems : List (Json ν) → List Char
  | [] => [']']
  | v :: vs => ',' :: (stringify v ++ stringifyItems vs)

/-- The members behind the first one. -/
def stringifyMembers : List (String × Json ν) → List Char
  | [] => ['}']
  | (k, v) :: ms => ',' :: (quoted k ++ ':' :: (stringify v ++ stringifyMembers ms))

end

end Write

/-! ## Reading -/

def isSpace (c : Char) : Bool := c = ' ' || c = '\t' || c = '\n' || c = '\r'

/-- The text behind white space. -/
def skip (cs : List Char) : List Char := cs.dropWhile isSpace

def hexValue (c : Char) : Option ℕ :=
  if '0' ≤ c ∧ c ≤ '9' then some (c.toNat - 48)
  else if 'a' ≤ c ∧ c ≤ 'f' then some (c.toNat - 87)
  else if 'A' ≤ c ∧ c ≤ 'F' then some (c.toNat - 55)
  else none

/-- Four hexadecimal digits. -/
def hex4 : List Char → Option (ℕ × List Char)
  | a :: b :: c :: d :: cs =>
    (hexValue a).bind fun a => (hexValue b).bind fun b => (hexValue c).bind fun c =>
      (hexValue d).map fun d => (((a * 16 + b) * 16 + c) * 16 + d, cs)
  | _ => none

/-- The character behind a backslash and what follows; a pair of surrogates is one character. -/
def escaped : List Char → Option (Char × List Char)
  | '"' :: cs => some ('"', cs)
  | '\\' :: cs => some ('\\', cs)
  | '/' :: cs => some ('/', cs)
  | 'b' :: cs => some (Char.ofNat 8, cs)
  | 'f' :: cs => some (Char.ofNat 12, cs)
  | 'n' :: cs => some (Char.ofNat 10, cs)
  | 'r' :: cs => some (Char.ofNat 13, cs)
  | 't' :: cs => some (Char.ofNat 9, cs)
  | 'u' :: cs => (hex4 cs).bind fun hi =>
    if 0xd800 ≤ hi.1 ∧ hi.1 < 0xdc00 then
      match hi.2 with
      | '\\' :: 'u' :: cs => (hex4 cs).bind fun lo =>
        if 0xdc00 ≤ lo.1 ∧ lo.1 < 0xe000 then
          some (Char.ofNat (0x10000 + (hi.1 - 0xd800) * 0x400 + (lo.1 - 0xdc00)), lo.2)
        else none
      | _ => none
    else if 0xdc00 ≤ hi.1 ∧ hi.1 < 0xe000 then none
    else some (Char.ofNat hi.1, hi.2)
  | _ => none

/-- A string behind its opening quote, of at most so many characters. -/
def stringBody : ℕ → List Char → Option (List Char × List Char)
  | 0, _ => none
  | _, [] => none
  | n + 1, c :: cs =>
    if c = '"' then some ([], cs)
    else if c = '\\' then
      (escaped cs).bind fun q => (stringBody n q.2).map fun r => (q.1 :: r.1, r.2)
    else if c.toNat < 32 then none
    else (stringBody n cs).map fun r => (c :: r.1, r.2)

def isNumberChar (c : Char) : Bool :=
  ('0' ≤ c ∧ c ≤ '9') || c = '-' || c = '+' || c = '.' || c = 'e' || c = 'E'

def literal (w : List Char) (v : Json ν) (cs : List Char) : Option (Json ν × List Char) :=
  if w <+: cs then some (v, cs.drop w.length) else none

section Read

variable (number : List Char → Option ν)

/-- The longest token of a number. -/
def numberToken (cs : List Char) : Option (Json ν × List Char) :=
  (number (cs.takeWhile isNumberChar)).map fun n => (num n, cs.dropWhile isNumberChar)

mutual

/-- A value at the front of a text, of at most so many tokens. -/
def value : ℕ → List Char → Option (Json ν × List Char)
  | 0, _ => none
  | _, [] => none
  | n + 1, c :: cs =>
    if c = '"' then (stringBody cs.length cs).map fun q => (str (String.ofList q.1), q.2)
    else if c = '[' then
      match skip cs with
      | ']' :: rest => some (arr [], rest)
      | rest => (value n rest).bind fun q => (items n q.2).map fun r => (arr (q.1 :: r.1), r.2)
    else if c = '{' then
      match skip cs with
      | '}' :: rest => some (obj [], rest)
      | rest => (member n rest).bind fun q => (members n q.2).map fun r => (obj (q.1 :: r.1), r.2)
    else if c = 'n' then literal ['n', 'u', 'l', 'l'] null (c :: cs)
    else if c = 't' then literal ['t', 'r', 'u', 'e'] (bool true) (c :: cs)
    else if c = 'f' then literal ['f', 'a', 'l', 's', 'e'] (bool false) (c :: cs)
    else numberToken number (c :: cs)

/-- The items behind one. -/
def items : ℕ → List Char → Option (List (Json ν) × List Char)
  | 0, _ => none
  | n + 1, cs =>
    match skip cs with
    | ']' :: rest => some ([], rest)
    | ',' :: rest =>
      (value n (skip rest)).bind fun q => (items n q.2).map fun r => (q.1 :: r.1, r.2)
    | _ => none

/-- A key, a colon and a value. -/
def member : ℕ → List Char → Option ((String × Json ν) × List Char)
  | 0, _ => none
  | n + 1, cs =>
    match cs with
    | '"' :: rest => (stringBody rest.length rest).bind fun k =>
      match skip k.2 with
      | ':' :: rest => (value n (skip rest)).map fun q => ((String.ofList k.1, q.1), q.2)
      | _ => none
    | _ => none

/-- The members behind one. -/
def members : ℕ → List Char → Option (List (String × Json ν) × List Char)
  | 0, _ => none
  | n + 1, cs =>
    match skip cs with
    | '}' :: rest => some ([], rest)
    | ',' :: rest =>
      (member n (skip rest)).bind fun q => (members n q.2).map fun r => (q.1 :: r.1, r.2)
    | _ => none

end

/-- A value, and nothing but white space around it. -/
def parse (cs : List Char) : Option (Json ν) :=
  (value number cs.length (skip cs)).bind fun q => if skip q.2 = [] then some q.1 else none

end Read

/-! ## Members -/

/-- The last member of the name. -/
def lastMember (ms : List (String × Json ν)) (k : String) : Option (Json ν) :=
  (ms.reverse.find? (·.1 = k)).map (·.2)

/-- `v[k]`. -/
def field (v : Json ν) (k : String) : Option (Json ν) :=
  match v with
  | obj ms => lastMember ms k
  | _ => none

@[simp] theorem lastMember_append (ms ms' : List (String × Json ν)) (k : String) :
    lastMember (ms ++ ms') k = (lastMember ms' k).or (lastMember ms k) := by
  rw [lastMember, List.reverse_append, List.find?_append, Option.map_or]
  rfl

@[simp] theorem lastMember_nil (k : String) : lastMember ([] : List (String × Json ν)) k = none :=
  rfl

@[simp] theorem lastMember_cons (m : String × Json ν) (ms : List (String × Json ν)) (k : String) :
    lastMember (m :: ms) k = (lastMember ms k).or (if m.1 = k then some m.2 else none) := by
  rw [lastMember, List.reverse_cons, List.find?_append, Option.map_or, List.find?_singleton]
  by_cases h : m.1 = k
  · simp [lastMember, h]
  · simp [lastMember, h]

/-! ## Reading what was written -/

section Written

variable (p : ν → Prop) (norm : ν → ν)

mutual

/-- All numbers have the property. -/
def AllNum : Json ν → Prop
  | num n => p n
  | arr vs => AllNumItems vs
  | obj ms => AllNumMembers ms
  | _ => True

def AllNumItems : List (Json ν) → Prop
  | [] => True
  | v :: vs => AllNum v ∧ AllNumItems vs

def AllNumMembers : List (String × Json ν) → Prop
  | [] => True
  | (_, v) :: ms => AllNum v ∧ AllNumMembers ms

end

mutual

/-- With other numbers. -/
def mapNum : Json ν → Json ν
  | num n => num (norm n)
  | arr vs => arr (mapItems vs)
  | obj ms => obj (mapMembers ms)
  | v => v

def mapItems : List (Json ν) → List (Json ν)
  | [] => []
  | v :: vs => mapNum v :: mapItems vs

def mapMembers : List (String × Json ν) → List (String × Json ν)
  | [] => []
  | (k, v) :: ms => (k, mapNum v) :: mapMembers ms

end

/-- The texts of such numbers are tokens that are read as numbers. -/
structure ReadsNumbers (text : ν → List Char) (number : List Char → Option ν) : Prop where
  reads : ∀ n, p n → number (text n) = some (norm n)
  chars : ∀ n, p n → ∀ c ∈ text n, isNumberChar c = true
  ne_nil : ∀ n, p n → text n ≠ []

variable {p norm} {text : ν → List Char} {number : List Char → Option ν} {n : ℕ} {v : Json ν}
  {rest : List Char}

theorem hexValue_hexDigit : ∀ n < 16, hexValue (hexDigit n) = some n := by decide

theorem stringBody_escapeChar (c : Char) (n : ℕ) (t : List Char) :
    stringBody (n + 1) (escapeChar c ++ t) =
      (stringBody n t).map fun q => (c :: q.1, q.2) := by
  have hplain : ∀ d cs, escaped cs = some (d, t) → stringBody (n + 1) ('\\' :: cs) =
      (stringBody n t).map fun q => (d :: q.1, q.2) := fun d cs h => by
    show ((escaped cs).bind fun q => (stringBody n q.2).map fun r => (q.1 :: r.1, r.2)) = _
    rw [h, Option.bind_some]
  have hnat : ∀ k, c.toNat = k → Char.ofNat k = c := fun k hk => by rw [← hk, Char.ofNat_toNat]
  unfold escapeChar
  split
  · subst_vars
    exact hplain _ _ rfl
  split
  · subst_vars
    exact hplain _ _ rfl
  split
  · rename_i h
    rw [← hnat 8 h]
    exact hplain _ _ rfl
  split
  · rename_i h
    rw [← hnat 9 h]
    exact hplain _ _ rfl
  split
  · rename_i h
    rw [← hnat 10 h]
    exact hplain _ _ rfl
  split
  · rename_i h
    rw [← hnat 12 h]
    exact hplain _ _ rfl
  split
  · rename_i h
    rw [← hnat 13 h]
    exact hplain _ _ rfl
  split
  · rename_i hlt
    have hhi := hexValue_hexDigit (c.toNat / 16) (by omega)
    have hlo := hexValue_hexDigit (c.toNat % 16) (by omega)
    have hhex : hex4 ('0' :: '0' :: hexDigit (c.toNat / 16) :: hexDigit (c.toNat % 16) :: t) =
        some (c.toNat, t) := by
      rw [hex4, show hexValue '0' = some 0 from rfl, hhi, hlo]
      show some ((((0 * 16 + 0) * 16 + c.toNat / 16) * 16 + c.toNat % 16), t) = _
      rw [Nat.zero_mul, Nat.zero_add, Nat.div_add_mod']
    refine hplain c ('u' :: '0' :: '0' :: hexDigit (c.toNat / 16) ::
      hexDigit (c.toNat % 16) :: t) ?_
    rw [escaped, hhex, Option.bind_some, if_neg (by omega), if_neg (by omega)]
    dsimp only
    rw [Char.ofNat_toNat]
  · rename_i hquote hslash _ _ _ _ _ hlt
    rw [List.singleton_append, stringBody, if_neg hquote, if_neg hslash, if_neg hlt]

theorem stringBody_unquoted {cs : List Char} (h : cs.length < n) (rest : List Char) :
    stringBody n (unquoted cs ++ rest) = some (cs, rest) := by
  induction cs generalizing n with
  | nil =>
    obtain ⟨n, rfl⟩ : ∃ k, n = k + 1 := ⟨n - 1, by omega⟩
    rfl
  | cons c cs ih =>
    obtain ⟨n, rfl⟩ : ∃ k, n = k + 1 := ⟨n - 1, by omega⟩
    have hcons : unquoted (c :: cs) = escapeChar c ++ unquoted cs := by
      rw [unquoted, List.flatMap_cons, List.append_assoc]
      rfl
    rw [hcons, List.append_assoc, stringBody_escapeChar, ih (Nat.lt_of_succ_lt_succ h)]
    rfl

theorem length_unquoted (cs : List Char) : cs.length < (unquoted cs).length := by
  have hchar : ∀ c, 1 ≤ (escapeChar c).length := fun c => by
    unfold escapeChar
    repeat' split
    all_goals exact Nat.succ_le_succ (Nat.zero_le _)
  rw [unquoted, List.length_append, List.length_singleton]
  refine Nat.lt_succ_of_le ?_
  induction cs with
  | nil => exact le_rfl
  | cons c cs ih =>
    rw [List.flatMap_cons, List.length_append, List.length_cons]
    have hc := hchar c
    omega

/-- A string is read up to its closing quote. -/
theorem stringBody_quoted (s : String) (rest : List Char) :
    stringBody (unquoted s.toList ++ rest).length (unquoted s.toList ++ rest) =
      some (s.toList, rest) := by
  refine stringBody_unquoted ?_ rest
  rw [List.length_append]
  exact (length_unquoted _).trans_le (Nat.le_add_right _ _)

/-- What follows is no part of a number. -/
def EndsNumber (rest : List Char) : Prop := ∀ c ∈ rest.head?, isNumberChar c = false

theorem skip_of_head {c : Char} {cs : List Char} (h : isSpace c = false) :
    skip (c :: cs) = c :: cs := by
  rw [skip, List.dropWhile_cons_of_neg (by rw [h]; exact Bool.false_ne_true)]

theorem isSpace_of_number {c : Char} (h : isNumberChar c = true) : isSpace c = false := by
  rw [isSpace]
  by_contra hne
  simp only [Bool.not_eq_false, Bool.or_eq_true, decide_eq_true_eq] at hne
  rcases hne with ((rfl | rfl) | rfl) | rfl <;> exact absurd h (by decide)

variable (hnum : ReadsNumbers p norm text number)

include hnum

/-- A text begins with something. -/
theorem exists_head (v : Json ν) (hv : AllNum p v) :
    ∃ c cs, stringify text v = c :: cs ∧ isSpace c = false ∧ c ≠ ']' := by
  cases v with
  | null => exact ⟨_, _, rfl, rfl, by decide⟩
  | bool b =>
    cases b with
    | false => exact ⟨_, _, rfl, rfl, by decide⟩
    | true => exact ⟨_, _, rfl, rfl, by decide⟩
  | num n =>
    rcases htext : text n with - | ⟨c, cs⟩
    · exact absurd htext (hnum.ne_nil n hv)
    · have hc := hnum.chars n hv c (htext ▸ List.mem_cons_self)
      refine ⟨c, cs, htext, isSpace_of_number hc, ?_⟩
      rintro rfl
      exact absurd hc (by decide)
  | str s => exact ⟨_, _, rfl, rfl, by decide⟩
  | arr vs =>
    cases vs with
    | nil => exact ⟨_, _, rfl, rfl, by decide⟩
    | cons v vs => exact ⟨_, _, rfl, rfl, by decide⟩
  | obj ms =>
    cases ms with
    | nil => exact ⟨_, _, rfl, rfl, by decide⟩
    | cons m ms => exact ⟨_, _, rfl, rfl, by decide⟩

theorem skip_stringify (v : Json ν) (hv : AllNum p v) (rest : List Char) :
    skip (stringify text v ++ rest) = stringify text v ++ rest := by
  obtain ⟨c, cs, heq, hspace, -⟩ := exists_head hnum v hv
  rw [heq]
  exact skip_of_head hspace

theorem numberToken_text {k : ν} (hk : p k) (hrest : EndsNumber rest) :
    numberToken number (text k ++ rest) = some (num (norm k), rest) := by
  have hall := hnum.chars k hk
  have htake : rest.takeWhile isNumberChar = [] ∧ rest.dropWhile isNumberChar = rest := by
    cases rest with
    | nil => exact ⟨rfl, rfl⟩
    | cons c cs =>
      have hc := hrest c rfl
      exact ⟨List.takeWhile_cons_of_neg (by rw [hc]; exact Bool.false_ne_true),
        List.dropWhile_cons_of_neg (by rw [hc]; exact Bool.false_ne_true)⟩
  rw [numberToken, List.takeWhile_append_of_pos hall, List.dropWhile_append_of_pos hall, htake.1,
    htake.2, List.append_nil, hnum.reads k hk]
  rfl

omit hnum

theorem literal_append (w : List Char) (v : Json ν) (rest : List Char) :
    literal w v (w ++ rest) = some (v, rest) := by
  rw [literal, if_pos (List.prefix_append w rest), List.drop_left]

/-- A number begins with none of the characters that other values begin with. -/
theorem value_number {c : Char} {cs : List Char} (h : isNumberChar c = true) (n : ℕ) :
    value number (n + 1) (c :: cs) = numberToken number (c :: cs) := by
  have hne : ∀ d, isNumberChar d = false → c ≠ d := fun d hd heq => by
    rw [heq, hd] at h
    cases h
  rw [value, if_neg (hne _ rfl), if_neg (hne _ rfl), if_neg (hne _ rfl), if_neg (hne _ rfl),
    if_neg (hne _ rfl), if_neg (hne _ rfl)]

theorem value_array {c : Char} {cs : List Char} (hspace : isSpace c = false) (hne : c ≠ ']')
    (n : ℕ) : value number (n + 1) ('[' :: c :: cs) =
      (value number n (c :: cs)).bind fun q => (items number n q.2).map fun r =>
        (arr (q.1 :: r.1), r.2) := by
  rw [value, if_neg (by decide), if_pos rfl, skip_of_head hspace]
  split
  · rename_i heq
    exact absurd (List.cons.inj heq).1 hne
  · rfl

theorem endsNumber_items (text : ν → List Char) (vs : List (Json ν)) (rest : List Char) :
    EndsNumber (stringifyItems text vs ++ rest) := by
  cases vs with
  | nil => exact fun c hc => by cases hc; rfl
  | cons v vs => exact fun c hc => by cases hc; rfl

theorem endsNumber_members (text : ν → List Char) (ms : List (String × Json ν)) (rest : List Char) :
    EndsNumber (stringifyMembers text ms ++ rest) := by
  cases ms with
  | nil => exact fun c hc => by cases hc; rfl
  | cons m ms => exact fun c hc => by cases hc; rfl

include hnum

/-- A member is read where its value is. -/
theorem member_stringify (k : String) {v : Json ν} (hv : AllNum p v)
    (h : value number n (stringify text v ++ rest) = some (mapNum norm v, rest)) :
    member number (n + 1) (quoted k ++ ':' :: (stringify text v ++ rest)) =
      some ((k, mapNum norm v), rest) := by
  show ((stringBody (unquoted k.toList ++ _).length (unquoted k.toList ++ _)).bind _) = _
  rw [stringBody_quoted, Option.bind_some]
  show ((value number n (skip (stringify text v ++ rest))).map _) = _
  rw [skip_stringify hnum v hv, h, Option.map_some, String.ofList_toList]

mutual

theorem value_stringify (v : Json ν) (hv : AllNum p v) {n : ℕ} (hn : (stringify text v).length ≤ n)
    {rest : List Char} (hrest : EndsNumber rest) :
    value number n (stringify text v ++ rest) = some (mapNum norm v, rest) := by
  obtain ⟨c, cs, heq, -⟩ := exists_head hnum v hv
  obtain ⟨n, rfl⟩ : ∃ k, n = k + 1 := ⟨n - 1, by
    rw [heq, List.length_cons] at hn
    omega⟩
  cases v with
  | null => exact literal_append ['n', 'u', 'l', 'l'] null rest
  | bool b =>
    cases b with
    | false => exact literal_append ['f', 'a', 'l', 's', 'e'] (bool false) rest
    | true => exact literal_append ['t', 'r', 'u', 'e'] (bool true) rest
  | num k =>
    have htext : text k = c :: cs := heq
    have hc := hnum.chars k hv c (htext ▸ List.mem_cons_self)
    have hnumber := numberToken_text hnum hv hrest
    show value number (n + 1) (text k ++ rest) = _
    rw [htext] at hnumber ⊢
    rw [List.cons_append] at hnumber ⊢
    rw [value_number hc, hnumber]
    rfl
  | str s =>
    show (stringBody (unquoted s.toList ++ rest).length (unquoted s.toList ++ rest)).map _ = _
    rw [stringBody_quoted, Option.map_some, String.ofList_toList]
    rfl
  | arr vs =>
    cases vs with
    | nil => rfl
    | cons v vs =>
      obtain ⟨d, ds, hd, hspace, hne⟩ := exists_head hnum v hv.1
      have hlen : (stringify text v).length + (stringifyItems text vs).length ≤ n := by
        rw [stringify, List.length_cons, List.length_append] at hn
        omega
      have hfirst := value_stringify v hv.1 (show (stringify text v).length ≤ n by omega)
        (endsNumber_items text vs rest)
      have hothers := items_stringify vs hv.2 (show (stringifyItems text vs).length ≤ n by omega)
        rest
      rw [hd, List.cons_append] at hfirst
      show value number (n + 1) ('[' :: ((stringify text v ++ stringifyItems text vs) ++ rest)) = _
      rw [List.append_assoc, hd, List.cons_append, value_array hspace hne, hfirst,
        Option.bind_some, hothers]
      rfl
  | obj ms =>
    cases ms with
    | nil => rfl
    | cons m ms =>
      obtain ⟨k, v⟩ := m
      have hquote := length_unquoted k.toList
      have hlen : (stringify text v).length + (stringifyMembers text ms).length + 2 ≤ n := by
        rw [stringify, List.length_cons, List.length_append, quoted, List.length_cons,
          List.length_cons, List.length_append] at hn
        omega
      obtain ⟨n, rfl⟩ : ∃ d, n = d + 1 := ⟨n - 1, by omega⟩
      have hfirst := member_stringify hnum k hv.1 (value_stringify v hv.1
        (show (stringify text v).length ≤ n by omega) (endsNumber_members text ms rest))
      have hothers := members_stringify ms hv.2
        (show (stringifyMembers text ms).length ≤ n + 1 by omega) rest
      show value number (n + 2) ('{' :: ((quoted k ++ ':' :: (stringify text v ++
        stringifyMembers text ms)) ++ rest)) = _
      rw [List.append_assoc, List.cons_append, List.append_assoc]
      show (member number (n + 1) (quoted k ++ ':' :: (stringify text v ++
        (stringifyMembers text ms ++ rest)))).bind _ = _
      rw [hfirst, Option.bind_some, hothers]
      rfl

theorem items_stringify (vs : List (Json ν)) (hvs : AllNumItems p vs) {n : ℕ}
    (hn : (stringifyItems text vs).length ≤ n) (rest : List Char) :
    items number n (stringifyItems text vs ++ rest) = some (mapItems norm vs, rest) := by
  cases vs with
  | nil =>
    obtain ⟨n, rfl⟩ : ∃ k, n = k + 1 := ⟨n - 1, by
      rw [stringifyItems, List.length_singleton] at hn
      omega⟩
    rfl
  | cons v vs =>
    rw [stringifyItems, List.length_cons, List.length_append] at hn
    obtain ⟨n, rfl⟩ : ∃ k, n = k + 1 := ⟨n - 1, by omega⟩
    have hfirst := value_stringify v hvs.1 (show (stringify text v).length ≤ n by omega)
      (endsNumber_items text vs rest)
    have hothers := items_stringify vs hvs.2 (show (stringifyItems text vs).length ≤ n by omega)
      rest
    show (value number n (skip ((stringify text v ++ stringifyItems text vs) ++ rest))).bind _ = _
    rw [List.append_assoc, skip_stringify hnum v hvs.1, hfirst, Option.bind_some, hothers]
    rfl

theorem members_stringify (ms : List (String × Json ν)) (hms : AllNumMembers p ms) {n : ℕ}
    (hn : (stringifyMembers text ms).length ≤ n) (rest : List Char) :
    members number n (stringifyMembers text ms ++ rest) = some (mapMembers norm ms, rest) := by
  cases ms with
  | nil =>
    obtain ⟨n, rfl⟩ : ∃ k, n = k + 1 := ⟨n - 1, by
      rw [stringifyMembers, List.length_singleton] at hn
      omega⟩
    rfl
  | cons m ms =>
    obtain ⟨k, v⟩ := m
    have hquote := length_unquoted k.toList
    rw [stringifyMembers, List.length_cons, List.length_append, quoted, List.length_cons,
      List.length_cons, List.length_append] at hn
    obtain ⟨n, rfl⟩ : ∃ d, n = d + 2 := ⟨n - 2, by omega⟩
    have hfirst := member_stringify hnum k hms.1 (value_stringify v hms.1
      (show (stringify text v).length ≤ n by omega) (endsNumber_members text ms rest))
    have hothers := members_stringify ms hms.2
      (show (stringifyMembers text ms).length ≤ n + 1 by omega) rest
    show (member number (n + 1) (skip ((quoted k ++ ':' :: (stringify text v ++
      stringifyMembers text ms)) ++ rest))).bind _ = _
    rw [List.append_assoc, List.cons_append, List.append_assoc]
    show (member number (n + 1) (quoted k ++ ':' :: (stringify text v ++
      (stringifyMembers text ms ++ rest)))).bind _ = _
    rw [hfirst, Option.bind_some, hothers]
    rfl

end

/-- **A value is read from its text.** -/
theorem parse_stringify (hv : AllNum p v) :
    parse number (stringify text v) = some (mapNum norm v) := by
  have hvalue := value_stringify hnum v hv le_rfl (show EndsNumber [] from fun c hc => by cases hc)
  have hskip := skip_stringify hnum v hv []
  rw [List.append_nil] at hvalue hskip
  rw [parse, hskip, hvalue]
  rfl

end Written

end Json

end Monoplan.Base
