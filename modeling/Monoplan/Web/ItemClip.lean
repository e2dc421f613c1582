import Mathlib.Algebra.Order.Ring.Rat
import Monoplan.Base.Json
import Monoplan.Doc.Formats

/-!
# The item clipboard

Copied items go on the clipboard as JSON, and once more as an attribute of an HTML list.

* `toClipItem`, `renderClip`, `parseClip` and `clipFromHtml`.  How numbers are written and read is a
  parameter.
* `clipAttribute_renderClip`: the reader finds what the writer put there, whatever the items say.
* `clip_roundTrip_iff`: the items come back exactly where no label of a place is blank and no
  coordinate is `-0`.  What is blank here is not so to the store: the mark `U+FEFF` is white space
  in one place and a character in the other.
-/

namespace Monoplan.Web

open Monoplan.Base
open Monoplan.Doc (WorkflowState)

/-! ## Numbers -/

/-- A number, by its bit pattern. -/
structure Double where
  bits : UInt64
  deriving DecidableEq

namespace Double

def exponent (d : Double) : ℕ := d.bits.toNat / 0x10000000000000 % 0x800

def fraction (d : Double) : ℕ := d.bits.toNat % 0x10000000000000

/-- `Number.isFinite`. -/
def isFinite (d : Double) : Bool := d.exponent ≠ 0x7ff

/-- The value of a finite number. -/
def value (d : Double) : ℚ :=
  let magnitude : ℚ :=
    if d.exponent = 0 then d.fraction / 2 ^ 1074
    else (0x10000000000000 + d.fraction) * 2 ^ d.exponent / 2 ^ 1075
  if d.bits.toNat < 0x8000000000000000 then magnitude else -magnitude

def one : Double := ⟨0x3ff0000000000000⟩

def negZero : Double := ⟨0x8000000000000000⟩

/-- The number that is written: `-0` is written as `0`. -/
def plus (d : Double) : Double := if d = negZero then ⟨0⟩ else d

/-- `Number.isInteger`, and positive. -/
def isCount (d : Double) : Bool := d.isFinite && d.value.isInt && 0 < d.value

/-- Finite, and no further from zero than the bound. -/
def within (d : Double) (bound : ℚ) : Bool := d.isFinite && |d.value| ≤ bound

end Double

/-! ## Items -/

structure ClipPlace where
  label : String
  coordinates : Option (Double × Double)
  address : Option String
  ref : Option String
  deriving DecidableEq

/-- An `ItemView` of the store, with what a copy reads of it. -/
structure StoreItem where
  text : String
  notes : String
  state : WorkflowState
  deadline : Option String
  when : Option String
  duration : Option Double
  place : Option ClipPlace

structure ClipItem where
  text : String
  state : WorkflowState
  notes : Option String
  deadline : Option String
  when : Option String
  duration : Option Double
  place : Option ClipPlace
  deriving DecidableEq

/-- A text that is there. -/
def nonEmpty (s : String) : Option String := if s = "" then none else some s

def toClipItem (it : StoreItem) : ClipItem where
  text := it.text
  state := it.state
  notes := nonEmpty it.notes
  deadline := it.deadline.bind nonEmpty
  when := it.when.bind nonEmpty
  duration :=
    if (it.when.bind nonEmpty).isSome then it.duration.filter fun d => d.value ≠ 0 else none
  place := it.place

/-! ## Writing -/

/-- A member that may be missing. -/
def optional {α : Type} (k : String) (f : α → Json Double) (o : Option α) :
    List (String × Json Double) :=
  (o.map fun a => (k, f a)).toList

def ClipPlace.json (p : ClipPlace) : Json Double :=
  .obj ([("label", .str p.label)] ++ optional "lat" (fun q => .num q.1) p.coordinates ++
    optional "lon" (fun q => .num q.2) p.coordinates ++ optional "address" .str p.address ++
    optional "ref" .str p.ref)

def ClipItem.json (it : ClipItem) : Json Double :=
  .obj ([("text", .str it.text), ("state", .str it.state.name)] ++
    optional "notes" .str it.notes ++ optional "deadline" .str it.deadline ++
    optional "when" .str it.when ++ optional "duration" .num it.duration ++
    optional "place" ClipPlace.json it.place)

/-- `s.replace(/c/g, t)`. -/
def replaceAll (c : Char) (t cs : List Char) : List Char :=
  cs.flatMap fun d => if d = c then t else [d]

def escapeHtml (cs : List Char) : List Char :=
  replaceAll '>' ['&', 'g', 't', ';'] (replaceAll '<' ['&', 'l', 't', ';']
    (replaceAll '"' ['&', 'q', 'u', 'o', 't', ';'] (replaceAll '&' ['&', 'a', 'm', 'p', ';'] cs)))

structure ClipPayloads where
  text : List Char
  html : List Char
  json : List Char

section Clip

/- `JSON.stringify` of a number, and the number that a token is. -/
variable (write : Double → List Char) (number : List Char → Option Double)

def renderClip (items : List ClipItem) : ClipPayloads :=
  let clip : Json Double := .obj [("v", .num .one), ("items", .arr (items.map ClipItem.json))]
  let json := clip.stringify write
  { text := ['\n'].intercalate (items.map fun it => it.text.toList)
    html := "<ul data-monoplan=\"".toList ++ escapeHtml json ++ "\">".toList ++
      (items.flatMap fun it => "<li>".toList ++ escapeHtml it.text.toList ++ "</li>".toList) ++
      "</ul>".toList
    json := json }

/-! ## Reading -/

/-- A text of at least one character. -/
def textField (v : Json Double) (k : String) : Option String :=
  match v.field k with
  | some (.str s) => nonEmpty s
  | _ => none

/-- A member that is neither missing nor `null`. -/
def present (v : Json Double) (k : String) : Option (Json Double) :=
  match v.field k with
  | some .null => none
  | o => o

/-- White space and line ends, as `trim` strips them. -/
def isJsSpace (c : Char) : Bool :=
  let n := c.toNat
  (9 ≤ n && n ≤ 13) || n = 32 || n = 0xA0 || n = 0x1680 || (0x2000 ≤ n && n ≤ 0x200A) ||
    n = 0x2028 || n = 0x2029 || n = 0x202F || n = 0x205F || n = 0x3000 || n = 0xFEFF

/-- `s.trim()`. -/
def jsTrim (s : String) : String :=
  String.ofList ((s.toList.dropWhile isJsSpace).rdropWhile isJsSpace)

/-- Both coordinates or none; `none` where they are no such pair. -/
def parseCoordinates (raw : Json Double) : Option (Option (Double × Double)) :=
  match present raw "lat", present raw "lon" with
  | none, none => some none
  | some (.num lat), some (.num lon) =>
    if lat.within 90 && lon.within 180 then some (some (lat, lon)) else none
  | _, _ => none

def parseClipPlace (raw : Json Double) : Option ClipPlace :=
  match raw.field "label" with
  | some (.str label) =>
    if jsTrim label = "" then none
    else (parseCoordinates raw).map fun coordinates =>
      ⟨label, coordinates, textField raw "address", textField raw "ref"⟩
  | _ => none

/-- An entry of the payload. -/
def parseClipItem (e : Json Double) : Option ClipItem :=
  match e.field "text" with
  | some (.str text) => some
    { text := text
      state := match e.field "state" with
        | some (.str s) => (WorkflowState.parseName s).getD .backlog
        | _ => .backlog
      notes := textField e "notes"
      deadline := textField e "deadline"
      when := textField e "when"
      duration := match textField e "when", e.field "duration" with
        | some _, some (.num n) => if n.isCount then some n else none
        | _, _ => none
      place := (e.field "place").bind parseClipPlace }
  | _ => none

def parseClip (raw : List Char) : Option (List ClipItem) :=
  (Json.parse number raw).bind fun clip =>
    match clip.field "v", clip.field "items" with
    | some (.num v), some (.arr entries) => if v = .one then entries.mapM parseClipItem else none
    | _, _ => none

/-- The entity behind an ampersand: `#x`, `#` or nothing, its digits or letters, and what follows
the semicolon. -/
def entity (cs : List Char) : Option (List Char × List Char × List Char) :=
  let ends (mark : List Char) (p : Char → Bool) (cs : List Char) :=
    match cs.takeWhile p, cs.dropWhile p with
    | d :: ds, ';' :: rest => some (mark, d :: ds, rest)
    | _, _ => none
  match cs with
  | '#' :: 'x' :: rest | '#' :: 'X' :: rest =>
    ends ['#', 'x'] (fun c => (Json.hexValue c).isSome) rest
  | '#' :: rest => ends ['#'] (fun c => '0' ≤ c ∧ c ≤ '9') rest
  | _ => ends [] (fun c => ('a' ≤ c ∧ c ≤ 'z') ∨ ('A' ≤ c ∧ c ≤ 'Z')) cs

/-- `String.fromCodePoint`: no character is beyond the last code point, and half a surrogate pair
is none either. -/
def fromCodePoint (n : ℕ) : Option (List Char) :=
  if n.isValidChar then some [Char.ofNat n] else none

/-- The number that digits are. -/
def parseInt (radix : ℕ) (ds : List Char) : ℕ :=
  ds.foldl (fun n d => n * radix + (Json.hexValue d).getD 0) 0

/-- What an entity stands for; a number from `2 ^ 1024` on is not finite. -/
def decodeEntity (mark ds : List Char) : Option (List Char) :=
  if mark = ['#', 'x'] then
    if parseInt 16 ds < 2 ^ 1024 - 2 ^ 970 then fromCodePoint (parseInt 16 ds)
    else some ('&' :: mark ++ ds ++ [';'])
  else if mark = ['#'] then
    if parseInt 10 ds < 2 ^ 1024 - 2 ^ 970 then fromCodePoint (parseInt 10 ds)
    else some ('&' :: mark ++ ds ++ [';'])
  else
    match ds.map Char.toLower with
    | ['a', 'm', 'p'] => some ['&']
    | ['q', 'u', 'o', 't'] => some ['"']
    | ['l', 't'] => some ['<']
    | ['g', 't'] => some ['>']
    | ['a', 'p', 'o', 's'] => some ['\'']
    | ['n', 'b', 's', 'p'] => some [' ']
    | _ => some ('&' :: ds ++ [';'])

/-- `unescapeHtml` of a text of at most so many characters; `none` where it throws. -/
def unescapeFrom : ℕ → List Char → Option (List Char)
  | 0, _ => some []
  | _, [] => some []
  | n + 1, c :: cs =>
    if c = '&' then
      match entity cs with
      | some (mark, ds, rest) =>
        (decodeEntity mark ds).bind fun t => (unescapeFrom n rest).map (t ++ ·)
      | none => (unescapeFrom n cs).map (c :: ·)
    else (unescapeFrom n cs).map (c :: ·)

def unescapeHtml (cs : List Char) : Option (List Char) := unescapeFrom cs.length cs

/-- The first match of `data-monoplan="([^"]*)"`. -/
def clipAttribute : List Char → Option (List Char)
  | [] => none
  | c :: cs =>
    let opening := "data-monoplan=\"".toList
    let rest := (c :: cs).drop opening.length
    if opening <+: c :: cs ∧ '"' ∈ rest then some (rest.takeWhile (· ≠ '"')) else clipAttribute cs

/-- `none` where it is null, or throws. -/
def clipFromHtml (html : List Char) : Option (List ClipItem) :=
  ((clipAttribute html).bind unescapeHtml).bind (parseClip number)

end Clip

/-! ## HTML -/

/-- A character of an escaped text. -/
def escapeHtmlChar (c : Char) : List Char :=
  if c = '&' then ['&', 'a', 'm', 'p', ';']
  else if c = '"' then ['&', 'q', 'u', 'o', 't', ';']
  else if c = '<' then ['&', 'l', 't', ';']
  else if c = '>' then ['&', 'g', 't', ';']
  else [c]

theorem escapeHtml_eq (cs : List Char) : escapeHtml cs = cs.flatMap escapeHtmlChar := by
  simp only [escapeHtml, replaceAll, List.flatMap_assoc]
  refine List.flatMap_congr fun c _ => ?_
  unfold escapeHtmlChar
  repeat' split
  all_goals subst_vars
  all_goals simp_all

theorem quote_notMem_escapeHtml (cs : List Char) : '"' ∉ escapeHtml cs := by
  rw [escapeHtml_eq]
  intro h
  obtain ⟨c, -, hc⟩ := List.mem_flatMap.1 h
  unfold escapeHtmlChar at hc
  repeat' split at hc
  all_goals simp_all [eq_comm]

/-- **An escaped text is read as it was.** -/
theorem unescapeFrom_escapeHtml {cs : List Char} {n : ℕ} (h : (escapeHtml cs).length ≤ n) :
    unescapeFrom n (escapeHtml cs) = some cs := by
  rw [escapeHtml_eq] at h ⊢
  induction cs generalizing n with
  | nil => cases n <;> rfl
  | cons c cs ih =>
    rw [List.flatMap_cons, List.length_append] at h
    rw [List.flatMap_cons]
    have hpos : 0 < (escapeHtmlChar c).length := by
      unfold escapeHtmlChar
      repeat' split
      all_goals exact Nat.succ_pos _
    obtain ⟨n, rfl⟩ : ∃ k, n = k + 1 := ⟨n - 1, by omega⟩
    have hrest := ih (show (cs.flatMap escapeHtmlChar).length ≤ n by omega)
    have hentity : ∀ (ent : List Char) {d : Char}, entity (ent ++ cs.flatMap escapeHtmlChar) =
        some ([], ent.dropLast, cs.flatMap escapeHtmlChar) →
        decodeEntity [] ent.dropLast = some [d] →
        unescapeFrom (n + 1) ('&' :: (ent ++ cs.flatMap escapeHtmlChar)) = some (d :: cs) :=
      fun ent d hent hdec => by
        rw [unescapeFrom, if_pos rfl, hent]
        dsimp only
        rw [hdec, Option.bind_some, hrest]
        rfl
    by_cases hamp : c = '&'
    · subst hamp
      exact hentity ['a', 'm', 'p', ';'] rfl rfl
    by_cases hquote : c = '"'
    · subst hquote
      exact hentity ['q', 'u', 'o', 't', ';'] rfl rfl
    by_cases hlt : c = '<'
    · subst hlt
      exact hentity ['l', 't', ';'] rfl rfl
    by_cases hgt : c = '>'
    · subst hgt
      exact hentity ['g', 't', ';'] rfl rfl
    rw [escapeHtmlChar, if_neg hamp, if_neg hquote, if_neg hlt, if_neg hgt,
      List.singleton_append, unescapeFrom, if_neg hamp, hrest]
    rfl

/-- Only an opening is a match. -/
theorem clipAttribute_cons {c : Char} (h : c ≠ 'd') (cs : List Char) :
    clipAttribute (c :: cs) = clipAttribute cs := by
  rw [clipAttribute, if_neg]
  rintro ⟨hpre, -⟩
  obtain ⟨t, ht⟩ := hpre
  exact h (List.cons.inj ht).1.symm

theorem clipAttribute_opening {cs : List Char} (h : '"' ∉ cs) (rest : List Char) :
    clipAttribute ("data-monoplan=\"".toList ++ (cs ++ '"' :: rest)) = some cs := by
  have hmem : '"' ∈ cs ++ '"' :: rest := List.mem_append_right _ List.mem_cons_self
  have htake : (cs ++ '"' :: rest).takeWhile (· ≠ '"') = cs := by
    have hall : ∀ c ∈ cs, decide (c ≠ '"') = true := fun c hc => decide_eq_true fun heq =>
      h (heq ▸ hc)
    rw [List.takeWhile_append_of_pos hall, List.takeWhile_cons_of_neg (by simp), List.append_nil]
  show (if "data-monoplan=\"".toList <+: "data-monoplan=\"".toList ++ (cs ++ '"' :: rest) ∧
    '"' ∈ cs ++ '"' :: rest then some ((cs ++ '"' :: rest).takeWhile (· ≠ '"')) else _) = _
  rw [if_pos ⟨List.prefix_append _ _, hmem⟩, htake]

/-- **The reader finds what the writer put there**, whatever it is. -/
theorem clipAttribute_renderClip (write : Double → List Char) (items : List ClipItem) :
    (clipAttribute (renderClip write items).html).bind unescapeHtml =
      some (renderClip write items).json := by
  have hhtml : (renderClip write items).html = '<' :: 'u' :: 'l' :: ' ' ::
      ("data-monoplan=\"".toList ++ (escapeHtml (renderClip write items).json ++ '"' :: ('>' ::
        ((items.flatMap fun it => "<li>".toList ++ escapeHtml it.text.toList ++
          "</li>".toList) ++ "</ul>".toList)))) := by
    simp only [renderClip, List.append_assoc]
    rfl
  rw [hhtml, clipAttribute_cons (by decide), clipAttribute_cons (by decide),
    clipAttribute_cons (by decide), clipAttribute_cons (by decide),
    clipAttribute_opening (quote_notMem_escapeHtml _), Option.bind_some, unescapeHtml,
    unescapeFrom_escapeHtml le_rfl]

/-! ## Items through JSON -/

section Fields

variable {α : Type} {f : α → Json Double} {o : Option α} {k k' : String}

@[simp] theorem lastMember_optional (k k' : String) (f : α → Json Double) (o : Option α) :
    Json.lastMember (optional k' f o) k = if k' = k then o.map f else none := by
  cases o with
  | none => simp [optional]
  | some a => exact Json.lastMember_cons (k', f a) [] k

@[simp] theorem mapMembers_append (g : Double → Double) (ms ms' : List (String × Json Double)) :
    Json.mapMembers g (ms ++ ms') = Json.mapMembers g ms ++ Json.mapMembers g ms' := by
  induction ms with
  | nil => rfl
  | cons m ms ih => rw [List.cons_append, Json.mapMembers, ih, Json.mapMembers]; rfl

@[simp] theorem mapMembers_optional (g : Double → Double) (k : String) (f : α → Json Double)
    (o : Option α) :
    Json.mapMembers g (optional k f o) = optional k (fun a => (f a).mapNum g) o := by
  cases o <;> rfl

theorem allNumMembers_append {p : Double → Prop} {ms ms' : List (String × Json Double)}
    (h : Json.AllNumMembers p ms) (h' : Json.AllNumMembers p ms') :
    Json.AllNumMembers p (ms ++ ms') := by
  induction ms with
  | nil => exact h'
  | cons m ms ih => exact ⟨h.1, ih h.2⟩

theorem allNumMembers_optional {p : Double → Prop} (k : String) (h : ∀ a ∈ o, (f a).AllNum p) :
    Json.AllNumMembers p (optional k f o) := by
  cases o with
  | none => trivial
  | some a => exact ⟨h a rfl, trivial⟩

/-- A text that is there comes back. -/
theorem textField_eq {v : Json Double} {o : Option String} (h : v.field k = o.map .str)
    (hne : o ≠ some "") : textField v k = o := by
  rw [textField, h]
  cases o with
  | none => rfl
  | some s => exact if_neg fun heq => hne (by rw [heq])

end Fields

/-- A place that the store can hold. -/
structure ClipPlace.Held (p : ClipPlace) : Prop where
  label : Doc.trim p.label = p.label ∧ p.label ≠ ""
  address : p.address ≠ some ""
  ref : p.ref ≠ some ""
  coordinates : ∀ q ∈ p.coordinates, q.1.within 90 = true ∧ q.2.within 180 = true

/-- What a place is pasted as. -/
def ClipPlace.asPasted (p : ClipPlace) : Option ClipPlace :=
  if jsTrim p.label = "" then none
  else some { p with coordinates := p.coordinates.map fun q => (q.1.plus, q.2.plus) }

theorem Double.plus_bits (d : Double) : d.plus = d ∨ d = negZero := by
  unfold plus
  split
  · exact .inr ‹_›
  · exact .inl rfl

theorem Double.within_plus {d : Double} {bound : ℚ} (h : d.within bound = true) :
    d.plus.within bound = true := by
  rcases d.plus_bits with heq | rfl
  · rw [heq]
    exact h
  · have hzero : (⟨0⟩ : Double).value = negZero.value := by
      simp [value, negZero, exponent, fraction]
    rw [within, Bool.and_eq_true] at h ⊢
    exact ⟨rfl, hzero ▸ h.2⟩

/-- **A place is pasted** unless its label is blank. -/
theorem parseClipPlace_json {p : ClipPlace} (h : p.Held) :
    parseClipPlace (p.json.mapNum Double.plus) = p.asPasted := by
  have hlabel : (p.json.mapNum Double.plus).field "label" = some (.str p.label) := by
    simp [ClipPlace.json, Json.mapNum, Json.mapMembers, Json.field]
  have hlat : (p.json.mapNum Double.plus).field "lat" =
      p.coordinates.map fun q => .num q.1.plus := by
    simp [ClipPlace.json, Json.mapNum, Json.mapMembers, Json.field]
  have hlon : (p.json.mapNum Double.plus).field "lon" =
      p.coordinates.map fun q => .num q.2.plus := by
    simp [ClipPlace.json, Json.mapNum, Json.mapMembers, Json.field]
  have haddress : (p.json.mapNum Double.plus).field "address" = p.address.map .str := by
    simp [ClipPlace.json, Json.mapNum, Json.mapMembers, Json.field]
  have href : (p.json.mapNum Double.plus).field "ref" = p.ref.map .str := by
    simp [ClipPlace.json, Json.mapNum, Json.mapMembers, Json.field]
  have hcoordinates : parseCoordinates (p.json.mapNum Double.plus) =
      some (p.coordinates.map fun q => (q.1.plus, q.2.plus)) := by
    rw [parseCoordinates, present, present, hlat, hlon]
    rcases hq : p.coordinates with - | q
    · rfl
    · obtain ⟨hlat', hlon'⟩ := h.coordinates q hq
      show (if _ then _ else _) = _
      rw [Double.within_plus hlat', Double.within_plus hlon']
      rfl
  rw [parseClipPlace, hlabel, hcoordinates, textField_eq haddress h.address,
    textField_eq href h.ref]
  rfl

/-- An item that a copy can make of one in the store. -/
structure ClipItem.Held (it : ClipItem) : Prop where
  notes : it.notes ≠ some ""
  deadline : it.deadline ≠ some ""
  when : it.when ≠ some ""
  duration : ∀ d ∈ it.duration, d.isCount = true ∧ it.when.isSome = true
  place : ∀ p ∈ it.place, p.Held

/-- What an item is pasted as. -/
def ClipItem.asPasted (it : ClipItem) : ClipItem :=
  { it with place := it.place.bind ClipPlace.asPasted }

theorem Double.ne_negZero_of_isCount {d : Double} (h : d.isCount = true) : d ≠ negZero := by
  rintro rfl
  exact absurd h (by simp [isCount, value, negZero, exponent, fraction])

theorem Double.plus_of_isCount {d : Double} (h : d.isCount = true) : d.plus = d :=
  if_neg (ne_negZero_of_isCount h)

/-- **An item is pasted**, and loses no more than its place. -/
theorem parseClipItem_json {it : ClipItem} (h : it.Held) :
    parseClipItem (it.json.mapNum Double.plus) = some it.asPasted := by
  have htext : (it.json.mapNum Double.plus).field "text" = some (.str it.text) := by
    simp [ClipItem.json, Json.mapNum, Json.mapMembers, Json.field]
  have hstate : (it.json.mapNum Double.plus).field "state" = some (.str it.state.name) := by
    simp [ClipItem.json, Json.mapNum, Json.mapMembers, Json.field]
  have hnotes : (it.json.mapNum Double.plus).field "notes" = it.notes.map .str := by
    simp [ClipItem.json, Json.mapNum, Json.mapMembers, Json.field]
  have hdeadline : (it.json.mapNum Double.plus).field "deadline" = it.deadline.map .str := by
    simp [ClipItem.json, Json.mapNum, Json.mapMembers, Json.field]
  have hwhen : (it.json.mapNum Double.plus).field "when" = it.when.map .str := by
    simp [ClipItem.json, Json.mapNum, Json.mapMembers, Json.field]
  have hduration : (it.json.mapNum Double.plus).field "duration" =
      it.duration.map fun d => .num d.plus := by
    simp [ClipItem.json, Json.mapNum, Json.mapMembers, Json.field]
  have hplace : (it.json.mapNum Double.plus).field "place" =
      it.place.map fun p => p.json.mapNum Double.plus := by
    simp [ClipItem.json, Json.mapNum, Json.mapMembers, Json.field]
  have hpasted : (it.place.map fun p => p.json.mapNum Double.plus).bind parseClipPlace =
      it.place.bind ClipPlace.asPasted := by
    rcases hp : it.place with - | p
    · rfl
    · exact parseClipPlace_json (h.place p hp)
  rw [parseClipItem, htext, hstate, hduration, hplace, hpasted, textField_eq hnotes h.notes,
    textField_eq hdeadline h.deadline, textField_eq hwhen h.when]
  rcases hd : it.duration with - | d
  · rcases hw : it.when with - | w
    · simp [ClipItem.asPasted, WorkflowState.parseName_name, hd, hw]
    · simp [ClipItem.asPasted, WorkflowState.parseName_name, hd, hw]
  · obtain ⟨hcount, hsome⟩ := h.duration d hd
    obtain ⟨w, hw⟩ := Option.isSome_iff_exists.1 hsome
    simp [ClipItem.asPasted, WorkflowState.parseName_name, hd, hw, Double.plus_of_isCount hcount,
      hcount]

theorem Double.isFinite_of_within {d : Double} {bound : ℚ} (h : d.within bound = true) :
    d.isFinite = true := by
  rw [within, Bool.and_eq_true] at h
  exact h.1

theorem Double.isFinite_of_isCount {d : Double} (h : d.isCount = true) : d.isFinite = true := by
  rw [isCount, Bool.and_eq_true, Bool.and_eq_true] at h
  exact h.1.1

theorem ClipPlace.allNum_json {p : ClipPlace} (h : p.Held) :
    p.json.AllNum fun d => d.isFinite = true := by
  refine allNumMembers_append (allNumMembers_append (allNumMembers_append (allNumMembers_append
    ⟨trivial, trivial⟩ ?_) ?_) ?_) ?_
  · exact allNumMembers_optional _ fun q hq => Double.isFinite_of_within (h.coordinates q hq).1
  · exact allNumMembers_optional _ fun q hq => Double.isFinite_of_within (h.coordinates q hq).2
  · exact allNumMembers_optional _ fun _ _ => trivial
  · exact allNumMembers_optional _ fun _ _ => trivial

theorem ClipItem.allNum_json {it : ClipItem} (h : it.Held) :
    it.json.AllNum fun d => d.isFinite = true := by
  refine allNumMembers_append (allNumMembers_append (allNumMembers_append (allNumMembers_append
    (allNumMembers_append ⟨trivial, trivial, trivial⟩ ?_) ?_) ?_) ?_) ?_
  · exact allNumMembers_optional _ fun _ _ => trivial
  · exact allNumMembers_optional _ fun _ _ => trivial
  · exact allNumMembers_optional _ fun _ _ => trivial
  · exact allNumMembers_optional _ fun d hd => Double.isFinite_of_isCount (h.duration d hd).1
  · exact allNumMembers_optional _ fun p hp => ClipPlace.allNum_json (h.place p hp)

/-! ## The whole payload -/

/-- An item that the store can hold. -/
structure StoreItem.Held (it : StoreItem) : Prop where
  duration : ∀ d ∈ it.duration, d.isCount = true
  place : ∀ p ∈ it.place, p.Held

theorem nonEmpty_ne (s : String) : nonEmpty s ≠ some "" := by
  unfold nonEmpty
  split
  · simp
  · rename_i h
    exact fun heq => h (Option.some.inj heq)

theorem bind_nonEmpty_ne (o : Option String) : o.bind nonEmpty ≠ some "" := by
  cases o with
  | none => simp
  | some s => exact nonEmpty_ne s

theorem toClipItem_held {it : StoreItem} (h : it.Held) : (toClipItem it).Held where
  notes := nonEmpty_ne _
  deadline := bind_nonEmpty_ne _
  when := bind_nonEmpty_ne _
  duration := fun d hd => by
    have hd' : d ∈ if (it.when.bind nonEmpty).isSome then it.duration.filter fun d => d.value ≠ 0
        else none := hd
    split at hd'
    · rename_i hwhen
      exact ⟨h.duration d (Option.filter_eq_some_iff.1 hd').1, hwhen⟩
    · cases hd'
  place := h.place

section Payload

variable {write : Double → List Char} {number : List Char → Option Double}
  (hnum : Json.ReadsNumbers (fun d => d.isFinite = true) Double.plus write number)

include hnum

/-- The payload is read entry by entry. -/
theorem parseClip_renderClip {clips : List ClipItem} (h : ∀ it ∈ clips, it.Held) :
    parseClip number (renderClip write clips).json = some (clips.map ClipItem.asPasted) := by
  have hall : Json.AllNumItems (fun d => d.isFinite = true) (clips.map ClipItem.json) := by
    induction clips with
    | nil => trivial
    | cons it clips ih =>
      exact ⟨ClipItem.allNum_json (h it List.mem_cons_self),
        ih fun x hx => h x (List.mem_cons_of_mem _ hx)⟩
  have hentries : (Json.mapItems Double.plus (clips.map ClipItem.json)).mapM parseClipItem =
      some (clips.map ClipItem.asPasted) := by
    clear hall
    induction clips with
    | nil => rfl
    | cons it clips ih =>
      rw [List.map_cons, Json.mapItems, List.mapM_cons,
        parseClipItem_json (h it List.mem_cons_self),
        ih fun x hx => h x (List.mem_cons_of_mem _ hx)]
      rfl
  have hone : Double.one.isFinite = true := by decide
  have hclip : Json.AllNum (fun d => d.isFinite = true)
      (.obj [("v", .num Double.one), ("items", .arr (clips.map ClipItem.json))]) :=
    ⟨hone, hall, trivial⟩
  have hparse := Json.parse_stringify hnum hclip
  rw [parseClip, renderClip]
  dsimp only
  rw [hparse, Option.bind_some]
  show (if Double.one.plus = .one then (Json.mapItems Double.plus
    (clips.map ClipItem.json)).mapM parseClipItem else none) = _
  rw [if_pos (by decide), hentries]

theorem clipFromHtml_renderClip {clips : List ClipItem} (h : ∀ it ∈ clips, it.Held) :
    clipFromHtml number (renderClip write clips).html = some (clips.map ClipItem.asPasted) := by
  rw [clipFromHtml, clipAttribute_renderClip, Option.bind_some, parseClip_renderClip hnum h]

omit hnum

/-- A place whose label is not blank, and whose coordinates are not `-0`. -/
def ClipPlace.Returns (p : ClipPlace) : Prop :=
  jsTrim p.label ≠ "" ∧ ∀ q ∈ p.coordinates, q.1 ≠ Double.negZero ∧ q.2 ≠ Double.negZero

theorem Double.plus_eq_iff {d : Double} : d.plus = d ↔ d ≠ negZero := by
  unfold plus
  split
  · rename_i h
    rw [h]
    exact iff_of_false (by decide) (by simp)
  · exact iff_of_true rfl ‹_›

theorem ClipPlace.asPasted_eq_iff {p : ClipPlace} : p.asPasted = some p ↔ p.Returns := by
  unfold asPasted Returns
  split
  · rename_i h
    exact iff_of_false (by simp) fun hr => hr.1 h
  · rename_i h
    obtain ⟨label, coordinates, address, ref⟩ := p
    cases coordinates with
    | none => simpa using h
    | some q => simpa [Prod.ext_iff, Double.plus_eq_iff] using fun _ _ => h

theorem ClipItem.asPasted_eq_iff {it : ClipItem} :
    it.asPasted = it ↔ ∀ p ∈ it.place, p.Returns := by
  obtain ⟨text, state, notes, deadline, when, duration, place⟩ := it
  cases place with
  | none => simp [asPasted]
  | some p => simp [asPasted, ClipPlace.asPasted_eq_iff]

/-- **The items come back exactly** where all their places do, and the reader always finds the
payload that the writer put there. -/
theorem clip_roundTrip_iff
    (hnum : Json.ReadsNumbers (fun d => d.isFinite = true) Double.plus write number)
    {items : List StoreItem} (h : ∀ it ∈ items, it.Held) :
    (clipAttribute (renderClip write (items.map toClipItem)).html).bind unescapeHtml =
        some (renderClip write (items.map toClipItem)).json ∧
      ((clipFromHtml number (renderClip write (items.map toClipItem)).html =
            some (items.map toClipItem) ∧
          parseClip number (renderClip write (items.map toClipItem)).json =
            some (items.map toClipItem)) ↔
        ∀ it ∈ items, ∀ p ∈ it.place, p.Returns) := by
  have hheld : ∀ it ∈ items.map toClipItem, it.Held := fun c hc => by
    obtain ⟨it, hit, rfl⟩ := List.mem_map.1 hc
    exact toClipItem_held (h it hit)
  refine ⟨clipAttribute_renderClip write _, ?_⟩
  rw [clipFromHtml_renderClip hnum hheld, parseClip_renderClip hnum hheld, and_self,
    Option.some.injEq, List.map_map]
  constructor
  · intro heq it hit
    exact ClipItem.asPasted_eq_iff.1 (List.map_inj_left.1 heq it hit)
  · intro hreturns
    exact List.map_congr_left fun it hit => ClipItem.asPasted_eq_iff.2 (hreturns it hit)

end Payload

/-- Texts of numbers: those of `0` and `1`, and others that are never read as these. -/
def plainText (d : Double) : List Char :=
  if d = .one then ['1']
  else if d.plus = ⟨0⟩ then ['0']
  else '-' :: List.replicate d.bits.toNat '0'

def plainNumber (cs : List Char) : Option Double :=
  if cs = ['1'] then some .one
  else if cs = ['0'] then some ⟨0⟩
  else some ⟨UInt64.ofNat (cs.length - 1)⟩

theorem readsNumbers_plain :
    Json.ReadsNumbers (fun d => d.isFinite = true) Double.plus plainText plainNumber where
  reads := fun d _ => by
    unfold plainText
    split
    · rename_i h
      rw [h]
      rfl
    split
    · rename_i h
      rw [h]
      rfl
    · rename_i _ hzero
      have hplus : d.plus = d := Double.plus_eq_iff.2 fun heq => hzero (heq ▸ rfl)
      rw [plainNumber, if_neg (by simp), if_neg (by simp), hplus]
      simp
  chars := fun d _ c hc => by
    unfold plainText at hc
    split at hc
    · rw [List.mem_singleton.1 hc]
      rfl
    split at hc
    · rw [List.mem_singleton.1 hc]
      rfl
    · rcases List.mem_cons.1 hc with rfl | hc
      · rfl
      · rw [List.eq_of_mem_replicate hc]
        rfl
  ne_nil := fun d _ => by
    unfold plainText
    repeat' split
    all_goals exact List.cons_ne_nil _ _

/-- A title that looks like the attribute and its end, notes that look like an entity, and a place
at the origin. -/
def quotedItem : StoreItem where
  text := "a\" data-monoplan=\"[]\">\n\\"
  notes := "&amp;quot;&#x10FFFF;<𝄞>"
  state := .inProgress
  deadline := some "2026-10-01"
  when := none
  duration := none
  place := some ⟨"Gulf", some (⟨0⟩, ⟨0⟩), none, some "osm:node/1"⟩

theorem quotedItem_held : quotedItem.Held where
  duration := fun d hd => by cases hd
  place := fun p hp => by
    cases hp
    exact ⟨by decide +kernel, by decide, by decide, fun q hq => by
      cases hq
      decide +kernel⟩

theorem clip_roundTrip_quoted :
    clipFromHtml plainNumber (renderClip plainText ([quotedItem].map toClipItem)).html =
      some ([quotedItem].map toClipItem) := by
  have hheld : ∀ it ∈ [quotedItem], it.Held := fun it hit => by
    rw [List.mem_singleton.1 hit]
    exact quotedItem_held
  refine ((clip_roundTrip_iff readsNumbers_plain hheld).2.2 fun it hit p hp => ?_).1
  rw [List.mem_singleton.1 hit] at hp
  cases hp
  refine ⟨by decide +kernel, fun q hq => ?_⟩
  cases hq
  decide

/-- An item at a place whose label is `U+FEFF`. -/
def markedItem : StoreItem where
  text := "Buy milk"
  notes := ""
  state := .backlog
  deadline := none
  when := none
  duration := none
  place := some ⟨"\uFEFF", none, none, none⟩

/-- It is pasted without its place. -/
theorem clip_roundTrip_fails :
    markedItem.Held ∧
      (clipFromHtml plainNumber (renderClip plainText ([markedItem].map toClipItem)).html).map
          (·.map ClipItem.place) = some [none] ∧
      clipFromHtml plainNumber (renderClip plainText ([markedItem].map toClipItem)).html ≠
        some ([markedItem].map toClipItem) := by
  have hheld : markedItem.Held :=
    { duration := fun d hd => by cases hd
      place := fun p hp => by
        cases hp
        exact ⟨by decide +kernel, by decide, by decide, fun q hq => by cases hq⟩ }
  have hclips : ∀ it ∈ [markedItem].map toClipItem, it.Held := fun it hit => by
    rw [List.mem_singleton.1 hit]
    exact toClipItem_held hheld
  rw [clipFromHtml_renderClip readsNumbers_plain hclips]
  have hblank : jsTrim "\uFEFF" = "" := by decide +kernel
  refine ⟨hheld, ?_, ?_⟩
  · simp [ClipItem.asPasted, ClipPlace.asPasted, toClipItem, markedItem, hblank]
  · simp [ClipItem.asPasted, ClipPlace.asPasted, toClipItem, markedItem, hblank]

end Monoplan.Web
