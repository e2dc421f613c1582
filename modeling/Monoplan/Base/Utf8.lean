import Monoplan.Base.Coded

/-!
# UTF-8

* `utf8` are the bytes of a text.  A byte below `128` is a character of its own
  (`exists_split_of_ascii`), and such characters have one byte each (`utf8_of_ascii`).
* `fromUtf8` reads them back.
* `slice` takes a text between two byte positions; it fails where a position is inside a
  character.  Next to a byte below `128` it never does (`slice_append`).
* A text of such characters is ordered by its bytes as by its characters
  (`utf8_lt_of_ascii`).
-/

namespace Monoplan.Base

/-- The bytes of a text. -/
def utf8 (cs : List Char) : List UInt8 := encode String.utf8EncodeChar cs

/-- The text that bytes are; `none` where they are not the bytes of a text. -/
def fromUtf8 (bs : List UInt8) : Option (List Char) :=
  bs.toByteArray.utf8Decode?.map Array.toList

theorem fromUtf8_utf8 (cs : List Char) : fromUtf8 (utf8 cs) = some cs := by
  have hdecode := List.utf8Decode?_utf8Encode (l := cs)
  rw [List.utf8Encode] at hdecode
  rw [fromUtf8, utf8, encode, hdecode]
  rfl

theorem utf8_of_fromUtf8 {bs : List UInt8} {cs : List Char} (h : fromUtf8 bs = some cs) :
    utf8 cs = bs := by
  obtain ⟨a, ha, rfl⟩ := Option.map_eq_some_iff.1 h
  have hsome : bs.toByteArray.utf8Decode?.isSome = true := by rw [ha]; rfl
  have hencode := ByteArray.utf8Encode_get_utf8Decode? (h := hsome)
  simp only [ha, Option.get_some, List.utf8Encode] at hencode
  have hdata := congrArg (fun b => b.data.toList) hencode
  show a.toList.flatMap String.utf8EncodeChar = bs
  simpa only [List.data_toByteArray] using hdata

/-- The character has one byte. -/
def IsAscii (c : Char) : Prop := c.toNat < 128

instance decIsAscii (c : Char) : Decidable (IsAscii c) := inferInstanceAs (Decidable (_ < _))

/-- The text before a byte position and after it; `none` inside a character or past the end. -/
def splitAtByte : ℕ → List Char → Option (List Char × List Char)
  | 0, cs => some ([], cs)
  | _ + 1, [] => none
  | n + 1, c :: cs =>
    if (String.utf8EncodeChar c).length ≤ n + 1 then
      (splitAtByte (n + 1 - (String.utf8EncodeChar c).length) cs).map fun a => (c :: a.1, a.2)
    else none

/-- The text between two byte positions. -/
def slice (lo hi : ℕ) (cs : List Char) : Option (List Char) :=
  (splitAtByte hi cs).bind fun a => (splitAtByte lo a.1).map Prod.snd

@[simp] theorem utf8_nil : utf8 [] = [] := rfl

@[simp] theorem utf8_append (p q : List Char) : utf8 (p ++ q) = utf8 p ++ utf8 q :=
  encode_append _ _ _

theorem utf8_cons (c : Char) (q : List Char) : utf8 (c :: q) = String.utf8EncodeChar c ++ utf8 q :=
  utf8_append [c] q |>.trans (by simp [utf8, encode])

theorem utf8EncodeChar_of_ascii {c : Char} (h : IsAscii c) :
    String.utf8EncodeChar c = [UInt8.ofNat c.toNat] := by
  have hle : c.val.toNat ≤ 127 := Nat.le_of_lt_succ h
  unfold String.utf8EncodeChar
  simp only [hle, if_true]
  rfl

/-- A byte below `128` is the only one of its character. -/
theorem ascii_of_byte_lt {c : Char} {b : UInt8} (hb : b ∈ String.utf8EncodeChar c)
    (hlt : b.toNat < 128) : IsAscii c ∧ b = UInt8.ofNat c.toNat := by
  by_cases h : IsAscii c
  · rw [utf8EncodeChar_of_ascii h, List.mem_singleton] at hb
    exact ⟨h, hb⟩
  · exfalso
    have hgt : ¬ c.val.toNat ≤ 127 := fun hle => h (Nat.lt_succ_of_le hle)
    unfold String.utf8EncodeChar at hb
    simp only [hgt, if_false] at hb
    split at hb
    · simp only [List.mem_cons, List.not_mem_nil, or_false] at hb
      rcases hb with rfl | rfl <;> simp at hlt <;> omega
    · split at hb
      · simp only [List.mem_cons, List.not_mem_nil, or_false] at hb
        rcases hb with rfl | rfl | rfl <;> simp at hlt <;> omega
      · simp only [List.mem_cons, List.not_mem_nil, or_false] at hb
        rcases hb with rfl | rfl | rfl | rfl <;> simp at hlt <;> omega

/-- A text of one-byte characters. -/
theorem utf8_of_ascii {cs : List Char} (h : ∀ c ∈ cs, IsAscii c) :
    utf8 cs = cs.map fun c => UInt8.ofNat c.toNat := by
  induction cs with
  | nil => rfl
  | cons c cs ih =>
    rw [utf8_cons, utf8EncodeChar_of_ascii (h c List.mem_cons_self),
      ih fun d hd => h d (List.mem_cons_of_mem _ hd)]
    rfl

theorem length_utf8_of_ascii {cs : List Char} (h : ∀ c ∈ cs, IsAscii c) :
    (utf8 cs).length = cs.length := by
  rw [utf8_of_ascii h, List.length_map]

/-- A text of bytes below `128` is one of one-byte characters. -/
theorem ascii_of_utf8 {cs : List Char} (h : ∀ b ∈ utf8 cs, b.toNat < 128) :
    ∀ c ∈ cs, IsAscii c := by
  intro c hc
  obtain ⟨b, hb⟩ := List.exists_mem_of_ne_nil _ (String.utf8EncodeChar_ne_nil (c := c))
  exact (ascii_of_byte_lt hb (h b (List.mem_flatMap.2 ⟨c, hc, hb⟩))).1

/-! ## Cutting at a byte -/

theorem splitAtByte_append (p q : List Char) :
    splitAtByte (utf8 p).length (p ++ q) = some (p, q) := by
  induction p with
  | nil => cases q <;> rfl
  | cons c p ih =>
    have hpos : 0 < (String.utf8EncodeChar c).length :=
      List.length_pos_of_ne_nil String.utf8EncodeChar_ne_nil
    have hlen : (utf8 (c :: p)).length =
        ((String.utf8EncodeChar c).length + (utf8 p).length - 1) + 1 := by
      rw [utf8_cons, List.length_append]
      omega
    have hrest : (String.utf8EncodeChar c).length + (utf8 p).length - 1 + 1 -
        (String.utf8EncodeChar c).length = (utf8 p).length := by omega
    rw [hlen, List.cons_append, splitAtByte, if_pos (by omega), hrest, ih]
    rfl

theorem slice_append (p q r : List Char) :
    slice (utf8 p).length (utf8 (p ++ q)).length (p ++ q ++ r) = some q := by
  rw [slice, splitAtByte_append, Option.bind_some, splitAtByte_append, Option.map_some]

/-- A byte below `128` is a character, and the text can be cut on both sides of it. -/
theorem exists_split_of_ascii {cs : List Char} {n : ℕ} {b : UInt8}
    (hb : (utf8 cs)[n]? = some b) (hlt : b.toNat < 128) :
    ∃ p c q, cs = p ++ c :: q ∧ (utf8 p).length = n ∧ IsAscii c ∧ b = UInt8.ofNat c.toNat := by
  induction cs generalizing n with
  | nil => simp at hb
  | cons d cs ih =>
    rw [utf8_cons] at hb
    by_cases hn : n < (String.utf8EncodeChar d).length
    · rw [List.getElem?_append_left hn] at hb
      obtain ⟨hd, hbd⟩ := ascii_of_byte_lt (List.mem_of_getElem? hb) hlt
      have h0 : n = 0 := by
        rw [utf8EncodeChar_of_ascii hd, List.length_singleton] at hn
        omega
      exact ⟨[], d, cs, rfl, h0.symm, hd, hbd⟩
    · rw [List.getElem?_append_right (Nat.le_of_not_lt hn)] at hb
      obtain ⟨p, c, q, hcs, hlen, hc, hbc⟩ := ih hb
      refine ⟨d :: p, c, q, by rw [hcs, List.cons_append], ?_, hc, hbc⟩
      rw [utf8_cons, List.length_append, hlen]
      omega

/-! ## Order -/

theorem ofNat_lt_ofNat {c d : Char} (hc : IsAscii c) (hd : IsAscii d) :
    UInt8.ofNat c.toNat < UInt8.ofNat d.toNat ↔ c < d := by
  have hc' : c.toNat < 128 := hc
  have hd' : d.toNat < 128 := hd
  rw [UInt8.lt_iff_toNat_lt, UInt8.toNat_ofNat', UInt8.toNat_ofNat',
    Nat.mod_eq_of_lt (by omega), Nat.mod_eq_of_lt (by omega)]
  exact UInt32.lt_iff_toNat_lt.symm

theorem ofNat_inj {c d : Char} (hc : IsAscii c) (hd : IsAscii d) :
    UInt8.ofNat c.toNat = UInt8.ofNat d.toNat ↔ c = d := by
  have hc' : c.toNat < 128 := hc
  have hd' : d.toNat < 128 := hd
  refine ⟨fun h => ?_, fun h => h ▸ rfl⟩
  have hnat := congrArg UInt8.toNat h
  rw [UInt8.toNat_ofNat', UInt8.toNat_ofNat', Nat.mod_eq_of_lt (by omega),
    Nat.mod_eq_of_lt (by omega)] at hnat
  exact Char.toNat_inj.1 hnat

/-- **Bytes order such texts as characters do.** -/
theorem utf8_lt_of_ascii {cs ds : List Char} (hcs : ∀ c ∈ cs, IsAscii c)
    (hds : ∀ d ∈ ds, IsAscii d) : utf8 cs < utf8 ds ↔ cs < ds := by
  rw [utf8_of_ascii hcs, utf8_of_ascii hds]
  induction cs generalizing ds with
  | nil =>
    cases ds with
    | nil => exact iff_of_false (List.not_lt_nil _) (List.not_lt_nil _)
    | cons d ds => exact iff_of_true (List.nil_lt_cons _ _) (List.nil_lt_cons _ _)
  | cons c cs ih =>
    cases ds with
    | nil => exact iff_of_false (List.not_lt_nil _) (List.not_lt_nil _)
    | cons d ds =>
      have hc := hcs c List.mem_cons_self
      have hd := hds d List.mem_cons_self
      rw [List.map_cons, List.map_cons, List.cons_lt_cons_iff, List.cons_lt_cons_iff,
        ofNat_lt_ofNat hc hd, ofNat_inj hc hd,
        ih (fun e he => hcs e (List.mem_cons_of_mem _ he))
          (fun e he => hds e (List.mem_cons_of_mem _ he))]

end Monoplan.Base
