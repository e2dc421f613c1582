import Mathlib.Algebra.Order.Ring.Int
import Mathlib.Data.String.Basic
import Mathlib.Tactic.IntervalCases
import Mathlib.Tactic.Positivity
import Mathlib.Tactic.Zify
import Monoplan.Base.Reader
import Monoplan.Base.Utf8

/-!
# The MessagePack codec of the menu bar app

The app speaks to the daemon in MessagePack, with a codec of its own.

* `MPValue`, `encode` and `decode`.  A dictionary is the list of its entries in the order of its
  keys, and how texts are normalized to be compared is a parameter.
* `exactly_encode`: the reader reads from the bytes of a value that value, and from no part of them.
* `sound_read`: what is read can be written, and reads the same again.
* `codec_exact`: both put together.
-/

namespace Monoplan.Apple

open Monoplan.Base Reader

inductive MPValue
  | nil
  | bool (b : Bool)
  | int (i : Int64)
  | uint (u : UInt64)
  | double (bitPattern : UInt64)
  | string (s : String)
  | binary (data : List UInt8)
  | array (items : List MPValue)
  | map (entries : List (String × MPValue))

inductive MessagePackError
  | truncated
  | unsupportedType (b : UInt8)
  | nonStringKey
  | invalidUTF8
  | trailingBytes (n : ℕ)
  deriving DecidableEq

open MessagePackError (truncated)

/-! ## Encoding -/

/-- The bit pattern of a signed integer of `k` bytes. -/
def bitPattern (k : ℕ) (i : ℤ) : ℕ := (i % 256 ^ k).toNat

def writeUInt (u : ℕ) : List UInt8 :=
  if u ≤ 0x7f then [UInt8.ofNat u]
  else if u ≤ 0xff then 0xcc :: toBe 1 u
  else if u ≤ 0xffff then 0xcd :: toBe 2 u
  else if u ≤ 0xffffffff then 0xce :: toBe 4 u
  else 0xcf :: toBe 8 u

def writeInt (i : ℤ) : List UInt8 :=
  if 0 ≤ i then writeUInt i.toNat
  else if -32 ≤ i then [UInt8.ofNat (bitPattern 1 i)]
  else if -0x80 ≤ i then 0xd0 :: toBe 1 (bitPattern 1 i)
  else if -0x8000 ≤ i then 0xd1 :: toBe 2 (bitPattern 2 i)
  else if -0x80000000 ≤ i then 0xd2 :: toBe 4 (bitPattern 4 i)
  else 0xd3 :: toBe 8 (bitPattern 8 i)

def writeString (s : String) : List UInt8 :=
  let bytes := utf8 s.toList
  (if bytes.length ≤ 31 then [0xa0 ||| UInt8.ofNat bytes.length]
    else if bytes.length ≤ 255 then 0xd9 :: toBe 1 bytes.length
    else if bytes.length ≤ 65535 then 0xda :: toBe 2 bytes.length
    else 0xdb :: toBe 4 bytes.length) ++ bytes

def writeBinary (data : List UInt8) : List UInt8 :=
  (if data.length ≤ 255 then 0xc4 :: toBe 1 data.length
    else if data.length ≤ 65535 then 0xc5 :: toBe 2 data.length
    else 0xc6 :: toBe 4 data.length) ++ data

/-- The head of a container: the type byte of a short one, and those for counts of two and of four
bytes. -/
def writeCount (short two four : UInt8) (count : ℕ) : List UInt8 :=
  if count ≤ 15 then [short ||| UInt8.ofNat count]
  else if count ≤ 65535 then two :: toBe 2 count
  else four :: toBe 4 count

mutual

/-- `MessagePack.encode`. -/
def encode : MPValue → List UInt8
  | .nil => [0xc0]
  | .bool b => [if b then 0xc3 else 0xc2]
  | .int i => writeInt i.toInt
  | .uint u => writeUInt u.toNat
  | .double d => 0xcb :: toBe 8 d.toNat
  | .string s => writeString s
  | .binary data => writeBinary data
  | .array items => writeCount 0x90 0xdc 0xdd items.length ++ encodeItems items
  | .map entries => writeCount 0x80 0xde 0xdf entries.length ++ encodeEntries entries

def encodeItems : List MPValue → List UInt8
  | [] => []
  | item :: items => encode item ++ encodeItems items

def encodeEntries : List (String × MPValue) → List UInt8
  | [] => []
  | (key, value) :: entries => writeString key ++ (encode value ++ encodeEntries entries)

end

/-! ## Decoding -/

/-- `Reader.be`. -/
def be (k : ℕ) : Reader MessagePackError ℕ := do
  let raw ← bytes truncated k
  pure (ofBe raw)

/-- The signed integer of `k` bytes with the bit pattern. -/
def signed (k n : ℕ) : ℤ := if 2 * n < 256 ^ k then n else n - 256 ^ k

/-- `Reader.string`. -/
def string (n : ℕ) : Reader MessagePackError MPValue := do
  let raw ← bytes truncated n
  match fromUtf8 raw with
  | some cs => pure (.string (String.ofList cs))
  | none => throw .invalidUTF8

/-- `.int` of what is read. -/
def int (k : ℕ) (value : ℕ → ℤ) : Reader MessagePackError MPValue := do
  let n ← be k
  pure (.int (Int64.ofInt (value n)))

def binary (n : ℕ) : Reader MessagePackError MPValue := do
  let raw ← bytes truncated n
  pure (.binary raw)

/-- The bit pattern of `Double(Float(bitPattern: n))`. -/
def widen (n : ℕ) : UInt64 :=
  let exponent := n / 0x800000 % 0x100
  let fraction := n % 0x800000
  let magnitude :=
    if exponent = 0xff then
      -- what is not a number becomes quiet
      0x7ff0000000000000 + (if fraction = 0 then 0 else fraction ||| 0x400000) * 0x20000000
    else if exponent = 0 then
      if fraction = 0 then 0
      else (fraction.log2 + 874) * 0x10000000000000 +
        (fraction - 2 ^ fraction.log2) * 2 ^ (52 - fraction.log2)
    else (exponent + 896) * 0x10000000000000 + fraction * 0x20000000
  UInt64.ofNat (n / 0x80000000 % 2 * 0x8000000000000000 + magnitude)

section Texts

/- Texts are compared by their normal forms. -/
variable (norm : String → String)

/-- `entries[key] = value`: an equal key stays. -/
def assign (key : String) (value : MPValue) :
    List (String × MPValue) → List (String × MPValue)
  | [] => [(key, value)]
  | (k, v) :: entries =>
    if norm key < norm k then (key, value) :: (k, v) :: entries
    else if norm key = norm k then (k, value) :: entries
    else (k, v) :: assign key value entries

/-- The loop of `Reader.map`. -/
def readEntries (read : Reader MessagePackError MPValue) :
    ℕ → List (String × MPValue) → Reader MessagePackError (List (String × MPValue))
  | 0, entries => pure entries
  | n + 1, entries => do
    match ← read with
    | .string key =>
      let value ← read
      readEntries read n (assign norm key value entries)
    | _ => throw .nonStringKey

/-- `Reader.map`. -/
def map (read : Reader MessagePackError MPValue) (n : ℕ) : Reader MessagePackError MPValue := do
  let entries ← readEntries norm read n []
  pure (.map entries)

/-- `Reader.array`. -/
def array (read : Reader MessagePackError MPValue) (n : ℕ) : Reader MessagePackError MPValue := do
  let items ← replicate read n
  pure (.array items)

/-- `Reader.read` behind the first byte, with itself for what is nested. -/
def readBehind (read : Reader MessagePackError MPValue) (b : UInt8) :
    Reader MessagePackError MPValue :=
  if b ≤ 0x7f then pure (.int (Int64.ofInt b.toNat))
  else if 0xe0 ≤ b then pure (.int (Int64.ofInt (signed 1 b.toNat)))
  else if 0x80 ≤ b ∧ b ≤ 0x8f then map norm read (b &&& 0x0f).toNat
  else if 0x90 ≤ b ∧ b ≤ 0x9f then array read (b &&& 0x0f).toNat
  else if 0xa0 ≤ b ∧ b ≤ 0xbf then string (b &&& 0x1f).toNat
  else if b = 0xc0 then pure .nil
  else if b = 0xc2 then pure (.bool false)
  else if b = 0xc3 then pure (.bool true)
  else if b = 0xc4 then be 1 >>= binary
  else if b = 0xc5 then be 2 >>= binary
  else if b = 0xc6 then be 4 >>= binary
  else if b = 0xca then do
    let n ← be 4
    pure (.double (widen n))
  else if b = 0xcb then do
    let n ← be 8
    pure (.double (UInt64.ofNat n))
  else if b = 0xcc then int 1 fun n => n
  else if b = 0xcd then int 2 fun n => n
  else if b = 0xce then int 4 fun n => n
  else if b = 0xcf then do
    let u ← be 8
    pure (if u ≤ 0x7fffffffffffffff then .int (Int64.ofInt u) else .uint (UInt64.ofNat u))
  else if b = 0xd0 then int 1 (signed 1)
  else if b = 0xd1 then int 2 (signed 2)
  else if b = 0xd2 then int 4 (signed 4)
  else if b = 0xd3 then int 8 (signed 8)
  else if b = 0xd9 then be 1 >>= string
  else if b = 0xda then be 2 >>= string
  else if b = 0xdb then be 4 >>= string
  else if b = 0xdc then be 2 >>= array read
  else if b = 0xdd then be 4 >>= array read
  else if b = 0xde then be 2 >>= map norm read
  else if b = 0xdf then be 4 >>= map norm read
  else throw (.unsupportedType b)

/-- `Reader.read`, for at most so many values inside one another.  There are no more than bytes, and
where there are no bytes the first one is missing. -/
def read : ℕ → Reader MessagePackError MPValue
  | 0 => throw truncated
  | depth + 1 => do
    let b ← byte truncated
    readBehind norm (read depth) b

/-- `MessagePack.decode`. -/
def decode (data : List UInt8) : Except MessagePackError MPValue := do
  let q ← read norm data.length data
  if 0 < q.2.length then throw (.trailingBytes q.2.length)
  pure q.1

end Texts

/-! ## Values that can be written -/

section Codec

variable (norm : String → String)

/-- The keys of a dictionary, in their order. -/
def Ascending (entries : List (String × MPValue)) : Prop :=
  (entries.map Prod.fst).Pairwise fun a b => norm a < norm b

/-- A length of four bytes. -/
def FitsLength (n : ℕ) : Prop := n < 256 ^ 4

mutual

/-- The lengths fit 32 bits, and dictionaries have their keys in order. -/
def Fits : MPValue → Prop
  | .string s => FitsLength (utf8 s.toList).length
  | .binary data => FitsLength data.length
  | .array items => FitsLength items.length ∧ FitItems items
  | .map entries => FitsLength entries.length ∧ Ascending norm entries ∧ FitEntries entries
  | _ => True

def FitItems : List MPValue → Prop
  | [] => True
  | item :: items => Fits item ∧ FitItems items

def FitEntries : List (String × MPValue) → Prop
  | [] => True
  | (key, value) :: entries =>
    FitsLength (utf8 key.toList).length ∧ Fits value ∧ FitEntries entries

end

mutual

/-- What a value is read as: an unsigned integer in the range of the signed ones as one of them. -/
def asRead : MPValue → MPValue
  | .uint u =>
    if u.toNat ≤ 0x7fffffffffffffff then .int (Int64.ofInt u.toNat) else .uint u
  | .array items => .array (itemsAsRead items)
  | .map entries => .map (entriesAsRead entries)
  | v => v

def itemsAsRead : List MPValue → List MPValue
  | [] => []
  | item :: items => asRead item :: itemsAsRead items

def entriesAsRead : List (String × MPValue) → List (String × MPValue)
  | [] => []
  | (key, value) :: entries => (key, asRead value) :: entriesAsRead entries

end

/-! ## Numbers -/

variable {norm} {n k depth : ℕ} {i : ℤ} {s : String} {v : MPValue} {b : UInt8}
  {bs cs : List UInt8}

theorem bitPattern_lt (k : ℕ) (i : ℤ) : bitPattern k i < 256 ^ k := by
  have hpos : (0 : ℤ) < 256 ^ k := by positivity
  have hlt := Int.emod_lt_of_pos i hpos
  have hnonneg := Int.emod_nonneg i hpos.ne'
  rw [bitPattern]
  zify
  rw [Int.toNat_of_nonneg hnonneg]
  exact hlt

/-- A signed integer is read from its bit pattern. -/
theorem signed_bitPattern (hlo : -(256 ^ k) ≤ 2 * i) (hhi : 2 * i < 256 ^ k) :
    signed k (bitPattern k i) = i := by
  have hpos : (0 : ℤ) < 256 ^ k := by positivity
  have hpattern : ((bitPattern k i : ℕ) : ℤ) = i % 256 ^ k :=
    Int.toNat_of_nonneg (Int.emod_nonneg i hpos.ne')
  rw [signed]
  rcases Int.lt_or_le i 0 with hneg | hnonneg
  · have hmod : i % 256 ^ k = i + 256 ^ k := by
      rw [← Int.add_emod_right]
      exact Int.emod_eq_of_lt (by omega) (by omega)
    rw [if_neg, hpattern, hmod]
    · omega
    · zify
      omega
  · have hmod : i % 256 ^ k = i := Int.emod_eq_of_lt hnonneg (by omega)
    rw [if_pos, hpattern, hmod]
    zify
    omega

theorem exactly_be (h : n < 256 ^ k) : Exactly truncated (be k) (toBe k n) n := by
  have hbytes := Exactly.bytes truncated (length_toBe k n)
  refine hbytes.bind_nil ?_
  rw [ofBe_toBe h]
  exact .pure truncated n

/-- A type byte in front of what it stands for. -/
theorem exactly_typed {r : Reader MessagePackError MPValue}
    (hb : readBehind norm (read norm depth) b = r) (h : Exactly truncated r bs v) :
    Exactly truncated (read norm (depth + 1)) (b :: bs) v := by
  have hbyte := Exactly.byte truncated b
  rw [← hb] at h
  exact hbyte.bind h

theorem exactly_int {value : ℕ → ℤ} {j : Int64} (h : n < 256 ^ k) (hvalue : value n = j.toInt) :
    Exactly truncated (int k value) (toBe k n) (.int j) := by
  refine (exactly_be h).bind_nil ?_
  rw [hvalue, Int64.ofInt_toInt]
  exact .pure truncated _

theorem exactly_string (h : (utf8 s.toList).length = n) :
    Exactly truncated (string n) (utf8 s.toList) (.string s) := by
  refine (Exactly.bytes truncated h).bind_nil ?_
  rw [fromUtf8_utf8]
  dsimp only
  rw [String.ofList_toList]
  exact .pure truncated _

/-! ## Reading what was written -/

section Written

variable {r : Reader MessagePackError MPValue} {c : ℕ → Reader MessagePackError MPValue}

theorem behind_positive (h : n ≤ 0x7f) :
    readBehind norm r (UInt8.ofNat n) = pure (.int (Int64.ofInt n)) := by
  interval_cases n <;> rfl

theorem behind_negative (norm : String → String)
    (r : Reader MessagePackError MPValue) (hlo : 0xe0 ≤ n) (hhi : n ≤ 0xff) :
    readBehind norm r (UInt8.ofNat n) = pure (.int (Int64.ofInt (signed 1 n))) := by
  interval_cases n <;> rfl

theorem behind_string (h : n ≤ 31) :
    readBehind norm r (0xa0 ||| UInt8.ofNat n) = string n := by
  interval_cases n <;> rfl

theorem behind_array (h : n ≤ 15) :
    readBehind norm r (0x90 ||| UInt8.ofNat n) = array r n := by
  interval_cases n <;> rfl

theorem behind_map (h : n ≤ 15) :
    readBehind norm r (0x80 ||| UInt8.ofNat n) = map norm r n := by
  interval_cases n <;> rfl

theorem exactly_writeUInt (norm : String → String) (depth : ℕ)
    (h : n < 256 ^ 8) :
    Exactly truncated (read norm (depth + 1)) (writeUInt n)
      (if n ≤ 0x7fffffffffffffff then .int (Int64.ofInt n) else .uint (UInt64.ofNat n)) := by
  have hint : ∀ k, n < 256 ^ k → n ≤ 0x7fffffffffffffff → Exactly truncated (int k fun n => n)
      (toBe k n) (if n ≤ 0x7fffffffffffffff then .int (Int64.ofInt n)
        else .uint (UInt64.ofNat n)) := fun k hk hn => by
    rw [if_pos hn]
    exact (exactly_be hk).bind_nil (.pure truncated _)
  unfold writeUInt
  split
  · rename_i hn
    rw [if_pos (by omega)]
    exact exactly_typed (behind_positive hn) (.pure truncated _)
  · split
    · exact exactly_typed (r := int 1 fun n => n) rfl (hint 1 (by omega) (by omega))
    · split
      · exact exactly_typed (r := int 2 fun n => n) rfl (hint 2 (by omega) (by omega))
      · split
        · exact exactly_typed (r := int 4 fun n => n) rfl (hint 4 (by omega) (by omega))
        · exact exactly_typed rfl ((exactly_be h).bind_nil (.pure truncated _))

theorem exactly_writeInt (j : Int64) :
    Exactly truncated (read norm (depth + 1)) (writeInt j.toInt) (.int j) := by
  have hlo := j.le_toInt
  have hhi := j.toInt_lt
  have hint : ∀ k, -(256 ^ k) ≤ 2 * j.toInt → 2 * j.toInt < 256 ^ k →
      Exactly truncated (int k (signed k)) (toBe k (bitPattern k j.toInt)) (.int j) :=
    fun k hlo hhi => exactly_int (bitPattern_lt k _) (signed_bitPattern hlo hhi)
  unfold writeInt
  split
  · rename_i hnonneg
    have hwrite := exactly_writeUInt norm depth (show j.toInt.toNat < 256 ^ 8 by omega)
    rw [if_pos (by omega), Int.toNat_of_nonneg hnonneg, Int64.ofInt_toInt] at hwrite
    exact hwrite
  · split
    · rename_i hneg hfix
      have hpattern := bitPattern_lt 1 j.toInt
      have hlow : 0xe0 ≤ bitPattern 1 j.toInt := by
        rw [bitPattern]
        omega
      have hread := behind_negative norm (read norm depth) hlow (by omega)
      rw [signed_bitPattern (by omega) (by omega), Int64.ofInt_toInt] at hread
      exact exactly_typed hread (.pure truncated _)
    · split
      · exact exactly_typed (r := int 1 (signed 1)) rfl (hint 1 (by omega) (by omega))
      · split
        · exact exactly_typed (r := int 2 (signed 2)) rfl (hint 2 (by omega) (by omega))
        · split
          · exact exactly_typed (r := int 4 (signed 4)) rfl (hint 4 (by omega) (by omega))
          · exact exactly_typed (r := int 8 (signed 8)) rfl (hint 8 (by omega) (by omega))

theorem exactly_writeString (norm : String → String) (depth : ℕ)
    (h : FitsLength (utf8 s.toList).length) :
    Exactly truncated (read norm (depth + 1)) (writeString s) (.string s) := by
  have hlong : ∀ k, (utf8 s.toList).length < 256 ^ k → Exactly truncated (be k >>= string)
      (toBe k (utf8 s.toList).length ++ utf8 s.toList) (.string s) := fun k hk =>
    (exactly_be hk).bind (exactly_string rfl)
  unfold writeString
  dsimp only
  split
  · rename_i hfix
    exact exactly_typed (behind_string hfix) (exactly_string rfl)
  · split
    · exact exactly_typed (r := be 1 >>= string) rfl (hlong 1 (by omega))
    · split
      · exact exactly_typed (r := be 2 >>= string) rfl (hlong 2 (by omega))
      · exact exactly_typed (r := be 4 >>= string) rfl (hlong 4 h)

theorem exactly_writeBinary (h : FitsLength bs.length) :
    Exactly truncated (read norm (depth + 1)) (writeBinary bs) (.binary bs) := by
  have hbinary : ∀ k, bs.length < 256 ^ k → Exactly truncated (be k >>= binary)
      (toBe k bs.length ++ bs) (.binary bs) := fun k hk =>
    (exactly_be hk).bind ((Exactly.bytes truncated rfl).bind_nil (.pure truncated _))
  unfold writeBinary
  split
  · exact exactly_typed (r := be 1 >>= binary) rfl (hbinary 1 (by omega))
  · split
    · exact exactly_typed (r := be 2 >>= binary) rfl (hbinary 2 (by omega))
    · exact exactly_typed (r := be 4 >>= binary) rfl (hbinary 4 h)

/-- The head of a container. -/
theorem exactly_writeCount {short two four : UInt8}
    (hshort : n ≤ 15 →
      readBehind norm (read norm depth) (short ||| UInt8.ofNat n) = c n)
    (htwo : readBehind norm (read norm depth) two = be 2 >>= c)
    (hfour : readBehind norm (read norm depth) four = be 4 >>= c)
    (h : FitsLength n) (hc : Exactly truncated (c n) bs v) :
    Exactly truncated (read norm (depth + 1)) (writeCount short two four n ++ bs) v := by
  unfold writeCount
  split
  · rename_i hn
    exact exactly_typed (hshort hn) hc
  · split
    · exact exactly_typed htwo ((exactly_be (show n < 256 ^ 2 by omega)).bind hc)
    · exact exactly_typed hfour ((exactly_be h).bind hc)

theorem length_writeCount (short two four : UInt8) (n : ℕ) :
    0 < (writeCount short two four n).length := by
  unfold writeCount
  split
  · exact Nat.one_pos
  · split <;> exact Nat.succ_pos _

theorem length_writeUInt (n : ℕ) : 0 < (writeUInt n).length := by
  unfold writeUInt
  split
  · exact Nat.one_pos
  · repeat' split
    all_goals exact Nat.succ_pos _

theorem length_writeInt (i : ℤ) : 0 < (writeInt i).length := by
  unfold writeInt
  split
  · exact length_writeUInt _
  · repeat' split
    all_goals exact Nat.succ_pos _

theorem keys_entriesAsRead (entries : List (String × MPValue)) :
    (entriesAsRead entries).map Prod.fst = entries.map Prod.fst := by
  induction entries with
  | nil => rfl
  | cons entry entries ih => rw [entriesAsRead, List.map_cons, List.map_cons, ih]

/-- A key behind all others goes to the end. -/
theorem assign_last {key : String} {entries : List (String × MPValue)}
    (h : ∀ k ∈ entries.map Prod.fst, norm k < norm key) (value : MPValue) :
    assign norm key value entries = entries ++ [(key, value)] := by
  induction entries with
  | nil => rfl
  | cons entry entries ih =>
    obtain ⟨hentry, hrest⟩ := List.forall_mem_cons.1 h
    rw [assign, if_neg hentry.asymm, if_neg hentry.ne', ih hrest]
    rfl

theorem encode_pos (v : MPValue) : 0 < (encode v).length := by
  cases v with
  | nil => exact Nat.one_pos
  | bool b => exact Nat.one_pos
  | int i => exact length_writeInt _
  | uint u => exact length_writeUInt _
  | double d => exact Nat.succ_pos _
  | string s =>
    rw [encode, writeString, List.length_append]
    refine Nat.add_pos_left ?_ _
    repeat' split
    all_goals exact Nat.succ_pos _
  | binary data =>
    rw [encode, writeBinary, List.length_append]
    refine Nat.add_pos_left ?_ _
    repeat' split
    all_goals exact Nat.succ_pos _
  | array items =>
    rw [encode, List.length_append]
    exact Nat.add_pos_left (length_writeCount _ _ _ _) _
  | map entries =>
    rw [encode, List.length_append]
    exact Nat.add_pos_left (length_writeCount _ _ _ _) _

theorem length_itemsAsRead (items : List MPValue) :
    (itemsAsRead items).length = items.length := by
  induction items with
  | nil => rfl
  | cons item items ih => rw [itemsAsRead, List.length_cons, List.length_cons, ih]

mutual

/-- **A value is read from its bytes**, and from no part of them. -/
theorem exactly_encode (v : MPValue) (h : Fits norm v) {depth : ℕ}
    (hdepth : (encode v).length ≤ depth) :
    Exactly truncated (read norm depth) (encode v) (asRead v) := by
  obtain ⟨d, rfl⟩ : ∃ d, depth = d + 1 :=
    ⟨depth - 1, by have hpos := encode_pos v; omega⟩
  cases v with
  | nil => exact exactly_typed (b := 0xc0) rfl (.pure truncated _)
  | bool b =>
    cases b with
    | false => exact exactly_typed (b := 0xc2) rfl (.pure truncated _)
    | true => exact exactly_typed (b := 0xc3) rfl (.pure truncated _)
  | int i => exact exactly_writeInt i
  | uint u =>
    have hwrite := exactly_writeUInt norm d (show u.toNat < 256 ^ 8 from u.toNat_lt)
    rw [UInt64.ofNat_toNat] at hwrite
    exact hwrite
  | double bits =>
    have hbits := exactly_be (show bits.toNat < 256 ^ 8 from bits.toNat_lt)
    refine exactly_typed (b := 0xcb) rfl (hbits.bind_nil ?_)
    rw [UInt64.ofNat_toNat]
    exact .pure truncated _
  | string s => exact exactly_writeString norm d h
  | binary data => exact exactly_writeBinary h
  | array items =>
    have hcount := length_writeCount 0x90 0xdc 0xdd items.length
    rw [encode, List.length_append] at hdepth
    have hitems := exactly_items items h.2 (show (encodeItems items).length ≤ d by omega)
    exact exactly_writeCount behind_array rfl rfl h.1 (hitems.bind_nil (.pure truncated _))
  | map entries =>
    have hcount := length_writeCount 0x80 0xde 0xdf entries.length
    rw [encode, List.length_append] at hdepth
    have hkeys : Ascending norm ([] ++ entries) := h.2.1
    have hentries := exactly_entries entries h.2.2
      (show (encodeEntries entries).length ≤ d by omega) hkeys
    exact exactly_writeCount behind_map rfl rfl h.1 (hentries.bind_nil (.pure truncated _))

theorem exactly_items (items : List MPValue) (h : FitItems norm items) {depth : ℕ}
    (hdepth : (encodeItems items).length ≤ depth) :
    Exactly truncated (replicate (read norm depth) items.length) (encodeItems items)
      (itemsAsRead items) := by
  cases items with
  | nil => exact .pure truncated []
  | cons item items =>
    rw [encodeItems, List.length_append] at hdepth
    have hitem := exactly_encode item h.1 (show (encode item).length ≤ depth by omega)
    have hitems := exactly_items items h.2 (show (encodeItems items).length ≤ depth by omega)
    exact hitem.bind (hitems.bind_nil (.pure truncated _))

theorem exactly_entries (entries : List (String × MPValue)) (h : FitEntries norm entries)
    {depth : ℕ} (hdepth : (encodeEntries entries).length ≤ depth)
    {acc : List (String × MPValue)} (hkeys : Ascending norm (acc ++ entries)) :
    Exactly truncated (readEntries norm (read norm depth) entries.length acc)
      (encodeEntries entries) (acc ++ entriesAsRead entries) := by
  cases entries with
  | nil =>
    rw [entriesAsRead, List.append_nil]
    exact .pure truncated acc
  | cons entry entries =>
    obtain ⟨key, value⟩ := entry
    rw [encodeEntries, List.length_append, List.length_append] at hdepth
    have hpos := encode_pos value
    obtain ⟨d, rfl⟩ : ∃ d, depth = d + 1 := ⟨depth - 1, by omega⟩
    have hkey := exactly_writeString norm d h.1
    have hvalue := exactly_encode value h.2.1 (show (encode value).length ≤ d + 1 by omega)
    have hlast : ∀ k ∈ acc.map Prod.fst, norm k < norm key := fun k hk => by
      rw [Ascending, List.map_append, List.pairwise_append] at hkeys
      exact hkeys.2.2 k hk key List.mem_cons_self
    have hkeys' : Ascending norm (acc ++ [(key, asRead value)] ++ entries) := by
      rw [Ascending, List.map_append] at hkeys
      rw [Ascending, List.map_append, List.map_append, List.append_assoc]
      exact hkeys
    have hentries := exactly_entries entries h.2.2
      (show (encodeEntries entries).length ≤ d + 1 by omega) hkeys'
    rw [← assign_last hlast, assign_last hlast, List.append_assoc] at hentries
    refine hkey.bind (hvalue.bind ?_)
    rw [assign_last hlast]
    exact hentries

end

end Written

/-! ## What is read can be written -/

section Sound

variable {r r' : Reader MessagePackError MPValue}

/-- The value can be written, and reads the same. -/
def Good (norm : String → String) (v : MPValue) : Prop := Fits norm v ∧ asRead v = v

theorem alike_be (k : ℕ) : Alike n (fun m => m < 256 ^ k) (be k) (be k) :=
  (Alike.bytes truncated k).bind fun raw hraw => .pure (by rw [← hraw]; exact ofBe_lt raw)

theorem good_int (i : Int64) : Good norm (.int i) := ⟨trivial, rfl⟩

theorem alike_int (k : ℕ) (value : ℕ → ℤ) : Alike n (Good norm) (int k value) (int k value) :=
  (alike_be k).bind fun _ _ => .pure (good_int _)

theorem alike_string (h : FitsLength k) : Alike n (Good norm) (string k) (string k) :=
  (Alike.bytes truncated k).bind fun raw hraw => by
    cases hs : fromUtf8 raw with
    | none => exact .throw _
    | some cs =>
      refine .pure ⟨?_, rfl⟩
      rw [Fits, String.toList_ofList, utf8_of_fromUtf8 hs, hraw]
      exact h

theorem alike_binary (h : FitsLength k) : Alike n (Good norm) (binary k) (binary k) :=
  (Alike.bytes truncated k).bind fun raw hraw => .pure ⟨by rw [Fits, hraw]; exact h, rfl⟩

theorem good_items {items : List MPValue} (h : ∀ v ∈ items, Good norm v) :
    FitItems norm items ∧ itemsAsRead items = items := by
  induction items with
  | nil => exact ⟨trivial, rfl⟩
  | cons item items ih =>
    obtain ⟨hitem, hitems⟩ := List.forall_mem_cons.1 h
    exact ⟨⟨hitem.1, (ih hitems).1⟩, by rw [itemsAsRead, hitem.2, (ih hitems).2]⟩

theorem alike_array (hr : Alike n (Good norm) r r') (h : FitsLength k) :
    Alike n (Good norm) (array r k) (array r' k) :=
  (hr.replicate k).bind fun items hitems => .pure <| by
    obtain ⟨hfit, hread⟩ := good_items hitems.2
    exact ⟨⟨by rw [hitems.1]; exact h, hfit⟩, by rw [asRead, hread]⟩

/-- The entries can be written, and read the same. -/
structure GoodEntries (norm : String → String) (count : ℕ) (entries : List (String × MPValue)) :
    Prop where
  count : entries.length ≤ count
  ascending : Ascending norm entries
  fit : FitEntries norm entries
  asRead : entriesAsRead entries = entries

/-- An assignment keeps the keys in order. -/
theorem ascending_assign {entries : List (String × MPValue)} (h : Ascending norm entries)
    (key : String) (value : MPValue) : Ascending norm (assign norm key value entries) ∧
      ∀ k ∈ (assign norm key value entries).map Prod.fst,
        k = key ∨ k ∈ entries.map Prod.fst := by
  induction entries with
  | nil => exact ⟨List.pairwise_singleton _ _, fun k hk => .inl (List.mem_singleton.1 hk)⟩
  | cons entry entries ih =>
    obtain ⟨hfirst, hrest⟩ := List.pairwise_cons.1 h
    obtain ⟨hasc, hkeys⟩ := ih hrest
    rw [assign]
    split
    · rename_i hlt
      refine ⟨List.pairwise_cons.2 ⟨fun k hk => ?_, h⟩, fun k hk => ?_⟩
      · rcases List.mem_cons.1 hk with rfl | hk
        · exact hlt
        · exact hlt.trans (hfirst k hk)
      · exact List.mem_cons.1 hk
    · split
      · exact ⟨h, fun k hk => .inr hk⟩
      · rename_i hnlt hne
        have hgt : norm entry.1 < norm key := lt_of_le_of_ne (le_of_not_gt hnlt) fun heq =>
          hne heq.symm
        refine ⟨List.pairwise_cons.2 ⟨fun k hk => ?_, hasc⟩, fun k hk => ?_⟩
        · rcases hkeys k hk with rfl | hk
          · exact hgt
          · exact hfirst k hk
        · rcases List.mem_cons.1 hk with rfl | hk
          · exact .inr List.mem_cons_self
          · exact (hkeys k hk).imp id (List.mem_cons_of_mem _)

theorem GoodEntries.assign {count : ℕ} {entries : List (String × MPValue)} {key : String}
    {value : MPValue} (h : GoodEntries norm count entries)
    (hkey : FitsLength (utf8 key.toList).length) (hvalue : Good norm value) :
    GoodEntries norm (count + 1) (assign norm key value entries) := by
  obtain ⟨hcount, hasc, hfit, hread⟩ := h
  refine ⟨?_, (ascending_assign hasc key value).1, ?_, ?_⟩
  · clear hasc hfit hread
    induction entries generalizing count with
    | nil => exact Nat.succ_le_succ (Nat.zero_le _)
    | cons entry entries ih =>
      rw [Apple.assign]
      split
      · exact Nat.succ_le_succ hcount
      · split
        · exact hcount.trans (Nat.le_succ _)
        · have hrest := ih (show entries.length ≤ entries.length from le_rfl)
          rw [List.length_cons] at hcount ⊢
          omega
  · clear hasc hcount hread
    induction entries with
    | nil => exact ⟨hkey, hvalue.1, trivial⟩
    | cons entry entries ih =>
      rw [Apple.assign]
      split
      · exact ⟨hkey, hvalue.1, hfit⟩
      · split
        · exact ⟨hfit.1, hvalue.1, hfit.2.2⟩
        · exact ⟨hfit.1, hfit.2.1, ih hfit.2.2⟩
  · clear hasc hcount hfit
    induction entries with
    | nil => rw [Apple.assign, entriesAsRead, hvalue.2]; rfl
    | cons entry entries ih =>
      rw [entriesAsRead, List.cons.injEq, Prod.mk.injEq] at hread
      rw [Apple.assign]
      split
      · rw [entriesAsRead, entriesAsRead, hvalue.2, hread.1.2, hread.2]
      · split
        · rw [entriesAsRead, hvalue.2, hread.2]
        · rw [entriesAsRead, hread.1.2, ih hread.2]

theorem alike_readEntries (hr : Alike n (Good norm) r r') {count : ℕ}
    {entries : List (String × MPValue)} (h : GoodEntries norm count entries) (k : ℕ) :
    Alike n (GoodEntries norm (count + k)) (readEntries norm r k entries)
      (readEntries norm r' k entries) := by
  induction k generalizing count entries with
  | zero => exact .pure h
  | succ k ih =>
    refine hr.bind fun v hv => ?_
    cases v with
    | string key =>
      refine hr.bind fun value hvalue => ?_
      have hrest := ih (h.assign hv.1 hvalue)
      rw [Nat.add_assoc, Nat.add_comm 1 k] at hrest
      exact hrest
    | nil | bool _ | int _ | uint _ | double _ | binary _ | array _ | map _ => exact .throw _

theorem alike_map (hr : Alike n (Good norm) r r') (h : FitsLength k) :
    Alike n (Good norm) (map norm r k) (map norm r' k) := by
  have hempty : GoodEntries norm 0 [] := ⟨le_rfl, List.Pairwise.nil, trivial, rfl⟩
  refine (alike_readEntries hr hempty k).bind fun entries hentries => .pure ?_
  obtain ⟨hcount, hasc, hfit, hread⟩ := hentries
  refine ⟨⟨?_, hasc, hfit⟩, by rw [asRead, hread]⟩
  rw [FitsLength] at h ⊢
  omega

/-- The length of a short value is in its type byte. -/
theorem fits_short (b m : UInt8) : FitsLength (b &&& m).toNat :=
  (UInt8.toNat_lt _).trans (by decide)

theorem alike_readBehind (hr : Alike n (Good norm) r r') (b : UInt8) :
    Alike n (Good norm) (readBehind norm r b) (readBehind norm r' b) := by
  have hlong : ∀ (k : ℕ) {g g' : ℕ → Reader MessagePackError MPValue}, k ≤ 4 →
      (∀ m, FitsLength m → Alike n (Good norm) (g m) (g' m)) →
      Alike n (Good norm) (be k >>= g) (be k >>= g') := fun k _ _ hk hg =>
    (alike_be k).bind fun m hm => hg m (hm.trans_le (Nat.pow_le_pow_right (by decide) hk))
  have hint : ∀ i, Alike n (Good norm) (pure (.int i) : Reader MessagePackError MPValue)
      (pure (.int i)) := fun i => .pure (good_int i)
  unfold readBehind
  refine .ite (hint _) (.ite (hint _) ?_)
  refine .ite (alike_map hr (fits_short b 0x0f)) ?_
  refine .ite (alike_array hr (fits_short b 0x0f)) ?_
  refine .ite (alike_string (fits_short b 0x1f)) ?_
  refine .ite (.pure ⟨trivial, rfl⟩) (.ite (.pure ⟨trivial, rfl⟩) (.ite (.pure ⟨trivial, rfl⟩) ?_))
  refine .ite (hlong 1 (by decide) fun m hm => alike_binary hm) ?_
  refine .ite (hlong 2 (by decide) fun m hm => alike_binary hm) ?_
  refine .ite (hlong 4 (by decide) fun m hm => alike_binary hm) ?_
  refine .ite ((alike_be 4).bind fun _ _ => .pure ⟨trivial, rfl⟩) ?_
  refine .ite ((alike_be 8).bind fun _ _ => .pure ⟨trivial, rfl⟩) ?_
  refine .ite (alike_int 1 _) (.ite (alike_int 2 _) (.ite (alike_int 4 _) ?_))
  refine .ite ((alike_be 8).bind fun u hu => .pure ?_) ?_
  · split
    · exact good_int _
    · -- an unsigned integer is read for a large one only
      rename_i hlarge
      have hu' : (UInt64.ofNat u).toNat = u := UInt64.toNat_ofNat_of_lt' hu
      exact ⟨trivial, by rw [asRead, hu', if_neg hlarge]⟩
  refine .ite (alike_int 1 _) (.ite (alike_int 2 _) (.ite (alike_int 4 _) ?_))
  refine .ite (alike_int 8 _) ?_
  refine .ite (hlong 1 (by decide) fun m hm => alike_string hm) ?_
  refine .ite (hlong 2 (by decide) fun m hm => alike_string hm) ?_
  refine .ite (hlong 4 (by decide) fun m hm => alike_string hm) ?_
  refine .ite (hlong 2 (by decide) fun m hm => alike_array hr hm) ?_
  refine .ite (hlong 4 (by decide) fun m hm => alike_array hr hm) ?_
  refine .ite (hlong 2 (by decide) fun m hm => alike_map hr hm) ?_
  exact .ite (hlong 4 (by decide) fun m hm => alike_map hr hm) (.throw _)

theorem good_read (norm : String → String) (n m : ℕ) :
    Alike n (Good norm) (read norm m) (read norm m) := by
  induction m generalizing n with
  | zero => exact .throw _
  | succ m ih =>
    have hbyte : Alike (n + 1) (Good norm) (read norm (m + 1)) (read norm (m + 1)) :=
      .byte_bind fun b => alike_readBehind (ih n) b
    exact hbyte.mono (Nat.le_succ n)

/-- **The depth does not matter** once it is the length of the stream, and what is read is good. -/
theorem alike_read (norm : String → String) {m : ℕ} (h : n ≤ m) :
    Alike n (Good norm) (read norm m) (read norm n) := by
  induction n generalizing m with
  | zero =>
    refine ⟨fun s hs => ?_, (good_read norm 0 m).leaves⟩
    obtain rfl := List.length_eq_zero_iff.1 (Nat.le_zero.1 hs)
    cases m <;> rfl
  | succ n ih =>
    obtain ⟨m, rfl⟩ : ∃ k, m = k + 1 := ⟨m - 1, by omega⟩
    exact .byte_bind fun b => alike_readBehind (ih (Nat.le_of_succ_le_succ h)) b

end Sound

/-! ## The codec -/

theorem decode_eq_ok {data : List UInt8} :
    decode norm data = .ok v ↔ read norm data.length data = .ok (v, []) := by
  rw [decode]
  rcases read norm data.length data with e | ⟨v', rest⟩
  · constructor <;> intro h <;> cases h
  · cases rest with
    | nil => constructor <;> intro h <;> cases h <;> rfl
    | cons b rest => constructor <;> intro h <;> cases h

/-- What is read from the bytes of a value is read again from the bytes written for it. -/
theorem decode_encode (h : Fits norm v) : decode norm (encode v) = .ok (asRead v) := by
  have hreads := (exactly_encode  v h le_rfl).reads []
  rw [List.append_nil] at hreads
  exact decode_eq_ok.2 hreads

/-- A part of an encoding is too short. -/
theorem decode_cut (h : Fits norm v) {p : List UInt8} (hp : p <+: encode v) (hne : p ≠ encode v) :
    decode norm p = .error truncated := by
  have hcut := (exactly_encode  v h le_rfl).cut p hp hne
  rw [(alike_read norm hp.length_le).agree p le_rfl] at hcut
  rw [decode, hcut]
  rfl

theorem decode_trailing (h : Fits norm v) {extra : List UInt8} (hne : extra ≠ []) :
    decode norm (encode v ++ extra) = .error (.trailingBytes extra.length) := by
  have hdepth : (encode v).length ≤ (encode v ++ extra).length := by
    rw [List.length_append]
    exact Nat.le_add_right _ _
  have hreads := (exactly_encode  v h hdepth).reads extra
  rw [decode, hreads]
  cases extra with
  | nil => exact absurd rfl hne
  | cons b extra => rfl

theorem decode_good {data : List UInt8} (h : decode norm data = .ok v) : Good norm v :=
  ((good_read norm 0 _).leaves data v [] (decode_eq_ok.1 h)).1

/-- **The codec is exact.**  A value whose lengths fit is read from its encoding, with small
unsigned integers as signed ones; a proper prefix of the encoding is truncated and one with more
bytes behind it has trailing bytes; and whatever is read is read again from its own encoding. -/
theorem codec_exact (norm : String → String) :
    (∀ v, Fits norm v →
      decode norm (encode v) = .ok (asRead v) ∧
      (∀ p, p <+: encode v → p ≠ encode v → decode norm p = .error truncated) ∧
      ∀ extra, extra ≠ [] →
        decode norm (encode v ++ extra) = .error (.trailingBytes extra.length)) ∧
    ∀ data v, decode norm data = .ok v → decode norm (encode v) = .ok v := by
  refine ⟨fun v h => ⟨decode_encode h, fun p hp hne => decode_cut h hp hne, fun extra hne =>
    decode_trailing h hne⟩, fun data v h => ?_⟩
  obtain ⟨hfits, hread⟩ := decode_good h
  have hagain := decode_encode  hfits
  rw [hread] at hagain
  exact hagain

/-- A dictionary with a small unsigned integer is read as one with a signed integer, and a `Float`
as a `Double`. -/
theorem codec_exact_dictionary :
    decode id (encode (.map [("id", .uint 7)])) = .ok (.map [("id", .int 7)]) ∧
      decode id (encode (.double (widen 0x3fc00000))) = .ok (.double 0x3ff8000000000000) := by
  have hcodec := codec_exact id
  have hentries : Fits id (.map [("id", .uint 7)]) :=
    ⟨(by norm_num : 1 < 256 ^ 4), List.pairwise_singleton _ _, (by norm_num : 2 < 256 ^ 4), trivial,
      trivial⟩
  have hread := (hcodec.1 _ hentries).1
  have hdouble := hcodec.2 [0xca, 0x3f, 0xc0, 0, 0] (.double (widen 0x3fc00000)) rfl
  exact ⟨hread, hdouble⟩

end Codec

end Monoplan.Apple
