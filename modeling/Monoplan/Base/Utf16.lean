import Monoplan.Base.Coded

/-!
# UTF-16

* `utf16` are the code units of a character, `fromUtf16Lossy` reads units back and replaces
  every unit without its partner.
* What was encoded reads back (`fromUtf16Lossy_encode`).
* A cut between units is one between characters unless it parts a pair, which shows on either
  side of it (`exists_split_of_not_isHigh`, `exists_split_of_not_isLow`).
* `applyLenient` edits a text of units the way a text buffer does, which does not complain
  about a delta that reaches past the end.  Where the delta fits it agrees with `applyDelta`.
-/

namespace Monoplan.Base

/-! ## Characters and units -/

/-- The first unit of a pair. -/
def isHigh (u : UInt16) : Bool := decide (0xD800 ≤ u.toNat ∧ u.toNat ≤ 0xDBFF)

/-- The second unit of a pair. -/
def isLow (u : UInt16) : Bool := decide (0xDC00 ≤ u.toNat ∧ u.toNat ≤ 0xDFFF)

/-- The units of a character. -/
def utf16 (c : Char) : List UInt16 :=
  if c.toNat < 0x10000 then [UInt16.ofNat c.toNat]
  else
    [UInt16.ofNat (0xD800 + (c.toNat - 0x10000) / 0x400),
      UInt16.ofNat (0xDC00 + (c.toNat - 0x10000) % 0x400)]

/-- What a unit without a partner reads as. -/
def loneUnit (u : UInt16) : Char :=
  if isHigh u || isLow u then Char.ofNat 0xFFFD else Char.ofNat u.toNat

/-- The character of a pair. -/
def pairChar (u v : UInt16) : Char :=
  Char.ofNat (0x10000 + (u.toNat - 0xD800) * 0x400 + (v.toNat - 0xDC00))

/-- `String::from_utf16_lossy`. -/
def fromUtf16Lossy : List UInt16 → List Char
  | [] => []
  | [u] => [loneUnit u]
  | u :: v :: rest =>
    if isHigh u && isLow v then pairChar u v :: fromUtf16Lossy rest
    else loneUnit u :: fromUtf16Lossy (v :: rest)

theorem utf16_ne_nil (c : Char) : utf16 c ≠ [] := by
  unfold utf16
  split <;> simp

theorem fromUtf16Lossy_cons {u : UInt16} (h : isHigh u = false) (rest : List UInt16) :
    fromUtf16Lossy (u :: rest) = loneUnit u :: fromUtf16Lossy rest := by
  cases rest with
  | nil => rfl
  | cons v rest => simp [fromUtf16Lossy, h]

/-- A character is one unit that belongs to no pair, or a pair. -/
theorem utf16_cases (c : Char) :
    (∃ u, utf16 c = [u] ∧ isHigh u = false ∧ isLow u = false ∧ Char.ofNat u.toNat = c) ∨
      ∃ u v, utf16 c = [u, v] ∧ isHigh u = true ∧ isLow v = true ∧ pairChar u v = c := by
  have hvalid : c.toNat < 0xD800 ∨ 0xDFFF < c.toNat ∧ c.toNat < 0x110000 := c.valid
  unfold utf16
  split
  · rename_i hsmall
    have hnat : (UInt16.ofNat c.toNat).toNat = c.toNat := by
      rw [UInt16.toNat_ofNat']
      omega
    refine .inl ⟨_, rfl, ?_, ?_, ?_⟩
    · simp only [isHigh, hnat, decide_eq_false_iff_not]
      omega
    · simp only [isLow, hnat, decide_eq_false_iff_not]
      omega
    · rw [hnat, Char.ofNat_toNat]
  · rename_i hlarge
    have hu : (UInt16.ofNat (0xD800 + (c.toNat - 0x10000) / 0x400)).toNat =
        0xD800 + (c.toNat - 0x10000) / 0x400 := by
      rw [UInt16.toNat_ofNat']
      omega
    have hv : (UInt16.ofNat (0xDC00 + (c.toNat - 0x10000) % 0x400)).toNat =
        0xDC00 + (c.toNat - 0x10000) % 0x400 := by
      rw [UInt16.toNat_ofNat']
      omega
    have hchar : 0x10000 + (0xD800 + (c.toNat - 0x10000) / 0x400 - 0xD800) * 0x400 +
        (0xDC00 + (c.toNat - 0x10000) % 0x400 - 0xDC00) = c.toNat := by
      omega
    refine .inr ⟨_, _, rfl, ?_, ?_, ?_⟩
    · simp only [isHigh, hu, decide_eq_true_eq]
      omega
    · simp only [isLow, hv, decide_eq_true_eq]
      omega
    · rw [pairChar, hu, hv, hchar, Char.ofNat_toNat]

theorem isLow_of_isHigh {u : UInt16} (h : isHigh u = true) : isLow u = false := by
  simp only [isHigh, isLow, decide_eq_true_eq, decide_eq_false_iff_not] at h ⊢
  omega

theorem fromUtf16Lossy_utf16 (c : Char) (rest : List UInt16) :
    fromUtf16Lossy (utf16 c ++ rest) = c :: fromUtf16Lossy rest := by
  rcases utf16_cases c with ⟨u, hc, hhigh, hlow, hchar⟩ | ⟨u, v, hc, hhigh, hlow, hchar⟩
  · rw [hc, List.singleton_append, fromUtf16Lossy_cons hhigh, loneUnit, hhigh, hlow]
    simp [hchar]
  · rw [hc]
    show (if _ then _ else _) = _
    rw [hhigh, hlow, Bool.and_self, if_pos rfl, hchar]
    rfl

/-- What was encoded reads back. -/
theorem fromUtf16Lossy_encode (l : List Char) : fromUtf16Lossy (encode utf16 l) = l := by
  induction l with
  | nil => rfl
  | cons c l ih =>
    show fromUtf16Lossy (utf16 c ++ encode utf16 l) = _
    rw [fromUtf16Lossy_utf16, ih]

theorem encode_utf16_injective {l r : List Char} (h : encode utf16 l = encode utf16 r) : l = r := by
  rw [← fromUtf16Lossy_encode l, h, fromUtf16Lossy_encode]

/-! ## Where characters begin -/

/-- Behind a first unit of a pair comes the second. -/
theorem isLow_after_isHigh {t : List Char} {i : ℕ} {u : UInt16}
    (hu : (encode utf16 t)[i]? = some u) (hhigh : isHigh u = true) :
    ∃ v, (encode utf16 t)[i + 1]? = some v ∧ isLow v = true := by
  induction t generalizing i with
  | nil => cases hu
  | cons c t ih =>
    have hcons : encode utf16 (c :: t) = utf16 c ++ encode utf16 t := rfl
    rw [hcons] at hu ⊢
    rcases utf16_cases c with ⟨w, hc, hw, -, -⟩ | ⟨w, x, hc, -, hx, -⟩
    · rw [hc] at hu ⊢
      cases i with
      | zero =>
        cases hu
        rw [hw] at hhigh
        cases hhigh
      | succ i => exact ih hu
    · rw [hc] at hu ⊢
      cases i with
      | zero => exact ⟨x, rfl, hx⟩
      | succ i =>
        cases i with
        | zero =>
          cases hu
          rw [isLow_of_isHigh hhigh] at hx
          cases hx
        | succ i => exact ih hu

/-- A cut that is not behind a first unit of a pair is between characters. -/
theorem exists_split_of_not_isHigh {t : List Char} {q : ℕ} (hq : q ≤ (encode utf16 t).length)
    (h : ∀ u, 0 < q → (encode utf16 t)[q - 1]? = some u → isHigh u = false) :
    ∃ p s, t = p ++ s ∧ q = unitLength utf16 p := by
  induction t generalizing q with
  | nil => exact ⟨[], [], rfl, Nat.le_zero.1 hq⟩
  | cons c t ih =>
    have hcons : encode utf16 (c :: t) = utf16 c ++ encode utf16 t := rfl
    have hlen : ∀ p, unitLength utf16 (c :: p) = (utf16 c).length + unitLength utf16 p := fun p =>
      List.length_append
    rcases Nat.eq_zero_or_pos q with rfl | hpos
    · exact ⟨[], c :: t, rfl, rfl⟩
    rw [hcons, List.length_append] at hq
    rw [hcons] at h
    have hge : (utf16 c).length ≤ q := by
      rcases utf16_cases c with ⟨w, hc, -, -, -⟩ | ⟨w, x, hc, hw, -, -⟩
      · rw [hc]
        exact hpos
      · rw [hc] at h ⊢
        by_contra hlt
        have hone : q = 1 := by
          simp only [List.length_cons, List.length_nil] at hlt
          omega
        subst hone
        rw [h w hpos rfl] at hw
        cases hw
    obtain ⟨p, s, rfl, hp⟩ := ih (q := q - (utf16 c).length) (by omega) fun u hpos' hu => by
      refine h u hpos ?_
      rw [List.getElem?_append_right (by omega)]
      rw [← hu]
      congr 1
      omega
    refine ⟨c :: p, s, rfl, ?_⟩
    rw [hlen, ← hp]
    omega

/-- A cut that is not in front of a second unit of a pair is between characters. -/
theorem exists_split_of_not_isLow {t : List Char} {q : ℕ} (hq : q ≤ (encode utf16 t).length)
    (h : ∀ u, (encode utf16 t)[q]? = some u → isLow u = false) :
    ∃ p s, t = p ++ s ∧ q = unitLength utf16 p := by
  refine exists_split_of_not_isHigh hq fun u hpos hu => ?_
  by_contra hhigh
  obtain ⟨v, hv, hlow⟩ := isLow_after_isHigh hu (by simpa using hhigh)
  rw [Nat.sub_add_cancel hpos] at hv
  rw [h v hv] at hlow
  cases hlow

/-- Units that begin with those of a text are those of a text that begins with it. -/
theorem exists_split_of_prefix {t k : List Char} {us : List UInt16}
    (h : encode utf16 t = encode utf16 k ++ us) : ∃ r, t = k ++ r := by
  obtain ⟨p, s, rfl, hp⟩ : ∃ p s, t = p ++ s ∧ unitLength utf16 k = unitLength utf16 p := by
    have hle : unitLength utf16 k ≤ (encode utf16 t).length := by
      rw [h, List.length_append]
      exact Nat.le_add_right _ _
    refine exists_split_of_not_isHigh hle fun u hpos hu => ?_
    -- the last unit of `k` has nothing behind it in `k`
    have hlast : unitLength utf16 k - 1 < (encode utf16 k).length := Nat.sub_lt hpos Nat.one_pos
    rw [h, List.getElem?_append_left hlast] at hu
    by_contra hhigh
    obtain ⟨v, hv, -⟩ := isLow_after_isHigh hu (by simpa using hhigh)
    have hend : (encode utf16 k)[unitLength utf16 k]? = none :=
      List.getElem?_eq_none (Nat.le_refl _)
    rw [Nat.sub_add_cancel hpos, hend] at hv
    cases hv
  rw [encode_append] at h
  have hsame : encode utf16 p = encode utf16 k := (List.append_inj h hp.symm).1
  exact ⟨s, by rw [encode_utf16_injective hsame]⟩

theorem not_isLow_head {s : List Char} {u : UInt16} (h : (encode utf16 s)[0]? = some u) :
    isLow u = false := by
  cases s with
  | nil => cases h
  | cons c s =>
    have hcons : encode utf16 (c :: s) = utf16 c ++ encode utf16 s := rfl
    rw [hcons] at h
    rcases utf16_cases c with ⟨w, hc, -, hw, -⟩ | ⟨w, x, hc, hw, -, -⟩
    · rw [hc] at h
      cases h
      exact hw
    · rw [hc] at h
      cases h
      exact isLow_of_isHigh hw

/-- Units that end with those of a text are those of a text that ends with it. -/
theorem exists_split_of_suffix {t s : List Char} {us : List UInt16}
    (h : encode utf16 t = us ++ encode utf16 s) : ∃ l, t = l ++ s := by
  obtain ⟨p, q, rfl, hp⟩ : ∃ p q, t = p ++ q ∧ us.length = unitLength utf16 p := by
    have hle : us.length ≤ (encode utf16 t).length := by
      rw [h, List.length_append]
      exact Nat.le_add_right _ _
    refine exists_split_of_not_isLow hle fun u hu => ?_
    rw [h, List.getElem?_append_right (Nat.le_refl _), Nat.sub_self] at hu
    exact not_isLow_head hu
  rw [encode_append] at h
  have hsame : encode utf16 q = encode utf16 s := (List.append_inj h hp.symm).2
  exact ⟨p, by rw [encode_utf16_injective hsame]⟩

/-! ## Editing a buffer -/

variable {α : Type*}

/-- Edit a buffer; slices past its end are what there is of them. -/
def applyLenient : List α → List (DeltaOp α) → List α
  | rest, [] => rest
  | rest, .retain n :: ops => rest.take n ++ applyLenient (rest.drop n) ops
  | rest, .delete n :: ops => applyLenient (rest.drop n) ops
  | rest, .insert vals :: ops => vals ++ applyLenient rest ops

theorem applyLenient_of_deltaFrom {pre rest r : List α} {pos : ℕ} {ops : List (DeltaOp α)}
    (h : deltaFrom (pre ++ rest) pre.length ops = some (r, pos)) :
    r = pre ++ applyLenient rest ops := by
  induction ops generalizing pre rest with
  | nil => exact (Prod.mk.inj (Option.some.inj h)).1.symm
  | cons op ops ih =>
    obtain ⟨⟨m, q⟩, hstep, h⟩ := Option.bind_eq_some_iff.1 h
    cases op with
    | retain n =>
      simp only [deltaStep, List.length_append] at hstep
      split at hstep
      · obtain ⟨rfl, rfl⟩ := Prod.mk.inj (Option.some.inj hstep)
        have hcut : pre ++ rest = (pre ++ rest.take n) ++ rest.drop n := by
          rw [List.append_assoc, List.take_append_drop]
        have hlen : pre.length + n = (pre ++ rest.take n).length := by
          rw [List.length_append, List.length_take]
          omega
        rw [hcut, hlen] at h
        rw [ih h, List.append_assoc]
        rfl
      · cases hstep
    | delete n =>
      simp only [deltaStep, List.length_append] at hstep
      split at hstep
      · obtain ⟨rfl, rfl⟩ := Prod.mk.inj (Option.some.inj hstep)
        rw [List.take_left, List.drop_append, Nat.add_sub_cancel_left,
          List.drop_of_length_le (Nat.le_add_right _ _), List.nil_append] at h
        exact ih h
      · cases hstep
    | insert vals =>
      simp only [deltaStep, placeRun_append_length] at hstep
      obtain ⟨rfl, rfl⟩ := Prod.mk.inj (Option.some.inj hstep)
      rw [← List.length_append] at h
      rw [ih h, List.append_assoc]
      rfl

/-- A delta that fits does the same to a buffer. -/
theorem applyLenient_eq {l r : List α} {ops : List (DeltaOp α)} (h : applyDelta l ops = some r) :
    applyLenient l ops = r := by
  obtain ⟨⟨m, q⟩, hfrom, rfl⟩ := Option.map_eq_some_iff.1 h
  have hcut : deltaFrom ([] ++ l) ([] : List α).length ops = some (m, q) := hfrom
  exact (applyLenient_of_deltaFrom hcut).symm

end Monoplan.Base
