import Mathlib.Data.Finset.Image
import Monoplan.Base.Utf16

/-!
# Deltas of an item's notes

The editors of an item's notes and the document talk in deltas that count UTF-16 units.

* `applyNotesDelta` is a local edit: the whole delta is checked against the text first.  A
  checked delta does to the units what it says (`applyNotesDelta_units`).
* `emitNotesDelta` is what a subscribed editor is sent for a change that came from elsewhere.
  It leads from the text the editor was left with to the text of the document, whatever the
  captured diffs say (`emitNotesDelta_edits`).
-/

namespace Monoplan.Doc

open Monoplan.Base

/-- `NotesDeltaOp`: retains and deletes count UTF-16 units. -/
abbrev NotesDeltaOp := DeltaOp Char

/-- `TextDelta`: retains and deletes count characters. -/
abbrev TextDelta := DeltaOp Char

/-- The units of a text. -/
def units (text : List Char) : List UInt16 := encode utf16 text

@[simp] theorem units_nil : units [] = [] := rfl

@[simp] theorem units_append (p s : List Char) : units (p ++ s) = units p ++ units s :=
  encode_append utf16 p s

theorem fromUtf16Lossy_units (text : List Char) : fromUtf16Lossy (units text) = text :=
  fromUtf16Lossy_encode text

theorem units_injective {p s : List Char} (h : units p = units s) : p = s :=
  encode_utf16_injective h

/-- How many units a text has. -/
def utf16Len (text : List Char) : ℕ := unitLength utf16 text

@[simp] theorem length_units (text : List Char) : (units text).length = utf16Len text := rfl

@[simp] theorem utf16Len_nil : utf16Len [] = 0 := rfl

@[simp] theorem utf16Len_append (p s : List Char) :
    utf16Len (p ++ s) = utf16Len p + utf16Len s := unitLength_append utf16 p s

theorem utf16Len_pos {text : List Char} (h : text ≠ []) : 0 < utf16Len text := by
  by_contra hzero
  exact h (eq_nil_of_unitLength utf16_ne_nil (Nat.eq_zero_of_not_pos hzero))

/-- A delta on units. -/
def unitOps (delta : List NotesDeltaOp) : List (DeltaOp UInt16) :=
  delta.map (DeltaOp.units utf16)

/-! ## Local edits -/

/-- Where validation stands: the offsets between characters, the length and the cursor. -/
structure Validation where
  boundaries : Finset ℕ
  total : ℕ
  pos : ℕ

/-- The offsets that begin a character of the text, from `off` on. -/
def startsFrom : ℕ → List Char → Finset ℕ
  | _, [] => ∅
  | off, c :: cs => insert off (startsFrom (off + (utf16 c).length) cs)

namespace Validation

/-- Before the first operation. -/
def start (current : List Char) : Validation where
  boundaries := insert (utf16Len current) (startsFrom 0 current)
  total := utf16Len current
  pos := 0

/-- One operation; `none` rejects the delta. -/
def step (v : Validation) : NotesDeltaOp → Option Validation
  | .retain n => if v.pos + n ≤ v.total then some { v with pos := v.pos + n } else none
  | .delete n =>
    if v.total < v.pos + n then none
    else if v.pos ∉ v.boundaries ∨ v.pos + n ∉ v.boundaries then none
    else some { v with
      boundaries := (v.boundaries.filter fun b => b < v.pos ∨ v.pos + n ≤ b).image fun b =>
        if v.pos + n ≤ b then b - n else b
      total := v.total - n }
  | .insert text =>
    if v.pos ∉ v.boundaries then none
    else some {
      boundaries := (v.boundaries.image fun b => if v.pos ≤ b then b + utf16Len text else b) ∪
        startsFrom v.pos text
      total := v.total + utf16Len text
      pos := v.pos + utf16Len text }

/-- The operations one after the other. -/
def run : Validation → List NotesDeltaOp → Option Validation
  | v, [] => some v
  | v, op :: ops => (v.step op).bind fun v => v.run ops

end Validation

/-- `apply_notes_delta`: the new text, or `none` for a rejected delta. -/
def applyNotesDelta (current : List Char) (delta : List NotesDeltaOp) : Option (List Char) :=
  (Validation.run (.start current) delta).bind fun _ =>
    (applyDelta (units current) (unitOps delta)).map fromUtf16Lossy

/-! ### A checked delta cuts between characters -/

variable {l r t text : List Char} {v v' : Validation} {ops : List NotesDeltaOp} {b n : ℕ}

/-- The offset lies between two characters, or at an end. -/
def Cuts (t : List Char) (b : ℕ) : Prop := ∃ p s, t = p ++ s ∧ b = utf16Len p

theorem mem_startsFrom {off : ℕ} :
    b ∈ startsFrom off t ↔ ∃ p s, t = p ++ s ∧ s ≠ [] ∧ b = off + utf16Len p := by
  induction t generalizing off with
  | nil => simp [startsFrom]
  | cons c t ih =>
    have hlen : ∀ p, utf16Len (c :: p) = (utf16 c).length + utf16Len p := fun p =>
      List.length_append
    rw [startsFrom, Finset.mem_insert, ih]
    constructor
    · rintro (rfl | ⟨p, s, rfl, hs, rfl⟩)
      · exact ⟨[], c :: t, rfl, List.cons_ne_nil _ _, rfl⟩
      · exact ⟨c :: p, s, rfl, hs, by rw [hlen]; omega⟩
    · rintro ⟨p, s, heq, hs, rfl⟩
      cases p with
      | nil => exact .inl rfl
      | cons d p =>
        obtain ⟨rfl, rfl⟩ := List.cons_eq_cons.1 heq
        exact .inr ⟨p, s, rfl, hs, by rw [hlen]; omega⟩

/-- Validation has the offsets and the length of the text. -/
structure Validation.Sees (v : Validation) (t : List Char) : Prop where
  boundaries : ∀ b, b ∈ v.boundaries ↔ Cuts t b
  total : v.total = utf16Len t

theorem Validation.start_sees (t : List Char) : (Validation.start t).Sees t := by
  refine ⟨fun b => ?_, rfl⟩
  rw [start, Finset.mem_insert, mem_startsFrom]
  constructor
  · rintro (rfl | ⟨p, s, heq, -, rfl⟩)
    · exact ⟨t, [], by simp, rfl⟩
    · exact ⟨p, s, heq, Nat.zero_add _⟩
  · rintro ⟨p, s, rfl, rfl⟩
    rcases eq_or_ne s [] with rfl | hs
    · exact .inl (by rw [List.append_nil])
    · exact .inr ⟨p, s, rfl, hs, (Nat.zero_add _).symm⟩

theorem cuts_two (h₁ : Cuts t b) (h₂ : Cuts t (b + n)) :
    ∃ p d s, t = p ++ (d ++ s) ∧ b = utf16Len p ∧ n = utf16Len d := by
  obtain ⟨p, s, rfl, rfl⟩ := h₁
  obtain ⟨q, u, heq, hq⟩ := h₂
  rcases List.append_eq_append_iff.1 heq with ⟨d, rfl, rfl⟩ | ⟨d, rfl, rfl⟩
  · refine ⟨p, d, u, rfl, rfl, ?_⟩
    simp only [utf16Len_append] at hq
    omega
  · refine ⟨q ++ d, [], s, rfl, rfl, ?_⟩
    simp only [utf16Len_append] at hq
    simp only [utf16Len_nil]
    omega

/-- The offsets after a deletion. -/
theorem cuts_deleted (p d s : List Char) :
    Cuts (p ++ s) b ↔ ∃ c, Cuts (p ++ (d ++ s)) c ∧
      (c < utf16Len p ∨ utf16Len p + utf16Len d ≤ c) ∧
      b = if utf16Len p + utf16Len d ≤ c then c - utf16Len d else c := by
  constructor
  · rintro ⟨q, u, heq, rfl⟩
    rcases List.append_eq_append_iff.1 heq with ⟨e, rfl, rfl⟩ | ⟨e, rfl, rfl⟩
    · refine ⟨utf16Len (p ++ (d ++ e)), ⟨p ++ (d ++ e), u, by simp, rfl⟩, .inr ?_, ?_⟩
      · simp only [utf16Len_append]
        omega
      · rw [if_pos (by simp only [utf16Len_append]; omega)]
        simp only [utf16Len_append]
        omega
    · rcases eq_or_ne e [] with rfl | he
      · refine ⟨utf16Len (q ++ [] ++ d), ⟨q ++ [] ++ d, s, by simp, rfl⟩, .inr ?_, ?_⟩
        · simp only [utf16Len_append, le_refl]
        · rw [if_pos (by simp only [utf16Len_append, le_refl])]
          simp only [utf16Len_append, utf16Len_nil]
          omega
      · have hpos := utf16Len_pos he
        refine ⟨utf16Len q, ⟨q, e ++ (d ++ s), by simp, rfl⟩, .inl ?_, ?_⟩
        · simp only [utf16Len_append]
          omega
        · rw [if_neg (by simp only [utf16Len_append]; omega)]
  · rintro ⟨c, ⟨q, u, heq, rfl⟩, hout, rfl⟩
    rw [← List.append_assoc] at heq
    split
    · rename_i hle
      rcases List.append_eq_append_iff.1 heq with ⟨e, rfl, rfl⟩ | ⟨e, hpd, rfl⟩
      · refine ⟨p ++ e, u, by simp, ?_⟩
        simp only [utf16Len_append]
        omega
      · refine ⟨p, s, rfl, ?_⟩
        have hlen : utf16Len p + utf16Len d = utf16Len q + utf16Len e := by
          rw [← utf16Len_append, ← utf16Len_append, hpd]
        omega
    · rename_i hlt
      have hq : utf16Len q < utf16Len p := by omega
      rw [List.append_assoc] at heq
      rcases List.append_eq_append_iff.1 heq with ⟨e, rfl, -⟩ | ⟨e, rfl, rfl⟩
      · rw [utf16Len_append] at hq
        omega
      · exact ⟨q, e ++ s, by simp, rfl⟩

/-- The offsets after an insertion. -/
theorem cuts_inserted (p s : List Char) :
    Cuts (p ++ (text ++ s)) b ↔
      (∃ c, Cuts (p ++ s) c ∧ b = if utf16Len p ≤ c then c + utf16Len text else c) ∨
        b ∈ startsFrom (utf16Len p) text := by
  rw [mem_startsFrom]
  constructor
  · rintro ⟨q, u, heq, rfl⟩
    rcases List.append_eq_append_iff.1 heq with ⟨e, rfl, heq'⟩ | ⟨e, rfl, rfl⟩
    · rcases List.append_eq_append_iff.1 heq' with ⟨f, rfl, rfl⟩ | ⟨f, rfl, rfl⟩
      · refine .inl ⟨utf16Len (p ++ f), ⟨p ++ f, u, by simp, rfl⟩, ?_⟩
        rw [if_pos (by simp only [utf16Len_append]; omega)]
        simp only [utf16Len_append]
        omega
      · rcases eq_or_ne f [] with rfl | hf
        · refine .inl ⟨utf16Len p, ⟨p, s, rfl, rfl⟩, ?_⟩
          rw [if_pos le_rfl]
          simp only [utf16Len_append, utf16Len_nil]
          omega
        · exact .inr ⟨e, f, rfl, hf, utf16Len_append _ _⟩
    · rcases eq_or_ne e [] with rfl | he
      · rcases eq_or_ne text [] with rfl | htext
        · refine .inl ⟨utf16Len q, ⟨q, s, by simp, rfl⟩, ?_⟩
          simp
        · exact .inr ⟨[], text, rfl, htext, by simp⟩
      · have hpos := utf16Len_pos he
        refine .inl ⟨utf16Len q, ⟨q, e ++ s, by simp, rfl⟩, ?_⟩
        rw [if_neg (by simp only [utf16Len_append]; omega)]
  · rintro (⟨c, ⟨q, u, heq, rfl⟩, rfl⟩ | ⟨e, f, rfl, -, rfl⟩)
    · split
      · rename_i hle
        rcases List.append_eq_append_iff.1 heq with ⟨e, rfl, rfl⟩ | ⟨e, rfl, rfl⟩
        · refine ⟨p ++ (text ++ e), u, by simp, ?_⟩
          simp only [utf16Len_append]
          omega
        · have he : e = [] := by
            by_contra hne
            have hpos := utf16Len_pos hne
            rw [utf16Len_append] at hle
            omega
          subst he
          refine ⟨q ++ text, s, by simp, ?_⟩
          simp only [utf16Len_append]
      · rename_i hlt
        rcases List.append_eq_append_iff.1 heq with ⟨e, rfl, rfl⟩ | ⟨e, rfl, rfl⟩
        · rw [utf16Len_append] at hlt
          omega
        · exact ⟨q, e ++ (text ++ s), by simp, rfl⟩
    · exact ⟨p ++ e, f ++ s, by simp, (utf16Len_append _ _).symm⟩

namespace Validation.Sees

/-- One checked operation on the units. -/
theorem step {op : NotesDeltaOp} (h : v.Sees t) (hstep : v.step op = some v') :
    ∃ t', deltaStep (units t) v.pos (op.units utf16) = some (units t', v'.pos) ∧ v'.Sees t' := by
  cases op with
  | retain n =>
    simp only [Validation.step] at hstep
    split at hstep
    · rename_i hle
      cases hstep
      rw [h.total] at hle
      exact ⟨t, if_pos hle, h.boundaries, h.total⟩
    · cases hstep
  | delete n =>
    simp only [Validation.step] at hstep
    split at hstep
    · cases hstep
    split at hstep
    · cases hstep
    rename_i hle hin
    cases hstep
    rw [not_or, not_not, not_not, h.boundaries, h.boundaries] at hin
    obtain ⟨p, d, s, rfl, hp, rfl⟩ := cuts_two hin.1 hin.2
    have htotal := h.total
    simp only [utf16Len_append] at htotal
    refine ⟨p ++ s, ?_, fun b => ?_, ?_⟩
    · have hfits : v.pos + utf16Len d ≤ (units (p ++ (d ++ s))).length := by
        simp only [length_units, utf16Len_append]
        omega
      have htake : (units (p ++ (d ++ s))).take v.pos = units p := by
        rw [hp, units_append]
        exact List.take_left' rfl
      have hdrop : (units (p ++ (d ++ s))).drop (v.pos + utf16Len d) = units s := by
        rw [hp, ← List.append_assoc, units_append]
        exact List.drop_left' (by rw [length_units, utf16Len_append])
      show (if _ then _ else _) = _
      rw [if_pos hfits, htake, hdrop, ← units_append]
    · rw [Finset.mem_image, cuts_deleted p d s]
      refine exists_congr fun c => ?_
      rw [Finset.mem_filter, h.boundaries, hp, and_assoc, eq_comm]
    · show v.total - utf16Len d = _
      rw [utf16Len_append]
      omega
  | insert text =>
    simp only [Validation.step] at hstep
    split at hstep
    · cases hstep
    rename_i hin
    cases hstep
    rw [not_not, h.boundaries] at hin
    obtain ⟨p, s, rfl, hp⟩ := hin
    refine ⟨p ++ (text ++ s), ?_, fun b => ?_, ?_⟩
    · show some (placeRun (units (p ++ s)) v.pos (units text), _) = _
      rw [hp, units_append, ← length_units, placeRun_append_length, List.append_assoc,
        ← units_append, ← units_append]
      rfl
    · rw [Finset.mem_union, Finset.mem_image, cuts_inserted, hp]
      refine or_congr (exists_congr fun c => ?_) Iff.rfl
      rw [h.boundaries, eq_comm]
    · have htotal := h.total
      simp only [utf16Len_append] at htotal ⊢
      show v.total + utf16Len text = _
      omega

/-- All checked operations on the units. -/
theorem run (h : v.Sees t) (hrun : v.run ops = some v') :
    ∃ t', deltaFrom (units t) v.pos (unitOps ops) = some (units t', v'.pos) ∧ v'.Sees t' := by
  induction ops generalizing v t with
  | nil =>
    cases hrun
    exact ⟨t, rfl, h⟩
  | cons op ops ih =>
    obtain ⟨w, hw, hrun⟩ := Option.bind_eq_some_iff.1 hrun
    obtain ⟨t', hstep, hsees⟩ := h.step hw
    obtain ⟨t'', hfrom, hsees'⟩ := ih hsees hrun
    refine ⟨t'', ?_, hsees'⟩
    show (deltaStep (units t) v.pos (op.units utf16)).bind _ = _
    rw [hstep, Option.bind_some]
    exact hfrom

end Validation.Sees

/-- **A local edit** does to the units of the text what its delta says. -/
theorem applyNotesDelta_units {delta : List NotesDeltaOp} (h : applyNotesDelta l delta = some r) :
    applyDelta (units l) (unitOps delta) = some (units r) := by
  obtain ⟨v, hrun, h⟩ := Option.bind_eq_some_iff.1 h
  obtain ⟨t, hfrom, -⟩ := (Validation.start_sees l).run hrun
  have happly : applyDelta (units l) (unitOps delta) = some (units t) := by
    show (deltaFrom (units l) (Validation.start l).pos (unitOps delta)).map Prod.fst = _
    rw [hfrom]
    rfl
  rw [happly, Option.map_some, fromUtf16Lossy_units, Option.some.injEq] at h
  rw [happly, h]

/-- What validation sees after an operation that cuts between characters. -/
theorem Validation.Sees.step_of_edits {op : NotesDeltaOp} {p : List Char}
    (h : v.Sees (p ++ l)) (hpos : v.pos = utf16Len p) (hedits : Edits utf16 l (unitOps [op]) r)
    (hstep : v.step op = some v') : v'.Sees (p ++ r) := by
  obtain ⟨t, hdelta, hsees⟩ := h.step hstep
  obtain ⟨pos, hfrom⟩ := hedits.deltaFrom_eq (units p)
  have hfrom' : (deltaStep (units (p ++ l)) v.pos (op.units utf16)).bind
      (fun q => deltaFrom q.1 q.2 []) = some (units (p ++ r), pos) := by
    rw [hpos, units_append, units_append]
    exact hfrom
  rw [hdelta] at hfrom'
  rw [units_injective (Prod.mk.inj (Option.some.inj hfrom')).1] at hsees
  exact hsees

/-- Where a delta cuts between characters, validation lets it pass. -/
theorem Validation.Sees.run_of_edits {p : List Char} (h : v.Sees (p ++ l))
    (hpos : v.pos = utf16Len p) (hedits : Edits utf16 l (unitOps ops) r) :
    ∃ v', v.run ops = some v' := by
  induction ops generalizing v p l r with
  | nil => exact ⟨v, rfl⟩
  | cons op ops ih =>
    cases op with
    | retain n =>
      obtain ⟨k, l', r', hn, rfl, rfl, hrest⟩ := Edits.retain_inv hedits
      have hn' : n = utf16Len k := hn
      have hstep : v.step (.retain n) = some { v with pos := v.pos + n } := by
        refine if_pos ?_
        rw [hpos, h.total, hn', utf16Len_append, utf16Len_append]
        omega
      have hsees : Validation.Sees { v with pos := v.pos + n } (p ++ k ++ l') := by
        rw [List.append_assoc]
        exact ⟨h.boundaries, h.total⟩
      obtain ⟨v', hv'⟩ := ih hsees (by rw [utf16Len_append, ← hpos, hn']) hrest
      exact ⟨v', by rw [Validation.run, hstep, Option.bind_some, hv']⟩
    | delete n =>
      obtain ⟨k, l', hn, rfl, hrest⟩ := Edits.delete_inv hedits
      have hn' : n = utf16Len k := hn
      have hle : ¬ v.total < v.pos + n := by
        rw [hpos, h.total, hn', utf16Len_append, utf16Len_append]
        omega
      have hin : ¬ (v.pos ∉ v.boundaries ∨ v.pos + n ∉ v.boundaries) := by
        rw [not_or, not_not, not_not, h.boundaries, h.boundaries]
        refine ⟨⟨p, k ++ l', rfl, hpos⟩, p ++ k, l', by rw [List.append_assoc], ?_⟩
        rw [utf16Len_append, hpos, hn']
      obtain ⟨w, hw, hwpos⟩ : ∃ w, v.step (.delete n) = some w ∧ w.pos = v.pos := by
        rw [Validation.step, if_neg hle, if_neg hin]
        exact ⟨_, rfl, rfl⟩
      have hone : Edits utf16 (k ++ l') (unitOps [.delete n]) l' := by
        rw [hn']
        exact .delete k (.done l')
      obtain ⟨v', hv'⟩ := ih (h.step_of_edits hpos hone hw) (hwpos.trans hpos) hrest
      exact ⟨v', by rw [Validation.run, hw, Option.bind_some, hv']⟩
    | insert text =>
      obtain ⟨k, r', hk, rfl, hrest⟩ := Edits.insert_inv hedits
      have hin : ¬ v.pos ∉ v.boundaries := by
        rw [not_not, h.boundaries]
        exact ⟨p, l, rfl, hpos⟩
      obtain ⟨w, hw, hwpos⟩ : ∃ w, v.step (.insert text) = some w ∧
          w.pos = v.pos + utf16Len text := by
        rw [Validation.step, if_neg hin]
        exact ⟨_, rfl, rfl⟩
      have hsees : w.Sees (p ++ text ++ l) := by
        rw [List.append_assoc]
        exact h.step_of_edits hpos (.insert text (.done l)) hw
      obtain ⟨v', hv'⟩ := ih hsees (by rw [hwpos, hpos, utf16Len_append]) hrest
      exact ⟨v', by rw [Validation.run, hw, Option.bind_some, hv']⟩

/-- **A delta that cuts between characters** is not rejected, and does what it says. -/
theorem applyNotesDelta_of_edits {delta : List NotesDeltaOp}
    (h : Edits utf16 l (unitOps delta) r) : applyNotesDelta l delta = some r := by
  obtain ⟨v, hv⟩ := Validation.Sees.run_of_edits (p := []) (Validation.start_sees l) rfl h
  have hunits : applyDelta (units l) (unitOps delta) = some (units r) := h.applyDelta_eq
  rw [applyNotesDelta, hv, Option.bind_some, hunits, Option.map_some, fromUtf16Lossy_units]

/-! ## Changes from elsewhere -/

/-- `utf16_delta_from_scalar`: a captured delta in units, and the text after it; `none` when it
does not fit the text. -/
def utf16DeltaFromScalar : List Char → List TextDelta → Option (List NotesDeltaOp × List Char)
  | pre, [] => some ([], pre)
  | pre, .retain n :: ops =>
    if n ≤ pre.length then
      (utf16DeltaFromScalar (pre.drop n) ops).map fun p =>
        (.retain (utf16Len (pre.take n)) :: p.1, pre.take n ++ p.2)
    else none
  | pre, .delete n :: ops =>
    if n ≤ pre.length then
      (utf16DeltaFromScalar (pre.drop n) ops).map fun p =>
        (.delete (utf16Len (pre.take n)) :: p.1, p.2)
    else none
  | pre, .insert text :: ops =>
    (utf16DeltaFromScalar pre ops).map fun p => (.insert text :: p.1, text ++ p.2)

/-- `replace_delta`. -/
def replaceDelta (pre post : List Char) : List NotesDeltaOp :=
  if pre = post then []
  else
    (if 0 < utf16Len pre then [.delete (utf16Len pre)] else []) ++
      if post = [] then [] else [.insert post]

/-- `compose_utf16_deltas`. -/
def composeUtf16Deltas (a b : List NotesDeltaOp) : List NotesDeltaOp :=
  composeDeltas utf16 fromUtf16Lossy a b

/-- The captured deltas of a frame composed on the shadow text, with the text they lead to;
`none` when one does not fit. -/
def composeCaptured :
    List NotesDeltaOp → List Char → List (List TextDelta) → Option (List NotesDeltaOp × List Char)
  | out, cur, [] => some (out, cur)
  | out, cur, d :: deltas =>
    (utf16DeltaFromScalar cur d).bind fun p =>
      composeCaptured (composeUtf16Deltas out p.1) p.2 deltas

/-- `emit_notes_delta`: the delta for an editor that was left with `shadow`.  Where the captured
deltas are missing or do not lead to the text, the text is replaced. -/
def emitNotesDelta (shadow : List Char) (deltas : List (List TextDelta)) (post : List Char) :
    List NotesDeltaOp :=
  if deltas = [] then replaceDelta shadow post
  else
    match composeCaptured [] shadow deltas with
    | some (out, cur) => if cur = post then out else replaceDelta shadow post
    | none => replaceDelta shadow post

theorem utf16DeltaFromScalar_edits {pre post : List Char} {d : List TextDelta}
    {ops : List NotesDeltaOp} (h : utf16DeltaFromScalar pre d = some (ops, post)) :
    Edits utf16 pre (unitOps ops) post := by
  induction d generalizing pre ops post with
  | nil =>
    cases h
    exact .done pre
  | cons op d ih =>
    cases op with
    | retain n =>
      simp only [utf16DeltaFromScalar] at h
      split at h
      · obtain ⟨⟨ops', post'⟩, hrest, hp⟩ := Option.map_eq_some_iff.1 h
        cases hp
        have hedits := Edits.retain (pre.take n) (ih hrest)
        rw [List.take_append_drop] at hedits
        exact hedits
      · cases h
    | delete n =>
      simp only [utf16DeltaFromScalar] at h
      split at h
      · obtain ⟨⟨ops', post'⟩, hrest, hp⟩ := Option.map_eq_some_iff.1 h
        cases hp
        have hedits := Edits.delete (pre.take n) (ih hrest)
        rw [List.take_append_drop] at hedits
        exact hedits
      · cases h
    | insert text =>
      obtain ⟨⟨ops', post'⟩, hrest, hp⟩ := Option.map_eq_some_iff.1 h
      cases hp
      exact .insert text (ih hrest)

/-- A captured delta in characters does what its conversion says, and neither fits a text that
the other does not fit. -/
theorem deltaFrom_scalar (pre rest : List Char) (d : List TextDelta) :
    (deltaFrom (pre ++ rest) pre.length d).map Prod.fst =
      (utf16DeltaFromScalar rest d).map fun p => pre ++ p.2 := by
  induction d generalizing pre rest with
  | nil => rfl
  | cons op d ih =>
    cases op with
    | retain n =>
      rw [deltaFrom, utf16DeltaFromScalar, deltaStep, List.length_append]
      by_cases hn : n ≤ rest.length
      · have hsplit : pre ++ rest = (pre ++ rest.take n) ++ rest.drop n := by
          rw [List.append_assoc, List.take_append_drop]
        have hlen : pre.length + n = (pre ++ rest.take n).length := by
          rw [List.length_append, List.length_take, Nat.min_eq_left hn]
        rw [if_pos (Nat.add_le_add_left hn _), if_pos hn, Option.bind_some, hsplit, hlen, ih,
          Option.map_map]
        simp [Function.comp_def]
      · rw [if_neg (by omega), if_neg hn]
        rfl
    | delete n =>
      rw [deltaFrom, utf16DeltaFromScalar, deltaStep, List.length_append]
      by_cases hn : n ≤ rest.length
      · have hdrop : (pre ++ rest).drop (pre.length + n) = rest.drop n := by
          rw [List.drop_append, List.drop_eq_nil_of_le (by omega), Nat.add_sub_cancel_left,
            List.nil_append]
        rw [if_pos (Nat.add_le_add_left hn _), if_pos hn, Option.bind_some, List.take_left, hdrop,
          ih, Option.map_map]
        rfl
      · rw [if_neg (by omega), if_neg hn]
        rfl
    | insert text =>
      have hlen : pre.length + text.length = (pre ++ text).length := List.length_append.symm
      rw [deltaFrom, utf16DeltaFromScalar, deltaStep, Option.bind_some, placeRun_append_length,
        hlen, ih, Option.map_map]
      simp [Function.comp_def]

theorem replaceDelta_edits (pre post : List Char) :
    Edits utf16 pre (unitOps (replaceDelta pre post)) post := by
  unfold replaceDelta
  split
  · rename_i heq
    exact heq ▸ .done pre
  · have hinsert : Edits utf16 ([] : List Char)
        (unitOps (if post = [] then [] else [.insert post])) post := by
      split
      · rename_i hnil
        rw [hnil]
        exact .done []
      · have hdone : Edits utf16 ([] : List Char) [] [] := .done []
        have hall := hdone.insert post
        rw [List.append_nil] at hall
        exact hall
    split
    · have hall := Edits.delete pre hinsert
      rw [List.append_nil] at hall
      exact hall
    · rename_i hzero
      have hpre : pre = [] := by
        by_contra hne
        exact hzero (utf16Len_pos hne)
      rw [hpre]
      exact hinsert

theorem composeCaptured_edits {shadow cur post : List Char} {deltas : List (List TextDelta)}
    {out ops : List NotesDeltaOp} (h₀ : Edits utf16 shadow (unitOps out) cur)
    (h : composeCaptured out cur deltas = some (ops, post)) :
    Edits utf16 shadow (unitOps ops) post := by
  induction deltas generalizing out cur with
  | nil =>
    cases h
    exact h₀
  | cons d deltas ih =>
    obtain ⟨⟨ops', cur'⟩, hd, h⟩ := Option.bind_eq_some_iff.1 h
    exact ih (h₀.composeDeltas utf16_ne_nil fromUtf16Lossy_encode
      (utf16DeltaFromScalar_edits hd)) h

/-- **A delta for a subscribed editor** leads from the shadow to the text. -/
theorem emitNotesDelta_edits (shadow : List Char) (deltas : List (List TextDelta))
    (post : List Char) : Edits utf16 shadow (unitOps (emitNotesDelta shadow deltas post)) post := by
  unfold emitNotesDelta
  split
  · exact replaceDelta_edits shadow post
  split
  · rename_i out cur hcomposed
    split
    · rename_i heq
      exact heq ▸ composeCaptured_edits (.done shadow) hcomposed
    · exact replaceDelta_edits shadow post
  · exact replaceDelta_edits shadow post

theorem emitNotesDelta_units (shadow : List Char) (deltas : List (List TextDelta))
    (post : List Char) :
    applyDelta (units shadow) (unitOps (emitNotesDelta shadow deltas post)) =
      some (units post) :=
  (emitNotesDelta_edits shadow deltas post).applyDelta_eq

/-! ## Composition -/

/-- The delta keeps and deletes whole characters of the text. -/
def DeltaFits (t : List Char) (delta : List NotesDeltaOp) : Prop :=
  ∃ r, Edits utf16 t (unitOps delta) r

/-- **Composition** is one delta after the other, and a captured delta does in units what it does
in characters. -/
theorem composeUtf16Deltas_applies {t : List Char} {a b : List NotesDeltaOp} (ha : DeltaFits t a)
    (hb : ∀ u, applyNotesDelta t a = some u → DeltaFits u b) :
    DeltaFits t (composeUtf16Deltas a b) ∧
      (applyNotesDelta t (composeUtf16Deltas a b) =
        (applyNotesDelta t a).bind fun u => applyNotesDelta u b) ∧
      (applyDelta (units t) (unitOps (composeUtf16Deltas a b)) =
        (applyDelta (units t) (unitOps a)).bind fun us => applyDelta us (unitOps b)) ∧
      ∀ d : List TextDelta, (utf16DeltaFromScalar t d).map Prod.snd = applyDelta t d ∧
        ∀ ops post, utf16DeltaFromScalar t d = some (ops, post) → DeltaFits t ops ∧
          applyDelta (units t) (unitOps ops) = some (units post) := by
  obtain ⟨u, hu⟩ := ha
  obtain ⟨v, hv⟩ := hb u (applyNotesDelta_of_edits hu)
  have hcomp : Edits utf16 t (unitOps (composeUtf16Deltas a b)) v :=
    hu.composeDeltas utf16_ne_nil fromUtf16Lossy_encode hv
  refine ⟨⟨v, hcomp⟩, ?_, ?_, fun d => ⟨?_, fun ops post hd => ?_⟩⟩
  · rw [applyNotesDelta_of_edits hcomp, applyNotesDelta_of_edits hu, Option.bind_some,
      applyNotesDelta_of_edits hv]
  · have hu' : applyDelta (units t) (unitOps a) = some (units u) := hu.applyDelta_eq
    have hv' : applyDelta (units u) (unitOps b) = some (units v) := hv.applyDelta_eq
    rw [hu', Option.bind_some, hv']
    exact hcomp.applyDelta_eq
  · exact (deltaFrom_scalar [] t d).symm
  · have hedits := utf16DeltaFromScalar_edits hd
    exact ⟨⟨post, hedits⟩, hedits.applyDelta_eq⟩

/-- An insertion of a pair of units, and a deletion of the pair behind it. -/
theorem composeUtf16Deltas_pairs :
    applyNotesDelta ['a', '😀'] (composeUtf16Deltas [.retain 1, .insert ['🎈']]
      [.retain 3, .delete 2]) = some ['a', '🎈'] := by
  have ha : Edits utf16 ['a', '😀'] (unitOps [.retain 1, .insert ['🎈']]) ['a', '🎈', '😀'] :=
    .retain ['a'] (.insert ['🎈'] (.done ['😀']))
  have hb : Edits utf16 ['a', '🎈', '😀'] (unitOps [.retain 3, .delete 2]) ['a', '🎈'] :=
    .retain ['a', '🎈'] (.delete ['😀'] (.done []))
  have hfits := composeUtf16Deltas_applies (b := [.retain 3, .delete 2]) ⟨_, ha⟩ fun u hu => by
    rw [applyNotesDelta_of_edits ha] at hu
    exact Option.some.inj hu ▸ ⟨_, hb⟩
  rw [hfits.2.1, applyNotesDelta_of_edits ha, Option.bind_some, applyNotesDelta_of_edits hb]

end Monoplan.Doc
