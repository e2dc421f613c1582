import Monoplan.Base.Bytes

/-!
# Frames between the clients and the daemon

A connection carries frames: the length of a payload in four bytes, and the payload.  The codec of
the payload is a parameter.

* `writeFrame` and `readFrame`, and `readFrames`, which reads a connection to its end.
* `readFrames_written`: the values that were written come back, and what follows them decides how
  the connection ends.
* `readFrames_cut_iff`: a stream that is cut ends with a clean goodbye exactly where it is cut
  between two frames, unless it is cut in the length of one: that is taken for a goodbye as well.
-/

namespace Monoplan.Daemon

open Monoplan.Base

def MAX_FRAME : ℕ := 64 * 1024 * 1024

/-- `u32::MAX`. -/
def U32_MAX : ℕ := 4294967295

/-- `FrameError`, without the errors of the socket. -/
inductive FrameError
  | tooLarge (len : ℕ)
  | encode
  | decode
  | closed
  deriving DecidableEq

variable {τ : Type*} (encode : τ → Option (List UInt8)) (decode : List UInt8 → Option τ)

/-- `write_frame`: what goes onto the stream. -/
def writeFrame (value : τ) : Except FrameError (List UInt8) :=
  match encode value with
  | none => .error .encode
  | some payload =>
    if U32_MAX < payload.length then .error (.tooLarge U32_MAX)
    else if MAX_FRAME < payload.length then .error (.tooLarge payload.length)
    else .ok (toBe 4 payload.length ++ payload)

/-- `read_frame`: the value and the rest of the stream.  Nothing is read where the stream ends
within the length. -/
def readFrame (s : List UInt8) : Except FrameError (Option (τ × List UInt8)) :=
  match takeBytes 4 s with
  | none => .ok none
  | some (lenBuf, s) =>
    if MAX_FRAME < ofBe lenBuf then .error (.tooLarge (ofBe lenBuf))
    else
      match takeBytes (ofBe lenBuf) s with
      | none => .error .closed
      | some (payload, s) =>
        match decode payload with
        | none => .error .decode
        | some value => .ok (some (value, s))

/-- A frame that is read has at least its length. -/
theorem readFrame_shorter {s rest : List UInt8} {value : τ}
    (h : readFrame decode s = .ok (some (value, rest))) : rest.length < s.length := by
  unfold readFrame at h
  split at h
  · cases h
  · rename_i lenBuf s₁ htake
    obtain ⟨rfl, hlen⟩ := takeBytes_eq_some htake
    split at h
    · cases h
    · split at h
      · cases h
      · rename_i payload s₂ htake'
        obtain ⟨rfl, -⟩ := takeBytes_eq_some htake'
        split at h
        · cases h
        · cases h
          dsimp only
          rw [List.length_append, List.length_append]
          dsimp only at hlen
          omega

/-- The reader of `serve_conn`: the values it hands over, and the error that it ends with; `none`
is the goodbye of the peer. -/
def readFrames (s : List UInt8) : List τ × Option FrameError :=
  match _h : readFrame decode s with
  | .ok none => ([], none)
  | .ok (some (value, rest)) =>
    let later := readFrames rest
    (value :: later.1, later.2)
  | .error e => ([], some e)
termination_by s.length
decreasing_by exact readFrame_shorter decode _h

section Reading

variable {encode decode} {value : τ} {values : List τ} {f s rest : List UInt8}
  {frames : List (List UInt8)} {e : FrameError}

theorem readFrames_none (h : readFrame decode s = .ok none) : readFrames decode s = ([], none) := by
  rw [readFrames]
  split <;> simp_all

theorem readFrames_some (h : readFrame decode s = .ok (some (value, rest))) :
    readFrames decode s =
      (value :: (readFrames decode rest).1, (readFrames decode rest).2) := by
  rw [readFrames]
  split <;> simp_all

theorem readFrames_error (h : readFrame decode s = .error e) :
    readFrames decode s = ([], some e) := by
  rw [readFrames]
  split <;> simp_all

/-! ### One frame -/

/-- What a frame is made of. -/
theorem writeFrame_eq_ok (h : writeFrame encode value = .ok f) :
    ∃ payload, encode value = some payload ∧ payload.length ≤ MAX_FRAME ∧
      f = toBe 4 payload.length ++ payload := by
  unfold writeFrame at h
  split at h
  · cases h
  · rename_i payload hencode
    split at h
    · cases h
    · split at h
      · cases h
      · rename_i hfits
        cases h
        exact ⟨payload, hencode, Nat.le_of_not_lt hfits, rfl⟩

theorem ofBe_length {n : ℕ} (h : n ≤ MAX_FRAME) : ofBe (toBe 4 n) = n := by
  refine ofBe_toBe ?_
  have hmax : MAX_FRAME < 256 ^ 4 := by decide
  omega

/-- The end of the stream within the length reads as if nothing had come. -/
theorem readFrame_short (h : s.length < 4) : readFrame decode s = .ok none := by
  rw [readFrame, takeBytes_eq_none h]

/-- A written frame is read, and the stream stands behind it. -/
theorem readFrame_written (hexact : ∀ v p, encode v = some p → decode p = some v)
    (h : writeFrame encode value = .ok f) (rest : List UInt8) :
    readFrame decode (f ++ rest) = .ok (some (value, rest)) := by
  obtain ⟨payload, hencode, hfits, rfl⟩ := writeFrame_eq_ok h
  rw [readFrame, List.append_assoc, takeBytes_append (length_toBe 4 _)]
  dsimp only
  rw [ofBe_length hfits, if_neg (Nat.not_lt_of_le hfits), takeBytes_append rfl]
  dsimp only
  rw [hexact value payload hencode]

/-- The end of the stream within the payload is an error. -/
theorem readFrame_cut (h : writeFrame encode value = .ok f) {n : ℕ} (hlen : 4 ≤ n)
    (hn : n < f.length) : readFrame decode (f.take n) = .error .closed := by
  obtain ⟨payload, -, hfits, rfl⟩ := writeFrame_eq_ok h
  rw [List.length_append, length_toBe] at hn
  have htake : (toBe 4 payload.length ++ payload).take n =
      toBe 4 payload.length ++ payload.take (n - 4) := by
    rw [List.take_append, length_toBe, List.take_of_length_le (by rw [length_toBe]; omega)]
  rw [htake, readFrame, takeBytes_append (length_toBe 4 _)]
  dsimp only
  rw [ofBe_length hfits, if_neg (Nat.not_lt_of_le hfits), takeBytes_eq_none]
  rw [List.length_take]
  omega

/-- A length above the limit is an error. -/
theorem readFrame_tooLarge {len : ℕ} (hlarge : MAX_FRAME < len) (hlen : len ≤ U32_MAX)
    (rest : List UInt8) : readFrame decode (toBe 4 len ++ rest) = .error (.tooLarge len) := by
  have hfits : len < 256 ^ 4 := by
    have hmax : U32_MAX < 256 ^ 4 := by decide
    omega
  rw [readFrame, takeBytes_append (length_toBe 4 _)]
  dsimp only
  rw [ofBe_toBe hfits, if_pos hlarge]

/-! ### A whole connection -/

/-- The frames of the values, in their order. -/
def Written (encode : τ → Option (List UInt8)) : List τ → List (List UInt8) → Prop :=
  List.Forall₂ fun value f => writeFrame encode value = .ok f

/-- **What was written comes back**; the rest of the stream is read next. -/
theorem readFrames_written (hexact : ∀ v p, encode v = some p → decode p = some v)
    (h : Written encode values frames) (rest : List UInt8) :
    readFrames decode (frames.flatten ++ rest) =
      (values ++ (readFrames decode rest).1, (readFrames decode rest).2) := by
  induction h with
  | nil => rfl
  | cons hvalue _ ih =>
    rw [List.flatten_cons, List.append_assoc, readFrames_some (readFrame_written hexact hvalue _),
      ih]
    rfl

/-- How many frames a cut leaves whole, and how many bytes of the next one. -/
def wholeFrames : List (List UInt8) → ℕ → ℕ × ℕ
  | [], _ => (0, 0)
  | f :: frames, n =>
    if n < f.length then (0, n)
    else ((wholeFrames frames (n - f.length)).1 + 1, (wholeFrames frames (n - f.length)).2)

/-- How a stream that was cut is read. -/
theorem readFrames_cut (hexact : ∀ v p, encode v = some p → decode p = some v)
    (h : Written encode values frames) (n : ℕ) :
    readFrames decode (frames.flatten.take n) = (values.take (wholeFrames frames n).1,
      if (wholeFrames frames n).2 < 4 then none else some .closed) := by
  induction h generalizing n with
  | nil =>
    rw [List.flatten_nil, List.take_nil, readFrames_none (readFrame_short (by decide))]
    rfl
  | @cons value f values frames hvalue _ ih =>
    rw [List.flatten_cons, List.take_append, wholeFrames]
    split
    · rename_i hlt
      rw [Nat.sub_eq_zero_of_le hlt.le, List.take_zero, List.append_nil]
      dsimp only
      split
      · rename_i hshort
        refine readFrames_none (readFrame_short ?_)
        rw [List.length_take]
        omega
      · rename_i hlong
        exact readFrames_error (readFrame_cut hvalue (Nat.le_of_not_lt hlong) hlt)
    · rename_i hge
      rw [List.take_of_length_le (Nat.le_of_not_lt hge),
        readFrames_some (readFrame_written hexact hvalue _), ih]
      rfl

/-- **A cut is told from a goodbye** wherever it is not within a length. -/
theorem readFrames_cut_iff (hexact : ∀ v p, encode v = some p → decode p = some v)
    (h : Written encode values frames) (n : ℕ) :
    ((readFrames decode (frames.flatten.take n)).1 = values.take (wholeFrames frames n).1 ∧
        ((readFrames decode (frames.flatten.take n)).2 = none ↔ (wholeFrames frames n).2 = 0) ∧
        ∀ len rest, MAX_FRAME < len → len ≤ U32_MAX →
          readFrames decode (frames.flatten ++ (toBe 4 len ++ rest)) =
            (values, some (.tooLarge len))) ↔
      ¬(1 ≤ (wholeFrames frames n).2 ∧ (wholeFrames frames n).2 ≤ 3) := by
  rw [readFrames_cut hexact h]
  dsimp only
  have hends : ((if (wholeFrames frames n).2 < 4 then none else some FrameError.closed) = none ↔
      (wholeFrames frames n).2 = 0) ↔
        ¬(1 ≤ (wholeFrames frames n).2 ∧ (wholeFrames frames n).2 ≤ 3) := by
    split
    · rename_i hshort
      rw [eq_self_iff_true, true_iff]
      omega
    · rename_i hlong
      exact iff_of_true (iff_of_false (by simp) (by omega)) (by omega)
  constructor
  · rintro ⟨-, hgoodbye, -⟩
    exact hends.1 hgoodbye
  · intro hcut
    refine ⟨rfl, hends.2 hcut, fun len rest hlarge hlen => ?_⟩
    rw [readFrames_written hexact h, readFrames_error (readFrame_tooLarge hlarge hlen rest),
      List.append_nil]

/-- A frame whose payload is one byte, the byte being the value. -/
def oneByte : List (List UInt8) := [[0, 0, 0, 1, 7]]

theorem written_oneByte : Written (fun v : List UInt8 => some v) [[7]] oneByte :=
  .cons (by decide) .nil

theorem readFrames_cut_oneByte :
    (readFrames (fun p => some p) (oneByte.flatten.take 4)).2 ≠ none := by
  have hcut := (readFrames_cut_iff (fun _ _ h => h.symm) written_oneByte 4).2 (by decide)
  exact fun hnone => absurd (hcut.2.1.1 hnone) (by decide)

/-- **A stream that ends within the length of a frame** reads as a goodbye. -/
theorem readFrames_goodbye :
    writeFrame (fun v : List UInt8 => some v) [7] = .ok [0, 0, 0, 1, 7] ∧
      readFrames (fun p => some p) ([0, 0, 0, 1, 7].take 2) = ([], none) :=
  ⟨by decide, readFrames_none (readFrame_short (by decide))⟩

end Reading

end Monoplan.Daemon
