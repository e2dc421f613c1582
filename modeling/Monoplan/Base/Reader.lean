import Monoplan.Base.Bytes

/-!
# Readers of byte streams

A reader takes a value from the front of a stream, or fails.

* `Exactly short r bs a`: `r` reads `a` from the bytes `bs`, leaves what follows alone, and fails
  with `short` where the stream ends within them.  Readers in sequence read bytes in sequence
  (`Exactly.bind`).
* `Alike n P r r'`: the readers do the same to streams of at most `n` bytes, and what they read has
  a property.  A reader that calls itself behind a byte is compared by it with one that stops.
-/

namespace Monoplan.Base

/-- Take a value from the front of a stream. -/
abbrev Reader (ε : Type) := StateT (List UInt8) (Except ε)

namespace Reader

variable {ε α β : Type} {r r' : Reader ε α} {f : α → Reader ε β} {s s' : List UInt8} {a : α} {b : β}
  {e : ε}

theorem bind_of_ok (h : r s = .ok (a, s')) : (r >>= f) s = f a s' := by
  show (r s >>= fun q => f q.1 q.2) = _
  rw [h]
  rfl

theorem bind_of_error (h : r s = .error e) : (r >>= f) s = .error e := by
  show (r s >>= fun q => f q.1 q.2) = _
  rw [h]
  rfl

/-- A sequence that succeeds does so in both parts. -/
theorem bind_eq_ok {q : β × List UInt8} (h : (r >>= f) s = .ok q) :
    ∃ a s', r s = .ok (a, s') ∧ f a s' = .ok q := by
  cases hr : r s with
  | error e =>
    rw [bind_of_error hr] at h
    cases h
  | ok q =>
    rw [bind_of_ok hr] at h
    exact ⟨q.1, q.2, rfl, h⟩

/-- The next bytes. -/
def bytes (short : ε) (n : ℕ) : Reader ε (List UInt8) := fun s =>
  match takeBytes n s with
  | some q => .ok q
  | none => .error short

/-- The next byte. -/
def byte (short : ε) : Reader ε UInt8
  | [] => .error short
  | b :: s => .ok (b, s)

/-- Values one after the other. -/
def replicate (r : Reader ε α) : ℕ → Reader ε (List α)
  | 0 => pure []
  | n + 1 => do
    let a ← r
    let as ← replicate r n
    pure (a :: as)

/-! ## Reading what was written -/

/-- The reader reads the value from the bytes, and from no part of them. -/
structure Exactly (short : ε) (r : Reader ε α) (bs : List UInt8) (a : α) : Prop where
  reads : ∀ rest, r (bs ++ rest) = .ok (a, rest)
  cut : ∀ p, p <+: bs → p ≠ bs → r p = .error short

namespace Exactly

variable {short : ε} {bs cs : List UInt8}

theorem pure (short : ε) (a : α) : Exactly short (pure a) [] a where
  reads _ := rfl
  cut _ hp hne := absurd (List.prefix_nil.1 hp) hne

theorem bind (h : Exactly short r bs a) (h' : Exactly short (f a) cs b) :
    Exactly short (r >>= f) (bs ++ cs) b where
  reads rest := by
    rw [List.append_assoc, bind_of_ok (h.reads _), h'.reads]
  cut p hp hne := by
    obtain ⟨t, ht⟩ := hp
    rcases List.append_eq_append_iff.1 ht with ⟨q, rfl, -⟩ | ⟨q, rfl, rfl⟩
    · by_cases hall : q = []
      · -- nothing is there of the second part
        subst hall
        have hr := h.reads []
        rw [List.append_nil, List.append_nil] at hr
        rw [bind_of_ok hr]
        exact h'.cut [] List.nil_prefix fun hnil => hne (by rw [← hnil, List.append_nil,
          List.append_nil])
      · refine bind_of_error (h.cut p (List.prefix_append p q) fun heq => hall ?_)
        exact List.append_right_eq_self.1 heq.symm
    · rw [bind_of_ok (h.reads q)]
      exact h'.cut q (List.prefix_append q t) fun heq => hne (by rw [← heq])

/-- A second reader that needs no bytes. -/
theorem bind_nil (h : Exactly short r bs a) (h' : Exactly short (f a) [] b) :
    Exactly short (r >>= f) bs b := by
  have hbind := h.bind h'
  rw [List.append_nil] at hbind
  exact hbind

theorem byte (short : ε) (b : UInt8) : Exactly short (byte short) [b] b where
  reads _ := rfl
  cut p hp hne := by
    cases p with
    | nil => rfl
    | cons c p => exact absurd (hp.eq_of_length_le (by simp)) hne

theorem bytes (short : ε) {n : ℕ} (h : bs.length = n) : Exactly short (bytes short n) bs bs where
  reads rest := by
    rw [Reader.bytes, takeBytes_append h]
  cut p hp hne := by
    have hlt : p.length < n := by
      rw [← h]
      exact Nat.lt_of_not_le fun hle => hne (hp.eq_of_length_le hle)
    rw [Reader.bytes, takeBytes_eq_none hlt]

end Exactly

/-! ## Readers that do the same -/

/-- The readers do the same to streams of at most `n` bytes; what they read has the property, and
the stream behind them is no longer than before. -/
structure Alike (n : ℕ) (P : α → Prop) (r r' : Reader ε α) : Prop where
  agree : ∀ s, s.length ≤ n → r s = r' s
  leaves : ∀ s a s', r s = .ok (a, s') → P a ∧ s'.length ≤ s.length

namespace Alike

variable {short : ε} {n k : ℕ} {P : α → Prop} {Q : β → Prop} {f' : α → Reader ε β}

theorem mono (h : Alike n P r r') (hk : k ≤ n) : Alike k P r r' where
  agree s hs := h.agree s (hs.trans hk)
  leaves := h.leaves

theorem pure (h : P a) : Alike n P (pure a : Reader ε α) (pure a) where
  agree _ _ := rfl
  leaves s a' s' hr := by
    cases hr
    exact ⟨h, le_rfl⟩

theorem throw (e : ε) : Alike n P (throw e : Reader ε α) (throw e) where
  agree _ _ := rfl
  leaves _ _ _ hr := by cases hr

theorem ite {c : Prop} [Decidable c] {t t' : Reader ε α} (h : Alike n P r r')
    (h' : Alike n P t t') : Alike n P (if c then r else t) (if c then r' else t') := by
  split
  · exact h
  · exact h'

theorem bind (h : Alike n P r r') (h' : ∀ a, P a → Alike n Q (f a) (f' a)) :
    Alike n Q (r >>= f) (r' >>= f') where
  agree s hs := by
    cases hr : r s with
    | error e => rw [bind_of_error hr, bind_of_error ((h.agree s hs).symm.trans hr)]
    | ok q =>
      obtain ⟨hP, hlen⟩ := h.leaves s q.1 q.2 hr
      rw [bind_of_ok hr, bind_of_ok ((h.agree s hs).symm.trans hr)]
      exact (h' q.1 hP).agree q.2 (hlen.trans hs)
  leaves s b s' hb := by
    obtain ⟨a, s₁, hr, hf⟩ := bind_eq_ok hb
    obtain ⟨hP, hlen⟩ := h.leaves s a s₁ hr
    obtain ⟨hQ, hlen'⟩ := (h' a hP).leaves s₁ b s' hf
    exact ⟨hQ, hlen'.trans hlen⟩

theorem bytes (short : ε) (k : ℕ) :
    Alike n (fun bs => bs.length = k) (bytes short k) (bytes short k) where
  agree _ _ := rfl
  leaves s bs s' hr := by
    unfold Reader.bytes at hr
    split at hr
    · rename_i q htake
      cases hr
      obtain ⟨rfl, hlen⟩ := takeBytes_eq_some htake
      exact ⟨hlen, by rw [List.length_append]; exact Nat.le_add_left _ _⟩
    · cases hr

theorem replicate (h : Alike n P r r') (k : ℕ) :
    Alike n (fun as => as.length = k ∧ ∀ a ∈ as, P a) (replicate r k) (replicate r' k) := by
  induction k with
  | zero => exact pure ⟨rfl, List.forall_mem_nil _⟩
  | succ k ih =>
    refine h.bind fun a ha => ih.bind fun as has => pure ⟨?_, ?_⟩
    · rw [List.length_cons, has.1]
    · exact List.forall_mem_cons.2 ⟨ha, has.2⟩

/-- Behind a byte the streams are shorter. -/
theorem byte_bind {g g' : UInt8 → Reader ε β} (h : ∀ b, Alike n Q (g b) (g' b)) :
    Alike (n + 1) Q (byte short >>= g) (byte short >>= g') where
  agree s hs := by
    cases s with
    | nil => rfl
    | cons b s => exact (h b).agree s (Nat.le_of_succ_le_succ hs)
  leaves s a s' hr := by
    cases s with
    | nil => cases hr
    | cons b s =>
      obtain ⟨hQ, hlen⟩ := (h b).leaves s a s' hr
      exact ⟨hQ, hlen.trans (Nat.le_succ _)⟩

end Alike

end Reader

end Monoplan.Base
