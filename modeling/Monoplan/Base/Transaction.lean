import Mathlib.Data.List.Pairwise
import Monoplan.Base.Table

/-!
# Transactions over a checked database

A transaction is a sequence of statements that may fail.  The constraints of the database are
checked after every statement that writes (`checked`), and a transaction that fails, or that
returns without a commit, leaves the database as it was (`transact`).

* `Table.modify`: rows rewritten in place, without touching what the constraints compare.
* `insertRow`, `execute`: the statements that write.
* `bind_eq_some`, `insertRow_eq_some`, `execute_eq_some`: what a transaction that went through
  did, statement by statement.
* `Keeps`: what every statement keeps, the transaction keeps.
* `Does`: a transaction without results either fails or applies a function.
* `Passes`: a transaction that does not fail where `P` holds.
-/

namespace Monoplan.Base

namespace Table

variable {ρ : Type*} {conflict : ρ → ρ → Prop}

/-- `UPDATE … SET`: `f` leaves a row that the statement does not select as it is. -/
def modify (t : Table ρ conflict) (f : ρ → ρ) (hf : ∀ a b, conflict (f a) (f b) → conflict a b) :
    Table ρ conflict where
  rows := t.rows.map f
  unique := t.unique.map f fun _ _ h hc => h (hf _ _ hc)

variable {t t' : Table ρ conflict} {r : ρ}

theorem mem_modify {f : ρ → ρ} {hf : ∀ a b, conflict (f a) (f b) → conflict a b} :
    r ∈ (t.modify f hf).rows ↔ ∃ q ∈ t.rows, f q = r := List.mem_map

theorem mem_delete {p : ρ → Bool} : r ∈ (t.delete p).rows ↔ r ∈ t.rows ∧ p r = false := by
  simp [delete]

theorem delete_delete {p q : ρ → Bool} :
    (t.delete p).delete q = t.delete fun r => p r || q r := by
  simp only [delete, List.filter_filter, Bool.not_or, Bool.and_comm]

theorem delete_eq_self {p : ρ → Bool} (h : ∀ r ∈ t.rows, p r = false) : t.delete p = t := by
  cases t with
  | mk rows unique =>
    simp only [delete, mk.injEq, List.filter_eq_self]
    intro r hr
    rw [h r hr, Bool.not_false]

theorem rows_of_insert [DecidableRel conflict] (h : t.insert r = some t') :
    t'.rows = t.rows ++ [r] ∧ ∀ q ∈ t.rows, ¬conflict q r := by
  unfold insert at h
  split at h
  · cases h
    exact ⟨rfl, ‹_›⟩
  · cases h

theorem mem_of_insert [DecidableRel conflict] (h : t.insert r = some t') {q : ρ} :
    q ∈ t'.rows ↔ q ∈ t.rows ∨ q = r := by
  rw [(rows_of_insert h).1, List.mem_append, List.mem_singleton]

/-- Two rows of a table that agree on what a key compares are one row. -/
theorem eq_of_conflict (hsymm : ∀ a b, conflict a b → conflict b a) {q : ρ} (hr : r ∈ t.rows)
    (hq : q ∈ t.rows) (hc : conflict r q) : r = q := by
  by_contra hne
  have : Std.Symm fun a b => ¬conflict a b := ⟨fun a b h hba => h (hsymm b a hba)⟩
  exact t.unique.forall hr hq hne hc

/-- A selection that only one row meets. -/
theorem select_eq_singleton {p : ρ → Bool} (hr : r ∈ t.rows) (hp : p r = true)
    (hself : conflict r r) (honly : ∀ q ∈ t.rows, p q = true → q = r) : t.select p = [r] := by
  have hall : ∀ q ∈ t.select p, q = r := fun q hq => honly q (mem_select.1 hq).1 (mem_select.1 hq).2
  have hpair := t.unique.filter p
  have hmem : r ∈ t.select p := mem_select.2 ⟨hr, hp⟩
  change List.Pairwise _ (t.select p) at hpair
  generalize t.select p = rows at hall hpair hmem
  rcases rows with _ | ⟨x, _ | ⟨y, rest⟩⟩
  · cases hmem
  · rw [hall x List.mem_cons_self]
  · have hx := hall x List.mem_cons_self
    have hy := hall y (List.mem_cons_of_mem _ List.mem_cons_self)
    rw [hx, hy] at hpair
    exact absurd hself (List.rel_of_pairwise_cons hpair List.mem_cons_self)

end Table

/-! ## Transactions -/

/-- The body of a transaction on a database `δ`: no result where a statement fails. -/
abbrev Transaction (δ α : Type) := StateT δ Option α

/-- How a body returns. -/
inductive Ending (α : Type)
  | commit (a : α)
  /-- The transaction is dropped without a commit. -/
  | rollback (a : α)

variable {δ α γ ρ : Type} {conflict : ρ → ρ → Prop}

/-- Run a transaction: the database afterwards, and what it returned unless it failed. -/
def transact (body : Transaction δ (Ending α)) (d : δ) : δ × Option α :=
  match body d with
  | none => (d, none)
  | some (.commit a, d') => (d', some a)
  | some (.rollback a, _) => (d, some a)

/-- `SELECT`. -/
def query (q : δ → α) : Transaction δ α := fun d => some (q d, d)

/-- A statement that fails. -/
def raise : Transaction δ α := fun _ => none

/-- The constraints hold after a statement. -/
def checked (ok : δ → Prop) [DecidablePred ok] (d : δ) : Option (Unit × δ) :=
  if ok d then some ((), d) else none

/-- `UPDATE` or `DELETE`. -/
def execute (ok : δ → Prop) [DecidablePred ok] (f : δ → δ) : Transaction δ Unit :=
  fun d => checked ok (f d)

/-- `INSERT` into a table of the database. -/
def insertRow (ok : δ → Prop) [DecidablePred ok] [DecidableRel conflict]
    (table : δ → Table ρ conflict) (put : δ → Table ρ conflict → δ) (r : ρ) :
    Transaction δ Unit :=
  fun d => ((table d).insert r).bind fun t => checked ok (put d t)

variable {d d' : δ} {ok : δ → Prop} [DecidablePred ok]

theorem transact_eq_of_none {body : Transaction δ (Ending α)} (h : body d = none) :
    transact body d = (d, none) := by
  rw [transact, h]

theorem transact_eq_of_commit {body : Transaction δ (Ending α)} {a : α}
    (h : body d = some (.commit a, d')) : transact body d = (d', some a) := by
  rw [transact, h]

/-- A transaction either left the database as it was, or committed what its body did. -/
theorem transact_cases {body : Transaction δ (Ending α)} {a : Option α}
    (h : transact body d = (d', a)) :
    d' = d ∧ (a = none ∧ body d = none ∨
        ∃ r e, a = some r ∧ body d = some (.rollback r, e)) ∨
      ∃ r, a = some r ∧ body d = some (.commit r, d') := by
  unfold transact at h
  split at h
  next hb =>
    obtain ⟨rfl, rfl⟩ := Prod.mk.inj h
    exact .inl ⟨rfl, .inl ⟨rfl, hb⟩⟩
  next r e hb =>
    obtain ⟨rfl, rfl⟩ := Prod.mk.inj h
    exact .inr ⟨r, rfl, hb⟩
  next r e hb =>
    obtain ⟨rfl, rfl⟩ := Prod.mk.inj h
    exact .inl ⟨rfl, .inr ⟨r, e, rfl, hb⟩⟩

theorem bind_eq_some {x : Transaction δ α} {f : α → Transaction δ γ} {r : γ × δ} :
    (x >>= f) d = some r ↔ ∃ a e, x d = some (a, e) ∧ f a e = some r := by
  change (x d).bind (fun p => f p.1 p.2) = some r ↔ _
  rw [Option.bind_eq_some_iff]
  exact ⟨fun ⟨p, h, h'⟩ => ⟨p.1, p.2, h, h'⟩, fun ⟨a, e, h, h'⟩ => ⟨(a, e), h, h'⟩⟩

theorem pure_eq_some {a : α} {r : α × δ} :
    (pure a : Transaction δ α) d = some r ↔ r = (a, d) := by
  change some (a, d) = some r ↔ _
  rw [Option.some.injEq, eq_comm]

theorem query_eq_some {q : δ → α} {r : α × δ} : query q d = some r ↔ r = (q d, d) := by
  rw [query, Option.some.injEq, eq_comm]

theorem query_bind {q : δ → α} {f : α → Transaction δ γ} {r : γ × δ} :
    (query q >>= f) d = some r ↔ f (q d) d = some r := Iff.rfl

theorem checked_eq_some {r : Unit × δ} : checked ok d = some r ↔ ok d ∧ r = ((), d) := by
  unfold checked
  split <;> simp_all [eq_comm]

theorem execute_eq_some {f : δ → δ} {r : Unit × δ} :
    execute ok f d = some r ↔ ok (f d) ∧ r = ((), f d) := checked_eq_some

theorem insertRow_eq_some [DecidableRel conflict] {table : δ → Table ρ conflict}
    {put : δ → Table ρ conflict → δ} {r : ρ} {s : Unit × δ} :
    insertRow ok table put r d = some s ↔
      ∃ t, (table d).insert r = some t ∧ ok (put d t) ∧ s = ((), put d t) := by
  rw [insertRow, Option.bind_eq_some_iff]
  simp only [checked_eq_some]

/-! ## What every statement keeps -/

/-- Where the transaction goes through, it keeps `P`. -/
def Keeps (P : δ → Prop) (x : Transaction δ α) : Prop :=
  ∀ ⦃d : δ⦄ ⦃r : α × δ⦄, P d → x d = some r → P r.2

variable {P : δ → Prop}

theorem keeps_bind {x : Transaction δ α} {f : α → Transaction δ γ} (hx : Keeps P x)
    (hf : ∀ a, Keeps P (f a)) : Keeps P (x >>= f) := by
  intro d r hd h
  obtain ⟨a, e, h₁, h₂⟩ := bind_eq_some.1 h
  exact hf a (hx hd h₁) h₂

theorem keeps_pure (a : α) : Keeps P (pure a) := by
  intro d r hd h
  rw [pure_eq_some.1 h]
  exact hd

theorem keeps_query (q : δ → α) : Keeps P (query q) := by
  intro d r hd h
  rw [query_eq_some.1 h]
  exact hd

theorem keeps_raise : Keeps P (raise : Transaction δ α) := fun _ _ _ h => nomatch h

theorem keeps_execute (f : δ → δ) : Keeps ok (execute ok f) := by
  intro d r _ h
  obtain ⟨hok, rfl⟩ := execute_eq_some.1 h
  exact hok

theorem keeps_insertRow [DecidableRel conflict] (table : δ → Table ρ conflict)
    (put : δ → Table ρ conflict → δ) (r : ρ) : Keeps ok (insertRow ok table put r) := by
  intro d s _ h
  obtain ⟨t, -, hok, rfl⟩ := insertRow_eq_some.1 h
  exact hok

theorem keeps_forM {κ : Type} {f : κ → Transaction δ PUnit} (hf : ∀ k, Keeps P (f k))
    (ks : List κ) : Keeps P (ks.forM f) := by
  induction ks with
  | nil => exact keeps_pure _
  | cons k ks ih => exact keeps_bind (hf k) fun _ => ih

theorem transact_keeps {body : Transaction δ (Ending α)} (h : Keeps P body) {d : δ} (hd : P d) :
    P (transact body d).1 := by
  unfold transact
  split
  next => exact hd
  next hb => exact h hd hb
  next => exact hd

/-! ## Transactions that compute nothing -/

/-- The transaction fails, or it applies `f`. -/
def Does (x : Transaction δ PUnit) (f : δ → δ) : Prop := ∀ ⦃d r⦄, x d = some r → r = (⟨⟩, f d)

theorem does_execute (f : δ → δ) : Does (execute ok f) f := fun _ _ h => (execute_eq_some.1 h).2

theorem Does.bind {x : Transaction δ PUnit} {f : δ → δ} (hx : Does x f)
    {y : PUnit → Transaction δ PUnit} {g : δ → δ} (hy : Does (y ⟨⟩) g) :
    Does (x >>= y) fun d => g (f d) := by
  intro d r h
  obtain ⟨a, e, h₁, h₂⟩ := bind_eq_some.1 h
  obtain ⟨rfl, rfl⟩ := Prod.mk.inj (hx h₁)
  exact hy h₂

theorem Does.forM {κ : Type} {x : κ → Transaction δ PUnit} {f : κ → δ → δ}
    (hx : ∀ k, Does (x k) (f k)) (ks : List κ) :
    Does (ks.forM x) fun d => ks.foldl (fun d k => f k d) d := by
  induction ks with
  | nil => exact fun _ _ h => pure_eq_some.1 h
  | cons k ks ih => exact Does.bind (y := fun _ => ks.forM x) (hx k) ih

/-! ## Transactions that go through -/

/-- From a database with `P` the transaction goes through, and `P` holds again. -/
def Passes (P : δ → Prop) (x : Transaction δ α) : Prop :=
  ∀ ⦃d : δ⦄, P d → ∃ r : α × δ, x d = some r ∧ P r.2

theorem passes_pure (a : α) : Passes P (pure a : Transaction δ α) := fun d hd => ⟨(a, d), rfl, hd⟩

theorem passes_execute {f : δ → δ} (h : ∀ d, P d → ok (f d) ∧ P (f d)) :
    Passes P (execute ok f) :=
  fun d hd => ⟨((), f d), execute_eq_some.2 ⟨(h d hd).1, rfl⟩, (h d hd).2⟩

theorem passes_bind {x : Transaction δ α} {f : α → Transaction δ γ} (hx : Passes P x)
    (hf : ∀ a, Passes P (f a)) : Passes P (x >>= f) := by
  intro d hd
  obtain ⟨⟨a, e⟩, h₁, he⟩ := hx hd
  obtain ⟨r, h₂, hr⟩ := hf a he
  exact ⟨r, bind_eq_some.2 ⟨a, e, h₁, h₂⟩, hr⟩

theorem passes_forM {κ : Type} {x : κ → Transaction δ PUnit} (ks : List κ)
    (hx : ∀ k ∈ ks, Passes P (x k)) : Passes P (ks.forM x) := by
  induction ks with
  | nil => exact passes_pure _
  | cons k ks ih =>
    exact passes_bind (hx k List.mem_cons_self) fun _ =>
      ih fun k hk => hx k (List.mem_cons_of_mem _ hk)

end Monoplan.Base
