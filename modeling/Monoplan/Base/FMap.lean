import Mathlib.Data.Finset.Basic
import Mathlib.Data.Finset.Image
import Mathlib.Data.List.Sort

/-!
# Finite maps and sorted sets

Two small structures that programs over hash tables rest on, for arbitrary keys.

* `FMap K V`: a partial function with its finite set of keys.  Two maps are equal as soon as
  they agree on every key (`FMap.ext_get`), so nothing can depend on an iteration order.
* `sortOn f s`: the members of a finite set in the order of an injective key.  It is the list
  any sort of any enumeration of the set returns (`sortOn_eq`).
-/

namespace Monoplan.Base

/-! ## Finite maps -/

/-- A map with finitely many keys. -/
structure FMap (K V : Type*) where
  get : K → Option V
  keys : Finset K
  /-- The keys are where the map is defined. -/
  mem_keys : ∀ k, k ∈ keys ↔ (get k).isSome

namespace FMap

variable {K V : Type*}

theorem ext_get {m n : FMap K V} (h : ∀ k, m.get k = n.get k) : m = n := by
  obtain ⟨g, ks, hk⟩ := m
  obtain ⟨g', ks', hk'⟩ := n
  obtain rfl : g = g' := funext h
  obtain rfl : ks = ks' := Finset.ext fun k => by rw [hk, hk']
  rfl

/-- The map with no keys. -/
def empty : FMap K V where
  get _ := none
  keys := ∅
  mem_keys := by simp

@[simp] theorem get_empty (k : K) : (empty : FMap K V).get k = none := rfl

/-- Change every value. -/
def mapWithKey (f : K → V → V) (m : FMap K V) : FMap K V where
  get k := (m.get k).map (f k)
  keys := m.keys
  mem_keys k := by rw [Option.isSome_map, m.mem_keys]

@[simp] theorem get_mapWithKey (f : K → V → V) (m : FMap K V) (k : K) :
    (m.mapWithKey f).get k = (m.get k).map (f k) := rfl

/-- Change every value, leaving out the keys where `f` gives none. -/
def filterMap {W : Type*} (f : V → Option W) (m : FMap K V) : FMap K W where
  get k := (m.get k).bind f
  keys := m.keys.filter fun k => ((m.get k).bind f).isSome = true
  mem_keys k := by
    rw [Finset.mem_filter, m.mem_keys]
    cases m.get k <;> simp

@[simp] theorem get_filterMap {W : Type*} (f : V → Option W) (m : FMap K V) (k : K) :
    (m.filterMap f).get k = (m.get k).bind f := rfl

variable [DecidableEq K]

/-- Set one key. -/
def insert (m : FMap K V) (k : K) (v : V) : FMap K V where
  get := Function.update m.get k (some v)
  keys := Insert.insert k m.keys
  mem_keys j := by
    by_cases h : j = k
    · simp [h]
    · simp [h, m.mem_keys]

/-- Unset one key. -/
def erase (m : FMap K V) (k : K) : FMap K V where
  get := Function.update m.get k none
  keys := m.keys.erase k
  mem_keys j := by
    by_cases h : j = k
    · simp [h]
    · simp [h, m.mem_keys]

@[simp] theorem get_insert_self (m : FMap K V) (k : K) (v : V) :
    (m.insert k v).get k = some v := by
  simp [insert]

theorem get_insert_ne (m : FMap K V) {j k : K} (v : V) (h : j ≠ k) :
    (m.insert k v).get j = m.get j := by
  simp [insert, h]

theorem get_insert (m : FMap K V) (j k : K) (v : V) :
    (m.insert k v).get j = if j = k then some v else m.get j := by
  simp [insert, Function.update_apply]

@[simp] theorem get_erase_self (m : FMap K V) (k : K) : (m.erase k).get k = none := by
  simp [erase]

theorem get_erase_ne (m : FMap K V) {j k : K} (h : j ≠ k) : (m.erase k).get j = m.get j := by
  simp [erase, h]

theorem get_erase (m : FMap K V) (j k : K) :
    (m.erase k).get j = if j = k then none else m.get j := by
  simp [erase, Function.update_apply]

end FMap

/-! ## Sorted sets -/

section Sorted

variable {α κ : Type*} [LinearOrder κ]

/-- Sorting by an injective key does not depend on how the members are enumerated. -/
theorem insertionSort_congr {f : α → κ} (hf : Function.Injective f) {l₁ l₂ : List α}
    (h : l₁.Perm l₂) : (l₁.insertionSort fun a b => f a ≤ f b) =
      l₂.insertionSort fun a b => f a ≤ f b := by
  have : Std.Total fun a b : α => f a ≤ f b := ⟨fun a b => le_total (f a) (f b)⟩
  have : IsTrans α fun a b => f a ≤ f b := ⟨fun a b c => le_trans⟩
  have : Std.Antisymm fun a b : α => f a ≤ f b := ⟨fun a b h₁ h₂ => hf (le_antisymm h₁ h₂)⟩
  refine List.Perm.eq_of_pairwise' (List.pairwise_insertionSort _ _)
    (List.pairwise_insertionSort _ _) ?_
  exact (List.perm_insertionSort _ _).trans (h.trans (List.perm_insertionSort _ _).symm)

/-- The members of a finite set in the order of an injective key. -/
def sortOn (f : α → κ) (hf : Function.Injective f) (s : Finset α) : List α :=
  Quot.liftOn s.val (fun l => l.insertionSort fun a b => f a ≤ f b)
    fun _ _ h => insertionSort_congr hf h

variable {f : α → κ} {hf : Function.Injective f} {s : Finset α}

/-- Any sort of any enumeration of the set is this list. -/
theorem sortOn_eq {l : List α} (hl : l.Nodup) (hmem : ∀ a, a ∈ l ↔ a ∈ s) :
    (l.insertionSort fun a b => f a ≤ f b) = sortOn f hf s := by
  obtain ⟨m, hm⟩ := s
  induction m using Quot.ind with
  | mk l' =>
    refine insertionSort_congr hf ?_
    rw [List.perm_ext_iff_of_nodup hl hm]
    exact hmem

@[simp] theorem mem_sortOn {a : α} : a ∈ sortOn f hf s ↔ a ∈ s := by
  obtain ⟨m, hm⟩ := s
  induction m using Quot.ind with
  | mk l => exact List.mem_insertionSort _

/-- The sorted members stand in strictly ascending key order. -/
theorem sortOn_ascending : (sortOn f hf s).Pairwise fun a b => f a < f b := by
  have : Std.Total fun a b : α => f a ≤ f b := ⟨fun a b => le_total (f a) (f b)⟩
  have : IsTrans α fun a b => f a ≤ f b := ⟨fun a b c => le_trans⟩
  obtain ⟨m, hm⟩ := s
  induction m using Quot.ind with
  | mk l =>
    have hsorted := List.pairwise_insertionSort (fun a b : α => f a ≤ f b) l
    have hnodup : (l.insertionSort fun a b => f a ≤ f b).Nodup :=
      (List.perm_insertionSort _ l).nodup_iff.2 hm
    exact (hsorted.and hnodup).imp fun ⟨hle, hne⟩ => lt_of_le_of_ne hle fun he => hne (hf he)

theorem sortOn_nodup : (sortOn f hf s).Nodup :=
  sortOn_ascending.imp fun hlt he => absurd (he ▸ hlt) (lt_irrefl _)

/-- Two lists with the same members in strictly ascending key order are equal. -/
theorem eq_of_ascending {l₁ l₂ : List α} (h₁ : l₁.Pairwise fun a b => f a < f b)
    (h₂ : l₂.Pairwise fun a b => f a < f b) (hmem : ∀ a, a ∈ l₁ ↔ a ∈ l₂) : l₁ = l₂ := by
  have : Std.Irrefl fun a b : α => f a < f b := ⟨fun a => lt_irrefl (f a)⟩
  have : Std.Antisymm fun a b : α => f a < f b :=
    ⟨fun a b hab hba => absurd hba (lt_asymm hab)⟩
  exact List.Pairwise.eq_of_mem_iff h₁ h₂ hmem

/-- Only the keys of the members matter. -/
theorem sortOn_congr {g : α → κ} {hg : Function.Injective g} {t : Finset α} (hst : s = t)
    (h : ∀ a ∈ t, f a = g a) : sortOn f hf s = sortOn g hg t := by
  subst hst
  refine eq_of_ascending (f := g) ?_ sortOn_ascending fun a => by simp
  have hasc : (sortOn f hf s).Pairwise fun a b => f a < f b := sortOn_ascending
  refine List.Pairwise.imp_of_mem (fun {a b} ha hb hlt => ?_) hasc
  rwa [h a (mem_sortOn.1 ha), h b (mem_sortOn.1 hb)] at hlt

/-- Filtering commutes with sorting. -/
theorem filter_sortOn (p : α → Bool) :
    (sortOn f hf s).filter p = sortOn f hf (s.filter fun a => p a = true) :=
  eq_of_ascending (sortOn_ascending.filter p) sortOn_ascending fun a => by simp

end Sorted

end Monoplan.Base
