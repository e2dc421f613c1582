import Monoplan.Doc.NotesDelta

/-!
# The delta between two texts

The web editors turn a change of a text into one delta that replaces a single region of it.

* `diffToDelta` cuts off a common first and a common last part, in units, and never parts a
  pair of units.
* So the delta is exact (`diffToDelta_exact`), and the document takes it and ends up with the new
  text (`applyNotesDelta_diff`).
-/

namespace Monoplan.Web

open Monoplan.Base Monoplan.Doc

/-- How many units two texts begin with in common. -/
def commonLength : List UInt16 → List UInt16 → ℕ
  | u :: us, v :: vs => if u = v then commonLength us vs + 1 else 0
  | _, _ => 0

/-- The common first part, without a first unit of a pair at its end. -/
def leadOf (prev next : List UInt16) : ℕ :=
  let max := min prev.length next.length
  let lead := commonLength prev next
  if 0 < lead ∧ lead < max ∧ prev[lead - 1]?.any isHigh then lead - 1 else lead

/-- The common last part, which does not overlap the first, and without a second unit of a pair
at its beginning. -/
def tailOf (prev next : List UInt16) (lead : ℕ) : ℕ :=
  let max := min prev.length next.length
  let tail := min (commonLength prev.reverse next.reverse) (max - lead)
  if 0 < tail ∧ prev[prev.length - tail]?.any isLow then tail - 1 else tail

/-- `diffToDelta`: nothing where the texts are equal. -/
def diffToDelta (prev next : List UInt16) : Option (List (DeltaOp UInt16)) :=
  if prev = next then none
  else
    let lead := leadOf prev next
    let tail := tailOf prev next lead
    let deleted := prev.length - lead - tail
    let inserted := (next.take (next.length - tail)).drop lead
    some ((if 0 < lead then [.retain lead] else []) ++
      (if 0 < deleted then [.delete deleted] else []) ++
      if inserted = [] then [] else [.insert inserted])

/-! ## Common parts -/

theorem commonLength_le (us vs : List UInt16) :
    commonLength us vs ≤ us.length ∧ commonLength us vs ≤ vs.length := by
  fun_induction commonLength us vs with
  | case1 u us vs ih =>
    simp only [List.length_cons]
    omega
  | case2 u us v vs _ => exact ⟨Nat.zero_le _, Nat.zero_le _⟩
  | case3 us vs _ => exact ⟨Nat.zero_le _, Nat.zero_le _⟩

theorem take_commonLength (us vs : List UInt16) {n : ℕ} (h : n ≤ commonLength us vs) :
    us.take n = vs.take n := by
  induction n generalizing us vs with
  | zero => rfl
  | succ n ih =>
    unfold commonLength at h
    split at h
    · split at h
      · rename_i heq
        rw [List.take_succ_cons, List.take_succ_cons, ih _ _ (Nat.le_of_succ_le_succ h), heq]
      · omega
    · omega

theorem getElem?_commonLength (us vs : List UInt16) {i : ℕ} (h : i < commonLength us vs) :
    us[i]? = vs[i]? := by
  have htake := take_commonLength us vs (Nat.succ_le_of_lt h)
  calc us[i]? = (us.take (i + 1))[i]? := (List.getElem?_take_of_lt (Nat.lt_succ_self i)).symm
    _ = (vs.take (i + 1))[i]? := by rw [htake]
    _ = vs[i]? := List.getElem?_take_of_lt (Nat.lt_succ_self i)

theorem commonLength_comm (us vs : List UInt16) : commonLength us vs = commonLength vs us := by
  fun_induction commonLength us vs with
  | case1 u us vs ih =>
    rw [commonLength, if_pos rfl, ih]
  | case2 u us v vs hne =>
    rw [commonLength, if_neg (Ne.symm hne)]
  | case3 us vs hcons =>
    unfold commonLength
    split
    · rename_i v vs' u us'
      exact absurd rfl (hcons u us' v vs' rfl)
    · rfl

theorem leadOf_comm (prev next : List UInt16) : leadOf prev next = leadOf next prev := by
  unfold leadOf
  dsimp only
  rw [commonLength_comm next prev, Nat.min_comm next.length]
  rcases Nat.eq_zero_or_pos (commonLength prev next) with hzero | hpos
  · rw [hzero]
    rfl
  · rw [getElem?_commonLength prev next (Nat.sub_lt hpos Nat.one_pos)]

theorem leadOf_le (prev next : List UInt16) : leadOf prev next ≤ commonLength prev next := by
  unfold leadOf
  dsimp only
  split <;> omega

variable {a b : List Char}

/-- The first part does not end with half a pair. -/
theorem leadOf_not_isHigh {u : UInt16} (hpos : 0 < leadOf (units a) (units b))
    (hu : (units a)[leadOf (units a) (units b) - 1]? = some u) : isHigh u = false := by
  obtain ⟨hlea, hleb⟩ := commonLength_le (units a) (units b)
  by_contra hne
  have hhigh : isHigh u = true := by simpa using hne
  obtain ⟨v, hv, hlow⟩ :
      ∃ v, (units a)[leadOf (units a) (units b) - 1 + 1]? = some v ∧ isLow v = true :=
    isLow_after_isHigh hu hhigh
  unfold leadOf at hpos hu hv
  dsimp only at hpos hu hv
  split at hu
  · -- a unit in front of a first unit of a pair is not one itself
    rename_i hcut
    rw [if_pos hcut] at hpos hv
    have hlast : commonLength (units a) (units b) - 1 - 1 + 1 =
        commonLength (units a) (units b) - 1 := by omega
    rw [hlast] at hv
    rw [hv, Option.any_some] at hcut
    rw [isLow_of_isHigh hcut.2.2] at hlow
    cases hlow
  · rename_i hkeep
    rw [if_neg hkeep] at hpos hv
    have hmax : ¬ commonLength (units a) (units b) < min (units a).length (units b).length := by
      intro hlt
      exact hkeep ⟨hpos, hlt, by rw [hu]; exact hhigh⟩
    rcases Nat.lt_or_ge (commonLength (units a) (units b)) (units a).length with hlt | hge
    · -- all of the second text is common, and it would end with half a pair
      have hend : (units b).length ≤ commonLength (units a) (units b) := by omega
      have hlast : commonLength (units a) (units b) - 1 < commonLength (units a) (units b) := by
        omega
      rw [getElem?_commonLength _ _ hlast] at hu
      obtain ⟨w, hw, -⟩ : ∃ w, (units b)[commonLength (units a) (units b) - 1 + 1]? = some w ∧
          isLow w = true := isLow_after_isHigh hu hhigh
      rw [Nat.sub_add_cancel hpos, List.getElem?_eq_none hend] at hw
      cases hw
    · rw [Nat.sub_add_cancel hpos, List.getElem?_eq_none hge] at hv
      cases hv

/-- The texts begin with a common first part. -/
theorem leadOf_split (a b : List Char) :
    ∃ k x y, a = k ++ x ∧ b = k ++ y ∧ leadOf (units a) (units b) = utf16Len k := by
  obtain ⟨hlea, hleb⟩ := commonLength_le (units a) (units b)
  have hle := leadOf_le (units a) (units b)
  obtain ⟨k, x, ha, hk⟩ := exists_split_of_not_isHigh (t := a) (hle.trans hlea)
    fun u hpos hu => leadOf_not_isHigh hpos hu
  obtain ⟨k', y, hb, hk'⟩ := exists_split_of_not_isHigh (t := b) (hle.trans hleb)
    fun u hpos hu => by
      refine leadOf_not_isHigh hpos ?_
      rw [getElem?_commonLength (units a) (units b) (by omega)]
      exact hu
  have hunits : ∀ {t p q : List Char}, t = p ++ q → leadOf (units a) (units b) = utf16Len p →
      (units t).take (leadOf (units a) (units b)) = units p := by
    rintro t p q rfl hp
    rw [hp, units_append]
    exact List.take_left' rfl
  have hsame : units k = units k' := by
    rw [← hunits ha hk, ← hunits hb hk', take_commonLength _ _ hle]
  exact ⟨k, x, y, ha, units_injective hsame ▸ hb, hk⟩

theorem tailOf_le (prev next : List UInt16) (lead : ℕ) :
    tailOf prev next lead ≤ commonLength prev.reverse next.reverse ∧
      tailOf prev next lead ≤ min prev.length next.length - lead := by
  unfold tailOf
  dsimp only
  split <;> omega

/-- Seen from their ends, two lists of units agree up to the common last part. -/
theorem getElem?_commonLength_reverse (us vs : List UInt16) {i : ℕ} (hpos : 0 < i)
    (hi : i ≤ commonLength us.reverse vs.reverse) :
    us[us.length - i]? = vs[vs.length - i]? := by
  obtain ⟨hus, hvs⟩ := commonLength_le us.reverse vs.reverse
  rw [List.length_reverse] at hus hvs
  have hcommon := getElem?_commonLength us.reverse vs.reverse (show i - 1 < _ by omega)
  rw [List.getElem?_reverse (by omega), List.getElem?_reverse (by omega)] at hcommon
  rw [show us.length - i = us.length - 1 - (i - 1) by omega,
    show vs.length - i = vs.length - 1 - (i - 1) by omega]
  exact hcommon

theorem tailOf_comm (prev next : List UInt16) (lead : ℕ) :
    tailOf prev next lead = tailOf next prev lead := by
  unfold tailOf
  dsimp only
  rw [commonLength_comm next.reverse prev.reverse, Nat.min_comm next.length]
  rcases Nat.eq_zero_or_pos (min (commonLength prev.reverse next.reverse)
    (min prev.length next.length - lead)) with hzero | hpos
  · rw [hzero]
    rfl
  · rw [getElem?_commonLength_reverse prev next hpos (Nat.min_le_left _ _)]

/-- The texts end with a common last part. -/
theorem tailOf_split (a b : List Char) (lead : ℕ) :
    ∃ x y s, a = x ++ s ∧ b = y ++ s ∧ tailOf (units a) (units b) lead = utf16Len s := by
  obtain ⟨hlea, hleb⟩ := commonLength_le (units a).reverse (units b).reverse
  rw [List.length_reverse] at hlea hleb
  obtain ⟨hle, -⟩ := tailOf_le (units a) (units b) lead
  set T := tailOf (units a) (units b) lead with hT
  -- the texts agree up to the cut and on the unit in front of it
  have hback : ∀ i, 0 < i → i ≤ commonLength (units a).reverse (units b).reverse →
      (units a)[(units a).length - i]? = (units b)[(units b).length - i]? :=
    fun i hpos hi => getElem?_commonLength_reverse (units a) (units b) hpos hi
  have hcut : ∀ t : List Char, T ≤ (units t).length →
      (∀ i, 0 < i → i ≤ commonLength (units a).reverse (units b).reverse →
        (units t)[(units t).length - i]? = (units a)[(units a).length - i]?) →
      ∃ x s, t = x ++ s ∧ (units t).length - T = utf16Len x := by
    intro t hTt hsame
    unfold tailOf at hT
    dsimp only at hT
    split at hT
    · -- the unit in front of the cut is the second one of a pair
      rename_i hlow
      refine exists_split_of_not_isHigh (Nat.sub_le _ _) fun u hpos hu => ?_
      have hindex : (units t).length - T - 1 = (units t).length -
          min (commonLength (units a).reverse (units b).reverse)
            (min (units a).length (units b).length - lead) := by omega
      have hunit : (units t)[(units t).length - T - 1]? = some u := hu
      rw [hindex, hsame _ hlow.1 (Nat.min_le_left _ _)] at hunit
      rw [hunit, Option.any_some] at hlow
      by_contra hne
      have hhigh : isHigh u = true := by simpa using hne
      rw [isLow_of_isHigh hhigh] at hlow
      cases hlow.2
    · rename_i hkeep
      refine exists_split_of_not_isLow (Nat.sub_le _ _) fun u hu => ?_
      have hunit : (units t)[(units t).length - T]? = some u := hu
      rcases Nat.eq_zero_or_pos T with hzero | hpos
      · rw [hzero, Nat.sub_zero, List.getElem?_eq_none (Nat.le_refl _)] at hunit
        cases hunit
      · rw [hsame T hpos hle] at hunit
        rw [← hT, hunit, Option.any_some] at hkeep
        by_contra hne
        exact hkeep ⟨hpos, by simpa using hne⟩
  obtain ⟨x, s, ha, hx⟩ := hcut a (hle.trans hlea) fun _ _ _ => rfl
  obtain ⟨y, s', hb, hy⟩ := hcut b (hle.trans hleb) fun i hpos hi => (hback i hpos hi).symm
  have hlen : ∀ {t p q : List Char}, t = p ++ q → T ≤ (units t).length →
      (units t).length - T = utf16Len p → utf16Len q = T := by
    rintro t p q rfl hTt hp
    rw [length_units, utf16Len_append] at hTt hp
    omega
  have hs := hlen ha (hle.trans hlea) hx
  have hs' := hlen hb (hle.trans hleb) hy
  have hunits : ∀ {t p q : List Char}, t = p ++ q → utf16Len q = T →
      (units t).reverse.take T = (units q).reverse := by
    rintro t p q rfl hq
    rw [units_append, List.reverse_append]
    exact List.take_left' (by rw [List.length_reverse, length_units, hq])
  have hsame : units s = units s' := by
    have htake := take_commonLength _ _ hle
    rw [hunits ha hs, hunits hb hs'] at htake
    exact List.reverse_injective htake
  exact ⟨x, y, s, ha, units_injective hsame ▸ hb, hs.symm⟩

/-! ## The whole delta -/

/-- Two parts that do not overlap leave a middle. -/
theorem exists_middle {k x y s : List Char} (h : k ++ x = y ++ s)
    (hroom : utf16Len k ≤ utf16Len y) : ∃ m, x = m ++ s := by
  rcases List.append_eq_append_iff.1 h with ⟨m, rfl, rfl⟩ | ⟨c, rfl, rfl⟩
  · exact ⟨m, rfl⟩
  · have hc : c = [] := by
      by_contra hne
      have hpos := utf16Len_pos hne
      rw [utf16Len_append] at hroom
      omega
    exact ⟨[], by rw [hc]; rfl⟩

/-- Keep, delete and insert a part each, without the empty ones. -/
def regionDelta (k m n : List Char) : List (DeltaOp UInt16) :=
  (if 0 < utf16Len k then [.retain (utf16Len k)] else []) ++
    (if 0 < utf16Len m then [.delete (utf16Len m)] else []) ++
    if units n = [] then [] else [.insert (units n)]

theorem edits_region (k m n s : List Char) :
    Edits utf16 (k ++ (m ++ s)) (regionDelta k m n) (k ++ (n ++ s)) := by
  have hzero : ∀ {t : List Char}, ¬ 0 < utf16Len t → t = [] := fun h => by
    by_contra hne
    exact h (utf16Len_pos hne)
  have hinsert : Edits utf16 s (if units n = [] then [] else [DeltaOp.insert (units n)]) (n ++ s) := by
    split
    · rename_i hnil
      have hn : n = [] := units_injective hnil
      rw [hn]
      exact .done s
    · exact .insert n (.done s)
  have hdelete : Edits utf16 (m ++ s) ((if 0 < utf16Len m then [.delete (utf16Len m)] else []) ++
      if units n = [] then [] else [DeltaOp.insert (units n)]) (n ++ s) := by
    split
    · exact .delete m hinsert
    · rename_i hm
      rw [hzero hm]
      exact hinsert
  rw [regionDelta, List.append_assoc]
  split
  · exact .retain k hdelete
  · rename_i hk
    rw [hzero hk]
    exact hdelete

/-- The delta replaces what lies between the common parts. -/
theorem diffToDelta_region (a b : List Char) :
    ∃ k m n s, a = k ++ (m ++ s) ∧ b = k ++ (n ++ s) ∧
      utf16Len k = leadOf (units a) (units b) ∧
      utf16Len s = tailOf (units a) (units b) (leadOf (units a) (units b)) ∧
      (a ≠ b → diffToDelta (units a) (units b) = some (regionDelta k m n)) := by
  obtain ⟨k, x, y, ha, hb, hlead⟩ := leadOf_split a b
  obtain ⟨x', y', s, hx, hy, htail⟩ := tailOf_split a b (leadOf (units a) (units b))
  have hroom := (tailOf_le (units a) (units b) (leadOf (units a) (units b))).2
  have hlea := (leadOf_le (units a) (units b)).trans (commonLength_le (units a) (units b)).1
  have hleb := (leadOf_le (units a) (units b)).trans (commonLength_le (units a) (units b)).2
  have hlenx : utf16Len a = utf16Len x' + utf16Len s := by rw [hx, utf16Len_append]
  have hleny : utf16Len b = utf16Len y' + utf16Len s := by rw [hy, utf16Len_append]
  rw [length_units] at hroom hlea hleb
  rw [length_units] at hroom
  obtain ⟨m, rfl⟩ := exists_middle (ha.symm.trans hx) (by omega)
  obtain ⟨n, rfl⟩ := exists_middle (hb.symm.trans hy) (by omega)
  have hdeleted : (units a).length - leadOf (units a) (units b) -
      tailOf (units a) (units b) (leadOf (units a) (units b)) = utf16Len m := by
    rw [htail, hlead, length_units, ha, utf16Len_append, utf16Len_append]
    omega
  have hinserted : ((units b).take ((units b).length -
      tailOf (units a) (units b) (leadOf (units a) (units b)))).drop
        (leadOf (units a) (units b)) = units n := by
    rw [htail, hlead, hb, ← List.append_assoc, units_append, List.length_append, length_units,
      length_units, Nat.add_sub_cancel, ← length_units (k ++ n), List.take_left, units_append]
    exact List.drop_left' rfl
  refine ⟨k, m, n, s, ha, hb, hlead.symm, htail.symm, fun h => ?_⟩
  have hne : units a ≠ units b := fun heq => h (units_injective heq)
  rw [regionDelta, ← hlead, ← hdeleted, ← hinserted]
  exact if_neg hne

theorem diffToDelta_edits (h : a ≠ b) :
    ∃ ops, diffToDelta (units a) (units b) = some ops ∧ Edits utf16 a ops b := by
  obtain ⟨k, m, n, s, ha, hb, -, -, hdelta⟩ := diffToDelta_region a b
  refine ⟨_, hdelta h, ?_⟩
  have hregion := edits_region k m n s
  rw [← ha, ← hb] at hregion
  exact hregion

/-- Where in the old text the operations of a delta begin and end. -/
def opBounds : ℕ → List (DeltaOp UInt16) → List ℕ
  | pos, [] => [pos]
  | pos, .retain n :: ops => pos :: opBounds (pos + n) ops
  | pos, .delete n :: ops => pos :: opBounds (pos + n) ops
  | pos, .insert _ :: ops => pos :: opBounds pos ops

theorem cuts_opBounds {l r p : List Char} {ops : List (DeltaOp UInt16)}
    (h : Edits utf16 l ops r) : ∀ b ∈ opBounds (utf16Len p) ops, Cuts (p ++ l) b := by
  have hhere : ∀ p s : List Char, Cuts (p ++ s) (utf16Len p) := fun p s => ⟨p, s, rfl, rfl⟩
  induction h generalizing p with
  | done l =>
    intro b hb
    rw [List.mem_singleton.1 hb]
    exact hhere p l
  | @retain k l r ops _ ih | @delete k l r ops _ ih =>
    intro b hb
    rcases List.mem_cons.1 hb with rfl | hb
    · exact hhere p _
    · have hnext : utf16Len p + unitLength utf16 k = utf16Len (p ++ k) :=
        (utf16Len_append p k).symm
      rw [hnext] at hb
      rw [← List.append_assoc]
      exact ih b hb
  | @insert v l r ops _ ih =>
    intro b hb
    rcases List.mem_cons.1 hb with rfl | hb
    · exact hhere p l
    · exact ih b hb

/-- **The delta between two texts** is none for equal ones; otherwise it leads from the one to the
other, cuts the first between characters, and is not rejected. -/
theorem diffToDelta_exact (prev next : List Char) :
    (diffToDelta (units prev) (units next) = none ↔ prev = next) ∧
      ∀ ops, diffToDelta (units prev) (units next) = some ops →
        applyLenient (units prev) ops = units next ∧ (∀ b ∈ opBounds 0 ops, Cuts prev b) ∧
          ((Validation.start prev).run (ops.map (DeltaOp.decoded fromUtf16Lossy))).isSome := by
  by_cases heq : prev = next
  · have hnone : diffToDelta (units prev) (units next) = none := by
      rw [heq]
      exact if_pos rfl
    refine ⟨⟨fun _ => heq, fun _ => hnone⟩, fun ops hops => ?_⟩
    rw [hnone] at hops
    cases hops
  · obtain ⟨ops, hops, hedits⟩ := diffToDelta_edits heq
    refine ⟨⟨fun hnone => ?_, fun h => absurd h heq⟩, fun ops' hops' => ?_⟩
    · rw [hops] at hnone
      cases hnone
    · rw [hops, Option.some.injEq] at hops'
      subst hops'
      refine ⟨applyLenient_eq hedits.applyDelta_eq, fun b hb => ?_, ?_⟩
      · have hcuts := cuts_opBounds (p := []) hedits b
        exact hcuts hb
      · have hunits :
            Edits utf16 prev (unitOps (ops.map (DeltaOp.decoded fromUtf16Lossy))) next := by
          rw [unitOps, hedits.units_decoded fromUtf16Lossy_encode]
          exact hedits
        obtain ⟨v, hv⟩ :=
          Validation.Sees.run_of_edits (p := []) (Validation.start_sees prev) rfl hunits
        rw [hv]
        rfl

theorem diffToDelta_exact_pair :
    applyLenient (units "a😀".toList) [.retain 1, .insert (units ['😁'])] =
      units "a😁😀".toList := by
  have hops : diffToDelta (units "a😀".toList) (units "a😁😀".toList) =
      some [.retain 1, .insert (units ['😁'])] := rfl
  exact ((diffToDelta_exact _ _).2 _ hops).1

/-- What a delta of this form does to any units that it fits. -/
theorem region_of_applyDelta {k m n : List Char} {us vs : List UInt16}
    (h : applyDelta us (regionDelta k m n) = some vs) :
    ∃ as ms bs, us = as ++ (ms ++ bs) ∧ as.length = utf16Len k ∧ ms.length = utf16Len m ∧
      vs = as ++ (units n ++ bs) := by
  have hinsert : ∀ (ws : List UInt16) (pos : ℕ), deltaFrom ws pos
      (if units n = [] then [] else [DeltaOp.insert (units n)]) =
        some (placeRun ws pos (units n), pos + (units n).length) := by
    intro ws pos
    split
    · rename_i hnil
      rw [hnil]
      rfl
    · rfl
  have hdelete : ∀ (as ws : List UInt16) (ops : List (DeltaOp UInt16)) {r : List UInt16 × ℕ},
      deltaFrom (as ++ ws) as.length
        ((if 0 < utf16Len m then [.delete (utf16Len m)] else []) ++ ops) = some r →
      ∃ ms bs, ws = ms ++ bs ∧ ms.length = utf16Len m ∧
        deltaFrom (as ++ bs) as.length ops = some r := by
    intro as ws ops r hr
    split at hr
    · obtain ⟨p, hp, hrest⟩ := Option.bind_eq_some_iff.1 hr
      rw [deltaStep] at hp
      split at hp
      · rename_i hle
        rw [List.length_append] at hle
        cases hp
        rw [List.take_left, List.drop_append, List.drop_eq_nil_of_le (by omega), List.nil_append,
          Nat.add_sub_cancel_left] at hrest
        refine ⟨ws.take (utf16Len m), ws.drop (utf16Len m), (List.take_append_drop _ _).symm, ?_,
          hrest⟩
        rw [List.length_take]
        omega
      · cases hp
    · rename_i hzero
      exact ⟨[], ws, rfl, by rw [List.length_nil]; omega, hr⟩
  have hretain : ∀ (ops : List (DeltaOp UInt16)) {r : List UInt16 × ℕ},
      deltaFrom us 0 ((if 0 < utf16Len k then [.retain (utf16Len k)] else []) ++ ops) = some r →
      ∃ as ws, us = as ++ ws ∧ as.length = utf16Len k ∧ deltaFrom us as.length ops = some r := by
    intro ops r hr
    split at hr
    · obtain ⟨p, hp, hrest⟩ := Option.bind_eq_some_iff.1 hr
      rw [deltaStep, Nat.zero_add] at hp
      split at hp
      · rename_i hle
        cases hp
        have hlen : (us.take (utf16Len k)).length = utf16Len k := by
          rw [List.length_take]
          omega
        exact ⟨us.take (utf16Len k), us.drop (utf16Len k), (List.take_append_drop _ _).symm, hlen,
          hlen.symm ▸ hrest⟩
      · cases hp
    · rename_i hzero
      exact ⟨[], us, rfl, by rw [List.length_nil]; omega, hr⟩
  obtain ⟨⟨ws, pos⟩, hr, rfl⟩ := Option.map_eq_some_iff.1 h
  rw [regionDelta, List.append_assoc] at hr
  obtain ⟨as, ws', rfl, has, hr⟩ := hretain _ hr
  obtain ⟨ms, bs, rfl, hms, hr⟩ := hdelete as ws' _ hr
  rw [hinsert, Option.some.injEq, Prod.mk.injEq, placeRun_append_length] at hr
  exact ⟨as, ms, bs, rfl, has, hms, by rw [← hr.1, List.append_assoc]⟩

/-- The parts of two texts are determined by their lengths. -/
theorem parts_unique {k k' m m' s s' : List Char} (h : k ++ (m ++ s) = k' ++ (m' ++ s'))
    (hk : utf16Len k = utf16Len k') (hs : utf16Len s = utf16Len s') :
    k = k' ∧ m = m' ∧ s = s' := by
  have hunits := congrArg units h
  rw [units_append k, units_append k'] at hunits
  obtain ⟨hsame, hrest⟩ := List.append_inj hunits (by rw [length_units, length_units, hk])
  rw [units_append m, units_append m'] at hrest
  obtain ⟨hsame', hsame''⟩ := List.append_inj' hrest (by rw [length_units, length_units, hs])
  exact ⟨units_injective hsame, units_injective hsame', units_injective hsame''⟩

/-- The text is the one that the delta to `new` was made from, but for the region that the delta
replaces, and that region is as long. -/
def Fits (old text new : List Char) : Prop :=
  ∃ k m m' n s, old = k ++ (m ++ s) ∧ text = k ++ (m' ++ s) ∧ new = k ++ (n ++ s) ∧
    utf16Len k = leadOf (units old) (units new) ∧
    utf16Len s = tailOf (units old) (units new) (leadOf (units old) (units new)) ∧
    utf16Len m' = utf16Len m

theorem fits_self (a b : List Char) : Fits a a b := by
  obtain ⟨k, m, n, s, ha, hb, hk, hs, -⟩ := diffToDelta_region a b
  exact ⟨k, m, m, n, s, ha, ha, hb, hk, hs, rfl⟩

/-- Where there is no change to make, only the text itself fits. -/
theorem fits_same {a text : List Char} (h : Fits a text a) : text = a := by
  obtain ⟨k, m, m', n, s, ha, ht, -, hk, -, hlen⟩ := h
  have hlead : leadOf (units a) (units a) = utf16Len a := by
    have hcommon : ∀ us : List UInt16, commonLength us us = us.length := by
      intro us
      induction us with
      | nil => rfl
      | cons u us ih => simp [commonLength, ih]
    unfold leadOf
    dsimp only
    rw [hcommon, if_neg (by simp)]
    exact length_units a
  rw [hlead] at hk
  have hempty : ∀ {t : List Char}, utf16Len t = 0 → t = [] := fun h0 => by
    by_contra hne
    have hpos := utf16Len_pos hne
    omega
  have hrest : utf16Len m = 0 ∧ utf16Len s = 0 := by
    have htotal := congrArg utf16Len ha
    rw [utf16Len_append, utf16Len_append] at htotal
    omega
  obtain rfl := hempty hrest.1
  obtain rfl := hempty hrest.2
  obtain rfl := hempty (hlen.trans hrest.1)
  rw [ht, ha]

/-- **A delta made from another text** leads to the text it was made for exactly where it fits. -/
theorem applyNotesDelta_fits {old text new : List Char} (hne : old ≠ new) :
    (∃ ops, diffToDelta (units old) (units new) = some ops ∧
      applyNotesDelta text (ops.map (DeltaOp.decoded fromUtf16Lossy)) = some new) ↔
        Fits old text new := by
  obtain ⟨k, m, n, s, hold, hnew, hk, hs, hdelta⟩ := diffToDelta_region old new
  constructor
  · rintro ⟨ops, hops, happly⟩
    rw [hdelta hne, Option.some.injEq] at hops
    subst hops
    have hedits := edits_region k m n s
    have hunits := applyNotesDelta_units happly
    rw [unitOps, hedits.units_decoded fromUtf16Lossy_encode] at hunits
    obtain ⟨as, ms, bs, htext, has, hms, hvs⟩ := region_of_applyDelta hunits
    rw [hnew, units_append, units_append] at hvs
    obtain ⟨hkeq, hrest⟩ := List.append_inj hvs (by rw [has, length_units])
    have hseq := List.append_cancel_left hrest
    rw [← hkeq] at htext
    obtain ⟨r, rfl⟩ := exists_split_of_prefix htext
    rw [units_append, ← hseq] at htext
    have htext' := List.append_cancel_left htext
    obtain ⟨m', rfl⟩ := exists_split_of_suffix htext'
    refine ⟨k, m, m', n, s, hold, rfl, hnew, hk, hs, ?_⟩
    rw [units_append] at htext'
    have hmeq := List.append_cancel_right htext'
    rw [← hms, ← hmeq, length_units]
  · rintro ⟨k', m₁, m', n', s', hold', htext, hnew', hk', hs', hlen⟩
    obtain ⟨rfl, rfl, rfl⟩ := parts_unique (hold'.symm.trans hold) (hk'.trans hk.symm)
      (hs'.trans hs.symm)
    obtain rfl : n' = n :=
      List.append_cancel_right (List.append_cancel_left (hnew'.symm.trans hnew))
    refine ⟨_, hdelta hne, applyNotesDelta_of_edits ?_⟩
    have hedits := edits_region k' m' n' s'
    have hsamedelta : regionDelta k' m₁ n' = regionDelta k' m' n' := by
      rw [regionDelta, regionDelta, hlen]
    rw [hsamedelta, unitOps, hedits.units_decoded fromUtf16Lossy_encode, htext, hnew]
    exact hedits

/-- Where one text is to replace another, a third one holds the other's own part in its place,
whatever is around it. -/
def Intact (old text new : List Char) : Prop :=
  ∃ k m n s p q, old = k ++ (m ++ s) ∧ new = k ++ (n ++ s) ∧ text = p ++ (m ++ q) ∧
    utf16Len p = utf16Len k ∧ utf16Len k = leadOf (units old) (units new) ∧
    utf16Len s = tailOf (units old) (units new) (leadOf (units old) (units new))

theorem intact_self (a b : List Char) : Intact a a b := by
  obtain ⟨k, m, n, s, ha, hb, hk, hs, -⟩ := diffToDelta_region a b
  exact ⟨k, m, n, s, k, s, ha, hb, ha, rfl, hk, hs⟩

/-- **A delta to an intact text can be taken back.** -/
theorem applyNotesDelta_intact {old text new : List Char} (hne : old ≠ new)
    (h : Intact old text new) :
    ∃ ops ops' text', diffToDelta (units old) (units new) = some ops ∧
      diffToDelta (units new) (units old) = some ops' ∧
      applyNotesDelta text (ops.map (DeltaOp.decoded fromUtf16Lossy)) = some text' ∧
      applyNotesDelta text' (ops'.map (DeltaOp.decoded fromUtf16Lossy)) = some text := by
  obtain ⟨k, m, n, s, p, q, hold, hnew, rfl, hp, hk, hs⟩ := h
  -- both deltas have the same region
  have hregion : diffToDelta (units old) (units new) = some (regionDelta p m n) := by
    obtain ⟨k', m', n', s', hold', hnew', hk', hs', hdelta⟩ := diffToDelta_region old new
    obtain ⟨rfl, rfl, rfl⟩ := parts_unique (hold.symm.trans hold') (hk.trans hk'.symm)
      (hs.trans hs'.symm)
    obtain ⟨-, rfl, -⟩ := parts_unique (hnew.symm.trans hnew') rfl rfl
    rw [hdelta hne, regionDelta, regionDelta, hp]
  have hregion' : diffToDelta (units new) (units old) = some (regionDelta p n m) := by
    obtain ⟨k', n', m', s', hnew', hold', hk', hs', hdelta⟩ := diffToDelta_region new old
    rw [leadOf_comm] at hk' hs'
    rw [tailOf_comm] at hs'
    obtain ⟨rfl, rfl, rfl⟩ := parts_unique (hold.symm.trans hold') (hk.trans hk'.symm)
      (hs.trans hs'.symm)
    obtain ⟨-, rfl, -⟩ := parts_unique (hnew.symm.trans hnew') rfl rfl
    rw [hdelta hne.symm, regionDelta, regionDelta, hp]
  refine ⟨_, _, p ++ (n ++ q), hregion, hregion', applyNotesDelta_of_edits ?_,
    applyNotesDelta_of_edits ?_⟩
  · have hedits := edits_region p m n q
    rw [unitOps, hedits.units_decoded fromUtf16Lossy_encode]
    exact hedits
  · have hedits := edits_region p n m q
    rw [unitOps, hedits.units_decoded fromUtf16Lossy_encode]
    exact hedits

/-- **The document takes the delta** of two texts, and ends up with the second one. -/
theorem applyNotesDelta_diff (h : a ≠ b) :
    ∃ ops, diffToDelta (units a) (units b) = some ops ∧
      applyNotesDelta a (ops.map (DeltaOp.decoded fromUtf16Lossy)) = some b := by
  obtain ⟨ops, hops, hedits⟩ := diffToDelta_edits h
  refine ⟨ops, hops, applyNotesDelta_of_edits ?_⟩
  rw [unitOps, hedits.units_decoded fromUtf16Lossy_encode]
  exact hedits

end Monoplan.Web
