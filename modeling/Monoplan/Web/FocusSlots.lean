import Monoplan.Calendar.DayGroups
import Monoplan.Doc.Focus

/-!
# Slots of the shown focus

The home document's entries name items of all documents.  The layer shows those whose item it
finds open, and turns a slot among the shown rows into the position of an entry, which the core
adds or moves at.

* `shown_at`: what is shown in front of an entry position that stands for a slot.
* `focus_slots`: rows are added and moved to the slot that was asked for, whatever is hidden.
-/

namespace Monoplan.Web

open Monoplan.Base Monoplan.Doc Monoplan.Calendar

/-! ## Rows of a partly shown list -/

section Rows

variable {α β : Type*} {f : α → Option β}

/-- The shown elements with their positions, counted from `n`. -/
def rowsFrom (f : α → Option β) : ℕ → List α → List (ℕ × β)
  | _, [] => []
  | n, a :: l => ((f a).map fun b => (n, b)).toList ++ rowsFrom f (n + 1) l

theorem map_rowsFrom (n : ℕ) (l : List α) : (rowsFrom f n l).map Prod.snd = l.filterMap f := by
  induction l generalizing n with
  | nil => rfl
  | cons a l ih =>
    rw [rowsFrom, List.map_append, ih]
    cases h : f a with
    | none => simp [h]
    | some b => simp [h]

/-- A row stands behind the rows of the elements in front of its own. -/
theorem split_of_row {n j k : ℕ} {b : β} {l : List α} (h : (rowsFrom f n l)[j]? = some (k, b)) :
    ∃ xs a ys, l = xs ++ a :: ys ∧ k = n + xs.length ∧ f a = some b ∧
      (xs.filterMap f).length = j := by
  induction l generalizing n j with
  | nil => simp [rowsFrom] at h
  | cons a l ih =>
    rw [rowsFrom] at h
    cases hf : f a with
    | none =>
      rw [hf, Option.map_none, Option.toList_none, List.nil_append] at h
      obtain ⟨xs, c, ys, rfl, rfl, hc, hlen⟩ := ih h
      refine ⟨a :: xs, c, ys, rfl, ?_, hc, ?_⟩
      · rw [List.length_cons]
        omega
      · rw [List.filterMap_cons_none hf, hlen]
    | some c =>
      rw [hf, Option.map_some, Option.toList_some, List.singleton_append] at h
      cases j with
      | zero =>
        rw [List.getElem?_cons_zero, Option.some.injEq, Prod.mk.injEq] at h
        obtain ⟨rfl, rfl⟩ := h
        exact ⟨[], a, l, rfl, rfl, hf, rfl⟩
      | succ j =>
        rw [List.getElem?_cons_succ] at h
        obtain ⟨xs, d, ys, rfl, rfl, hd, hlen⟩ := ih h
        refine ⟨a :: xs, d, ys, rfl, ?_, hd, ?_⟩
        · rw [List.length_cons]
          omega
        · rw [List.filterMap_cons_some hf, List.length_cons, hlen]

/-- Putting an element in where `j` of the shown ones are in front. -/
theorem filterMap_placeAt_append {xs ys : List α} {a : α} {b : β} (ha : f a = some b) :
    (placeAt (xs ++ ys) xs.length a).filterMap f =
      placeAt ((xs ++ ys).filterMap f) (xs.filterMap f).length b := by
  rw [placeAt_append, List.filterMap_append, List.filterMap_append, List.filterMap_cons_some ha,
    placeAt_append]

end Rows

/-! ## The layer -/

/-- The home document, what its store shows of its items, and what the stores of the open documents
show of theirs. -/
structure FocusLayer where
  home : FocusedDocument
  itemsById : FMap String ItemView
  byId : FMap String (FMap String ItemView)

namespace FocusLayer

variable (L : FocusLayer)

/-- The item an entry stands for, if its document is open and has it. -/
def item (e : FocusRef) : Option ItemView :=
  match e.docId with
  | none => L.itemsById.get e.itemId
  | some docId => (L.byId.get docId).bind fun items => items.get e.itemId

/-- The item an entry shows. -/
def shown (e : FocusRef) : Option ItemView := (L.item e).filter fun it => isOpen it

/-- `focusResolved` from entry `entryIndex` on. -/
def resolvedFrom (seen : Finset String) (entryIndex : ℕ) : List FocusRef → List (ℕ × ItemView)
  | [] => []
  | e :: es =>
    if e.itemId ∈ seen then resolvedFrom seen (entryIndex + 1) es
    else match L.shown e with
      | none => resolvedFrom seen (entryIndex + 1) es
      | some it =>
        (entryIndex, it) :: resolvedFrom (insert e.itemId seen) (entryIndex + 1) es

/-- `focusResolved`. -/
def focusResolved : List (ℕ × ItemView) := L.resolvedFrom ∅ 0 L.home.entries

/-- `focusItems`. -/
def focusItems : List ItemView := L.focusResolved.map Prod.snd

/-- `focusEntryIndex`. -/
def focusEntryIndex (visibleIndex : ℕ) : ℕ :=
  match L.focusResolved[visibleIndex]? with
  | some row => row.1
  | none => L.home.entries.length

/-- The entries that are not shown. -/
def hidden : List FocusRef := L.home.entries.filter fun e => (L.shown e).isNone

/-- The layer after the home document has changed its focus. -/
def after (home : FocusedDocument) : FocusLayer := { L with home }

variable {L}

/-- Entries name each item once, so nothing is skipped for being repeated. -/
theorem resolvedFrom_eq {seen : Finset String} {n : ℕ} {es : List FocusRef}
    (hes : (es.map FocusRef.itemId).Nodup) (hseen : ∀ e ∈ es, e.itemId ∉ seen) :
    L.resolvedFrom seen n es = rowsFrom L.shown n es := by
  induction es generalizing seen n with
  | nil => rfl
  | cons e es ih =>
    obtain ⟨he, hes⟩ := List.nodup_cons.1 hes
    rw [resolvedFrom, if_neg (hseen e List.mem_cons_self), rowsFrom]
    cases L.shown e with
    | none =>
      rw [Option.map_none, Option.toList_none, List.nil_append]
      exact ih hes fun e' he' => hseen e' (List.mem_cons_of_mem _ he')
    | some it =>
      rw [Option.map_some, Option.toList_some, List.singleton_append]
      refine congrArg _ (ih hes fun e' he' hmem => ?_)
      rcases Finset.mem_insert.1 hmem with heq | hmem
      · exact he (heq ▸ List.mem_map_of_mem he')
      · exact hseen e' (List.mem_cons_of_mem _ he') hmem

theorem focusResolved_eq : L.focusResolved = rowsFrom L.shown 0 L.home.entries :=
  resolvedFrom_eq (L.home.index.nodup_focusEntries _) fun _ _ => Finset.notMem_empty _

theorem focusItems_eq : L.focusItems = L.home.entries.filterMap L.shown := by
  rw [focusItems, focusResolved_eq, map_rowsFrom]

/-- **The entry of a slot**: in front of it are the rows in front of the slot, and a row stands at
it unless the slot is past the end. -/
theorem split_at_slot (L : FocusLayer) (j : ℕ) :
    ∃ xs ys, L.home.entries = xs ++ ys ∧ L.focusEntryIndex j = xs.length ∧
      (xs.filterMap L.shown).length = min j L.focusItems.length ∧
      (ys = [] ∨ ∃ e ys', ys = e :: ys' ∧ (L.shown e).isSome = true) := by
  unfold focusEntryIndex
  cases h : L.focusResolved[j]? with
  | none =>
    refine ⟨L.home.entries, [], by simp, rfl, ?_, .inl rfl⟩
    have hle : L.focusItems.length ≤ j := by
      rw [focusItems, List.length_map]
      exact List.getElem?_eq_none_iff.1 h
    rw [← focusItems_eq, Nat.min_eq_right hle]
  | some row =>
    obtain ⟨k, it⟩ := row
    have hlt : j < L.focusItems.length := by
      rw [focusItems, List.length_map]
      exact (List.getElem?_eq_some_iff.1 h).1
    rw [focusResolved_eq] at h
    obtain ⟨xs, e, ys, hsplit, hk, he, hlen⟩ := split_of_row h
    refine ⟨xs, e :: ys, hsplit, ?_, ?_, .inr ⟨e, ys, rfl, by rw [he]; rfl⟩⟩
    · dsimp only
      rw [hk, Nat.zero_add]
    · rw [hlen, Nat.min_eq_left hlt.le]

/-- An entry put in behind the entries `xs`. -/
theorem focusItems_after {home : FocusedDocument} {r : FocusRef} {it : ItemView}
    {xs ys : List FocusRef} (hr : L.shown r = some it)
    (h : home.entries = placeAt (xs ++ ys) xs.length r) :
    (L.after home).focusItems =
        placeAt ((xs ++ ys).filterMap L.shown) (xs.filterMap L.shown).length it ∧
      (L.after home).hidden = (xs ++ ys).filter fun e => (L.shown e).isNone := by
  have hshown : (L.after home).shown = L.shown := rfl
  constructor
  · rw [focusItems_eq, hshown, ← filterMap_placeAt_append hr, ← h]
    rfl
  · rw [hidden, hshown, ← filter_placeAt (a := r) (by rw [hr]; rfl) (xs ++ ys) xs.length, ← h]
    rfl

/-- What an action does at slot `j`: the row is at that slot, and the other rows and the hidden
entries are as before. -/
def RowAt (L L' : FocusLayer) (rows : List ItemView) (slot : ℕ) (it : ItemView) : Prop :=
  L'.focusItems = placeAt rows slot it ∧ L'.hidden = L.hidden

theorem added_at {home : FocusedDocument} {r : FocusRef} {it : ItemView} {j : ℕ}
    (hr : L.shown r = some it) (hnew : ¬ L.home.shows r.itemId)
    (h : FocusedDocument.PutAt L.home home r
      (min (L.focusEntryIndex j) L.home.entries.length)) :
    RowAt L (L.after home) L.focusItems (min j L.focusItems.length) it := by
  obtain ⟨xs, ys, hsplit, hindex, hslot, -⟩ := L.split_at_slot j
  have hentries := h.entries_eq
  rw [FocusedDocument.filter_entries_of_new hnew, hindex, hsplit, List.length_append,
    Nat.min_eq_left (Nat.le_add_right _ _)] at hentries
  obtain ⟨hitems, hhidden⟩ := focusItems_after hr hentries
  refine ⟨?_, ?_⟩
  · rw [hitems, hslot, ← hsplit, ← focusItems_eq]
  · rw [hhidden, ← hsplit]
    rfl

theorem moved_at {home : FocusedDocument} {r : FocusRef} {it : ItemView} {i j k : ℕ}
    (hrow : L.focusResolved[i]? = some (k, it)) (hr : L.home.entries[k]? = some r)
    (h : FocusedDocument.PutAt L.home home r
      (min (L.focusEntryIndex j) (L.home.entries.length - 1))) :
    RowAt L (L.after home) (L.focusItems.eraseIdx i) (min j (L.focusItems.length - 1)) it := by
  obtain ⟨xs, ys, hsplit, hindex, hslot, hstands⟩ := L.split_at_slot j
  rw [focusResolved_eq] at hrow
  obtain ⟨as, r', bs, hown, hk, hshown, hi⟩ := split_of_row hrow
  obtain rfl : r' = r := by
    rw [hown, hk, Nat.zero_add, List.getElem?_append_right (Nat.le_refl _), Nat.sub_self,
      List.getElem?_cons_zero, Option.some.injEq] at hr
    exact hr
  have hnodup := L.home.index.nodup_focusEntries L.home.focus
  have hentries := h.entries_eq
  rw [hown, filter_key_middle (hown ▸ hnodup)] at hentries
  -- What is left of the rows and of the hidden entries once the moved entry is taken out.
  have hrows : L.focusItems = as.filterMap L.shown ++ it :: bs.filterMap L.shown := by
    rw [focusItems_eq, hown, List.filterMap_append, List.filterMap_cons_some hshown]
  have herase : L.focusItems.eraseIdx i = (as ++ bs).filterMap L.shown := by
    rw [hrows, ← hi, List.eraseIdx_append_of_length_le (Nat.le_refl _), Nat.sub_self,
      List.eraseIdx_cons_zero, List.filterMap_append]
  have hhidden : L.hidden = (as ++ bs).filter fun e => (L.shown e).isNone := by
    rw [hidden, hown, List.filter_append, List.filter_cons_of_neg (by simp [hshown]),
      List.filter_append]
  have hlen : L.focusItems.length =
      (as.filterMap L.shown).length + 1 + (bs.filterMap L.shown).length := by
    rw [hrows, List.length_append, List.length_cons]
    omega
  suffices hplace : ∃ zs ws, as ++ bs = zs ++ ws ∧
      min (L.focusEntryIndex j) ((as ++ r' :: bs).length - 1) = zs.length ∧
      (zs.filterMap L.shown).length = min j (L.focusItems.length - 1) by
    obtain ⟨zs, ws, hzs, hpos, hcount⟩ := hplace
    rw [hpos, hzs] at hentries
    obtain ⟨hitems, hhidden'⟩ := focusItems_after hshown hentries
    exact ⟨by rw [hitems, herase, hcount, hzs], by rw [hhidden', hhidden, hzs]⟩
  have hlength : (as ++ r' :: bs).length - 1 = (as ++ bs).length := by
    rw [List.length_append, List.length_append, List.length_cons]
    rfl
  rw [hindex, hlength]
  rw [hown] at hsplit
  rcases List.append_eq_append_iff.1 hsplit with ⟨cs, hxs, hys⟩ | ⟨cs, hxs, hys⟩
  · cases cs with
    | nil =>
      -- The row's own slot.
      refine ⟨as, bs, rfl, ?_, ?_⟩
      · rw [hxs, List.append_nil, List.length_append]
        exact Nat.min_eq_left (Nat.le_add_right _ _)
      · rw [hxs, List.append_nil] at hslot
        omega
    | cons c cs =>
      obtain ⟨rfl, hbs⟩ := List.cons.inj hys
      replace hbs : bs = cs ++ ys := hbs
      have hcount : (xs.filterMap L.shown).length =
          (as.filterMap L.shown).length + 1 + (cs.filterMap L.shown).length := by
        rw [hxs, List.filterMap_append, List.filterMap_cons_some hshown, List.length_append,
          List.length_cons]
        omega
      have hxslen : xs.length = as.length + 1 + cs.length := by
        rw [hxs, List.length_append, List.length_cons]
        omega
      rcases hstands with rfl | ⟨e, ys', rfl, he⟩
      · -- Past the end.
        rw [List.append_nil] at hbs
        refine ⟨as ++ bs, [], (List.append_nil _).symm, ?_, ?_⟩
        · rw [hxslen, List.length_append, hbs]
          omega
        · rw [List.filterMap_append, List.length_append]
          rw [hbs] at hlen ⊢
          omega
      · -- Downward: the row that stands at the slot moves up.
        obtain ⟨b, hb⟩ := Option.isSome_iff_exists.1 he
        refine ⟨as ++ (cs ++ [e]), ys', by rw [hbs]; simp, ?_, ?_⟩
        · rw [hxslen, hbs]
          simp only [List.length_append, List.length_cons, List.length_nil]
          omega
        · rw [hbs, List.filterMap_append, List.filterMap_cons_some hb, List.length_append,
            List.length_cons] at hlen
          rw [List.filterMap_append, List.filterMap_append, List.filterMap_cons_some hb,
            List.length_append, List.length_append, List.length_cons, List.filterMap_nil,
            List.length_nil]
          omega
  · -- Upward: the slot is in front of the row.
    refine ⟨xs, cs ++ bs, by rw [hxs, List.append_assoc], ?_, ?_⟩
    · rw [hxs, List.length_append, List.length_append]
      omega
    · rw [hslot, hlen]
      have hle : (xs.filterMap L.shown).length ≤ (as.filterMap L.shown).length := by
        rw [hxs, List.filterMap_append, List.length_append]
        exact Nat.le_add_right _ _
      omega

/-- An open item of the inbox. -/
def openItem (id : String) : ItemView where
  id := id
  text := ""
  notes := ""
  listId := "inbox"
  state := .backlog
  lifecycleAt := 0
  deadline := none
  when := none
  duration := none
  place := none
  createdAt := 0
  createdBy := none
  startedAt := none
  doneAt := none
  binnedAt := none

/-- Between `y` of the home document and `w` of another stands a ref to a document that is not
open. -/
def sampleLayer : FocusLayer where
  home := { FocusedDocument.pinnedFocus with focus := ["y", "x", "other:z", "shared:w"] }
  itemsById := FMap.empty.insert "y" (openItem "y")
  byId := FMap.empty.insert "shared" (FMap.empty.insert "w" (openItem "w"))

end FocusLayer

end Monoplan.Web
