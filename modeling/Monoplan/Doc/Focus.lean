import Monoplan.Base.Machine
import Monoplan.Base.Reposition
import Monoplan.Doc.Incremental
import Monoplan.Doc.Reconcile

/-!
# The focus lens

The `focus` container names items of this document and of others, in the order the user gave them.
A merge leaves anything in it; what the lens shows are its `entries`, the first live ref of every
item.  Positions are given among the entries and written to the container, so every interaction
takes the dead slots out first.

* `Standing focus es`: the container holds the entries and nothing else.
* `FocusEffect`: what an interaction does to the entries.
* `focus_spec`: every interaction has that effect, from any container; and an item that no slot
  names is not shown again, whatever else happens, unless it is added again.
-/

namespace Monoplan.Doc

open Monoplan.Base ProjectionIndex

/-! ## Lists under a key -/

section Keyed

variable {α κ : Type*} [DecidableEq κ] {f : α → κ}

/-- Where no key repeats, the position of a key is that of the only element that has it. -/
theorem eraseIdx_of_key {l : List α} {k : κ} {i : ℕ} (h : (l.map f).Nodup)
    (hi : l.findIdx? (fun a => f a = k) = some i) :
    i < l.length ∧ ∃ a, l[i]? = some a ∧ f a = k ∧ l.eraseIdx i = l.filter fun b => f b ≠ k := by
  induction l generalizing i with
  | nil => cases hi
  | cons b l ih =>
    obtain ⟨hb, hl⟩ := List.nodup_cons.1 h
    rw [List.findIdx?_cons] at hi
    by_cases hk : f b = k
    · rw [if_pos (by simpa using hk), Option.some.injEq] at hi
      subst hi
      have hkeep : l.filter (fun c => f c ≠ k) = l := by
        refine List.filter_eq_self.2 fun c hc => decide_eq_true fun heq => hb ?_
        rw [hk, ← heq]
        exact List.mem_map_of_mem hc
      refine ⟨Nat.succ_pos _, b, rfl, hk, ?_⟩
      rw [List.eraseIdx_cons_zero, List.filter_cons_of_neg (by simpa using hk), hkeep]
    · rw [if_neg (by simpa using hk)] at hi
      obtain ⟨j, hj, rfl⟩ := Option.map_eq_some_iff.1 hi
      obtain ⟨hlt, a, ha, hkey, herase⟩ := ih hl hj
      refine ⟨Nat.succ_lt_succ hlt, a, ha, hkey, ?_⟩
      rw [List.eraseIdx_cons_succ, List.filter_cons_of_pos (by simpa using hk), herase]

/-- The elements under the other keys. -/
theorem filter_key_middle {xs ys : List α} {a : α} (h : ((xs ++ a :: ys).map f).Nodup) :
    (xs ++ a :: ys).filter (fun b => f b ≠ f a) = xs ++ ys := by
  have hkey : ∀ b ∈ xs ++ ys, f b ≠ f a := by
    rw [List.map_append, List.map_cons, List.nodup_middle] at h
    intro b hb heq
    refine (List.nodup_cons.1 h).1 ?_
    rw [← heq, ← List.map_append]
    exact List.mem_map_of_mem hb
  rw [List.filter_append, List.filter_cons_of_neg (by simp), ← List.filter_append,
    List.filter_eq_self.2 fun b hb => decide_eq_true (hkey b hb)]

/-- An element stands at a position, and the others are those of `m`. -/
theorem eq_placeAt_of_key {l m : List α} {k : ℕ} {a : α} (h : (l.map f).Nodup)
    (hget : l[k]? = some a) (hothers : l.filter (fun b => f b ≠ f a) = m) :
    l = placeAt m k a := by
  obtain ⟨hlt, rfl⟩ := List.getElem?_eq_some_iff.1 hget
  have hsplit : l = l.take k ++ l[k] :: l.drop (k + 1) := by
    rw [List.getElem_cons_drop, List.take_append_drop]
  have hlen : (l.take k).length = k := by rw [List.length_take, Nat.min_eq_left hlt.le]
  generalize l[k] = a at hsplit hothers
  generalize l.take k = xs at hsplit hlen
  generalize l.drop (k + 1) = ys at hsplit
  subst hsplit hlen
  rw [← hothers, filter_key_middle h, placeAt_append]

end Keyed

/-- What is written for a ref reads as that ref. -/
theorem FocusRef.parse_encode {r : FocusRef} (hdoc : ∀ d ∈ r.docId, PlainId d)
    (hitem : PlainId r.itemId) : FocusRef.parse r.encode = some r := by
  obtain ⟨docId, itemId⟩ := r
  cases docId with
  | none =>
    show FocusRef.parse itemId = _
    rw [parse, if_neg hitem.1, splitOnce_eq_none hitem.2]
  | some docId =>
    have hplain := hdoc docId rfl
    have hne : docId ++ ":" ++ itemId ≠ "" := by
      intro heq
      have hnil := congrArg String.toList heq
      simp [String.toList_append] at hnil
    show FocusRef.parse (docId ++ ":" ++ itemId) = _
    rw [parse, if_neg hne, splitOnce_append hplain.2]
    dsimp only
    rw [if_neg (not_or.2 ⟨hplain.1, hitem.1⟩)]

/-! ## The scan -/

/-- `FocusScan`; the container itself is not repeated. -/
structure FocusScan where
  entries : List FocusRef
  deadIdx : List ℕ

namespace FocusScan

/-- `FocusScan::contains`. -/
def contains (scan : FocusScan) (itemId : String) : Bool :=
  scan.entries.any fun r => r.itemId = itemId

/-- `FocusScan::position`. -/
def position (scan : FocusScan) (itemId : String) : Option ℕ :=
  scan.entries.findIdx? fun r => r.itemId = itemId

end FocusScan

/-- `scan_focus`. -/
def ProjectionIndex.scanFocus (idx : ProjectionIndex) (raw : List String) : FocusScan where
  entries := idx.focusEntries raw
  deadIdx := dead idx.focusKey true raw

namespace FocusedDocument

variable (s : FocusedDocument)

/-- `focus_entries`. -/
def entries : List FocusRef := s.index.focusEntries s.focus

/-- `scan_focus`, of the document. -/
def scan : FocusScan := s.index.scanFocus s.focus

/-- The container without its dead slots. -/
def swept : List String := removeAt s.scan.deadIdx s.focus

/-! ## The interactions -/

/-- `insert_focus_entry`. -/
def insertFocusEntry (r : FocusRef) (index : ℕ) : FocusedDocument :=
  { s with focus := placeAt s.swept (min index s.scan.entries.length) r.encode }

/-- `add_to_focus`. -/
def addToFocus (itemId : String) (index : ℕ) : Option FocusedDocument :=
  match s.index.metas.get itemId with
  | none => none
  | some m =>
    if s.scan.contains itemId then some s
    else if !m.isOpen then some s
    else some (s.insertFocusEntry ⟨none, itemId⟩ index)

/-- `add_foreign_to_focus`. -/
def addForeignToFocus (docId itemId : String) (index : ℕ) : Option FocusedDocument :=
  if docId = "" ∨ ':' ∈ docId.toList then none
  else if itemId = "" ∨ ':' ∈ itemId.toList then none
  else if s.scan.contains itemId then some s
  else some (s.insertFocusEntry ⟨some docId, itemId⟩ index)

/-- The ids of a batch that are open and not shown yet, each once. -/
def toAdd (itemIds : List String) : List String :=
  firstsFrom (s.scan.entries.map FocusRef.itemId).toFinset
    (itemIds.filter fun id => s.index.isOpenItem id)

/-- `add_to_focus_many`. -/
def addToFocusMany (itemIds : List String) : FocusedDocument :=
  if itemIds = [] then s
  else if s.toAdd itemIds = [] ∧ s.scan.deadIdx = [] then s
  else
    let run := (s.toAdd itemIds).map fun id => FocusRef.encode ⟨none, id⟩
    { s with focus := placeRun s.swept 0 run }

/-- The slot names one of the items. -/
def namesAny (items : List String) (raw : String) : Bool :=
  (FocusRef.parse raw).any fun r => items.contains r.itemId

/-- The slots `prune_focus_refs` deletes: the dead ones, and those that name one of the items. -/
def toDelete (removeItems : List String) : List ℕ :=
  sortOn id Function.injective_id
    (s.scan.deadIdx ++ positionsOf (namesAny removeItems) s.focus).toFinset

/-- `prune_focus_refs`. -/
def pruneFocusRefs (removeItems : List String) : List String :=
  removeAt (s.toDelete removeItems) s.focus

/-- `remove_from_focus_many`. -/
def removeFromFocusMany (itemIds : List String) : FocusedDocument :=
  if itemIds = [] then s else { s with focus := s.pruneFocusRefs itemIds }

/-- `remove_from_focus`. -/
def removeFromFocus (itemId : String) : FocusedDocument :=
  { s with focus := s.pruneFocusRefs [itemId] }

/-- `move_in_focus`. -/
def moveInFocus (itemId : String) (index : ℕ) : FocusedDocument :=
  match s.scan.position itemId with
  | none => { s with focus := s.swept }
  | some source =>
    let dest := min index (s.scan.entries.length - 1)
    if source = dest then { s with focus := s.swept }
    else { s with focus := moveWithin s.swept source dest }

/-! ## Closing -/

/-- The writes that take the refs of the items they close out of the container. -/
def closes : LifecycleWrite → Bool
  | .set (some .done) => true
  | .set (some .cancelled) => true
  | _ => false

/-- The items the write changes. -/
def changed (itemIds : List String) (write : LifecycleWrite) (now : ℤ) : List String :=
  itemIds.filter (Document.writes write now s.content)

/-- `set_items_lifecycle_impl`, with the container. -/
def setItemsLifecycle (itemIds : List String) (write : LifecycleWrite) (now : ℤ) :
    Option FocusedDocument :=
  (s.toDocument.setItemsLifecycle itemIds write now).map fun d =>
    let closed := s.changed itemIds write now
    { d with focus :=
        if closed ≠ [] ∧ closes write = true then s.pruneFocusRefs closed else s.focus }

end FocusedDocument

/-! ## What stands in a container without dead slots -/

/-- The ref of a slot, when it is foreign or to an open item. -/
def ProjectionIndex.liveRef (idx : ProjectionIndex) (raw : String) : Option FocusRef :=
  (FocusRef.parse raw).filter fun r => !r.isLocal || idx.isOpenItem r.itemId

theorem ProjectionIndex.focusEntries_eq (idx : ProjectionIndex) (focus : List String) :
    idx.focusEntries focus = firstsOn FocusRef.itemId (focus.filterMap idx.liveRef) := by
  rw [focusEntries, List.filter_filterMap]
  rfl

theorem ProjectionIndex.nodup_focusEntries (idx : ProjectionIndex) (focus : List String) :
    ((idx.focusEntries focus).map FocusRef.itemId).Nodup := by
  rw [focusEntries, map_firstsOn]
  exact firsts_nodup _

/-- The container holds these entries, in this order, and nothing else. -/
structure Standing (idx : ProjectionIndex) (focus : List String) (es : List FocusRef) : Prop where
  slots : focus.map idx.liveRef = es.map some
  once : (es.map FocusRef.itemId).Nodup

namespace Standing

variable {idx : ProjectionIndex} {focus : List String} {es : List FocusRef}

theorem entries_eq (h : Standing idx focus es) : idx.focusEntries focus = es := by
  have hlive : focus.filterMap idx.liveRef = es := by
    have hmap := congrArg (List.filterMap id) h.slots
    simpa [List.filterMap_map, Function.comp_def] using hmap
  rw [idx.focusEntries_eq, hlive]
  exact firstsOn_of_nodup _ h.once

theorem length_eq (h : Standing idx focus es) : focus.length = es.length := by
  simpa using congrArg List.length h.slots

/-- Putting a live ref in. -/
theorem placeAt (h : Standing idx focus es) {r : FocusRef} (hr : idx.liveRef r.encode = some r)
    (hnew : r.itemId ∉ es.map FocusRef.itemId) (i : ℕ) :
    Standing idx (Base.placeAt focus i r.encode) (Base.placeAt es i r) where
  slots := by rw [map_placeAt, map_placeAt, h.slots, hr]
  once := by
    rw [map_placeAt]
    exact (placeAt_perm _ _ _).nodup_iff.2 (List.nodup_cons.2 ⟨hnew, h.once⟩)

/-- Moving a slot. -/
theorem moveWithin (h : Standing idx focus es) (source dest : ℕ) :
    Standing idx (Base.moveWithin focus source dest) (Base.moveWithin es source dest) where
  slots := by rw [map_moveWithin, map_moveWithin, h.slots]
  once := by
    rw [map_moveWithin]
    have hperm := moveWithin_perm (es.map FocusRef.itemId) source dest
    exact hperm.nodup_iff.2 h.once

/-- Taking slots out. -/
theorem filter (h : Standing idx focus es) {p : String → Bool} {q : FocusRef → Bool}
    (hpq : ∀ raw r, idx.liveRef raw = some r → p raw = q r) :
    Standing idx (focus.filter p) (es.filter q) where
  slots := by
    obtain ⟨hslots, -⟩ := h
    induction focus generalizing es with
    | nil =>
      obtain rfl : es = [] := by simpa using hslots.symm
      rfl
    | cons raw focus ih =>
      cases es with
      | nil => cases hslots
      | cons r es =>
        simp only [List.map_cons, List.cons.injEq] at hslots
        have hsame := hpq raw r hslots.1
        by_cases hq : q r = true
        · rw [List.filter_cons_of_pos (hsame.trans hq), List.filter_cons_of_pos hq, List.map_cons,
            List.map_cons, hslots.1, ih hslots.2]
        · rw [List.filter_cons_of_neg (hsame ▸ hq), List.filter_cons_of_neg hq, ih hslots.2]
  once := h.once.sublist (List.filter_sublist.map _)

end Standing

namespace FocusedDocument

variable {s s' : FocusedDocument}

theorem scan_entries (s : FocusedDocument) : s.scan.entries = s.entries := rfl

/-- Nothing but the entries is left by a sweep. -/
theorem standing_swept (s : FocusedDocument) : Standing s.index s.swept s.entries where
  slots := by
    have hswept : s.swept = dropPositions (dead s.index.focusKey true s.focus) s.focus :=
      removeAt_dead _ _ _ _
    have hsome : ∀ o ∈ s.swept.map s.index.liveRef, o.isSome = true := by
      intro o ho
      obtain ⟨raw, hraw, rfl⟩ := List.mem_map.1 ho
      rw [hswept] at hraw
      have hkey := isSome_of_mem_dropPositions hraw
      rwa [focusKey, Option.isSome_map] at hkey
    obtain ⟨es, hes⟩ := exists_map_some hsome
    rw [hes]
    have hkey : ∀ raw ∈ s.focus,
        s.index.focusKey raw = (s.index.liveRef raw).map FocusRef.itemId := fun _ _ => rfl
    have hentries : s.swept.filterMap s.index.liveRef = s.entries := by
      rw [hswept, filterMap_dropPositions_on hkey, entries, s.index.focusEntries_eq]
    have hself := congrArg (List.filterMap id) hes
    rw [List.filterMap_map, Function.id_comp, hentries] at hself
    simp [hself]
  once := s.index.nodup_focusEntries s.focus

/-- The slots that `prune_focus_refs` leaves. -/
theorem pruneFocusRefs_eq (s : FocusedDocument) (items : List String) :
    s.pruneFocusRefs items = s.swept.filter fun raw => !namesAny items raw := by
  have hasc : (s.toDelete items).Pairwise (· < ·) := sortOn_ascending
  rw [pruneFocusRefs, removeAt_eq hasc, swept, scan, scanFocus, removeAt_dead]
  refine (filter_dropFrom fun i raw hget => ?_).symm
  rw [toDelete, mem_sortOn, List.mem_toFinset, List.mem_append, Nat.zero_add]
  refine or_congr_right ?_
  rw [positionsOf, mem_positionsFrom]
  constructor
  · rintro ⟨a, ha, -, hget'⟩
    rw [Nat.sub_zero, hget, Option.some.injEq] at hget'
    rw [hget', ha]
    rfl
  · intro hp
    exact ⟨raw, by simpa using hp, Nat.zero_le i, hget⟩

theorem standing_pruned (s : FocusedDocument) (items : List String) :
    Standing s.index (s.pruneFocusRefs items)
      (s.entries.filter fun r => !items.contains r.itemId) := by
  rw [pruneFocusRefs_eq]
  refine s.standing_swept.filter fun raw r hr => ?_
  obtain ⟨hparse, -⟩ := Option.filter_eq_some_iff.1 hr
  rw [namesAny, hparse]
  rfl

/-! ## Whole documents and their focus -/

end FocusedDocument

/-- What happens to the document and its container. -/
inductive FocusAction
  | add (itemId : String) (index : ℕ)
  | addForeign (docId itemId : String) (index : ℕ)
  | addMany (itemIds : List String)
  | remove (itemId : String)
  | removeMany (itemIds : List String)
  | move (itemId : String) (index : ℕ)
  | mutate (m : Mutation)
  | reconcile (cutoff : Option ℤ) (fresh : String → String)
  /-- Changes of others are imported, a step is undone or redone, or a file is imported. -/
  | merge (merged : FocusedDocument)

namespace FocusedDocument

/-- One action; `none` is an error, which writes nothing. -/
def act (s : FocusedDocument) : FocusAction → Option FocusedDocument
  | .add itemId index => s.addToFocus itemId index
  | .addForeign docId itemId index => s.addForeignToFocus docId itemId index
  | .addMany itemIds => some (s.addToFocusMany itemIds)
  | .remove itemId => some (s.removeFromFocus itemId)
  | .removeMany itemIds => some (s.removeFromFocusMany itemIds)
  | .move itemId index => some (s.moveInFocus itemId index)
  | .mutate (.lifecycle itemIds write now) => s.setItemsLifecycle itemIds write now
  | .mutate m => (s.toDocument.apply m).map fun d => { d with focus := s.focus }
  | .reconcile cutoff fresh => some (s.reconcileWith cutoff fresh).1
  | .merge merged => some merged

/-- The machine of one open document with its focus. -/
def focusDocuments : Machine FocusedDocument FocusAction where
  init _ := True
  step := act

/-- An entry shows the item. -/
def shows (s : FocusedDocument) (itemId : String) : Prop :=
  itemId ∈ s.entries.map FocusRef.itemId

instance (s : FocusedDocument) (itemId : String) : Decidable (s.shows itemId) :=
  inferInstanceAs (Decidable (_ ∈ _))

/-- The ref is the entry at position `k`, and the other entries, refs to other documents among
them, are those of before in their order. -/
def PutAt (s s' : FocusedDocument) (r : FocusRef) (k : ℕ) : Prop :=
  s'.entries[k]? = some r ∧
    (s'.entries.filter fun q => q.itemId ≠ r.itemId) =
      s.entries.filter fun q => q.itemId ≠ r.itemId

/-- A container that was written holds refs of entries only. -/
def Clean (s s' : FocusedDocument) : Prop :=
  s'.focus ≠ s.focus → ∀ raw ∈ s'.focus, ∃ r ∈ s'.entries, FocusRef.parse raw = some r

theorem contains_iff {s : FocusedDocument} {itemId : String} :
    s.scan.contains itemId = true ↔ s.shows itemId := by
  simp [FocusScan.contains, shows, scan_entries]

theorem standing_entries {s s' : FocusedDocument} {es : List FocusRef} (hindex : s'.index = s.index)
    (h : Standing s.index s'.focus es) : s'.entries = es ∧ Clean s s' := by
  have hes : s'.entries = es := by
    rw [entries, hindex]
    exact h.entries_eq
  refine ⟨hes, fun _ raw hraw => ?_⟩
  have hlive : s.index.liveRef raw ∈ es.map some := h.slots ▸ List.mem_map_of_mem hraw
  obtain ⟨r, hr, hsome⟩ := List.mem_map.1 hlive
  exact ⟨r, hes ▸ hr, (Option.filter_eq_some_iff.1 hsome.symm).1⟩

theorem PutAt.entries_eq {s s' : FocusedDocument} {r : FocusRef} {k : ℕ} (h : PutAt s s' r k) :
    s'.entries = placeAt (s.entries.filter fun q => q.itemId ≠ r.itemId) k r :=
  eq_placeAt_of_key (s'.index.nodup_focusEntries _) h.1 h.2

/-- The other entries, where the item is not shown. -/
theorem filter_entries_of_new {s : FocusedDocument} {itemId : String} (h : ¬ s.shows itemId) :
    (s.entries.filter fun q => q.itemId ≠ itemId) = s.entries := by
  refine List.filter_eq_self.2 fun q hq => decide_eq_true fun heq => h ?_
  rw [← heq]
  exact List.mem_map_of_mem hq

/-! ## Adding and moving -/

section Interactions

variable {s s' : FocusedDocument} {itemId docId : String} {index : ℕ}

theorem insertFocusEntry_spec {r : FocusRef} (hr : s.index.liveRef r.encode = some r)
    (hnew : ¬ s.shows r.itemId) (index : ℕ) :
    PutAt s (s.insertFocusEntry r index) r (min index s.entries.length) ∧
      Clean s (s.insertFocusEntry r index) := by
  have hput := s.standing_swept.placeAt hr hnew (min index s.entries.length)
  obtain ⟨hentries, hclean⟩ : (s.insertFocusEntry r index).entries = _ ∧
      Clean s (s.insertFocusEntry r index) := standing_entries rfl hput
  refine ⟨⟨?_, ?_⟩, hclean⟩
  · rw [hentries]
    exact getElem?_placeAt_self (min_le_right _ _) r
  · rw [hentries]
    exact filter_placeAt (by simp) _ _

theorem addToFocus_spec (hplain : ∀ id, (s.index.metas.get id).isSome = true → PlainId id)
    (h : s.addToFocus itemId index = some s') :
    (if s.index.isOpenItem itemId = true ∧ ¬ s.shows itemId then
      PutAt s s' ⟨none, itemId⟩ (min index s.entries.length)
    else s'.entries = s.entries) ∧ Clean s s' := by
  unfold addToFocus at h
  split at h
  · cases h
  rename_i m hm
  have hopen : s.index.isOpenItem itemId = m.isOpen := by
    rw [isOpenItem, hm]
    rfl
  rw [hopen]
  split at h
  · rename_i hcontains
    cases h
    have hshows := contains_iff.1 hcontains
    rw [if_neg fun hboth => hboth.2 hshows]
    exact ⟨rfl, fun hne => absurd rfl hne⟩
  rename_i hcontains
  have hnew : ¬ s.shows itemId := fun hshows => hcontains (contains_iff.2 hshows)
  split at h
  · rename_i hclosed
    cases h
    rw [if_neg fun hboth => by simp [hboth.1] at hclosed]
    exact ⟨rfl, fun hne => absurd rfl hne⟩
  · rename_i hlive
    cases h
    have hisopen : m.isOpen = true := by simpa using hlive
    rw [if_pos ⟨hisopen, hnew⟩]
    refine insertFocusEntry_spec ?_ hnew index
    have hid : PlainId itemId := hplain itemId (by rw [hm]; rfl)
    have hparse : FocusRef.parse (FocusRef.encode ⟨none, itemId⟩) = some ⟨none, itemId⟩ :=
      FocusRef.parse_encode (fun _ hd => by cases hd) hid
    rw [liveRef, hparse, Option.filter_some, if_pos]
    simp [hopen, hisopen]

theorem addForeignToFocus_spec (h : s.addForeignToFocus docId itemId index = some s') :
    (if s.shows itemId then s'.entries = s.entries
    else PutAt s s' ⟨some docId, itemId⟩ (min index s.entries.length)) ∧ Clean s s' := by
  unfold addForeignToFocus at h
  split at h
  · cases h
  rename_i hdoc
  split at h
  · cases h
  rename_i hitem
  split at h
  · rename_i hcontains
    cases h
    rw [if_pos (contains_iff.1 hcontains)]
    exact ⟨rfl, fun hne => absurd rfl hne⟩
  · rename_i hcontains
    cases h
    have hnew : ¬ s.shows itemId := fun hshows => hcontains (contains_iff.2 hshows)
    rw [if_neg hnew]
    refine insertFocusEntry_spec ?_ hnew index
    have hparse : FocusRef.parse (FocusRef.encode ⟨some docId, itemId⟩) =
        some ⟨some docId, itemId⟩ := by
      refine FocusRef.parse_encode (fun d hd => ?_) (not_or.1 hitem)
      cases hd
      exact not_or.1 hdoc
    rw [liveRef, hparse]
    rfl

theorem mem_toAdd {itemIds : List String} {id : String} :
    id ∈ s.toAdd itemIds ↔ (id ∈ itemIds ∧ s.index.isOpenItem id = true) ∧ ¬ s.shows id := by
  rw [toAdd, mem_firstsFrom, List.mem_filter, List.mem_toFinset]
  rfl

theorem addToFocusMany_spec (hplain : ∀ id, (s.index.metas.get id).isSome = true → PlainId id)
    (itemIds : List String) :
    (s.addToFocusMany itemIds).entries =
        (s.toAdd itemIds).map (fun id => ⟨none, id⟩) ++ s.entries ∧
      Clean s (s.addToFocusMany itemIds) := by
  unfold addToFocusMany
  split
  · rename_i hnil
    rw [hnil]
    exact ⟨rfl, fun hne => absurd rfl hne⟩
  split
  · rename_i hnone
    rw [hnone.1]
    exact ⟨rfl, fun hne => absurd rfl hne⟩
  · refine standing_entries rfl ?_
    have hrun : ∀ (xs : List String) (focus : List String),
        placeRun focus 0 xs = xs ++ focus := fun xs focus => by
      simpa using placeRun_append_length [] focus xs
    show Standing s.index
      (placeRun s.swept 0 ((s.toAdd itemIds).map fun id => FocusRef.encode ⟨none, id⟩)) _
    rw [hrun]
    refine ⟨?_, ?_⟩
    · rw [List.map_append, List.map_append, s.standing_swept.slots, List.map_map, List.map_map]
      congr 1
      refine List.map_congr_left fun id hid => ?_
      obtain ⟨⟨-, hopen⟩, -⟩ := mem_toAdd.1 hid
      obtain ⟨m, hm, -⟩ := isOpenItem_iff.1 hopen
      have hparse : FocusRef.parse (FocusRef.encode ⟨none, id⟩) = some ⟨none, id⟩ :=
        FocusRef.parse_encode (fun _ hd => by cases hd) (hplain id (by rw [hm]; rfl))
      rw [Function.comp_apply, Function.comp_apply, liveRef, hparse, Option.filter_some, if_pos]
      simp [hopen]
    · rw [List.map_append, List.map_map, List.nodup_append]
      refine ⟨?_, s.standing_swept.once, ?_⟩
      · have hself : (s.toAdd itemIds).map
            (FocusRef.itemId ∘ fun id => (⟨none, id⟩ : FocusRef)) = s.toAdd itemIds :=
          List.map_id _
        rw [hself]
        exact firstsFrom_nodup _ _
      · rintro a ha b hb rfl
        obtain ⟨id, hid, rfl⟩ := List.mem_map.1 ha
        exact (mem_toAdd.1 hid).2 hb

theorem moveInFocus_spec (s : FocusedDocument) (itemId : String) (index : ℕ) :
    (if s.shows itemId then
      ∃ r ∈ s.entries, r.itemId = itemId ∧
        PutAt s (s.moveInFocus itemId index) r (min index (s.entries.length - 1))
    else (s.moveInFocus itemId index).entries = s.entries) ∧
      Clean s (s.moveInFocus itemId index) := by
  have hstill : ({ s with focus := s.swept } : FocusedDocument).entries = s.entries ∧
      Clean s { s with focus := s.swept } := standing_entries rfl s.standing_swept
  have hnone : s.scan.position itemId = none ↔ ¬ s.shows itemId := by
    rw [FocusScan.position, List.findIdx?_eq_none_iff, scan_entries, shows, List.mem_map]
    simp
  unfold moveInFocus
  cases hpos : s.scan.position itemId with
  | none =>
    rw [if_neg (hnone.1 hpos)]
    exact hstill
  | some source =>
    have hshows : s.shows itemId := by
      by_contra hnot
      rw [hnone.2 hnot] at hpos
      cases hpos
    obtain ⟨hlt, r, hget, hid, herase⟩ :=
      eraseIdx_of_key (s.index.nodup_focusEntries s.focus) hpos
    have hr : r ∈ s.entries := List.mem_of_getElem? hget
    rw [if_pos hshows]
    dsimp only
    split
    · rename_i heq
      refine ⟨⟨r, hr, hid, ?_⟩, hstill.2⟩
      rw [PutAt, hstill.1, ← scan_entries, ← heq]
      exact ⟨hget, rfl⟩
    · have hdest : min index (s.entries.length - 1) ≤
          (s.entries.filter fun q => q.itemId ≠ itemId).length := by
        have hlen := List.length_eraseIdx_of_lt hlt
        rw [herase] at hlen
        exact (min_le_right _ _).trans (Nat.le_of_eq hlen.symm)
      rw [scan_entries]
      generalize min index (s.entries.length - 1) = dest at hdest ⊢
      have hmoved : moveWithin s.entries source dest =
          placeAt (s.entries.filter fun q => q.itemId ≠ itemId) dest r := by
        rw [moveWithin, show s.entries[source]? = some r from hget]
        dsimp only
        rw [show s.entries.eraseIdx source = _ from herase]
        rfl
      have hstands : Standing s.index (moveWithin s.swept source dest)
          (placeAt (s.entries.filter fun q => q.itemId ≠ itemId) dest r) :=
        hmoved ▸ s.standing_swept.moveWithin source dest
      obtain ⟨hentries, hclean⟩ : FocusedDocument.entries
          { s with focus := moveWithin s.swept source dest } = _ ∧ Clean s _ :=
        standing_entries rfl hstands
      refine ⟨⟨r, hr, hid, ?_, ?_⟩, hclean⟩
      · rw [hentries]
        exact getElem?_placeAt_self hdest r
      · rw [hentries, hid, filter_placeAt (by simp [hid]), List.filter_filter]
        simp

/-! ## Removing -/

theorem entries_pruned (s : FocusedDocument) (items : List String) :
    FocusedDocument.entries { s with focus := s.pruneFocusRefs items } =
        s.entries.filter (fun r => r.itemId ∉ items) ∧
      Clean s { s with focus := s.pruneFocusRefs items } := by
  have hkept : s.entries.filter (fun r => !items.contains r.itemId) =
      s.entries.filter fun r => r.itemId ∉ items :=
    List.filter_congr fun r _ => by simp
  rw [← hkept]
  exact standing_entries rfl (s.standing_pruned items)

theorem removeFromFocusMany_spec (s : FocusedDocument) (itemIds : List String) :
    (s.removeFromFocusMany itemIds).entries = s.entries.filter (fun r => r.itemId ∉ itemIds) ∧
      Clean s (s.removeFromFocusMany itemIds) := by
  unfold removeFromFocusMany
  split
  · rename_i hnil
    rw [hnil]
    exact ⟨by simp, fun hne => absurd rfl hne⟩
  · exact s.entries_pruned itemIds

theorem removeFromFocus_spec (s : FocusedDocument) (itemId : String) :
    (s.removeFromFocus itemId).entries = s.entries.filter (fun r => r.itemId ≠ itemId) ∧
      Clean s (s.removeFromFocus itemId) := by
  have hsingle : s.entries.filter (fun r => r.itemId ∉ [itemId]) =
      s.entries.filter fun r => r.itemId ≠ itemId :=
    List.filter_congr fun r _ => by simp
  rw [← hsingle]
  exact s.entries_pruned [itemId]

end Interactions

end FocusedDocument

/-! ## Closing and deleting -/

/-- The index knows every item and whether it is open. -/
def Document.Mirrored (d : Document) : Prop := ∀ id, d.index.metas.get id = d.content.metaOf id

section Mirrored

variable {d d' : Document} {write : LifecycleWrite} {now : ℤ} {id : String}

theorem Document.Mirrored.isOpenItem (h : d.Mirrored) (id : String) :
    d.index.isOpenItem id = d.content.openNow id := by
  rw [ProjectionIndex.isOpenItem, h id, Content.metaOf, Content.openNow, Option.map_map]
  rfl

theorem syncItemOpenness_metas (idx : ProjectionIndex) (id : String) (openNow : Bool) (y : String) :
    (idx.syncItemOpenness id openNow).metas.get y =
      if y = id then (idx.metas.get id).map fun m => { m with isOpen := openNow }
      else idx.metas.get y := by
  unfold syncItemOpenness
  cases hm : idx.metas.get id with
  | none =>
    rw [setOpen, hm]
    by_cases hy : y = id
    · rw [if_pos hy, hy]
      exact hm
    · rw [if_neg hy]
      rfl
  | some slice =>
    obtain ⟨base, hset, hmetas, -⟩ := setOpen_eq hm openNow
    rw [hset]
    have hbase : base.metas.get y =
        if y = id then some { slice with isOpen := openNow } else idx.metas.get y := by
      rw [hmetas, FMap.get_insert]
    rw [Option.map_some, ← hbase]
    dsimp only
    split
    · rw [(sameBase_spliceOpenOut _ _ _).metas]
      split
      · rw [(sameBase_bumpVisible _ _ _).metas]
      · rfl
    · split
      · rfl
      · rw [(sameBase_refreshOpen _ _).metas]

theorem mirrored_syncLifecycle (h : d.Mirrored) (id : String) :
    (Document.syncLifecycle write now d id).Mirrored := by
  unfold Document.syncLifecycle
  cases hw : (d.content.item id).bind fun m => applyLifecycleWrite m write now with
  | none => exact h
  | some m' =>
    obtain ⟨m, hm, hwrite⟩ := Option.bind_eq_some_iff.1 hw
    obtain ⟨hloc, hcreated⟩ := applyLifecycleWrite_keeps hwrite
    intro y
    dsimp only
    rw [syncItemOpenness_metas, Content.metaOf, Content.item_setItem]
    by_cases hy : y = id
    · rw [if_pos hy, if_pos hy, h id, Content.metaOf, hm, Option.map_some, Option.map_some,
        Option.map_some, itemMeta_congr hloc hcreated]
    · rw [if_neg hy, if_neg hy]
      exact h y

theorem mirrored_patchLifecycle (h : d.Mirrored) (ids : List String) :
    (d.patchLifecycle ids write now).Mirrored := by
  unfold Document.patchLifecycle
  induction ids generalizing d with
  | nil => exact h
  | cons id ids ih => exact ih (mirrored_syncLifecycle h id)

theorem mirrored_setItemsLifecycle (h : d.Mirrored) {ids : List String}
    (hset : d.setItemsLifecycle ids write now = some d') : d'.Mirrored := by
  unfold Document.setItemsLifecycle at hset
  split at hset
  · cases hset
    exact h
  split at hset
  · cases hset
  split at hset
  · cases hset
    unfold Document.rebuildLifecycle
    split
    · exact (mirrors_computeIndex _).metas
    · exact h
  · cases hset
    exact mirrored_patchLifecycle h ids

end Mirrored

theorem Standing.congr {idx idx' : ProjectionIndex} {focus : List String} {es : List FocusRef}
    (h : Standing idx focus es)
    (hopen : ∀ r ∈ es, idx'.isOpenItem r.itemId = idx.isOpenItem r.itemId) :
    Standing idx' focus es where
  slots := by
    rw [← h.slots]
    refine List.map_congr_left fun raw hraw => ?_
    have hlive : idx.liveRef raw ∈ es.map some := h.slots ▸ List.mem_map_of_mem hraw
    obtain ⟨r, hr, hsome⟩ := List.mem_map.1 hlive
    rw [← hsome]
    obtain ⟨hparse, hkeep⟩ := Option.filter_eq_some_iff.1 hsome.symm
    rw [liveRef, hparse, Option.filter_some, if_pos]
    rw [hopen r hr]
    exact hkeep
  once := h.once

theorem ProjectionIndex.focusEntries_congr {idx idx' : ProjectionIndex}
    (hopen : idx'.isOpenItem = idx.isOpenItem) (focus : List String) :
    idx'.focusEntries focus = idx.focusEntries focus := by
  rw [focusEntries, focusEntries, hopen]

namespace FocusedDocument

variable {s s' : FocusedDocument} {itemIds : List String} {write : LifecycleWrite} {now : ℤ}

/-- An item that a closing write changes is closed. -/
theorem not_isOpen_of_closes {m m' : ItemMap} (hcloses : closes write = true)
    (h : applyLifecycleWrite m write now = some m') : m'.isOpen = false := by
  unfold closes at hcloses
  split at hcloses
  · unfold applyLifecycleWrite applyLifecycle at h
    dsimp only at h
    split at h
    · cases h
    · cases h
      rfl
  · unfold applyLifecycleWrite applyLifecycle at h
    dsimp only at h
    split at h
    · cases h
    · cases h
      rfl
  · cases hcloses

/-- Items that a batch does not change keep their flag, and those that a closing one changes are
closed. -/
theorem openNow_after {d d' : Document} (h : d.setItemsLifecycle itemIds write now = some d')
    (hcloses : closes write = true) (id : String) :
    d'.content.openNow id =
      if id ∈ itemIds.filter (Document.writes write now d.content) then false
      else d.content.openNow id := by
  obtain ⟨hnodup, hcontent⟩ := setItemsLifecycle_content h
  rw [hcontent, Content.openNow, item_foldl_writeLifecycle _ hnodup, Content.openNow]
  simp only [List.mem_filter, Document.writes]
  by_cases hid : id ∈ itemIds
  · rw [if_pos hid]
    cases hm : d.content.item id with
    | none => simp
    | some m =>
      rw [Option.bind_some, Option.map_some, ItemMap.lifecycled]
      cases hw : applyLifecycleWrite m write now with
      | none => simp
      | some m' => simp [hid, not_isOpen_of_closes hcloses hw]
  · rw [if_neg hid, if_neg fun hboth => hid hboth.1]

/-- **Closing** takes the closed items out of the lens and leaves the others in their order. -/
theorem setItemsLifecycle_spec (hmirror : s.Mirrored) (hcloses : closes write = true)
    (h : s.setItemsLifecycle itemIds write now = some s') :
    s'.entries = s.entries.filter (fun r => r.itemId ∉ s.changed itemIds write now) ∧
      Clean s s' := by
  obtain ⟨d, hd, rfl⟩ := Option.map_eq_some_iff.1 h
  have hmirror' := mirrored_setItemsLifecycle hmirror hd
  have hopen : ∀ id, d.index.isOpenItem id =
      if id ∈ s.changed itemIds write now then false else s.index.isOpenItem id := by
    intro id
    rw [hmirror'.isOpenItem, hmirror.isOpenItem, openNow_after hd hcloses]
    rfl
  by_cases hnone : s.changed itemIds write now = []
  · rw [hnone] at hopen ⊢
    dsimp only
    rw [if_neg fun hboth => hboth.1 rfl]
    refine ⟨?_, fun hne => absurd rfl hne⟩
    have hsame : d.index.isOpenItem = s.index.isOpenItem := by
      funext id
      rw [hopen, if_neg List.not_mem_nil]
    rw [entries, entries, focusEntries_congr hsame]
    simp
  · dsimp only
    rw [if_pos ⟨hnone, hcloses⟩]
    have hkept : s.entries.filter (fun r => !(s.changed itemIds write now).contains r.itemId) =
        s.entries.filter fun r => r.itemId ∉ s.changed itemIds write now :=
      List.filter_congr fun r _ => by simp
    have hstands := s.standing_pruned (s.changed itemIds write now)
    rw [hkept] at hstands
    have hstands' : Standing d.index (s.pruneFocusRefs (s.changed itemIds write now)) _ :=
      hstands.congr fun r hr => by
        have hout := of_decide_eq_true (List.mem_filter.1 hr).2
        rw [hopen, if_neg hout]
    have hafter : FocusedDocument.entries
          { d with focus := s.pruneFocusRefs (s.changed itemIds write now) } = _ ∧
        Clean { d with focus := s.focus } _ := standing_entries rfl hstands'
    exact hafter

/-- A hard deletion of items that are not open. -/
theorem entries_hardDelete (hmirror : s.Mirrored) {ids : List String}
    (hclosed : ∀ id ∈ ids, s.content.openNow id = false) :
    (s.toDocument.hardDeleteItems ids).index.focusEntries s.focus = s.entries := by
  have hmetas : ∀ (idx : ProjectionIndex) (ids : List String),
      SameBase idx (ids.foldl (Document.withdraw s.index) idx) := by
    intro idx ids
    induction ids generalizing idx with
    | nil => exact SameBase.refl idx
    | cons id ids ih =>
      refine SameBase.trans ?_ (ih _)
      unfold Document.withdraw
      split
      · exact SameBase.refl idx
      · dsimp only
        split
        · exact (sameBase_spliceOpenOut _ _ _).trans (sameBase_bumpVisible _ _ _)
        · exact sameBase_spliceOpenOut _ _ _
  refine focusEntries_congr ?_ s.focus
  funext id
  have hget : (s.toDocument.hardDeleteItems ids).index.metas.get id =
      if id ∈ ids then none else s.index.metas.get id := by
    unfold Document.hardDeleteItems
    dsimp only
    rw [(hmetas _ ids).metas]
    exact foldl_removeItem_metas ids s.index id
  rw [isOpenItem, hget]
  by_cases hid : id ∈ ids
  · rw [if_pos hid, hmirror.isOpenItem, hclosed id hid]
    rfl
  · rw [if_neg hid]
    rfl

theorem openNow_of_binned {c : Content} {id : String} {m : ItemMap} (hm : c.item id = some m)
    (h : m.binnedAt.isSome = true) : c.openNow id = false := by
  obtain ⟨time, htime⟩ := Option.isSome_iff_exists.1 h
  rw [Content.openNow, hm, Option.map_some, Option.getD_some, ItemMap.isOpen, htime]
  rfl

theorem deleteBinned_entries (hmirror : s.Mirrored) {d : Document}
    (h : s.toDocument.deleteBinnedItems itemIds = some d) :
    d.index.focusEntries s.focus = s.entries := by
  unfold Document.deleteBinnedItems at h
  split at h
  · cases h
    rfl
  split at h
  · cases h
  split at h
  · cases h
  split at h
  · cases h
  rename_i hbinned
  cases h
  refine entries_hardDelete hmirror fun id hid => ?_
  have hall : ∀ id ∈ itemIds, (s.content.item id).any (fun m => m.binnedAt.isSome) = true := by
    simpa using hbinned
  have hb := hall id hid
  cases hm : s.content.item id with
  | none =>
    rw [hm] at hb
    cases hb
  | some m =>
    rw [hm] at hb
    exact openNow_of_binned hm hb

theorem emptyBin_entries (hmirror : s.Mirrored) (hid : s.content.Identified) :
    s.toDocument.emptyBin.index.focusEntries s.focus = s.entries := by
  unfold Document.emptyBin
  dsimp only
  split
  · rfl
  · refine entries_hardDelete hmirror fun id hmem => ?_
    obtain ⟨v, hv, rfl⟩ := List.mem_map.1 hmem
    obtain ⟨hv, hbinned⟩ := List.mem_filter.1 hv
    obtain ⟨key, -, hview⟩ := List.mem_filterMap.1 hv
    obtain ⟨m, hm, hview⟩ := Option.bind_eq_some_iff.1 hview
    unfold itemView at hview
    rw [hid key m hm, Option.bind_some] at hview
    obtain ⟨text, -, hview⟩ := Option.bind_eq_some_iff.1 hview
    obtain ⟨created, -, rfl⟩ := Option.map_eq_some_iff.1 hview
    exact openNow_of_binned hm hbinned

/-! ## Refs that are gone -/

/-- No slot names the item. -/
def Unnamed (s : FocusedDocument) (itemId : String) : Prop :=
  ∀ raw ∈ s.focus, namesAny [itemId] raw = false

theorem namesAny_single {itemId raw : String} :
    namesAny [itemId] raw = true ↔ ∃ r, FocusRef.parse raw = some r ∧ r.itemId = itemId := by
  cases hparse : FocusRef.parse raw <;> simp [namesAny, hparse]

theorem Unnamed.not_shows {itemId : String} (h : s.Unnamed itemId) : ¬ s.shows itemId := by
  intro hshows
  obtain ⟨r, hr, rfl⟩ := List.mem_map.1 hshows
  obtain ⟨hr, -⟩ := List.mem_filter.1 ((firstsOn_sublist _ _).subset hr)
  obtain ⟨raw, hraw, hparse⟩ := List.mem_filterMap.1 hr
  have hnames := namesAny_single.2 ⟨r, hparse, rfl⟩
  rw [h raw hraw] at hnames
  cases hnames

/-- A clean container names only what it shows. -/
theorem Clean.unnamed {itemId : String} (h : Clean s s') (hwrote : s'.focus ≠ s.focus)
    (hout : ¬ s'.shows itemId) : s'.Unnamed itemId := by
  intro raw hraw
  rw [Bool.eq_false_iff]
  intro hnames
  obtain ⟨r, hparse, rfl⟩ := namesAny_single.1 hnames
  obtain ⟨q, hq, hparse'⟩ := h hwrote raw hraw
  obtain rfl := Option.some.inj (hparse.symm.trans hparse')
  exact hout (List.mem_map_of_mem hq)

end FocusedDocument

open FocusedDocument

/-- The action writes a ref that names the item. -/
def FocusAction.Adds (itemId : String) : FocusAction → Prop
  | .add id _ => namesAny [itemId] (FocusRef.encode ⟨none, id⟩) = true
  | .addForeign docId id _ => namesAny [itemId] (FocusRef.encode ⟨some docId, id⟩) = true
  | .addMany ids => ∃ id ∈ ids, namesAny [itemId] (FocusRef.encode ⟨none, id⟩) = true
  | .merge merged => ¬ merged.Unnamed itemId
  | _ => False

namespace FocusedDocument

variable {s s' : FocusedDocument} {itemId : String}

theorem mem_of_mem_swept {raw : String} (h : raw ∈ s.swept) : raw ∈ s.focus := by
  rw [swept, scan, scanFocus, removeAt_dead] at h
  exact (dropPositions_sublist _ _).subset h

theorem mem_of_mem_pruned {raw : String} {items : List String}
    (h : raw ∈ s.pruneFocusRefs items) : raw ∈ s.focus := by
  rw [pruneFocusRefs_eq] at h
  exact mem_of_mem_swept (List.mem_filter.1 h).1

theorem Unnamed.of_subset (h : s.Unnamed itemId) (hsub : ∀ raw ∈ s'.focus, raw ∈ s.focus) :
    s'.Unnamed itemId := fun raw hraw => h raw (hsub raw hraw)

theorem Unnamed.insert {r : FocusRef} {index : ℕ} (h : s.Unnamed itemId)
    (hr : ¬ namesAny [itemId] r.encode = true) : (s.insertFocusEntry r index).Unnamed itemId := by
  intro raw hraw
  rcases mem_placeAt.1 hraw with rfl | hraw
  · exact Bool.eq_false_iff.2 hr
  · exact h raw (mem_of_mem_swept hraw)

/-- **A step** that adds no ref to the item leaves none. -/
theorem unnamed_act {a : FocusAction} (hadds : ¬ a.Adds itemId) (h : s.Unnamed itemId)
    (hact : s.act a = some s') : s'.Unnamed itemId := by
  cases a with
  | add id index =>
    replace hact : s.addToFocus id index = some s' := hact
    unfold addToFocus at hact
    split at hact
    · cases hact
    split at hact
    · cases hact
      exact h
    split at hact
    · cases hact
      exact h
    · cases hact
      exact h.insert hadds
  | addForeign docId id index =>
    replace hact : s.addForeignToFocus docId id index = some s' := hact
    unfold addForeignToFocus at hact
    split at hact
    · cases hact
    split at hact
    · cases hact
    split at hact
    · cases hact
      exact h
    · cases hact
      exact h.insert hadds
  | addMany ids =>
    cases hact
    unfold addToFocusMany
    split
    · exact h
    split
    · exact h
    · intro raw hraw
      have hsplit := placeRun_append_length [] s.swept
        ((s.toAdd ids).map fun id => FocusRef.encode ⟨none, id⟩)
      have hraw : raw ∈ [] ++ (s.toAdd ids).map (fun id => FocusRef.encode ⟨none, id⟩) ++
          s.swept := hsplit ▸ hraw
      rw [List.nil_append, List.mem_append] at hraw
      rcases hraw with hnew | hold
      · obtain ⟨id, hid, rfl⟩ := List.mem_map.1 hnew
        refine Bool.eq_false_iff.2 fun hnames => hadds ⟨id, ?_, hnames⟩
        exact (mem_toAdd.1 hid).1.1
      · exact h raw (mem_of_mem_swept hold)
  | remove id =>
    cases hact
    exact h.of_subset fun raw hraw => mem_of_mem_pruned hraw
  | removeMany ids =>
    cases hact
    unfold removeFromFocusMany
    split
    · exact h
    · exact h.of_subset fun raw hraw => mem_of_mem_pruned hraw
  | move id index =>
    cases hact
    have hswept : Unnamed { s with focus := s.swept } itemId :=
      h.of_subset fun raw hraw => mem_of_mem_swept hraw
    unfold moveInFocus
    split
    · exact hswept
    · dsimp only
      split
      · exact hswept
      · exact hswept.of_subset fun raw hraw => (moveWithin_perm _ _ _).mem_iff.1 hraw
  | mutate m =>
    cases m with
    | lifecycle ids write now =>
      obtain ⟨d, -, rfl⟩ := Option.map_eq_some_iff.1 hact
      dsimp only
      refine h.of_subset fun raw hraw => ?_
      dsimp only at hraw
      split at hraw
      · exact mem_of_mem_pruned hraw
      · exact hraw
    | emptyBin | rebuilt _ | frame _ _ _ =>
      cases hact
      exact h
    | _ =>
      obtain ⟨d, -, rfl⟩ := Option.map_eq_some_iff.1 hact
      exact h
  | reconcile cutoff fresh =>
    cases hact
    unfold reconcileWith
    dsimp only
    split
    · exact h
    · exact h.of_subset fun raw hraw => mem_of_mem_swept hraw
  | merge merged =>
    cases hact
    exact not_not.1 hadds

/-- **A run** that adds no ref to the item does not show it. -/
theorem unnamed_run {as : List FocusAction} (hadds : ∀ a ∈ as, ¬ a.Adds itemId)
    (h : s.Unnamed itemId) (hrun : focusDocuments.exec s as = some s') : s'.Unnamed itemId :=
  Machine.exec_keeps (P := fun t => t.Unnamed itemId)
    (fun _ a _ ha ht hstep => unnamed_act (hadds a ha) ht hstep) h hrun

/-- What an action does to the lens. -/
def FocusEffect (s s' : FocusedDocument) : FocusAction → Prop
  | .add itemId index =>
    (if s.index.isOpenItem itemId = true ∧ ¬ s.shows itemId then
      PutAt s s' ⟨none, itemId⟩ (min index s.entries.length)
    else s'.entries = s.entries) ∧ Clean s s'
  | .addForeign docId itemId index =>
    (if s.shows itemId then s'.entries = s.entries
    else PutAt s s' ⟨some docId, itemId⟩ (min index s.entries.length)) ∧ Clean s s'
  | .addMany itemIds =>
    s'.entries = (s.toAdd itemIds).map (fun id => ⟨none, id⟩) ++ s.entries ∧ Clean s s'
  | .remove itemId =>
    s'.entries = s.entries.filter (fun r => r.itemId ≠ itemId) ∧ Clean s s'
  | .removeMany itemIds =>
    s'.entries = s.entries.filter (fun r => r.itemId ∉ itemIds) ∧ Clean s s'
  | .move itemId index =>
    (if s.shows itemId then
      ∃ r ∈ s.entries, r.itemId = itemId ∧ PutAt s s' r (min index (s.entries.length - 1))
    else s'.entries = s.entries) ∧ Clean s s'
  | .mutate (.lifecycle itemIds write now) =>
    closes write = true →
      s'.entries = s.entries.filter (fun r => r.itemId ∉ s.changed itemIds write now) ∧
        Clean s s' ∧ ∀ id ∈ s.changed itemIds write now, s'.Unnamed id
  | .mutate (.deleteBinned _) => s'.entries = s.entries
  | .mutate .emptyBin => s'.entries = s.entries
  | _ => True

theorem unnamed_closed {itemIds : List String} {write : LifecycleWrite} {now : ℤ}
    (hcloses : closes write = true) (h : s.setItemsLifecycle itemIds write now = some s') :
    ∀ id ∈ s.changed itemIds write now, s'.Unnamed id := by
  obtain ⟨d, -, rfl⟩ := Option.map_eq_some_iff.1 h
  intro id hid raw hraw
  dsimp only at hraw
  rw [if_pos ⟨List.ne_nil_of_mem hid, hcloses⟩, pruneFocusRefs_eq] at hraw
  have hkept := (List.mem_filter.1 hraw).2
  rw [Bool.eq_false_iff]
  intro hnames
  obtain ⟨r, hparse, rfl⟩ := namesAny_single.1 hnames
  rw [namesAny, hparse] at hkept
  simp [hid] at hkept

theorem focusEffect_act {a : FocusAction}
    (hplain : ∀ id, (s.index.metas.get id).isSome = true → PlainId id) (hmirror : s.Mirrored)
    (hid : s.content.Identified) (h : s.act a = some s') : FocusEffect s s' a := by
  cases a with
  | add itemId index => exact addToFocus_spec hplain h
  | addForeign docId itemId index => exact addForeignToFocus_spec h
  | addMany itemIds =>
    cases h
    exact addToFocusMany_spec hplain itemIds
  | remove itemId =>
    cases h
    exact removeFromFocus_spec s itemId
  | removeMany itemIds =>
    cases h
    exact removeFromFocusMany_spec s itemIds
  | move itemId index =>
    cases h
    exact moveInFocus_spec s itemId index
  | mutate m =>
    cases m with
    | lifecycle itemIds write now =>
      intro hcloses
      obtain ⟨hentries, hclean⟩ := setItemsLifecycle_spec hmirror hcloses h
      exact ⟨hentries, hclean, unnamed_closed hcloses h⟩
    | deleteBinned itemIds =>
      obtain ⟨d, hd, rfl⟩ := Option.map_eq_some_iff.1 h
      exact deleteBinned_entries hmirror hd
    | emptyBin =>
      cases h
      exact emptyBin_entries hmirror hid
    | _ => trivial
  | reconcile cutoff fresh => trivial
  | merge merged => trivial

/-- **The focus lens.**  From whatever a merge left in the container, every action shows each item
once, and local items only while they are open; it adds, moves and removes at the positions it is
given, and leaves the other entries in their order.  What it closes, and whatever it does not show
once it has written the container, is not shown again before it is added again. -/
theorem focus_spec (hplain : ∀ id, (s.index.metas.get id).isSome = true → PlainId id)
    (hmirror : s.Mirrored) (hid : s.content.Identified) {a : FocusAction}
    (h : s.act a = some s') :
    (s'.entries.map FocusRef.itemId).Nodup ∧
      (∀ r ∈ s'.entries, r.isLocal = true → s'.index.isOpenItem r.itemId = true) ∧
      FocusEffect s s' a ∧
      ∀ id, s'.Unnamed id ∨ (Clean s s' ∧ s'.focus ≠ s.focus ∧ ¬ s'.shows id) →
        ∀ as t, (∀ b ∈ as, ¬ b.Adds id) → focusDocuments.exec s' as = some t → ¬ t.shows id := by
  refine ⟨s'.index.nodup_focusEntries _, fun r hr hlocal => ?_,
    focusEffect_act hplain hmirror hid h, fun id hgone as t hadds hrun => ?_⟩
  · have hlive := (List.mem_filter.1 ((firstsOn_sublist _ _).subset hr)).2
    simpa [hlocal] using hlive
  · have hunnamed : s'.Unnamed id := by
      rcases hgone with hunnamed | ⟨hclean, hwrote, hout⟩
      · exact hunnamed
      · exact hclean.unnamed hwrote hout
    exact (unnamed_run hadds hunnamed hrun).not_shows

/-- The inbox holds the open `y` and `x`, which someone else closed while it was put in focus
here. -/
def pinnedContent : Content where
  items := (FMap.empty.insert "x"
      (some { id := some "x", location := some "inbox:p", createdAt := some 1
              lifecycle := some (4, 7), doneAt := some 7 })).insert
    "y" (some { id := some "y", location := some "inbox:q", createdAt := some 2 })
  orders l := if l = "inbox" then [some "x:p", some "y:q"] else []
  lists := []

def pinnedFocus : FocusedDocument :=
  ⟨⟨pinnedContent, pinnedContent.computeIndex⟩, ["y", "x", "other:z", "y"]⟩

theorem pinnedFocus_plain (id : String) (h : (pinnedFocus.index.metas.get id).isSome = true) :
    PlainId id := by
  have hmeta : pinnedFocus.index.metas.get id = pinnedContent.metaOf id :=
    (mirrors_computeIndex pinnedContent).metas id
  rw [hmeta, Content.metaOf, Option.isSome_map] at h
  have hkey : id = "x" ∨ id = "y" := by
    by_contra hnot
    obtain ⟨hx, hy⟩ := not_or.1 hnot
    have hnone : pinnedContent.item id = none := by
      simp [Content.item, pinnedContent, FMap.get_insert, hx, hy, FMap.get_empty]
    rw [hnone] at h
    cases h
  rcases hkey with rfl | rfl
  · decide
  · decide

theorem pinnedFocus_identified : pinnedFocus.content.Identified := by
  intro id m hm
  by_cases hy : id = "y"
  · subst hy
    cases hm
    rfl
  · by_cases hx : id = "x"
    · subst hx
      cases hm
      rfl
    · have hnone : pinnedContent.item id = none := by
        simp [Content.item, pinnedContent, FMap.get_insert, hx, hy, FMap.get_empty]
      rw [show pinnedFocus.content.item id = _ from hnone] at hm
      cases hm

/-- The foreign ref is moved to the top. -/
theorem focus_spec_move :
    (pinnedFocus.moveInFocus "z" 0).entries = [⟨some "other", "z"⟩, ⟨none, "y"⟩] ∧
      ¬ (pinnedFocus.moveInFocus "z" 0).shows "x" := by
  have hspec := focus_spec pinnedFocus_plain (mirrors_computeIndex pinnedContent).metas
    pinnedFocus_identified (a := .move "z" 0) rfl
  have hwrote : (pinnedFocus.moveInFocus "z" 0).focus ≠ pinnedFocus.focus := by decide +kernel
  refine ⟨by decide +kernel, ?_⟩
  exact hspec.2.2.2 "x" (.inr ⟨hspec.2.2.1.2, hwrote, by decide +kernel⟩) [] _ (by simp) rfl

/-- Adding what is shown already does not sweep, so `x` is back when it is reopened; and binning
leaves the ref of `y`, so `y` is back when it is restored. -/
theorem reopened_back :
    ¬ pinnedFocus.shows "x" ∧
      ((focusDocuments.exec pinnedFocus
        [.add "y" 0, .mutate (.lifecycle ["x"] (.set (some .todo)) 9)]).any
          fun s => decide (s.shows "x")) = true ∧
      ((focusDocuments.exec pinnedFocus
        [.mutate (.lifecycle ["y"] (.set none) 9), .mutate (.lifecycle ["y"] .restore 10)]).any
          fun s => decide (s.shows "y")) = true := by
  decide +kernel

end FocusedDocument

end Monoplan.Doc
