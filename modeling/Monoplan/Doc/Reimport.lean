import Monoplan.Doc.RoundTrip

/-!
# What an import leaves alone

An import adds to a document and changes nothing of it.

* `Content.Keeps c c'`: the items and list rows of `c` are as they were, and order containers
  only got entries of other items.  Then every projection of `c` is the part of that of `c'`
  that shows the items of `c` (`Keeps.resolved`).
* `import_keeps`: so it is after an import; what was added is counted, and a second import of
  the file adds the rows without a well-formed id and nothing else.
* `import_again`: an item without an id comes twice, and one that the file repeats is counted
  twice.
-/

namespace Monoplan.Doc

open Monoplan.Base

/-! ## Content that is kept -/

namespace Content

/-- The items and rows of `c` are as they were; new order entries name other items. -/
structure Keeps (c c' : Content) : Prop where
  item : ∀ id m, c.item id = some m → c'.item id = some m
  orders : ∀ l, ∃ new, c'.orders l = c.orders l ++ new ∧
    ∀ v ∈ new, ∃ e : OrderEntry, v = some e.encode ∧ PlainId e.itemId ∧ c.item e.itemId = none
  lists : c.lists <+: c'.lists

/-- The item exists. -/
def has (c : Content) (id : String) : Bool := (c.item id).isSome

/-- How many items there are. -/
def itemCount (c : Content) : ℕ := (c.items.keys.filter fun id => c.has id = true).card

theorem has_iff {c : Content} {id : String} : c.has id = true ↔ ∃ m, c.item id = some m :=
  Option.isSome_iff_exists

theorem mem_keys_of_has {c : Content} {id : String} (h : c.has id = true) : id ∈ c.items.keys := by
  rw [FMap.mem_keys]
  obtain ⟨m, hm⟩ := has_iff.1 h
  rw [item] at hm
  cases hget : c.items.get id with
  | none =>
    rw [hget] at hm
    cases hm
  | some v => rfl

/-- Writing an item that is not there makes one more. -/
theorem itemCount_setItem {c : Content} {id : String} (h : c.item id = none) (m : ItemMap)
    (l : String) (vs : List (Option String)) :
    ((c.setItem id m).setOrder l vs).itemCount = c.itemCount + 1 := by
  have hset : ((c.setItem id m).setOrder l vs).items.keys.filter
      (fun k => ((c.setItem id m).setOrder l vs).has k = true) =
      insert id (c.items.keys.filter fun k => c.has k = true) := by
    ext k
    rw [Finset.mem_filter, Finset.mem_insert, Finset.mem_filter]
    have hhas : ((c.setItem id m).setOrder l vs).has k = true ↔ k = id ∨ c.has k = true := by
      rw [has, item_setOrder, item_setItem]
      split
      · simp [*]
      · rename_i hk
        rw [has]
        simp [hk]
    constructor
    · rintro ⟨-, hk⟩
      exact (hhas.1 hk).imp_right fun hk => ⟨mem_keys_of_has hk, hk⟩
    · intro hk
      have hk' := hhas.2 (hk.imp_right And.right)
      exact ⟨mem_keys_of_has hk', hk'⟩
  have hout : id ∉ c.items.keys.filter fun k => c.has k = true := by
    intro hin
    obtain ⟨m, hm⟩ := has_iff.1 (Finset.mem_filter.1 hin).2
    rw [h] at hm
    cases hm
  rw [itemCount, hset, Finset.card_insert_of_notMem hout]
  rfl

namespace Keeps

variable {c c' : Content}

theorem refl (c : Content) : Keeps c c where
  item _ _ h := h
  orders _ := ⟨[], (List.append_nil _).symm, fun _ hv => absurd hv List.not_mem_nil⟩
  lists := List.prefix_refl _

theorem item_eq (h : Keeps c c') {id : String} (hid : c.has id = true) :
    c'.item id = c.item id := by
  obtain ⟨m, hm⟩ := has_iff.1 hid
  rw [hm, h.item id m hm]

theorem metaOf (h : Keeps c c') {id : String} (hid : c.has id = true) :
    c'.metaOf id = c.metaOf id := by
  rw [Content.metaOf, h.item_eq hid]
  rfl

theorem located (h : Keeps c c') {id : String} (hid : c.has id = true) (l : String) :
    c'.Located l id ↔ c.Located l id := by
  rw [Located, h.item_eq hid]
  rfl

theorem has_of_live {l : String} {e : OrderEntry} (he : c.live l e = true) :
    c.has e.itemId = true := by
  rw [live, Content.metaOf] at he
  rw [has]
  cases hm : c.item e.itemId with
  | none =>
    rw [hm] at he
    cases he
  | some m => rfl

/-- The live entries of the items that were there. -/
theorem liveEntries (h : Keeps c c') (l : String) :
    (c'.liveEntries l).filter (fun e => c.has e.itemId) = c.liveEntries l := by
  obtain ⟨new, horders, hnew⟩ := h.orders l
  have hslots : c'.slots l = c.slots l ++ new.map fun v => v.bind OrderEntry.parse := by
    rw [slots, horders, List.map_append]
    rfl
  have hnone : (((new.map fun v => v.bind OrderEntry.parse).filterMap id).filter (c'.live l)).filter
      (fun e => c.has e.itemId) = [] := by
    refine List.filter_eq_nil_iff.2 fun e he hin => ?_
    obtain ⟨s, hs, hes⟩ := List.mem_filterMap.1 (List.mem_filter.1 he).1
    obtain ⟨v, hv, rfl⟩ := List.mem_map.1 hs
    obtain ⟨e', rfl, hplain, hout⟩ := hnew v hv
    rw [Option.bind_some, OrderEntry.parse_encode hplain] at hes
    obtain rfl := Option.some.inj hes
    rw [has, hout] at hin
    cases hin
  have hold : (((c.slots l).filterMap id).filter (c'.live l)).filter (fun e => c.has e.itemId) =
      ((c.slots l).filterMap id).filter (c.live l) := by
    rw [List.filter_filter]
    refine List.filter_congr fun e _ => ?_
    cases hin : c.has e.itemId with
    | false =>
      cases hlive : c.live l e with
      | false => rfl
      | true =>
        rw [has_of_live hlive] at hin
        cases hin
    | true =>
      rw [Bool.true_and, live, h.metaOf hin]
      rfl
  rw [Content.liveEntries, hslots, List.filterMap_append, List.filter_append, List.filter_append,
    hnone, List.append_nil, hold]
  rfl

/-- **Relative order.**  What a list shows of the items that were there is what it showed. -/
theorem resolved {idx idx' : ProjectionIndex} (h : Keeps c c') (hidx : Mirrors c idx)
    (hidx' : Mirrors c' idx') (l : String) :
    (idx'.resolved l).filter c.has = idx.resolved l := by
  have hids : (c'.liveIds l).filter c.has = c.liveIds l := by
    rw [liveIds, liveIds, filter_firsts, List.filter_map, ← h.liveEntries l]
    rfl
  have hself : (c.liveIds l).filter c.has = c.liveIds l := by
    rw [← hids, List.filter_filter]
    simp only [Bool.and_self]
  have hall : (idx.resolved l).filter c.has = idx.resolved l := by
    refine List.filter_eq_self.2 fun id hid => ?_
    obtain ⟨m, hm, -⟩ := hidx.mem_resolved.1 hid
    exact has_iff.2 ⟨m, hm⟩
  rw [← hall]
  refine hidx.resolved_filter hidx' c.has (fun id hid => h.located hid l) (fun id hid => ?_)
    (hids.trans hself.symm)
  rw [ageKey, h.metaOf hid]
  rfl

/-- The lists that were there come first, as they were. -/
theorem allLists (h : Keeps c c') : c.allLists <+: c'.allLists := by
  obtain ⟨new, hnew⟩ := h.lists
  rw [Content.allLists, Content.allLists, ← hnew, List.filterMap_append, List.filterMap_append,
    firstsOn_append]
  exact List.prefix_append _ _

/-- The open projections of what was there. -/
theorem openItemIds {idx idx' : ProjectionIndex} (h : Keeps c c') (hidx : Computed c idx)
    (hidx' : Computed c' idx') (l : String) :
    (idx'.openItemIds l).filter c.has = idx.openItemIds l := by
  rw [hidx.openItemIds_eq, hidx'.openItemIds_eq, ← h.resolved hidx.mirrors hidx'.mirrors l,
    List.filter_filter, List.filter_filter]
  refine List.filter_congr fun id _ => ?_
  cases hid : c.has id with
  | false => rw [Bool.false_and, Bool.and_false]
  | true =>
    rw [Bool.true_and, Bool.and_true, openNow, h.item_eq hid]
    rfl

/-- A row is appended. -/
theorem addRow (h : Keeps c c') (row : Option ListRow) :
    Keeps c { c' with lists := c'.lists ++ [row] } where
  item := h.item
  orders := h.orders
  lists := h.lists.trans (List.prefix_append _ _)

/-- An item that was not there is written, with an entry at the end of its list. -/
theorem addItem (h : Keeps c c') {e : OrderEntry} (hout : c.item e.itemId = none)
    (hplain : PlainId e.itemId) (m : ItemMap) (l : String) :
    Keeps c ((c'.setItem e.itemId m).setOrder l (c'.orders l ++ [some e.encode])) where
  item id m' hm' := by
    rw [item_setOrder, item_setItem]
    split
    · rename_i heq
      rw [heq, hout] at hm'
      cases hm'
    · exact h.item id m' hm'
  orders l' := by
    obtain ⟨new, horders, hnew⟩ := h.orders l'
    rw [orders_setOrder, orders_setItem]
    split
    · rename_i heq
      rw [heq] at horders
      refine ⟨new ++ [some e.encode], by rw [← heq, heq, horders, List.append_assoc], ?_⟩
      intro v hv
      rcases List.mem_append.1 hv with hv | hv
      · exact hnew v hv
      · exact ⟨e, List.mem_singleton.1 hv, hplain, hout⟩
    · exact ⟨new, horders, hnew⟩
  lists := h.lists

end Keeps

end Content

/-! ## Rows of a file -/

/-- The row stands for a list that an import adds if it is not there. -/
def ExportList.imports (src : ExportList) : Bool :=
  src.id ≠ LIST_EVENTS && !src.builtin && src.id ≠ LIST_INBOX && trim src.name ≠ ""

/-- The row stands for an item that an import adds if it is not there. -/
def ExportItem.imports (src : ExportItem) : Bool := trim src.text ≠ ""

/-- An import adds the row under an id of its own. -/
def ExportList.mints (src : ExportList) : Bool := src.imports && !isWellFormedId src.id

def ExportItem.mints (src : ExportItem) : Bool := src.imports && !isWellFormedId src.id

/-- The row stands for an item that the document does not have, under an id that an import
keeps. -/
def ExportItem.isNew (c : Content) (src : ExportItem) : Bool :=
  src.imports && isWellFormedId src.id && !c.has src.id

/-- The ids an import of the file draws at most: one for a list, one for an item and one for
its placement. -/
def JsonExport.draws (e : JsonExport) : ℕ := e.lists.length + 2 * e.items.length

/-- The ids that an import mints are well formed, none is drawn twice, and none is in the
document or in the file. -/
structure FreshIds (mint : ℕ → String) (a : Account) (e : JsonExport) : Prop where
  distinct : ∀ i j, i < j → j < e.draws → mint i ≠ mint j
  wellFormed : ∀ n, isWellFormedId (mint n) = true
  item : ∀ n, a.content.item (mint n) = none
  list : ∀ n, a.content.findList (mint n) = none
  items : ∀ n, ∀ src ∈ e.items, src.id ≠ mint n
  lists : ∀ n, ∀ src ∈ e.lists, src.id ≠ mint n

section Import

variable (mint : ℕ → String) (now : ℤ) {idx : ProjectionIndex} {s : Importing} {c : Content}

/-- What an import does with a row of a list. -/
theorem importList_cases (s : Importing) (src : ExportList) :
    (src.imports = false ∧ (importList mint now s src).content = s.content ∧
      (importList mint now s src).minted = s.minted ∧
      (importList mint now s src).summary = s.summary) ∨
    (src.imports = true ∧ isWellFormedId src.id = true ∧
      (s.content.findList src.id).isSome = true ∧
      (importList mint now s src).content = s.content ∧
      (importList mint now s src).minted = s.minted ∧
      (importList mint now s src).summary =
        { s.summary with listsExisting := s.summary.listsExisting + 1 }) ∨
    (src.imports = true ∧ ∃ id,
      ((isWellFormedId src.id = true ∧ id = src.id ∧ s.content.findList src.id = none ∧
          (importList mint now s src).minted = s.minted) ∨
        (isWellFormedId src.id = false ∧ id = mint s.minted ∧
          (importList mint now s src).minted = s.minted + 1)) ∧
      (importList mint now s src).content =
        { s.content with lists := s.content.lists ++ [some (src.toRow now id)] } ∧
      (importList mint now s src).summary =
        { s.summary with listsAdded := s.summary.listsAdded + 1 }) := by
  unfold importList
  by_cases hevents : src.id = LIST_EVENTS
  · rw [if_pos hevents]
    exact .inl ⟨by simp [ExportList.imports, hevents], rfl, rfl, rfl⟩
  rw [if_neg hevents]
  by_cases hbuiltin : src.builtin = true ∨ src.id = LIST_INBOX
  · rw [if_pos hbuiltin]
    refine .inl ⟨?_, ?_⟩
    · rcases hbuiltin with hb | hb
      · simp [ExportList.imports, hb]
      · simp [ExportList.imports, hb]
    · split
      · exact ⟨rfl, rfl, rfl⟩
      · exact ⟨rfl, rfl, rfl⟩
  rw [if_neg hbuiltin]
  obtain ⟨hbuiltin, hinbox⟩ := not_or.1 hbuiltin
  by_cases hname : trim src.name = ""
  · rw [if_pos hname]
    exact .inl ⟨by simp [ExportList.imports, hname], rfl, rfl, rfl⟩
  rw [if_neg hname]
  have himports : src.imports = true := by
    simp [ExportList.imports, hevents, hbuiltin, hinbox, hname]
  right
  by_cases hfound : isWellFormedId src.id = true ∧ (s.content.findList src.id).isSome = true
  · rw [if_pos hfound]
    exact .inl ⟨himports, hfound.1, hfound.2, rfl, rfl, rfl⟩
  rw [if_neg hfound]
  refine .inr ⟨himports, _, ?_, rfl, rfl⟩
  by_cases hid : isWellFormedId src.id = true
  · left
    have hnone : s.content.findList src.id = none := by
      simpa using fun h => hfound ⟨hid, h⟩
    exact ⟨hid, if_pos hid, hnone, if_pos hid⟩
  · right
    exact ⟨Bool.eq_false_iff.2 hid, if_neg hid, if_neg hid⟩

/-- What an import does with an item. -/
theorem importItem_cases (idx : ProjectionIndex) (s : Importing) (src : ExportItem) :
    (src.imports = false ∧ importItem mint idx s src =
      { s with summary := { s.summary with itemsSkipped := s.summary.itemsSkipped + 1 } }) ∨
    (src.imports = true ∧ isWellFormedId src.id = true ∧ (idx.metas.get src.id).isSome = true ∧
      s.content.has src.id = true ∧ importItem mint idx s src =
      { s with summary := { s.summary with itemsExisting := s.summary.itemsExisting + 1 } }) ∨
    (src.imports = true ∧ ∃ (e : OrderEntry) (m : ItemMap) (l : String),
      ((isWellFormedId src.id = true ∧ e.itemId = src.id ∧
          (idx.metas.get src.id = none ∨ s.content.item src.id = none) ∧
          (importItem mint idx s src).minted = s.minted + 1) ∨
        (isWellFormedId src.id = false ∧ e.itemId = mint s.minted ∧
          (importItem mint idx s src).minted = s.minted + 2)) ∧
      (importItem mint idx s src).content = (s.content.setItem e.itemId m).setOrder l
        (s.content.orders l ++ [some e.encode]) ∧
      (importItem mint idx s src).summary =
        { s.summary with itemsAdded := s.summary.itemsAdded + 1 }) := by
  unfold importItem
  by_cases htext : trim src.text = ""
  · rw [if_pos htext]
    exact .inl ⟨by simp [ExportItem.imports, htext], rfl⟩
  rw [if_neg htext]
  have himports : src.imports = true := by simp [ExportItem.imports, htext]
  right
  by_cases hfound : isWellFormedId src.id = true ∧ (idx.metas.get src.id).isSome = true ∧
      (s.content.item src.id).isSome = true
  · rw [if_pos hfound]
    exact .inl ⟨himports, hfound.1, hfound.2.1, hfound.2.2, rfl⟩
  rw [if_neg hfound]
  by_cases hid : isWellFormedId src.id = true
  · have hout : idx.metas.get src.id = none ∨ s.content.item src.id = none := by
      by_contra hboth
      obtain ⟨hmeta, hitem⟩ := not_or.1 hboth
      exact hfound ⟨hid, Option.isSome_iff_ne_none.2 hmeta, Option.isSome_iff_ne_none.2 hitem⟩
    refine .inr ⟨himports, ⟨src.id, mint s.minted⟩,
      src.toMap src.id ((s.idMap.get src.listId).getD LIST_INBOX) (mint s.minted),
      (s.idMap.get src.listId).getD LIST_INBOX, .inl ⟨hid, rfl, hout, ?_⟩, ?_, rfl⟩
    · simp only [hid, if_true]
    · simp only [hid, if_true]
  · rw [Bool.not_eq_true] at hid
    refine .inr ⟨himports, ⟨mint s.minted, mint (s.minted + 1)⟩,
      src.toMap (mint s.minted) ((s.idMap.get src.listId).getD LIST_INBOX) (mint (s.minted + 1)),
      (s.idMap.get src.listId).getD LIST_INBOX, .inr ⟨hid, rfl, ?_⟩, ?_, rfl⟩
    · simp only [hid, Bool.false_eq_true, if_false]
    · simp only [hid, Bool.false_eq_true, if_false]

/-! ## The lists of a file -/

theorem findList_isSome_iff {c : Content} {id : String} :
    (c.findList id).isSome = true ↔ ∃ row ∈ c.lists, Content.rowIs id row = true := by
  rw [Content.findList, List.findIdx?_isSome, List.any_eq_true]

theorem importList_frame (s : Importing) (src : ExportList) :
    s.content.lists <+: (importList mint now s src).content.lists ∧
      (importList mint now s src).content.items = s.content.items ∧
      (Content.Keeps c s.content → Content.Keeps c (importList mint now s src).content) ∧
      (importList mint now s src).summary.itemsAdded = s.summary.itemsAdded ∧
      (importList mint now s src).summary.itemsSkipped = s.summary.itemsSkipped ∧
      (importList mint now s src).summary.itemsExisting = s.summary.itemsExisting := by
  rcases importList_cases mint now s src with
    ⟨-, hc, -, hs⟩ | ⟨-, -, -, hc, -, hs⟩ | ⟨-, id, -, hc, hs⟩
  · rw [hc, hs]
    exact ⟨List.prefix_refl _, rfl, fun h => h, rfl, rfl, rfl⟩
  · rw [hc, hs]
    exact ⟨List.prefix_refl _, rfl, fun h => h, rfl, rfl, rfl⟩
  · rw [hc, hs]
    exact ⟨List.prefix_append _ _, rfl, fun h => h.addRow _, rfl, rfl, rfl⟩

theorem importLists_frame (s : Importing) (todo : List ExportList) :
    s.content.lists <+: (todo.foldl (importList mint now) s).content.lists ∧
      (todo.foldl (importList mint now) s).content.items = s.content.items ∧
      (Content.Keeps c s.content →
        Content.Keeps c (todo.foldl (importList mint now) s).content) ∧
      (todo.foldl (importList mint now) s).summary.itemsAdded = s.summary.itemsAdded ∧
      (todo.foldl (importList mint now) s).summary.itemsSkipped = s.summary.itemsSkipped ∧
      (todo.foldl (importList mint now) s).summary.itemsExisting = s.summary.itemsExisting := by
  induction todo generalizing s with
  | nil => exact ⟨List.prefix_refl _, rfl, fun h => h, rfl, rfl, rfl⟩
  | cons src todo ih =>
    obtain ⟨hl, hi, hk, ha, hsk, he⟩ := importList_frame mint now (c := c) s src
    obtain ⟨hl', hi', hk', ha', hsk', he'⟩ := ih (importList mint now s src)
    exact ⟨hl.trans hl', hi'.trans hi, fun h => hk' (hk h), ha'.trans ha, hsk'.trans hsk,
      he'.trans he⟩

theorem importLists_itemIdMap (s : Importing) (todo : List ExportList) :
    (todo.foldl (importList mint now) s).itemIdMap = s.itemIdMap := by
  induction todo generalizing s with
  | nil => rfl
  | cons src todo ih =>
    rw [List.foldl_cons, ih]
    unfold importList
    split_ifs
    all_goals rfl

/-- A row counts at most once. -/
theorem importLists_count (s : Importing) (todo : List ExportList) :
    (todo.foldl (importList mint now) s).summary.listsAdded +
        (todo.foldl (importList mint now) s).summary.listsExisting ≤
      s.summary.listsAdded + s.summary.listsExisting + todo.length := by
  induction todo generalizing s with
  | nil => exact Nat.le_refl _
  | cons src todo ih =>
    have hrest := ih (importList mint now s src)
    rw [List.foldl_cons, List.length_cons]
    rcases importList_cases mint now s src with
      ⟨-, -, -, hs⟩ | ⟨-, -, -, -, -, hs⟩ | ⟨-, id, -, -, hs⟩
    · rw [hs] at hrest
      omega
    · rw [hs] at hrest
      dsimp only at hrest
      omega
    · rw [hs] at hrest
      dsimp only at hrest
      omega

/-- Every list that a well-formed id names is there afterwards. -/
theorem importLists_found (s : Importing) (todo : List ExportList) {src : ExportList}
    (hsrc : src ∈ todo) (himports : src.imports = true) (hid : isWellFormedId src.id = true) :
    ((todo.foldl (importList mint now) s).content.findList src.id).isSome = true := by
  induction todo generalizing s with
  | nil => exact absurd hsrc List.not_mem_nil
  | cons x todo ih =>
    rcases List.mem_cons.1 hsrc with rfl | hsrc
    · obtain ⟨hl, -⟩ := importLists_frame mint now (c := s.content)
        (importList mint now s src) todo
      rw [List.foldl_cons, findList_isSome_iff]
      suffices h : ∃ row ∈ (importList mint now s src).content.lists,
          Content.rowIs src.id row = true by
        obtain ⟨row, hrow, his⟩ := h
        exact ⟨row, hl.subset hrow, his⟩
      rcases importList_cases mint now s src with
        ⟨hnot, -⟩ | ⟨-, -, hfound, hc, -⟩ | ⟨-, id, hnew, hc, -⟩
      · rw [himports] at hnot
        cases hnot
      · rw [hc]
        exact findList_isSome_iff.1 hfound
      · rcases hnew with ⟨-, rfl, -⟩ | ⟨hbad, -⟩
        · rw [hc]
          exact ⟨_, List.mem_append_right _ List.mem_cons_self, by
            simp [Content.rowIs, ExportList.toRow]⟩
        · rw [hid] at hbad
          cases hbad
    · exact ih _ hsrc

/-- A row of a new id is shown as a list behind the others. -/
theorem allLists_addRow {c : Content} {r : ListRow} {v : ListView} (hv : listView r = some v)
    (hout : c.findList v.id = none) :
    ({ c with lists := c.lists ++ [some r] } : Content).allLists = c.allLists ++ [v] := by
  have hnew : v.id ∉ ((c.lists.filterMap id).filterMap listView).map ListView.id := by
    intro hin
    obtain ⟨w, hw, hid⟩ := List.mem_map.1 hin
    obtain ⟨row, hrow, hview⟩ := List.mem_filterMap.1 hw
    obtain ⟨r', hr', hsome⟩ := List.mem_filterMap.1 hrow
    rw [id] at hsome
    obtain ⟨u, hu, -⟩ := Option.bind_eq_some_iff.1 hview
    have hwid : row.id = some v.id := by
      obtain ⟨rowId, hrowId, hview⟩ := Option.bind_eq_some_iff.1 hview
      obtain ⟨_, -, hview⟩ := Option.bind_eq_some_iff.1 hview
      obtain ⟨_, -, rfl⟩ := Option.map_eq_some_iff.1 hview
      rw [hrowId, ← hid]
    have hfound : (c.findList v.id).isSome = true :=
      findList_isSome_iff.2 ⟨r', hr', by rw [hsome]; simp [Content.rowIs, hwid]⟩
    rw [hout] at hfound
    cases hfound
  rw [Content.allLists, Content.allLists, List.filterMap_append, List.filterMap_append,
    firstsOn_append, List.filterMap_cons_some (f := id) (b := r) rfl, List.filterMap_nil,
    List.filterMap_cons_some hv, List.filterMap_nil,
    firstsOn_of_nodup ListView.id (l := [v]) (by simp), List.filter_cons_of_pos (by simpa using hnew)]
  rfl

/-- Lists are added as often as the count says. -/
theorem importLists_growth {draws : ℕ} (hinj : ∀ i j, i < j → j < draws → mint i ≠ mint j)
    (s : Importing) (todo : List ExportList) (hroom : s.minted + todo.length ≤ draws)
    (hmint : ∀ n, s.minted ≤ n → n < draws → s.content.findList (mint n) = none)
    (htodo : ∀ n, ∀ src ∈ todo, src.id ≠ mint n) :
    (todo.foldl (importList mint now) s).summary.listsAdded + s.content.allLists.length =
      s.summary.listsAdded + (todo.foldl (importList mint now) s).content.allLists.length := by
  induction todo generalizing s with
  | nil => rfl
  | cons src todo ih =>
    have htodo' : ∀ n, ∀ x ∈ todo, x.id ≠ mint n := fun n x hx =>
      htodo n x (List.mem_cons_of_mem _ hx)
    rw [List.length_cons] at hroom
    rw [List.foldl_cons]
    rcases importList_cases mint now s src with
      ⟨-, hc, hm, hs⟩ | ⟨-, -, -, hc, hm, hs⟩ | ⟨-, id, hnew, hc, hs⟩
    · have hrest := ih (importList mint now s src) (by omega) (by rw [hc, hm]; exact hmint) htodo'
      rw [hc, hs] at hrest
      exact hrest
    · have hrest := ih (importList mint now s src) (by omega) (by rw [hc, hm]; exact hmint) htodo'
      rw [hc, hs] at hrest
      exact hrest
    · have hout : s.content.findList id = none := by
        rcases hnew with ⟨-, rfl, hnone, -⟩ | ⟨-, rfl, -⟩
        · exact hnone
        · exact hmint _ (Nat.le_refl _) (by omega)
      have hgrown : (importList mint now s src).content.allLists.length =
          s.content.allLists.length + 1 := by
        rw [hc, allLists_addRow (listView_toRow src) hout, List.length_append]
        rfl
      have hrest := ih (importList mint now s src) ?_ (fun n hn hlt => ?_) htodo'
      · rw [hgrown, hs] at hrest
        dsimp only at hrest
        omega
      · rcases hnew with ⟨-, -, -, hm⟩ | ⟨-, -, hm⟩
        · omega
        · omega
      · rw [hc]
        rcases hnew with ⟨-, rfl, -, hm⟩ | ⟨-, rfl, hm⟩
        · refine findList_append (hmint n (by omega) hlt) ?_
          exact fun heq => htodo n src List.mem_cons_self (Option.some.inj heq)
        · refine findList_append (hmint n (by omega) hlt) ?_
          exact fun heq => hinj s.minted n (by omega) hlt (Option.some.inj heq)

theorem importLists_minted (s : Importing) (todo : List ExportList) :
    (todo.foldl (importList mint now) s).minted ≤ s.minted + todo.length := by
  induction todo generalizing s with
  | nil => exact Nat.le_refl _
  | cons src todo ih =>
    have hrest := ih (importList mint now s src)
    rw [List.foldl_cons, List.length_cons]
    rcases importList_cases mint now s src with
      ⟨-, -, hm, -⟩ | ⟨-, -, -, -, hm, -⟩ | ⟨-, id, ⟨-, -, -, hm⟩ | ⟨-, -, hm⟩, -⟩
    · omega
    · omega
    · omega
    · omega

/-! ## The items of a file -/

/-- An item that is added was not there. -/
theorem importItem_new (hidx : Mirrors c idx) (hmint : ∀ n, c.item (mint n) = none)
    (hkeeps : c.Keeps s.content) {src : ExportItem} {id : String}
    (h : (isWellFormedId src.id = true ∧ id = src.id ∧
        (idx.metas.get src.id = none ∨ s.content.item src.id = none)) ∨ id = mint s.minted) :
    c.item id = none := by
  rcases h with ⟨-, rfl, hmeta | hitem⟩ | rfl
  · rw [hidx.metas, Content.metaOf, Option.map_eq_none_iff] at hmeta
    exact hmeta
  · cases hm : c.item src.id with
    | none => rfl
    | some m =>
      rw [hkeeps.item src.id m hm] at hitem
      cases hitem
  · exact hmint _

theorem importItem_keeps (hidx : Mirrors c idx) (hmint : ∀ n, c.item (mint n) = none)
    (hwell : ∀ n, isWellFormedId (mint n) = true) (hkeeps : c.Keeps s.content)
    (src : ExportItem) : c.Keeps (importItem mint idx s src).content := by
  rcases importItem_cases mint idx s src with
    ⟨-, hs⟩ | ⟨-, -, -, -, hs⟩ | ⟨-, e, m, l, hnew, hc, -⟩
  · rw [hs]
    exact hkeeps
  · rw [hs]
    exact hkeeps
  · have hout : c.item e.itemId = none := importItem_new mint hidx hmint hkeeps
      (hnew.imp (fun h => ⟨h.1, h.2.1, h.2.2.1⟩) fun h => h.2.1)
    have hplain : PlainId e.itemId := by
      rcases hnew with ⟨hid, heq, -⟩ | ⟨-, heq, -⟩
      · rw [heq]
        exact isWellFormedId_plain hid
      · rw [heq]
        exact isWellFormedId_plain (hwell _)
    rw [hc]
    exact hkeeps.addItem hout hplain m l

theorem importItems_keeps (hidx : Mirrors c idx) (hmint : ∀ n, c.item (mint n) = none)
    (hwell : ∀ n, isWellFormedId (mint n) = true) (hkeeps : c.Keeps s.content)
    (todo : List ExportItem) : c.Keeps (todo.foldl (importItem mint idx) s).content := by
  induction todo generalizing s with
  | nil => exact hkeeps
  | cons src todo ih => exact ih (importItem_keeps _ hidx hmint hwell hkeeps src)

/-- Items neither go nor do rows of lists change. -/
theorem importItem_frame (idx : ProjectionIndex) (s : Importing) (src : ExportItem) :
    (∀ id, s.content.has id = true → (importItem mint idx s src).content.has id = true) ∧
      (importItem mint idx s src).content.lists = s.content.lists ∧
      (importItem mint idx s src).summary.listsAdded = s.summary.listsAdded ∧
      (importItem mint idx s src).summary.listsExisting = s.summary.listsExisting := by
  rcases importItem_cases mint idx s src with
    ⟨-, hs⟩ | ⟨-, -, -, -, hs⟩ | ⟨-, e, m, l, -, hc, hs⟩
  · rw [hs]
    exact ⟨fun _ h => h, rfl, rfl, rfl⟩
  · rw [hs]
    exact ⟨fun _ h => h, rfl, rfl, rfl⟩
  · rw [hc, hs]
    refine ⟨fun id hid => ?_, rfl, rfl, rfl⟩
    rw [Content.has, Content.item_setOrder, Content.item_setItem]
    split
    · rfl
    · exact hid

theorem importItems_frame (idx : ProjectionIndex) (s : Importing) (todo : List ExportItem) :
    (∀ id, s.content.has id = true →
        (todo.foldl (importItem mint idx) s).content.has id = true) ∧
      (todo.foldl (importItem mint idx) s).content.lists = s.content.lists ∧
      (todo.foldl (importItem mint idx) s).summary.listsAdded = s.summary.listsAdded ∧
      (todo.foldl (importItem mint idx) s).summary.listsExisting = s.summary.listsExisting := by
  induction todo generalizing s with
  | nil => exact ⟨fun _ h => h, rfl, rfl, rfl⟩
  | cons src todo ih =>
    obtain ⟨hh, hl, ha, he⟩ := importItem_frame mint idx s src
    obtain ⟨hh', hl', ha', he'⟩ := ih (importItem mint idx s src)
    exact ⟨fun id h => hh' id (hh id h), hl'.trans hl, ha'.trans ha, he'.trans he⟩

/-- Every row counts once. -/
theorem importItems_count (idx : ProjectionIndex) (s : Importing) (todo : List ExportItem) :
    (todo.foldl (importItem mint idx) s).summary.itemsAdded +
        (todo.foldl (importItem mint idx) s).summary.itemsSkipped +
        (todo.foldl (importItem mint idx) s).summary.itemsExisting =
      s.summary.itemsAdded + s.summary.itemsSkipped + s.summary.itemsExisting + todo.length := by
  induction todo generalizing s with
  | nil => rfl
  | cons src todo ih =>
    have hone : (importItem mint idx s src).summary.itemsAdded +
        (importItem mint idx s src).summary.itemsSkipped +
        (importItem mint idx s src).summary.itemsExisting =
        s.summary.itemsAdded + s.summary.itemsSkipped + s.summary.itemsExisting + 1 := by
      rcases importItem_cases mint idx s src with
        ⟨-, hs⟩ | ⟨-, -, -, -, hs⟩ | ⟨-, e, m, l, -, -, hs⟩
      · rw [hs]
        dsimp only
        omega
      · rw [hs]
        dsimp only
        omega
      · rw [hs]
        dsimp only
        omega
    rw [List.foldl_cons, List.length_cons, ih, hone]
    omega

/-- Every item that a well-formed id names is there afterwards. -/
theorem importItems_found (idx : ProjectionIndex) (s : Importing) (todo : List ExportItem)
    {src : ExportItem} (hsrc : src ∈ todo) (himports : src.imports = true)
    (hid : isWellFormedId src.id = true) :
    (todo.foldl (importItem mint idx) s).content.has src.id = true := by
  induction todo generalizing s with
  | nil => exact absurd hsrc List.not_mem_nil
  | cons x todo ih =>
    rcases List.mem_cons.1 hsrc with rfl | hsrc
    · refine (importItems_frame mint idx (importItem mint idx s src) todo).1 src.id ?_
      rcases importItem_cases mint idx s src with
        ⟨hnot, -⟩ | ⟨-, -, -, hhas, hs⟩ | ⟨-, e, m, l, hnew, hc, -⟩
      · rw [himports] at hnot
        cases hnot
      · rw [hs]
        exact hhas
      · rcases hnew with ⟨-, heq, -⟩ | ⟨hbad, -⟩
        · rw [hc, Content.has, Content.item_setOrder, Content.item_setItem, if_pos heq.symm]
          rfl
        · rw [hid] at hbad
          cases hbad
    · exact ih _ hsrc

/-- As many items are added as the count says, if the file does not repeat one that is new. -/
theorem importItems_growth {draws : ℕ} (hidx : Mirrors c idx)
    (hinj : ∀ i j, i < j → j < draws → mint i ≠ mint j)
    (hmint : ∀ n, c.item (mint n) = none) (hwell : ∀ n, isWellFormedId (mint n) = true)
    (hkeeps : c.Keeps s.content) {todo : List ExportItem}
    (hroom : s.minted + 2 * todo.length ≤ draws)
    (hfree : ∀ n, s.minted ≤ n → n < draws → s.content.item (mint n) = none)
    (htodo : ∀ n, ∀ src ∈ todo, src.id ≠ mint n)
    (hnodup : ((todo.filter (ExportItem.isNew c)).map ExportItem.id).Nodup)
    (hnew : ∀ src ∈ todo, src.isNew c = true → s.content.item src.id = none) :
    (todo.foldl (importItem mint idx) s).summary.itemsAdded + s.content.itemCount =
      s.summary.itemsAdded + (todo.foldl (importItem mint idx) s).content.itemCount := by
  induction todo generalizing s with
  | nil => rfl
  | cons src todo ih =>
    have htodo' : ∀ n, ∀ x ∈ todo, x.id ≠ mint n := fun n x hx =>
      htodo n x (List.mem_cons_of_mem _ hx)
    have hnodup' : ((todo.filter (ExportItem.isNew c)).map ExportItem.id).Nodup := by
      refine List.Nodup.sublist ?_ hnodup
      exact ((List.sublist_cons_self src todo).filter _).map _
    have hkeeps' := importItem_keeps _ hidx hmint hwell hkeeps src
    rw [List.length_cons] at hroom
    rw [List.foldl_cons]
    rcases importItem_cases mint idx s src with
      ⟨-, hs⟩ | ⟨-, -, -, -, hs⟩ | ⟨himports, e, m, l, hadd, hc, hs⟩
    · rw [hs] at hkeeps' ⊢
      exact ih hkeeps' (by dsimp only; omega) hfree htodo' hnodup' fun x hx =>
        hnew x (List.mem_cons_of_mem _ hx)
    · rw [hs] at hkeeps' ⊢
      exact ih hkeeps' (by dsimp only; omega) hfree htodo' hnodup' fun x hx =>
        hnew x (List.mem_cons_of_mem _ hx)
    · have hout : c.item e.itemId = none := importItem_new mint hidx hmint hkeeps
        (hadd.imp (fun h => ⟨h.1, h.2.1, h.2.2.1⟩) fun h => h.2.1)
      have hitem : ∀ y, (importItem mint idx s src).content.item y =
          if y = e.itemId then some m else s.content.item y := fun y => by
        rw [hc, Content.item_setOrder, Content.item_setItem]
      have hhere : s.content.item e.itemId = none := by
        rcases hadd with ⟨hid, heq, -⟩ | ⟨-, heq, -⟩
        · rw [heq] at hout ⊢
          refine hnew src List.mem_cons_self ?_
          simp [ExportItem.isNew, himports, hid, Content.has, hout]
        · rw [heq]
          exact hfree _ (Nat.le_refl _) (by omega)
      have hcount : (importItem mint idx s src).content.itemCount = s.content.itemCount + 1 := by
        rw [hc, Content.itemCount_setItem hhere]
      have hfree' : ∀ n, (importItem mint idx s src).minted ≤ n → n < draws →
          (importItem mint idx s src).content.item (mint n) = none := by
        intro n hn hlt
        have hne : mint n ≠ e.itemId := by
          rcases hadd with ⟨-, heq, -⟩ | ⟨-, heq, hm⟩
          · rw [heq]
            exact (htodo n src List.mem_cons_self).symm
          · rw [heq]
            exact (hinj s.minted n (by omega) hlt).symm
        have hle : s.minted ≤ n := by
          rcases hadd with ⟨-, -, -, hm⟩ | ⟨-, -, hm⟩
          · omega
          · omega
        rw [hitem, if_neg hne]
        exact hfree n hle hlt
      have hnew' : ∀ x ∈ todo, x.isNew c = true →
          (importItem mint idx s src).content.item x.id = none := by
        intro x hx hxnew
        have hne : x.id ≠ e.itemId := by
          rcases hadd with ⟨hid, heq, -⟩ | ⟨-, heq, -⟩
          · rw [heq] at hout ⊢
            have hsrc : src.isNew c = true := by
              simp [ExportItem.isNew, himports, hid, Content.has, hout]
            rw [List.filter_cons_of_pos hsrc, List.map_cons, List.nodup_cons] at hnodup
            intro hsame
            exact hnodup.1 (hsame ▸ List.mem_map_of_mem (List.mem_filter.2 ⟨hx, hxnew⟩))
          · rw [heq]
            exact htodo' _ x hx
        rw [hitem, if_neg hne]
        exact hnew x (List.mem_cons_of_mem _ hx) hxnew
      have hroom' : (importItem mint idx s src).minted + 2 * todo.length ≤ draws := by
        rcases hadd with ⟨-, -, -, hm⟩ | ⟨-, -, hm⟩
        · omega
        · omega
      have hrest := ih hkeeps' hroom' hfree' htodo' hnodup' hnew'
      rw [hcount, hs] at hrest
      dsimp only at hrest
      omega

/-! ## The same file again -/

/-- Only lists without a well-formed id are added again. -/
theorem reimportLists (s : Importing) {todo : List ExportList}
    (hfound : ∀ src ∈ todo, src.imports = true → isWellFormedId src.id = true →
      (s.content.findList src.id).isSome = true) :
    (todo.foldl (importList mint now) s).summary.listsAdded =
        s.summary.listsAdded + (todo.filter ExportList.mints).length ∧
      (todo.filter ExportList.mints = [] →
        (todo.foldl (importList mint now) s).content = s.content) := by
  induction todo generalizing s with
  | nil => exact ⟨rfl, fun _ => rfl⟩
  | cons src todo ih =>
    have hfound' : ∀ x ∈ todo, x.imports = true → isWellFormedId x.id = true →
        ((importList mint now s src).content.findList x.id).isSome = true := by
      intro x hx himp hid
      obtain ⟨row, hrow, his⟩ := findList_isSome_iff.1
        (hfound x (List.mem_cons_of_mem _ hx) himp hid)
      have hstays := (importList_frame mint now (c := s.content) s src).1
      exact findList_isSome_iff.2 ⟨row, hstays.subset hrow, his⟩
    obtain ⟨hadded, hsame⟩ := ih (importList mint now s src) hfound'
    rw [List.foldl_cons, hadded]
    rcases importList_cases mint now s src with
      ⟨hnot, hc, -, hs⟩ | ⟨-, hid, -, hc, -, hs⟩ | ⟨himp, id, hnew, hc, hs⟩
    · have hmints : src.mints = false := by simp [ExportList.mints, hnot]
      rw [List.filter_cons_of_neg (by simp [hmints]), hs]
      exact ⟨rfl, fun h => (hsame h).trans hc⟩
    · have hmints : src.mints = false := by simp [ExportList.mints, hid]
      rw [List.filter_cons_of_neg (by simp [hmints]), hs]
      exact ⟨rfl, fun h => (hsame h).trans hc⟩
    · have hbad : isWellFormedId src.id = false := by
        rcases hnew with ⟨hid, -, hnone, -⟩ | ⟨hbad, -⟩
        · have := hfound src List.mem_cons_self himp hid
          rw [hnone] at this
          cases this
        · exact hbad
      have hmints : src.mints = true := by simp [ExportList.mints, himp, hbad]
      rw [List.filter_cons_of_pos hmints, hs, List.length_cons]
      exact ⟨by dsimp only; omega, fun h => absurd h (List.cons_ne_nil _ _)⟩

/-- Only items without a well-formed id are added again. -/
theorem reimportItems (s : Importing) {todo : List ExportItem}
    (hfound : ∀ src ∈ todo, src.imports = true → isWellFormedId src.id = true →
      (idx.metas.get src.id).isSome = true ∧ s.content.has src.id = true) :
    (todo.foldl (importItem mint idx) s).summary.itemsAdded =
        s.summary.itemsAdded + (todo.filter ExportItem.mints).length ∧
      (todo.filter ExportItem.mints = [] →
        (todo.foldl (importItem mint idx) s).content = s.content ∧
          (todo.foldl (importItem mint idx) s).itemIdMap = s.itemIdMap) := by
  induction todo generalizing s with
  | nil => exact ⟨rfl, fun _ => ⟨rfl, rfl⟩⟩
  | cons src todo ih =>
    have hfound' : ∀ x ∈ todo, x.imports = true → isWellFormedId x.id = true →
        (idx.metas.get x.id).isSome = true ∧
          (importItem mint idx s src).content.has x.id = true := by
      intro x hx himp hid
      obtain ⟨hmeta, hhas⟩ := hfound x (List.mem_cons_of_mem _ hx) himp hid
      exact ⟨hmeta, (importItem_frame _ idx s src).1 x.id hhas⟩
    obtain ⟨hadded, hsame⟩ := ih (importItem mint idx s src) hfound'
    rw [List.foldl_cons, hadded]
    rcases importItem_cases mint idx s src with
      ⟨hnot, hs⟩ | ⟨-, hid, -, -, hs⟩ | ⟨himp, e, m, l, hnew, hc, hs⟩
    · have hmints : src.mints = false := by simp [ExportItem.mints, hnot]
      rw [List.filter_cons_of_neg (by simp [hmints])]
      rw [hs] at hsame ⊢
      exact ⟨rfl, hsame⟩
    · have hmints : src.mints = false := by simp [ExportItem.mints, hid]
      rw [List.filter_cons_of_neg (by simp [hmints])]
      rw [hs] at hsame ⊢
      exact ⟨rfl, hsame⟩
    · have hbad : isWellFormedId src.id = false := by
        rcases hnew with ⟨hid, -, hnone | hnone, -⟩ | ⟨hbad, -⟩
        · have := (hfound src List.mem_cons_self himp hid).1
          rw [hnone] at this
          cases this
        · have := (hfound src List.mem_cons_self himp hid).2
          rw [Content.has, hnone] at this
          cases this
        · exact hbad
      have hmints : src.mints = true := by simp [ExportItem.mints, himp, hbad]
      rw [List.filter_cons_of_pos hmints, hs, List.length_cons]
      exact ⟨by dsimp only; omega, fun h => absurd h (List.cons_ne_nil _ _)⟩

theorem importFocus_empty (seen : Finset String) (refs : List String) :
    importFocus .empty seen refs = [] := by
  induction refs with
  | nil => rfl
  | cons raw refs ih =>
    rw [importFocus]
    cases (FocusRef.parse raw).filter FocusRef.isLocal with
    | none => exact ih
    | some r => exact ih

end Import

/-! ## An import -/

/-- The items, lists and orders of `a` are all in `b`, as they were. -/
structure ImportKept (a b : Account) : Prop where
  items : ∀ id m, a.content.item id = some m → b.content.item id = some m
  lists : a.content.allLists <+: b.content.allLists
  order : ∀ l, (b.index.resolved l).filter a.content.has = a.index.resolved l
  opens : ∀ l, (b.index.openItemIds l).filter a.content.has = a.index.openItemIds l

/-- What an import counts, against what it added. -/
structure ImportCounted (a b : Account) (e : JsonExport) (summary : ImportSummary) : Prop where
  lists : summary.listsAdded + a.content.allLists.length = b.content.allLists.length
  listRows : summary.listsAdded + summary.listsExisting ≤ e.lists.length
  items : ((e.items.filter (ExportItem.isNew a.content)).map ExportItem.id).Nodup →
    summary.itemsAdded + a.content.itemCount = b.content.itemCount
  itemRows : summary.itemsAdded + summary.itemsSkipped + summary.itemsExisting = e.items.length

/-- An import of the same file into `b` adds the rows without a well-formed id. -/
def ImportsAgain (b : Account) (e : JsonExport) (mint : ℕ → String) (now : ℤ) : Prop :=
  ∃ b' summary, b.importJson mint now e = .ok (b', summary) ∧
    summary.listsAdded = (e.lists.filter ExportList.mints).length ∧
    summary.itemsAdded = (e.items.filter ExportItem.mints).length ∧
    (e.lists.filter ExportList.mints = [] → e.items.filter ExportItem.mints = [] → b' = b)

section Whole

variable {a b : Account} {e : JsonExport} {mint mint' : ℕ → String} {now now' : ℤ}
  {summary : ImportSummary}

theorem importJson_ok (h : a.importJson mint now e = .ok (b, summary)) :
    e.version = 1 ∧ b = { a with
      content := (e.items.foldl (importItem mint a.index)
        (e.lists.foldl (importList mint now) a.importing)).content
      focus := b.focus } ∧
    summary.listsAdded = (e.items.foldl (importItem mint a.index)
        (e.lists.foldl (importList mint now) a.importing)).summary.listsAdded ∧
    summary.listsExisting = (e.items.foldl (importItem mint a.index)
        (e.lists.foldl (importList mint now) a.importing)).summary.listsExisting ∧
    summary.itemsAdded = (e.items.foldl (importItem mint a.index)
        (e.lists.foldl (importList mint now) a.importing)).summary.itemsAdded ∧
    summary.itemsSkipped = (e.items.foldl (importItem mint a.index)
        (e.lists.foldl (importList mint now) a.importing)).summary.itemsSkipped ∧
    summary.itemsExisting = (e.items.foldl (importItem mint a.index)
        (e.lists.foldl (importList mint now) a.importing)).summary.itemsExisting := by
  unfold Account.importJson at h
  split at h
  · cases h
  · rename_i hversion
    rw [ne_eq, not_not] at hversion
    obtain ⟨rfl, rfl⟩ := Prod.mk.inj (Except.ok.inj h)
    exact ⟨hversion, rfl, rfl, rfl, rfl, rfl, rfl⟩

/-- **An import adds and changes nothing.**  Every item, every list and every order that was
there is as it was; the counts are the growth, as long as the file does not repeat the id of an
item that is new; and the same file again adds the rows without a well-formed id only. -/
theorem import_keeps (hfresh : FreshIds mint a e)
    (h : a.importJson mint now e = .ok (b, summary)) :
    ImportKept a b ∧ ImportCounted a b e summary ∧ ImportsAgain b e mint' now' := by
  obtain ⟨hversion, hb, hla, hle, hia, his, hie⟩ := importJson_ok h
  obtain ⟨hrows, hmaps, hkeepsLists, hadded, hskipped, hexisting⟩ :=
    importLists_frame mint now (c := a.content) a.importing e.lists
  obtain ⟨-, hlists, hlistsAdded, hlistsExisting⟩ := importItems_frame mint a.index
    (e.lists.foldl (importList mint now) a.importing) e.items
  have hkeepsStart := hkeepsLists (.refl a.content)
  have hkeeps : a.content.Keeps b.content := by
    rw [hb]
    exact importItems_keeps _ a.mirrors hfresh.item hfresh.wellFormed hkeepsStart e.items
  have hcontent : b.content = (e.items.foldl (importItem mint a.index)
      (e.lists.foldl (importList mint now) a.importing)).content := by
    rw [hb]
  have hitems : ∀ id, (e.lists.foldl (importList mint now) a.importing).content.item id =
      a.content.item id := fun id => by
    rw [Content.item, hmaps]
    rfl
  have hstart : (e.lists.foldl (importList mint now) a.importing).content.itemCount =
      a.content.itemCount := by
    simp only [Content.itemCount, Content.has, hitems, hmaps]
    rfl
  refine ⟨?_, ?_, ?_⟩
  · exact ⟨hkeeps.item, hkeeps.allLists, hkeeps.resolved a.mirrors b.mirrors,
      hkeeps.openItemIds (computed_computeIndex _) (computed_computeIndex _)⟩
  · refine ⟨?_, ?_, fun hnodup => ?_, ?_⟩
    · have hgrowth := importLists_growth _ now hfresh.distinct a.importing e.lists
        (by rw [JsonExport.draws]; exact (Nat.zero_add _).le.trans (Nat.le_add_right _ _))
        (fun n _ _ => hfresh.list n) fun n src hsrc => hfresh.lists n src hsrc
      have hsame : b.content.allLists =
          (e.lists.foldl (importList mint now) a.importing).content.allLists := by
        rw [hcontent, Content.allLists, hlists]
        rfl
      rw [hla, hlistsAdded, hsame]
      exact hgrowth.trans (Nat.zero_add _)
    · have hcount := importLists_count mint now a.importing e.lists
      rw [hla, hle, hlistsAdded, hlistsExisting]
      exact hcount.trans (Nat.le_of_eq (Nat.zero_add _))
    · have hdraws : (e.lists.foldl (importList mint now) a.importing).minted +
          2 * e.items.length ≤ e.draws := by
        have hminted := importLists_minted mint now a.importing e.lists
        have hzero : a.importing.minted = 0 := rfl
        rw [JsonExport.draws]
        omega
      have hgrowth := importItems_growth _ a.mirrors hfresh.distinct hfresh.item
        hfresh.wellFormed hkeepsStart hdraws (fun n _ _ => (hitems _).trans (hfresh.item n))
        (fun n src hsrc => hfresh.items n src hsrc) hnodup fun src _ hnew => by
          rw [hitems]
          have hout : a.content.has src.id = false := by
            simp only [ExportItem.isNew, Bool.and_eq_true, Bool.not_eq_true'] at hnew
            exact hnew.2
          rwa [Content.has, Option.isSome_eq_false_iff, Option.isNone_iff_eq_none] at hout
      rw [hia, hcontent, ← hstart, hgrowth, hadded]
      exact Nat.zero_add _
    · have hcount := importItems_count mint a.index
        (e.lists.foldl (importList mint now) a.importing) e.items
      rw [hadded, hskipped, hexisting] at hcount
      rw [hia, his, hie, hcount]
      exact Nat.zero_add _
  · unfold ImportsAgain
    have hfoundLists : ∀ src ∈ e.lists, src.imports = true → isWellFormedId src.id = true →
        (b.importing.content.findList src.id).isSome = true := by
      intro src hsrc himp hid
      obtain ⟨row, hrow, his⟩ := findList_isSome_iff.1
        (importLists_found mint now a.importing e.lists hsrc himp hid)
      refine findList_isSome_iff.2 ⟨row, ?_, his⟩
      show row ∈ b.content.lists
      rw [hcontent, hlists]
      exact hrow
    obtain ⟨hagain, hsame⟩ := reimportLists mint' now' b.importing hfoundLists
    obtain ⟨-, hmaps', -, hadded', -⟩ := importLists_frame mint' now'
      (c := b.content) b.importing e.lists
    have hitems' : ∀ id, (e.lists.foldl (importList mint' now') b.importing).content.item id =
        b.content.item id := fun id => by
      rw [Content.item, hmaps']
      rfl
    have hfoundItems : ∀ src ∈ e.items, src.imports = true → isWellFormedId src.id = true →
        (b.index.metas.get src.id).isSome = true ∧
          (e.lists.foldl (importList mint' now') b.importing).content.has src.id = true := by
      intro src hsrc himp hid
      have hhas : b.content.has src.id = true := by
        rw [hcontent]
        exact importItems_found _ a.index _ e.items hsrc himp hid
      refine ⟨?_, by rw [Content.has, hitems']; exact hhas⟩
      obtain ⟨m, hm⟩ := Content.has_iff.1 hhas
      rw [b.mirrors.metas, Content.metaOf, hm]
      rfl
    obtain ⟨hagainItems, hsameItems⟩ := reimportItems mint' _ hfoundItems
    obtain ⟨-, -, hlistsAdded', -⟩ := importItems_frame mint' b.index
      (e.lists.foldl (importList mint' now') b.importing) e.items
    have hrun : ∃ b' summary', b.importJson mint' now' e = .ok (b', summary') ∧
        summary'.listsAdded = (e.items.foldl (importItem mint' b.index)
          (e.lists.foldl (importList mint' now') b.importing)).summary.listsAdded ∧
        summary'.itemsAdded = (e.items.foldl (importItem mint' b.index)
          (e.lists.foldl (importList mint' now') b.importing)).summary.itemsAdded ∧
        b' = { b with
          content := (e.items.foldl (importItem mint' b.index)
            (e.lists.foldl (importList mint' now') b.importing)).content
          focus := b.focus ++ importFocus (e.items.foldl (importItem mint' b.index)
            (e.lists.foldl (importList mint' now') b.importing)).itemIdMap b.focusSeen e.focus } := by
      unfold Account.importJson
      rw [if_neg (by simp [hversion])]
      exact ⟨_, _, rfl, rfl, rfl, rfl⟩
    obtain ⟨b', summary', hrun, hlists', hitemsAdded, hb'⟩ := hrun
    refine ⟨b', summary', hrun, ?_, ?_, fun hnoLists hnoItems => ?_⟩
    · rw [hlists', hlistsAdded', hagain]
      exact Nat.zero_add _
    · rw [hitemsAdded, hagainItems, hadded']
      exact Nat.zero_add _
    · obtain ⟨hc, hmarks⟩ := hsameItems hnoItems
      rw [hb', hc, hsame hnoLists, hmarks, importLists_itemIdMap _ _]
      show ({ b with focus := b.focus ++ importFocus .empty b.focusSeen e.focus } : Account) = b
      rw [importFocus_empty, List.append_nil]

end Whole

/-! ## A file that is imported again -/

/-- Two ids for an import that needs no more. -/
def mintPair : ℕ → String
  | 0 => shoppingId
  | _ + 1 => "00000000000000000000000000000000"

/-- A file with these items and nothing else. -/
def itemsFile (items : List ExportItem) : JsonExport := ⟨1, ⟨true, none⟩, [], items, []⟩

/-- An item of a file. -/
def fileItem (id : String) : ExportItem :=
  ⟨id, "Milk", "", LIST_INBOX, ⟨"backlog", 0⟩, none, none, none, none, 0, none, none, none, none⟩

theorem freshIds_itemsFile {items : List ExportItem} (hdraws : items.length ≤ 1)
    (hitems : ∀ n, ∀ src ∈ items, src.id ≠ mintPair n) :
    FreshIds mintPair Account.empty (itemsFile items) where
  distinct i j hij hj := by
    have hdraw : (itemsFile items).draws = 2 * items.length := Nat.zero_add _
    obtain ⟨rfl, rfl⟩ : i = 0 ∧ j = 1 := by omega
    decide
  wellFormed n := by
    cases n with
    | zero => decide
    | succ n => exact (by decide : isWellFormedId (mintPair 1) = true)
  item _ := rfl
  list _ := rfl
  items n src hsrc := hitems n src hsrc
  lists _ _ hsrc := absurd hsrc List.not_mem_nil

/-- A file with one item that has an id of its own. -/
theorem import_keeps_milk : ∃ b summary,
    Account.empty.importJson mintPair 0 (itemsFile [fileItem milkId]) = .ok (b, summary) ∧
      ImportKept Account.empty b ∧
      ImportCounted Account.empty b (itemsFile [fileItem milkId]) summary ∧
      ImportsAgain b (itemsFile [fileItem milkId]) mintPair 0 := by
  have hfresh : FreshIds mintPair Account.empty (itemsFile [fileItem milkId]) := by
    refine freshIds_itemsFile (Nat.le_refl 1) fun n src hsrc => ?_
    rw [List.mem_singleton.1 hsrc]
    cases n with
    | zero => decide
    | succ n => exact (by decide : milkId ≠ mintPair 1)
  have hok : (Account.empty.importJson mintPair 0 (itemsFile [fileItem milkId])).isOk = true := by
    decide
  cases hrun : Account.empty.importJson mintPair 0 (itemsFile [fileItem milkId]) with
  | error err =>
    rw [hrun] at hok
    cases hok
  | ok r => exact ⟨r.1, r.2, rfl, import_keeps hfresh hrun⟩

/-- An item without an id comes again with every import; and an item that the file repeats is
counted twice, although it is there once. -/
theorem import_again :
    (¬ ∀ (a b b' : Account) (e : JsonExport) (mint mint' : ℕ → String) (now : ℤ)
      (summary summary' : ImportSummary), FreshIds mint a e →
      a.importJson mint now e = .ok (b, summary) → b.importJson mint' now e = .ok (b', summary') →
      summary'.itemsAdded = 0) ∧
    ¬ ∀ (a b : Account) (e : JsonExport) (mint : ℕ → String) (now : ℤ) (summary : ImportSummary),
      (∀ n, a.content.item (mint n) = none ∧ ∀ src ∈ e.items, src.id ≠ mint n) →
      a.importJson mint now e = .ok (b, summary) →
      summary.itemsAdded + a.content.itemCount = b.content.itemCount := by
  constructor
  · intro h
    have hfresh : FreshIds mintPair Account.empty (itemsFile [fileItem ""]) := by
      refine freshIds_itemsFile (Nat.le_refl 1) fun n src hsrc => ?_
      rw [List.mem_singleton.1 hsrc]
      cases n with
      | zero => decide
      | succ n => exact (by decide : "" ≠ mintPair 1)
    have htwice : ((Account.empty.importJson mintPair 0 (itemsFile [fileItem ""])).toOption.bind
        fun r => (r.1.importJson mintSame 0 (itemsFile [fileItem ""])).toOption.map
          fun r => r.2.itemsAdded) = some 1 := by
      decide
    cases hrun : Account.empty.importJson mintPair 0 (itemsFile [fileItem ""]) with
    | error err =>
      rw [hrun] at htwice
      cases htwice
    | ok r =>
      rw [hrun] at htwice
      cases hagain : r.1.importJson mintSame 0 (itemsFile [fileItem ""]) with
      | error err =>
        simp only [Except.toOption, Option.bind_some, hagain] at htwice
        cases htwice
      | ok r' =>
        have hzero := h _ _ _ _ _ _ _ _ _ hfresh hrun hagain
        simp only [Except.toOption, Option.bind_some, hagain, Option.map_some] at htwice
        rw [hzero] at htwice
        cases htwice
  · intro h
    have hrun : (Account.empty.importJson mintPair 0
        (itemsFile [fileItem milkId, fileItem milkId])).toOption.map
          (fun r => (r.2.itemsAdded, r.1.content.itemCount)) = some (2, 1) := by
      decide
    cases himport : Account.empty.importJson mintPair 0
        (itemsFile [fileItem milkId, fileItem milkId]) with
    | error err =>
      rw [himport] at hrun
      cases hrun
    | ok r =>
      rw [himport] at hrun
      obtain ⟨hadded, hcount⟩ := Prod.mk.inj (Option.some.inj hrun)
      have hsame := h _ _ _ _ _ _ (fun n => ⟨rfl, fun src hsrc => ?_⟩) himport
      · rw [hadded, hcount] at hsame
        exact absurd hsame (by decide)
      · have hid : src.id = milkId := by
          rcases List.mem_pair.1 hsrc with rfl | rfl
          · rfl
          · rfl
        rw [hid]
        cases n with
        | zero => decide
        | succ n => exact (by decide : milkId ≠ mintPair 1)

end Monoplan.Doc
