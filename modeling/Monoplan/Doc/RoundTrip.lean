import Monoplan.Doc.Adding
import Monoplan.Doc.Export

/-!
# Export and import

An export imported into an empty document gives the same document back, as far as a consumer is
shown it, exactly where every register is in the form an import writes (`Portable`): an import
trims every text, drops a list without a name and whatever it cannot read, and mints an id of its
own for one that is not well formed.

* `clean_import`: whatever is imported, the lists and items that come of it are portable.
* `import_export`: the round trip, exactly for the portable documents.
* `renamed_away`: a list renamed to a blank name does not survive.
-/

namespace Monoplan.Doc

open Monoplan.Base

/-! ## Items by list -/

namespace Account

variable (a : Account)

/-- The items of one list, in its resolved order. -/
def itemsIn (listId : String) : List ItemView :=
  (a.index.resolved listId).filterMap fun id => (a.content.item id).bind itemView

variable {a} {l : String} {v : ItemView}

theorem mirrors (a : Account) : Mirrors a.content a.index :=
  (computed_computeIndex a.content).mirrors

theorem listId_of_itemView {m : ItemMap} (h : itemView m = some v) :
    v.listId = m.locatedIn.listId := by
  obtain ⟨_, _, h⟩ := Option.bind_eq_some_iff.1 h
  obtain ⟨_, _, h⟩ := Option.bind_eq_some_iff.1 h
  obtain ⟨_, _, rfl⟩ := Option.map_eq_some_iff.1 h
  rfl

theorem mem_itemsIn : v ∈ a.itemsIn l ↔
    ∃ k m, a.content.item k = some m ∧ itemView m = some v ∧ v.listId = l := by
  simp only [itemsIn, List.mem_filterMap, a.mirrors.mem_resolved, Option.bind_eq_some_iff]
  constructor
  · rintro ⟨k, ⟨m, hm, hl⟩, m', hm', hv⟩
    obtain rfl := Option.some.inj (hm.symm.trans hm')
    exact ⟨k, m, hm, hv, (listId_of_itemView hv).trans hl⟩
  · rintro ⟨k, m, hm, hv, hl⟩
    exact ⟨k, ⟨m, hm, (listId_of_itemView hv).symm.trans hl⟩, m, hm, hv⟩

theorem iterItems_eq : a.iterItems =
    (a.index.orderedListIds a.content.allListIds).flatMap a.itemsIn := by
  rw [iterItems, ProjectionIndex.iterItems, List.filterMap_flatMap]
  rfl

theorem itemsIn_eq_nil (h : l ∉ a.index.orderedListIds a.content.allListIds) :
    a.itemsIn l = [] := by
  refine List.eq_nil_iff_forall_not_mem.2 fun v hv => h ?_
  obtain ⟨k, m, hm, hview, rfl⟩ := mem_itemsIn.1 hv
  rw [Mirrors.mem_orderedListIds]
  have hmem : k ∈ a.index.membersOf v.listId :=
    a.mirrors.mem_membersOf.2 ⟨m, hm, (listId_of_itemView hview).symm⟩
  exact .inr (.inr (ProjectionIndex.mem_members_keys hmem))

theorem flatMap_filter {lists : List String} (hnodup : lists.Nodup) :
    (lists.flatMap a.itemsIn).filter (fun v => v.listId = l) =
      if l ∈ lists then a.itemsIn l else [] := by
  induction lists with
  | nil => rfl
  | cons k rest ih =>
    obtain ⟨hk, hrest⟩ := List.nodup_cons.1 hnodup
    rw [List.flatMap_cons, List.filter_append, ih hrest]
    by_cases hlk : l = k
    · subst hlk
      have hall : ∀ v ∈ a.itemsIn l, decide (v.listId = l) = true := by
        intro v hv
        obtain ⟨_, _, _, _, hl⟩ := mem_itemsIn.1 hv
        exact decide_eq_true hl
      rw [List.filter_eq_self.2 hall, if_neg hk, List.append_nil, if_pos (List.mem_cons_self ..)]
    · have hnone : ∀ v ∈ a.itemsIn k, ¬ decide (v.listId = l) = true := by
        intro v hv
        obtain ⟨_, _, _, _, hk⟩ := mem_itemsIn.1 hv
        simpa [hk] using fun h => hlk h.symm
      rw [List.filter_eq_nil_iff.2 hnone, List.nil_append]
      simp [hlk]

/-- The items of one list are those of the walk that are located there. -/
theorem filter_iterItems (a : Account) (l : String) :
    a.iterItems.filter (fun v => v.listId = l) = a.itemsIn l := by
  rw [iterItems_eq, flatMap_filter (Mirrors.orderedListIds_nodup _ _)]
  split
  · rfl
  · rename_i h
    exact (itemsIn_eq_nil h).symm

theorem mem_iterItems : v ∈ a.iterItems ↔ v ∈ a.itemsIn v.listId := by
  rw [← filter_iterItems, List.mem_filter]
  simp

end Account

/-! ## What an import writes -/

/-- A register trimmed, and absent where nothing is left. -/
def cleaned (s : Option String) : Option String := (s.map trim).filter fun t => t ≠ ""

theorem cleaned_some (t : String) :
    cleaned (some t) = if trim t = "" then none else some (trim t) := by
  by_cases h : trim t = ""
  · simp [cleaned, Option.filter, h]
  · simp [cleaned, Option.filter, h]

@[simp] theorem nonempty_cleaned (s : Option String) : nonempty (cleaned s) = cleaned s := by
  rw [nonempty, cleaned, Option.filter_filter]
  simp

@[simp] theorem cleaned_cleaned (s : Option String) : cleaned (cleaned s) = cleaned s := by
  cases s with
  | none => rfl
  | some t =>
    rw [cleaned_some]
    split
    · rfl
    · rename_i h
      rw [cleaned_some, trim_idem, if_neg h]

/-- A list in the form an import writes: a well-formed id, a trimmed name that is not blank, a
trimmed icon, and a default view that names no cancelled lane. -/
structure PortableList (v : ListView) : Prop where
  id : isWellFormedId v.id = true
  name : trim v.name = v.name
  named : v.name ≠ ""
  icon : cleaned v.icon = v.icon
  view : ∀ w ∈ v.defaultView.bind DefaultView.parse, .cancelled ∉ w.lanes

/-- An item in the form an import writes. -/
structure PortableItem (v : ItemView) : Prop where
  id : isWellFormedId v.id = true
  text : trim v.text = v.text
  titled : v.text ≠ ""
  notes : trim v.notes = v.notes
  deadline : v.deadline.bind parseDeadline = v.deadline
  when : v.when.bind parseWhen = v.when
  duration : v.duration.filter validDuration = v.duration
  place : v.place.bind Place.normalized = v.place
  createdBy : cleaned v.createdBy = v.createdBy

/-- A register a parser filled is one it keeps, if it keeps what it returns. -/
theorem bind_idem {α : Type} {f : α → Option α} (h : ∀ {x y}, f x = some y → f y = some y)
    (o : Option α) : (o.bind f).bind f = o.bind f := by
  cases o with
  | none => rfl
  | some x =>
    show (f x).bind f = f x
    cases hx : f x with
    | none => rfl
    | some y => exact h hx

theorem nonempty_bind {f : String → Option String} (h : ∀ {x y}, f x = some y → y ≠ "")
    (o : Option String) : nonempty (o.bind f) = o.bind f := by
  cases ho : o.bind f with
  | none => rfl
  | some y =>
    obtain ⟨x, _, hx⟩ := Option.bind_eq_some_iff.1 ho
    simp [nonempty, h hx]

section Written

variable {now : ℤ} {id l p : String}

theorem listView_toRow (src : ExportList) : listView (src.toRow now id) =
    some ⟨id, trim src.name, cleaned src.icon,
      (src.view.bind DefaultView.parse).map DefaultView.encode, src.archivedAt,
      src.createdAt.getD now⟩ := by
  have hicon : nonempty (src.toRow now id).icon = cleaned src.icon := nonempty_cleaned _
  rw [← hicon]
  rfl

theorem portable_toRow {src : ExportList} (hid : isWellFormedId id = true)
    (hname : trim src.name ≠ "") {v : ListView} (h : listView (src.toRow now id) = some v) :
    PortableList v := by
  rw [listView_toRow] at h
  obtain rfl := Option.some.inj h
  refine ⟨hid, trim_idem _, hname, cleaned_cleaned _, fun w hw => ?_⟩
  cases hv : src.view.bind DefaultView.parse with
  | none => simp [hv] at hw
  | some u =>
    simp only [hv, Option.map_some, Option.bind_some] at hw
    exact DefaultView.cancelled_not_mem hw

theorem workflowOf_toMap (src : ExportItem) : (src.toMap id l p).workflowOf =
    ((WorkflowState.parseName src.lifecycle.state).getD .backlog, src.lifecycle.since) := by
  rw [ItemMap.workflowOf, ItemMap.readWorkflow]
  unfold ExportItem.toMap
  dsimp only
  split
  · simp [WorkflowState.fromCode_code]
  · rename_i h
    rw [not_or, not_not, not_not] at h
    simp [h.1, h.2]

theorem locatedIn_toMap (src : ExportItem) (id p : String) (hl : PlainId l) :
    (src.toMap id l p).locatedIn = ⟨l, p⟩ := by
  have hparse : Location.parse (Location.encode ⟨l, p⟩) = some ⟨l, p⟩ := Location.parse_encode hl
  simp [ItemMap.locatedIn, ExportItem.toMap, hparse]

theorem itemView_toMap (src : ExportItem) (hl : PlainId l) :
    itemView (src.toMap id l p) = some
      { id, text := trim src.text, notes := trim src.notes, listId := l
        state := (WorkflowState.parseName src.lifecycle.state).getD .backlog
        lifecycleAt := src.lifecycle.since
        deadline := src.deadline.bind parseDeadline
        when := src.when.bind parseWhen
        duration := src.duration.filter validDuration
        place := src.place.bind Place.normalized
        createdAt := src.createdAt
        createdBy := cleaned src.createdBy
        startedAt := src.startedAt, doneAt := src.doneAt, binnedAt := src.binnedAt } := by
  have hloc : (src.toMap id l p).locatedIn.listId = l := by
    rw [locatedIn_toMap src id p hl]
  have hnotes : (src.toMap id l p).notes.getD "" = trim src.notes := by
    unfold ExportItem.toMap
    dsimp only
    split
    · rename_i h
      exact h.symm
    · rfl
  have hwork : (src.toMap id l p).workflowOf =
      ((WorkflowState.parseName src.lifecycle.state).getD .backlog, src.lifecycle.since) :=
    workflowOf_toMap src
  have hdeadline : nonempty (src.toMap id l p).deadline = src.deadline.bind parseDeadline :=
    nonempty_bind (fun h => parseDeadline_ne h) _
  have hwhen : nonempty (src.toMap id l p).when = src.when.bind parseWhen :=
    nonempty_bind (fun h => parseWhen_ne h) _
  have hauthor : nonempty (src.toMap id l p).createdBy = cleaned src.createdBy :=
    nonempty_cleaned _
  show some (ItemView.mk id (trim src.text) ((src.toMap id l p).notes.getD "")
    (src.toMap id l p).locatedIn.listId (src.toMap id l p).workflowOf.1
    (src.toMap id l p).workflowOf.2 (nonempty (src.toMap id l p).deadline)
    (nonempty (src.toMap id l p).when) (src.toMap id l p).duration (src.toMap id l p).place
    src.createdAt (nonempty (src.toMap id l p).createdBy) (src.toMap id l p).startedAt
    (src.toMap id l p).doneAt (src.toMap id l p).binnedAt) = _
  rw [hloc, hnotes, hwork, hdeadline, hwhen, hauthor]
  rfl

theorem portable_toMap {src : ExportItem} (hl : PlainId l) (hid : isWellFormedId id = true)
    (htext : trim src.text ≠ "") :
    ∃ v, itemView (src.toMap id l p) = some v ∧ v.id = id ∧ PortableItem v := by
  refine ⟨_, itemView_toMap src hl, rfl, ?_⟩
  constructor
  · exact hid
  · exact trim_idem _
  · exact htext
  · exact trim_idem _
  · exact bind_idem (fun h => parseDeadline_idem h) _
  · exact bind_idem (fun h => parseWhen_idem h) _
  · simp
  · exact bind_idem (fun h => normalized_idem h) _
  · exact cleaned_cleaned _

end Written

/-! ## Whatever is imported is portable -/

/-- Every row and item map is one an import wrote. -/
structure CleanContent (c : Content) : Prop where
  lists : ∀ r ∈ c.lists, ∃ row, r = some row ∧ ∀ v, listView row = some v → PortableList v
  items : ∀ k m, c.item k = some m → ∃ v, itemView m = some v ∧ v.id = k ∧ PortableItem v

/-- An import wrote what is there, and routes items to lists with plain ids. -/
structure Clean (s : Importing) : Prop where
  content : CleanContent s.content
  routes : ∀ k l, s.idMap.get k = some l → PlainId l

section Clean

variable {mint : ℕ → String} {now : ℤ} {idx : ProjectionIndex} {s : Importing}

theorem inbox_plain : PlainId LIST_INBOX := by decide

theorem routes_insert {m : FMap String String} (h : ∀ k l, m.get k = some l → PlainId l)
    {k l : String} (hl : PlainId l) : ∀ k' l', (m.insert k l).get k' = some l' → PlainId l' := by
  intro k' l' hget
  rw [FMap.get_insert] at hget
  split at hget
  · exact Option.some.inj hget ▸ hl
  · exact h k' l' hget

/-- An id that is kept or minted is well formed. -/
theorem wellFormed_kept (hmint : ∀ n, isWellFormedId (mint n) = true) (id : String) (n : ℕ) :
    isWellFormedId (if isWellFormedId id then id else mint n) = true := by
  split
  · assumption
  · exact hmint n

theorem clean_importList (hmint : ∀ n, isWellFormedId (mint n) = true) (h : Clean s)
    (src : ExportList) : Clean (importList mint now s src) := by
  unfold importList
  split
  · exact h
  · split
    · split
      · exact h
      · exact ⟨h.content, routes_insert h.routes inbox_plain⟩
    · split
      · exact h
      · rename_i hname
        split
        · rename_i hfound
          exact ⟨h.content, routes_insert h.routes (isWellFormedId_plain hfound.1)⟩
        · have hid := wellFormed_kept hmint src.id s.minted
          refine ⟨⟨fun r hr => ?_, h.content.items⟩, ?_⟩
          · rcases List.mem_append.1 hr with hr | hr
            · exact h.content.lists r hr
            · exact ⟨_, List.mem_singleton.1 hr, fun v hv => portable_toRow hid hname hv⟩
          · dsimp only
            split
            · exact h.routes
            · exact routes_insert h.routes (isWellFormedId_plain hid)

theorem clean_importItem (hmint : ∀ n, isWellFormedId (mint n) = true) (h : Clean s)
    (src : ExportItem) : Clean (importItem mint idx s src) := by
  unfold importItem
  split
  · exact ⟨h.content, h.routes⟩
  · rename_i htext
    split
    · exact ⟨h.content, h.routes⟩
    · have hid := wellFormed_kept hmint src.id s.minted
      have hplain : PlainId ((s.idMap.get src.listId).getD LIST_INBOX) := by
        cases hget : s.idMap.get src.listId with
        | none => exact inbox_plain
        | some l => exact h.routes _ _ hget
      refine ⟨⟨h.content.lists, fun k m hm => ?_⟩, h.routes⟩
      have hset := (Content.item_setItem s.content _ k _).symm.trans hm
      by_cases hk : k = if isWellFormedId src.id then src.id else mint s.minted
      · rw [if_pos hk] at hset
        obtain rfl := Option.some.inj hset
        obtain ⟨v, hv, hvid, hportable⟩ := portable_toMap hplain hid htext
        exact ⟨v, hv, hvid.trans hk.symm, hportable⟩
      · rw [if_neg hk] at hset
        exact h.content.items k m hset

theorem foldl_keeps {α β : Type} {P : α → Prop} {f : α → β → α} (h : ∀ a b, P a → P (f a b))
    {a : α} (ha : P a) (bs : List β) : P (bs.foldl f a) := by
  induction bs generalizing a with
  | nil => exact ha
  | cons b bs ih => exact ih (h a b ha)

theorem clean_empty : Clean Account.empty.importing where
  content.lists _ hr := absurd hr List.not_mem_nil
  content.items _ _ hm := absurd hm (by simp [Account.importing, Account.empty, Content.item])
  routes k l hget := by
    simp only [Account.importing, reservedIds, FMap.get_insert] at hget
    split at hget
    · exact Option.some.inj hget ▸ (by decide : PlainId LIST_EVENTS)
    · split at hget
      · exact Option.some.inj hget ▸ inbox_plain
      · exact absurd hget (by simp)

/-- The state after every list and item of a file. -/
def imported (mint : ℕ → String) (now : ℤ) (a : Account) (e : JsonExport) : Importing :=
  e.items.foldl (importItem mint a.index) (e.lists.foldl (importList mint now) a.importing)

/-- **Whatever is imported into an empty document is portable.** -/
theorem clean_import (hmint : ∀ n, isWellFormedId (mint n) = true) (now : ℤ) (e : JsonExport) :
    Clean (imported mint now .empty e) := by
  have hlists : Clean (e.lists.foldl (importList mint now) Account.empty.importing) :=
    foldl_keeps (P := Clean) (fun s src h => clean_importList hmint h src) clean_empty _
  exact foldl_keeps (P := Clean) (fun s src h => clean_importItem hmint h src) hlists _

end Clean

/-! ## Importing an export -/

/-- What importing the rows of `ls` does. -/
structure TookLists (now : ℤ) (ls : List ListView) (s s' : Importing) : Prop where
  content : s'.content = { s.content with
    lists := s.content.lists ++ ls.map fun v => some (v.toExport.toRow now v.id) }
  itemIdMap : s'.itemIdMap = s.itemIdMap
  idMap : ∀ k, s'.idMap.get k = if k ∈ ls.map ListView.id then some k else s.idMap.get k

/-- What importing the items of `vs` does, under the placements `place`. -/
structure TookItems (place : String → String) (vs : List ItemView) (s s' : Importing) : Prop where
  items : ∀ v ∈ vs, s'.content.item v.id = some (v.toExport.toMap v.id v.listId (place v.id))
  others : ∀ k, k ∉ vs.map ItemView.id → s'.content.item k = s.content.item k
  orders : ∀ l, s'.content.orders l = s.content.orders l ++
    (vs.filter fun v => v.listId = l).map fun v => some (OrderEntry.encode ⟨v.id, place v.id⟩)
  lists : s'.content.lists = s.content.lists
  marks : ∀ v ∈ vs, s'.itemIdMap.get v.id = some (v.id, v.isOpen)
  unmarked : ∀ k, k ∉ vs.map ItemView.id → s'.itemIdMap.get k = s.itemIdMap.get k

section Export

variable {mint : ℕ → String} {now : ℤ} {idx : ProjectionIndex} {s : Importing}

theorem findList_append {c : Content} {id : String} {row : ListRow} (h : c.findList id = none)
    (hne : row.id ≠ some id) :
    ({ c with lists := c.lists ++ [some row] } : Content).findList id = none := by
  rw [Content.findList, List.findIdx?_eq_none_iff] at h ⊢
  intro r hr
  rcases List.mem_append.1 hr with hr | hr
  · exact h r hr
  · rw [List.mem_singleton.1 hr]
    simpa [Content.rowIs] using hne

theorem importList_portable {v : ListView} (hv : PortableList v)
    (hnew : s.content.findList v.id = none) : TookLists now [v] s (importList mint now s v.toExport) := by
  have hevents : v.id ≠ LIST_EVENTS := by
    rintro heq
    exact absurd (heq ▸ hv.id) (by simp [events_not_wellFormed])
  have hinbox : v.id ≠ LIST_INBOX := by
    rintro heq
    exact absurd (heq ▸ hv.id) (by simp [inbox_not_wellFormed])
  have hstep : importList mint now s v.toExport =
      { s with
        content := { s.content with
          lists := s.content.lists ++ [some (v.toExport.toRow now v.id)] }
        idMap := s.idMap.insert v.id v.id
        summary := { s.summary with listsAdded := s.summary.listsAdded + 1 } } := by
    have hne := (isWellFormedId_plain hv.id).1
    have hname : trim v.name ≠ "" := by
      rw [hv.name]
      exact hv.named
    simp [importList, ListView.toExport, hevents, hinbox, hname, hv.id, hnew, hne]
  rw [hstep]
  refine ⟨rfl, rfl, fun k => ?_⟩
  simp only [List.map_cons, List.map_nil, List.mem_singleton]
  by_cases hk : k = v.id
  · rw [if_pos hk, hk]
    exact FMap.get_insert_self _ _ _
  · rw [if_neg hk]
    exact FMap.get_insert_ne _ _ hk

variable (mint) in
theorem importLists_portable {ls : List ListView} (hport : ∀ v ∈ ls, PortableList v)
    (hnodup : (ls.map ListView.id).Nodup) (hnew : ∀ v ∈ ls, s.content.findList v.id = none) :
    TookLists now ls s ((ls.map ListView.toExport).foldl (importList mint now) s) := by
  induction ls generalizing s with
  | nil => exact ⟨by simp, rfl, fun k => by simp⟩
  | cons v ls ih =>
    obtain ⟨hv, hls⟩ := List.forall_mem_cons.1 hport
    obtain ⟨hnotin, hnodup⟩ := List.nodup_cons.1 hnodup
    have hone : TookLists now [v] s (importList mint now s v.toExport) :=
      importList_portable hv (hnew v (List.mem_cons_self ..))
    have hnew' : ∀ w ∈ ls, (importList mint now s v.toExport).content.findList w.id = none := by
      intro w hw
      rw [hone.content]
      refine findList_append (hnew w (List.mem_cons_of_mem _ hw)) fun heq => hnotin ?_
      exact List.mem_map.2 ⟨w, hw, (Option.some.inj heq).symm⟩
    have hrest := ih hls hnodup hnew'
    refine ⟨?_, hrest.itemIdMap.trans hone.itemIdMap, fun k => ?_⟩
    · rw [List.map_cons, List.foldl_cons, hrest.content, hone.content]
      simp
    · rw [List.map_cons, List.foldl_cons, hrest.idMap k, hone.idMap k]
      by_cases hk : k ∈ ls.map ListView.id
      · simp only [hk, List.map_cons, List.mem_cons, or_true, if_true]
      · simp only [hk, List.map_cons, List.map_nil, List.mem_cons, List.not_mem_nil, or_false,
          if_false]

/-- A portable item reads back as it was. -/
theorem itemView_export {v : ItemView} (hv : PortableItem v) (hl : PlainId v.listId) (p : String) :
    itemView (v.toExport.toMap v.id v.listId p) = some v := by
  rw [itemView_toMap _ hl]
  simp [ItemView.toExport, hv.text, hv.notes, hv.deadline, hv.when, hv.duration, hv.place,
    hv.createdBy, WorkflowState.parseName_name]

variable (mint) in
theorem importItem_portable {v : ItemView} (hv : PortableItem v)
    (hidx : idx.metas.get v.id = none) (hroute : s.idMap.get v.listId = some v.listId) :
    TookItems (fun _ => mint s.minted) [v] s (importItem mint idx s v.toExport) ∧
      (importItem mint idx s v.toExport).idMap = s.idMap := by
  have hne := (isWellFormedId_plain hv.id).1
  have htext : trim v.text ≠ "" := by
    rw [hv.text]
    exact hv.titled
  have hstep : importItem mint idx s v.toExport =
      { content :=
          (s.content.setItem v.id (v.toExport.toMap v.id v.listId (mint s.minted))).setOrder
            v.listId
            (s.content.orders v.listId ++ [some (OrderEntry.encode ⟨v.id, mint s.minted⟩)])
        minted := s.minted + 1
        idMap := s.idMap
        itemIdMap := s.itemIdMap.insert v.id (v.id, v.isOpen)
        summary := { s.summary with itemsAdded := s.summary.itemsAdded + 1 } } := by
    simp [importItem, ItemView.toExport, htext, hv.id, hidx, hroute, hne, ItemView.isOpen,
      WorkflowState.parseName_name]
  rw [hstep]
  refine ⟨⟨fun w hw => ?_, fun k hk => ?_, fun l => ?_, rfl, fun w hw => ?_, fun k hk => ?_⟩, rfl⟩
  · obtain rfl := List.mem_singleton.1 hw
    dsimp only
    rw [Content.item_setOrder, Content.item_setItem, if_pos rfl]
  · have hk : k ≠ v.id := by simpa using hk
    dsimp only
    rw [Content.item_setOrder, Content.item_setItem, if_neg hk]
  · dsimp only
    rw [Content.orders_setOrder, Content.orders_setItem]
    by_cases hl : l = v.listId
    · simp [hl]
    · simp [hl, Ne.symm hl]
  · obtain rfl := List.mem_singleton.1 hw
    exact FMap.get_insert_self _ _ _
  · exact FMap.get_insert_ne _ _ (by simpa using hk)

variable (mint) in
theorem importItems_portable {vs : List ItemView} (hport : ∀ v ∈ vs, PortableItem v)
    (hnodup : (vs.map ItemView.id).Nodup) (hidx : ∀ k, idx.metas.get k = none)
    (hroute : ∀ v ∈ vs, s.idMap.get v.listId = some v.listId) :
    ∃ place, TookItems place vs s ((vs.map ItemView.toExport).foldl (importItem mint idx) s) := by
  induction vs generalizing s with
  | nil => exact ⟨fun _ => "", by simp, fun _ _ => rfl, by simp, rfl, by simp, fun _ _ => rfl⟩
  | cons v vs ih =>
    obtain ⟨hv, hvs⟩ := List.forall_mem_cons.1 hport
    obtain ⟨hnotin, hnodup⟩ := List.nodup_cons.1 hnodup
    obtain ⟨hone, hmap⟩ := importItem_portable mint hv (hidx v.id)
      (hroute v (List.mem_cons_self ..))
    obtain ⟨place, hrest⟩ := ih hvs hnodup fun w hw => by
      rw [hmap]
      exact hroute w (List.mem_cons_of_mem _ hw)
    have hplace : ∀ w ∈ vs, Function.update place v.id (mint s.minted) w.id = place w.id := by
      intro w hw
      refine Function.update_of_ne (fun heq => hnotin ?_) _ _
      exact heq ▸ List.mem_map_of_mem hw
    rw [List.map_cons, List.foldl_cons]
    refine ⟨Function.update place v.id (mint s.minted), ?_, ?_, ?_, ?_, ?_, ?_⟩
    · intro w hw
      rcases List.mem_cons.1 hw with rfl | hw
      · rw [hrest.others _ hnotin, Function.update_self]
        exact hone.items _ (List.mem_cons_self ..)
      · rw [hrest.items w hw, hplace w hw]
    · intro k hk
      rw [List.map_cons, List.mem_cons, not_or] at hk
      rw [hrest.others k hk.2, hone.others k (by simpa using hk.1)]
    · intro l
      have hmapped : ((vs.filter fun w => w.listId = l).map fun w =>
          some (OrderEntry.encode ⟨w.id, Function.update place v.id (mint s.minted) w.id⟩)) =
          (vs.filter fun w => w.listId = l).map fun w =>
            some (OrderEntry.encode ⟨w.id, place w.id⟩) :=
        List.map_congr_left fun w hw => by rw [hplace w (List.mem_of_mem_filter hw)]
      rw [hrest.orders l, hone.orders l, List.append_assoc]
      by_cases hl : v.listId = l
      · simp [hl, hmapped]
      · simp [hl, hmapped]
    · exact hrest.lists.trans hone.lists
    · intro w hw
      rcases List.mem_cons.1 hw with rfl | hw
      · rw [hrest.unmarked _ hnotin]
        exact hone.marks _ (List.mem_cons_self ..)
      · exact hrest.marks w hw
    · intro k hk
      rw [List.map_cons, List.mem_cons, not_or] at hk
      rw [hrest.unmarked k hk.2,
        hone.unmarked k (by simpa using hk.1)]

end Export

/-! ## What the imported document shows -/

section Shown

variable {a b : Account} {v : ItemView} {l : String}

/-- A list shows exactly its entries where they name its items, each once. -/
theorem resolved_of_entries {c : Content} {idx : ProjectionIndex} (h : Mirrors c idx)
    {es : List OrderEntry} (hslots : c.slots l = es.map some)
    (hlive : ∀ e ∈ es, c.live l e = true) (hnodup : (es.map OrderEntry.itemId).Nodup)
    (hall : ∀ id, c.Located l id → id ∈ es.map OrderEntry.itemId) :
    idx.resolved l = es.map OrderEntry.itemId := by
  have hids : c.liveIds l = es.map OrderEntry.itemId := by
    rw [Content.liveIds, Content.liveEntries, hslots, List.filterMap_map]
    simp only [Function.comp_def, id, List.filterMap_some]
    rw [List.filter_eq_self.2 hlive, firsts_of_nodup hnodup]
  obtain ⟨rest, hres, _, hrest⟩ := h.order l
  have hnil : rest = [] := by
    refine List.eq_nil_iff_forall_not_mem.2 fun id hid => ?_
    obtain ⟨hloc, hnot⟩ := (hrest id).1 hid
    exact hnot (hids ▸ hall id hloc)
  rw [hres, hids, hnil, List.append_nil]

/-- The items of an imported list are those of the file, in the file's order. -/
theorem itemsIn_of_took {place : String → String} {vs : List ItemView} {s s' : Importing}
    (h : TookItems place vs s s') (hitems : ∀ k, s.content.item k = none)
    (horders : ∀ l, s.content.orders l = []) (hb : b.content = s'.content)
    (hport : ∀ v ∈ vs, PortableItem v) (hplain : ∀ v ∈ vs, PlainId v.listId)
    (hnodup : (vs.map ItemView.id).Nodup) (l : String) :
    b.itemsIn l = vs.filter fun v => v.listId = l := by
  let entry (v : ItemView) : OrderEntry := ⟨v.id, place v.id⟩
  have hmem : ∀ v ∈ vs.filter (fun v => v.listId = l), v ∈ vs ∧ v.listId = l := by
    intro v hv
    simpa using List.mem_filter.1 hv
  have hitem : ∀ v ∈ vs, b.content.item v.id =
      some (v.toExport.toMap v.id v.listId (place v.id)) := by
    intro v hv
    rw [hb]
    exact h.items v hv
  have hids : ((vs.filter fun v => v.listId = l).map entry).map OrderEntry.itemId =
      (vs.filter fun v => v.listId = l).map ItemView.id := by
    rw [List.map_map]
    rfl
  have hresolved : b.index.resolved l = (vs.filter fun v => v.listId = l).map ItemView.id := by
    rw [← hids]
    apply resolved_of_entries b.mirrors
    · rw [Content.slots, hb, h.orders, horders, List.nil_append, List.map_map, List.map_map]
      refine List.map_congr_left fun v hv => ?_
      exact OrderEntry.parse_encode (e := entry v) (isWellFormedId_plain (hport v (hmem v hv).1).id)
    · intro e he
      obtain ⟨v, hv, rfl⟩ := List.mem_map.1 he
      obtain ⟨hin, rfl⟩ := hmem v hv
      unfold Content.live
      rw [Content.metaOf, hitem v hin]
      simp [itemMeta, locatedIn_toMap _ _ _ (hplain v hin), entry]
    · rw [hids]
      exact hnodup.sublist (List.filter_sublist.map _)
    · rintro id ⟨m, hm, hl⟩
      rw [hids]
      by_cases hin : id ∈ vs.map ItemView.id
      · obtain ⟨v, hv, rfl⟩ := List.mem_map.1 hin
        obtain rfl := Option.some.inj ((hitem v hv).symm.trans hm)
        rw [itemMeta, locatedIn_toMap _ _ _ (hplain v hv)] at hl
        exact List.mem_map_of_mem (List.mem_filter.2 ⟨hv, decide_eq_true hl⟩)
      · rw [hb, h.others id hin, hitems] at hm
        exact absurd hm (by simp)
  rw [Account.itemsIn, hresolved, List.filterMap_map]
  have hview : ∀ v ∈ vs.filter (fun v => v.listId = l),
      ((fun id => (b.content.item id).bind itemView) ∘ ItemView.id) v = some v := by
    intro v hv
    have hin := (hmem v hv).1
    show (b.content.item v.id).bind itemView = some v
    rw [hitem v hin]
    exact itemView_export (hport v hin) (hplain v hin) _
  rw [List.filterMap_congr hview, List.filterMap_some]

theorem isOpen_of_itemView {m : ItemMap} (h : itemView m = some v) : m.isOpen = v.isOpen := by
  obtain ⟨_, _, h⟩ := Option.bind_eq_some_iff.1 h
  obtain ⟨_, _, h⟩ := Option.bind_eq_some_iff.1 h
  obtain ⟨_, _, rfl⟩ := Option.map_eq_some_iff.1 h
  rfl

theorem isOpenItem_iff_item {k : String} :
    a.index.isOpenItem k = true ↔ ∃ m, a.content.item k = some m ∧ m.isOpen = true := by
  rw [a.mirrors.isOpenItem_eq, Content.openNow]
  cases a.content.item k <;> simp

end Shown

/-! ## Focus -/

section Focus

variable {a : Account} {k : String}

theorem FocusRef.parse_local {s : String} {r : FocusRef} (h : FocusRef.parse s = some r)
    (hlocal : r.isLocal = true) : r = ⟨none, s⟩ := by
  unfold FocusRef.parse at h
  split at h
  · exact absurd h (by simp)
  · split at h
    · split at h
      · exact absurd h (by simp)
      · obtain rfl := Option.some.inj h
        exact absurd hlocal (by simp [FocusRef.isLocal])
    · exact (Option.some.inj h).symm

/-- A visible ref is a bare item id, of an open item. -/
theorem visible_spec (h : k ∈ a.visibleItemIds) :
    FocusRef.parse k = some ⟨none, k⟩ ∧ a.index.isOpenItem k = true := by
  obtain ⟨r, hr, rfl⟩ := List.mem_map.1 h
  obtain ⟨hentry, hlocal⟩ := List.mem_filter.1 hr
  obtain ⟨hparsed, hlive⟩ := List.mem_filter.1 ((firstsOn_sublist _ _).subset hentry)
  obtain ⟨s, _, hs⟩ := List.mem_filterMap.1 hparsed
  obtain rfl := FocusRef.parse_local hs hlocal
  exact ⟨hs, by simpa [FocusRef.isLocal] using hlive⟩

theorem visible_nodup (a : Account) : a.visibleItemIds.Nodup := by
  have hall : (a.focusEntries.map FocusRef.itemId).Nodup := by
    rw [Account.focusEntries, map_firstsOn]
    exact firsts_nodup _
  exact hall.sublist (List.filter_sublist.map _)

theorem importFocus_eq {marks : FMap String (String × Bool)} {seen : Finset String}
    {ks : List String} (hparse : ∀ k ∈ ks, FocusRef.parse k = some ⟨none, k⟩)
    (hmarks : ∀ k ∈ ks, marks.get k = some (k, true)) (hnodup : ks.Nodup)
    (hseen : ∀ k ∈ ks, k ∉ seen) : importFocus marks seen ks = ks := by
  induction ks generalizing seen with
  | nil => rfl
  | cons k ks ih =>
    obtain ⟨hk, hnodup⟩ := List.nodup_cons.1 hnodup
    have href : ((FocusRef.parse k).filter FocusRef.isLocal).bind (fun r => marks.get r.itemId) =
        some (k, true) := by
      rw [hparse k (List.mem_cons_self ..)]
      simpa [FocusRef.isLocal, Option.filter] using hmarks k (List.mem_cons_self ..)
    rw [importFocus, href]
    simp only [hseen k (List.mem_cons_self ..), if_false]
    rw [ih (fun j hj => hparse j (List.mem_cons_of_mem _ hj))
      (fun j hj => hmarks j (List.mem_cons_of_mem _ hj)) hnodup]
    · rfl
    · intro j hj hmem
      rcases Finset.mem_insert.1 hmem with rfl | hmem
      · exact hk hj
      · exact hseen j (List.mem_cons_of_mem _ hj) hmem

/-- Bare refs to open items, none repeated, are all visible. -/
theorem visible_eq (hparse : ∀ k ∈ a.focus, FocusRef.parse k = some ⟨none, k⟩)
    (hopen : ∀ k ∈ a.focus, a.index.isOpenItem k = true) (hnodup : a.focus.Nodup) :
    a.visibleItemIds = a.focus := by
  have hparsed : a.focus.filterMap FocusRef.parse = a.focus.map (FocusRef.mk none) := by
    rw [← List.filterMap_eq_map]
    exact List.filterMap_congr hparse
  have hids : (a.focus.map (FocusRef.mk none)).map FocusRef.itemId = a.focus := by
    rw [List.map_map]
    exact List.map_id _
  have hlive : ∀ r ∈ a.focus.map (FocusRef.mk none),
      (!r.isLocal || a.index.isOpenItem r.itemId) = true := by
    intro r hr
    obtain ⟨k, hk, rfl⟩ := List.mem_map.1 hr
    simp [hopen k hk]
  have hlocal : ∀ r ∈ a.focus.map (FocusRef.mk none), r.isLocal = true := by
    intro r hr
    obtain ⟨k, _, rfl⟩ := List.mem_map.1 hr
    rfl
  rw [Account.visibleItemIds, Account.focusEntries, hparsed, List.filter_eq_self.2 hlive,
    firstsOn_of_nodup _ (by rwa [hids]), List.filter_eq_self.2 hlocal, hids]

end Focus

/-! ## The round trip -/

/-- A list as it is shown, its default view read. -/
def ListView.read (v : ListView) : ListView × Option DefaultView :=
  ({ v with defaultView := none }, v.defaultView.bind DefaultView.parse)

/-- What a consumer is shown is the same: the lists in order, the items of every list in resolved
order, and the focus order. -/
structure RoundTrip (a b : Account) : Prop where
  lists : b.content.allLists.map ListView.read = a.content.allLists.map ListView.read
  items : ∀ l, b.itemsIn l = a.itemsIn l
  focus : b.visibleItemIds = a.visibleItemIds

/-- Every list and item is in the form an import writes, no id names two items, and a focus ref
names an open item that is shown. -/
structure Portable (a : Account) : Prop where
  lists : ∀ v ∈ a.content.allLists, PortableList v
  items : ∀ v ∈ a.iterItems, PortableItem v
  ids : (a.iterItems.map ItemView.id).Nodup
  focus : ∀ k ∈ a.visibleItemIds, ∃ v ∈ a.iterItems, v.id = k ∧ v.isOpen = true

/-- Every item's list exists. -/
def ListsExist (a : Account) : Prop :=
  ∀ v ∈ a.iterItems, v.listId = LIST_INBOX ∨ v.listId = LIST_EVENTS ∨
    v.listId ∈ a.content.allListIds

section Trip

variable {a b : Account} {mint : ℕ → String} {now : ℤ}

/-! ### What survives is portable -/

theorem map_id_itemsIn (h : CleanContent b.content) (l : String) :
    (b.itemsIn l).map ItemView.id = b.index.resolved l := by
  have hmem : ∀ k ∈ b.index.resolved l, ∃ v, (b.content.item k).bind itemView = some v ∧ v.id = k := by
    intro k hk
    obtain ⟨m, hm, _⟩ := b.mirrors.mem_resolved.1 hk
    obtain ⟨v, hv, hid, _⟩ := h.items k m hm
    exact ⟨v, by rw [hm]; exact hv, hid⟩
  rw [Account.itemsIn]
  generalize b.index.resolved l = ids at hmem ⊢
  induction ids with
  | nil => rfl
  | cons k ks ih =>
    obtain ⟨v, hv, hid⟩ := hmem k (List.mem_cons_self ..)
    have hrest := ih fun j hj => hmem j (List.mem_cons_of_mem _ hj)
    simp only [List.filterMap_cons, hv, List.map_cons, hid, hrest]

theorem portable_of_roundTrip (h : CleanContent b.content) (ht : RoundTrip a b) : Portable a := by
  have hitem : ∀ v l, v ∈ a.itemsIn l →
      ∃ m, b.content.item v.id = some m ∧ itemView m = some v ∧ PortableItem v ∧ v.listId = l := by
    intro v l hv
    rw [← ht.items] at hv
    obtain ⟨k, m, hm, hview, hl⟩ := Account.mem_itemsIn.1 hv
    obtain ⟨w, hw, hid, hportable⟩ := h.items k m hm
    obtain rfl := Option.some.inj (hview.symm.trans hw)
    exact ⟨m, hid ▸ hm, hview, hportable, hl⟩
  constructor
  · intro v hv
    have hread : v.read ∈ b.content.allLists.map ListView.read := by
      rw [ht.lists]
      exact List.mem_map_of_mem hv
    obtain ⟨w, hw, heq⟩ := List.mem_map.1 hread
    obtain ⟨row, hrow, hview⟩ := List.mem_filterMap.1 ((firstsOn_sublist _ _).subset hw)
    obtain ⟨r, hr, hid⟩ := List.mem_filterMap.1 hrow
    obtain ⟨row', rfl, hportable⟩ := h.lists r hr
    obtain rfl := Option.some.inj hid
    have hw' := hportable w hview
    have hshown := congrArg Prod.fst heq
    have hdefault : w.defaultView.bind DefaultView.parse = v.defaultView.bind DefaultView.parse :=
      congrArg Prod.snd heq
    have hsame : w.id = v.id ∧ w.name = v.name ∧ w.icon = v.icon := by
      simp only [ListView.read, ListView.mk.injEq] at hshown
      exact ⟨hshown.1, hshown.2.1, hshown.2.2.1⟩
    exact ⟨hsame.1 ▸ hw'.id, hsame.2.1 ▸ hw'.name, hsame.2.1 ▸ hw'.named, hsame.2.2 ▸ hw'.icon,
      hdefault ▸ hw'.view⟩
  · intro v hv
    obtain ⟨_, _, _, hportable, _⟩ := hitem v _ (Account.mem_iterItems.1 hv)
    exact hportable
  · rw [Account.iterItems_eq, List.map_flatMap, List.nodup_flatMap]
    constructor
    · intro l _
      rw [← ht.items, map_id_itemsIn h]
      exact ProjectionIndex.resolved_nodup _ _
    · refine (Mirrors.orderedListIds_nodup _ _).imp fun {l l'} hne => ?_
      intro k hk hk'
      obtain ⟨v, hv, rfl⟩ := List.mem_map.1 hk
      obtain ⟨v', hv', hid⟩ := List.mem_map.1 hk'
      obtain ⟨m, hm, hview, _, hl⟩ := hitem v l hv
      obtain ⟨m', hm', hview', _, hl'⟩ := hitem v' l' hv'
      rw [hid, hm] at hm'
      obtain rfl := Option.some.inj hm'
      obtain rfl := Option.some.inj (hview.symm.trans hview')
      exact hne (hl.symm.trans hl')
  · intro k hk
    rw [← ht.focus] at hk
    obtain ⟨m, hm, hopen⟩ := isOpenItem_iff_item.1 (visible_spec hk).2
    obtain ⟨v, hview, hid, _⟩ := h.items k m hm
    refine ⟨v, ?_, hid, (isOpen_of_itemView hview).symm.trans hopen⟩
    rw [Account.mem_iterItems, ← ht.items]
    exact Account.mem_itemsIn.2 ⟨k, m, hm, hview, rfl⟩

/-! ### What is portable survives -/

theorem metas_empty (k : String) : Account.empty.index.metas.get k = none := by
  rw [Account.empty.mirrors.metas]
  rfl

variable (mint now) in
/-- The reserved rows of an export change nothing. -/
theorem import_builtins (a : Account) :
    (a.builtinLists.foldl (importList mint now) Account.empty.importing).content =
        Account.empty.content ∧
      (a.builtinLists.foldl (importList mint now) Account.empty.importing).itemIdMap = .empty ∧
      ∀ k, (a.builtinLists.foldl (importList mint now) Account.empty.importing).idMap.get k =
        reservedIds.get k := by
  have hinbox : importList mint now Account.empty.importing (builtinList LIST_INBOX INBOX_NAME) =
      { Account.empty.importing with idMap := reservedIds.insert LIST_INBOX LIST_INBOX } := by
    rfl
  have hmap : ∀ k, (reservedIds.insert LIST_INBOX LIST_INBOX).get k = reservedIds.get k := by
    intro k
    rw [FMap.get_insert]
    split
    · rename_i h
      subst h
      rfl
    · rfl
  rw [Account.builtinLists, List.foldl_cons, hinbox]
  split
  · exact ⟨rfl, rfl, hmap⟩
  · exact ⟨rfl, rfl, hmap⟩

theorem listId_plain (hl : ListsExist a) (hp : Portable a) {v : ItemView} (hv : v ∈ a.iterItems) :
    PlainId v.listId := by
  obtain h | h | h := hl v hv
  · rw [h]
    decide
  · rw [h]
    decide
  · obtain ⟨w, hw, hid⟩ := List.mem_map.1 h
    exact hid ▸ isWellFormedId_plain (hp.lists w hw).id

/-- A default view as an export or an import writes it. -/
def reread (view : Option String) : Option String :=
  (view.bind DefaultView.parse).map DefaultView.encode

theorem parse_reread {o : Option String}
    (h : ∀ w ∈ o.bind DefaultView.parse, .cancelled ∉ w.lanes) :
    (reread o).bind DefaultView.parse = o.bind DefaultView.parse := by
  rw [reread]
  cases ho : o.bind DefaultView.parse with
  | none => rfl
  | some w =>
    obtain ⟨_, _, hw⟩ := Option.bind_eq_some_iff.1 ho
    exact DefaultView.parse_encode (DefaultView.parse_shape hw) (h w ho)

theorem allLists_of_rows (now : ℤ) (hp : ∀ v ∈ a.content.allLists, PortableList v) {c : Content}
    (hc : c.lists = a.content.allLists.map fun v => some (v.toExport.toRow now v.id)) :
    c.allLists.map ListView.read = a.content.allLists.map ListView.read := by
  let shown (v : ListView) : ListView := { v with defaultView := reread (reread v.defaultView) }
  have hview : ∀ v ∈ a.content.allLists, listView (v.toExport.toRow now v.id) = some (shown v) := by
    intro v hv
    rw [listView_toRow]
    simp only [ListView.toExport, (hp v hv).name, (hp v hv).icon, Option.getD_some, shown, reread]
  have hread : ∀ v ∈ a.content.allLists, (shown v).read = v.read := by
    intro v hv
    have honce := parse_reread (hp v hv).view
    have htwice := parse_reread (o := reread v.defaultView) (by rw [honce]; exact (hp v hv).view)
    simp only [ListView.read, shown, htwice, honce]
  have hrows : (c.lists.filterMap id).filterMap listView = a.content.allLists.map shown := by
    rw [hc, List.filterMap_map, List.filterMap_filterMap, ← List.filterMap_eq_map]
    refine List.filterMap_congr fun v hv => ?_
    simp only [Function.comp_apply, id, Option.bind_some, hview v hv]
  have hids : (a.content.allLists.map shown).map ListView.id = a.content.allListIds := by
    rw [List.map_map]
    rfl
  rw [Content.allLists, hrows, firstsOn_of_nodup, List.map_map]
  · exact List.map_congr_left hread
  · rw [hids]
    exact a.content.allListIds_nodup

theorem roundTrip_of_portable (hl : ListsExist a) (hp : Portable a) {b : Account}
    (hcontent : b.content = (imported mint now .empty a.exportJson).content)
    (hfocus : b.focus =
      importFocus (imported mint now .empty a.exportJson).itemIdMap ∅ a.visibleItemIds) :
    RoundTrip a b := by
  obtain ⟨hbuiltin, _, hroutes⟩ := import_builtins mint now a
  have hlists : TookLists now a.content.allLists
      (a.builtinLists.foldl (importList mint now) Account.empty.importing) _ :=
    importLists_portable mint hp.lists a.content.allListIds_nodup fun v _ => by rw [hbuiltin]; rfl
  rw [← List.foldl_append] at hlists
  have hroute : ∀ v ∈ a.iterItems, (a.exportJson.lists.foldl (importList mint now)
      Account.empty.importing).idMap.get v.listId = some v.listId := by
    intro v hv
    refine (hlists.idMap v.listId).trans ?_
    split
    · rfl
    · rename_i hin
      rw [hroutes]
      obtain h | h | h := hl v hv
      · rw [h]
        rfl
      · rw [h]
        rfl
      · exact absurd h hin
  obtain ⟨place, hitems⟩ := importItems_portable mint hp.items hp.ids metas_empty hroute
  have himported : imported mint now .empty a.exportJson =
      (a.iterItems.map ItemView.toExport).foldl (importItem mint Account.empty.index)
        (a.exportJson.lists.foldl (importList mint now) Account.empty.importing) := rfl
  rw [← himported] at hitems
  have hstart : (a.exportJson.lists.foldl (importList mint now) Account.empty.importing).content =
      { Account.empty.content with
        lists := a.content.allLists.map fun v => some (v.toExport.toRow now v.id) } := by
    refine hlists.content.trans ?_
    rw [hbuiltin]
    rfl
  have hplain : ∀ v ∈ a.iterItems, PlainId v.listId := fun v hv => listId_plain hl hp hv
  have hmarked : ∀ k ∈ a.visibleItemIds, ∃ v ∈ a.iterItems, v.id = k ∧ v.isOpen = true := hp.focus
  have hkept : b.focus = a.visibleItemIds := by
    rw [hfocus]
    refine importFocus_eq (fun k hk => (visible_spec hk).1) (fun k hk => ?_) (visible_nodup a)
      fun _ _ => Finset.notMem_empty _
    obtain ⟨v, hv, rfl, hopen⟩ := hmarked k hk
    exact hopen ▸ hitems.marks v hv
  constructor
  · refine allLists_of_rows now hp.lists ?_
    rw [hcontent]
    exact hitems.lists.trans (by rw [hstart])
  · intro l
    rw [← Account.filter_iterItems a l]
    refine itemsIn_of_took hitems (fun k => ?_) (fun l => ?_) hcontent hp.items hplain hp.ids l
    · rw [hstart]
      rfl
    · rw [hstart]
      rfl
  · rw [visible_eq, hkept]
    · intro k hk
      exact (visible_spec (hkept ▸ hk)).1
    · intro k hk
      obtain ⟨v, hv, rfl, hopen⟩ := hmarked k (hkept ▸ hk)
      refine isOpenItem_iff_item.2 ⟨_, by rw [hcontent]; exact hitems.items v hv, ?_⟩
      rw [isOpen_of_itemView (itemView_export (hp.items v hv) (hplain v hv) _), hopen]
    · rw [hkept]
      exact visible_nodup a

variable (a now) in
/-- **An export imports back exactly where the document is portable.**  For every document in
which every item's list exists: importing its export into an empty document succeeds, and gives
the same lists, the same items in the same order in every list and the same focus order if and
only if every list and item is in the form an import writes.  The inbox's saved default view is
not imported: it is the same only where none is saved. -/
theorem import_export (hmint : ∀ n, isWellFormedId (mint n) = true) (hl : ListsExist a) :
    ∃ b summary, Account.empty.importJson mint now a.exportJson = .ok (b, summary) ∧
      (RoundTrip a b ↔ Portable a) ∧
      (b.settings.inboxView.bind DefaultView.parse = a.settings.inboxView.bind DefaultView.parse ↔
        a.settings.inboxView.bind DefaultView.parse = none) := by
  let s := imported mint now .empty a.exportJson
  let b : Account :=
    { Account.empty with
      content := s.content
      focus := [] ++ importFocus s.itemIdMap Account.empty.focusSeen a.visibleItemIds }
  refine ⟨b, _, rfl, ⟨?_, ?_⟩, ⟨fun h => h.symm, fun h => h.symm⟩⟩
  · exact portable_of_roundTrip (clean_import hmint now a.exportJson).content
  · exact fun hp => roundTrip_of_portable hl hp rfl (List.nil_append _)

end Trip

/-! ## One list, and its name -/

def shoppingId : String := "0123456789abcdef0123456789abcdef"

def milkId : String := "fedcba9876543210fedcba9876543210"

/-- Ids for an import that needs none. -/
def mintSame (_ : ℕ) : String := milkId

theorem mintSame_wellFormed (n : ℕ) : isWellFormedId (mintSame n) = true :=
  (by decide : isWellFormedId milkId = true)

/-- One list with one item, which is in Focus. -/
def shopping : Account where
  content :=
    { items := FMap.empty.insert milkId
        (some { id := some milkId, text := some "Milk", createdAt := some 1,
                location := some (Location.encode ⟨shoppingId, milkId⟩) })
      orders := Function.update (fun _ => []) shoppingId [some (OrderEntry.encode ⟨milkId, milkId⟩)]
      lists := [some { id := some shoppingId, name := some "Shopping", createdAt := some 0 }] }
  focus := [milkId]
  settings := {}

def milkView : ItemView where
  id := milkId
  text := "Milk"
  notes := ""
  listId := shoppingId
  state := .backlog
  lifecycleAt := 1
  deadline := none
  when := none
  duration := none
  place := none
  createdAt := 1
  createdBy := none
  startedAt := none
  doneAt := none
  binnedAt := none

theorem iterItems_shopping : shopping.iterItems = [milkView] := by decide

theorem allLists_shopping :
    shopping.content.allLists = [⟨shoppingId, "Shopping", none, none, none, 0⟩] := by
  decide

theorem visible_shopping : shopping.visibleItemIds = [milkId] := by decide

theorem listsExist_shopping : ListsExist shopping := by
  intro v hv
  rw [iterItems_shopping] at hv
  rw [List.mem_singleton.1 hv, Content.allListIds, allLists_shopping]
  decide

theorem portable_shopping : Portable shopping where
  lists v hv := by
    rw [allLists_shopping] at hv
    rw [List.mem_singleton.1 hv]
    exact ⟨by decide, by decide, by decide, rfl, by simp⟩
  items v hv := by
    rw [iterItems_shopping] at hv
    rw [List.mem_singleton.1 hv]
    exact ⟨by decide, by decide, by decide, by decide, rfl, rfl, rfl, rfl, rfl⟩
  ids := by
    rw [iterItems_shopping]
    decide
  focus k hk := by
    rw [visible_shopping] at hk
    rw [iterItems_shopping, List.mem_singleton.1 hk]
    exact ⟨milkView, List.mem_cons_self .., rfl, rfl⟩

/-- The shopping list survives its export. -/
theorem import_export_shopping :
    ∃ b summary, Account.empty.importJson mintSame 0 shopping.exportJson = .ok (b, summary) ∧
      RoundTrip shopping b := by
  obtain ⟨b, summary, himport, htrip, _⟩ :=
    import_export shopping 0 mintSame_wellFormed listsExist_shopping
  exact ⟨b, summary, himport, htrip.2 portable_shopping⟩

/-- The containers of a document with a list, after `rename_list` to `name`. -/
def renamedList (name : String) : Option Content :=
  let start : Document := ⟨Account.empty.content, Account.empty.index⟩
  ((start.addList shoppingId "Shopping" 0).bind fun d =>
    d.editList shoppingId (.name (trim name))).map Document.content

/-- The document with that list. -/
def unnamed : Account where
  content :=
    { Account.empty.content with
      lists := [some { id := some shoppingId, name := some "", createdAt := some 0 }] }
  focus := []
  settings := {}

theorem import_unnamed {b : Account} {summary : ImportSummary}
    (h : Account.empty.importJson mintSame 0 unnamed.exportJson = .ok (b, summary)) :
    b.content.allLists = [] := by
  have hrun : (Account.empty.importJson mintSame 0 unnamed.exportJson).toOption.map
      (fun r => r.1.content.allLists) = some [] := by
    decide
  rw [h] at hrun
  exact Option.some.inj hrun

/-- **A list renamed to a blank name does not survive.**  `rename_list` stores the name it
trimmed to nothing, the list is shown and exported, and the import drops it. -/
theorem renamed_away :
    renamedList "  " = some unnamed.content ∧ ListsExist unnamed ∧
      unnamed.content.allListIds = [shoppingId] ∧
      ∀ b summary, Account.empty.importJson mintSame 0 unnamed.exportJson = .ok (b, summary) →
        b.content.allLists = [] ∧ ¬ RoundTrip unnamed b := by
  have htrim : trim "  " = "" := by decide
  have hempty : unnamed.iterItems = [] := by decide
  have hshown : unnamed.content.allListIds = [shoppingId] := by decide
  refine ⟨by rw [renamedList, htrim]; rfl, fun v hv => ?_, hshown, fun b summary h => ?_⟩
  · rw [hempty] at hv
    exact absurd hv List.not_mem_nil
  · have hnil := import_unnamed h
    refine ⟨hnil, fun ht => ?_⟩
    have hlists := congrArg List.length ht.lists
    rw [hnil, List.length_map, List.length_map] at hlists
    have hone : unnamed.content.allLists.length = 1 := by decide
    rw [hone] at hlists
    exact absurd hlists (by decide)

end Monoplan.Doc
