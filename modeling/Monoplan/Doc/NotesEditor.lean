import Monoplan.Base.Machine
import Monoplan.Doc.Frame
import Monoplan.Doc.NotesDelta

/-!
# A subscribed notes editor

* `NotesFeed` is what the document keeps for its notes editors: the text each was left with,
  and the events they have not drained.
* `notesFrame` is what an import, an undo or a redo step adds to it; a frame that is not
  translated throws everything away and tells the editors to start over.
* `notesEditors` is the machine of one editor on one item, with local edits, frames and drains
  in any order.
* `editor_holds_notes`: an editor that hands in its edits with nothing left to drain, and that
  starts over once after a drain that says so, is sent deltas that fit and holds the notes
  whenever nothing is left to drain.
* `eager_editor_diverges`: an editor that only follows what it is sent, event by event, does
  not, and nor does one whose item leaves the document and comes back.
-/

namespace Monoplan.Doc

open Monoplan.Base ProjectionIndex

/-! ## The feed -/

/-- The events a notes editor listens to. -/
inductive NotesSignal
  | itemNotesDelta (id : String) (delta : List NotesDeltaOp)
  | fullResync

/-- What the document keeps for its notes editors. -/
structure NotesFeed where
  /-- Item id to the text its editors were left with. -/
  notesShadows : FMap String (List Char)
  /-- The events that were not drained yet. -/
  events : List NotesSignal

/-- The text of an item's notes; absent notes and absent items read as empty. -/
def Content.notesOf (c : Content) (id : String) : List Char :=
  (((c.item id).bind ItemMap.notes).getD "").toList

/-- Write an item's notes. -/
def Content.setNotes (c : Content) (id : String) (m : ItemMap) (text : List Char) : Content :=
  c.setItem id { m with notes := some (String.ofList text) }

/-- A captured diff, with what is only read for the editors: the item container and the delta of
a changed text. -/
inductive FrameDiff
  | plain (diff : CapturedDiff)
  | itemText (container : String) (owner : Option String) (key : ItemKey) (delta : List TextDelta)

namespace FrameDiff

/-- The diff as the index reads it. -/
def captured : FrameDiff → CapturedDiff
  | plain diff => diff
  | itemText _ owner key _ => .itemText owner key

/-- The text deltas of one item container. -/
def textDeltas (container : String) : FrameDiff → List (List TextDelta)
  | itemText container' _ _ delta => if container' = container then [delta] else []
  | plain _ => []

/-- The diff is a text of the item's in this container. -/
def ofItem (container id : String) : FrameDiff → Bool
  | itemText container' owner _ _ => container' = container && owner = some id
  | plain _ => false

end FrameDiff

/-- `text_deltas_by_id`: the deltas of the item's container that comes last in `order`, the
order in which a hash table hands out the written containers. -/
def textDeltasById (diffs : List FrameDiff) (order : List String) (id : String) :
    List (List TextDelta) :=
  match (order.filter fun c => diffs.any (FrameDiff.ofItem c id)).getLast? with
  | some container => diffs.flatMap (FrameDiff.textDeltas container)
  | none => []

namespace NotesFeed

/-- `refresh_notes_shadow`. -/
def refreshShadow (f : NotesFeed) (id : String) (text : List Char) : NotesFeed :=
  if (f.notesShadows.get id).isSome then
    { f with notesShadows := f.notesShadows.insert id text }
  else f

/-- `emit_notes_delta`: nothing is sent where nothing changed. -/
def emit (f : NotesFeed) (id : String) (deltas : List (List TextDelta)) (post : List Char) :
    NotesFeed :=
  match f.notesShadows.get id with
  | none => f
  | some shadow =>
    let delta := emitNotesDelta shadow deltas post
    { notesShadows := f.notesShadows.insert id post
      events := f.events ++ if delta = [] then [] else [.itemNotesDelta id delta] }

/-- The change is one that the item's editors are told of. -/
def told (q : String × Change) : Bool := q.2.new.isSome && !q.2.brandNew && q.2.has .notes

/-- What the third phase tells the editors of one change.  The map of an item that was set
again has no deltas. -/
def emitChange (diffs : List FrameDiff) (order : List String) (g : Gathered) (post : Content)
    (f : NotesFeed) (q : String × Change) : NotesFeed :=
  if told q then
    f.emit q.1 (if q.1 ∈ g.upserts then [] else textDeltasById diffs order q.1) (post.notesOf q.1)
  else f

/-- `emit_diff_fallback`: the shadows of the items that are there, and one event. -/
def fallback (f : NotesFeed) (post : Content) : NotesFeed where
  notesShadows := f.notesShadows.mapWithKey fun id shadow =>
    if (post.item id).isSome then post.notesOf id else shadow
  events := [.fullResync]

end NotesFeed

/-- `import_translated` and `apply_undo_op`, for the notes editors. -/
def notesFrame (f : NotesFeed) (idx : ProjectionIndex) (preLists : List ListView)
    (preSettings : Settings) (post : Workspace) (diffs : List FrameDiff) (order : List String) :
    NotesFeed :=
  let captured := diffs.map FrameDiff.captured
  match translate idx preLists preSettings post captured, plan idx post.content captured with
  | some _, some p => p.changes.foldl (NotesFeed.emitChange diffs order p.gathered post.content) f
  | _, _ => f.fallback post.content

/-! ## The editor -/

/-- The deltas for one item among the undrained events. -/
def NotesFeed.deltasFor (f : NotesFeed) (id : String) : List (List NotesDeltaOp) :=
  f.events.filterMap fun
    | .itemNotesDelta id' delta => if id' = id then some delta else none
    | .fullResync => none

/-- The editor is told to start over. -/
def NotesFeed.resync (f : NotesFeed) : Bool :=
  f.events.any fun
    | .itemNotesDelta _ _ => false
    | .fullResync => true

/-- One editor on `item`, with the document it edits. -/
structure EditorSession where
  doc : Document
  feed : NotesFeed
  item : String
  buffer : List UInt16

namespace EditorSession

/-- The text of the item's notes. -/
def notes (s : EditorSession) : List Char := s.doc.content.notesOf s.item

/-- What happens to the document and its editor. -/
inductive Step
  /-- `apply_notes_delta` on some item.  The editor of the item has the delta already. -/
  | edit (id : String) (delta : List NotesDeltaOp)
  /-- An imported batch, or an undo or redo step. -/
  | frame (preSettings : Settings) (post : Workspace) (diffs : List FrameDiff)
      (order : List String)
  /-- A batch that failed part of the way. -/
  | failedFrame (post : Content)
  /-- The editor drains the events. -/
  | drain

/-- `apply_notes_delta`: a rejected delta writes nothing. -/
def edit (s : EditorSession) (id : String) (delta : List NotesDeltaOp) : EditorSession :=
  match s.doc.content.item id with
  | none => s
  | some m =>
    match applyNotesDelta (s.doc.content.notesOf id) delta with
    | none => s
    | some text =>
      { s with
        doc := { s.doc with content := s.doc.content.setNotes id m text }
        feed := if text = s.doc.content.notesOf id then s.feed else s.feed.refreshShadow id text
        buffer := if id = s.item then applyLenient s.buffer (unitOps delta) else s.buffer }

/-- `subscribe_notes`. -/
def subscribe (s : EditorSession) : EditorSession :=
  { s with
    feed := { s.feed with notesShadows := s.feed.notesShadows.insert s.item s.notes }
    buffer := units s.notes }

/-- The editor takes all events.  Told to start over, it subscribes again once it has them. -/
def drain (s : EditorSession) : EditorSession :=
  let drained := { s with feed := { s.feed with events := [] } }
  if s.feed.resync then drained.subscribe
  else
    { drained with
      buffer := ((s.feed.deltasFor s.item).map unitOps).foldl applyLenient s.buffer }

/-- One step. -/
def apply (s : EditorSession) : Step → EditorSession
  | .edit id delta => s.edit id delta
  | .frame preSettings post diffs order =>
    { s with
      doc := {
        content := post.content
        index := (importFrame s.doc.index s.doc.content.allLists preSettings post
          (diffs.map FrameDiff.captured)).1 }
      feed := notesFrame s.feed s.doc.index s.doc.content.allLists preSettings post diffs order }
  | .failedFrame post =>
    { s with doc := ⟨post, post.computeIndex⟩, feed := s.feed.fallback post }
  | .drain => s.drain

end EditorSession

/-- One editor that has just subscribed to an item of the document, with nothing to drain. -/
def notesEditors : Machine EditorSession EditorSession.Step where
  init s := ∃ (doc : Document) (shadows : FMap String (List Char)) (item : String),
    (∀ id, doc.index.metas.get id = doc.content.metaOf id) ∧ (doc.content.item item).isSome ∧
      s = EditorSession.subscribe ⟨doc, ⟨shadows, []⟩, item, []⟩
  step s l := some (s.apply l)

/-- The deltas fit the buffer, each on what the ones before it make of it. -/
def DeltasFit : List UInt16 → List (List NotesDeltaOp) → Prop
  | _, [] => True
  | buffer, d :: ds =>
    (applyDelta buffer (unitOps d)).isSome ∧ DeltasFit (applyLenient buffer (unitOps d)) ds

/-- The editor hands in its own edits with nothing left to drain, captured diffs are exact, and
the item stays in the document. -/
def EditorSession.Settled (s : EditorSession) : EditorSession.Step → Prop
  | .edit id _ => id = s.item → s.feed.events = []
  | .frame _ post diffs _ =>
    Captures s.doc.content post.content (diffs.map FrameDiff.captured) ∧
      post.content.Identified ∧ (post.content.item s.item).isSome
  | .failedFrame post => (post.item s.item).isSome
  | .drain => True

/-! ## What a frame tells the editor -/

/-- From `f` to `f'`, an editor of the item that would end up with `text` now ends up with
`text'`. -/
structure NotesFeed.Leads (f f' : NotesFeed) (id : String) (text text' : List Char) : Prop where
  shadow : f'.notesShadows.get id = some text'
  resync : f'.resync = f.resync
  deltas : ∀ buffer, applyDeltas buffer ((f.deltasFor id).map unitOps) = some (units text) →
    applyDeltas buffer ((f'.deltasFor id).map unitOps) = some (units text')

namespace NotesFeed

variable {f f' f'' : NotesFeed} {id id' : String} {text text' post : List Char}

theorem Leads.refl (h : f.notesShadows.get id = some text) : f.Leads f id text text :=
  ⟨h, rfl, fun _ h => h⟩

theorem Leads.trans {text'' : List Char} (h : f.Leads f' id text text')
    (h' : f'.Leads f'' id text' text'') : f.Leads f'' id text text'' :=
  ⟨h'.shadow, h'.resync.trans h.resync, fun buffer hb => h'.deltas buffer (h.deltas buffer hb)⟩

/-- The item's editors are sent what leads to its new text. -/
theorem leads_emit (h : f.notesShadows.get id = some text) (deltas : List (List TextDelta)) :
    f.Leads (f.emit id deltas post) id text post := by
  unfold emit
  rw [h]
  dsimp only
  refine ⟨FMap.get_insert_self _ _ _, ?_, fun buffer hb => ?_⟩
  · unfold resync
    dsimp only
    rw [List.any_append]
    split <;> simp
  · unfold deltasFor at hb ⊢
    dsimp only
    rw [List.filterMap_append, List.map_append, applyDeltas_append, hb, Option.bind_some]
    have hunits := emitNotesDelta_units text deltas post
    split
    · rename_i hnil
      rw [hnil] at hunits
      exact hunits
    · simp only [List.filterMap_cons, List.filterMap_nil, if_true, List.map_cons, List.map_nil,
        applyDeltas, hunits, Option.bind_some]

/-- The editors of another item are sent nothing. -/
theorem leads_emit_ne (h : f.notesShadows.get id = some text) (hne : id' ≠ id)
    (deltas : List (List TextDelta)) : f.Leads (f.emit id' deltas post) id text text := by
  unfold emit
  split
  · exact .refl h
  · refine ⟨?_, ?_, fun buffer hb => ?_⟩
    · dsimp only
      rw [FMap.get_insert_ne _ _ hne.symm, h]
    · unfold resync
      dsimp only
      rw [List.any_append]
      split <;> simp
    · unfold deltasFor at hb ⊢
      dsimp only
      rw [List.filterMap_append]
      split <;> simpa [hne] using hb

theorem leads_foldl {diffs : List FrameDiff} {order : List String} {g : Gathered}
    {post : Content} {qs : List (String × Change)} (hnodup : (qs.map Prod.fst).Nodup)
    (h : f.notesShadows.get id = some text)
    (htold : ∀ q ∈ qs, q.1 = id → told q = true → text' = post.notesOf id)
    (hquiet : (∀ q ∈ qs, q.1 = id → told q = false) → text' = text) :
    f.Leads (qs.foldl (emitChange diffs order g post) f) id text text' := by
  induction qs generalizing f text with
  | nil =>
    rw [hquiet fun q hq => absurd hq List.not_mem_nil]
    exact .refl h
  | cons q qs ih =>
    rw [List.map_cons, List.nodup_cons] at hnodup
    rw [List.foldl_cons]
    by_cases hid : q.1 = id
    · -- the only change of the item
      have hrest : ∀ q' ∈ qs, q'.1 ≠ id := fun q' hq' heq =>
        hnodup.1 (List.mem_map.2 ⟨q', hq', heq.trans hid.symm⟩)
      have hstep : f.Leads (emitChange diffs order g post f q) id text text' := by
        cases hq : told q with
        | true =>
          have hemit : emitChange diffs order g post f q =
              f.emit id (if id ∈ g.upserts then [] else textDeltasById diffs order id)
                (post.notesOf id) := by
            rw [emitChange, if_pos hq, hid]
          rw [hemit, htold q List.mem_cons_self hid hq]
          exact leads_emit h _
        | false =>
          have hemit : emitChange diffs order g post f q = f :=
            if_neg (by rw [hq]; exact Bool.false_ne_true)
          rw [hemit, hquiet fun q' hq' heq => ?_]
          · exact .refl h
          · rcases List.mem_cons.1 hq' with rfl | hq'
            · exact hq
            · exact absurd heq (hrest q' hq')
      refine hstep.trans (ih hnodup.2 hstep.shadow (fun q' hq' heq => absurd heq (hrest q' hq'))
        fun _ => rfl)
    · have hstep : f.Leads (emitChange diffs order g post f q) id text text := by
        unfold emitChange
        split
        · exact leads_emit_ne h hid _
        · exact .refl h
      refine hstep.trans (ih hnodup.2 hstep.shadow
        (fun q' hq' => htold q' (List.mem_cons_of_mem _ hq')) fun hall => ?_)
      refine hquiet fun q' hq' heq => ?_
      rcases List.mem_cons.1 hq' with rfl | hq'
      · exact absurd heq hid
      · exact hall q' hq' heq

end NotesFeed

/-! ## One step -/

/-- The editor was left with the item's notes, and what it has not drained leads there. -/
structure EditorSession.Following (s : EditorSession) : Prop where
  slices : ∀ id, s.doc.index.metas.get id = s.doc.content.metaOf id
  present : (s.doc.content.item s.item).isSome
  shadow : s.feed.notesShadows.get s.item = some s.notes
  pending : s.feed.resync = false →
    applyDeltas s.buffer ((s.feed.deltasFor s.item).map unitOps) = some (units s.notes)

variable {s s' : EditorSession}

theorem NotesFeed.fallback_shadow {f : NotesFeed} {post : Content} {id : String}
    {text : List Char} (h : f.notesShadows.get id = some text)
    (hpresent : (post.item id).isSome) :
    (f.fallback post).notesShadows.get id = some (post.notesOf id) := by
  rw [NotesFeed.fallback, FMap.get_mapWithKey, h, Option.map_some, if_pos hpresent]

theorem NotesFeed.refreshShadow_events (f : NotesFeed) (id : String) (text : List Char) :
    (f.refreshShadow id text).events = f.events := by
  unfold NotesFeed.refreshShadow
  split <;> rfl

theorem Content.item_setNotes (c : Content) (id y : String) (m : ItemMap) (text : List Char) :
    (c.setNotes id m text).item y =
      if y = id then some { m with notes := some (String.ofList text) } else c.item y := by
  rw [Content.setNotes, Content.item_setItem]

theorem Content.notesOf_setNotes_self (c : Content) (id : String) (m : ItemMap)
    (text : List Char) : (c.setNotes id m text).notesOf id = text := by
  rw [Content.notesOf, Content.item_setNotes, if_pos rfl]
  exact String.toList_ofList

/-- Deltas that fit one after the other do to a buffer what they say. -/
theorem foldl_applyLenient {buffer r : List UInt16} {ds : List (List (DeltaOp UInt16))}
    (h : applyDeltas buffer ds = some r) : ds.foldl applyLenient buffer = r := by
  induction ds generalizing buffer with
  | nil => exact Option.some.inj h
  | cons d ds ih =>
    obtain ⟨m, hm, hrest⟩ := Option.bind_eq_some_iff.1 h
    rw [List.foldl_cons, applyLenient_eq hm]
    exact ih hrest

theorem deltasFit {buffer r : List UInt16} {ds : List (List NotesDeltaOp)}
    (h : applyDeltas buffer (ds.map unitOps) = some r) : DeltasFit buffer ds := by
  induction ds generalizing buffer with
  | nil => trivial
  | cons d ds ih =>
    obtain ⟨m, hm, hrest⟩ := Option.bind_eq_some_iff.1 h
    refine ⟨by rw [hm]; rfl, ?_⟩
    rw [applyLenient_eq hm]
    exact ih hrest

/-- An item whose editors a frame has nothing to tell keeps its notes. -/
theorem Planned.notes_told {pre post : Content} {idx : ProjectionIndex}
    {diffs : List CapturedDiff} {p : Plan} (h : Planned idx post diffs p)
    (hc : Captures pre post diffs) (hid : post.Identified)
    (hmetas : ∀ y, idx.metas.get y = pre.metaOf y) {id : String}
    (hpre : (pre.item id).isSome) (hpost : (post.item id).isSome)
    (hquiet : ∀ q ∈ p.changes, q.1 = id → NotesFeed.told q = false) :
    post.notesOf id = pre.notesOf id := by
  by_cases hin : id ∈ p.changes.map Prod.fst
  · obtain ⟨q, hq, rfl⟩ := List.mem_map.1 hin
    have hnew : q.2.new.isSome = true := by
      rw [h.new_eq hc hq, Content.metaOf, Option.isSome_map, hpost]
    have hold : q.2.old.isSome = true := by
      rw [h.old_eq hq, hmetas, Content.metaOf, Option.isSome_map, hpre]
    have hnottold := hquiet q hq rfl
    have hchange := h.changes q hq
    unfold changeOf at hchange
    dsimp only at hchange
    split at hchange
    · -- a map that was set again counts as written under every key
      obtain ⟨m, hm, hq'⟩ := Option.map_eq_some_iff.1 hchange
      have holdq : idx.metas.get q.1 = q.2.old := (h.old_eq hq).symm
      rw [holdq] at hq'
      have hnone : q.2.old.isNone = false := by
        cases ho : q.2.old with
        | none => rw [ho] at hold; cases hold
        | some o => rfl
      rw [hnone] at hq'
      have hkeys : q.2.keys = rewrittenKeys := by rw [← hq']; rfl
      have hbrand : q.2.brandNew = false := by rw [← hq']
      have hhas : q.2.has .notes = true := by
        rw [Change.has, hkeys]
        rfl
      rw [NotesFeed.told, hnew, hbrand, hhas] at hnottold
      cases hnottold
    rename_i hup
    split at hchange
    · obtain ⟨m, hm, hq'⟩ := Option.map_eq_some_iff.1 hchange
      have hkeys : q.2.keys = p.gathered.dirtyKeys q.1 := by rw [← hq']
      have hbrand : q.2.brandNew = false := by rw [← hq']
      have hnotes : q.2.has .notes = false := by
        rw [NotesFeed.told, hnew, hbrand] at hnottold
        simpa using hnottold
      have hwritten : .notes ∉ writtenKeys diffs (some q.1) := by
        rw [Change.has, hkeys, Gathered.dirtyKeys, h.mapDirty] at hnotes
        exact of_decide_eq_false hnotes
      rename_i hdirty
      rw [Gathered.dirtyIds, Finset.mem_sdiff, Finset.mem_union, not_or] at hdirty
      have hup' : q.1 ∉ diffs.flatMap CapturedDiff.upserted := by
        rw [h.upserts, List.mem_toFinset] at hup
        exact hup
      have hrem : q.1 ∉ diffs.flatMap CapturedDiff.removed := fun hmem =>
        hdirty.2.1 (by
          rw [h.removals, Finset.mem_sdiff, List.mem_toFinset, List.mem_toFinset]
          exact ⟨hmem, hup'⟩)
      rcases hc.items q.1 hup' hrem with ⟨hnone, -⟩ | ⟨m₀, m₁, h₀, h₁, hsame⟩
      · rw [hnone] at hpre
        cases hpre
      · rw [hid q.1 m₁ h₁] at hsame
        rw [Content.notesOf, Content.notesOf, h₀, h₁, Option.bind_some, Option.bind_some,
          hsame.notes hwritten]
    · rw [← Option.some.inj hchange] at hnew
      cases hnew
  · rw [Content.notesOf, Content.notesOf, h.item_eq hc hid hin]

namespace EditorSession.Following

theorem frame (h : s.Following) {preSettings : Settings} {post : Workspace}
    {diffs : List FrameDiff} {order : List String}
    (hok : s.Settled (.frame preSettings post diffs order)) :
    (s.apply (.frame preSettings post diffs order)).Following := by
  obtain ⟨hc, hid, hpost⟩ := hok
  unfold EditorSession.apply
  dsimp only
  unfold importFrame notesFrame
  dsimp only
  cases ht : translate s.doc.index s.doc.content.allLists preSettings post
      (diffs.map FrameDiff.captured) with
  | none =>
    refine ⟨(agrees_computeIndex post.content).metas, hpost,
      NotesFeed.fallback_shadow h.shadow hpost, ?_⟩
    intro hresync
    cases hresync
  | some r =>
    obtain ⟨p, hplan, hp⟩ := Option.bind_eq_some_iff.1 ht
    obtain ⟨evs, -, rfl⟩ := Option.map_eq_some_iff.1 hp
    rw [hplan]
    dsimp only
    have hplanned := planned_of_plan hplan
    have hleads : s.feed.Leads (p.changes.foldl
        (NotesFeed.emitChange diffs order p.gathered post.content) s.feed) s.item s.notes
        (post.content.notesOf s.item) :=
      NotesFeed.leads_foldl hplanned.nodup h.shadow (fun _ _ _ _ => rfl)
        (hplanned.notes_told hc hid h.slices h.present hpost)
    refine ⟨fun y => ?_, hpost, hleads.shadow, fun hresync => ?_⟩
    · rw [Option.getD_some, Plan.commit_metas]
      exact hplanned.changed_metas hc hid h.slices y
    · rw [hleads.resync] at hresync
      exact hleads.deltas s.buffer (h.pending hresync)

theorem edit (h : s.Following) {id : String} {delta : List NotesDeltaOp}
    (hok : s.Settled (.edit id delta)) : (s.edit id delta).Following := by
  unfold EditorSession.edit
  split
  · exact h
  rename_i m hm
  split
  · exact h
  rename_i text htext
  have hslices : ∀ y, s.doc.index.metas.get y =
      (s.doc.content.setNotes id m text).metaOf y := by
    intro y
    rw [h.slices, Content.metaOf, Content.metaOf, Content.item_setNotes]
    split
    · rename_i hy
      rw [hy, hm]
      rfl
    · rfl
  have hpresent : ((s.doc.content.setNotes id m text).item s.item).isSome = true := by
    rw [Content.item_setNotes]
    split
    · rfl
    · exact h.present
  by_cases hid : id = s.item
  · -- nothing is left to drain, so the buffer is the text that the delta was checked against
    subst hid
    have hevents : s.feed.events = [] := hok rfl
    have hdeltas : s.feed.deltasFor s.item = [] := by
      rw [NotesFeed.deltasFor, hevents]
      rfl
    have hbuffer := h.pending (by rw [NotesFeed.resync, hevents]; rfl)
    rw [hdeltas] at hbuffer
    have hbuffer' : s.buffer = units s.notes := Option.some.inj hbuffer
    have hafter : applyLenient s.buffer (unitOps delta) = units text := by
      rw [hbuffer']
      exact applyLenient_eq (applyNotesDelta_units htext)
    refine ⟨hslices, hpresent, ?_, fun _ => ?_⟩
    · show _ = some ((s.doc.content.setNotes s.item m text).notesOf s.item)
      rw [Content.notesOf_setNotes_self]
      dsimp only
      split
      · rename_i hsame
        rw [h.shadow, hsame]
        rfl
      · rw [NotesFeed.refreshShadow, h.shadow]
        exact FMap.get_insert_self _ _ _
    · show applyDeltas _ _ = some (units ((s.doc.content.setNotes s.item m text).notesOf s.item))
      rw [Content.notesOf_setNotes_self]
      dsimp only
      rw [if_pos rfl, hafter]
      have hquiet : (if text = s.doc.content.notesOf s.item then s.feed
          else s.feed.refreshShadow s.item text).deltasFor s.item = [] := by
        split
        · exact hdeltas
        · rw [NotesFeed.deltasFor, NotesFeed.refreshShadow_events, hevents]
          rfl
      rw [hquiet]
      rfl
  · have hfeed : ∀ f : NotesFeed, f = s.feed ∨ f = s.feed.refreshShadow id text →
        f.events = s.feed.events ∧ f.notesShadows.get s.item = s.feed.notesShadows.get s.item := by
      rintro f (rfl | rfl)
      · exact ⟨rfl, rfl⟩
      · refine ⟨NotesFeed.refreshShadow_events _ _ _, ?_⟩
        unfold NotesFeed.refreshShadow
        split
        · exact FMap.get_insert_ne _ _ (Ne.symm hid)
        · rfl
    have hnotes : (s.doc.content.setNotes id m text).notesOf s.item = s.notes := by
      rw [Content.notesOf, Content.item_setNotes, if_neg (Ne.symm hid)]
      rfl
    obtain ⟨hevents, hshadow⟩ := hfeed (if text = s.doc.content.notesOf id then s.feed
      else s.feed.refreshShadow id text) (by split <;> simp)
    refine ⟨hslices, hpresent, ?_, fun hresync => ?_⟩
    · show _ = some ((s.doc.content.setNotes id m text).notesOf s.item)
      rw [hnotes]
      exact hshadow.trans h.shadow
    · show applyDeltas _ _ = some (units ((s.doc.content.setNotes id m text).notesOf s.item))
      rw [hnotes]
      dsimp only at hresync ⊢
      rw [NotesFeed.resync, hevents] at hresync
      rw [if_neg hid, NotesFeed.deltasFor, hevents]
      exact h.pending hresync

theorem subscribe (hslices : ∀ id, s.doc.index.metas.get id = s.doc.content.metaOf id)
    (hpresent : (s.doc.content.item s.item).isSome) (hevents : s.feed.events = []) :
    s.subscribe.Following := by
  refine ⟨hslices, hpresent, FMap.get_insert_self _ _ _, fun _ => ?_⟩
  unfold NotesFeed.deltasFor EditorSession.subscribe
  dsimp only
  rw [hevents]
  rfl

theorem drain (h : s.Following) : s.drain.Following := by
  unfold EditorSession.drain
  dsimp only
  split
  · exact subscribe h.slices h.present rfl
  · rename_i hresync
    refine ⟨h.slices, h.present, h.shadow, fun _ => ?_⟩
    have hpending := h.pending (Bool.eq_false_iff.2 hresync)
    show some _ = some (units s.notes)
    rw [foldl_applyLenient hpending]

/-- **One step** keeps the editor in step with the notes. -/
theorem step {l : EditorSession.Step} (h : s.Following) (hok : s.Settled l) :
    (s.apply l).Following := by
  cases l with
  | edit id delta => exact h.edit hok
  | frame preSettings post diffs order => exact h.frame hok
  | failedFrame post =>
    exact ⟨(agrees_computeIndex post).metas, hok, NotesFeed.fallback_shadow h.shadow hok,
      fun hresync => by cases hresync⟩
  | drain => exact h.drain

end EditorSession.Following

/-! ## Whole runs -/

/-- **A subscribed editor never diverges.**  In every run whose steps are settled, what it is
sent fits its buffer, and it holds the item's notes whenever nothing is left to drain. -/
theorem editor_holds_notes (h : notesEditors.Reach EditorSession.Settled s) :
    (s.feed.resync = false → DeltasFit s.buffer (s.feed.deltasFor s.item)) ∧
      (s.feed.events = [] → s.buffer = units s.notes) ∧
      s.drain.buffer = units s.notes := by
  have hfollowing : s.Following := by
    induction h with
    | init h0 =>
      obtain ⟨doc, shadows, item, hslices, hpresent, rfl⟩ := h0
      exact .subscribe hslices hpresent rfl
    | step _ hok hstep ih => exact Option.some.inj hstep ▸ ih.step hok
  have hheld : ∀ t : EditorSession, t.Following → t.feed.events = [] →
      t.buffer = units t.notes := by
    intro t ht hevents
    have hpending := ht.pending (by rw [NotesFeed.resync, hevents]; rfl)
    rw [NotesFeed.deltasFor, hevents] at hpending
    exact Option.some.inj hpending
  refine ⟨fun hresync => deltasFit (hfollowing.pending hresync), hheld s hfollowing, ?_⟩
  have hdrained : s.drain.feed.events = [] := by
    unfold EditorSession.drain
    dsimp only
    split <;> rfl
  have hnotes : s.drain.notes = s.notes := by
    unfold EditorSession.drain
    dsimp only
    split <;> rfl
  rw [← hnotes]
  exact hheld s.drain hfollowing.drain hdrained

/-- One item in the inbox, with these notes. -/
def notedContent (notes : String) : Content where
  items := FMap.empty.insert "x"
    (some { id := some "x", text := some "t", notes := some notes, createdAt := some 1 })
  orders _ := []
  lists := []

def notedWorkspace (notes : String) : Workspace := ⟨notedContent notes, {}, []⟩

/-- An editor has opened the item. -/
def openedEditor : EditorSession :=
  EditorSession.subscribe
    ⟨⟨notedContent "a", (notedContent "a").computeIndex⟩, ⟨.empty, []⟩, "x", []⟩

/-- Someone else's `b` after the `a`. -/
def remoteInsert : EditorSession.Step :=
  .frame {} (notedWorkspace "ab") [.itemText "c" (some "x") .notes [.retain 1, .insert ['b']]] ["c"]

theorem item_notedContent (notes id : String) : (notedContent notes).item id =
    if id = "x" then
      some { id := some "x", text := some "t", notes := some notes, createdAt := some 1 }
    else none := by
  rw [notedContent, Content.item, FMap.get_insert]
  split <;> rfl

theorem identified_notedContent (notes : String) : (notedContent notes).Identified := by
  intro id m hm
  rw [item_notedContent] at hm
  split at hm
  · rename_i hid
    cases hm
    rw [hid]
  · cases hm

/-- A frame that reports the item's notes accounts for all that changed. -/
theorem captures_notedContent (before after : String) {diffs : List CapturedDiff}
    (horders : ∀ l, diffs.flatMap (CapturedDiff.edits l) = [])
    (hremoved : diffs.flatMap CapturedDiff.removed = [])
    (hwritten : .notes ∈ writtenKeys diffs (some "x")) :
    Captures (notedContent before) (notedContent after) diffs where
  orders l := by
    rw [horders l]
    rfl
  removed id hmem := by
    rw [hremoved] at hmem
    cases hmem
  items id _ _ := by
    rw [item_notedContent, item_notedContent]
    split
    · exact .inr ⟨_, _, rfl, rfl, fun _ => rfl, fun _ => rfl, fun h => absurd hwritten h,
        fun _ => rfl, fun _ => rfl, fun _ => rfl, fun _ => rfl, fun _ => rfl, fun _ => rfl,
        fun _ => rfl, fun _ => rfl, fun _ => rfl, fun _ => rfl, fun _ => rfl⟩
    · exact .inl ⟨rfl, rfl⟩
  lists _ := rfl

theorem openedEditor_reach : notesEditors.Reach EditorSession.Settled openedEditor :=
  .init ⟨_, _, _, (agrees_computeIndex _).metas, by decide, rfl⟩

/-- The editor shows what someone else typed. -/
theorem editor_holds_notes_remote :
    ∃ s, notesEditors.Reach EditorSession.Settled s ∧ s.feed.resync = false ∧
      DeltasFit s.buffer (s.feed.deltasFor s.item) ∧ s.drain.buffer = units ['a', 'b'] := by
  have hok : openedEditor.Settled remoteInsert :=
    ⟨captures_notedContent _ _ (fun _ => rfl) rfl (by decide), identified_notedContent _, by decide⟩
  have hreach : notesEditors.Reach EditorSession.Settled (openedEditor.apply remoteInsert) :=
    .step openedEditor_reach hok rfl
  have hresync : (openedEditor.apply remoteInsert).feed.resync = false := by decide
  obtain ⟨hfit, -, hdrain⟩ := editor_holds_notes hreach
  have hnotes : (openedEditor.apply remoteInsert).notes = ['a', 'b'] := by decide
  exact ⟨_, hreach, hresync, hfit hresync, hnotes ▸ hdrain⟩

/-- An editor that only follows what it is sent, event by event, and reads the notes where it is
told to. -/
def follow (notes : List Char) (item : String) : List UInt16 → List NotesSignal → List UInt16
  | buffer, [] => buffer
  | buffer, .itemNotesDelta id delta :: events =>
    follow notes item (if id = item then applyLenient buffer (unitOps delta) else buffer) events
  | _, .fullResync :: events => follow notes item (units notes) events

/-- Where such an editor that had the first session's buffer is in the second session. -/
def EditorSession.followed (s s' : EditorSession) : List UInt16 :=
  follow s'.notes s'.item s.buffer s'.feed.events

/-- Someone else takes the item out of the document. -/
def remoteRemoval : EditorSession.Step :=
  .frame {} ⟨⟨.empty, fun _ => [], []⟩, {}, []⟩ [.plain (.itemsRoot [] ["x"])] []

/-- Someone else puts it back, with the notes they had. -/
def remoteReturn : EditorSession.Step :=
  .frame {} (notedWorkspace "") [.plain (.itemsRoot ["x"] [])] []

/-- Such an editor holds the notes after the steps. -/
def EditorSession.Keeps (s : EditorSession) (steps : List EditorSession.Step) : Prop :=
  s.followed (steps.foldl EditorSession.apply s) = units (steps.foldl EditorSession.apply s).notes

instance (s : EditorSession) (steps : List EditorSession.Step) : Decidable (s.Keeps steps) :=
  inferInstanceAs (Decidable (_ = _))

/-- **An eager editor diverges.**  A local edit is not sent back, so an editor that waits for it
misses it.  Where a frame that falls back is followed by a translated one before the drain, the
notes that are read at the first event hold the second one's insertion already.  And an item that
comes back is added, not changed. -/
theorem eager_editor_diverges :
    ¬ openedEditor.Keeps [.edit "x" [.insert ['b']]] ∧
      ¬ openedEditor.Keeps [.failedFrame (notedContent "a"), remoteInsert] ∧
      ¬ openedEditor.Keeps [remoteRemoval, remoteReturn] := by
  decide

end Monoplan.Doc
