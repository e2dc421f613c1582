import Monoplan.Doc.Closing
import Monoplan.Doc.Translate

/-!
# A translated frame keeps the agreement

`Captures` says that captured diffs are exact: the edits of an order container lead from its
old elements to its new ones, and an item whose map was not set, removed or written to is as
it was.  Committing the plan of such a frame keeps the agreement (`agrees_commit`), as long as
every list that begins to count was mirrored or empty (`Content.Covers`).
-/

namespace Monoplan.Doc

open Monoplan.Base

/-! ## Exact diffs -/

namespace CapturedDiff

def upserted : CapturedDiff → List String
  | itemsRoot upserted _ => upserted
  | _ => []

def removed : CapturedDiff → List String
  | itemsRoot _ removed => removed
  | _ => []

/-- The written item maps. -/
def written : CapturedDiff → List (Option String × List ItemKey)
  | itemMap owner keys => [(owner, keys)]
  | itemText owner key => [(owner, [key])]
  | _ => []

/-- The edits of one order container. -/
def edits (l : String) : CapturedDiff → List (List (DeltaOp (Option String)))
  | order listId ops => if listId = l then [ops] else []
  | _ => []

end CapturedDiff

open CapturedDiff ProjectionIndex

/-- The registers agree outside the keys. -/
structure ItemMap.SameBut (keys : Finset ItemKey) (m m' : ItemMap) : Prop where
  id : .id ∉ keys → m'.id = m.id
  text : .text ∉ keys → m'.text = m.text
  notes : .notes ∉ keys → m'.notes = m.notes
  location : .location ∉ keys → m'.location = m.location
  lifecycle : .lifecycle ∉ keys → m'.lifecycle = m.lifecycle
  deadline : .deadline ∉ keys → m'.deadline = m.deadline
  when : .when ∉ keys → m'.when = m.when
  duration : .duration ∉ keys → m'.duration = m.duration
  place : .place ∉ keys → m'.place = m.place
  createdAt : .createdAt ∉ keys → m'.createdAt = m.createdAt
  createdBy : .createdBy ∉ keys → m'.createdBy = m.createdBy
  startedAt : .startedAt ∉ keys → m'.startedAt = m.startedAt
  doneAt : .doneAt ∉ keys → m'.doneAt = m.doneAt
  binnedAt : .binnedAt ∉ keys → m'.binnedAt = m.binnedAt

theorem ItemMap.SameBut.eq_of_empty {m m' : ItemMap} (h : SameBut ∅ m m') : m' = m := by
  obtain ⟨h₁, h₂, h₃, h₄, h₅, h₆, h₇, h₈, h₉, h₁₀, h₁₁, h₁₂, h₁₃, h₁₄⟩ := h
  cases m
  cases m'
  simp_all

/-- The keys the diffs report of the maps with the id register `owner`. -/
def writtenKeys (diffs : List CapturedDiff) (owner : Option String) : Finset ItemKey :=
  (((diffs.flatMap written).filter fun p => p.1 = owner).flatMap Prod.snd).toFinset

/-- The diffs account for all that a frame changed. -/
structure Captures (pre post : Content) (diffs : List CapturedDiff) : Prop where
  orders : ∀ l, applyDeltas (pre.orders l) (diffs.flatMap (edits l)) = some (post.orders l)
  removed : ∀ id ∈ diffs.flatMap removed, id ∉ diffs.flatMap upserted → post.item id = none
  items : ∀ id, id ∉ diffs.flatMap upserted → id ∉ diffs.flatMap CapturedDiff.removed →
    (pre.item id = none ∧ post.item id = none) ∨
      ∃ m m', pre.item id = some m ∧ post.item id = some m' ∧
        m.SameBut (writtenKeys diffs m'.id) m'
  lists : CapturedDiff.lists ∉ diffs → post.lists = pre.lists

/-- Every item map's id register is its key. -/
def Content.Identified (c : Content) : Prop := ∀ id m, c.item id = some m → m.id = some id

/-- What the first pass has read from the diffs. -/
structure Gathered.Reads (idx : ProjectionIndex) (g g' : Gathered) (diffs : List CapturedDiff) :
    Prop where
  upserts : g'.upserts = g.upserts ∪ (diffs.flatMap upserted).toFinset
  removals : g'.removals = g.removals ∪ (diffs.flatMap removed).toFinset
  mapDirty : g'.mapDirty = g.mapDirty ++ diffs.flatMap written
  shadow : ∀ l, applyDeltas ((g.shadows.get l).getD (idx.rawOf l))
      ((diffs.flatMap (edits l)).map (List.map (DeltaOp.map parseSlot))) =
    some ((g'.shadows.get l).getD (idx.rawOf l))
  noShadow : ∀ l, g'.shadows.get l = none ↔
    g.shadows.get l = none ∧ diffs.flatMap (edits l) = []
  lists : g'.listsDirty = true ↔ g.listsDirty = true ∨ CapturedDiff.lists ∈ diffs

namespace Gathered

variable {idx : ProjectionIndex} {g g' : Gathered} {diff : CapturedDiff}

theorem order_reads {l : String} {ops : List (DeltaOp (Option String))}
    (h : g.order idx l ops = some g') : Reads idx g g' [.order l ops] := by
  obtain ⟨shadow, hshadow, rfl⟩ := Option.map_eq_some_iff.1 h
  refine ⟨by simp [upserted], by simp [removed], by simp [written], fun l' => ?_, fun l' => ?_,
    by simp⟩
  · by_cases hl : l' = l
    · subst hl
      simp [edits, applyDeltas, hshadow]
    · simp [edits, applyDeltas, FMap.get_insert, hl, Ne.symm hl]
  · by_cases hl : l' = l
    · subst hl
      simp [edits]
    · simp [edits, FMap.get_insert, hl, Ne.symm hl]

theorem read_reads (h : g.read idx diff = some g') : Reads idx g g' [diff] := by
  cases diff with
  | order l ops => exact order_reads h
  | untranslated => cases h
  | itemsRoot ups rems =>
    cases h
    constructor <;> simp [upserted, removed, written, edits, applyDeltas]
  | itemMap owner keys =>
    cases h
    constructor <;> simp [upserted, removed, written, edits, applyDeltas]
  | itemText owner key =>
    cases h
    constructor <;> simp [upserted, removed, written, edits, applyDeltas]
  | lists =>
    cases h
    constructor <;> simp [upserted, removed, written, edits, applyDeltas]
  | settings =>
    cases h
    constructor <;> simp [upserted, removed, written, edits, applyDeltas]
  | focus =>
    cases h
    constructor <;> simp [upserted, removed, written, edits, applyDeltas]

theorem Reads.cons {g'' : Gathered} {diffs : List CapturedDiff} (h : Reads idx g g' [diff])
    (h' : Reads idx g' g'' diffs) : Reads idx g g'' (diff :: diffs) where
  upserts := by
    rw [h'.upserts, h.upserts]
    simp [Finset.union_assoc]
  removals := by
    rw [h'.removals, h.removals]
    simp [Finset.union_assoc]
  mapDirty := by
    rw [h'.mapDirty, h.mapDirty]
    simp
  shadow l := by
    have hone := h.shadow l
    have hrest := h'.shadow l
    simp only [List.flatMap_cons, List.flatMap_nil, List.append_nil] at hone
    rw [List.flatMap_cons, List.map_append, applyDeltas_append, hone]
    exact hrest
  noShadow l := by
    rw [h'.noShadow, h.noShadow]
    simp [and_assoc]
  lists := by
    rw [h'.lists, h.lists]
    simp [or_assoc]

theorem readAll_reads {diffs : List CapturedDiff} (h : readAll idx g diffs = some g') :
    Reads idx g g' diffs := by
  induction diffs generalizing g with
  | nil =>
    cases h
    constructor <;> simp [applyDeltas]
  | cons diff diffs ih =>
    obtain ⟨m, hm, hrest⟩ := Option.bind_eq_some_iff.1 h
    exact (read_reads hm).cons (ih hrest)

end Gathered

/-! ## The plan -/

variable {pre post : Content} {idx : ProjectionIndex} {diffs : List CapturedDiff} {p : Plan}

theorem changesOf_spec {g : Gathered} {ids : List String} {changes : List (String × Change)}
    (h : changesOf g idx post ids = some changes) :
    changes.map Prod.fst = ids ∧ ∀ q ∈ changes, changeOf g idx post q.1 = some q.2 := by
  induction ids generalizing changes with
  | nil =>
    cases h
    simp
  | cons id ids ih =>
    obtain ⟨ch, hch, h⟩ := Option.bind_eq_some_iff.1 h
    obtain ⟨rest, hrest, rfl⟩ := Option.map_eq_some_iff.1 h
    obtain ⟨hfst, hall⟩ := ih hrest
    refine ⟨by rw [List.map_cons, hfst], fun q hq => ?_⟩
    rcases List.mem_cons.1 hq with rfl | hq
    · exact hch
    · exact hall q hq

/-- What a plan is made of. -/
structure Planned (idx : ProjectionIndex) (post : Content) (diffs : List CapturedDiff)
    (p : Plan) : Prop where
  upserts : p.gathered.upserts = (diffs.flatMap upserted).toFinset
  removals : p.gathered.removals =
    (diffs.flatMap removed).toFinset \ (diffs.flatMap upserted).toFinset
  mapDirty : p.gathered.mapDirty = diffs.flatMap written
  shadow : ∀ l, applyDeltas (idx.rawOf l)
      ((diffs.flatMap (edits l)).map (List.map (DeltaOp.map parseSlot))) =
    some ((p.gathered.shadows.get l).getD (idx.rawOf l))
  noShadow : ∀ l, p.gathered.shadows.get l = none ↔ diffs.flatMap (edits l) = []
  landed : ∀ l shadow, p.gathered.shadows.get l = some shadow →
    shadow.length = (post.orders l).length
  lists : p.gathered.listsDirty = true ↔ CapturedDiff.lists ∈ diffs
  ids : p.changes.map Prod.fst = p.gathered.changedIds
  changes : ∀ q ∈ p.changes, changeOf p.gathered idx post q.1 = some q.2

theorem planned_of_plan (h : plan idx post diffs = some p) : Planned idx post diffs p := by
  obtain ⟨g, hread, h⟩ := Option.bind_eq_some_iff.1 h
  have hreads := Gathered.readAll_reads hread
  simp only at h
  split at h
  · cases h
  rename_i hlanded
  split at h
  · cases h
  obtain ⟨changes, hchanges, rfl⟩ := Option.map_eq_some_iff.1 h
  obtain ⟨hids, hall⟩ := changesOf_spec hchanges
  have hups : g.upserts = (diffs.flatMap upserted).toFinset := by
    simpa using hreads.upserts
  have hrems : g.removals = (diffs.flatMap removed).toFinset := by
    simpa using hreads.removals
  refine ⟨hups, ?_, ?_, fun l => ?_, fun l => ?_, fun l shadow hs => ?_, ?_, hids, hall⟩
  · show g.removals \ g.upserts = _
    rw [hups, hrems]
  · show g.mapDirty = _
    simpa using hreads.mapDirty
  · show _ = some ((g.shadows.get l).getD (idx.rawOf l))
    simpa using hreads.shadow l
  · show g.shadows.get l = none ↔ _
    simpa using hreads.noShadow l
  · exact not_not.1 hlanded l ((FMap.mem_keys _ _).2 (Option.isSome_iff_exists.2 ⟨_, hs⟩)) shadow hs
  · show g.listsDirty = true ↔ _
    simpa using hreads.lists

namespace Planned

theorem nodup (h : Planned idx post diffs p) : (p.changes.map Prod.fst).Nodup := by
  rw [h.ids]
  exact sortOn_nodup

theorem mem_ids (h : Planned idx post diffs p) {id : String} :
    id ∈ p.changes.map Prod.fst ↔
      id ∈ p.gathered.upserts ∨ id ∈ p.gathered.dirtyIds ∨ id ∈ p.gathered.removals := by
  rw [h.ids, Gathered.changedIds, mem_sortOn]
  simp

/-- The new slices are those of the containers after the frame. -/
theorem new_eq (h : Planned idx post diffs p) (hc : Captures pre post diffs)
    {q : String × Change} (hq : q ∈ p.changes) : q.2.new = post.metaOf q.1 := by
  have hchange := h.changes q hq
  unfold changeOf at hchange
  unfold Content.metaOf
  simp only at hchange
  split at hchange
  · obtain ⟨m, hm, hq'⟩ := Option.map_eq_some_iff.1 hchange
    rw [hm, ← hq']
    rfl
  rename_i hup
  split at hchange
  · obtain ⟨m, hm, hq'⟩ := Option.map_eq_some_iff.1 hchange
    rw [hm, ← hq']
    rfl
  rename_i hdirty
  rw [← Option.some.inj hchange]
  have hrem : q.1 ∈ p.gathered.removals := by
    rcases h.mem_ids.1 (List.mem_map_of_mem hq) with hm | hm | hm
    · exact absurd hm hup
    · exact absurd hm hdirty
    · exact hm
  rw [h.removals, Finset.mem_sdiff, List.mem_toFinset, List.mem_toFinset] at hrem
  rw [hc.removed q.1 hrem.1 hrem.2]
  rfl

/-- The old slices are the index's. -/
theorem old_eq (h : Planned idx post diffs p) {q : String × Change} (hq : q ∈ p.changes) :
    q.2.old = idx.metas.get q.1 := by
  have hchange := h.changes q hq
  unfold changeOf at hchange
  simp only at hchange
  split at hchange
  · obtain ⟨m, -, hq'⟩ := Option.map_eq_some_iff.1 hchange
    rw [← hq']
  split at hchange
  · obtain ⟨m, -, hq'⟩ := Option.map_eq_some_iff.1 hchange
    rw [← hq']
  · rw [← Option.some.inj hchange]

/-- An item the plan does not list is as it was. -/
theorem item_eq (h : Planned idx post diffs p) (hc : Captures pre post diffs)
    (hid : post.Identified) {id : String} (hout : id ∉ p.changes.map Prod.fst) :
    post.item id = pre.item id := by
  rw [h.mem_ids] at hout
  push Not at hout
  obtain ⟨hup, hdirty, hrem⟩ := hout
  rw [h.upserts, List.mem_toFinset] at hup
  have hrem' : id ∉ diffs.flatMap CapturedDiff.removed := by
    intro hmem
    refine hrem ?_
    rw [h.removals, Finset.mem_sdiff, List.mem_toFinset, List.mem_toFinset]
    exact ⟨hmem, hup⟩
  rcases hc.items id hup hrem' with ⟨hpre, hpost⟩ | ⟨m, m', hpre, hpost, hsame⟩
  · rw [hpre, hpost]
  · have hempty : writtenKeys diffs m'.id = ∅ := by
      rw [hid id m' hpost]
      refine Finset.eq_empty_of_forall_notMem fun k hk => hdirty ?_
      rw [writtenKeys, List.mem_toFinset, List.mem_flatMap] at hk
      obtain ⟨q, hq, -⟩ := hk
      obtain ⟨hq, howner⟩ := List.mem_filter.1 hq
      rw [Gathered.dirtyIds, h.mapDirty, Finset.mem_sdiff, List.mem_toFinset, List.mem_filterMap,
        Finset.mem_union, not_or]
      refine ⟨⟨q, hq, by simpa using howner⟩, hrem, ?_⟩
      rwa [h.upserts, List.mem_toFinset]
    rw [hempty] at hsame
    rw [hpre, hpost, hsame.eq_of_empty]

end Planned

/-! ## Committing -/

theorem commitChange_metas (idx : ProjectionIndex) (q : String × Change) (y : String) :
    (Plan.commitChange idx q).metas.get y = if y = q.1 then q.2.new else idx.metas.get y := by
  unfold Plan.commitChange
  cases q.2.new with
  | some m => rw [setMeta_metas, FMap.get_insert]
  | none => exact removeItem_metas idx q.1 y

theorem foldl_commitChange_metas (idx : ProjectionIndex) {qs : List (String × Change)}
    (hnodup : (qs.map Prod.fst).Nodup) :
    (∀ q ∈ qs, (qs.foldl Plan.commitChange idx).metas.get q.1 = q.2.new) ∧
      ∀ y, y ∉ qs.map Prod.fst →
        (qs.foldl Plan.commitChange idx).metas.get y = idx.metas.get y := by
  induction qs generalizing idx with
  | nil => exact ⟨by simp, fun _ _ => rfl⟩
  | cons q qs ih =>
    rw [List.map_cons, List.nodup_cons] at hnodup
    obtain ⟨hin, hout⟩ := ih (Plan.commitChange idx q) hnodup.2
    refine ⟨fun r hr => ?_, fun y hy => ?_⟩
    · rcases List.mem_cons.1 hr with rfl | hr
      · exact (hout r.1 hnodup.1).trans ((commitChange_metas idx r r.1).trans (if_pos rfl))
      · exact hin r hr
    · rw [List.map_cons, List.mem_cons, not_or] at hy
      exact (hout y hy.2).trans ((commitChange_metas idx q y).trans (if_neg hy.1))

theorem foldl_commitChange (qs : List (String × Change)) (h : idx.Membership) :
    (qs.foldl Plan.commitChange idx).Membership ∧
      (qs.foldl Plan.commitChange idx).rawOrders = idx.rawOrders ∧
      (qs.foldl Plan.commitChange idx).openByList = idx.openByList ∧
      (qs.foldl Plan.commitChange idx).openVisibleCounts = idx.openVisibleCounts := by
  induction qs generalizing idx with
  | nil => exact ⟨h, rfl, rfl, rfl⟩
  | cons q qs ih =>
    have hone : (Plan.commitChange idx q).Membership ∧
        (Plan.commitChange idx q).rawOrders = idx.rawOrders ∧
        (Plan.commitChange idx q).openByList = idx.openByList ∧
        (Plan.commitChange idx q).openVisibleCounts = idx.openVisibleCounts := by
      unfold Plan.commitChange
      cases q.2.new with
      | some m => exact ⟨h.setMeta _ _, by simp, by simp, by simp⟩
      | none => exact ⟨h.removeItem _, removeItem_rest idx q.1⟩
    obtain ⟨hm, hraw, hlist, hcount⟩ := hone
    obtain ⟨hm', hraw', hlist', hcount'⟩ := ih hm
    exact ⟨hm', hraw'.trans hraw, hlist'.trans hlist, hcount'.trans hcount⟩

theorem foldl_commitShadow (p : Plan) (ls : List String) (idx : ProjectionIndex) :
    (ls.foldl p.commitShadow idx).metas = idx.metas ∧
      (ls.foldl p.commitShadow idx).members = idx.members ∧
      (ls.foldl p.commitShadow idx).openMembers = idx.openMembers ∧
      (ls.foldl p.commitShadow idx).openByList = idx.openByList ∧
      (ls.foldl p.commitShadow idx).openVisibleCounts = idx.openVisibleCounts ∧
      ∀ l, (ls.foldl p.commitShadow idx).rawOrders.get l =
        if l ∈ ls ∧ (p.gathered.shadows.get l).isSome = true then p.gathered.shadows.get l
        else idx.rawOrders.get l := by
  induction ls generalizing idx with
  | nil => simp
  | cons k ls ih =>
    rw [List.foldl_cons]
    cases hs : p.gathered.shadows.get k with
    | none =>
      have hkeep : p.commitShadow idx k = idx := by rw [Plan.commitShadow, hs]
      obtain ⟨h₁, h₂, h₃, h₄, h₅, h₆⟩ := ih idx
      rw [hkeep]
      refine ⟨h₁, h₂, h₃, h₄, h₅, fun l => ?_⟩
      rw [h₆ l]
      by_cases hl : l = k
      · subst hl
        simp [hs]
      · simp [hl]
    | some shadow =>
      have hset : p.commitShadow idx k = idx.setRaw k shadow := by rw [Plan.commitShadow, hs]
      obtain ⟨h₁, h₂, h₃, h₄, h₅, h₆⟩ := ih (idx.setRaw k shadow)
      rw [hset]
      refine ⟨h₁, h₂, h₃, h₄, h₅, fun l => ?_⟩
      rw [h₆ l, get_setRaw]
      by_cases hl : l = k
      · subst hl
        simp [hs]
      · simp [hl]

/-- Every list that counts after the frame counted before, was mirrored or empty, or is edited
by the frame. -/
def Content.Covers (pre post : Content) (idx : ProjectionIndex) (diffs : List CapturedDiff) :
    Prop :=
  ∀ l, post.Candidate l →
    pre.Candidate l ∨ (idx.rawOrders.get l).isSome = true ∨ pre.slots l = [] ∨
      diffs.flatMap (edits l) ≠ []

/-- An edited mirror is the container after the frame: the lengths betray one that lags. -/
theorem Planned.shadow_eq (h : Planned idx post diffs p) (hc : Captures pre post diffs)
    (hlags : Lags pre idx) {l : String} {shadow : List (Option OrderEntry)}
    (hs : p.gathered.shadows.get l = some shadow) : shadow = post.slots l := by
  have hedit := h.shadow l
  rw [hs, Option.getD_some] at hedit
  have hexact : applyDeltas (pre.slots l)
      ((diffs.flatMap (edits l)).map (List.map (DeltaOp.map parseSlot))) =
        some (post.slots l) := by
    show applyDeltas ((pre.orders l).map parseSlot) _ = _
    rw [applyDeltas_map, hc.orders l]
    rfl
  obtain ⟨rest, hrest⟩ := hlags l
  have hlonger := applyDeltas_longer rest hedit
  rw [hrest, hexact, Option.some.injEq] at hlonger
  have hlen := h.landed l shadow hs
  have hlen' : (post.slots l).length = (post.orders l).length := List.length_map _
  rw [hlonger, List.length_append] at hlen'
  have hnil : rest = [] := List.length_eq_zero_iff.1 (by omega)
  rw [hlonger, hnil, List.append_nil]

/-- The slices after the changes are those of the containers after the frame. -/
theorem Planned.changed_metas (h : Planned idx post diffs p) (hc : Captures pre post diffs)
    (hid : post.Identified) (hmetas : ∀ y, idx.metas.get y = pre.metaOf y) (y : String) :
    (p.changes.foldl Plan.commitChange idx).metas.get y = post.metaOf y := by
  obtain ⟨hin, hout⟩ := foldl_commitChange_metas idx h.nodup
  by_cases hy : y ∈ p.changes.map Prod.fst
  · obtain ⟨q, hq, rfl⟩ := List.mem_map.1 hy
    rw [hin q hq, h.new_eq hc hq]
  · rw [hout y hy, hmetas, Content.metaOf, Content.metaOf, h.item_eq hc hid hy]

theorem Plan.commit_metas (p : Plan) (idx : ProjectionIndex) :
    (p.commit idx).metas = (p.changes.foldl Plan.commitChange idx).metas := by
  unfold Plan.commit
  dsimp only
  rw [(foldl_refreshOpen _ _).1.metas, (foldl_commitShadow p _ _).1]

theorem rawOrders_foldl_commitChange (qs : List (String × Change)) (idx : ProjectionIndex) :
    (qs.foldl Plan.commitChange idx).rawOrders = idx.rawOrders := by
  induction qs generalizing idx with
  | nil => rfl
  | cons q qs ih =>
    refine (ih _).trans ?_
    unfold Plan.commitChange
    cases q.2.new with
    | some m => exact rawOrders_setMeta _ _ _
    | none => exact (removeItem_rest idx q.1).1

/-- The mirrors once the slices and the edited mirrors are installed. -/
theorem Plan.installed_rawOrders (p : Plan) (idx : ProjectionIndex) (l : String) :
    ((sortOn id Function.injective_id p.gathered.shadows.keys).foldl p.commitShadow
        (p.changes.foldl Plan.commitChange idx)).rawOrders.get l =
      if (p.gathered.shadows.get l).isSome = true then p.gathered.shadows.get l
      else idx.rawOrders.get l := by
  rw [(foldl_commitShadow p _ _).2.2.2.2.2 l, rawOrders_foldl_commitChange]
  refine if_congr ⟨And.right, fun hs => ⟨?_, hs⟩⟩ rfl rfl
  rw [mem_sortOn, FMap.mem_keys]
  exact hs

theorem Plan.commit_rawOrders (p : Plan) (idx : ProjectionIndex) (l : String) :
    (p.commit idx).rawOrders.get l =
      if (p.gathered.shadows.get l).isSome = true then p.gathered.shadows.get l
      else idx.rawOrders.get l := by
  rw [← p.installed_rawOrders idx l]
  unfold Plan.commit
  dsimp only
  rw [(foldl_refreshOpen _ _).1.rawOrders]

/-- **A translated frame** keeps the agreement. -/
theorem agrees_commit (h : Agrees pre idx) (hplan : Planned idx post diffs p)
    (hc : Captures pre post diffs) (hid : post.Identified)
    (hcovers : pre.Covers post idx diffs) : Agrees post (p.commit idx) := by
  obtain ⟨hm, -, hlist, hcount⟩ := foldl_commitChange p.changes h.membership
  have hout := (foldl_commitChange_metas idx hplan.nodup).2
  unfold Plan.commit
  simp only
  set idx₁ := p.changes.foldl Plan.commitChange idx with hidx₁
  obtain ⟨h₁, h₂, h₃, h₄, h₅, -⟩ := foldl_commitShadow p
    (sortOn id Function.injective_id p.gathered.shadows.keys) idx₁
  set idx₂ := (sortOn id Function.injective_id p.gathered.shadows.keys).foldl p.commitShadow idx₁
    with hidx₂
  have hmirror : ∀ l, idx₂.rawOrders.get l =
      if (p.gathered.shadows.get l).isSome = true then p.gathered.shadows.get l
      else idx.rawOrders.get l := p.installed_rawOrders idx
  have hmetas : ∀ y, idx₂.metas.get y = post.metaOf y := by
    intro y
    rw [h₁]
    exact hplan.changed_metas hc hid h.metas y
  have htracks : Tracks post idx₂ := by
    refine ⟨hmetas, ⟨?_, ?_, ?_, ?_⟩, fun l => ?_⟩
    · intro l y
      rw [membersOf, h₂, h₁]
      exact hm.members l y
    · intro l y
      rw [openMembersOf, h₃, h₁]
      exact hm.openMembers l y
    · intro l
      rw [h₂]
      exact hm.membersKey l
    · intro l
      rw [h₃]
      exact hm.openMembersKey l
    · unfold RawAt
      rw [hmirror]
      cases hs : p.gathered.shadows.get l with
      | some shadow => exact .inl (by rw [hplan.shadow_eq hc h.toTracks.lags hs]; rfl)
      | none =>
        have hnone : diffs.flatMap (edits l) = [] := (hplan.noShadow l).1 hs
        have hsame : post.slots l = pre.slots l := by
          have hexact := hc.orders l
          rw [hnone, applyDeltas, Option.some.injEq] at hexact
          rw [Content.slots, Content.slots, hexact]
        simp only [Option.isSome_none, Bool.false_eq_true, if_false]
        rw [hsame]
        rcases h.raw l with hsome | ⟨hmiss, hnil⟩
        · exact .inl hsome
        · refine .inr ⟨hmiss, fun hcand => ?_⟩
          rcases hcovers l hcand with hpre | hcached | hempty | hedited
          · exact hnil hpre
          · rw [hmiss] at hcached
            cases hcached
          · exact hempty
          · exact absurd hnone hedited
  obtain ⟨hbase, hrefreshed⟩ := foldl_refreshOpen p.affectedSorted idx₂
  refine ⟨htracks.of_sameBase hbase, fun l => ?_⟩
  rw [OpenAt, hbase.openOf, hbase.openVisible, (hrefreshed l).1, (hrefreshed l).2]
  by_cases hl : l ∈ p.affectedSorted
  · rw [if_pos hl, if_pos hl]
    exact ⟨rfl, rfl⟩
  rw [if_neg hl, if_neg hl]
  -- no mirror and no item of a list that is not affected has changed
  rw [Plan.affectedSorted, mem_sortOn, Plan.affected, Finset.mem_union, not_or,
    List.mem_toFinset] at hl
  obtain ⟨hkeys, hlists⟩ := hl
  have hnone : p.gathered.shadows.get l = none := by
    rw [FMap.mem_keys] at hkeys
    simpa using hkeys
  have hkeep : idx₂.rawOrders.get l = idx.rawOrders.get l := by
    rw [hmirror, hnone]
    rfl
  have hsame : ∀ y, SameFor idx idx₂ l y := by
    intro y
    by_cases hy : y ∈ p.changes.map Prod.fst
    · obtain ⟨q, hq, rfl⟩ := List.mem_map.1 hy
      have haway : ∀ m, q.2.old = some m ∨ q.2.new = some m → m.listId ≠ l := by
        rintro m hm rfl
        refine hlists (List.mem_flatMap.2 ⟨q, hq, ?_⟩)
        rcases hm with hm | hm <;> simp [hm]
      refine sameFor_of_elsewhere (fun m hm => haway m (.inl ?_)) fun m hm => haway m (.inr ?_)
      · rw [hplan.old_eq hq, hm]
      · rw [hplan.new_eq hc hq, ← hmetas, hm]
    · exact SameFor.of_eq (by rw [h₁, hout y hy])
  refine (h.opens l).frame h.membership htracks.membership ?_ hsame ?_ ?_
  · rw [rawOf, rawOf, hkeep]
  · rw [h₄, hlist]
  · rw [h₅, hcount]

end Monoplan.Doc
