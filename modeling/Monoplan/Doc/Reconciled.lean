import Monoplan.Doc.ListMoves
import Monoplan.Doc.Reconcile

/-!
# What is shown after a repair

* `reconcileWith_again`: a second repair finds nothing.
* `merged_keeps`: two replicas that repair one document at the same time show it as it was once they
  are merged.
* `reconcile_cleans`: a repair only cleans.
-/

namespace Monoplan.Doc

open Monoplan.Base ProjectionIndex

/-! ## List rows and focus -/

section Rows

variable {c c' : Content} {idx : ProjectionIndex}

/-- Where every row with an id reads as a list, taking repeated rows out shows the same lists. -/
theorem allLists_dropPositions (hrows : c.RowsComplete)
    (hlists : c'.lists = dropPositions (dead rowKey false c.lists) c.lists) :
    c'.allLists = c.allLists := by
  have hkey : ∀ row ∈ c.lists, rowKey row = (row.bind listView).map ListView.id := by
    intro row hrow
    cases row with
    | none => rfl
    | some r =>
      rw [rowKey, Option.bind_some, Option.bind_some]
      cases hid : r.id with
      | none => simp [listView, hid]
      | some id =>
        obtain ⟨v, hv⟩ := Option.isSome_iff_exists.1 (hrows r hrow (by rw [hid]; rfl))
        obtain ⟨id', hid', hv'⟩ := Option.bind_eq_some_iff.1 hv
        obtain ⟨name, -, hv'⟩ := Option.bind_eq_some_iff.1 hv'
        obtain ⟨createdAt, -, rfl⟩ := Option.map_eq_some_iff.1 hv'
        rw [hv]
        exact hid.symm.trans hid'
  have hviews : ∀ c : Content,
      c.allLists = firstsOn ListView.id (c.lists.filterMap fun row => row.bind listView) := by
    intro c
    rw [Content.allLists, List.filterMap_filterMap]
    rfl
  rw [hviews, hviews, hlists, filterMap_dropPositions_on hkey]
  exact firstsOn_of_nodup _ (map_firstsOn ListView.id _ ▸ firsts_nodup _)

/-- Taking dead refs out shows the same focus. -/
theorem focusEntries_dropPositions (idx : ProjectionIndex) (focus : List String) :
    idx.focusEntries (dropPositions (dead idx.focusKey true focus) focus) =
      idx.focusEntries focus := by
  have hentries : ∀ focus, idx.focusEntries focus = firstsOn FocusRef.itemId (focus.filterMap
      fun raw => (FocusRef.parse raw).filter fun r => !r.isLocal || idx.isOpenItem r.itemId) := by
    intro focus
    rw [focusEntries, List.filter_filterMap]
  rw [hentries, hentries, filterMap_dropPositions_on (f := idx.focusKey) fun raw _ => rfl]
  exact firstsOn_of_nodup _ (map_firstsOn FocusRef.itemId _ ▸ firsts_nodup _)

end Rows

/-! ## Whole repairs -/

namespace FocusedDocument

variable {s s' m : FocusedDocument} {cutoff : Option ℤ} {fresh : String → String} {l id : String}

/-- `s'` shows what `s` shows, as far as the order of the `sure` items goes. -/
structure ShowsAs (s s' : FocusedDocument) (sure : String → Bool) : Prop where
  /-- The open projections. -/
  openItemIds : ∀ l, (s'.index.openItemIds l).filter sure = (s.index.openItemIds l).filter sure
  /-- Which items a list shows. -/
  located : ∀ l id, id ∈ s'.index.resolved l ↔ id ∈ s.index.resolved l
  /-- What is shown of the items, and their registers. -/
  items : ∀ id, (s'.content.item id).bind itemView = (s.content.item id).bind itemView
  registers : s.content.ItemsKept s'.content
  lists : s'.content.allLists = s.content.allLists
  focus : s'.index.focusEntries s'.focus = s.index.focusEntries s.focus

/-- Two replicas of `s` were repaired, each with its own cutoff and placements, and merged: of the
location registers either write is there, an element that one of them deleted is gone, and the
entries that they appended stand behind the others, each replica's in their order. -/
structure Merged (s : FocusedDocument) (cutoff : Option ℤ) (fresh : String → String)
    (cutoff' : Option ℤ) (fresh' : String → String) (m : FocusedDocument) : Prop where
  items : ∀ id, m.content.item id = (s.reconcileWith cutoff fresh).1.content.item id ∨
    m.content.item id = (s.reconcileWith cutoff' fresh').1.content.item id
  orders : ∀ l, ∃ run, Shuffle (s.index.planFor (s.sweepSet cutoff) fresh l).append
      (s.index.planFor (s.sweepSet cutoff') fresh' l).append run ∧
    m.content.orders l = dropPositions ((s.index.planFor (s.sweepSet cutoff) fresh l).stale ++
      (s.index.planFor (s.sweepSet cutoff') fresh' l).stale) (s.content.orders l) ++
        run.map fun e => some e.encode
  lists : m.content.lists = dropPositions (dead rowKey false s.content.lists) s.content.lists
  focus : m.focus = dropPositions (dead s.index.focusKey true s.focus) s.focus
  index : Agrees m.content m.index

/-- A cleaning that shows the rows and the focus as they were shows everything as it was. -/
theorem showsAs_of_cleaning (h : Agrees s.content s.index) (h' : Agrees s'.content s'.index)
    {swept sure : String → Bool} (hclean : Content.Cleaning s.content s'.content swept sure)
    (hitems : s.content.ItemsKept s'.content) (hrows : s.content.RowsComplete)
    (hlists : s'.content.lists =
      dropPositions (dead rowKey false s.content.lists) s.content.lists)
    (hfocus : s'.focus = dropPositions (dead s.index.focusKey true s.focus) s.focus) :
    s.ShowsAs s' sure where
  openItemIds l := by
    rw [(h'.opens l).openItemIds, (h.opens l).openItemIds, h'.mirrors.openOf_eq,
      h.mirrors.openOf_eq]
    exact hclean.openOrder l
  located l id := by
    rw [h'.mirrors.mem_resolved, h.mirrors.mem_resolved]
    exact hitems.located
  items id := hitems.view id
  registers := hitems
  lists := allLists_dropPositions hrows hlists
  focus := by
    have hopen : s'.index.isOpenItem = s.index.isOpenItem := by
      rw [h'.mirrors.isOpenItem_eq, h.mirrors.isOpenItem_eq]
      exact funext hitems.openNow
    rw [hfocus, focusEntries, hopen]
    exact focusEntries_dropPositions s.index s.focus

/-- Without a plan, repeated rows and dead refs there is nothing to repair. -/
theorem repaired_of_clean (h : Agrees s.content s.index) {sweep : List String}
    (hclosed : ∀ id ∈ sweep, s.content.openNow id = false)
    (hplans : ∀ l ∈ s.index.plannedLists, s.index.planFor sweep fresh l = ⟨[], []⟩)
    (hrows : dead rowKey false s.content.lists = []) :
    s.content.repaired s.index sweep fresh = s.content := by
  have hplan : ∀ l, s.index.planFor sweep fresh l = ⟨[], []⟩ := fun l => by
    by_cases hl : l ∈ s.index.plannedLists
    · exact hplans l hl
    · exact h.planFor_eq hclosed hl
  have hfixes : ∀ id, s.index.fixes sweep id = false := fun id => by
    rw [fixes]
    cases s.index.metas.get id with
    | none => rfl
    | some slice =>
      have happend := congrArg ListPlan.append (hplan slice.listId)
      have hmissing : s.index.missing sweep slice.listId = [] := List.map_eq_nil_iff.1 happend
      simp [hmissing]
  have hitems : (s.content.repaired s.index sweep fresh).items = s.content.items := by
    refine FMap.ext_get fun id => ?_
    rw [Content.repaired, FMap.get_mapWithKey]
    simp [hfixes id]
  have horders : (s.content.repaired s.index sweep fresh).orders = s.content.orders := by
    funext l
    rw [Content.repaired]
    dsimp only
    rw [hplan l]
    exact List.append_nil _
  have hlists : (s.content.repaired s.index sweep fresh).lists = s.content.lists := by
    rw [Content.repaired, hrows]
    rfl
  exact congr (congr (congrArg Content.mk hitems) horders) hlists

/-- What a repair writes, whether or not there was something to repair. -/
theorem reconcileWith_spec (h : Agrees s.content s.index) (hwritten : s.content.WellWritten)
    (hs' : (s.reconcileWith cutoff fresh).1 = s') :
    s'.content = s.content.repaired s.index (s.sweepSet cutoff) fresh ∧
      s'.focus = dropPositions (dead s.index.focusKey true s.focus) s.focus ∧
      Agrees s'.content s'.index ∧ (s' = s ∨ s'.index = s'.content.computeIndex) := by
  rw [reconcileWith] at hs'
  dsimp only at hs'
  split at hs'
  · rename_i hclean
    obtain ⟨hplans, hfocus, hrows⟩ := hclean
    subst hs'
    refine ⟨(repaired_of_clean h (sweepSet_closed h.mirrors hwritten cutoff) (fun l hl => ?_) hrows).symm,
      ?_, h, .inl rfl⟩
    · by_contra hne
      have hin : l ∈ s.index.plannedLists.filter fun l =>
          s.index.planFor (s.sweepSet cutoff) fresh l ≠ ⟨[], []⟩ := Finset.mem_filter.2 ⟨hl, hne⟩
      rw [hplans] at hin
      exact Finset.notMem_empty l hin
    · rw [hfocus, dropPositions_nil]
  · subst hs'
    exact ⟨rfl, removeAt_dead _ _ _ _, agrees_computeIndex _, .inr rfl⟩

/-- The open tail of a cleaned list is empty. -/
theorem openRest_of_cleaning {c c' : Content} {swept : String → Bool}
    (h : Content.Cleaning c c' swept fun _ => true) (l : String) : c'.openRest l = [] := by
  refine List.eq_nil_iff_forall_not_mem.2 fun id hid => ?_
  obtain ⟨hloc, hopen, hout⟩ := Content.mem_openRest.1 hid
  rw [h.isOpen] at hopen
  refine hout ((h.mem_liveIds rfl).2 ?_)
  by_cases hin : id ∈ c.liveIds l
  · refine .inl ⟨hin, ?_⟩
    cases hs : swept id with
    | false => rfl
    | true =>
      rw [h.closed id hs] at hopen
      cases hopen
  · exact .inr (Content.mem_openRest.2 ⟨(h.located l id).1 hloc, hopen, hin⟩)

/-- **Every container that is mirrored** is tidy after a repair. -/
theorem reconcileWith_tidy (h : Agrees s.content s.index) (hwritten : s.content.WellWritten)
    (hfresh : ∀ id, fresh id ≠ "") (hs' : (s.reconcileWith cutoff fresh).1 = s')
    (hl : l ∈ s.index.plannedLists ∨ l ∈ s'.index.plannedLists) :
    s'.content.Tidy (s.sweepSet cutoff) l := by
  have hclosed := sweepSet_closed h.mirrors hwritten cutoff
  obtain ⟨hcontent, -, -, hindex⟩ := reconcileWith_spec h hwritten hs'
  have htidy : s.index.rawOf l = s.content.slots l →
      s'.content.Tidy (s.sweepSet cutoff) l := fun hraw => by
    obtain ⟨es, hslots, hlive, hids⟩ :=
      repaired_entries h.toTracks hwritten hclosed hfresh hraw
    rw [hcontent]
    exact ⟨es, hslots, hlive, hids ▸ kept_append_nodup _ _ _⟩
  rcases hl with hl | hl
  · exact htidy (h.rawOf_of_planned hl)
  · rcases hindex with rfl | hindex
    · exact htidy (h.rawOf_of_planned hl)
    · rw [hindex] at hl
      have hitems := repaired_kept h.toTracks hwritten hclosed hfresh
      rw [← hcontent] at hitems
      have hids : s'.content.allListIds = s.content.allListIds := by
        rw [Content.allListIds, allLists_dropPositions hwritten.rows]
        · rfl
        · rw [hcontent]
          exact removeAt_dead _ _ _ _
      refine htidy (h.rawOf_eq ?_)
      rcases (computed_computeIndex s'.content).candidate_of_planned hl with hl | hl | ⟨id, hid⟩
      · exact .inl hl
      · exact .inr (.inl (hids ▸ hl))
      · exact .inr (.inr ⟨id, hitems.located.1 hid⟩)

/-- A tidy container has nothing stale. -/
theorem stale_of_tidy {c : Content} {idx : ProjectionIndex} {sweep sweep' : List String}
    (h : Mirrors c idx) (hraw : idx.rawOf l = c.slots l) (htidy : c.Tidy sweep l)
    (hsweep : ∀ id, id ∈ sweep' ↔ id ∈ sweep) :
    dead (idx.entryKey sweep' l) true (idx.rawOf l) = [] := by
  obtain ⟨es, hslots, hlive, hnodup⟩ := htidy
  have hkey : ∀ e ∈ es, idx.entryKey sweep' l (some e) = some e.itemId := fun e he => by
    refine entryKey_eq_some.2 ⟨e, rfl, ?_, fun hin => (hlive e he).2 ((hsweep _).1 hin), rfl⟩
    rw [h.matches_eq]
    exact (hlive e he).1
  have hids : (es.map some).filterMap (idx.entryKey sweep' l) = es.map OrderEntry.itemId := by
    rw [List.filterMap_map, ← List.filterMap_eq_map]
    exact List.filterMap_congr hkey
  rw [hraw, hslots]
  refine dead_eq_nil (fun _ s hs => ?_) (hids ▸ hnodup)
  obtain ⟨e, he, rfl⟩ := List.mem_map.1 hs
  rw [hkey e he]
  rfl

/-- **A second repair** with the same cutoff finds nothing. -/
theorem reconcileWith_again (h : Agrees s.content s.index) (hwritten : s.content.WellWritten)
    (hfresh : ∀ id, fresh id ≠ "") (hs' : (s.reconcileWith cutoff fresh).1 = s')
    (fresh' : String → String) : s'.reconcileWith cutoff fresh' = (s', 0) := by
  have hclosed := sweepSet_closed h.mirrors hwritten cutoff
  obtain ⟨hcontent, hfocus, h', -⟩ := reconcileWith_spec h hwritten hs'
  have hclean := cleaning_repaired h.toTracks hwritten hclosed hfresh
  have hitems := repaired_kept h.toTracks hwritten hclosed hfresh
  rw [← hcontent] at hclean hitems
  have hsweep : ∀ id, id ∈ s'.sweepSet cutoff ↔ id ∈ s.sweepSet cutoff := fun id => by
    rw [mem_sweepSet h'.mirrors, mem_sweepSet h.mirrors]
    simp only [hitems.view]
  have hclosed' : ∀ id ∈ s'.sweepSet cutoff, s'.content.openNow id = false := fun id hid => by
    rw [hitems.openNow]
    exact hclosed id ((hsweep id).1 hid)
  have hplans : s'.index.plannedLists.filter (fun l =>
      s'.index.planFor (s'.sweepSet cutoff) fresh' l ≠ ⟨[], []⟩) = ∅ := by
    refine Finset.filter_eq_empty_iff.2 fun l hl => not_not.2 ?_
    have htidy := reconcileWith_tidy h hwritten hfresh hs' (.inr hl)
    rw [planFor, stale_of_tidy h'.mirrors (h'.rawOf_of_planned hl) htidy hsweep,
      h'.missing_eq hclosed', openRest_of_cleaning hclean]
    rfl
  have hkey : s'.index.focusKey = s.index.focusKey := by
    have hopen : s'.index.isOpenItem = s.index.isOpenItem := by
      rw [h'.mirrors.isOpenItem_eq, h.mirrors.isOpenItem_eq]
      exact funext hitems.openNow
    funext raw
    rw [focusKey, hopen]
    rfl
  have hdead : dead s'.index.focusKey true s'.focus = [] := by
    rw [hkey, hfocus]
    exact dead_dropPositions _ _ _
  have hrows : dead rowKey false s'.content.lists = [] := by
    rw [hcontent, Content.repaired]
    dsimp only
    rw [removeAt_dead]
    exact dead_dropPositions _ _ _
  exact if_pos ⟨hplans, hdead, hrows⟩

/-- What both sweeps leave of a container is what one sweep of both leaves. -/
theorem dropPositions_stale_union {idx : ProjectionIndex} {sweep sweep' : List String}
    {fresh' : String → String} {α : Type*} (xs : List α) :
    dropPositions ((idx.planFor sweep fresh l).stale ++ (idx.planFor sweep' fresh' l).stale) xs =
      dropPositions (idx.planFor (sweep ++ sweep') fresh l).stale xs := by
  have hkey : idx.entryKey (sweep ++ sweep') l = fun s => (idx.shownBy l s).filter fun id =>
      decide (id ∉ sweep) && decide (id ∉ sweep') := by
    funext s
    rw [entryKey]
    congr 1
    funext id
    simp [not_or]
  refine dropFrom_congr (fun i _ => ?_) xs
  rw [List.mem_append, planFor, planFor, planFor]
  dsimp only
  rw [hkey]
  exact (mem_dead_union (idx.shownBy l) (fun id => decide (id ∉ sweep))
    (fun id => decide (id ∉ sweep')) (idx.rawOf l) i).symm

/-- **Merged repairs** are a cleaning, up to the items that both had to place. -/
theorem cleaning_merged (h : Agrees s.content s.index) (hwritten : s.content.WellWritten)
    {cutoff' : Option ℤ} {fresh' : String → String} (hitems : s.content.ItemsKept m.content)
    (hm : s.Merged cutoff fresh cutoff' fresh' m) :
    Content.Cleaning s.content m.content
      (fun id => decide (id ∈ s.sweepSet cutoff ++ s.sweepSet cutoff'))
      fun id => !s.content.unplaced id := by
  have hclosed := sweepSet_closed h.mirrors hwritten cutoff
  have hclosed' := sweepSet_closed h.mirrors hwritten cutoff'
  refine ⟨fun l id => hitems.located, hitems.ageKey, hitems.openNow, fun id hid => ?_,
    fun l => ?_⟩
  · rcases List.mem_append.1 (of_decide_eq_true hid) with hid | hid
    · exact hclosed id hid
    · exact hclosed' id hid
  rcases h.rawOf_cases l with hraw | ⟨-, -, hno⟩
  · obtain ⟨ks, hks, hlive, hids⟩ :=
      kept_entries (s.sweepSet cutoff ++ s.sweepSet cutoff') fresh h.toTracks hraw
    obtain ⟨run, hrun, horders⟩ := hm.orders l
    have hmem : ∀ e ∈ run, e.itemId ∈ s.content.openRest l ∧
        (s.content.unplaced e.itemId = false → s.content.live l e = true) := by
      intro e he
      rcases hrun.mem_iff.1 he with he | he
      · refine ⟨?_, live_append h.toTracks hclosed he⟩
        rw [← h.missing_eq hclosed, ← itemIds_append s.index (s.sweepSet cutoff) fresh]
        exact List.mem_map_of_mem he
      · refine ⟨?_, live_append h.toTracks hclosed' he⟩
        rw [← h.missing_eq hclosed', ← itemIds_append s.index (s.sweepSet cutoff') fresh']
        exact List.mem_map_of_mem he
    have hparse : (run.map fun e => some e.encode).map (fun v => v.bind OrderEntry.parse) =
        run.map some := by
      rw [List.map_map]
      refine List.map_congr_left fun e he => ?_
      obtain ⟨i, hi, -⟩ := (Content.mem_openRest.1 (hmem e he).1).1
      exact OrderEntry.parse_encode (hwritten.plain _ i hi)
    have hslots : m.content.slots l = (ks ++ run).map some := by
      rw [Content.slots, horders, List.map_append, hparse, dropPositions_stale_union,
        map_dropPositions, List.map_append, ← hks]
      rfl
    have hentries : (m.content.slots l).filterMap id = ks ++ run := by
      rw [hslots, List.filterMap_map]
      exact List.filterMap_some
    -- what is filtered as live and sure is filtered as sure
    have hsure : ∀ e ∈ ks ++ run, s.content.unplaced e.itemId = false →
        m.content.live l e = true := by
      intro e he hplaced
      rw [hitems.live hplaced]
      rcases List.mem_append.1 he with he | he
      · exact (hlive e he).2.1
      · exact (hmem e he).2 hplaced
    have hshown : (m.content.liveIds l).filter (fun id => !s.content.unplaced id) =
        firsts (((ks ++ run).map OrderEntry.itemId).filter fun id => !s.content.unplaced id) := by
      rw [Content.liveIds, Content.liveEntries, hentries, filter_firsts, List.filter_map,
        List.filter_map, List.filter_filter]
      congr 2
      refine List.filter_congr fun e he => ?_
      cases hp : s.content.unplaced e.itemId with
      | true => simp [hp]
      | false => simp [hp, hsure e he hp]
    have hruns : firsts ((run.map OrderEntry.itemId).filter fun id => !s.content.unplaced id) =
        (s.content.openRest l).filter fun id => !s.content.unplaced id := by
      have hshuffle := (hrun.map OrderEntry.itemId).filter fun id => !s.content.unplaced id
      rw [itemIds_append, itemIds_append, h.missing_eq hclosed, h.missing_eq hclosed'] at hshuffle
      exact firsts_shuffle_self hshuffle ((s.content.openRest_nodup l).filter _)
    have hkept : (s.content.liveIds l).filter (fun id => !decide (id ∈ s.sweepSet cutoff ++
        s.sweepSet cutoff')) = ks.map OrderEntry.itemId := by
      rw [hids]
      refine List.filter_congr fun id _ => ?_
      simp
    have hnodup : (ks.map OrderEntry.itemId).Nodup := by
      rw [hids]
      exact (firsts_nodup _).filter _
    rw [hshown, hkept, List.map_append, List.filter_append, List.filter_append, firsts_append,
      firsts_of_nodup (hnodup.filter _), hruns]
    congr 1
    refine List.filter_eq_self.2 fun id hid => decide_eq_true fun hin => ?_
    have hrest := Content.mem_openRest.1 (List.mem_filter.1 hid).1
    have hin := (List.mem_filter.1 hin).1
    rw [hids] at hin
    exact hrest.2.2 (List.mem_filter.1 hin).1
  · have hrest : s.content.openRest l = [] := List.eq_nil_iff_forall_not_mem.2 fun id hid =>
      hno id (Content.mem_openRest.1 hid).1
    rw [no_live hno, hrest, no_live fun id hid => hno id (hitems.located.1 hid)]
    rfl

/-- **Two replicas** that repair one document at the same time show it as it was once they are
merged. -/
theorem merged_keeps (h : Agrees s.content s.index) (hwritten : s.content.WellWritten)
    {cutoff' : Option ℤ} {fresh' : String → String} (hfresh : ∀ id, fresh id ≠ "")
    (hfresh' : ∀ id, fresh' id ≠ "") (hm : s.Merged cutoff fresh cutoff' fresh' m) :
    s.ShowsAs m fun id => !s.content.unplaced id := by
  have hkept := repaired_kept h.toTracks hwritten
    (sweepSet_closed h.mirrors hwritten cutoff) hfresh
  have hkept' := repaired_kept h.toTracks hwritten
    (sweepSet_closed h.mirrors hwritten cutoff') hfresh'
  rw [← (reconcileWith_spec h hwritten rfl).1] at hkept hkept'
  have hitems : s.content.ItemsKept m.content := fun id => by
    rcases hm.items id with heq | heq
    · rw [heq]
      exact hkept id
    · rw [heq]
      exact hkept' id
  exact showsAs_of_cleaning h hm.index (cleaning_merged h hwritten hitems hm) hitems
    hwritten.rows hm.lists hm.focus

/-- **Reconciling only cleans.**  A repair shows the same open projections, items, lists and
focus, and the items of a list in the same order but for the closed ones that have no entry
afterwards.  Then every mirrored container is tidy, a second repair finds nothing, and merging
with a replica that repaired the same document shows the same again, up to the places of items
that had no location. -/
theorem reconcile_cleans (h : Agrees s.content s.index) (hwritten : s.content.WellWritten)
    (hfresh : ∀ id, fresh id ≠ "") (hs' : (s.reconcileWith cutoff fresh).1 = s') :
    s.ShowsAs s' (fun _ => true) ∧
    (∀ l, (s'.index.resolved l).filter
        (fun id => s'.index.isOpenItem id || decide (id ∈ s'.index.visibleIds l)) =
      (s.index.resolved l).filter
        fun id => s'.index.isOpenItem id || decide (id ∈ s'.index.visibleIds l)) ∧
    (∀ l, l ∈ s.index.plannedLists ∨ l ∈ s'.index.plannedLists →
      s'.content.Tidy (s.sweepSet cutoff) l) ∧
    Agrees s'.content s'.index ∧
    (∀ fresh', s'.reconcileWith cutoff fresh' = (s', 0)) ∧
    ∀ (cutoff' : Option ℤ) (fresh' : String → String) (m : FocusedDocument),
      (∀ id, fresh' id ≠ "") → s.Merged cutoff fresh cutoff' fresh' m →
        s.ShowsAs m fun id => !s.content.unplaced id := by
  have hclosed := sweepSet_closed h.mirrors hwritten cutoff
  obtain ⟨hcontent, hfocus, h', -⟩ := reconcileWith_spec h hwritten hs'
  have hclean := cleaning_repaired h.toTracks hwritten hclosed hfresh
  have hitems := repaired_kept h.toTracks hwritten hclosed hfresh
  have hlists : s'.content.lists =
      dropPositions (dead rowKey false s.content.lists) s.content.lists := by
    rw [hcontent]
    exact removeAt_dead _ _ _ _
  rw [← hcontent] at hclean hitems
  refine ⟨showsAs_of_cleaning h h' hclean hitems hwritten.rows hlists hfocus, fun l => ?_,
    fun l hl => reconcileWith_tidy h hwritten hfresh hs' hl, h',
    reconcileWith_again h hwritten hfresh hs',
    fun cutoff' fresh' m hfresh' hm => merged_keeps h hwritten hfresh hfresh' hm⟩
  have horder := hclean.order l
  rw [Content.order, Content.order, ← (mirrors_computeIndex _).resolved_eq h'.mirrors,
    ← (mirrors_computeIndex _).resolved_eq h.mirrors] at horder
  rw [h'.mirrors.isOpenItem_eq, h'.mirrors.visibleIds_eq]
  exact horder

/-- A closed item. -/
def closedItem : ItemMap where
  id := some "a"
  text := some "old"
  location := some "inbox:p"
  lifecycle := some (4, 5)
  createdAt := some 1

/-- A younger open item without a location. -/
def looseItem : ItemMap where
  id := some "b"
  text := some "new"
  createdAt := some 2

/-- Neither item has an entry; the container and the focus have leftovers. -/
def tailContent : Content where
  items := (FMap.empty.insert "a" (some closedItem)).insert "b" (some looseItem)
  orders l := if l = "inbox" then [some "gone:p", none] else []
  lists := []

def tailDocument : FocusedDocument where
  content := tailContent
  index := tailContent.computeIndex
  focus := ["b", "b", "gone"]

theorem tailContent_item {m : ItemMap} (h : tailContent.item id = some m) :
    (id = "a" ∧ m = closedItem) ∨ id = "b" ∧ m = looseItem := by
  rw [Content.item, tailContent, FMap.get_insert] at h
  by_cases hb : id = "b"
  · rw [if_pos hb] at h
    exact .inr ⟨hb, (Option.some.inj h).symm⟩
  · rw [if_neg hb, FMap.get_insert] at h
    by_cases ha : id = "a"
    · rw [if_pos ha] at h
      exact .inl ⟨ha, (Option.some.inj h).symm⟩
    · rw [if_neg ha] at h
      cases h

theorem tailContent_wellWritten : tailContent.WellWritten where
  plain id m h := by
    rcases tailContent_item h with ⟨rfl, -⟩ | ⟨rfl, -⟩
    · decide
    · decide
  named id m h k hk := by
    rcases tailContent_item h with ⟨rfl, rfl⟩ | ⟨rfl, rfl⟩
    · exact (Option.some.inj hk).symm
    · exact (Option.some.inj hk).symm
  placed id m h hempty := by
    rcases tailContent_item h with ⟨-, rfl⟩ | ⟨-, rfl⟩
    · exact absurd hempty (by decide)
    · rfl
  rows r hr := absurd hr List.not_mem_nil

theorem reconcile_cleans_tail :
    tailDocument.ShowsAs (tailDocument.reconcileWith (some 9) fun _ => "q").1 (fun _ => true) ∧
    (tailDocument.reconcileWith (some 9) fun _ => "q").2 = 5 :=
  ⟨(reconcile_cleans (agrees_computeIndex _) tailContent_wellWritten (fun _ => by decide) rfl).1,
    by decide +kernel⟩

/-- The open item gets an entry and stands before the closed one from then on. -/
theorem reconcile_passes_closed :
    ∃ s : FocusedDocument, Agrees s.content s.index ∧ s.content.WellWritten ∧
      ∃ l, (s.reconcileWith none fun _ => "q").1.index.resolved l ≠ s.index.resolved l :=
  ⟨tailDocument, agrees_computeIndex _, tailContent_wellWritten, "inbox", by decide +kernel⟩

end FocusedDocument

end Monoplan.Doc
