import Monoplan.Doc.Incremental
import Monoplan.Doc.LifecycleEvents
import Monoplan.Web.ListReplay

/-!
# Following lifecycle writes by their events

A batch of lifecycle writes either patches the index item by item, or rebuilds it and compares
the walks over all items before and after.

* `dispatch_lifecycleChanged`: one lifecycle event brings the workspace from one walk to the
  next, if an item that opens is reported at the number of open items before it.
* `dispatchAll_diffItems`: so do the events of a comparison.
* `lifecycle_branches`: both branches write the same, and both bring the workspace to what it
  shows of the result, as long as every item reads as one.
* `lifecycle_branches_apart`: an item without a text, and a mirror that nothing reads.
-/

namespace Monoplan.Web

open Monoplan.Base Monoplan.Doc

namespace WorkspaceState

variable {lists : List ListView} {settings : Settings} {focus : List String}

/-! ## One item of a walk -/

theorem rowsById_middle {A B : List ItemView} {v : ItemView} (hA : v.id ∉ A.map ItemView.id)
    (id : String) : rowsById ItemView.id (A ++ v :: B) id =
      if id = v.id then some v else rowsById ItemView.id (A ++ B) id := by
  rw [rowsById, rowsById, List.find?_append, List.find?_append, List.find?_cons]
  by_cases hid : id = v.id
  · have hnone : A.find? (fun row => decide (row.id = id)) = none :=
      rowsById_eq_none.2 (hid ▸ hA)
    rw [if_pos hid, hnone, decide_eq_true hid.symm]
    rfl
  · rw [if_neg hid, decide_eq_false (Ne.symm hid)]

/-- What the workspace shows of a walk depends on one item by its row, its open order and its
share of the bin. -/
theorem materialize_middle {A B : List ItemView} {v : ItemView}
    (hnodup : ((A ++ v :: B).map ItemView.id).Nodup) :
    materialize (A ++ v :: B) lists settings focus =
      { materialize (A ++ B) lists settings focus with
        itemsById := Function.update (rowsById ItemView.id (A ++ B)) v.id (some v)
        listOpen := if v.isOpen then
            Function.update (materialize (A ++ B) lists settings focus).listOpen v.listId
              (placeAt ((materialize (A ++ B) lists settings focus).listOpen v.listId)
                (openBefore A v.listId) v.id)
          else (materialize (A ++ B) lists settings focus).listOpen
        binCount := (materialize (A ++ B) lists settings focus).binCount +
          if isBinned v then 1 else 0 } := by
  have hA : v.id ∉ A.map ItemView.id := by
    rw [List.map_append, List.map_cons] at hnodup
    exact fun hin => (List.nodup_append.1 hnodup).2.2 _ hin _ List.mem_cons_self rfl
  simp only [materialize, mk.injEq, and_true]
  refine ⟨?_, ?_, ?_⟩
  · funext id
    rw [rowsById_middle hA, Function.update_apply]
  · funext l
    have hlen : openBefore A v.listId =
        ((A.filter fun x => x.isOpen && x.listId == v.listId).map ItemView.id).length := by
      rw [List.length_map]
      rfl
    cases hv : v.isOpen with
    | false =>
      rw [if_neg Bool.false_ne_true, List.filter_append, List.filter_append,
        List.filter_cons_of_neg (by simp [hv])]
    | true =>
      rw [if_pos rfl, Function.update_apply]
      by_cases hl : l = v.listId
      · rw [if_pos hl, hl, List.filter_append, List.filter_append,
          List.filter_cons_of_pos (by simp [hv]), List.map_append, List.map_append, hlen,
          placeAt_append, List.map_cons]
      · rw [if_neg hl, List.filter_append, List.filter_append,
          List.filter_cons_of_neg (by simp [Ne.symm hl])]
  · rw [List.filter_append, List.filter_append]
    by_cases hv : isBinned v = true
    · rw [List.filter_cons_of_pos hv, if_pos hv]
      simp only [List.length_append, List.length_cons]
      omega
    · rw [List.filter_cons_of_neg hv, if_neg hv, Int.add_zero]

/-- What a lifecycle event changes of a workspace that has the item. -/
theorem dispatch_lifecycleChanged_eq {s : WorkspaceState} {v v' : ItemView} {openIndex : Option ℕ}
    (hv' : v' = v.withLifecycle v') (hrow : s.itemsById v.id = some v) :
    s.dispatch (v'.lifecycleChanged v.id openIndex) =
      { s with
        itemsById := Function.update s.itemsById v.id (some v')
        listOpen :=
          if v.isOpen && !v'.isOpen then (s.removeOpen v.listId v.id).listOpen
          else if !v.isOpen && v'.isOpen then (s.insertOpen v.listId v.id openIndex).listOpen
          else s.listOpen
        binCount := s.binCount + ((if isBinned v' then 1 else 0) - if isBinned v then 1 else 0)
        focusOrder := if v.isOpen && !v'.isOpen && v'.binnedAt.isNone then
            s.focusOrder.filter fun x => x ≠ v.id
          else s.focusOrder } := by
  have hnext : ({ v with
      state := v'.state, lifecycleAt := v'.lifecycleAt, startedAt := v'.startedAt
      doneAt := v'.doneAt, binnedAt := v'.binnedAt } : ItemView) = v' := hv'.symm
  show s.changeLifecycle v.id _ _ _ _ _ _ = _
  rw [changeLifecycle, hrow]
  dsimp only
  rw [hnext]
  cases v.isOpen with
  | false =>
    cases v'.isOpen with
    | false => rfl
    | true => rfl
  | true =>
    cases v'.isOpen with
    | false =>
      cases v'.binnedAt.isNone with
      | false => rfl
      | true => rfl
    | true => rfl

/-- **One lifecycle event.**  If an item that opens is reported at the number of open items
before it, the workspace shows the walk with the item's new lifecycle. -/
theorem dispatch_lifecycleChanged {A B : List ItemView} {v v' : ItemView} {openIndex : Option ℕ}
    (hnodup : ((A ++ v :: B).map ItemView.id).Nodup) (hv' : v' = v.withLifecycle v')
    (hidx : v.isOpen = false → v'.isOpen = true → openIndex = some (openBefore A v.listId)) :
    ∃ focus', (materialize (A ++ v :: B) lists settings focus).dispatch
        (v'.lifecycleChanged v.id openIndex) =
      materialize (A ++ v' :: B) lists settings focus' := by
  have hid : v'.id = v.id := by rw [hv']; rfl
  have hlist : v'.listId = v.listId := by rw [hv']; rfl
  have hnodup' : ((A ++ v' :: B).map ItemView.id).Nodup := by
    have hids : (A ++ v' :: B).map ItemView.id = (A ++ v :: B).map ItemView.id := by simp [hid]
    rw [hids]
    exact hnodup
  have hout : ∀ l, v.id ∉ (materialize (A ++ B) lists settings focus).listOpen l := by
    intro l hin
    obtain ⟨x, hx, hxid⟩ := List.mem_map.1 hin
    have hx' : v.id ∈ (A ++ B).map ItemView.id := hxid ▸ List.mem_map_of_mem (List.mem_filter.1 hx).1
    have hperm : ((A ++ v :: B).map ItemView.id).Perm (v.id :: (A ++ B).map ItemView.id) :=
      List.perm_middle.map ItemView.id
    exact (List.nodup_cons.1 (hperm.nodup_iff.1 hnodup)).1 hx'
  have hrow : (materialize (A ++ v :: B) lists settings focus).itemsById v.id = some v := by
    rw [materialize_middle hnodup]
    exact Function.update_self _ _ _
  refine ⟨if v.isOpen && !v'.isOpen && v'.binnedAt.isNone then focus.filter fun x => x ≠ v.id
    else focus, ?_⟩
  rw [dispatch_lifecycleChanged_eq hv' hrow, materialize_middle hnodup,
    materialize_middle hnodup', hid, hlist]
  set base := (materialize (A ++ B) lists settings focus).listOpen with hbase
  have hfilter : (base v.listId).filter (fun x => decide (x ≠ v.id)) = base v.listId :=
    List.filter_eq_self.2 fun x hx => decide_eq_true fun heq => hout v.listId (heq ▸ hx)
  have hgone : (placeAt (base v.listId) (openBefore A v.listId) v.id).filter
      (fun x => decide (x ≠ v.id)) = base v.listId := by
    rw [placeAt, List.filter_append, List.filter_cons_of_neg (by simp), ← List.filter_append,
      List.take_append_drop, hfilter]
  have hself : Function.update base v.listId (base v.listId) = base := Function.update_eq_self _ _
  have hopens : ∀ g, (materialize (A ++ B) lists settings g).listOpen = base := fun _ => rfl
  have hbin : ∀ g, (materialize (A ++ B) lists settings g).binCount =
    (materialize (A ++ B) lists settings focus).binCount := fun _ => rfl
  simp only [removeOpen, insertOpen, mk.injEq, Function.update_idem, true_and, hopens,
    hbin (if _ then _ else _)]
  refine ⟨?_, by omega, rfl, rfl, rfl, rfl⟩
  cases hv : v.isOpen with
  | false =>
    cases hn : v'.isOpen with
    | false => simp
    | true =>
      rw [hidx hv hn]
      simp only [Bool.false_and, Bool.false_eq_true, if_false, Bool.not_false, Bool.and_true,
        if_true, hfilter, Option.getD_some]
  | true =>
    cases hn : v'.isOpen with
    | false =>
      simp only [Bool.not_false, Bool.and_true, if_true, Bool.false_eq_true, if_false,
        Function.update_self, Function.update_idem, hgone, hself]
    | true => simp

/-! ## A comparison of walks -/

theorem find_zipIdx_middle {A B : List ItemView} {v : ItemView} {id : String} (hv : v.id = id)
    (hA : id ∉ A.map ItemView.id) (n : ℕ) :
    (((A ++ v :: B).zipIdx n).find? fun p => decide (p.1.id = id)) = some (v, n + A.length) := by
  induction A generalizing n with
  | nil => simp [List.zipIdx_cons, hv]
  | cons x A ih =>
    obtain ⟨hx, hA⟩ := not_or.1 (List.mem_cons.not.1 hA)
    rw [List.cons_append, List.zipIdx_cons, List.find?_cons_of_neg (by simpa using Ne.symm hx),
      ih hA, List.length_cons, Nat.add_assoc, Nat.add_comm 1]

/-- An item that changed its lifecycle only. -/
theorem itemChanges_lifecycle {v v' : ItemView} (hv' : v' = v.withLifecycle v') (i : ℕ)
    (openIndex : Option ℕ) :
    itemChanges v i v' i openIndex = if v.lifecycle = v'.lifecycle then []
      else [v'.lifecycleChanged v.id openIndex] := by
  have hid : v'.id = v.id := by rw [hv']; rfl
  have hlist : v'.listId = v.listId := by rw [hv']; rfl
  have hsame : v'.text = v.text ∧ v'.notes = v.notes ∧ v'.deadline = v.deadline ∧
      v'.when = v.when ∧ v'.duration = v.duration ∧ v'.place = v.place := by
    rw [hv']
    exact ⟨rfl, rfl, rfl, rfl, rfl, rfl⟩
  obtain ⟨htext, hnotes, hdeadline, hwhen, hduration, hplace⟩ := hsame
  simp [itemChanges, hid, hlist, htext, hnotes, hdeadline, hwhen, hduration, hplace]

theorem eq_of_lifecycle {v v' : ItemView} (hv' : v' = v.withLifecycle v')
    (h : v.lifecycle = v'.lifecycle) : v' = v := by
  simp only [ItemView.lifecycle, Prod.mk.injEq] at h
  obtain ⟨hstate, hat, hstarted, hdone, hbinned⟩ := h
  rw [hv', ItemView.withLifecycle, ← hstate, ← hat, ← hstarted, ← hdone, ← hbinned]

theorem map_id_walk {V V' : List ItemView}
    (h : List.Forall₂ (fun v v' => v' = v.withLifecycle v') V V') :
    V'.map ItemView.id = V.map ItemView.id := by
  induction h with
  | nil => rfl
  | cons hv _ ih =>
    rw [List.map_cons, List.map_cons, ih, hv]
    rfl

/-- The items of the new walk from one position on. -/
theorem dispatchAll_walk {A A' V V' : List ItemView}
    (hA : List.Forall₂ (fun v v' => v' = v.withLifecycle v') A A')
    (hV : List.Forall₂ (fun v v' => v' = v.withLifecycle v') V V')
    (hnodup : ((A ++ V).map ItemView.id).Nodup) (focus : List String) :
    ∃ focus', (materialize (A' ++ V) lists settings focus).dispatchAll
        ((V'.zipIdx A'.length).flatMap fun p => itemArrival (A ++ V) (A' ++ V') p.1 p.2) =
      materialize (A' ++ V') lists settings focus' := by
  induction hV generalizing A A' focus with
  | nil => exact ⟨focus, rfl⟩
  | @cons v v' V V' hv hV ih =>
    have hid : v'.id = v.id := by rw [hv]; rfl
    have hlist : v'.listId = v.listId := by rw [hv]; rfl
    have hout : v.id ∉ A.map ItemView.id := by
      rw [List.map_append, List.map_cons] at hnodup
      exact fun hin => (List.nodup_append.1 hnodup).2.2 _ hin _ List.mem_cons_self rfl
    have hids := map_id_walk hA
    have hlen : A'.length = A.length := by
      rw [← List.length_map (f := ItemView.id), hids, List.length_map]
    have harrival : itemArrival (A ++ v :: V) (A' ++ v' :: V') v' A'.length =
        if v.lifecycle = v'.lifecycle then []
        else [v'.lifecycleChanged v.id
          (if v'.isOpen then some (openBefore A' v.listId) else none)] := by
      rw [itemArrival, find_zipIdx_middle hid.symm (by rw [hid]; exact hout), Nat.zero_add, ← hlen,
        List.take_left, hlist]
      exact itemChanges_lifecycle hv _ _
    have hstep : ∃ focus', (materialize (A' ++ v :: V) lists settings focus).dispatchAll
        (itemArrival (A ++ v :: V) (A' ++ v' :: V') v' A'.length) =
        materialize (A' ++ v' :: V) lists settings focus' := by
      rw [harrival]
      split_ifs with hsame
      · exact ⟨focus, by rw [eq_of_lifecycle hv hsame]; rfl⟩
      · refine dispatch_lifecycleChanged ?_ hv fun _ _ => rfl
        rw [List.map_append, hids, ← List.map_append]
        exact hnodup
      · refine dispatch_lifecycleChanged ?_ hv fun _ hopen => absurd hopen ‹_›
        rw [List.map_append, hids, ← List.map_append]
        exact hnodup
    obtain ⟨focus₁, hstep⟩ := hstep
    have hA₁ : List.Forall₂ (fun v v' => v' = v.withLifecycle v') (A ++ [v]) (A' ++ [v']) :=
      List.rel_append hA (.cons hv .nil)
    obtain ⟨focus₂, hrest⟩ := ih hA₁ (by rw [List.append_assoc]; exact hnodup) focus₁
    rw [List.append_assoc, List.append_assoc, List.append_assoc, List.length_append] at hrest
    refine ⟨focus₂, ?_⟩
    rw [List.zipIdx_cons, List.flatMap_cons, dispatchAll_append, hstep]
    exact hrest

/-- **The comparison of two walks** over the same items, of which some changed their lifecycle. -/
theorem dispatchAll_diffItems {V V' : List ItemView}
    (hV : List.Forall₂ (fun v v' => v' = v.withLifecycle v') V V')
    (hnodup : (V.map ItemView.id).Nodup) (focus : List String) :
    ∃ focus', (materialize V lists settings focus).dispatchAll (diffItems V V') =
      materialize V' lists settings focus' := by
  have hids := map_id_walk hV
  have hgone : (V.filter fun v => decide (v.id ∉ V'.map ItemView.id)) = [] := by
    refine List.filter_eq_nil_iff.2 fun v hv hout => ?_
    rw [hids] at hout
    exact of_decide_eq_true hout (List.mem_map_of_mem hv)
  rw [diffItems, hgone]
  exact dispatchAll_walk .nil hV hnodup focus

end WorkspaceState

/-! ## Both branches -/

/-- What a workspace shows of a document. -/
def workspaceOf (d : Document) (settings : Settings) (focus : List String) : WorkspaceState :=
  materialize d.iterItems d.content.allLists settings focus

/-- `drainEvents` of fewer events than are replaced by a snapshot: the focus order is read anew
after them. -/
def WorkspaceState.follow (s : WorkspaceState) (events : List AppEvent) (focus : List String) :
    WorkspaceState :=
  { s.dispatchAll events with focusOrder := focus }

section Branches

variable {d : Document} {write : LifecycleWrite} {now : ℤ} {lists : List ListView}
  {settings : Settings} {focus focus' : List String}

theorem lifecycle_of_itemView {m : ItemMap} {v : ItemView} (hv : itemView m = some v) (id : String)
    (openIndex : Option ℕ) : AppEvent.itemLifecycleChanged id m.workflowOf.1 m.workflowOf.2
      m.startedAt m.doneAt m.binnedAt openIndex = v.lifecycleChanged id openIndex := by
  obtain ⟨_, -, hv⟩ := Option.bind_eq_some_iff.1 hv
  obtain ⟨_, -, hv⟩ := Option.bind_eq_some_iff.1 hv
  obtain ⟨_, -, rfl⟩ := Option.map_eq_some_iff.1 hv
  rfl

variable (write now lists settings) in
/-- The event of one patched item. -/
theorem dispatchAll_patchEvent (hread : d.content.Legible) (h : Agrees d.content d.index)
    (id : String) (focus : List String) :
    ∃ focus', (materialize d.iterItems lists settings focus).dispatchAll
        (Document.patchEvent write now d id) =
      materialize (Document.syncLifecycle write now d id).iterItems lists settings focus' := by
  unfold Document.patchEvent Document.syncLifecycle
  cases hm : d.content.item id with
  | none => exact ⟨focus, rfl⟩
  | some m =>
    rw [Option.bind_some]
    cases hw : applyLifecycleWrite m write now with
    | none => exact ⟨focus, rfl⟩
    | some m' =>
      dsimp only
      have honly := applyLifecycleWrite_only hw
      obtain ⟨hloc, hcreated⟩ := applyLifecycleWrite_keeps hw
      have h' := agrees_syncOpenness h hm hloc hcreated
      have hread' := (Content.LifecycleOnly.setItem hm honly).legible hread
      set d' : Document :=
        { content := d.content.setItem id m', index := d.index.syncItemOpenness id m'.isOpen }
      obtain ⟨A, B, v, v', hwalk, hwalk', hid, hv, hv', hvonly⟩ :=
        walk_setItem d' hread h.mirrors h'.mirrors hm honly rfl
      have hnodup : ((A ++ v :: B).map ItemView.id).Nodup := by
        rw [← hwalk, iterItems_map_id hread h.mirrors]
        exact (h.mirrors.walk _).1
      rw [hwalk, hwalk', lifecycle_of_itemView hv', ← hid]
      refine WorkspaceState.dispatch_lifecycleChanged hnodup hvonly fun hclosed hopen => ?_
      have hslice : d.index.metas.get id = some (itemMeta m) := by
        rw [h.metas, Content.metaOf, hm]
        rfl
      have hlist : v'.listId = v.listId := by rw [hvonly]; rfl
      have hl : v.listId = (itemMeta m).listId := (itemView_isOpen hv).2
      have hnow : m'.isOpen = true := (itemView_isOpen hv').1.symm.trans hopen
      have hout : v.id ∉ (A.filter fun x => x.isOpen && x.listId == v.listId).map ItemView.id := by
        intro hin
        rw [List.map_append, List.map_cons] at hnodup
        exact (List.nodup_append.1 hnodup).2.2 _ (List.map_subset _ List.filter_sublist.subset hin) _
          List.mem_cons_self rfl
      have hopens := openItemIds_eq_walk (d := d') hread' h' v.listId
      rw [hwalk', List.filter_append, List.filter_cons_of_pos (by simp [hopen, hlist]),
        List.map_append, List.map_cons, show v'.id = v.id by rw [hvonly]; rfl] at hopens
      have hsynced := syncedOpenIndex_opens hslice ((itemView_isOpen hv).1.symm.trans hclosed)
      rw [hnow, hid, hsynced]
      have hd' : d.index.syncItemOpenness id true = d'.index := by rw [← hnow]
      rw [hd', ← hl, hopens, ← hid, findIdx_middle hout, List.length_map]
      rfl

variable (write now lists settings) in
/-- The events of a batch that is patched. -/
theorem dispatchAll_patchEvents (hread : d.content.Legible) (h : Agrees d.content d.index)
    (ids : List String) (focus : List String) :
    ∃ focus', (materialize d.iterItems lists settings focus).dispatchAll
        (Document.patchEvents write now d ids) =
      materialize (d.patchLifecycle ids write now).iterItems lists settings focus' := by
  induction ids generalizing d focus with
  | nil => exact ⟨focus, rfl⟩
  | cons id ids ih =>
    obtain ⟨focus₁, hstep⟩ := dispatchAll_patchEvent write now lists settings hread h id
      focus
    have hread' : (Document.syncLifecycle write now d id).content.Legible := by
      rw [syncLifecycle_content]
      exact (Content.LifecycleOnly.writeLifecycle d.content id).legible hread
    obtain ⟨focus₂, hrest⟩ := ih hread' (agrees_syncLifecycle h id) focus₁
    refine ⟨focus₂, ?_⟩
    rw [Document.patchEvents, WorkspaceState.dispatchAll_append, hstep]
    exact hrest

variable (write now lists settings) in
/-- The events of a batch that is rebuilt. -/
theorem dispatchAll_rebuildEvents (hread : d.content.Legible) (h : Agrees d.content d.index)
    (ids : List String) (focus : List String) :
    ∃ focus', (materialize d.iterItems lists settings focus).dispatchAll
        (Document.rebuildEvents write now d ids) =
      materialize (d.rebuildLifecycle ids write now).iterItems lists settings focus' := by
  have honly : d.content.LifecycleOnly (d.rebuildLifecycle ids write now).content := by
    rw [rebuildLifecycle_content]
    exact .foldl_writeLifecycle d.content ids
  have hnodup : (d.iterItems.map ItemView.id).Nodup := by
    rw [iterItems_map_id hread h.mirrors]
    exact (h.mirrors.walk _).1
  unfold Document.rebuildEvents
  split
  · exact WorkspaceState.dispatchAll_diffItems (walk_lifecycleOnly hread h.mirrors
      (agrees_rebuildLifecycle h ids).mirrors honly) hnodup focus
  · rename_i hnone
    refine ⟨focus, ?_⟩
    rw [Document.rebuildLifecycle, if_neg hnone]
    rfl

/-- **Both branches of a lifecycle batch** write the same containers, leave indexes that equal a
recomputation, and report events that bring the workspace to what it shows of the result. -/
theorem lifecycle_branches (h : Agrees d.content d.index) (hread : d.content.Legible)
    (ids : List String) :
    (d.patchLifecycle ids write now).content = (d.rebuildLifecycle ids write now).content ∧
      MatchesRecomputation (d.patchLifecycle ids write now).content
        (d.patchLifecycle ids write now).index ∧
      MatchesRecomputation (d.rebuildLifecycle ids write now).content
        (d.rebuildLifecycle ids write now).index ∧
      (workspaceOf d settings focus).follow (Document.patchEvents write now d ids) focus' =
        workspaceOf (d.patchLifecycle ids write now) settings focus' ∧
      (workspaceOf d settings focus).follow (Document.rebuildEvents write now d ids) focus' =
        workspaceOf (d.rebuildLifecycle ids write now) settings focus' ∧
      workspaceOf (d.patchLifecycle ids write now) settings focus' =
        workspaceOf (d.rebuildLifecycle ids write now) settings focus' := by
  have hpatch : Agrees (d.patchLifecycle ids write now).content _ := agrees_patchLifecycle h ids
  have hrebuild : Agrees (d.rebuildLifecycle ids write now).content _ :=
    agrees_rebuildLifecycle h ids
  have hcontent : (d.patchLifecycle ids write now).content =
      (d.rebuildLifecycle ids write now).content := by
    rw [patchLifecycle_content, rebuildLifecycle_content]
  have honly : d.content.LifecycleOnly (d.patchLifecycle ids write now).content := by
    rw [patchLifecycle_content]
    exact .foldl_writeLifecycle d.content ids
  have hlists : (d.patchLifecycle ids write now).content.allLists = d.content.allLists := by
    rw [Content.allLists, honly.lists]
    rfl
  have hwalk : (d.patchLifecycle ids write now).iterItems =
      (d.rebuildLifecycle ids write now).iterItems := by
    rw [Document.iterItems, Document.iterItems, hcontent,
      hrebuild.mirrors.walk_congr (hcontent ▸ hpatch.mirrors) (fun _ => rfl) rfl]
  obtain ⟨_, hfollow⟩ := dispatchAll_patchEvents write now d.content.allLists settings hread h
    ids focus
  obtain ⟨_, hfollow'⟩ := dispatchAll_rebuildEvents write now d.content.allLists settings hread h
    ids focus
  refine ⟨hcontent, hpatch.matches_recomputation, hrebuild.matches_recomputation, ?_, ?_, ?_⟩
  · rw [workspaceOf, WorkspaceState.follow, hfollow, workspaceOf, hlists]
    rfl
  · rw [workspaceOf, WorkspaceState.follow, hfollow', workspaceOf, ← hcontent, hlists]
    rfl
  · rw [workspaceOf, workspaceOf, hwalk, hcontent]

end Branches

/-! ## Two documents beyond the rule -/

/-- An item in the inbox that has no text yet. -/
def textless (id placement : String) : ItemMap :=
  { id := some id, location := some ("inbox:" ++ placement), createdAt := some 0 }

/-- A closed item between two open ones, of which the first does not read as an item. -/
def halfWritten : Content where
  items := ((FMap.empty.insert "u" (some (textless "u" "p"))).insert "x"
    (some { textless "x" "q" with text := some "x", lifecycle := some (4, 0) })).insert "y"
    (some { textless "y" "r" with text := some "y" })
  orders l := if l = "inbox" then [some "u:p", some "x:q", some "y:r"] else []
  lists := []

/-- The document with its computed index. -/
def halfWrittenDoc : Document :=
  ⟨halfWritten, halfWritten.computeIndexOver ["u", "x", "y"] ["inbox"]⟩

/-- One item in a list that has no row. -/
def rowless : Content where
  items := FMap.empty.insert "z"
    (some { textless "z" "p" with text := some "z", location := some "ghost:p" })
  orders l := if l = "ghost" then [some "z:p"] else []
  lists := []

/-- The document with its computed index. -/
def rowlessDoc : Document := ⟨rowless, rowless.computeIndexOver ["z"] ["inbox", "ghost"]⟩

/-- An item that does not read as one counts for the open position of another that is patched;
and a mirror that nothing is located under any more is lost when the index is rebuilt. -/
theorem lifecycle_branches_apart :
    (¬ ∀ (d : Document) (ids : List String) (write : LifecycleWrite) (now : ℤ)
      (settings : Settings) (focus focus' : List String), Agrees d.content d.index →
      ids.Nodup → ids.all d.hasItem = true →
      (workspaceOf d settings focus).follow (Document.patchEvents write now d ids) focus' =
        (workspaceOf d settings focus).follow (Document.rebuildEvents write now d ids) focus') ∧
    ¬ ∀ (d : Document) (ids : List String) (write : LifecycleWrite) (now : ℤ),
      Agrees d.content d.index → ids.Nodup → ids.all d.hasItem = true →
      (d.patchLifecycle ids write now).index = (d.rebuildLifecycle ids write now).index := by
  constructor
  · intro h
    have hsame := h halfWrittenDoc ["x"] (.set (some .todo)) 1 {} [] []
      (computed_computeIndexOver (by decide)).agrees (by decide) (by decide)
    have hlists := congrFun (congrArg WorkspaceState.listOpen hsame) "inbox"
    revert hlists
    decide
  · intro h
    have hrowless : Agrees rowlessDoc.content rowlessDoc.index :=
      (computed_computeIndexOver (by decide)).agrees
    have hmoved : rowlessDoc.moveItem "z" "inbox" 0 "q" =
        some (rowlessDoc.moveAcrossLists "z" _ "ghost" "inbox" 0 true "q") := rfl
    have hempty : rowlessDoc.content.slots "inbox" = [] := rfl
    have hfresh : ∀ e, some e ∈ rowlessDoc.content.slots "inbox" → e.itemId = "z" →
        e.placementId ≠ "q" := by
      rw [hempty]
      intro e he
      cases he
    have hlisted : ∀ slice, rowlessDoc.index.metas.get "z" = some slice →
        slice.listId ≠ "inbox" := by
      intro slice hslice
      rw [← Option.some.inj hslice]
      decide
    have hagrees := agrees_moveItem hrowless ⟨by decide, by decide, hfresh⟩
      (fun slice hslice => by
        rw [if_neg (hlisted slice hslice)]
        exact .inl (.inl rfl))
      hmoved
    have hsame := h _ ["z"] (.set (some .done)) 1 hagrees (by decide) (by decide)
    have hraw := congrArg (fun idx => (idx.rawOrders.get "ghost").isSome) hsame
    revert hraw
    decide

/-- Where every item reads as one, the workspace follows. -/
theorem lifecycle_branches_written :
    Content.Legible rowless ∧
      (workspaceOf rowlessDoc {} []).follow
          (Document.patchEvents (.set (some .done)) 1 rowlessDoc ["z"]) [] =
        workspaceOf (rowlessDoc.patchLifecycle ["z"] (.set (some .done)) 1) {} [] := by
  have hread : Content.Legible rowless := by
    intro id m hm
    by_cases hid : id = "z"
    · rw [hid] at hm ⊢
      rw [← Option.some.inj hm]
      exact ⟨_, rfl, rfl⟩
    · have hnone : rowless.item id = none := by
        rw [Content.item, rowless, FMap.get_insert, if_neg hid]
        rfl
      rw [hnone] at hm
      cases hm
  have hagrees : Agrees rowlessDoc.content rowlessDoc.index :=
    (computed_computeIndexOver (by decide)).agrees
  obtain ⟨-, -, -, hfollow, -⟩ := @lifecycle_branches _ (.set (some .done)) 1 {} [] [] hagrees hread ["z"]
  exact ⟨hread, hfollow⟩

end Monoplan.Web
