import Mathlib.Data.Finset.Card
import Mathlib.Data.Finset.Union
import Mathlib.Data.Prod.Lex
import Mathlib.Data.String.Basic
import Monoplan.Base.FMap
import Monoplan.Base.StableSort
import Monoplan.Doc.Content

/-!
# The search index

An in-memory inverted index over items and lists: every token of a query but the last must be
held, and the last is a prefix.

* `SearchIndex` holds the indexed documents and, for every token, who holds it.  Whatever is
  indexed and removed, the two agree (`Consistent`, `exec_consistent`).
* `query` intersects the postings and scores what is left a second time.  The two tests are
  one: `scoreDoc_eq` says when a document is scored and with which counts, `narrow_spec` what
  the postings let through.
* `query_spec`: a query returns exactly the documents that match it, best first.
-/

namespace Monoplan.Doc

open Monoplan.Base

/-! ## Tokens -/

/-- What folding rests on: the compatibility decomposition, and the Unicode tables. -/
structure Folding where
  nfkd : List Char → List Char
  isCombiningMark : Char → Bool
  isAlphanumeric : Char → Bool
  toLowercase : Char → List Char

/-- The loop variables of `tokenize`; `seen` holds what `out` holds. -/
structure TokenScan where
  out : List String
  cur : List Char

/-- The closure `flush`. -/
def TokenScan.flush (s : TokenScan) : TokenScan :=
  if s.cur.isEmpty then s
  else if String.ofList s.cur ∈ s.out then ⟨s.out, []⟩
  else ⟨s.out ++ [String.ofList s.cur], []⟩

/-- One round of `tokenize`. -/
def TokenScan.step (fold : Folding) (s : TokenScan) (c : Char) : TokenScan :=
  if fold.isCombiningMark c then s
  else if fold.isAlphanumeric c then ⟨s.out, s.cur ++ fold.toLowercase c⟩
  else s.flush

def tokenize (fold : Folding) (input : String) : List String :=
  ((fold.nfkd input.toList).foldl (TokenScan.step fold) ⟨[], []⟩).flush.out

/-- `starts_with`. -/
def startsWith (token head : String) : Bool := head.toList.isPrefixOf token.toList

/-! ## Documents -/

inductive SearchKind
  | item | list
  deriving DecidableEq

inductive ItemLifecycle
  | backlog | todo | inProgress | review | done | cancelled | binned
  deriving DecidableEq

/-- `ItemLifecycle::from`. -/
def WorkflowState.toLifecycle : WorkflowState → ItemLifecycle
  | backlog => .backlog
  | todo => .todo
  | inProgress => .inProgress
  | review => .review
  | done => .done
  | cancelled => .cancelled

/-- `ItemView::lifecycle`: the bin masks the state. -/
def ItemView.shownLifecycle (v : ItemView) : ItemLifecycle :=
  if v.binnedAt.isSome then .binned else v.state.toLifecycle

def lifecycleRank : Option ItemLifecycle → ℕ
  | some .inProgress => 5
  | some .review => 4
  | some .todo => 3
  | some .backlog => 2
  | some .done => 1
  | some .cancelled => 1
  | some .binned => 0
  | none => 0

/-- What is indexed of an item or a list.  The token sets are as `tokenize` lists them. -/
structure SearchDoc where
  id : String
  kind : SearchKind
  title : String
  body : String
  listId : Option String
  lifecycle : Option ItemLifecycle
  updatedAt : ℤ
  titleTokens : List String
  bodyTokens : List String
  contextTokens : List String
  deriving DecidableEq

def SearchDoc.allTokens (d : SearchDoc) : List String :=
  d.titleTokens ++ d.bodyTokens ++ d.contextTokens

/-- A hit. -/
structure SearchResult where
  id : String
  kind : SearchKind
  title : String
  body : Option String
  listId : Option String
  lifecycle : Option ItemLifecycle
  score : ℕ
  deriving DecidableEq

/-! ## The index -/

structure SearchIndex where
  docsById : FMap String SearchDoc
  postings : FMap String (Finset String)
  itemsByList : FMap String (Finset String)
  listNames : FMap String String

namespace SearchIndex

/-- `default`, and `clear`. -/
def empty : SearchIndex := ⟨.empty, .empty, .empty, .empty⟩

/-- `entry(key).or_default().insert(id)`. -/
def addTo (m : FMap String (Finset String)) (id key : String) : FMap String (Finset String) :=
  m.insert key (insert id ((m.get key).getD ∅))

/-- Take an id out of a set, and the set out of the map when it is empty. -/
def dropFrom (m : FMap String (Finset String)) (id key : String) : FMap String (Finset String) :=
  match m.get key with
  | none => m
  | some set => if set.erase id = ∅ then m.erase key else m.insert key (set.erase id)

/-- `remove`. -/
def remove (ix : SearchIndex) (id : String) : SearchIndex :=
  match ix.docsById.get id with
  | none => ix
  | some doc =>
    { ix with
      docsById := ix.docsById.erase id,
      postings := doc.allTokens.foldl (fun m t => dropFrom m id t) ix.postings,
      itemsByList :=
        match doc.listId with
        | none => ix.itemsByList
        | some l => dropFrom ix.itemsByList id l }

/-- `insert_doc`. -/
def insertDoc (ix : SearchIndex) (doc : SearchDoc) : SearchIndex :=
  { ix with
    docsById := ix.docsById.insert doc.id doc,
    postings := doc.allTokens.foldl (fun m t => addTo m doc.id t) ix.postings,
    itemsByList :=
      match doc.kind, doc.listId with
      | .item, some l => addTo ix.itemsByList doc.id l
      | _, _ => ix.itemsByList }

/-- `index_list`. -/
def indexList (fold : Folding) (ix : SearchIndex) (list : ListView) : SearchIndex :=
  (remove { ix with listNames := ix.listNames.insert list.id list.name } list.id).insertDoc
    { id := list.id, kind := .list, title := list.name, body := "", listId := none,
      lifecycle := none, updatedAt := list.createdAt, titleTokens := tokenize fold list.name,
      bodyTokens := [], contextTokens := [] }

/-- `remove_list`. -/
def removeList (ix : SearchIndex) (listId : String) : SearchIndex :=
  { ix.remove listId with listNames := (ix.remove listId).listNames.erase listId }

/-- `index_item`. -/
def indexItem (fold : Folding) (ix : SearchIndex) (item : ItemView) : SearchIndex :=
  (ix.remove item.id).insertDoc
    { id := item.id, kind := .item, title := item.text, body := item.notes,
      listId := if item.listId.isEmpty then none else some item.listId,
      lifecycle := some item.shownLifecycle,
      updatedAt := item.binnedAt.getD item.lifecycleAt,
      titleTokens := tokenize fold item.text, bodyTokens := tokenize fold item.notes,
      contextTokens := tokenize fold (((ix.remove item.id).listNames.get item.listId).getD "") }

/-- `rebuild`. -/
def rebuild (fold : Folding) (lists : List ListView) (items : List ItemView) : SearchIndex :=
  items.foldl (indexItem fold) (lists.foldl (indexList fold) empty)

/-- What changes an index. -/
inductive Upkeep
  | clear
  | rebuild (lists : List ListView) (items : List ItemView)
  | indexList (list : ListView)
  | removeList (listId : String)
  | indexItem (item : ItemView)
  | remove (id : String)

/-- An index as a machine. -/
def upkeep (fold : Folding) (ix : SearchIndex) : Upkeep → SearchIndex
  | .clear => empty
  | .rebuild lists items => rebuild fold lists items
  | .indexList list => ix.indexList fold list
  | .removeList listId => ix.removeList listId
  | .indexItem item => ix.indexItem fold item
  | .remove id => ix.remove id

/-! ## Queries -/

/-- `intersect`. -/
def intersect (a : Option (Finset String)) (b : Finset String) : Finset String :=
  match a with
  | none => b
  | some a => if a.card ≤ b.card then a.filter (· ∈ b) else b.filter (· ∈ a)

/-- The loop over the exact tokens; `none` where `query` returns early. -/
def narrow (ix : SearchIndex) : Option (Finset String) → List String →
    Option (Option (Finset String))
  | candidates, [] => some candidates
  | candidates, t :: ts =>
    match ix.postings.get t with
    | none => none
    | some set =>
      if intersect candidates set = ∅ then none
      else ix.narrow (some (intersect candidates set)) ts

/-- `prefix_candidates`. -/
def prefixCandidates (ix : SearchIndex) (head : String) : Finset String :=
  (ix.postings.keys.filter fun token => startsWith token head = true).biUnion fun token =>
    (ix.postings.get token).getD ∅

end SearchIndex

/-- `any_starts_with`. -/
def anyStartsWith (set : List String) (head : String) : Bool :=
  set.any fun t => startsWith t head

/-- How many tokens fell to each bucket. -/
structure BucketCounts where
  titleExact : ℕ
  titlePrefix : ℕ
  bodyHits : ℕ
  contextHits : ℕ
  deriving DecidableEq

/-- The loop over the exact tokens in `score_doc`. -/
def scoreExact (d : SearchDoc) : BucketCounts → List String → Option BucketCounts
  | b, [] => some b
  | b, t :: ts =>
    if t ∈ d.titleTokens then scoreExact d { b with titleExact := b.titleExact + 1 } ts
    else if t ∈ d.bodyTokens then scoreExact d { b with bodyHits := b.bodyHits + 1 } ts
    else if t ∈ d.contextTokens then scoreExact d { b with contextHits := b.contextHits + 1 } ts
    else none

/-- The last token in `score_doc`. -/
def scoreFinal (d : SearchDoc) (final : String) (b : BucketCounts) : Option BucketCounts :=
  if final ∈ d.titleTokens then some { b with titleExact := b.titleExact + 1 }
  else if anyStartsWith d.titleTokens final then
    some { b with titlePrefix := b.titlePrefix + 1 }
  else if final ∈ d.bodyTokens ∨ anyStartsWith d.bodyTokens final then
    some { b with bodyHits := b.bodyHits + 1 }
  else if final ∈ d.contextTokens ∨ anyStartsWith d.contextTokens final then
    some { b with contextHits := b.contextHits + 1 }
  else none

structure Scored where
  doc : SearchDoc
  buckets : BucketCounts
  score : ℕ
  deriving DecidableEq

/-- `score_doc`. -/
def scoreDoc (exact : List String) (final : String) (d : SearchDoc) : Option Scored :=
  (scoreExact d ⟨0, 0, 0, 0⟩ exact).bind fun b => (scoreFinal d final b).map fun b =>
    ⟨d, b, b.titleExact * 10000 + b.titlePrefix * 1000 + b.bodyHits * 100 + b.contextHits * 10 +
      lifecycleRank d.lifecycle⟩

/-- The comparison of `query`. -/
def cmpScored (a b : Scored) : Ordering :=
  (compare b.buckets.titleExact a.buckets.titleExact).then <|
  (compare b.buckets.titlePrefix a.buckets.titlePrefix).then <|
  (compare b.buckets.bodyHits a.buckets.bodyHits).then <|
  (compare b.buckets.contextHits a.buckets.contextHits).then <|
  (compare (lifecycleRank b.doc.lifecycle) (lifecycleRank a.doc.lifecycle)).then <|
  (compare b.doc.updatedAt a.doc.updatedAt).then <|
  compare a.doc.id b.doc.id

/-- The hit for a scored document. -/
def Scored.result (s : Scored) : SearchResult where
  id := s.doc.id
  kind := s.doc.kind
  title := s.doc.title
  body := if s.doc.body.isEmpty then none else some s.doc.body
  listId := s.doc.listId
  lifecycle := s.doc.lifecycle
  score := s.score

/-- The order a hash set is iterated in: any, but every member once. -/
structure Iteration where
  order : Finset String → List String
  nodup : ∀ s, (order s).Nodup
  mem_order : ∀ s a, a ∈ order s ↔ a ∈ s

/-- `query`. -/
def SearchIndex.query (it : Iteration) (fold : Folding) (ix : SearchIndex) (input : String)
    (limit : ℕ) : List SearchResult :=
  match (tokenize fold input).getLast? with
  | none => []
  | some final =>
    match ix.narrow none (tokenize fold input).dropLast with
    | none => []
    | some candidates =>
      if ix.prefixCandidates final = ∅ then []
      else
        let candidates := SearchIndex.intersect candidates (ix.prefixCandidates final)
        let scored := ((it.order candidates).filterMap ix.docsById.get).filterMap
          (scoreDoc (tokenize fold input).dropLast final)
        ((sortBy cmpScored scored).take limit).map Scored.result

/-! ## What the index holds -/

namespace SearchIndex

/-- Who holds a token. -/
def posted (m : FMap String (Finset String)) (t : String) : Finset String := (m.get t).getD ∅

/-- The postings are those of the documents, which are under their ids. -/
structure Consistent (ix : SearchIndex) : Prop where
  keyed : ∀ id d, ix.docsById.get id = some d → d.id = id
  posted : ∀ t id, id ∈ posted ix.postings t ↔
    ∃ d, ix.docsById.get id = some d ∧ t ∈ d.allTokens

theorem posted_addTo (m : FMap String (Finset String)) (id key t : String) :
    posted (addTo m id key) t = if t = key then insert id (posted m t) else posted m t := by
  unfold posted addTo
  rw [FMap.get_insert]
  split
  · rename_i h
    rw [h, Option.getD_some]
  · rfl

theorem posted_dropFrom (m : FMap String (Finset String)) (id key t : String) :
    posted (dropFrom m id key) t = if t = key then (posted m t).erase id else posted m t := by
  unfold posted dropFrom
  cases hkey : m.get key with
  | none =>
    dsimp only
    split
    · rename_i h
      rw [h, hkey]
      rfl
    · rfl
  | some set =>
    dsimp only
    split
    · rename_i hempty
      rw [FMap.get_erase]
      split
      · rename_i h
        rw [h, hkey, Option.getD_none, Option.getD_some, hempty]
      · rfl
    · rw [FMap.get_insert]
      split
      · rename_i h
        rw [h, hkey, Option.getD_some, Option.getD_some]
      · rfl

theorem mem_foldl_addTo (ts : List String) (m : FMap String (Finset String)) (id t i : String) :
    i ∈ posted (ts.foldl (fun m t => addTo m id t) m) t ↔
      i ∈ posted m t ∨ i = id ∧ t ∈ ts := by
  induction ts generalizing m with
  | nil => simp
  | cons u ts ih =>
    rw [List.foldl_cons, ih, posted_addTo, List.mem_cons]
    split
    · rename_i h
      rw [Finset.mem_insert]
      tauto
    · rename_i h
      tauto

theorem mem_foldl_dropFrom (ts : List String) (m : FMap String (Finset String))
    (id t i : String) :
    i ∈ posted (ts.foldl (fun m t => dropFrom m id t) m) t ↔
      i ∈ posted m t ∧ ¬ (i = id ∧ t ∈ ts) := by
  induction ts generalizing m with
  | nil => simp
  | cons u ts ih =>
    rw [List.foldl_cons, ih, posted_dropFrom, List.mem_cons]
    split
    · rename_i h
      rw [Finset.mem_erase]
      tauto
    · rename_i h
      tauto

theorem consistent_empty : Consistent empty where
  keyed id d h := by cases h
  posted t id := by simp [SearchIndex.posted, empty]

theorem Consistent.remove {ix : SearchIndex} (h : ix.Consistent) (id : String) :
    (ix.remove id).Consistent ∧ (ix.remove id).docsById.get id = none := by
  unfold SearchIndex.remove
  cases hdoc : ix.docsById.get id with
  | none => exact ⟨h, hdoc⟩
  | some doc =>
    refine ⟨⟨fun j d hj => ?_, fun t j => ?_⟩, FMap.get_erase_self _ _⟩
    · rw [FMap.get_erase] at hj
      split at hj
      · cases hj
      · exact h.keyed j d hj
    · rw [mem_foldl_dropFrom, h.posted, FMap.get_erase]
      split
      · rename_i hji
        refine iff_of_false ?_ (by simp)
        rintro ⟨⟨d, hd, ht⟩, hnot⟩
        rw [hji, hdoc, Option.some.injEq] at hd
        exact hnot ⟨hji, hd ▸ ht⟩
      · rename_i hji
        exact and_iff_left fun hboth => hji hboth.1

theorem Consistent.insertDoc {ix : SearchIndex} (h : ix.Consistent) {doc : SearchDoc}
    (hnone : ix.docsById.get doc.id = none) : (ix.insertDoc doc).Consistent := by
  unfold SearchIndex.insertDoc
  refine ⟨fun j d hj => ?_, fun t j => ?_⟩
  · rw [FMap.get_insert] at hj
    split at hj
    · rename_i hji
      rw [← Option.some.inj hj, hji]
    · exact h.keyed j d hj
  · rw [mem_foldl_addTo, h.posted, FMap.get_insert]
    split
    · rename_i hji
      constructor
      · rintro (⟨d, hd, -⟩ | ⟨-, ht⟩)
        · rw [hji, hnone] at hd
          cases hd
        · exact ⟨doc, rfl, ht⟩
      · rintro ⟨d, hd, ht⟩
        exact .inr ⟨hji, Option.some.inj hd ▸ ht⟩
    · rename_i hji
      exact or_iff_left fun hboth => hji hboth.1

theorem Consistent.indexList {ix : SearchIndex} (h : ix.Consistent) (fold : Folding)
    (list : ListView) : (ix.indexList fold list).Consistent := by
  have hnamed : Consistent { ix with listNames := ix.listNames.insert list.id list.name } :=
    ⟨h.keyed, h.posted⟩
  exact (hnamed.remove list.id).1.insertDoc (hnamed.remove list.id).2

theorem Consistent.indexItem {ix : SearchIndex} (h : ix.Consistent) (fold : Folding)
    (item : ItemView) : (ix.indexItem fold item).Consistent :=
  (h.remove item.id).1.insertDoc (h.remove item.id).2

theorem Consistent.foldl {α : Type*} {f : SearchIndex → α → SearchIndex}
    (hf : ∀ ix a, Consistent ix → Consistent (f ix a)) {ix : SearchIndex} (h : ix.Consistent)
    (as : List α) : (as.foldl f ix).Consistent := by
  induction as generalizing ix with
  | nil => exact h
  | cons a as ih => exact ih (hf ix a h)

/-- **Every change keeps the index consistent.** -/
theorem Consistent.upkeep {ix : SearchIndex} (h : ix.Consistent) (fold : Folding) (u : Upkeep) :
    (ix.upkeep fold u).Consistent := by
  cases u with
  | clear => exact consistent_empty
  | rebuild lists items =>
    exact Consistent.foldl (fun ix it h => h.indexItem fold it)
      (Consistent.foldl (fun ix l h => h.indexList fold l) consistent_empty lists) items
  | indexList list => exact h.indexList fold list
  | removeList listId => exact ⟨(h.remove listId).1.keyed, (h.remove listId).1.posted⟩
  | indexItem item => exact h.indexItem fold item
  | remove id => exact (h.remove id).1

/-- **Any history of changes leaves it consistent.** -/
theorem exec_consistent (fold : Folding) (us : List Upkeep) :
    Consistent (us.foldl (upkeep fold) empty) :=
  Consistent.foldl (fun _ u h => h.upkeep fold u) consistent_empty us

/-! ## What a query lets through -/

/-- The id is among the candidates so far; all are before the first token. -/
def Among (candidates : Option (Finset String)) (id : String) : Prop :=
  ∀ s ∈ candidates, id ∈ s

theorem mem_intersect (a : Option (Finset String)) (b : Finset String) (id : String) :
    id ∈ intersect a b ↔ Among a id ∧ id ∈ b := by
  unfold intersect Among
  cases a with
  | none => simp
  | some a =>
    dsimp only
    split
    · simp
    · simp [and_comm]

/-- **The postings let through who holds every token**, and no one where the loop returns
early. -/
theorem narrow_spec (ix : SearchIndex) (candidates : Option (Finset String)) (ts : List String)
    (id : String) :
    (∃ c, ix.narrow candidates ts = some c ∧ Among c id) ↔
      Among candidates id ∧ ∀ t ∈ ts, id ∈ posted ix.postings t := by
  induction ts generalizing candidates with
  | nil => simp [narrow]
  | cons t ts ih =>
    rw [narrow]
    cases hset : ix.postings.get t with
    | none =>
      refine iff_of_false (by simp) fun hall => ?_
      have hmem := hall.2 t List.mem_cons_self
      rw [posted, hset] at hmem
      simp at hmem
    | some set =>
      have hposted : posted ix.postings t = set := by rw [posted, hset, Option.getD_some]
      have hnext : Among (some (intersect candidates set)) id ↔
          Among candidates id ∧ id ∈ posted ix.postings t := by
        rw [hposted, ← mem_intersect]
        simp [Among]
      dsimp only
      split
      · rename_i hempty
        refine iff_of_false (by simp) fun hall => ?_
        have hin := hnext.2 ⟨hall.1, hall.2 t List.mem_cons_self⟩ _ rfl
        rw [hempty] at hin
        simp at hin
      · rw [ih, hnext, List.forall_mem_cons, and_assoc]

theorem mem_prefixCandidates (ix : SearchIndex) (head id : String) :
    id ∈ ix.prefixCandidates head ↔
      ∃ t, startsWith t head = true ∧ id ∈ posted ix.postings t := by
  rw [prefixCandidates, Finset.mem_biUnion]
  constructor
  · rintro ⟨t, ht, hid⟩
    exact ⟨t, (Finset.mem_filter.1 ht).2, hid⟩
  · rintro ⟨t, ht, hid⟩
    refine ⟨t, Finset.mem_filter.2 ⟨?_, ht⟩, hid⟩
    rw [FMap.mem_keys]
    cases hget : ix.postings.get t with
    | none => simp [posted, hget] at hid
    | some set => rfl

end SearchIndex

/-! ## What a query asks for -/

/-- Every token but the last is held, and the last is a prefix of one. -/
def SearchDoc.Matches (exact : List String) (final : String) (d : SearchDoc) : Prop :=
  (∀ t ∈ exact, t ∈ d.allTokens) ∧ ∃ t ∈ d.allTokens, startsWith t final = true

/-- How many tokens are found in the title, at the head of a word of it, in the body, and in the
context: each where it is found first. -/
def bucketsOf (exact : List String) (final : String) (d : SearchDoc) : BucketCounts where
  titleExact := (exact.filter fun t => decide (t ∈ d.titleTokens)).length +
    if final ∈ d.titleTokens then 1 else 0
  titlePrefix := if final ∉ d.titleTokens ∧ anyStartsWith d.titleTokens final then 1 else 0
  bodyHits := (exact.filter fun t => decide (t ∉ d.titleTokens ∧ t ∈ d.bodyTokens)).length +
    if ¬ anyStartsWith d.titleTokens final ∧ anyStartsWith d.bodyTokens final then 1 else 0
  contextHits :=
    (exact.filter fun t => decide (t ∉ d.titleTokens ∧ t ∉ d.bodyTokens)).length +
      if ¬ anyStartsWith d.titleTokens final ∧ ¬ anyStartsWith d.bodyTokens final then 1 else 0

/-- The document as it is scored. -/
def scoredOf (exact : List String) (final : String) (d : SearchDoc) : Scored where
  doc := d
  buckets := bucketsOf exact final d
  score := (bucketsOf exact final d).titleExact * 10000 +
    (bucketsOf exact final d).titlePrefix * 1000 + (bucketsOf exact final d).bodyHits * 100 +
    (bucketsOf exact final d).contextHits * 10 + lifecycleRank d.lifecycle

/-- Where a document stands: more exact title tokens first, then more title prefixes, body and
context tokens, the livelier, the more recent, and last the smaller id. -/
def Scored.standing (s : Scored) : Lex (List ℤ × String) :=
  toLex ([-(s.buckets.titleExact : ℤ), -(s.buckets.titlePrefix : ℤ), -(s.buckets.bodyHits : ℤ),
    -(s.buckets.contextHits : ℤ), -(lifecycleRank s.doc.lifecycle : ℤ), -s.doc.updatedAt], s.doc.id)

/-- The document comes before the other one. -/
def Outranks (exact : List String) (final : String) (a b : SearchDoc) : Prop :=
  (scoredOf exact final a).standing < (scoredOf exact final b).standing

theorem startsWith_self (t : String) : startsWith t t = true := by
  rw [startsWith, List.isPrefixOf_iff_prefix]

theorem anyStartsWith_of_mem {set : List String} {final : String} (h : final ∈ set) :
    anyStartsWith set final = true :=
  List.any_eq_true.2 ⟨final, h, startsWith_self final⟩

/-- The exact tokens, found where they are found first. -/
theorem scoreExact_eq (d : SearchDoc) (b : BucketCounts) (ts : List String)
    (h : ∀ t ∈ ts, t ∈ d.allTokens) :
    scoreExact d b ts = some
      { titleExact := b.titleExact + (ts.filter fun t => decide (t ∈ d.titleTokens)).length,
        titlePrefix := b.titlePrefix,
        bodyHits := b.bodyHits +
          (ts.filter fun t => decide (t ∉ d.titleTokens ∧ t ∈ d.bodyTokens)).length,
        contextHits := b.contextHits +
          (ts.filter fun t => decide (t ∉ d.titleTokens ∧ t ∉ d.bodyTokens)).length } := by
  induction ts generalizing b with
  | nil => rfl
  | cons t ts ih =>
    have hrest := fun b => ih b fun u hu => h u (List.mem_cons_of_mem _ hu)
    rw [scoreExact]
    by_cases htitle : t ∈ d.titleTokens
    · rw [if_pos htitle, hrest]
      simp only [List.filter_cons, htitle, not_true, false_and, decide_true, decide_false, if_true,
        Bool.false_eq_true, if_false, List.length_cons]
      congr 2
      omega
    · rw [if_neg htitle]
      by_cases hbody : t ∈ d.bodyTokens
      · rw [if_pos hbody, hrest]
        simp only [List.filter_cons, htitle, hbody, not_true, not_false_iff, and_false, and_true,
          decide_true, decide_false, if_true, Bool.false_eq_true, if_false, List.length_cons]
        congr 2
        omega
      · have hcontext : t ∈ d.contextTokens := by
          have hall := h t List.mem_cons_self
          rw [SearchDoc.allTokens, List.mem_append, List.mem_append] at hall
          tauto
        rw [if_neg hbody, if_pos hcontext, hrest]
        simp only [List.filter_cons, htitle, hbody, not_false_iff, and_false, and_true,
          decide_true, decide_false, if_true, Bool.false_eq_true, if_false, List.length_cons]
        congr 2
        omega

theorem mem_of_scoreExact {d : SearchDoc} {b b' : BucketCounts} {ts : List String}
    (h : scoreExact d b ts = some b') : ∀ t ∈ ts, t ∈ d.allTokens := by
  induction ts generalizing b with
  | nil => simp
  | cons t ts ih =>
    rw [scoreExact] at h
    rw [List.forall_mem_cons, SearchDoc.allTokens, List.mem_append, List.mem_append]
    split at h
    · rename_i htitle
      exact ⟨.inl (.inl htitle), ih h⟩
    · split at h
      · rename_i hbody
        exact ⟨.inl (.inr hbody), ih h⟩
      · split at h
        · rename_i hcontext
          exact ⟨.inr hcontext, ih h⟩
        · cases h

/-- The last token is a prefix somewhere. -/
theorem exists_startsWith_iff (d : SearchDoc) (final : String) :
    (∃ t ∈ d.allTokens, startsWith t final = true) ↔
      anyStartsWith d.titleTokens final = true ∨ anyStartsWith d.bodyTokens final = true ∨
        anyStartsWith d.contextTokens final = true := by
  rw [← List.any_eq_true, SearchDoc.allTokens, List.any_append, List.any_append, Bool.or_eq_true,
    Bool.or_eq_true, or_assoc]
  rfl

/-- The last token, found where it is found first. -/
theorem scoreFinal_eq (exact : List String) (final : String) (d : SearchDoc) :
    scoreFinal d final
      { titleExact := (exact.filter fun t => decide (t ∈ d.titleTokens)).length,
        titlePrefix := 0,
        bodyHits := (exact.filter fun t => decide (t ∉ d.titleTokens ∧ t ∈ d.bodyTokens)).length,
        contextHits :=
          (exact.filter fun t => decide (t ∉ d.titleTokens ∧ t ∉ d.bodyTokens)).length } =
      if ∃ t ∈ d.allTokens, startsWith t final = true then some (bucketsOf exact final d)
      else none := by
  have hhas := exists_startsWith_iff d final
  unfold scoreFinal bucketsOf
  by_cases htitle : final ∈ d.titleTokens
  · have hstarts := anyStartsWith_of_mem htitle
    rw [if_pos htitle, if_pos (hhas.2 (.inl hstarts))]
    simp [htitle, hstarts]
  · rw [if_neg htitle]
    by_cases hhead : anyStartsWith d.titleTokens final = true
    · rw [if_pos hhead, if_pos (hhas.2 (.inl hhead))]
      simp [htitle, hhead]
    · rw [if_neg hhead]
      have hbody : (final ∈ d.bodyTokens ∨ anyStartsWith d.bodyTokens final = true) ↔
          anyStartsWith d.bodyTokens final = true :=
        or_iff_right_of_imp anyStartsWith_of_mem
      have hcontext : (final ∈ d.contextTokens ∨ anyStartsWith d.contextTokens final = true) ↔
          anyStartsWith d.contextTokens final = true :=
        or_iff_right_of_imp anyStartsWith_of_mem
      by_cases hb : anyStartsWith d.bodyTokens final = true
      · rw [if_pos (hbody.2 hb), if_pos (hhas.2 (.inr (.inl hb)))]
        simp [htitle, hhead, hb]
      · rw [if_neg (mt hbody.1 hb)]
        by_cases hc : anyStartsWith d.contextTokens final = true
        · rw [if_pos (hcontext.2 hc), if_pos (hhas.2 (.inr (.inr hc)))]
          simp [htitle, hhead, hb]
        · rw [if_neg (mt hcontext.1 hc), if_neg]
          rw [hhas]
          tauto

/-- **The score agrees with the postings**: a document is scored exactly when it matches, and each
token counts where it is found first. -/
theorem scoreDoc_eq (exact : List String) (final : String) (d : SearchDoc) (s : Scored) :
    scoreDoc exact final d = some s ↔ d.Matches exact final ∧ s = scoredOf exact final d := by
  by_cases hexact : ∀ t ∈ exact, t ∈ d.allTokens
  · have hmatch : d.Matches exact final ↔ ∃ t ∈ d.allTokens, startsWith t final = true :=
      and_iff_right hexact
    rw [scoreDoc, scoreExact_eq d _ exact hexact, Option.bind_some, hmatch]
    simp only [Nat.zero_add]
    rw [scoreFinal_eq]
    split
    · rename_i hhas
      rw [Option.map_some, Option.some.injEq, eq_comm]
      exact (and_iff_right hhas).symm
    · rename_i hhas
      exact iff_of_false (by simp) fun h => hhas h.1
  · have hnone : scoreExact d ⟨0, 0, 0, 0⟩ exact = none := by
      cases hsome : scoreExact d ⟨0, 0, 0, 0⟩ exact with
      | none => rfl
      | some b => exact absurd (mem_of_scoreExact hsome) hexact
    rw [scoreDoc, hnone]
    exact iff_of_false (by simp) fun h => hexact h.1.1

/-! ## Order -/

theorem isLE_then {α : Type*} [LinearOrder α] (x y : α) (o : Ordering) :
    ((compare x y).then o).isLE = true ↔ x < y ∨ x = y ∧ o.isLE = true := by
  rcases lt_trichotomy x y with h | h | h
  · rw [compare_lt_iff_lt.2 h]
    exact iff_of_true rfl (.inl h)
  · rw [compare_eq_iff_eq.2 h]
    exact ⟨fun ho => .inr ⟨h, ho⟩, fun ho => (ho.resolve_left (h ▸ lt_irrefl _)).2⟩
  · rw [compare_gt_iff_gt.2 h]
    exact iff_of_false (by simp [Ordering.then]) fun ho =>
      ho.elim (fun hlt => lt_asymm h hlt) fun heq => absurd heq.1 h.ne'

theorem lex_cons_le {x y : ℤ} {xs ys : List ℤ} {i j : String} :
    toLex (x :: xs, i) ≤ toLex (y :: ys, j) ↔ x < y ∨ x = y ∧ toLex (xs, i) ≤ toLex (ys, j) := by
  rw [Prod.Lex.toLex_le_toLex, Prod.Lex.toLex_le_toLex]
  simp only [List.cons_lt_cons_iff, List.cons.injEq]
  tauto

theorem isLE_cmpScored (a b : Scored) :
    (cmpScored a b).isLE = true ↔ a.standing ≤ b.standing := by
  have hnat : ∀ x y : ℕ, (-(x : ℤ) < -(y : ℤ) ↔ y < x) ∧ (-(x : ℤ) = -(y : ℤ) ↔ y = x) :=
    fun x y => ⟨by omega, by omega⟩
  have hint : ∀ x y : ℤ, (-x < -y ↔ y < x) ∧ (-x = -y ↔ y = x) :=
    fun x y => ⟨by omega, by omega⟩
  have hend : ∀ i j : String, (compare i j).isLE = true ↔
      toLex (([] : List ℤ), i) ≤ toLex (([] : List ℤ), j) := by
    intro i j
    rw [Prod.Lex.toLex_le_toLex]
    have hle := isLE_then i j .eq
    rw [Ordering.then_eq] at hle
    rw [hle]
    simp [le_iff_lt_or_eq]
  unfold cmpScored Scored.standing
  simp only [isLE_then, lex_cons_le, (hnat _ _).1, (hnat _ _).2, (hint _ _).1, (hint _ _).2, hend]

/-! ## The result -/

namespace SearchIndex

section Query

variable {it : Iteration} {fold : Folding} {ix : SearchIndex} {input final : String}
  {exact : List String} {limit : ℕ}

/-- The scored candidates are the indexed documents that match. -/
theorem mem_scored (h : ix.Consistent) {candidates : Option (Finset String)}
    (hnarrow : ix.narrow none exact = some candidates) (s : Scored) :
    s ∈ ((it.order (intersect candidates (ix.prefixCandidates final))).filterMap
        ix.docsById.get).filterMap (scoreDoc exact final) ↔
      ∃ d, ix.docsById.get d.id = some d ∧ d.Matches exact final ∧
        s = scoredOf exact final d := by
  have hamong : ∀ id, Among candidates id ↔ ∀ t ∈ exact, id ∈ posted ix.postings t := by
    intro id
    have hspec := ix.narrow_spec none exact id
    rw [hnarrow] at hspec
    simpa [Among] using hspec
  rw [List.mem_filterMap]
  constructor
  · rintro ⟨d, hd, hs⟩
    obtain ⟨id, -, hget⟩ := List.mem_filterMap.1 hd
    obtain ⟨hmatch, heq⟩ := (scoreDoc_eq exact final d s).1 hs
    exact ⟨d, h.keyed id d hget ▸ hget, hmatch, heq⟩
  · rintro ⟨d, hget, hmatch, rfl⟩
    refine ⟨d, List.mem_filterMap.2 ⟨d.id, ?_, hget⟩, (scoreDoc_eq exact final d _).2 ⟨hmatch, rfl⟩⟩
    -- whoever matches is in every posting the query looks at
    have hposted : ∀ t ∈ d.allTokens, d.id ∈ posted ix.postings t :=
      fun t ht => (h.posted t d.id).2 ⟨d, hget, ht⟩
    rw [it.mem_order, mem_intersect, hamong, mem_prefixCandidates]
    obtain ⟨t, ht, hstarts⟩ := hmatch.2
    exact ⟨fun u hu => hposted u (hmatch.1 u hu), t, hstarts, hposted t ht⟩

/-- Where the loop returns early, or nothing has the prefix, nothing matches. -/
theorem no_match (h : ix.Consistent)
    (hearly : ix.narrow none exact = none ∨ ix.prefixCandidates final = ∅) (d : SearchDoc) :
    ¬ (ix.docsById.get d.id = some d ∧ d.Matches exact final) := by
  rintro ⟨hget, hexact, t, ht, hstarts⟩
  have hposted : ∀ t ∈ d.allTokens, d.id ∈ posted ix.postings t :=
    fun t ht => (h.posted t d.id).2 ⟨d, hget, ht⟩
  rcases hearly with hnone | hempty
  · have hspec := (ix.narrow_spec none exact d.id).2
      ⟨by simp [Among], fun u hu => hposted u (hexact u hu)⟩
    rw [hnone] at hspec
    simp at hspec
  · have hmem := (ix.mem_prefixCandidates final d.id).2 ⟨t, hstarts, hposted t ht⟩
    rw [hempty] at hmem
    simp at hmem

/-- **A query is an AND with a prefix tail**: over a consistent index it returns the documents
that match, best first, each once. -/
theorem query_of_consistent (h : ix.Consistent) (htokens : tokenize fold input = exact ++ [final]) :
    ∃ L : List SearchDoc,
      (∀ d, d ∈ L ↔ ix.docsById.get d.id = some d ∧ d.Matches exact final) ∧
      (L.map SearchDoc.id).Nodup ∧ L.Pairwise (Outranks exact final) ∧
      ix.query it fold input limit =
        (L.take limit).map fun d => (scoredOf exact final d).result := by
  have hlast : (tokenize fold input).getLast? = some final := by rw [htokens, List.getLast?_concat]
  have hinit : (tokenize fold input).dropLast = exact := by rw [htokens, List.dropLast_concat]
  have hnil : (ix.narrow none exact = none ∨ ix.prefixCandidates final = ∅) →
      ix.query it fold input limit = [] → ∃ L : List SearchDoc,
      (∀ d, d ∈ L ↔ ix.docsById.get d.id = some d ∧ d.Matches exact final) ∧
      (L.map SearchDoc.id).Nodup ∧ L.Pairwise (Outranks exact final) ∧
      ix.query it fold input limit =
        (L.take limit).map fun d => (scoredOf exact final d).result := by
    intro hearly hquery
    refine ⟨[], fun d => iff_of_false (by simp) (no_match h hearly d), List.nodup_nil,
      List.Pairwise.nil, by rw [hquery]; simp⟩
  cases hnarrow : ix.narrow none exact with
  | none =>
    refine hnil (.inl hnarrow) ?_
    simp only [SearchIndex.query, hlast, hinit, hnarrow]
  | some candidates =>
    by_cases hempty : ix.prefixCandidates final = ∅
    · refine hnil (.inr hempty) ?_
      simp only [SearchIndex.query, hlast, hinit, hnarrow, if_pos hempty]
    · have hmem : ∀ s, s ∈ ((it.order (intersect candidates
          (ix.prefixCandidates final))).filterMap ix.docsById.get).filterMap
            (scoreDoc exact final) ↔
          ∃ d, ix.docsById.get d.id = some d ∧ d.Matches exact final ∧
            s = scoredOf exact final d := mem_scored h hnarrow
      set scored := ((it.order (intersect candidates (ix.prefixCandidates final))).filterMap
        ix.docsById.get).filterMap (scoreDoc exact final) with hscored
      have hdoc : ∀ s ∈ scored, s = scoredOf exact final s.doc := by
        intro s hs
        obtain ⟨d, -, -, rfl⟩ := (hmem s).1 hs
        rfl
      have hsame : ∀ s ∈ scored, ∀ t ∈ scored, s.doc.id = t.doc.id → s = t := by
        intro s hs t ht hid
        obtain ⟨d, hd, -, rfl⟩ := (hmem s).1 hs
        obtain ⟨e, he, -, rfl⟩ := (hmem t).1 ht
        have hid : d.id = e.id := hid
        rw [hid, he, Option.some.injEq] at hd
        rw [hd]
      have hnodup : scored.Nodup := by
        rw [hscored, List.filterMap_filterMap]
        refine (it.nodup _).filterMap fun i j s hi hj => ?_
        obtain ⟨d, hd, hs⟩ := Option.bind_eq_some_iff.1 hi
        obtain ⟨e, he, hs'⟩ := Option.bind_eq_some_iff.1 hj
        have hde : d = e := by
          have h₁ := ((scoreDoc_eq exact final d s).1 hs).2
          have h₂ := ((scoreDoc_eq exact final e s).1 hs').2
          exact congrArg Scored.doc (h₁.symm.trans h₂)
        rw [← h.keyed i d hd, ← h.keyed j e he, hde]
      -- sorted, and strictly so, since the ids differ
      have hsorted : (sortBy cmpScored scored).Pairwise fun a b => a.standing < b.standing := by
        have htotal : Std.Total fun a b : Scored => (cmpScored a b).isLE = true :=
          ⟨fun a b => by rw [isLE_cmpScored, isLE_cmpScored]; exact le_total _ _⟩
        have htrans : IsTrans Scored fun a b => (cmpScored a b).isLE = true :=
          ⟨fun a b c => by simp only [isLE_cmpScored]; exact le_trans⟩
        have hle : (sortBy cmpScored scored).Pairwise fun a b => (cmpScored a b).isLE = true :=
          List.pairwise_insertionSort _ scored
        have hne : (sortBy cmpScored scored).Nodup :=
          (List.perm_insertionSort _ scored).nodup_iff.2 hnodup
        refine List.Pairwise.imp_of_mem (fun {a b} ha hb hab => ?_) (hle.and hne)
        refine lt_of_le_of_ne ((isLE_cmpScored a b).1 hab.1) fun heq => hab.2 ?_
        exact hsame a (mem_sortBy.1 ha) b (mem_sortBy.1 hb) (congrArg (fun p => (ofLex p).2) heq)
      have hback : ∀ s ∈ sortBy cmpScored scored, scoredOf exact final s.doc = s :=
        fun s hs => (hdoc s (mem_sortBy.1 hs)).symm
      refine ⟨(sortBy cmpScored scored).map Scored.doc, fun d => ?_, ?_, ?_, ?_⟩
      · rw [List.mem_map]
        constructor
        · rintro ⟨s, hs, rfl⟩
          obtain ⟨d, hd, hmatch, rfl⟩ := (hmem s).1 (mem_sortBy.1 hs)
          exact ⟨hd, hmatch⟩
        · rintro ⟨hd, hmatch⟩
          exact ⟨scoredOf exact final d, mem_sortBy.2 ((hmem _).2 ⟨d, hd, hmatch, rfl⟩), rfl⟩
      · rw [List.map_map]
        refine List.Nodup.map_on (fun a ha b hb hid => ?_)
          ((List.perm_insertionSort _ scored).nodup_iff.2 hnodup)
        exact hsame a (mem_sortBy.1 ha) b (mem_sortBy.1 hb) hid
      · rw [List.pairwise_map]
        refine List.Pairwise.imp_of_mem (fun {a b} ha hb hab => ?_) hsorted
        rw [Outranks, hback a ha, hback b hb]
        exact hab
      · have hquery : ix.query it fold input limit =
            ((sortBy cmpScored scored).take limit).map Scored.result := by
          simp only [SearchIndex.query, hlast, hinit, hnarrow, if_neg hempty, hscored]
        rw [hquery, ← List.map_take, List.map_map]
        refine List.map_congr_left fun s hs => ?_
        rw [Function.comp_apply, hback s (List.mem_of_mem_take hs)]

/-- **Queries over any index**: whatever was indexed, renamed and removed, a query without a token
returns nothing, and any other returns the indexed documents for which every token but the last is
held and the last is a prefix of a held one, best first and each once, cut to the limit. -/
theorem query_spec (it : Iteration) (fold : Folding) (us : List Upkeep) (input : String)
    (limit : ℕ) :
    (tokenize fold input = [] →
      (us.foldl (upkeep fold) empty).query it fold input limit = []) ∧
    ∀ exact final, tokenize fold input = exact ++ [final] → ∃ L : List SearchDoc,
      (∀ d, d ∈ L ↔ (us.foldl (upkeep fold) empty).docsById.get d.id = some d ∧
        d.Matches exact final) ∧
      (L.map SearchDoc.id).Nodup ∧ L.Pairwise (Outranks exact final) ∧
      (us.foldl (upkeep fold) empty).query it fold input limit =
        (L.take limit).map fun d => (scoredOf exact final d).result := by
  refine ⟨fun hnil => ?_, fun exact final htokens => ?_⟩
  · simp only [SearchIndex.query, hnil, List.getLast?_nil]
  · exact query_of_consistent (exec_consistent fold us) htokens

end Query

end SearchIndex

end Monoplan.Doc
