import Monoplan.Base.FMap
import Monoplan.Base.Machine
import Monoplan.Client.Proven

/-!
# Mirrors of a document

The daemon's host keeps the documents; a window holds a *mirror* of one, seeded with a snapshot
and kept in step by updates.  The host remembers, for every subscription, the vector of what it
has sent (`last_sent`), and advances it in two places: an import from the mirror merges the range
the mirror declared, and a fan-out sets it to the vector of the document.

* `Host.step`: commands and frames that grow a document, documents opened and closed,
  subscriptions, imports, fan-outs and the shutdown, with the mirrors' own steps in between.
* `Mirror.caughtUp`: the mirror once it has applied everything it was sent.
* `Kept` and `hosting_kept`: what every step preserves.
* `mirrors_converge`: `last_sent` never claims more than the mirror holds, a fan-out leaves no
  mirror behind, and a mirror of a closed document is told `stopped` once, and nothing after it.
-/

namespace Monoplan.Daemon

open Monoplan.Base Monoplan.Client

variable (H : History)

/-! ## The mirror -/

/-- `import_mirror_update`: the ops count as local, so `last_persisted_vv` stays. -/
def importMirrorUpdate (doc : Doc) (bytes : Blob) : Option (Doc × VersionVector) :=
  match bytes.ops with
  | none => none
  | some ops => some (⟨doc.received ∪ ops, doc.lastPersistedVv⟩, .upTo ops)

/-- `import_host_update`, which differs from a remote blob in how the bytes are wrapped alone. -/
def importHostUpdate (doc : Doc) (bytes : Blob) : Option (Doc × VersionVector) :=
  doc.importRemoteBlob bytes

/-- `MirrorSink`. -/
inductive SinkEvent
  | update (bytes : Blob)
  | stopped
  deriving DecidableEq

/-- `MirrorEngine`, and what is between it and the host. -/
structure Mirror (δ : Type*) where
  docId : δ
  doc : Doc
  lastSent : VersionVector
  /-- What was flushed and has not reached the host. -/
  outbox : List Blob
  /-- What the sink was told and the mirror has not applied. -/
  inbox : List SinkEvent
  /-- Everything the sink was told.  Nothing reads it. -/
  told : List SinkEvent
  /-- The window ended the subscription.  Nothing reads it. -/
  left : Bool

namespace Mirror

variable {δ : Type*} (m : Mirror δ)

/-- `SyncEngine.mirror`, on the doc of a seed. -/
def new (docId : δ) (snapshot : Blob) : Mirror δ :=
  let doc := ((Doc.empty.importRemoteBlob snapshot).map Prod.fst).getD .empty
  ⟨docId, doc, doc.oplogVv H, [], [], [], false⟩

/-- `flush`. -/
def flush : Mirror δ :=
  let now := m.doc.oplogVv H
  if m.lastSent.includesVv now then m
  else
    match m.doc.exportUpdatesSince H m.lastSent with
    | none => { m with lastSent := now }
    | some bytes => { m with outbox := m.outbox ++ [bytes], lastSent := now }

/-- `apply_mirror_update`. -/
def applyMirrorUpdate (bytes : Blob) : Mirror δ :=
  match importHostUpdate m.doc bytes with
  | none => m
  | some (doc, range) => { m with doc := doc, lastSent := m.lastSent.merge range }

/-- The mirror takes in what its sink was told. -/
def apply : SinkEvent → Mirror δ
  | .update bytes => m.applyMirrorUpdate bytes
  | .stopped => m

/-- The sink is told. -/
def tell (es : List SinkEvent) : Mirror δ :=
  { m with inbox := m.inbox ++ es, told := m.told ++ es }

/-- The mirror once it has applied, in order, everything it was told. -/
def caughtUp : Mirror δ := m.inbox.foldl apply m

end Mirror

/-! ## The host -/

/-- `Subscriber`. -/
structure Subscriber (δ : Type*) where
  docId : δ
  lastSent : VersionVector

/-- `Host`, as far as its mirrors go, with the mirrors themselves. -/
structure Host (δ : Type*) where
  /-- The session's docs. -/
  docs : δ → Option Doc
  /-- The docs that were forgotten.  A new doc's id is none of them. -/
  forgotten : List δ
  subscribers : FMap ℕ (Subscriber δ)
  nextSubscriber : ℕ
  running : Bool
  /-- The mirror of each subscription there ever was. -/
  mirrors : ℕ → Option (Mirror δ)

inductive HostStep (δ : Type*)
  /-- A doc joins the session. -/
  | createDoc (doc : δ) (ops : Finset OpId)
  /-- A command commits to a doc, or a frame of the server brings operations. -/
  | grow (doc : δ) (ops : Finset OpId)
  /-- The server closed the doc, or it was deleted. -/
  | forgetDoc (doc : δ)
  | subscribe (doc : δ)
  | unsubscribe (id : ℕ)
  /-- `on_import` of the oldest update that is on its way. -/
  | onImport (id : ℕ)
  | fanOut
  | shutdown
  /-- The window commits to its mirror. -/
  | commit (id : ℕ) (o : OpId)
  | flush (id : ℕ)
  /-- The oldest update on its way to the host is lost. -/
  | lose (id : ℕ)
  /-- The mirror takes in the oldest thing it was told. -/
  | receive (id : ℕ)
  deriving DecidableEq

namespace Host

variable {δ : Type*}

/-- What a fan-out does for one subscriber: its record, unless it is removed, and what its sink
is told. -/
def fanOutTo (doc : Option Doc) (sub : Subscriber δ) : Option (Subscriber δ) × List SinkEvent :=
  match doc with
  | none => (none, [.stopped])
  | some doc =>
    let now := doc.oplogVv H
    if sub.lastSent.includesVv now then (some sub, [])
    else
      match doc.exportUpdatesSince H sub.lastSent with
      | none => (some { sub with lastSent := now }, [])
      | some bytes => (some { sub with lastSent := now }, [.update bytes])

variable (h : Host δ)

/-- Change one mirror. -/
def setMirror (id : ℕ) (m : Mirror δ) : Host δ :=
  { h with mirrors := Function.update h.mirrors id (some m) }

/-- Tell every subscriber's sink. -/
def tellAll (es : Subscriber δ → List SinkEvent) (id : ℕ) : Option (Mirror δ) :=
  match h.subscribers.get id with
  | none => h.mirrors id
  | some sub => (h.mirrors id).map fun m => m.tell (es sub)

/-- `on_subscribe`. -/
def onSubscribe (docId : δ) (doc : Doc) : Host δ :=
  let id := h.nextSubscriber
  { h with
    nextSubscriber := id + 1
    subscribers := h.subscribers.insert id ⟨docId, doc.oplogVv H⟩
    mirrors := Function.update h.mirrors id (some (.new H docId (doc.snapshotBlob H))) }

/-- `fan_out`. -/
def fanOut : Host δ :=
  { h with
    subscribers := h.subscribers.filterMap fun sub => (fanOutTo H (h.docs sub.docId) sub).1
    mirrors := h.tellAll fun sub => (fanOutTo H (h.docs sub.docId) sub).2 }

/-- The end of `run`, which drains the subscribers. -/
def shutdown : Host δ :=
  { h with
    running := false
    subscribers := .empty
    mirrors := h.tellAll fun _ => [.stopped] }

/-- The oldest update on its way leaves the outbox. -/
def take (id : ℕ) : Option (Blob × Host δ) :=
  match h.mirrors id with
  | some m =>
    match m.outbox with
    | bytes :: rest => some (bytes, h.setMirror id { m with outbox := rest })
    | [] => none
  | none => none

variable [DecidableEq δ]

/-- `on_import`, up to where it persists and fans out. -/
def onImport (id : ℕ) (bytes : Blob) : Host δ :=
  match h.subscribers.get id with
  | none => h
  | some sub =>
    match h.docs sub.docId with
    | none => h
    | some doc =>
      match importMirrorUpdate doc bytes with
      | none => h
      | some (doc, imported) =>
        { h with
          docs := Function.update h.docs sub.docId (some doc)
          subscribers :=
            h.subscribers.insert id { sub with lastSent := sub.lastSent.merge imported } }

def step : HostStep δ → Option (Host δ)
  | .createDoc doc ops =>
    if h.running = true ∧ h.docs doc = none ∧ doc ∉ h.forgotten then
      some { h with docs := Function.update h.docs doc (some ⟨ops, .new⟩) }
    else none
  | .grow doc ops =>
    match h.running, h.docs doc with
    | true, some d =>
      let d := { d with received := d.received ∪ ops }
      some { h with docs := Function.update h.docs doc (some d) }
    | _, _ => none
  | .forgetDoc doc =>
    if h.running = true ∧ (h.docs doc).isSome then
      some { h with
        docs := Function.update h.docs doc none, forgotten := h.forgotten ++ [doc] }
    else none
  | .subscribe doc =>
    match h.running, h.docs doc with
    | true, some d => some (h.onSubscribe H doc d)
    | _, _ => none
  | .unsubscribe id =>
    match h.running, h.subscribers.get id, h.mirrors id with
    | true, some _, some m =>
      some { h.setMirror id { m with left := true } with subscribers := h.subscribers.erase id }
    | _, _, _ => none
  | .onImport id =>
    if h.running then (h.take id).map fun r => r.2.onImport id r.1 else none
  | .fanOut => if h.running then some (h.fanOut H) else none
  | .shutdown => if h.running then some h.shutdown else none
  | .commit id o =>
    match h.mirrors id with
    | some m =>
      if o ∉ m.doc.received ∧ H.past o ⊆ m.doc.oplog H then
        some (h.setMirror id { m with doc := m.doc.commit o })
      else none
    | none => none
  | .flush id => (h.mirrors id).map fun m => h.setMirror id (m.flush H)
  | .lose id => (h.take id).map Prod.snd
  | .receive id =>
    match h.mirrors id with
    | some m =>
      match m.inbox with
      | e :: rest => some (h.setMirror id ({ m with inbox := rest }.apply e))
      | [] => none
    | none => none

end Host

/-- The daemon with its windows, from a start with any docs and no mirror. -/
def hosting (δ : Type*) [DecidableEq δ] : Machine (Host δ) (HostStep δ) where
  init h := ∃ docs, h = ⟨docs, [], .empty, 0, true, fun _ => none⟩
  step h l := h.step H l

/-! ## What a mirror holds -/

section Mirrors

variable {H} {δ : Type*} {m m' : Mirror δ} {v w : VersionVector} {e : SinkEvent}

/-- The operations a sink was told. -/
def SinkEvent.held : SinkEvent → Finset OpId
  | .update bytes => bytes.held
  | .stopped => ∅

/-- What a mirror has received, and what is in its inbox. -/
def Mirror.holds (m : Mirror δ) : Finset OpId :=
  m.doc.received ∪ RowLog.all (m.inbox.map SinkEvent.held)

theorem importRemoteBlob_received (doc : Doc) (bytes : Blob) :
    ((doc.importRemoteBlob bytes).map fun r => r.1.received).getD doc.received =
      doc.received ∪ bytes.held := by
  unfold Doc.importRemoteBlob Blob.held
  cases bytes.ops with
  | none => exact (Finset.union_empty _).symm
  | some ops => rfl

theorem apply_received (m : Mirror δ) (e : SinkEvent) :
    (m.apply e).doc.received = m.doc.received ∪ e.held := by
  cases e with
  | stopped => exact (Finset.union_empty _).symm
  | update bytes =>
    have h := importRemoteBlob_received m.doc bytes
    show (m.applyMirrorUpdate bytes).doc.received = m.doc.received ∪ bytes.held
    rw [← h]
    unfold Mirror.applyMirrorUpdate importHostUpdate
    cases m.doc.importRemoteBlob bytes <;> rfl

/-- A mirror that has caught up has received what it holds. -/
theorem caughtUp_received (m : Mirror δ) : m.caughtUp.doc.received = m.holds := by
  have h (es : List SinkEvent) (m : Mirror δ) :
      (es.foldl Mirror.apply m).doc.received =
        m.doc.received ∪ RowLog.all (es.map SinkEvent.held) := by
    induction es generalizing m with
    | nil => exact (Finset.union_empty _).symm
    | cons e es ih => rw [List.foldl_cons, ih, apply_received, Finset.union_assoc]; rfl
  exact h m.inbox m

/-- What the host believes it has sent is held, and what the mirror flushed is its own. -/
structure Followed (H : History) (m : Mirror δ) (lastSent : VersionVector) : Prop where
  closed : RowLog.Closed H.past m.holds
  covered : lastSent.ids ⊆ m.holds
  flushed : ∀ bytes ∈ m.outbox, bytes.held ⊆ m.doc.received

/-- The mirror as the host and the log see it is the same, and follows what it followed. -/
structure Moves (H : History) (m m' : Mirror δ) : Prop where
  docId : m'.docId = m.docId
  told : m'.told = m.told
  left : m'.left = m.left
  follows : ∀ v, Followed H m v → Followed H m' v

theorem Followed.sent (h : Followed H m v) (hw : w.ids ⊆ m.holds) :
    Followed H m (v.merge w) :=
  ⟨h.closed, Finset.union_subset h.covered hw, h.flushed⟩

/-- A mirror that follows holds, once it has caught up, what the host believes it to. -/
theorem Followed.oplog (h : Followed H m v) {X : Finset OpId} (hX : X ⊆ m.holds) :
    X ⊆ m.caughtUp.doc.oplog H := by
  have hall : m.holds ⊆ m.caughtUp.doc.oplog H := by
    apply closed_subset_oplog h.closed
    rw [caughtUp_received]
  exact hX.trans hall

theorem closed_oplog (doc : Doc) : RowLog.Closed H.past (doc.oplog H) :=
  fun _ ho => past_subset_oplog ho

theorem closed_union {A B : Finset OpId} (hA : RowLog.Closed H.past A)
    (hB : RowLog.Closed H.past B) : RowLog.Closed H.past (A ∪ B) := by
  intro o ho
  rcases Finset.mem_union.1 ho with ho | ho
  · exact (hA o ho).trans Finset.subset_union_left
  · exact (hB o ho).trans Finset.subset_union_right

/-- **A seed is followed**: the mirror holds what the host takes it to hold. -/
theorem new_followed (docId : δ) (doc : Doc) :
    Followed H (Mirror.new H docId (doc.snapshotBlob H)) (doc.oplogVv H) := by
  have hholds : (Mirror.new H docId (doc.snapshotBlob H)).holds = doc.oplog H := by
    show (∅ ∪ doc.oplog H) ∪ ∅ = doc.oplog H
    rw [Finset.union_empty, Finset.empty_union]
  refine ⟨?_, ?_, fun bytes hb => absurd hb (by simp [Mirror.new])⟩
  · rw [hholds]
    exact closed_oplog doc
  · rw [hholds, oplogVv_ids]

theorem flush_moves (m : Mirror δ) : Moves H m (m.flush H) := by
  unfold Mirror.flush Doc.exportUpdatesSince
  dsimp only
  split
  · exact ⟨rfl, rfl, rfl, fun v h => h⟩
  · refine ⟨rfl, rfl, rfl, fun v h => ⟨h.closed, h.covered, fun bytes hb => ?_⟩⟩
    rcases List.mem_append.1 hb with hb | hb
    · exact h.flushed bytes hb
    · rw [List.mem_singleton.1 hb]
      exact Finset.sdiff_subset.trans oplog_subset

theorem commit_moves {o : OpId} (ho : H.past o ⊆ m.doc.oplog H) :
    Moves H m { m with doc := m.doc.commit o } := by
  refine ⟨rfl, rfl, rfl, fun v h => ?_⟩
  have hholds : Mirror.holds { m with doc := m.doc.commit o } = insert o m.holds :=
    Finset.insert_union o _ _
  refine ⟨?_, ?_, fun bytes hb => (h.flushed bytes hb).trans (Finset.subset_insert _ _)⟩
  · rw [hholds]
    intro q hq
    rcases Finset.mem_insert.1 hq with rfl | hq
    · -- the past of a commit is applied, so the mirror held it before
      exact (ho.trans oplog_subset).trans
        (Finset.subset_union_left.trans (Finset.subset_insert _ _))
    · exact (h.closed q hq).trans (Finset.subset_insert _ _)
  · rw [hholds]
    exact h.covered.trans (Finset.subset_insert _ _)

theorem lose_moves {bytes : Blob} {rest : List Blob} (hbox : m.outbox = bytes :: rest) :
    Moves H m { m with outbox := rest } := by
  refine ⟨rfl, rfl, rfl, fun v h => ⟨h.closed, h.covered, fun b hb => h.flushed b ?_⟩⟩
  rw [hbox]
  exact List.mem_cons_of_mem _ hb

/-- Taking in what was told moves it from the inbox into the doc. -/
theorem receive_moves {rest : List SinkEvent} (hbox : m.inbox = e :: rest) :
    Moves H m ({ m with inbox := rest }.apply e) := by
  have hdoc := apply_received { m with inbox := rest } e
  have hframe : ({ m with inbox := rest }.apply e).inbox = rest ∧
      ({ m with inbox := rest }.apply e).outbox = m.outbox ∧
      ({ m with inbox := rest }.apply e).docId = m.docId ∧
      ({ m with inbox := rest }.apply e).told = m.told ∧
      ({ m with inbox := rest }.apply e).left = m.left := by
    cases e with
    | stopped => exact ⟨rfl, rfl, rfl, rfl, rfl⟩
    | update bytes =>
      unfold Mirror.apply Mirror.applyMirrorUpdate
      dsimp only
      split <;> exact ⟨rfl, rfl, rfl, rfl, rfl⟩
  obtain ⟨hin, hout, hid, htold, hleft⟩ := hframe
  have hholds : ({ m with inbox := rest }.apply e).holds = m.holds := by
    rw [Mirror.holds, Mirror.holds, hdoc, hin, hbox, Finset.union_assoc]
    rfl
  refine ⟨hid, htold, hleft, fun v h => ⟨?_, ?_, fun bytes hb => ?_⟩⟩
  · rw [hholds]
    exact h.closed
  · rw [hholds]
    exact h.covered
  · rw [hout] at hb
    rw [hdoc]
    exact (h.flushed bytes hb).trans Finset.subset_union_left

/-- What is told is held. -/
theorem tell_holds (m : Mirror δ) (bytes : Blob) :
    (m.tell [.update bytes]).holds = m.holds ∪ bytes.held := by
  rw [Mirror.holds, Mirror.holds, Mirror.tell, List.map_append, RowLog.all_append,
    ← Finset.union_assoc]
  exact congrArg _ (RowLog.all_singleton _)

end Mirrors

/-! ## What a step preserves -/

section Steps

variable {H} {δ : Type*} {h h' : Host δ} {m m' : Mirror δ} {sub : Subscriber δ} {id : ℕ}

/-- The log ends with its one `stopped`. -/
def StoppedLast (told : List SinkEvent) : Prop :=
  ∃ updates, told = updates ++ [.stopped] ∧ .stopped ∉ updates

/-- A subscription id: not given out, live, ended by its window, or told to stop. -/
inductive Slot (H : History) (h : Host δ) : Option (Subscriber δ) → Option (Mirror δ) → Prop
  | unused : Slot H h none none
  | live (sub : Subscriber δ) (m : Mirror δ) : m.docId = sub.docId → .stopped ∉ m.told →
      m.left = false → Followed H m sub.lastSent →
      (h.docs sub.docId = none → sub.docId ∈ h.forgotten) → Slot H h (some sub) (some m)
  | left (m : Mirror δ) : m.left = true → .stopped ∉ m.told → Slot H h none (some m)
  | stopped (m : Mirror δ) : m.left = false → StoppedLast m.told →
      (m.docId ∈ h.forgotten ∨ h.running = false) → Slot H h none (some m)

/-- What every step preserves. -/
structure Kept (H : History) (h : Host δ) : Prop where
  slots : ∀ id, Slot H h (h.subscribers.get id) (h.mirrors id)
  forgotten : ∀ doc ∈ h.forgotten, h.docs doc = none
  fresh : ∀ id, h.nextSubscriber ≤ id → h.mirrors id = none

/-- No doc goes without being forgotten, and nothing that is over comes back. -/
structure Later (h h' : Host δ) : Prop where
  docs : ∀ doc, h'.docs doc = none → h.docs doc = none ∨ doc ∈ h'.forgotten
  forgotten : ∀ doc ∈ h.forgotten, doc ∈ h'.forgotten
  running : h.running = false → h'.running = false

theorem Later.same (hdocs : h'.docs = h.docs) (hf : h'.forgotten = h.forgotten)
    (hr : h'.running = h.running) : Later h h' := by
  refine ⟨fun doc hdoc => .inl ?_, fun doc hdoc => ?_, fun hrun => hr.trans hrun⟩
  · rwa [hdocs] at hdoc
  · rwa [hf]

theorem Slot.later {s : Option (Subscriber δ)} {m : Option (Mirror δ)} (hs : Slot H h s m)
    (hl : Later h h') : Slot H h' s m := by
  cases hs with
  | unused => exact .unused
  | live sub m hid htold hleft hfollowed hdocs =>
    refine .live sub m hid htold hleft hfollowed fun hdoc => ?_
    rcases hl.docs _ hdoc with hdoc | hdoc
    · exact hl.forgotten _ (hdocs hdoc)
    · exact hdoc
  | left m hleft htold => exact .left m hleft htold
  | stopped m hleft htold hwhy =>
    exact .stopped m hleft htold (hwhy.imp (hl.forgotten _) hl.running)

theorem Slot.moves {s : Option (Subscriber δ)} (hs : Slot H h s (some m)) (hm : Moves H m m') :
    Slot H h s (some m') := by
  cases hs with
  | live sub _ hid htold hleft hfollowed hdocs =>
    refine .live sub m' (hm.docId.trans hid) ?_ (hm.left.trans hleft) (hm.follows _ hfollowed) hdocs
    rwa [hm.told]
  | left _ hleft htold =>
    refine .left m' (hm.left.trans hleft) ?_
    rwa [hm.told]
  | stopped _ hleft htold hwhy =>
    refine .stopped m' (hm.left.trans hleft) ?_ ?_
    · rwa [hm.told]
    · rwa [hm.docId]

theorem stoppedLast_tell (htold : .stopped ∉ m.told) : StoppedLast (m.tell [.stopped]).told :=
  ⟨m.told, rfl, htold⟩

theorem setMirror_self (h : Host δ) (id : ℕ) (m : Mirror δ) :
    (h.setMirror id m).mirrors id = some m := Function.update_self ..

/-- A step of one mirror. -/
theorem Kept.setMirror (hk : Kept H h) (hmem : h.mirrors id = some m) (hm : Moves H m m') :
    Kept H (h.setMirror id m') := by
  refine ⟨fun j => ?_, hk.forgotten, fun j hj => ?_⟩
  · have hlater : Later h (h.setMirror id m') := .same rfl rfl rfl
    by_cases hj : j = id
    · subst hj
      have hslot := hk.slots j
      rw [hmem] at hslot
      show Slot H _ (h.subscribers.get j) (Function.update h.mirrors j (some m') j)
      rw [Function.update_self]
      exact (hslot.moves hm).later hlater
    · show Slot H _ (h.subscribers.get j) (Function.update h.mirrors id (some m') j)
      rw [Function.update_of_ne hj]
      exact (hk.slots j).later hlater
  · show Function.update h.mirrors id (some m') j = none
    have hj' : j ≠ id := by
      rintro rfl
      rw [hk.fresh j hj] at hmem
      exact absurd hmem (by simp)
    rw [Function.update_of_ne hj']
    exact hk.fresh j hj

/-- A step that leaves subscriptions and mirrors alone. -/
theorem Kept.later (hk : Kept H h) (hl : Later h h') (hsub : h'.subscribers = h.subscribers)
    (hmir : h'.mirrors = h.mirrors) (hnext : h'.nextSubscriber = h.nextSubscriber)
    (hf : ∀ doc ∈ h'.forgotten, h'.docs doc = none) : Kept H h' := by
  refine ⟨fun id => ?_, hf, fun id hid => ?_⟩
  · rw [hsub, hmir]
    exact (hk.slots id).later hl
  · rw [hmir]
    exact hk.fresh id (hnext ▸ hid)

theorem Kept.mirror (hk : Kept H h) (hsub : h.subscribers.get id = some sub) :
    ∃ m, h.mirrors id = some m ∧ m.docId = sub.docId ∧ .stopped ∉ m.told ∧ m.left = false ∧
      Followed H m sub.lastSent ∧ (h.docs sub.docId = none → sub.docId ∈ h.forgotten) := by
  have hslot := hk.slots id
  rw [hsub] at hslot
  generalize hm : h.mirrors id = o at hslot
  cases hslot with
  | live sub m hid htold hleft hfollowed hdocs =>
    exact ⟨m, rfl, hid, htold, hleft, hfollowed, hdocs⟩

theorem kept_subscribe {docId : δ} {doc : Doc} (hk : Kept H h) (hdoc : h.docs docId = some doc) :
    Kept H (h.onSubscribe H docId doc) := by
  have hlater : Later h (h.onSubscribe H docId doc) := .same rfl rfl rfl
  refine ⟨fun id => ?_, hk.forgotten, fun id hid => ?_⟩
  · show Slot H _ ((h.subscribers.insert h.nextSubscriber ⟨docId, doc.oplogVv H⟩).get id)
      (Function.update h.mirrors h.nextSubscriber _ id)
    by_cases hid : id = h.nextSubscriber
    · subst hid
      rw [FMap.get_insert_self, Function.update_self]
      refine .live _ _ rfl (by simp [Mirror.new]) rfl (new_followed docId doc) fun hnone => ?_
      rw [show h.docs docId = none from hnone] at hdoc
      exact absurd hdoc (by simp)
    · rw [FMap.get_insert_ne _ _ hid, Function.update_of_ne hid]
      exact (hk.slots id).later hlater
  · have hid' : h.nextSubscriber + 1 ≤ id := hid
    show Function.update h.mirrors h.nextSubscriber _ id = none
    rw [Function.update_of_ne (by omega)]
    exact hk.fresh id (by omega)

theorem kept_unsubscribe (hk : Kept H h) (hsub : h.subscribers.get id = some sub)
    (hmem : h.mirrors id = some m) :
    Kept H { h.setMirror id { m with left := true } with
      subscribers := h.subscribers.erase id } := by
  have hlater : Later h { h.setMirror id { m with left := true } with
      subscribers := h.subscribers.erase id } := .same rfl rfl rfl
  refine ⟨fun j => ?_, hk.forgotten, fun j hj => ?_⟩
  · show Slot H _ ((h.subscribers.erase id).get j) (Function.update h.mirrors id _ j)
    by_cases hj : j = id
    · subst hj
      rw [FMap.get_erase_self, Function.update_self]
      obtain ⟨m', hm', _, htold, _⟩ := hk.mirror hsub
      obtain rfl : m = m' := Option.some.inj (hmem.symm.trans hm')
      exact .left _ rfl htold
    · rw [FMap.get_erase_ne _ hj, Function.update_of_ne hj]
      exact (hk.slots j).later hlater
  · show Function.update h.mirrors id _ j = none
    have hj' : j ≠ id := by
      rintro rfl
      rw [hk.fresh j hj] at hmem
      exact absurd hmem (by simp)
    rw [Function.update_of_ne hj']
    exact hk.fresh j hj

/-- What leaves an outbox was the mirror's own. -/
theorem take_spec {bytes : Blob} (htake : h.take id = some (bytes, h')) :
    ∃ m rest, h.mirrors id = some m ∧ m.outbox = bytes :: rest ∧
      h' = h.setMirror id { m with outbox := rest } := by
  unfold Host.take at htake
  split at htake
  · rename_i m hmem
    split at htake
    · rename_i b rest hbox
      obtain ⟨rfl, rfl⟩ := Prod.mk.inj (Option.some.inj htake)
      exact ⟨m, rest, hmem, hbox, rfl⟩
    · exact absurd htake (by simp)
  · exact absurd htake (by simp)

/-- Setting a doc takes none away. -/
theorem none_of_update [DecidableEq δ] {docs : δ → Option Doc} {d e : δ} {doc : Doc}
    (hnone : Function.update docs d (some doc) e = none) : docs e = none := by
  by_cases he : e = d
  · subst he
    rw [Function.update_self] at hnone
    exact absurd hnone (by simp)
  · rwa [Function.update_of_ne he] at hnone

theorem Kept.not_forgotten {d : δ} {doc : Doc} (hk : Kept H h) (hdoc : h.docs d = some doc) :
    d ∉ h.forgotten := by
  intro hd
  rw [hk.forgotten d hd] at hdoc
  exact absurd hdoc (by simp)

/-- A doc joins or grows. -/
theorem kept_setDoc [DecidableEq δ] {d : δ} (doc : Doc) (hk : Kept H h) (hd : d ∉ h.forgotten) :
    Kept H { h with docs := Function.update h.docs d (some doc) } := by
  refine hk.later ⟨fun e he => .inl (none_of_update he), fun _ he => he, fun hr => hr⟩
    rfl rfl rfl fun e he => ?_
  have hne : e ≠ d := fun heq => hd (heq ▸ he)
  show Function.update h.docs d _ e = none
  rw [Function.update_of_ne hne]
  exact hk.forgotten e he

theorem kept_forget [DecidableEq δ] (doc : δ) (hk : Kept H h) :
    Kept H { h with
      docs := Function.update h.docs doc none, forgotten := h.forgotten ++ [doc] } := by
  have hdocs : ∀ d, Function.update h.docs doc none d = none →
      h.docs d = none ∨ d ∈ h.forgotten ++ [doc] := by
    intro d hd
    by_cases hne : d = doc
    · subst hne
      exact .inr (by simp)
    · rw [Function.update_of_ne hne] at hd
      exact .inl hd
  refine hk.later ⟨hdocs, fun _ hd => List.mem_append_left _ hd, fun hr => hr⟩
    rfl rfl rfl fun d hd => ?_
  show Function.update h.docs doc none d = none
  by_cases hne : d = doc
  · subst hne
    exact Function.update_self ..
  · rw [Function.update_of_ne hne]
    refine hk.forgotten d ((List.mem_append.1 hd).resolve_right fun hd => ?_)
    exact hne (List.mem_singleton.1 hd)

/-- **The import's own way to advance `last_sent`**: the range a mirror declares is the vector of
operations it holds, and what it holds is closed. -/
theorem kept_onImport [DecidableEq δ] {bytes : Blob} (hk : Kept H h)
    (hown : ∀ m, h.mirrors id = some m → bytes.held ⊆ m.doc.received) :
    Kept H (h.onImport id bytes) := by
  unfold Host.onImport importMirrorUpdate
  split
  · exact hk
  rename_i sub hsub
  split
  · exact hk
  rename_i doc hdoc
  cases hops : bytes.ops with
  | none => exact hk
  | some ops =>
    dsimp only
    set h' : Host δ := { h with
      docs := Function.update h.docs sub.docId (some ⟨doc.received ∪ ops, doc.lastPersistedVv⟩)
      subscribers := h.subscribers.insert id
        { sub with lastSent := sub.lastSent.merge (.upTo ops) } }
    have hnone : ∀ d, h'.docs d = none → h.docs d = none := fun d hd => none_of_update hd
    have hlater : Later h h' := ⟨fun d hd => .inl (hnone d hd), fun _ hd => hd, fun hr => hr⟩
    refine ⟨fun j => ?_, (kept_setDoc _ hk (hk.not_forgotten hdoc)).forgotten, hk.fresh⟩
    show Slot H h' ((h.subscribers.insert id _).get j) (h.mirrors j)
    by_cases hj : j = id
    · subst hj
      rw [FMap.get_insert_self]
      obtain ⟨m, hm, hid, htold, hleft, hfollowed, hdocs⟩ := hk.mirror hsub
      rw [hm]
      have hheld : ops ⊆ m.holds := by
        have hb := hown m hm
        rw [Blob.held, hops] at hb
        exact hb.trans Finset.subset_union_left
      have hrange : (VersionVector.upTo ops).ids ⊆ m.holds :=
        upTo_subset_closed hfollowed.closed hheld
      exact .live _ m hid htold hleft (hfollowed.sent hrange) fun hd => hdocs (hnone _ hd)
    · rw [FMap.get_insert_ne _ _ hj]
      exact (hk.slots j).later hlater

/-- The oldest update on its way arrives. -/
theorem kept_import [DecidableEq δ] {bytes : Blob} {rest : List Blob} (hk : Kept H h)
    (hmem : h.mirrors id = some m) (hbox : m.outbox = bytes :: rest) :
    Kept H ((h.setMirror id { m with outbox := rest }).onImport id bytes) := by
  have hlose := hk.setMirror hmem (lose_moves hbox)
  by_cases hsub : h.subscribers.get id = none
  · -- an ended subscription: refused, and the update is gone
    unfold Host.onImport
    rw [show (h.setMirror id _).subscribers.get id = none from hsub]
    exact hlose
  · obtain ⟨sub, hsub⟩ := Option.ne_none_iff_exists'.1 hsub
    obtain ⟨m', hm', _, _, _, hfollowed, _⟩ := hk.mirror hsub
    obtain rfl : m = m' := Option.some.inj (hmem.symm.trans hm')
    refine kept_onImport hlose fun m' hm' => ?_
    obtain rfl : { m with outbox := rest } = m' :=
      Option.some.inj ((setMirror_self h id _).symm.trans hm')
    exact hfollowed.flushed bytes (hbox ▸ List.mem_cons_self)

/-- **The fan-out's own way**: what a mirror held covered `last_sent`, so with the operations
beyond `last_sent` it holds the whole doc. -/
theorem fanOutTo_live (doc : Doc) (hfollowed : Followed H m sub.lastSent)
    (htold : .stopped ∉ m.told) :
    ∃ sub' es, Host.fanOutTo H (some doc) sub = (some sub', es) ∧ sub'.docId = sub.docId ∧
      Followed H (m.tell es) sub'.lastSent ∧ .stopped ∉ (m.tell es).told ∧
      doc.oplog H ⊆ (m.tell es).holds := by
  have hnil : m.tell [] = m := by simp [Mirror.tell]
  unfold Host.fanOutTo Doc.exportUpdatesSince
  dsimp only
  split
  · rename_i hincl
    refine ⟨sub, [], rfl, rfl, ?_, ?_, ?_⟩
    · rwa [hnil]
    · rwa [hnil]
    · rw [VersionVector.includesVv_iff, oplogVv_ids] at hincl
      rw [hnil]
      exact hincl.trans hfollowed.covered
  · have hholds : (m.tell [.update (H.seal (.updates (doc.updatesSince H sub.lastSent)))]).holds =
        m.holds ∪ doc.oplog H := by
      rw [tell_holds]
      apply Finset.Subset.antisymm
      · exact Finset.union_subset_union_right Finset.sdiff_subset
      · intro o ho
        rcases Finset.mem_union.1 ho with ho | ho
        · exact Finset.mem_union_left _ ho
        · by_cases hsent : o ∈ sub.lastSent.ids
          · exact Finset.mem_union_left _ (hfollowed.covered hsent)
          · exact Finset.mem_union_right _ (Finset.mem_sdiff.2 ⟨ho, hsent⟩)
    refine ⟨_, _, rfl, rfl, ⟨?_, ?_, hfollowed.flushed⟩, ?_, ?_⟩
    · rw [hholds]
      exact closed_union hfollowed.closed (closed_oplog doc)
    · rw [hholds, oplogVv_ids]
      exact Finset.subset_union_right
    · simp [Mirror.tell, htold]
    · rw [hholds]
      exact Finset.subset_union_right

theorem tellAll_some {es : Subscriber δ → List SinkEvent} (hsub : h.subscribers.get id = some sub)
    (hmem : h.mirrors id = some m) : h.tellAll es id = some (m.tell (es sub)) := by
  rw [Host.tellAll, hsub, hmem]
  rfl

theorem tellAll_none {es : Subscriber δ → List SinkEvent} (hsub : h.subscribers.get id = none) :
    h.tellAll es id = h.mirrors id := by
  rw [Host.tellAll, hsub]

theorem tellAll_fresh {es : Subscriber δ → List SinkEvent} (hmem : h.mirrors id = none) :
    h.tellAll es id = none := by
  unfold Host.tellAll
  split
  · exact hmem
  · rw [hmem]
    rfl

theorem kept_fanOut (hk : Kept H h) : Kept H (h.fanOut H) := by
  have hlater : Later h (h.fanOut H) := .same rfl rfl rfl
  refine ⟨fun id => ?_, hk.forgotten, fun id hid => tellAll_fresh (hk.fresh id hid)⟩
  show Slot H _ ((h.subscribers.get id).bind _) (h.tellAll _ id)
  cases hsub : h.subscribers.get id with
  | none =>
    rw [tellAll_none hsub]
    have hslot := hk.slots id
    rw [hsub] at hslot
    exact hslot.later hlater
  | some sub =>
    obtain ⟨m, hm, hid, htold, hleft, hfollowed, hdocs⟩ := hk.mirror hsub
    rw [tellAll_some hsub hm, Option.bind_some]
    cases hdoc : h.docs sub.docId with
    | none =>
      refine .stopped _ hleft (stoppedLast_tell htold) (.inl ?_)
      show m.docId ∈ h.forgotten
      rw [hid]
      exact hdocs hdoc
    | some doc =>
      obtain ⟨sub', es, heq, hsame, hfollowed', htold', _⟩ :=
        fanOutTo_live doc hfollowed htold
      rw [heq]
      refine .live sub' _ (hid.trans hsame.symm) htold' hleft hfollowed' ?_
      rw [hsame]
      exact hdocs

theorem kept_shutdown (hk : Kept H h) : Kept H h.shutdown := by
  have hlater : Later h h.shutdown := ⟨fun _ hd => .inl hd, fun _ hd => hd, fun _ => rfl⟩
  refine ⟨fun id => ?_, hk.forgotten, fun id hid => tellAll_fresh (hk.fresh id hid)⟩
  show Slot H _ none (h.tellAll _ id)
  cases hsub : h.subscribers.get id with
  | none =>
    rw [tellAll_none hsub]
    have hslot := hk.slots id
    rw [hsub] at hslot
    exact hslot.later hlater
  | some sub =>
    obtain ⟨m, hm, _, htold, hleft, _, _⟩ := hk.mirror hsub
    rw [tellAll_some hsub hm]
    exact .stopped _ hleft (stoppedLast_tell htold) (.inr rfl)

theorem step_kept [DecidableEq δ] {l : HostStep δ} (hk : Kept H h) (hs : h.step H l = some h') :
    Kept H h' := by
  cases l with
  | createDoc doc ops =>
    dsimp only [Host.step] at hs
    split at hs
    · rename_i hnew
      obtain rfl := Option.some.inj hs
      exact kept_setDoc _ hk hnew.2.2
    · exact absurd hs (by simp)
  | grow doc ops =>
    dsimp only [Host.step] at hs
    split at hs
    · rename_i d _ hdoc
      obtain rfl := Option.some.inj hs
      exact kept_setDoc _ hk (hk.not_forgotten hdoc)
    · exact absurd hs (by simp)
  | forgetDoc doc =>
    dsimp only [Host.step] at hs
    split at hs
    · obtain rfl := Option.some.inj hs
      exact kept_forget doc hk
    · exact absurd hs (by simp)
  | subscribe doc =>
    dsimp only [Host.step] at hs
    split at hs
    · rename_i d _ hdoc
      obtain rfl := Option.some.inj hs
      exact kept_subscribe hk hdoc
    · exact absurd hs (by simp)
  | unsubscribe id =>
    dsimp only [Host.step] at hs
    split at hs
    · rename_i hsub hmem
      obtain rfl := Option.some.inj hs
      exact kept_unsubscribe hk hsub hmem
    · exact absurd hs (by simp)
  | onImport id =>
    dsimp only [Host.step] at hs
    split at hs
    · obtain ⟨⟨bytes, t⟩, htake, rfl⟩ := Option.map_eq_some_iff.1 hs
      obtain ⟨m, rest, hmem, hbox, rfl⟩ := take_spec htake
      exact kept_import hk hmem hbox
    · exact absurd hs (by simp)
  | fanOut =>
    dsimp only [Host.step] at hs
    split at hs
    · obtain rfl := Option.some.inj hs
      exact kept_fanOut hk
    · exact absurd hs (by simp)
  | shutdown =>
    dsimp only [Host.step] at hs
    split at hs
    · obtain rfl := Option.some.inj hs
      exact kept_shutdown hk
    · exact absurd hs (by simp)
  | commit id o =>
    dsimp only [Host.step] at hs
    split at hs
    · rename_i m hmem
      split at hs
      · rename_i hnew
        obtain rfl := Option.some.inj hs
        exact hk.setMirror hmem (commit_moves hnew.2)
      · exact absurd hs (by simp)
    · exact absurd hs (by simp)
  | flush id =>
    obtain ⟨m, hmem, rfl⟩ := Option.map_eq_some_iff.1 hs
    exact hk.setMirror hmem (flush_moves m)
  | lose id =>
    obtain ⟨⟨bytes, t⟩, htake, rfl⟩ := Option.map_eq_some_iff.1 hs
    obtain ⟨m, rest, hmem, hbox, rfl⟩ := take_spec htake
    exact hk.setMirror hmem (lose_moves hbox)
  | receive id =>
    dsimp only [Host.step] at hs
    split at hs
    · rename_i m hmem
      split at hs
      · rename_i e rest hbox
        obtain rfl := Option.some.inj hs
        exact hk.setMirror hmem (receive_moves hbox)
      · exact absurd hs (by simp)
    · exact absurd hs (by simp)

theorem hosting_kept [DecidableEq δ] (hr : (hosting H δ).Reachable h) : Kept H h := by
  apply hr.invariant
  · rintro h ⟨docs, rfl⟩
    exact ⟨fun _ => .unused, fun _ hd => absurd hd (by simp), fun _ _ => rfl⟩
  · exact fun h l h' _ hk _ hs => step_kept hk hs

/-! ## Every run -/

/-- The mirrors stay, and what their sinks were told stays told. -/
def Recorded (h h' : Host δ) : Prop :=
  ∀ id m, h.mirrors id = some m → ∃ m', h'.mirrors id = some m' ∧ m.told <+: m'.told

theorem Recorded.same (hmir : h'.mirrors = h.mirrors) : Recorded h h' := by
  intro id m hm
  exact ⟨m, by rw [hmir, hm], List.prefix_rfl⟩

theorem recorded_setMirror (hmem : h.mirrors id = some m)
    (hmir : h'.mirrors = (h.setMirror id m').mirrors) (htold : m'.told = m.told) :
    Recorded h h' := by
  intro j m'' hj
  rw [hmir]
  by_cases hne : j = id
  · subst hne
    obtain rfl : m = m'' := Option.some.inj (hmem.symm.trans hj)
    exact ⟨m', setMirror_self h j m', htold ▸ List.prefix_rfl⟩
  · refine ⟨m'', ?_, List.prefix_rfl⟩
    show Function.update h.mirrors id (some m') j = some m''
    rwa [Function.update_of_ne hne]

theorem recorded_tellAll {es : Subscriber δ → List SinkEvent} (hmir : h'.mirrors = h.tellAll es) :
    Recorded h h' := by
  intro id m hm
  rw [hmir]
  cases hsub : h.subscribers.get id with
  | none => exact ⟨m, (tellAll_none hsub).trans hm, List.prefix_rfl⟩
  | some sub => exact ⟨_, tellAll_some hsub hm, List.prefix_append _ _⟩

theorem onImport_mirrors [DecidableEq δ] (h : Host δ) (id : ℕ) (bytes : Blob) :
    (h.onImport id bytes).mirrors = h.mirrors := by
  unfold Host.onImport
  repeat' split
  all_goals rfl

/-- No step takes back what a sink was told. -/
theorem step_recorded [DecidableEq δ] {l : HostStep δ} (hk : Kept H h)
    (hs : h.step H l = some h') : Recorded h h' := by
  cases l with
  | createDoc doc ops =>
    dsimp only [Host.step] at hs
    split at hs
    · exact .same (by rw [← Option.some.inj hs])
    · exact absurd hs (by simp)
  | grow doc ops =>
    dsimp only [Host.step] at hs
    split at hs
    · exact .same (by rw [← Option.some.inj hs])
    · exact absurd hs (by simp)
  | forgetDoc doc =>
    dsimp only [Host.step] at hs
    split at hs
    · exact .same (by rw [← Option.some.inj hs])
    · exact absurd hs (by simp)
  | subscribe doc =>
    dsimp only [Host.step] at hs
    split at hs
    · obtain rfl := Option.some.inj hs
      intro id m hm
      have hne : id ≠ h.nextSubscriber := by
        rintro rfl
        rw [hk.fresh _ le_rfl] at hm
        exact absurd hm (by simp)
      exact ⟨m, (Function.update_of_ne hne _ _).trans hm, List.prefix_rfl⟩
    · exact absurd hs (by simp)
  | unsubscribe id =>
    dsimp only [Host.step] at hs
    split at hs
    · rename_i hmem
      obtain rfl := Option.some.inj hs
      exact recorded_setMirror hmem rfl rfl
    · exact absurd hs (by simp)
  | onImport id =>
    dsimp only [Host.step] at hs
    split at hs
    · obtain ⟨⟨bytes, t⟩, htake, rfl⟩ := Option.map_eq_some_iff.1 hs
      obtain ⟨m, rest, hmem, _, rfl⟩ := take_spec htake
      exact recorded_setMirror hmem (onImport_mirrors _ id bytes) rfl
    · exact absurd hs (by simp)
  | fanOut =>
    dsimp only [Host.step] at hs
    split at hs
    · obtain rfl := Option.some.inj hs
      exact recorded_tellAll rfl
    · exact absurd hs (by simp)
  | shutdown =>
    dsimp only [Host.step] at hs
    split at hs
    · obtain rfl := Option.some.inj hs
      exact recorded_tellAll rfl
    · exact absurd hs (by simp)
  | commit id o =>
    dsimp only [Host.step] at hs
    split at hs
    · rename_i m hmem
      split at hs
      · obtain rfl := Option.some.inj hs
        exact recorded_setMirror hmem rfl rfl
      · exact absurd hs (by simp)
    · exact absurd hs (by simp)
  | flush id =>
    obtain ⟨m, hmem, rfl⟩ := Option.map_eq_some_iff.1 hs
    exact recorded_setMirror hmem rfl (flush_moves m).told
  | lose id =>
    obtain ⟨⟨bytes, t⟩, htake, rfl⟩ := Option.map_eq_some_iff.1 hs
    obtain ⟨m, rest, hmem, _, rfl⟩ := take_spec htake
    exact recorded_setMirror hmem rfl rfl
  | receive id =>
    dsimp only [Host.step] at hs
    split at hs
    · rename_i m hmem
      split at hs
      · rename_i e rest hbox
        obtain rfl := Option.some.inj hs
        exact recorded_setMirror hmem rfl (receive_moves (H := H) hbox).told
      · exact absurd hs (by simp)
    · exact absurd hs (by simp)

/-- A mirror's log after `stopped` ends there. -/
theorem stoppedLast_of_mem (hk : Kept H h) (hm : h.mirrors id = some m) (hmem : .stopped ∈ m.told) :
    StoppedLast m.told ∧ (m.docId ∈ h.forgotten ∨ h.running = false) := by
  have hslot := hk.slots id
  rw [hm] at hslot
  generalize h.subscribers.get id = s at hslot
  cases hslot with
  | live sub _ _ htold => exact absurd hmem htold
  | left _ _ htold => exact absurd hmem htold
  | stopped _ _ hlast hwhy => exact ⟨hlast, hwhy⟩

/-- A log that ends with its one `stopped` grows no more. -/
theorem eq_of_stoppedLast {l l' : List SinkEvent} (hmem : .stopped ∈ l) (hpre : l <+: l')
    (hlast : StoppedLast l') : l' = l := by
  obtain ⟨updates, rfl, hnot⟩ := hlast
  rcases List.prefix_concat_iff.1 hpre with heq | hpre
  · exact heq.symm
  · exact absurd (hpre.subset hmem) hnot

/-- A fan-out leaves no live mirror behind its doc. -/
theorem fanOut_current (hk : Kept H h) (hsub : (h.fanOut H).subscribers.get id = some sub) :
    ∃ m doc, (h.fanOut H).mirrors id = some m ∧ (h.fanOut H).docs m.docId = some doc ∧
      doc.oplog H ⊆ m.caughtUp.doc.oplog H := by
  obtain ⟨old, hold, hsome⟩ := Option.bind_eq_some_iff.1 hsub
  obtain ⟨m, hm, hid, htold, _, hfollowed, _⟩ := hk.mirror hold
  have hmir : (h.fanOut H).mirrors id = some (m.tell (Host.fanOutTo H (h.docs old.docId) old).2) :=
    tellAll_some hold hm
  cases hdoc : h.docs old.docId with
  | none =>
    rw [hdoc] at hsome
    exact absurd hsome (by simp [Host.fanOutTo])
  | some doc =>
    obtain ⟨sub', es, heq, _, hfollowed', _, hall⟩ := fanOutTo_live doc hfollowed htold
    rw [hdoc, heq] at hmir
    refine ⟨_, doc, hmir, ?_, hfollowed'.oplog hall⟩
    show h.docs m.docId = some doc
    rw [hid, hdoc]

/-- The daemon and its windows, in any interleaving: what the host believes a live mirror to have,
the mirror holds once it has applied what it was sent; after a fan-out that is the whole doc; a
mirror of a forgotten doc has by then been told `stopped`, unless its window had left; and that is
the last thing it is told. -/
theorem mirrors_converge [DecidableEq δ] (hr : (hosting H δ).Reachable h) :
    (∀ id sub, h.subscribers.get id = some sub →
      ∃ m, h.mirrors id = some m ∧ sub.lastSent.ids ⊆ m.caughtUp.doc.oplog H) ∧
    (∀ h', h.step H .fanOut = some h' →
      (∀ id sub, h'.subscribers.get id = some sub →
        ∃ m doc, h'.mirrors id = some m ∧ h'.docs m.docId = some doc ∧
          doc.oplog H ⊆ m.caughtUp.doc.oplog H) ∧
      ∀ id m, h'.mirrors id = some m → m.docId ∈ h'.forgotten → m.left = false →
        StoppedLast m.told) ∧
    ∀ id m, h.mirrors id = some m → .stopped ∈ m.told →
      (m.docId ∈ h.forgotten ∨ h.running = false) ∧ StoppedLast m.told ∧
      ∀ l h', h.step H l = some h' → ∃ m', h'.mirrors id = some m' ∧ m'.told = m.told := by
  have hk := hosting_kept hr
  refine ⟨fun id sub hsub => ?_, fun h' hs => ?_, fun id m hm hmem => ?_⟩
  · obtain ⟨m, hm, _, _, _, hfollowed, _⟩ := hk.mirror hsub
    exact ⟨m, hm, hfollowed.oplog hfollowed.covered⟩
  · have hk' := step_kept hk hs
    obtain rfl : h.fanOut H = h' := by
      dsimp only [Host.step] at hs
      split at hs
      · exact Option.some.inj hs
      · exact absurd hs (by simp)
    refine ⟨fun id sub hsub => fanOut_current hk hsub, fun id m hm hforgot hleft => ?_⟩
    have hslot := hk'.slots id
    rw [hm] at hslot
    generalize hsub : (h.fanOut H).subscribers.get id = s at hslot
    cases hslot with
    | live sub _ hid _ _ _ _ =>
      obtain ⟨m', doc, hm', hdoc, _⟩ := fanOut_current hk hsub
      obtain rfl : m = m' := Option.some.inj (hm.symm.trans hm')
      exact absurd hforgot (hk'.not_forgotten hdoc)
    | left _ hl _ => exact absurd (hl.symm.trans hleft) (by simp)
    | stopped _ _ hlast _ => exact hlast
  · obtain ⟨hlast, hwhy⟩ := stoppedLast_of_mem hk hm hmem
    refine ⟨hwhy, hlast, fun l h' hs => ?_⟩
    obtain ⟨m', hm', hpre⟩ := step_recorded hk hs id m hm
    have hlast' := (stoppedLast_of_mem (step_kept hk hs) hm' (hpre.subset hmem)).1
    exact ⟨m', hm', eq_of_stoppedLast hmem hpre hlast'⟩

end Steps

/-- Two windows on one doc: one edits, a command and a frame add to the doc, one window leaves and
the doc is closed under the other. -/
def editedThenClosed : List (HostStep ℕ) :=
  [.createDoc 0 {⟨1, 0⟩}, .subscribe 0, .subscribe 0, .commit 0 ⟨2, 0⟩, .flush 0, .onImport 0,
    .fanOut, .grow 0 {⟨3, 0⟩, ⟨4, 1⟩}, .fanOut, .receive 1, .unsubscribe 0, .forgetDoc 0, .fanOut]

theorem mirrors_converge_editedThenClosed :
    ∃ h m, (hosting .byPeer ℕ).exec ⟨fun _ => none, [], .empty, 0, true, fun _ => none⟩
        editedThenClosed = some h ∧ h.mirrors 1 = some m ∧
      m.doc.oplog .byPeer = {⟨1, 0⟩, ⟨2, 0⟩} ∧
      m.caughtUp.doc.oplog .byPeer = {⟨1, 0⟩, ⟨2, 0⟩, ⟨3, 0⟩} ∧ StoppedLast m.told := by
  have hrun : (((hosting .byPeer ℕ).exec ⟨fun _ => none, [], .empty, 0, true, fun _ => none⟩
      editedThenClosed).bind fun h => (h.mirrors 1).map fun m =>
        decide (m.doc.oplog .byPeer = {⟨1, 0⟩, ⟨2, 0⟩} ∧
          m.caughtUp.doc.oplog .byPeer = {⟨1, 0⟩, ⟨2, 0⟩, ⟨3, 0⟩} ∧ .stopped ∈ m.told)) =
      some true := by
    decide +kernel
  obtain ⟨h, hh, hm⟩ := Option.bind_eq_some_iff.1 hrun
  obtain ⟨m, hm, hfacts⟩ := Option.map_eq_some_iff.1 hm
  obtain ⟨hdoc, hcaught, hmem⟩ := of_decide_eq_true hfacts
  have hr : (hosting .byPeer ℕ).Reachable h := Machine.reach_of_exec ⟨_, rfl⟩ hh
  exact ⟨h, m, hh, hm, hdoc, hcaught, ((mirrors_converge hr).2.2 1 m hm hmem).2.1⟩

end Monoplan.Daemon
