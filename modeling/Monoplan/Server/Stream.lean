import Monoplan.Base.NoSkip
import Monoplan.Server.Ws

/-!
# What a connection is delivered

The numbers a connection delivers to its client come from three places: the pull loop, the
broadcast channel and the acks of its own pushes.  `Session.marks` reads them off the
socket, and `NeverSkips` says that none of them runs ahead of what was delivered before.

Nothing in the server forces that.  A push commits its rows, then broadcasts them, then acks
them, and another session can run in between each two of the three.  `InOrder` is the order
of steps that is needed:

* a channel is read only after the connection's pull has been answered;
* rows are broadcast only when no session still holds lower ones back;
* a push is acked only while the connection is subscribed and nothing lower is still queued
  for it or held back by another session;
* no row above the cursor of a running pull has been compacted.

`StreamInv` is the invariant behind it.  Its core is `cover`: what a subscribed connection
has not been delivered yet is queued for it, held back by a session that committed it, or
about to be acked to it.
-/

namespace Monoplan.Server

open Monoplan.Base Monoplan.Protocol

variable {β : Type*}

/-! ## Reading a socket -/

/-- What an event means for the stream of numbers. -/
def Event.marks : Event β → List Mark
  | .received (.pullUpdates since) => [.start since]
  | .received _ => []
  | .sent f => Mark.items f.seqs

/-- The numbers a task has committed and is about to ack. -/
def Pc.acks : Pc β → List ℕ
  | .committed inserted => inserted.acks.map PushAck.seq
  | .evaluating (.push acks) _ => acks.map PushAck.seq
  | _ => []

/-- The numbers a task has committed and not broadcast yet. -/
def Pc.heldBack : Pc β → List ℕ
  | .committed inserted => inserted.fresh.map StoredBlob.seq
  | _ => []

/-- The cursor of a running pull. -/
def Pc.cursor : Pc β → Option ℕ
  | .pulling cursor => some cursor
  | _ => none

/-- A push is between its commit and its acks. -/
def Pc.isPushing : Pc β → Bool
  | .committed _ => true
  | .evaluating (.push _) _ => true
  | _ => false

namespace Session

/-- The stream of numbers on a connection's socket. -/
def marks (s : Session β) : List Mark := s.log.flatMap Event.marks

def acks (s : Session β) : List ℕ := s.pc.acks

def heldBack (s : Session β) : List ℕ := s.pc.heldBack

@[simp] theorem marks_goto (s : Session β) (pc : Pc β) : (s.goto pc).marks = s.marks := rfl
@[simp] theorem marks_withDoc (s : Session β) (o : Option OpenDoc) :
    (s.withDoc o).marks = s.marks := rfl
@[simp] theorem marks_record (s : Session β) (es : List (Event β)) :
    (s.record es).marks = s.marks ++ es.flatMap Event.marks := by
  simp [marks]
@[simp] theorem marks_send (s : Session β) (f : ServerFrame β) :
    (s.send f).marks = s.marks ++ Mark.items f.seqs := by
  simp [marks, Event.marks]
@[simp] theorem acks_goto (s : Session β) (pc : Pc β) : (s.goto pc).acks = pc.acks := rfl
@[simp] theorem acks_withDoc (s : Session β) (o : Option OpenDoc) :
    (s.withDoc o).acks = s.acks := rfl
@[simp] theorem acks_record (s : Session β) (es : List (Event β)) :
    (s.record es).acks = s.acks := rfl
@[simp] theorem acks_send (s : Session β) (f : ServerFrame β) : (s.send f).acks = s.acks := rfl
@[simp] theorem heldBack_goto (s : Session β) (pc : Pc β) :
    (s.goto pc).heldBack = pc.heldBack := rfl
@[simp] theorem heldBack_withDoc (s : Session β) (o : Option OpenDoc) :
    (s.withDoc o).heldBack = s.heldBack := rfl
@[simp] theorem heldBack_record (s : Session β) (es : List (Event β)) :
    (s.record es).heldBack = s.heldBack := rfl
@[simp] theorem heldBack_send (s : Session β) (f : ServerFrame β) :
    (s.send f).heldBack = s.heldBack := rfl

end Session

/-- Some other session holds number `n` back. -/
def World.OthersHold (w : World β) (c : ConnId) (n : ℕ) : Prop :=
  ∃ d t, d ≠ c ∧ w.sessions d = some t ∧ n ∈ t.heldBack

/-! ## The order of steps -/

/-- What the task of `c` may do next without letting a number run ahead. -/
def ResumeInOrder (w : World β) (c : ConnId) (s : Session β) : Prop :=
  match s.pc with
  | .committed inserted =>
    ∀ n ∈ inserted.fresh.map StoredBlob.seq, ∀ m, w.OthersHold c m → n ≤ m
  | .evaluating (.push acks) (.decide ..) =>
    ∀ o, s.openDoc = some o → o.pulled = true ∧ w.registry.Registered o.sub ∧
      ∀ a ∈ acks.map PushAck.seq, ∀ n,
        n ∈ w.registry.queued o.sub ∨ w.OthersHold c n → a ≤ n
  | .pulling cursor =>
    ∀ n, cursor < n → n < w.db.updates.nextSeq → n ∈ w.db.updates.seqs
  | _ => True

/-- **The order of steps that keeps every stream dense.** -/
def InOrder (w : World β) : Label β → Prop
  | .deliver c => ∀ s o m rest, w.sessions c = some s → s.openDoc = some o →
      w.registry.channels o.sub = m :: rest → m.seqs ≠ [] → o.pulled = true
  | .resume c => ∀ s, w.sessions c = some s → ResumeInOrder w c s
  | _ => True

/-! ## The invariant -/

/-- The part of the invariant about one connection. -/
structure SessionInv (w : World β) (c : ConnId) (s : Session β) : Prop where
  /-- Before the first pull nothing has been delivered. -/
  shape : Mark.origin s.marks = none → s.marks = []
  dense : Mark.NeverSkips s.marks
  /-- A push holds the document open. -/
  bound : s.pc.isPushing = true → s.openDoc ≠ none
  subBelow : ∀ o, s.openDoc = some o → o.sub < w.registry.nextSubId
  pulled : ∀ o, s.openDoc = some o → o.pulled = true → Mark.origin s.marks ≠ none
  cursor : ∀ k, s.pc.cursor = some k → Mark.origin s.marks ≠ none ∧ k ≤ Mark.top s.marks
  ackBelow : ∀ n ∈ s.acks, n < w.db.updates.nextSeq
  heldBelow : ∀ n ∈ s.heldBack, n < w.db.updates.nextSeq
  heldAscending : s.heldBack.Pairwise (· < ·)
  /-- What has not been delivered is queued, held back by another session, or about to be
  acked. -/
  cover : ∀ o, s.openDoc = some o → o.pulled = true → w.registry.Registered o.sub →
    ∀ n, Mark.top s.marks < n → n < w.db.updates.nextSeq →
      n ∈ w.registry.queued o.sub ∨ w.OthersHold c n ∨ n ∈ s.acks
  /-- A channel has no gap, also after its registry entry went. -/
  behind : ∀ o, s.openDoc = some o → o.pulled = true →
    ∀ m ∈ w.registry.queued o.sub, ∀ n, Mark.top s.marks < n → n < m →
      n ∈ w.registry.queued o.sub ∨ n ∈ s.acks
  /-- Below a number about to be acked there is nothing new that comes after it. -/
  order : ∀ o, s.openDoc = some o → o.pulled = true → w.registry.Registered o.sub →
    ∀ l₁ a l₂, s.acks = l₁ ++ a :: l₂ → ∀ n, Mark.top s.marks < n → n < a →
      n ∈ l₁ ∨ n ∈ w.registry.queued o.sub ∨ w.OthersHold c n

/-- **The stream invariant.** -/
structure StreamInv (w : World β) : Prop where
  registry : w.registry.Wf
  session : ∀ c s, w.sessions c = some s → SessionInv w c s
  subInj : ∀ c d s t o p, w.sessions c = some s → w.sessions d = some t →
    s.openDoc = some o → t.openDoc = some p → o.sub = p.sub → c = d
  heldDisjoint : ∀ c d s t n, w.sessions c = some s → w.sessions d = some t →
    n ∈ s.heldBack → n ∈ t.heldBack → c = d
  queueBelow : ∀ j, ∀ n ∈ w.registry.queued j, n < w.db.updates.nextSeq
  queueAscending : ∀ j, (w.registry.queued j).Pairwise (· < ·)
  /-- Whatever is held back is above whatever is queued anywhere. -/
  queueHeld : ∀ j, ∀ n ∈ w.registry.queued j, ∀ c s, w.sessions c = some s →
    ∀ m ∈ s.heldBack, n < m

/-! ## Steps that deliver nothing -/

/-- A session step that delivers nothing and holds nothing new: it may ask for a pull, move
between program points, and drop or freshly bind the document. -/
structure QuietSession (fresh : ℕ) (s s' : Session β) : Prop where
  heldBack : s'.heldBack = s.heldBack
  marks : s'.marks = s.marks ∨ ∃ k, s'.marks = s.marks ++ [.start k]
  cursor : ∀ k, s'.pc.cursor = some k →
    s.pc.cursor = some k ∨ s'.marks = s.marks ++ [.start k]
  bound : s'.pc.isPushing = true → s'.openDoc ≠ none
  acks : ∀ n ∈ s'.acks, n ∈ s.acks
  doc : ∀ o', s'.openDoc = some o' →
    (s'.acks = s.acks ∧ ∃ o, s.openDoc = some o ∧ o'.sub = o.sub ∧ o'.pulled = o.pulled) ∨
      (o'.sub = fresh ∧ o'.pulled = false)

/-- A registry step that queues no numbers. -/
structure QuietRegistry (r r' : SyncSessions β) : Prop where
  wf : r'.Wf
  next : r.nextSubId ≤ r'.nextSubId
  queued : ∀ j, r'.queued j = [] ∧ r.nextSubId ≤ j ∨ r'.queued j = r.queued j
  registered : ∀ j, j < r.nextSubId → r'.Registered j → r.Registered j

/-- A step of the world that delivers nothing; at most the session of `c` moves. -/
structure QuietStep (w w' : World β) (c : ConnId) : Prop where
  registry : QuietRegistry w.registry w'.registry
  nextSeq : w'.db.updates.nextSeq = w.db.updates.nextSeq
  others : ∀ d, d ≠ c → w'.sessions d = w.sessions d
  self : ∀ s', w'.sessions c = some s' →
    w.sessions c = some s' ∨ (w.sessions c = none ∧ ∃ auth, s' = .new auth) ∨
      ∃ s, w.sessions c = some s ∧ QuietSession w.registry.nextSubId s s' ∧
        ∀ o', s'.openDoc = some o' → o'.sub < w'.registry.nextSubId
  kept : ∀ s, w.sessions c = some s → ∃ s', w'.sessions c = some s' ∧ s'.heldBack = s.heldBack

theorem QuietRegistry.refl {r : SyncSessions β} (h : r.Wf) : QuietRegistry r r :=
  ⟨h, le_rfl, fun _ => .inr rfl, fun _ _ hr => hr⟩

theorem QuietRegistry.queued_of_lt {r r' : SyncSessions β} (h : QuietRegistry r r') {j : ℕ}
    (hj : j < r.nextSubId) : r'.queued j = r.queued j := by
  rcases h.queued j with ⟨-, hle⟩ | heq
  · omega
  · exact heq

/-- What the world may do around a session that does not move: its subscription may end,
its channel may grow, and numbers may pass from the others' hands into its channel. -/
theorem SessionInv.transport {w w' : World β} {c : ConnId} {s : Session β}
    (h : SessionInv w c s)
    (hsub : w.registry.nextSubId ≤ w'.registry.nextSubId)
    (hn : w.db.updates.nextSeq ≤ w'.db.updates.nextSeq)
    (hcover : ∀ o, s.openDoc = some o → w'.registry.Registered o.sub →
      w.registry.Registered o.sub ∧
      (∀ n ∈ w.registry.queued o.sub, n ∈ w'.registry.queued o.sub) ∧
      (∀ n, w.OthersHold c n → n ∈ w'.registry.queued o.sub ∨ w'.OthersHold c n) ∧
      (∀ n, w.db.updates.nextSeq ≤ n → n < w'.db.updates.nextSeq → w'.OthersHold c n))
    (hbehind : ∀ o, s.openDoc = some o → o.pulled = true →
      ∀ m ∈ w'.registry.queued o.sub, ∀ n, Mark.top s.marks < n → n < m →
        n ∈ w'.registry.queued o.sub ∨ n ∈ s.acks) : SessionInv w' c s where
  shape := h.shape
  dense := h.dense
  bound := h.bound
  subBelow o hso := lt_of_lt_of_le (h.subBelow o hso) hsub
  pulled := h.pulled
  cursor := h.cursor
  ackBelow n hmem := lt_of_lt_of_le (h.ackBelow n hmem) hn
  heldBelow n hmem := lt_of_lt_of_le (h.heldBelow n hmem) hn
  heldAscending := h.heldAscending
  cover o hso hp hreg n htop hlt := by
    obtain ⟨hreg, hkeep, hpass, hnew⟩ := hcover o hso hreg
    by_cases hold : n < w.db.updates.nextSeq
    · rcases h.cover o hso hp hreg n htop hold with hq | hh | ha
      · exact .inl (hkeep n hq)
      · rcases hpass n hh with hq | hh
        · exact .inl hq
        · exact .inr (.inl hh)
      · exact .inr (.inr ha)
    · exact .inr (.inl (hnew n (not_lt.1 hold) hlt))
  behind := hbehind
  order o hso hp hreg l₁ a l₂ hsplit n htop hlt := by
    obtain ⟨hreg, hkeep, hpass, -⟩ := hcover o hso hreg
    rcases h.order o hso hp hreg l₁ a l₂ hsplit n htop hlt with hl | hq | hh
    · exact .inl hl
    · exact .inr (.inl (hkeep n hq))
    · exact .inr (hpass n hh)

/-- The invariant of a session that does not move survives a quiet world step. -/
theorem SessionInv.quietWorld {w w' : World β} {c : ConnId} {s : Session β}
    (h : SessionInv w c s) (hr : QuietRegistry w.registry w'.registry)
    (hn : w'.db.updates.nextSeq = w.db.updates.nextSeq)
    (ho : ∀ n, w.OthersHold c n → w'.OthersHold c n) : SessionInv w' c s := by
  refine h.transport hr.next hn.ge ?_ ?_
  · intro o hso hreg
    have hsub := h.subBelow o hso
    refine ⟨hr.registered _ hsub hreg, ?_, fun n hh => .inr (ho n hh), fun n hle hlt => ?_⟩
    · rw [hr.queued_of_lt hsub]
      exact fun n hmem => hmem
    · omega
  · intro o hso hp
    rw [hr.queued_of_lt (h.subBelow o hso)]
    exact h.behind o hso hp

/-- A quiet session step keeps the session's invariant. -/
theorem SessionInv.quiet {w : World β} {c : ConnId} {fresh : ℕ} {s s' : Session β}
    (h : SessionInv w c s) (hq : QuietSession fresh s s')
    (hsub : ∀ o', s'.openDoc = some o' → o'.sub < w.registry.nextSubId) : SessionInv w c s' := by
  have hshape : Mark.origin s'.marks = none → s'.marks = [] := by
    rcases hq.marks with heq | ⟨k, heq⟩
    · rw [heq]
      exact h.shape
    · rw [heq]
      exact fun hnone => absurd hnone (Mark.origin_start _ k)
  have horigin : Mark.origin s.marks ≠ none → Mark.origin s'.marks ≠ none := by
    rcases hq.marks with heq | ⟨k, heq⟩
    · rw [heq]
      exact id
    · rw [heq]
      exact fun _ => Mark.origin_start _ k
  have htop : Mark.top s.marks ≤ Mark.top s'.marks := by
    rcases hq.marks with heq | ⟨k, heq⟩
    · rw [heq]
    · rw [heq]
      exact (Mark.top_start h.shape k).1
  -- a document bound afresh has not been pulled, so only a kept one has anything to show
  have hkept : ∀ o', s'.openDoc = some o' → o'.pulled = true →
      s'.acks = s.acks ∧ ∃ o, s.openDoc = some o ∧ o'.sub = o.sub ∧ o.pulled = true := by
    intro o' ho' hp
    rcases hq.doc o' ho' with ⟨hacks, o, ho, hsub, hpull⟩ | ⟨-, hpull⟩
    · exact ⟨hacks, o, ho, hsub, hpull ▸ hp⟩
    · rw [hpull] at hp
      cases hp
  refine ⟨hshape, ?_, hq.bound, hsub, ?_, ?_, fun n hn => h.ackBelow n (hq.acks n hn), ?_, ?_,
    ?_, ?_, ?_⟩
  · rcases hq.marks with heq | ⟨k, heq⟩
    · rw [heq]
      exact h.dense
    · rw [heq]
      exact h.dense.start h.shape k
  · intro o' ho' hp
    obtain ⟨-, o, ho, -, hpull⟩ := hkept o' ho' hp
    exact horigin (h.pulled o ho hpull)
  · intro k hk
    rcases hq.cursor k hk with hold | hnew
    · obtain ⟨ho, hle⟩ := h.cursor k hold
      exact ⟨horigin ho, le_trans hle htop⟩
    · rw [hnew]
      exact ⟨Mark.origin_start _ k, (Mark.top_start h.shape k).2⟩
  · rw [hq.heldBack]
    exact h.heldBelow
  · rw [hq.heldBack]
    exact h.heldAscending
  · intro o' ho' hp hreg n hn hlt
    obtain ⟨hacks, o, ho, hsub, hpull⟩ := hkept o' ho' hp
    rw [hsub] at hreg ⊢
    rw [hacks]
    exact h.cover o ho hpull hreg n (lt_of_le_of_lt htop hn) hlt
  · intro o' ho' hp m hm n hn hlt
    obtain ⟨hacks, o, ho, hsub, hpull⟩ := hkept o' ho' hp
    rw [hsub] at hm ⊢
    rw [hacks]
    exact h.behind o ho hpull m hm n (lt_of_le_of_lt htop hn) hlt
  · intro o' ho' hp hreg l₁ a l₂ hsplit n hn hlt
    obtain ⟨hacks, o, ho, hsub, hpull⟩ := hkept o' ho' hp
    rw [hsub] at hreg ⊢
    rw [hacks] at hsplit
    exact h.order o ho hpull hreg l₁ a l₂ hsplit n (lt_of_le_of_lt htop hn) hlt

theorem sessionInv_new (w : World β) (c : ConnId) (auth : DeviceAuth) :
    SessionInv w c (.new auth) where
  shape _ := rfl
  dense := by intro t ht; cases ht
  bound h := by cases h
  subBelow o ho := by cases ho
  pulled o ho := by cases ho
  cursor k hk := by cases hk
  ackBelow n hn := by cases hn
  heldBelow n hn := by cases hn
  heldAscending := List.Pairwise.nil
  cover o ho := by cases ho
  behind o ho := by cases ho
  order o ho := by cases ho

/-- Every session of the new world holds back what some session held back before. -/
theorem QuietStep.heldBack_of {w w' : World β} {c : ConnId} (hq : QuietStep w w' c)
    {d : ConnId} {t' : Session β} (ht : w'.sessions d = some t') :
    t'.heldBack = [] ∨ ∃ t, w.sessions d = some t ∧ t'.heldBack = t.heldBack := by
  by_cases hd : d = c
  · subst hd
    rcases hq.self t' ht with hs | ⟨-, auth, rfl⟩ | ⟨s, hs, hquiet, -⟩
    · exact .inr ⟨t', hs, rfl⟩
    · exact .inl rfl
    · exact .inr ⟨s, hs, hquiet.heldBack⟩
  · exact .inr ⟨t', by rw [← hq.others d hd]; exact ht, rfl⟩

theorem QuietStep.othersHold {w w' : World β} {c : ConnId} (hq : QuietStep w w' c)
    {d : ConnId} {n : ℕ} (h : w.OthersHold d n) : w'.OthersHold d n := by
  obtain ⟨e, t, hne, ht, hn⟩ := h
  by_cases he : e = c
  · subst he
    obtain ⟨t', ht', hheld⟩ := hq.kept t ht
    exact ⟨e, t', hne, ht', hheld ▸ hn⟩
  · exact ⟨e, t, hne, by rw [hq.others e he]; exact ht, hn⟩

/-- **Quiet steps keep the invariant.** -/
theorem StreamInv.quiet {w w' : World β} {c : ConnId} (h : StreamInv w)
    (hq : QuietStep w w' c) : StreamInv w' := by
  have hself : ∀ s', w'.sessions c = some s' → SessionInv w' c s' := by
    intro s' hs'
    rcases hq.self s' hs' with hs | ⟨-, auth, rfl⟩ | ⟨s, hs, hquiet, hsub⟩
    · exact (h.session c s' hs).quietWorld hq.registry hq.nextSeq fun n => hq.othersHold
    · exact sessionInv_new w' c auth
    · exact ((h.session c s hs).quietWorld hq.registry hq.nextSeq
        fun n => hq.othersHold).quiet hquiet hsub
  -- a document bound in the new world was bound before, or has a fresh subscription
  have hdoc : ∀ d t' o', w'.sessions d = some t' → t'.openDoc = some o' →
      (∃ t o, w.sessions d = some t ∧ t.openDoc = some o ∧ o'.sub = o.sub) ∨
        (d = c ∧ o'.sub = w.registry.nextSubId) := by
    intro d t' o' ht' ho'
    by_cases hd : d = c
    · subst hd
      rcases hq.self t' ht' with hs | ⟨-, auth, rfl⟩ | ⟨s, hs, hquiet, -⟩
      · exact .inl ⟨t', o', hs, ho', rfl⟩
      · cases ho'
      · rcases hquiet.doc o' ho' with ⟨-, o, ho, hsub, -⟩ | ⟨hsub, -⟩
        · exact .inl ⟨s, o, hs, ho, hsub⟩
        · exact .inr ⟨rfl, hsub⟩
    · exact .inl ⟨t', o', by rw [← hq.others d hd]; exact ht', ho', rfl⟩
  have hqueued : ∀ j n, n ∈ w'.registry.queued j → n ∈ w.registry.queued j := by
    intro j n hn
    rcases hq.registry.queued j with ⟨hnil, -⟩ | heq
    · rw [hnil] at hn
      cases hn
    · exact heq ▸ hn
  refine ⟨hq.registry.wf, ?_, ?_, ?_, ?_, ?_, ?_⟩
  · intro d t' ht'
    by_cases hd : d = c
    · subst hd
      exact hself t' ht'
    · rw [hq.others d hd] at ht'
      exact (h.session d t' ht').quietWorld hq.registry hq.nextSeq fun n => hq.othersHold
  · intro d e s' t' o' p' hs' ht' ho' hp' hsub
    rcases hdoc d s' o' hs' ho' with ⟨s, o, hs, ho, hso⟩ | ⟨hd, hso⟩
    · rcases hdoc e t' p' ht' hp' with ⟨t, p, ht, hp, htp⟩ | ⟨-, htp⟩
      · exact h.subInj d e s t o p hs ht ho hp (by rw [← hso, ← htp, hsub])
      · have := (h.session d s hs).subBelow o ho
        omega
    · rcases hdoc e t' p' ht' hp' with ⟨t, p, ht, hp, htp⟩ | ⟨he, -⟩
      · have := (h.session e t ht).subBelow p hp
        omega
      · exact hd.trans he.symm
  · intro d e s' t' n hs' ht' hn hm
    rcases hq.heldBack_of hs' with hnil | ⟨s, hs, hsh⟩
    · rw [hnil] at hn
      cases hn
    · rcases hq.heldBack_of ht' with hnil | ⟨t, ht, hth⟩
      · rw [hnil] at hm
        cases hm
      · exact h.heldDisjoint d e s t n hs ht (hsh ▸ hn) (hth ▸ hm)
  · intro j n hn
    rw [hq.nextSeq]
    exact h.queueBelow j n (hqueued j n hn)
  · intro j
    rcases hq.registry.queued j with ⟨hnil, -⟩ | heq
    · rw [hnil]
      exact List.Pairwise.nil
    · rw [heq]
      exact h.queueAscending j
  · intro j n hn d s' hs' m hm
    rcases hq.heldBack_of hs' with hnil | ⟨s, hs, hsh⟩
    · rw [hnil] at hm
      cases hm
    · exact h.queueHeld j n (hqueued j n hn) d s hs m (hsh ▸ hm)

/-! ## Registry operations that queue no numbers -/

theorem QuietRegistry.trans {r₁ r₂ r₃ : SyncSessions β} (h₁ : QuietRegistry r₁ r₂)
    (h₂ : QuietRegistry r₂ r₃) : QuietRegistry r₁ r₃ where
  wf := h₂.wf
  next := le_trans h₁.next h₂.next
  queued j := by
    rcases h₂.queued j with ⟨hnil, hle⟩ | heq
    · exact .inl ⟨hnil, le_trans h₁.next hle⟩
    · rw [heq]
      exact h₁.queued j
  registered j hj hr :=
    h₁.registered j hj (h₂.registered j (lt_of_lt_of_le hj h₁.next) hr)

theorem quiet_leave {r : SyncSessions β} (h : r.Wf) (gone : Subscriber → Bool) :
    QuietRegistry r (r.leave gone) where
  wf := h.leave gone
  next := (r.leave_nextSubId gone).ge
  queued j := .inr (r.queued_leave gone j)
  registered _ _ hr := hr.of_leave

theorem quiet_subscribe {r : SyncSessions β} (h : r.Wf) (d : DeviceId) (a : AccountId)
    (e : String) : QuietRegistry r (r.subscribe d a e).1 where
  wf := h.subscribe d a e
  next := by simp
  queued j := by
    rw [SyncSessions.queued_subscribe]
    split
    · rename_i hj
      exact .inl ⟨rfl, hj.ge⟩
    · exact .inr rfl
  registered j hj hr := by
    rcases hr.of_subscribe with hr | rfl
    · exact hr
    · exact absurd hj (lt_irrefl _)

theorem quiet_trySendAll {r : SyncSessions β} (h : r.Wf) {m : Outbound β} (hm : m.seqs = [])
    (ids : List ℕ) : QuietRegistry r (r.trySendAll m ids) where
  wf := { nodup := by rw [r.trySendAll_subs]; exact h.nodup
          below := by rw [r.trySendAll_subs, r.trySendAll_nextSubId]; exact h.below }
  next := by simp
  queued j := .inr (r.queued_trySendAll hm ids j)
  registered j _ hr := by
    unfold SyncSessions.Registered at hr ⊢
    rwa [r.trySendAll_subs] at hr

theorem quiet_elsewhere {r : SyncSessions β} (h : r.Wf) (k : ℕ) :
    QuietRegistry r { r with nextSubId := r.nextSubId + k } where
  wf := ⟨h.nodup, fun sub hsub => lt_of_lt_of_le (h.below sub hsub) (Nat.le_add_right _ _)⟩
  next := Nat.le_add_right _ _
  queued _ := .inr rfl
  registered _ _ hr := hr

theorem quiet_pop {r : SyncSessions β} (h : r.Wf) {id : ℕ} {m : Outbound β}
    {rest : List (Outbound β)} (hch : r.channels id = m :: rest) (hm : m.seqs = []) :
    QuietRegistry r (r.pop id rest) where
  wf := ⟨h.nodup, h.below⟩
  next := le_rfl
  queued j := by
    right
    by_cases hj : j = id
    · subst hj
      rw [SyncSessions.queued_pop_self, SyncSessions.queued, hch, List.flatMap_cons, hm, List.nil_append]
    · exact r.queued_pop_ne rest hj
  registered _ _ hr := hr

/-! ## Quiet steps of one session -/

theorem QuietStep.of_put {w w' : World β} {c : ConnId} {s s' : Session β}
    (hs : w.sessions c = some s) (hw : w'.sessions = Function.update w.sessions c (some s'))
    (hr : QuietRegistry w.registry w'.registry)
    (hn : w'.db.updates.nextSeq = w.db.updates.nextSeq)
    (hq : QuietSession w.registry.nextSubId s s')
    (hsub : ∀ o', s'.openDoc = some o' → o'.sub < w'.registry.nextSubId) : QuietStep w w' c where
  registry := hr
  nextSeq := hn
  others d hd := by rw [hw, Function.update_of_ne hd]
  self t ht := by
    rw [hw, Function.update_self, Option.some.injEq] at ht
    subst ht
    exact .inr (.inr ⟨s, hs, hq, hsub⟩)
  kept t ht := by
    rw [hs, Option.some.injEq] at ht
    subst ht
    exact ⟨s', by rw [hw, Function.update_self], hq.heldBack⟩

/-- A step of the environment. -/
theorem QuietStep.env {w w' : World β} (hw : w'.sessions = w.sessions)
    (hr : QuietRegistry w.registry w'.registry)
    (hn : w'.db.updates.nextSeq = w.db.updates.nextSeq) : QuietStep w w' 0 where
  registry := hr
  nextSeq := hn
  others d _ := by rw [hw]
  self t ht := .inl (by rw [← hw]; exact ht)
  kept t ht := ⟨t, by rw [hw]; exact ht, rfl⟩

@[simp] theorem World.releaseLease_registry (w : World β) (s : Session β) :
    (w.releaseLease s).registry = w.registry := by
  unfold World.releaseLease
  split <;> rfl

@[simp] theorem World.releaseLease_db (w : World β) (s : Session β) :
    (w.releaseLease s).db = w.db := by
  unfold World.releaseLease
  split <;> rfl

/-- Leaving the document is quiet, from a session that holds nothing back. -/
theorem quiet_dropDoc {w : World β} {c : ConnId} {s s' : Session β} (h : StreamInv w)
    (hs : w.sessions c = some s) (hheld : s.heldBack = []) (hheld' : s'.heldBack = [])
    (hmarks : s'.marks = s.marks ∨ ∃ k, s'.marks = s.marks ++ [Mark.start k])
    (hcursor : s'.pc.cursor = none) (hacks : s'.acks = [])
    (hpush : s'.pc.isPushing = false) : QuietStep w (w.dropDoc c s') c := by
  have hquiet : QuietSession w.registry.nextSubId s (s'.withDoc none) :=
    { heldBack := by simp [hheld, hheld']
      marks := by simpa using hmarks
      cursor := by simp [hcursor]
      bound := by simp [hpush]
      acks := by simp [hacks]
      doc := by simp }
  unfold World.dropDoc
  cases hdoc : s'.openDoc with
  | none =>
    have heq : s'.withDoc none = s' := by rw [← hdoc]; rfl
    rw [heq] at hquiet
    exact QuietStep.of_put hs rfl (.refl h.registry) rfl hquiet (by simp [hdoc])
  | some o =>
    exact QuietStep.of_put hs rfl (quiet_leave h.registry _) rfl hquiet (by simp)

/-- A move between program points that hold nothing, keeping the document. -/
theorem quiet_goto {w w' : World β} {c : ConnId} {s s' : Session β} (h : StreamInv w)
    (hs : w.sessions c = some s) (hw : w'.sessions = Function.update w.sessions c (some s'))
    (hr : w'.registry = w.registry) (hn : w'.db.updates.nextSeq = w.db.updates.nextSeq)
    (hheld : s.heldBack = []) (hheld' : s'.heldBack = [])
    (hmarks : s'.marks = s.marks ∨ ∃ k, s'.marks = s.marks ++ [Mark.start k])
    (hcursor : ∀ k, s'.pc.cursor = some k → s'.marks = s.marks ++ [Mark.start k])
    (hacks : s'.acks = s.acks) (hpush : s'.pc.isPushing = true → s'.openDoc ≠ none)
    (hdoc : ∀ o', s'.openDoc = some o' →
      ∃ o, s.openDoc = some o ∧ o'.sub = o.sub ∧ o'.pulled = o.pulled) : QuietStep w w' c := by
  have hreg : QuietRegistry w.registry w'.registry := by
    rw [hr]
    exact .refl h.registry
  refine QuietStep.of_put hs hw hreg hn ?_ ?_
  · exact
      { heldBack := by rw [hheld, hheld']
        marks := hmarks
        cursor := fun k hk => .inr (hcursor k hk)
        bound := hpush
        acks := fun n hmem => hacks ▸ hmem
        doc := fun o' ho' => .inl ⟨hacks, hdoc o' ho'⟩ }
  · intro o' ho'
    obtain ⟨o, ho, hsub, -⟩ := hdoc o' ho'
    rw [hsub, hr]
    exact (h.session c s hs).subBelow o ho

end Monoplan.Server
