import Mathlib.Data.List.Basic
import Mathlib.Logic.Function.Basic
import Monoplan.Base.Machine

/-!
# The way out of a window

A window edits mirror engines; `MirrorBridge` takes what they flushed out of their outboxes and
hands it to the host, one `send` after another on a chain of promises, while `subscribe` and
`unsubscribe` are called at once.  The calls reach the host in the order they are made.

* `MirrorBridge.step`: flushes, pumps, hand-offs, opens, closes and stops, with the continuations
  of the send chain running between them.
* `Flowing`: what is taken is sent or on the chain, in order, whatever happens.
* `delivered`: nothing is lost as long as no subscription is ended over an update that is not
  sent, and the first that is loses it.
-/

namespace Monoplan.Web

open Monoplan.Base

/-! ## The bridge -/

/-- What happens between the bridge, its engines and the transport. -/
inductive BridgeEvent (δ υ : Type*)
  /-- `takeMirrorOutbox` returned the update. -/
  | took (doc : δ) (update : υ)
  /-- The host answered a `subscribe`. -/
  | subscribed (doc : δ)
  | send (doc : δ) (update : υ)
  | unsubscribe (doc : δ)
  deriving DecidableEq

structure MirrorBridge (δ υ : Type*) where
  /-- The routed docs, in open order. -/
  engines : List δ
  /-- The docs whose subscribe is in flight. -/
  pending : List δ
  /-- The mirror outbox of each doc's engine. -/
  outbox : δ → List υ
  /-- The continuations on `sendChain` that have not run. -/
  sendChain : List (δ × υ)
  /-- The send the chain waits for. -/
  sending : Option (δ × υ)
  stopped : Bool
  /-- What happened so far.  Nothing reads it. -/
  log : List (BridgeEvent δ υ)

inductive BridgeStep (δ υ : Type*)
  /-- A doc's engine flushed an update into its outbox. -/
  | flush (doc : δ) (update : υ)
  | pumpOutbox
  /-- `handOff`, whose flushes put the updates in the outboxes. -/
  | handOff (flushed : List (δ × υ))
  /-- The runtime's last `onCleanup`: `handOff`, not awaited, then `stop`. -/
  | cleanup (flushed : List (δ × υ))
  /-- `open`, as far as its `subscribe` call. -/
  | openDoc (doc : δ)
  /-- The host answered the subscribe. -/
  | seeded (doc : δ)
  | close (doc : δ)
  | stop
  /-- The next continuation of the chain runs. -/
  | microtask
  /-- The host imported or refused what was sent. -/
  | settle
  deriving DecidableEq

namespace MirrorBridge

variable {δ υ : Type*} [DecidableEq δ]

/-- A new bridge. -/
def new : MirrorBridge δ υ := ⟨[], [], fun _ => [], [], none, false, []⟩

variable (b : MirrorBridge δ υ)

def flush (doc : δ) (update : υ) : MirrorBridge δ υ :=
  { b with outbox := Function.update b.outbox doc (b.outbox doc ++ [update]) }

/-- Take everything out of an outbox and put it on the chain. -/
def pumpOne (doc : δ) : MirrorBridge δ υ :=
  { b with
    outbox := Function.update b.outbox doc []
    sendChain := b.sendChain ++ (b.outbox doc).map fun u => (doc, u)
    log := b.log ++ (b.outbox doc).map (.took doc) }

def pumpOutbox : MirrorBridge δ υ :=
  if b.stopped then b else b.engines.foldl pumpOne b

def handOff (flushed : List (δ × υ)) : MirrorBridge δ υ :=
  (flushed.foldl (fun b p => b.flush p.1 p.2) b).pumpOutbox

def close (doc : δ) : MirrorBridge δ υ :=
  if doc ∈ b.engines then
    let b := b.pumpOne doc
    { b with
      engines := b.engines.filter fun d => decide (d ≠ doc)
      log := b.log ++ [.unsubscribe doc] }
  else b

def stop : MirrorBridge δ υ :=
  if b.stopped then b
  else { b with stopped := true, engines := [], log := b.log ++ b.engines.map .unsubscribe }

def step : BridgeStep δ υ → Option (MirrorBridge δ υ)
  | .flush doc update => some (b.flush doc update)
  | .pumpOutbox => some b.pumpOutbox
  | .handOff flushed => some (b.handOff flushed)
  | .cleanup flushed => some (b.handOff flushed).stop
  | .openDoc doc =>
    if b.stopped ∨ doc ∈ b.engines ∨ doc ∈ b.pending then none
    else some { b with pending := b.pending ++ [doc] }
  | .seeded doc =>
    if doc ∈ b.pending then
      let b := { b with pending := b.pending.filter fun d => decide (d ≠ doc) }
      some <|
        if b.stopped then { b with log := b.log ++ [.subscribed doc, .unsubscribe doc] }
        else
          { b with
            engines := b.engines ++ [doc]
            outbox := Function.update b.outbox doc []
            log := b.log ++ [.subscribed doc] }
    else none
  | .close doc => some (b.close doc)
  | .stop => some b.stop
  | .microtask =>
    match b.sending, b.sendChain with
    | none, (doc, u) :: rest =>
      some { b with sendChain := rest, sending := some (doc, u), log := b.log ++ [.send doc u] }
    | _, _ => none
  | .settle => if b.sending.isSome then some { b with sending := none } else none

end MirrorBridge

/-- The window at work. -/
def bridging (δ υ : Type*) [DecidableEq δ] : Machine (MirrorBridge δ υ) (BridgeStep δ υ) :=
  ⟨(· = .new), MirrorBridge.step⟩

/-! ## The host -/

/-- The host, as far as it answers this window's mirror. -/
structure MirrorHost (δ υ : Type*) where
  subscribers : List δ
  imported : List (δ × υ)
  refused : List (δ × υ)

section Host

variable {δ υ : Type*} [DecidableEq δ]

/-- `on_subscribe`, `on_import` and the end of a subscription. -/
def MirrorHost.on (h : MirrorHost δ υ) : BridgeEvent δ υ → MirrorHost δ υ
  | .took _ _ => h
  | .subscribed doc => { h with subscribers := h.subscribers ++ [doc] }
  | .unsubscribe doc => { h with subscribers := h.subscribers.filter fun d => decide (d ≠ doc) }
  | .send doc u =>
    if doc ∈ h.subscribers then { h with imported := h.imported ++ [(doc, u)] }
    else { h with refused := h.refused ++ [(doc, u)] }

/-- The host after the calls of a log, delivered in order. -/
def hostAfter (log : List (BridgeEvent δ υ)) : MirrorHost δ υ := log.foldl .on ⟨[], [], []⟩

/-! ## What was taken and what was sent -/

/-- The updates of a doc. -/
def ofDoc (doc : δ) (l : List (δ × υ)) : List υ :=
  (l.filter fun p => decide (p.1 = doc)).map Prod.snd

def takenOf (doc : δ) : List (BridgeEvent δ υ) → List υ
  | [] => []
  | .took d u :: log => if d = doc then u :: takenOf doc log else takenOf doc log
  | _ :: log => takenOf doc log

def sentOf (doc : δ) : List (BridgeEvent δ υ) → List υ
  | [] => []
  | .send d u :: log => if d = doc then u :: sentOf doc log else sentOf doc log
  | _ :: log => sentOf doc log

/-- No subscription was ended over an update that was not sent. -/
def EndsClean (log : List (BridgeEvent δ υ)) : Prop :=
  ∀ pre doc post, log = pre ++ .unsubscribe doc :: post → sentOf doc pre = takenOf doc pre

/-- Every update that was taken is sent once, in the order taken and before its subscription is
ended, and the host imports it. -/
structure Delivered (b : MirrorBridge δ υ) : Prop where
  inOrder : ∀ doc, sentOf doc b.log <+: takenOf doc b.log
  all : b.sendChain = [] → ∀ doc, sentOf doc b.log = takenOf doc b.log
  beforeEnd : EndsClean b.log
  imported : ∀ doc, ofDoc doc (hostAfter b.log).imported = sentOf doc b.log
  accepted : (hostAfter b.log).refused = []

variable {log es : List (BridgeEvent δ υ)} {doc d : δ} {l l' : List (δ × υ)}

theorem ofDoc_append : ofDoc doc (l ++ l') = ofDoc doc l ++ ofDoc doc l' := by
  simp [ofDoc]

theorem takenOf_append : takenOf doc (log ++ es) = takenOf doc log ++ takenOf doc es := by
  induction log with
  | nil => rfl
  | cons e log ih =>
    cases e with
    | took d u =>
      simp only [List.cons_append, takenOf, ih]
      split <;> rfl
    | _ => exact ih

theorem sentOf_append : sentOf doc (log ++ es) = sentOf doc log ++ sentOf doc es := by
  induction log with
  | nil => rfl
  | cons e log ih =>
    cases e with
    | send d u =>
      simp only [List.cons_append, sentOf, ih]
      split <;> rfl
    | _ => exact ih

theorem takenOf_tooks (doc d : δ) (us : List υ) :
    takenOf doc (us.map (.took d)) = if d = doc then us else [] := by
  induction us with
  | nil => simp [takenOf]
  | cons u us ih =>
    rw [List.map_cons, takenOf, ih]
    split <;> rfl

theorem sentOf_tooks (doc d : δ) (us : List υ) : sentOf doc (us.map (.took d)) = [] := by
  induction us with
  | nil => rfl
  | cons u us ih => exact ih

theorem takenOf_ends (doc : δ) (ds : List δ) :
    takenOf doc (ds.map .unsubscribe : List (BridgeEvent δ υ)) = [] := by
  induction ds with
  | nil => rfl
  | cons d ds ih => exact ih

theorem sentOf_ends (doc : δ) (ds : List δ) :
    sentOf doc (ds.map .unsubscribe : List (BridgeEvent δ υ)) = [] := by
  induction ds with
  | nil => rfl
  | cons d ds ih => exact ih

theorem endsClean_snoc {e : BridgeEvent δ υ} :
    EndsClean (log ++ [e]) ↔
      EndsClean log ∧ ∀ doc, e = .unsubscribe doc → sentOf doc log = takenOf doc log := by
  constructor
  · intro h
    refine ⟨fun pre doc post hlog => h pre doc (post ++ [e]) (by simp [hlog]), ?_⟩
    rintro doc rfl
    exact h log doc [] rfl
  · rintro ⟨h, he⟩ pre doc post hlog
    rcases List.eq_nil_or_concat post with rfl | ⟨post', e', rfl⟩
    · obtain ⟨rfl, heq⟩ := List.append_inj' hlog rfl
      exact he doc (List.cons.inj heq).1
    · have hcons : log ++ [e] = (pre ++ .unsubscribe doc :: post') ++ [e'] := by simpa using hlog
      exact h pre doc post' (List.append_inj' hcons rfl).1

/-- Subscriptions ended in a row. -/
theorem endsClean_ends {ds : List δ} :
    EndsClean (log ++ ds.map .unsubscribe) ↔
      EndsClean log ∧ ∀ doc ∈ ds, sentOf doc log = takenOf doc log := by
  induction ds generalizing log with
  | nil => simp
  | cons d ds ih =>
    have hsame : ∀ doc, sentOf doc (log ++ [BridgeEvent.unsubscribe d]) = sentOf doc log ∧
        takenOf doc (log ++ [BridgeEvent.unsubscribe d]) = takenOf doc log := by
      intro doc
      rw [sentOf_append, takenOf_append]
      exact ⟨List.append_nil _, List.append_nil _⟩
    rw [List.map_cons, ← List.singleton_append, ← List.append_assoc, ih, endsClean_snoc,
      List.forall_mem_cons, and_assoc]
    simp only [hsame, BridgeEvent.unsubscribe.injEq, forall_eq']

theorem endsClean_tooks {us : List υ} (h : EndsClean log) :
    EndsClean (log ++ us.map (.took d)) := by
  induction us generalizing log with
  | nil => simpa using h
  | cons u us ih =>
    rw [List.map_cons, ← List.singleton_append, ← List.append_assoc]
    exact ih (endsClean_snoc.2 ⟨h, fun _ he => absurd he (by simp)⟩)

theorem hostAfter_append : hostAfter (log ++ es) = es.foldl .on (hostAfter log) :=
  List.foldl_append

theorem foldl_tooks (h : MirrorHost δ υ) (us : List υ) :
    (us.map (.took d)).foldl .on h = h := by
  induction us with
  | nil => rfl
  | cons u us ih => exact ih

/-- Ending subscriptions takes the docs out and leaves the rest. -/
theorem foldl_ends (h : MirrorHost δ υ) (ds : List δ) :
    (ds.map .unsubscribe).foldl .on h =
      { h with subscribers := h.subscribers.filter fun d => decide (d ∉ ds) } := by
  induction ds generalizing h with
  | nil => simp
  | cons d ds ih =>
    rw [List.map_cons, List.foldl_cons, ih]
    simp only [MirrorHost.on, List.filter_filter]
    congr 1
    refine List.filter_congr fun e _ => ?_
    rw [← Bool.decide_and]
    exact decide_eq_decide.2 (by rw [List.mem_cons, not_or, and_comm])

end Host

/-! ## Updates on their way -/

section Flowing

variable {δ υ : Type*} [DecidableEq δ] {b b' : MirrorBridge δ υ} {l : BridgeStep δ υ} {doc : δ}

/-- The updates of a doc on the chain. -/
def MirrorBridge.waiting (b : MirrorBridge δ υ) (doc : δ) : List υ := ofDoc doc b.sendChain

/-- What is taken is sent or on the chain, whatever happens. -/
structure Flowing (b : MirrorBridge δ υ) : Prop where
  queue : ∀ doc, takenOf doc b.log = sentOf doc b.log ++ b.waiting doc
  halted : b.stopped = true → b.engines = []

/-- Every doc with an update on the chain is routed, and the host serves the routed docs. -/
structure Served (b : MirrorBridge δ υ) : Prop where
  routed : ∀ p ∈ b.sendChain, p.1 ∈ b.engines
  subscribers : ∀ doc, doc ∈ (hostAfter b.log).subscribers ↔ doc ∈ b.engines
  beforeEnd : EndsClean b.log
  imported : ∀ doc, ofDoc doc (hostAfter b.log).imported = sentOf doc b.log
  accepted : (hostAfter b.log).refused = []

theorem waiting_pumpOne (b : MirrorBridge δ υ) (d doc : δ) :
    (b.pumpOne d).waiting doc = b.waiting doc ++ if d = doc then b.outbox doc else [] := by
  have htag : ofDoc doc ((b.outbox d).map fun u => (d, u)) =
      if d = doc then b.outbox doc else [] := by
    by_cases hd : d = doc
    · subst hd
      simp [ofDoc, List.filter_map, Function.comp_def]
    · simp [ofDoc, List.filter_map, Function.comp_def, hd]
  rw [MirrorBridge.waiting, MirrorBridge.pumpOne, ofDoc_append, htag]
  rfl

theorem Flowing.pumpOne (h : Flowing b) (d : δ) : Flowing (b.pumpOne d) := by
  refine ⟨fun doc => ?_, h.halted⟩
  rw [waiting_pumpOne]
  show takenOf doc (b.log ++ _) = sentOf doc (b.log ++ _) ++ _
  rw [takenOf_append, sentOf_append, takenOf_tooks, sentOf_tooks, h.queue doc, List.append_nil,
    List.append_assoc]
  by_cases hd : d = doc
  · rw [if_pos hd, if_pos hd, hd]
  · rw [if_neg hd, if_neg hd]

theorem Served.pumpOne (h : Served b) {d : δ} (hd : d ∈ b.engines) : Served (b.pumpOne d) := by
  have hhost : hostAfter (b.pumpOne d).log = hostAfter b.log :=
    hostAfter_append.trans (foldl_tooks _ _)
  refine ⟨fun p hp => ?_, ?_, endsClean_tooks h.beforeEnd, fun doc => ?_, ?_⟩
  · rcases List.mem_append.1 hp with hp | hp
    · exact h.routed p hp
    · obtain ⟨u, _, rfl⟩ := List.mem_map.1 hp
      exact hd
  · rw [hhost]
    exact h.subscribers
  · rw [hhost, h.imported doc]
    show _ = sentOf doc (b.log ++ _)
    rw [sentOf_append, sentOf_tooks, List.append_nil]
  · rw [hhost]
    exact h.accepted

/-- Pumping docs takes what is in their outboxes. -/
theorem waiting_pump (b : MirrorBridge δ υ) (ds : List δ) (doc : δ) :
    (ds.foldl MirrorBridge.pumpOne b).waiting doc =
      b.waiting doc ++ if doc ∈ ds then b.outbox doc else [] := by
  induction ds generalizing b with
  | nil => simp
  | cons d ds ih =>
    rw [List.foldl_cons, ih, waiting_pumpOne]
    by_cases hd : d = doc
    · subst hd
      simp [MirrorBridge.pumpOne]
    · have hne : doc ≠ d := fun heq => hd heq.symm
      simp [MirrorBridge.pumpOne, hd, hne]

theorem pump_frame (b : MirrorBridge δ υ) (ds : List δ) :
    (ds.foldl MirrorBridge.pumpOne b).engines = b.engines ∧
      (ds.foldl MirrorBridge.pumpOne b).stopped = b.stopped := by
  induction ds generalizing b with
  | nil => exact ⟨rfl, rfl⟩
  | cons d ds ih => exact ih (b.pumpOne d)

theorem Flowing.pump (h : Flowing b) (ds : List δ) : Flowing (ds.foldl MirrorBridge.pumpOne b) := by
  induction ds generalizing b with
  | nil => exact h
  | cons d ds ih => exact ih (h.pumpOne d)

theorem Served.pump (h : Served b) {ds : List δ} (hds : ∀ d ∈ ds, d ∈ b.engines) :
    Served (ds.foldl MirrorBridge.pumpOne b) := by
  induction ds generalizing b with
  | nil => exact h
  | cons d ds ih =>
    obtain ⟨hd, hds⟩ := List.forall_mem_cons.1 hds
    exact ih (h.pumpOne hd) hds

theorem Flowing.pumpOutbox (h : Flowing b) : Flowing b.pumpOutbox := by
  unfold MirrorBridge.pumpOutbox
  split
  · exact h
  · exact h.pump _

theorem Served.pumpOutbox (h : Served b) : Served b.pumpOutbox := by
  unfold MirrorBridge.pumpOutbox
  split
  · exact h
  · exact h.pump fun _ hd => hd

/-- The flushes of a hand-off. -/
theorem flushes_spec (b : MirrorBridge δ υ) (us : List (δ × υ)) :
    let b' := us.foldl (fun b p => b.flush p.1 p.2) b
    (Flowing b → Flowing b') ∧ (Served b → Served b') ∧ b'.engines = b.engines ∧
      b'.stopped = b.stopped ∧ (∀ doc, b'.waiting doc = b.waiting doc) ∧
        ∀ doc, b'.outbox doc = b.outbox doc ++ ofDoc doc us := by
  induction us generalizing b with
  | nil => exact ⟨id, id, rfl, rfl, fun _ => rfl, fun _ => (List.append_nil _).symm⟩
  | cons p us ih =>
    obtain ⟨hf, hs, heng, hstop, hwait, hout⟩ := ih (b.flush p.1 p.2)
    refine ⟨fun h => hf ⟨h.queue, h.halted⟩,
      fun h => hs ⟨h.routed, h.subscribers, h.beforeEnd, h.imported, h.accepted⟩, heng, hstop,
      hwait, fun doc => ?_⟩
    have hone : (b.flush p.1 p.2).outbox doc = b.outbox doc ++ ofDoc doc [p] := by
      by_cases hd : p.1 = doc
      · subst hd
        simp [MirrorBridge.flush, ofDoc]
      · have hne : doc ≠ p.1 := fun heq => hd heq.symm
        simp [MirrorBridge.flush, ofDoc, hd, hne]
    rw [List.foldl_cons, hout doc, hone, List.append_assoc, ← ofDoc_append, List.singleton_append]

/-- **A hand-off** takes what is in the outboxes of the routed docs and what it flushes. -/
theorem handOff_spec (b : MirrorBridge δ υ) (us : List (δ × υ)) :
    (Flowing b → Flowing (b.handOff us)) ∧ (Served b → Served (b.handOff us)) ∧
      (b.handOff us).engines = b.engines ∧ (b.handOff us).stopped = b.stopped ∧
        (b.stopped = false → ∀ doc ∈ b.engines,
          (b.handOff us).waiting doc = b.waiting doc ++ (b.outbox doc ++ ofDoc doc us)) := by
  obtain ⟨hf, hs, heng, hstop, hwait, hout⟩ := flushes_spec b us
  refine ⟨fun h => (hf h).pumpOutbox, fun h => (hs h).pumpOutbox, ?_, ?_, ?_⟩
  · unfold MirrorBridge.handOff MirrorBridge.pumpOutbox
    split
    · exact heng
    · exact (pump_frame _ _).1.trans heng
  · unfold MirrorBridge.handOff MirrorBridge.pumpOutbox
    split
    · exact hstop
    · exact (pump_frame _ _).2.trans hstop
  · intro hrun doc hdoc
    unfold MirrorBridge.handOff MirrorBridge.pumpOutbox
    rw [if_neg (by rw [hstop, hrun]; exact Bool.false_ne_true), waiting_pump, hwait,
      if_pos (heng ▸ hdoc), hout]

/-! ## Ending subscriptions -/

/-- No subscription is ended over an update that is not sent. -/
def Quiet (b : MirrorBridge δ υ) : BridgeStep δ υ → Prop
  | .close doc => doc ∈ b.engines → b.waiting doc = [] ∧ b.outbox doc = []
  | .stop => ∀ doc ∈ b.engines, b.waiting doc = []
  | .cleanup flushed =>
    ∀ doc ∈ b.engines, b.waiting doc = [] ∧ b.outbox doc = [] ∧ ofDoc doc flushed = []
  | _ => True

instance [DecidableEq υ] (b : MirrorBridge δ υ) (l : BridgeStep δ υ) : Decidable (Quiet b l) := by
  cases l with
  | close doc =>
    exact inferInstanceAs (Decidable (doc ∈ b.engines → b.waiting doc = [] ∧ b.outbox doc = []))
  | stop => exact inferInstanceAs (Decidable (∀ doc ∈ b.engines, b.waiting doc = []))
  | cleanup flushed =>
    exact inferInstanceAs (Decidable (∀ doc ∈ b.engines,
      b.waiting doc = [] ∧ b.outbox doc = [] ∧ ofDoc doc flushed = []))
  | _ => exact .isTrue trivial

theorem Flowing.sent_eq_taken (h : Flowing b) (doc : δ) :
    sentOf doc b.log = takenOf doc b.log ↔ b.waiting doc = [] := by
  rw [h.queue doc]
  exact ⟨fun heq => List.append_right_eq_self.1 heq.symm, fun hw => by rw [hw, List.append_nil]⟩

theorem Flowing.close (h : Flowing b) (doc : δ) : Flowing (b.close doc) := by
  unfold MirrorBridge.close
  split
  · rename_i hdoc
    refine ⟨fun d => ?_, fun hs => ?_⟩
    · show takenOf d (_ ++ [_]) = sentOf d (_ ++ [_]) ++ _
      rw [takenOf_append, sentOf_append, (h.pumpOne doc).queue d]
      simp [takenOf, sentOf, MirrorBridge.waiting]
    · have heng : b.engines = [] := h.halted hs
      rw [heng] at hdoc
      exact absurd hdoc List.not_mem_nil
  · exact h

theorem Flowing.stop (h : Flowing b) : Flowing b.stop := by
  unfold MirrorBridge.stop
  split
  · exact h
  · refine ⟨fun d => ?_, fun _ => rfl⟩
    show takenOf d (_ ++ _) = sentOf d (_ ++ _) ++ _
    rw [takenOf_append, sentOf_append, takenOf_ends, sentOf_ends, List.append_nil, List.append_nil,
      h.queue d]
    rfl

theorem ofDoc_eq_nil {l : List (δ × υ)} : ofDoc doc l = [] ↔ ∀ p ∈ l, p.1 ≠ doc := by
  simp [ofDoc, List.filter_eq_nil_iff]

/-- Closing a doc keeps the others served, if and only if it had nothing left to send. -/
theorem served_close (hf : Flowing b) (hs : Served b) (doc : δ) :
    (EndsClean (b.close doc).log → Quiet b (.close doc)) ∧
      (Quiet b (.close doc) → Served (b.close doc)) := by
  unfold MirrorBridge.close
  split
  · rename_i hdoc
    have hclean : EndsClean ((b.pumpOne doc).log ++ [BridgeEvent.unsubscribe doc]) ↔
        Quiet b (.close doc) := by
      rw [endsClean_snoc]
      simp only [BridgeEvent.unsubscribe.injEq, forall_eq', (hf.pumpOne doc).sent_eq_taken,
        waiting_pumpOne, if_true, List.append_eq_nil_iff, Quiet, hdoc, true_implies]
      exact and_iff_right (endsClean_tooks hs.beforeEnd)
    refine ⟨hclean.1, fun hq => ?_⟩
    obtain ⟨hwait, hout⟩ := hq hdoc
    have hs' := hs.pumpOne hdoc
    have hhost : hostAfter ((b.pumpOne doc).log ++ [BridgeEvent.unsubscribe doc]) =
        (hostAfter (b.pumpOne doc).log).on (.unsubscribe doc) := hostAfter_append
    refine ⟨fun p hp => ?_, fun d => ?_, hclean.2 hq, fun d => ?_, ?_⟩
    · have hp' : p ∈ b.sendChain := by simpa [MirrorBridge.pumpOne, hout] using hp
      refine List.mem_filter.2 ⟨hs.routed p hp', decide_eq_true ?_⟩
      exact ofDoc_eq_nil.1 hwait p hp'
    · show d ∈ (hostAfter ((b.pumpOne doc).log ++ [BridgeEvent.unsubscribe doc])).subscribers ↔ _
      rw [hhost]
      simp only [MirrorHost.on, List.mem_filter, hs'.subscribers]
    · show ofDoc d (hostAfter ((b.pumpOne doc).log ++ [BridgeEvent.unsubscribe doc])).imported =
        sentOf d ((b.pumpOne doc).log ++ [BridgeEvent.unsubscribe doc])
      rw [hhost, sentOf_append]
      exact (hs'.imported d).trans (List.append_nil _).symm
    · show (hostAfter ((b.pumpOne doc).log ++ [BridgeEvent.unsubscribe doc])).refused = []
      rw [hhost]
      exact hs'.accepted
  · rename_i hdoc
    exact ⟨fun _ hd => absurd hd hdoc, fun _ => hs⟩

/-- So does stopping. -/
theorem served_stop (hf : Flowing b) (hs : Served b) :
    (EndsClean b.stop.log → Quiet b .stop) ∧ (Quiet b .stop → Served b.stop) := by
  unfold MirrorBridge.stop
  split
  · rename_i hstop
    refine ⟨fun _ doc hdoc => ?_, fun _ => hs⟩
    rw [hf.halted hstop] at hdoc
    exact absurd hdoc List.not_mem_nil
  · have hclean : EndsClean (b.log ++ b.engines.map .unsubscribe) ↔ Quiet b .stop := by
      rw [endsClean_ends]
      simp only [hf.sent_eq_taken, Quiet]
      exact and_iff_right hs.beforeEnd
    refine ⟨hclean.1, fun hq => ?_⟩
    have hhost : hostAfter (b.log ++ b.engines.map .unsubscribe) =
        { hostAfter b.log with
          subscribers := (hostAfter b.log).subscribers.filter fun d => decide (d ∉ b.engines) } :=
      hostAfter_append.trans (foldl_ends _ _)
    refine ⟨fun p hp => ?_, fun d => ?_, hclean.2 hq, fun d => ?_, ?_⟩
    · exact absurd rfl (ofDoc_eq_nil.1 (hq p.1 (hs.routed p hp)) p hp)
    · show d ∈ (hostAfter (b.log ++ b.engines.map .unsubscribe)).subscribers ↔ _
      rw [hhost]
      simp [hs.subscribers]
    · show ofDoc d (hostAfter (b.log ++ b.engines.map .unsubscribe)).imported =
        sentOf d (b.log ++ b.engines.map .unsubscribe)
      rw [hhost, sentOf_append, sentOf_ends, List.append_nil]
      exact hs.imported d
    · show (hostAfter (b.log ++ b.engines.map .unsubscribe)).refused = []
      rw [hhost]
      exact hs.accepted

/-- A continuation runs: the oldest update on the chain is sent. -/
theorem microtask_spec {d : δ} {u : υ} {rest : List (δ × υ)} (hchain : b.sendChain = (d, u) :: rest)
    (sending : Option (δ × υ)) :
    let b' : MirrorBridge δ υ :=
      { b with sendChain := rest, sending, log := b.log ++ [BridgeEvent.send d u] }
    (Flowing b → Flowing b') ∧ (Served b → Served b') := by
  constructor
  · intro h
    refine ⟨fun doc => ?_, h.halted⟩
    have hq := h.queue doc
    have hwait : b.waiting doc = ofDoc doc [(d, u)] ++ ofDoc doc rest := by
      rw [MirrorBridge.waiting, hchain, ← ofDoc_append, List.singleton_append]
    have hone : sentOf doc [BridgeEvent.send d u] = ofDoc doc [(d, u)] := by
      by_cases hd : d = doc <;> simp [sentOf, ofDoc, hd]
    show takenOf doc (b.log ++ [BridgeEvent.send d u]) =
      sentOf doc (b.log ++ [BridgeEvent.send d u]) ++ ofDoc doc rest
    rw [takenOf_append, sentOf_append, hone, hq, hwait]
    simp [takenOf]
  · intro h
    have hrouted := h.routed (d, u) (hchain ▸ List.mem_cons_self)
    have hhost : hostAfter (b.log ++ [BridgeEvent.send d u]) =
        { hostAfter b.log with imported := (hostAfter b.log).imported ++ [(d, u)] } :=
      hostAfter_append.trans (if_pos ((h.subscribers d).2 hrouted))
    refine ⟨fun p hp => h.routed p (hchain ▸ List.mem_cons_of_mem _ hp), ?_,
      endsClean_snoc.2 ⟨h.beforeEnd, fun _ he => absurd he (by simp)⟩, fun doc => ?_, ?_⟩
    · show ∀ doc, doc ∈ (hostAfter (b.log ++ [BridgeEvent.send d u])).subscribers ↔ _
      rw [hhost]
      exact h.subscribers
    · show ofDoc doc (hostAfter (b.log ++ [BridgeEvent.send d u])).imported =
        sentOf doc (b.log ++ [BridgeEvent.send d u])
      rw [hhost, sentOf_append, ofDoc_append, h.imported doc]
      by_cases hd : d = doc <;> simp [sentOf, ofDoc, hd]
    · show (hostAfter (b.log ++ [BridgeEvent.send d u])).refused = []
      rw [hhost]
      exact h.accepted

/-- A subscribe that the host answers. -/
theorem seeded_spec (h : Flowing b) (hstep : b.step (.seeded doc) = some b') :
    Flowing b' ∧ (Served b → Served b') := by
  unfold MirrorBridge.step at hstep
  dsimp only at hstep
  split at hstep
  · obtain rfl := Option.some.inj hstep
    split
    · rename_i hstop
      -- The bridge stopped meanwhile: the lease is given back.
      have hnone : b.engines = [] := h.halted hstop
      have hhost : hostAfter (b.log ++ [BridgeEvent.subscribed doc, .unsubscribe doc]) =
          (((hostAfter b.log).on (.subscribed doc)).on (.unsubscribe doc)) := hostAfter_append
      refine ⟨⟨fun d => ?_, h.halted⟩, fun hs => ⟨hs.routed, fun d => ?_, ?_, fun d => ?_, ?_⟩⟩
      · rw [takenOf_append, sentOf_append, h.queue d]
        simp [takenOf, sentOf, MirrorBridge.waiting]
      · have hsub := hs.subscribers d
        rw [hnone] at hsub
        have hnot : d ∉ (hostAfter b.log).subscribers := fun hd => List.not_mem_nil (hsub.1 hd)
        rw [hhost, hnone]
        simp [MirrorHost.on, hnot]
      · have hsplit : b.log ++ [BridgeEvent.subscribed doc, .unsubscribe doc] =
            (b.log ++ [BridgeEvent.subscribed doc]) ++ [BridgeEvent.unsubscribe doc] := by simp
        have hdone : sentOf doc b.log = takenOf doc b.log := by
          refine (h.sent_eq_taken doc).2 (ofDoc_eq_nil.2 fun p hp => ?_)
          have hmem := hs.routed p hp
          rw [hnone] at hmem
          exact absurd hmem List.not_mem_nil
        rw [hsplit]
        refine endsClean_snoc.2 ⟨endsClean_snoc.2 ⟨hs.beforeEnd, ?_⟩, ?_⟩
        · exact fun _ he => absurd he (by simp)
        · intro d hd
          rw [← BridgeEvent.unsubscribe.inj hd, sentOf_append, takenOf_append, hdone]
          rfl
      · rw [hhost, sentOf_append]
        exact (hs.imported d).trans (List.append_nil _).symm
      · rw [hhost]
        exact hs.accepted
    · rename_i hrun
      have hhost : hostAfter (b.log ++ [BridgeEvent.subscribed doc]) =
          (hostAfter b.log).on (.subscribed doc) := hostAfter_append
      refine ⟨⟨fun d => ?_, fun hs => absurd hs hrun⟩,
        fun hs => ⟨fun p hp => List.mem_append_left _ (hs.routed p hp), fun d => ?_, ?_,
          fun d => ?_, ?_⟩⟩
      · rw [takenOf_append, sentOf_append, h.queue d]
        simp [takenOf, sentOf, MirrorBridge.waiting]
      · rw [hhost]
        simp [MirrorHost.on, hs.subscribers]
      · exact endsClean_snoc.2 ⟨hs.beforeEnd, fun _ he => absurd he (by simp)⟩
      · rw [hhost, sentOf_append]
        exact (hs.imported d).trans (List.append_nil _).symm
      · rw [hhost]
        exact hs.accepted
  · exact absurd hstep (by simp)

/-! ## Runs -/

theorem flowing_step (h : Flowing b) (hstep : b.step l = some b') : Flowing b' := by
  cases l with
  | flush doc u => exact Option.some.inj hstep ▸ ⟨h.queue, h.halted⟩
  | pumpOutbox => exact Option.some.inj hstep ▸ h.pumpOutbox
  | handOff us => exact Option.some.inj hstep ▸ (handOff_spec b us).1 h
  | cleanup us => exact Option.some.inj hstep ▸ ((handOff_spec b us).1 h).stop
  | openDoc doc =>
    unfold MirrorBridge.step at hstep
    dsimp only at hstep
    split at hstep
    · exact absurd hstep (by simp)
    · exact Option.some.inj hstep ▸ ⟨h.queue, h.halted⟩
  | seeded doc => exact (seeded_spec h hstep).1
  | close doc => exact Option.some.inj hstep ▸ h.close doc
  | stop => exact Option.some.inj hstep ▸ h.stop
  | microtask =>
    unfold MirrorBridge.step at hstep
    dsimp only at hstep
    split at hstep
    · rename_i hchain
      exact Option.some.inj hstep ▸ (microtask_spec hchain _).1 h
    · exact absurd hstep (by simp)
  | settle =>
    unfold MirrorBridge.step at hstep
    dsimp only at hstep
    split at hstep
    · exact Option.some.inj hstep ▸ ⟨h.queue, h.halted⟩
    · exact absurd hstep (by simp)

/-- A step keeps every doc served if and only if it ends no subscription too early. -/
theorem served_step (hf : Flowing b) (hs : Served b) (hstep : b.step l = some b') :
    (EndsClean b'.log → Quiet b l) ∧ (Quiet b l → Served b') := by
  cases l with
  | flush doc u =>
    obtain rfl := Option.some.inj hstep
    exact ⟨fun _ => trivial,
      fun _ => ⟨hs.routed, hs.subscribers, hs.beforeEnd, hs.imported, hs.accepted⟩⟩
  | pumpOutbox => exact Option.some.inj hstep ▸ ⟨fun _ => trivial, fun _ => hs.pumpOutbox⟩
  | handOff us =>
    exact Option.some.inj hstep ▸ ⟨fun _ => trivial, fun _ => (handOff_spec b us).2.1 hs⟩
  | cleanup us =>
    obtain rfl := Option.some.inj hstep
    obtain ⟨hf', hs', heng, hstop, hwait⟩ := handOff_spec b us
    have hiff : Quiet (b.handOff us) .stop ↔ Quiet b (.cleanup us) := by
      simp only [Quiet, heng]
      cases hst : b.stopped with
      | true =>
        rw [hf.halted hst]
        simp
      | false =>
        refine forall₂_congr fun doc hdoc => ?_
        rw [hwait hst doc hdoc, List.append_eq_nil_iff, List.append_eq_nil_iff]
    have hend := served_stop (hf' hf) (hs' hs)
    exact ⟨fun hc => hiff.1 (hend.1 hc), fun hq => hend.2 (hiff.2 hq)⟩
  | openDoc doc =>
    unfold MirrorBridge.step at hstep
    dsimp only at hstep
    split at hstep
    · exact absurd hstep (by simp)
    · obtain rfl := Option.some.inj hstep
      exact ⟨fun _ => trivial,
        fun _ => ⟨hs.routed, hs.subscribers, hs.beforeEnd, hs.imported, hs.accepted⟩⟩
  | seeded doc => exact ⟨fun _ => trivial, fun _ => (seeded_spec hf hstep).2 hs⟩
  | close doc => exact Option.some.inj hstep ▸ served_close hf hs doc
  | stop => exact Option.some.inj hstep ▸ served_stop hf hs
  | microtask =>
    unfold MirrorBridge.step at hstep
    dsimp only at hstep
    split at hstep
    · rename_i hchain
      obtain rfl := Option.some.inj hstep
      exact ⟨fun _ => trivial, fun _ => (microtask_spec hchain _).2 hs⟩
    · exact absurd hstep (by simp)
  | settle =>
    unfold MirrorBridge.step at hstep
    dsimp only at hstep
    split at hstep
    · obtain rfl := Option.some.inj hstep
      exact ⟨fun _ => trivial,
        fun _ => ⟨hs.routed, hs.subscribers, hs.beforeEnd, hs.imported, hs.accepted⟩⟩
    · exact absurd hstep (by simp)

theorem delivered_of_served (hf : Flowing b) (hs : Served b) : Delivered b := by
  refine ⟨fun doc => ⟨_, (hf.queue doc).symm⟩, fun hchain doc => ?_, hs.beforeEnd, hs.imported,
    hs.accepted⟩
  refine (hf.sent_eq_taken doc).2 ?_
  rw [MirrorBridge.waiting, hchain]
  rfl

theorem served_of_reach (h : (bridging δ υ).Reach Quiet b) : Flowing b ∧ Served b := by
  apply h.invariant
  · rintro b rfl
    refine ⟨⟨fun _ => rfl, fun _ => rfl⟩, ⟨fun p hp => absurd hp List.not_mem_nil, fun _ => ?_,
      fun pre doc post hlog => ?_, fun _ => rfl, rfl⟩⟩
    · simp [MirrorBridge.new, hostAfter]
    · exact absurd hlog (by simp [MirrorBridge.new])
  · rintro b l b' _ ⟨hf, hs⟩ hq hstep
    exact ⟨flowing_step hf hstep, (served_step hf hs hstep).2 hq⟩

/-- **No edit is lost on the way out** while no subscription is ended over an update that is not
sent, and the first step that ends one so loses it. -/
theorem delivered (h : (bridging δ υ).Reach Quiet b) :
    Delivered b ∧ ∀ l b', b.step l = some b' → (Delivered b' ↔ Quiet b l) := by
  obtain ⟨hf, hs⟩ := served_of_reach h
  refine ⟨delivered_of_served hf hs, fun l b' hstep => ⟨fun hd => ?_, fun hq => ?_⟩⟩
  · exact (served_step hf hs hstep).1 hd.beforeEnd
  · exact delivered_of_served (flowing_step hf hstep) ((served_step hf hs hstep).2 hq)

end Flowing

/-- Two docs; one is closed and the bridge stopped once what was pumped is sent. -/
def sentThenClosed : List (BridgeStep Bool ℕ) :=
  [.openDoc true, .openDoc false, .seeded true, .seeded false, .flush true 1, .flush false 2,
    .pumpOutbox, .flush true 3, .microtask, .settle, .microtask, .handOff [], .settle, .microtask,
    .close true, .settle, .stop]

theorem delivered_sentThenClosed :
    ∃ b, (bridging Bool ℕ).exec .new sentThenClosed = some b ∧ takenOf true b.log = [1, 3] ∧
      Delivered b := by
  have hrun : (((bridging Bool ℕ).exec .new sentThenClosed).map fun b =>
      decide (takenOf true b.log = [1, 3])) = some true := by
    decide
  have hok : (bridging Bool ℕ).allStepsb (fun b l => decide (Quiet b l)) .new sentThenClosed = true := by
    decide
  obtain ⟨b, hb, hfacts⟩ := Option.map_eq_some_iff.1 hrun
  refine ⟨b, hb, of_decide_eq_true hfacts, (delivered ?_).1⟩
  exact Machine.Reach.exec (.init rfl)
    (Machine.allSteps_of_allStepsb (fun _ _ h => of_decide_eq_true h) hok) hb

/-- `close` unsubscribes before the update it pumped is sent, and so does the hand-off that `stop`
follows: the host refuses it. -/
theorem sent_after_unsubscribe :
    (∃ b, (bridging Bool ℕ).exec .new
        [.openDoc true, .seeded true, .flush true 1, .close true, .microtask] = some b ∧
      b.log = [.subscribed true, .took true 1, .unsubscribe true, .send true 1] ∧
      ¬Delivered b) ∧
    ∃ b, (bridging Bool ℕ).exec .new
        [.openDoc true, .seeded true, .cleanup [(true, 1)], .microtask] = some b ∧
      b.log = [.subscribed true, .took true 1, .unsubscribe true, .send true 1] ∧
      ¬Delivered b := by
  have hlate : ∀ b : MirrorBridge Bool ℕ,
      b.log = [.subscribed true, .took true 1, .unsubscribe true, .send true 1] →
        ¬Delivered b := by
    intro b hlog hd
    have haccepted := hd.accepted
    rw [hlog] at haccepted
    exact absurd haccepted (by decide)
  constructor
  · exact ⟨_, rfl, rfl, hlate _ rfl⟩
  · exact ⟨_, rfl, rfl, hlate _ rfl⟩

end Monoplan.Web
