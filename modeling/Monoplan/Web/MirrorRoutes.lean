import Mathlib.Data.List.Basic
import Monoplan.Base.FMap
import Monoplan.Base.Machine

/-!
# The way into a window

`MirrorBridge` again, as the host sees it: `open` asks the host to subscribe and awaits the answer,
while updates, stopped signals, `close` and `stop` work on the same two maps.  What goes out of the
outboxes is in `Web.MirrorBridge`; here an engine is known by the open call that made it.

* `MirrorRoutes.step`: every call of the bridge and every answer of the host.
* `subscription`: what one open call was promised, read off the history alone.
* `routes_faithful`: the routes are what the subscriptions say, as long as no answer comes for a
  doc that was stopped meanwhile and no seed is refused by `createEngine`.  The first such answer
  breaks them.
-/

namespace Monoplan.Web

open Monoplan.Base

/-! ## The bridge -/

/-- What happens between the bridge, its engines and the host. -/
inductive RouteEvent (δ υ : Type*)
  /-- `transport.subscribe`, for an open call. -/
  | subscribe (call : ℕ) (doc : δ)
  /-- The subscribe resolved with a seed. -/
  | seeded (doc : δ)
  /-- The engine the call made is routed. -/
  | routed (call : ℕ)
  /-- `applyMirrorUpdate`, on the engine of a call. -/
  | applied (call : ℕ) (bytes : υ)
  | unsubscribe (doc : δ)
  /-- The host delivered an update. -/
  | update (doc : δ) (bytes : υ)
  /-- The host's end-of-stream signal. -/
  | stoppedDoc (doc : δ)
  /-- `stop` was called. -/
  | stop
  deriving DecidableEq

structure MirrorRoutes (δ υ : Type*) where
  /-- The engine of each routed doc, in open order. -/
  engines : List (δ × ℕ)
  /-- Updates that arrived before their engine exists. -/
  pending : FMap δ (List υ)
  /-- The open calls that await the host. -/
  opening : List (ℕ × δ)
  /-- How many open calls asked the host. -/
  calls : ℕ
  stopped : Bool
  /-- What happened so far.  Nothing reads it. -/
  log : List (RouteEvent δ υ)

inductive RouteStep (δ υ : Type*)
  | openDoc (doc : δ)
  /-- The subscribe of a call resolves and `createEngine` returns an engine. -/
  | seeded (call : ℕ)
  /-- It resolves with a seed that `createEngine` throws on. -/
  | unusable (call : ℕ)
  /-- It rejects. -/
  | rejected (call : ℕ)
  | close (doc : δ)
  | stop
  | update (doc : δ) (bytes : υ)
  | stoppedDoc (doc : δ)
  deriving DecidableEq

namespace MirrorRoutes

variable {δ υ : Type*} [DecidableEq δ]

/-- A new bridge. -/
def new : MirrorRoutes δ υ := ⟨[], .empty, [], 0, false, []⟩

variable (b : MirrorRoutes δ υ)

/-- `engines.get`. -/
def engine (doc : δ) : Option ℕ := (b.engines.find? fun p => decide (p.1 = doc)).map Prod.snd

/-- `engines.set`: a doc that is there keeps its place. -/
def setEngine (doc : δ) (call : ℕ) : List (δ × ℕ) :=
  if (b.engine doc).isSome then b.engines.map fun p => if p.1 = doc then (doc, call) else p
  else b.engines ++ [(doc, call)]

/-- `engines.delete`. -/
def dropEngine (doc : δ) : List (δ × ℕ) := b.engines.filter fun p => decide (p.1 ≠ doc)

/-- `open`, as far as its `subscribe` call. -/
def openDoc (doc : δ) : MirrorRoutes δ υ :=
  if b.stopped ∨ (b.engine doc).isSome ∨ (b.pending.get doc).isSome then b
  else
    { b with
      pending := b.pending.insert doc []
      opening := b.opening ++ [(b.calls, doc)]
      calls := b.calls + 1
      log := b.log ++ [.subscribe b.calls doc] }

/-- An open call stops awaiting the host. -/
def answered (call : ℕ) : List (ℕ × δ) := b.opening.filter fun p => decide (p.1 ≠ call)

/-- `open` goes on with the engine made from the seed. -/
def seeded (call : ℕ) (doc : δ) : MirrorRoutes δ υ :=
  let queued := (b.pending.get doc).getD []
  if b.stopped then
    { b with
      pending := b.pending.erase doc
      opening := b.answered call
      log := b.log ++ [.seeded doc, .unsubscribe doc] }
  else
    { b with
      engines := b.setEngine doc call
      pending := b.pending.erase doc
      opening := b.answered call
      log := b.log ++ ([.seeded doc, .routed call] ++ queued.map (.applied call)) }

/-- `createEngine` throws: nothing in `open` catches it. -/
def unusable (call : ℕ) (doc : δ) : MirrorRoutes δ υ :=
  { b with opening := b.answered call, log := b.log ++ [.seeded doc] }

def rejected (call : ℕ) (doc : δ) : MirrorRoutes δ υ :=
  { b with pending := b.pending.erase doc, opening := b.answered call }

def close (doc : δ) : MirrorRoutes δ υ :=
  if (b.engine doc).isSome then
    { b with engines := b.dropEngine doc, log := b.log ++ [.unsubscribe doc] }
  else b

def stop : MirrorRoutes δ υ :=
  if b.stopped then b
  else
    { b with
      stopped := true
      engines := []
      pending := .empty
      log := b.log ++ (.stop :: b.engines.map fun p => .unsubscribe p.1) }

def handleUpdate (doc : δ) (bytes : υ) : MirrorRoutes δ υ :=
  if b.stopped then b
  else
    match b.engine doc with
    | some call => { b with log := b.log ++ [.applied call bytes] }
    | none =>
      match b.pending.get doc with
      | some queue => { b with pending := b.pending.insert doc (queue ++ [bytes]) }
      | none => b

def handleStopped (doc : δ) : MirrorRoutes δ υ :=
  if b.stopped then b
  else if (b.engine doc).isSome then { b with engines := b.dropEngine doc }
  else { b with pending := b.pending.erase doc }

/-- The host speaks. -/
def hears (e : RouteEvent δ υ) : MirrorRoutes δ υ := { b with log := b.log ++ [e] }

/-- The doc an open call awaits. -/
def awaited (call : ℕ) : Option δ := (b.opening.find? fun p => decide (p.1 = call)).map Prod.snd

def step : RouteStep δ υ → Option (MirrorRoutes δ υ)
  | .openDoc doc => some (b.openDoc doc)
  | .seeded call => (b.awaited call).map (b.seeded call)
  | .unusable call => (b.awaited call).map (b.unusable call)
  | .rejected call => (b.awaited call).map (b.rejected call)
  | .close doc => some (b.close doc)
  | .stop => some b.stop
  | .update doc bytes => some ((b.hears (.update doc bytes)).handleUpdate doc bytes)
  | .stoppedDoc doc => some ((b.hears (.stoppedDoc doc)).handleStopped doc)

end MirrorRoutes

/-- The bridge at work, in any order of calls and answers. -/
def routing (δ υ : Type*) [DecidableEq δ] : Machine (MirrorRoutes δ υ) (RouteStep δ υ) :=
  ⟨(· = .new), MirrorRoutes.step⟩

/-! ## What a subscription promises -/

/-- An open call's subscription, as its history tells. -/
structure Subscription (δ υ : Type*) where
  doc : δ
  /-- The updates that arrived between the subscribe and the stop or close, in order. -/
  arrived : List υ
  /-- The host's stopped signal came since. -/
  signalled : Bool
  /-- It was stopped or closed. -/
  ended : Bool

section Promise

variable {δ υ : Type*} [DecidableEq δ]

def Subscription.on (s : Subscription δ υ) : RouteEvent δ υ → Subscription δ υ
  | .update doc bytes =>
    if doc = s.doc ∧ s.ended = false then { s with arrived := s.arrived ++ [bytes] } else s
  | .stoppedDoc doc => if doc = s.doc then { s with signalled := true, ended := true } else s
  | .unsubscribe doc => if doc = s.doc then { s with ended := true } else s
  | .stop => { s with ended := true }
  | _ => s

/-- The subscription of a call after one more event. -/
def follow (call : ℕ) (s : Option (Subscription δ υ)) (e : RouteEvent δ υ) :
    Option (Subscription δ υ) :=
  match s, e with
  | some s, e => some (s.on e)
  | none, .subscribe c doc => if c = call then some ⟨doc, [], false, false⟩ else none
  | none, _ => none

/-- The subscription of an open call, read off the history. -/
def subscription (call : ℕ) (log : List (RouteEvent δ υ)) : Option (Subscription δ υ) :=
  log.foldl (follow call) none

/-- What was applied to the engine of a call. -/
def appliedTo (call : ℕ) : List (RouteEvent δ υ) → List υ
  | [] => []
  | .applied c bytes :: log => if c = call then bytes :: appliedTo call log else appliedTo call log
  | _ :: log => appliedTo call log

/-- The subscribes of a doc that resolved. -/
def isSeed (doc : δ) : RouteEvent δ υ → Bool
  | .seeded d => decide (d = doc)
  | _ => false

def isUnsubscribe (doc : δ) : RouteEvent δ υ → Bool
  | .unsubscribe d => decide (d = doc)
  | _ => false

/-- Every subscription is honoured: what arrived is applied once, in order, to the engine that is
routed, or waits for it. -/
structure Honoured (b : MirrorRoutes δ υ) : Prop where
  /-- No doc is routed on a subscribe that a stopped signal followed. -/
  unrevived : ∀ p ∈ b.engines, ∃ s,
    subscription p.2 b.log = some s ∧ s.doc = p.1 ∧ s.signalled = false
  applied : ∀ call, .routed call ∈ b.log → ∃ s,
    subscription call b.log = some s ∧ appliedTo call b.log = s.arrived
  waiting : ∀ p ∈ b.opening, ∃ s,
    subscription p.1 b.log = some s ∧ s.doc = p.2 ∧
      (s.ended = false → b.pending.get p.2 = some s.arrived)
  /-- Subscribes are matched by at most one unsubscribe each. -/
  matched : ∀ doc, b.log.countP (isUnsubscribe doc) ≤ b.log.countP (isSeed doc)
  /-- A pending entry belongs to an open call that still waits. -/
  cleared : ∀ doc, (b.pending.get doc).isSome = true → ∃ p ∈ b.opening, p.2 = doc ∧ ∃ s,
    subscription p.1 b.log = some s ∧ s.ended = false

/-- A seed comes for a doc that was not stopped since, and is one `createEngine` takes; a call that
was stopped meanwhile does not reject while another call of the doc is open. -/
def Timely (b : MirrorRoutes δ υ) : RouteStep δ υ → Prop
  | .seeded call => b.stopped = true ∨ ∀ s ∈ subscription call b.log, s.signalled = false
  | .unusable call => b.stopped = true ∨ ∀ s ∈ subscription call b.log, s.signalled = true
  | .rejected call => b.stopped = true ∨ ∀ s ∈ subscription call b.log,
      s.signalled = true → b.pending.get s.doc = none
  | _ => True

instance decTimely (b : MirrorRoutes δ υ) : ∀ l, Decidable (Timely b l)
  | .seeded call => inferInstanceAs (Decidable (b.stopped = true ∨
      ∀ s ∈ subscription call b.log, s.signalled = false))
  | .unusable call => inferInstanceAs (Decidable (b.stopped = true ∨
      ∀ s ∈ subscription call b.log, s.signalled = true))
  | .rejected call => inferInstanceAs (Decidable (b.stopped = true ∨
      ∀ s ∈ subscription call b.log, s.signalled = true → b.pending.get s.doc = none))
  | .openDoc _ | .close _ | .stop | .update _ _ | .stoppedDoc _ => .isTrue trivial

/-! ### Reading the history -/

variable {call c : ℕ} {doc d : δ} {log es : List (RouteEvent δ υ)} {s : Subscription δ υ}

theorem subscription_append :
    subscription call (log ++ es) = es.foldl (follow call) (subscription call log) :=
  List.foldl_append

theorem foldl_follow_some (s : Subscription δ υ) (es : List (RouteEvent δ υ)) :
    es.foldl (follow call) (some s) = some (es.foldl .on s) := by
  induction es generalizing s with
  | nil => rfl
  | cons e es ih => exact ih (s.on e)

/-- A subscription goes on by what happens after. -/
theorem subscription_goesOn (h : subscription call log = some s) :
    subscription call (log ++ es) = some (es.foldl .on s) := by
  rw [subscription_append, h, foldl_follow_some]

/-- Nothing but its own subscribe makes a subscription. -/
theorem subscription_none (h : subscription call log = none)
    (hes : ∀ doc, .subscribe call doc ∉ es) : subscription call (log ++ es) = none := by
  rw [subscription_append, h]
  induction es with
  | nil => rfl
  | cons e es ih =>
    have hnone : follow call none e = none := by
      cases e with
      | subscribe c doc =>
        have hne : c ≠ call := fun hc => hes doc (hc ▸ List.mem_cons_self)
        simp [follow, hne]
      | _ => rfl
    rw [List.foldl_cons, hnone]
    exact ih fun doc hmem => hes doc (List.mem_cons_of_mem _ hmem)

/-- What no subscription heeds changes none. -/
theorem subscription_plain (hes : ∀ e ∈ es, (∀ s : Subscription δ υ, s.on e = s) ∧
    ∀ doc, .subscribe call doc ≠ e) : subscription call (log ++ es) = subscription call log := by
  cases hs : subscription call log with
  | none => exact subscription_none hs fun doc hmem => (hes _ hmem).2 doc rfl
  | some s =>
    rw [subscription_goesOn hs]
    congr 1
    induction es with
    | nil => rfl
    | cons e es ih =>
      rw [List.foldl_cons, (hes e List.mem_cons_self).1]
      exact ih fun e' he' => hes e' (List.mem_cons_of_mem _ he')

/-- Routing an engine and handing it what waited is heeded by none. -/
theorem subscription_route {us : List υ} :
    subscription c (log ++ ([RouteEvent.seeded doc, .routed call] ++ us.map (.applied call))) =
      subscription c log := by
  refine subscription_plain fun e he => ?_
  rcases List.mem_append.1 he with he | he
  · rcases List.mem_pair.1 he with rfl | rfl <;> simp [Subscription.on]
  · obtain ⟨u, _, rfl⟩ := List.mem_map.1 he
    simp [Subscription.on]

theorem isSome_subscription (hes : ∀ doc, .subscribe call doc ∉ es) :
    (subscription call (log ++ es)).isSome = (subscription call log).isSome := by
  cases h : subscription call log with
  | none => rw [subscription_none h hes]
  | some s => rw [subscription_goesOn h]; rfl

@[simp] theorem Subscription.on_doc (s : Subscription δ υ) (e : RouteEvent δ υ) :
    (s.on e).doc = s.doc := by
  cases e <;> simp only [Subscription.on] <;> split <;> rfl

theorem foldl_on_doc (s : Subscription δ υ) (es : List (RouteEvent δ υ)) :
    (es.foldl .on s).doc = s.doc := by
  induction es generalizing s with
  | nil => rfl
  | cons e es ih => exact (ih (s.on e)).trans (s.on_doc e)

/-- What is over stays over, and nothing arrives any more. -/
theorem foldl_on_of_over (h : s.ended = true) (es : List (RouteEvent δ υ)) :
    (es.foldl .on s).ended = true ∧ (es.foldl .on s).arrived = s.arrived := by
  induction es generalizing s with
  | nil => exact ⟨h, rfl⟩
  | cons e es ih =>
    have hon : (s.on e).ended = true ∧ (s.on e).arrived = s.arrived := by
      cases e <;> simp only [Subscription.on] <;> grind
    obtain ⟨hover, harr⟩ := ih hon.1
    exact ⟨hover, harr.trans hon.2⟩

/-- A signalled subscription is over. -/
theorem over_of_signalled (h : subscription call log = some s) (hs : s.signalled = true) :
    s.ended = true := by
  induction log using List.reverseRecOn generalizing s with
  | nil => exact absurd h (by simp [subscription])
  | append_singleton log e ih =>
    cases hold : subscription call log with
    | some t =>
      rw [subscription_goesOn hold] at h
      obtain rfl := Option.some.inj h
      have hkeep := ih hold
      cases e <;> simp only [List.foldl_cons, List.foldl_nil, Subscription.on] at hs ⊢ <;>
        grind
    | none =>
      rw [subscription_append, hold] at h
      cases e <;> simp only [List.foldl_cons, List.foldl_nil, follow] at h <;> grind

omit [DecidableEq δ] in
theorem appliedTo_append :
    appliedTo call (log ++ es) = appliedTo call log ++ appliedTo call es := by
  induction log with
  | nil => rfl
  | cons e log ih =>
    cases e with
    | applied c bytes =>
      simp only [List.cons_append, appliedTo, ih]
      split <;> rfl
    | _ => exact ih

omit [DecidableEq δ] in
theorem appliedTo_applied (us : List υ) :
    appliedTo call (us.map (.applied c) : List (RouteEvent δ υ)) = if c = call then us else [] := by
  induction us with
  | nil => simp [appliedTo]
  | cons u us ih =>
    rw [List.map_cons, appliedTo, ih]
    split <;> rfl

end Promise

/-! ## The maps of the bridge -/

section Maps

variable {δ υ : Type*} [DecidableEq δ] {b : MirrorRoutes δ υ} {doc : δ} {call : ℕ}

theorem mem_of_engine (h : b.engine doc = some call) : (doc, call) ∈ b.engines := by
  obtain ⟨p, hp, rfl⟩ := Option.map_eq_some_iff.1 h
  obtain rfl : p.1 = doc := by simpa using List.find?_some hp
  exact List.mem_of_find?_eq_some hp

theorem engine_isSome : (b.engine doc).isSome = true ↔ ∃ call, (doc, call) ∈ b.engines := by
  constructor
  · intro h
    obtain ⟨call, hcall⟩ := Option.isSome_iff_exists.1 h
    exact ⟨call, mem_of_engine hcall⟩
  · rintro ⟨call, hmem⟩
    rw [MirrorRoutes.engine, Option.isSome_map, List.find?_isSome]
    exact ⟨(doc, call), hmem, decide_eq_true rfl⟩

omit [DecidableEq δ] in
theorem mem_of_awaited (h : b.awaited call = some doc) : (call, doc) ∈ b.opening := by
  obtain ⟨p, hp, rfl⟩ := Option.map_eq_some_iff.1 h
  obtain rfl : p.1 = call := by simpa using List.find?_some hp
  exact List.mem_of_find?_eq_some hp

omit [DecidableEq δ] in
theorem mem_answered {p : ℕ × δ} : p ∈ b.answered call ↔ p ∈ b.opening ∧ p.1 ≠ call := by
  simp [MirrorRoutes.answered]

theorem mem_dropEngine {p : δ × ℕ} : p ∈ b.dropEngine doc ↔ p ∈ b.engines ∧ p.1 ≠ doc := by
  simp [MirrorRoutes.dropEngine]

end Maps

/-! ## The invariant -/

section Runs

variable {δ υ : Type*} [DecidableEq δ] {b b' : MirrorRoutes δ υ} {l : RouteStep δ υ}
  {doc : δ} {call : ℕ}

/-- The two maps hold what the subscriptions that are not over say, one per doc. -/
structure Routing (b : MirrorRoutes δ υ) : Prop where
  asked : ∀ call, (subscription call b.log).isSome = true ↔ call < b.calls
  once : (b.opening.map Prod.fst).Nodup
  docs : (b.engines.map Prod.fst).Nodup
  awaits : ∀ p ∈ b.opening, .routed p.1 ∉ b.log ∧ ∃ s,
    subscription p.1 b.log = some s ∧ s.doc = p.2 ∧
      (s.ended = true → s.signalled = true ∨ b.stopped = true) ∧
      (s.ended = false → b.pending.get p.2 = some s.arrived)
  routes : ∀ p ∈ b.engines, .routed p.2 ∈ b.log ∧ ∃ s,
    subscription p.2 b.log = some s ∧ s.doc = p.1 ∧ s.ended = false
  routed : ∀ call, .routed call ∈ b.log → ∃ s,
    subscription call b.log = some s ∧ appliedTo call b.log = s.arrived ∧
      (s.ended = false → (s.doc, call) ∈ b.engines)
  silent : ∀ call, .routed call ∉ b.log → appliedTo call b.log = []
  owned : ∀ doc, (b.pending.get doc).isSome = true → ∃ p ∈ b.opening, p.2 = doc ∧ ∃ s,
    subscription p.1 b.log = some s ∧ s.ended = false
  apart : ∀ p ∈ b.engines, b.pending.get p.1 = none
  single : ∀ p ∈ b.opening, ∀ q ∈ b.opening, p.2 = q.2 → ∀ s t,
    subscription p.1 b.log = some s → subscription q.1 b.log = some t →
      s.ended = false → t.ended = false → p = q
  halted : b.stopped = true → b.engines = [] ∧ b.pending = .empty ∧
    ∀ call s, subscription call b.log = some s → s.ended = true
  matched : ∀ doc, b.log.countP (isUnsubscribe doc) +
    b.engines.countP (fun p => decide (p.1 = doc)) ≤ b.log.countP (isSeed doc)

theorem Routing.honoured (h : Routing b) : Honoured b := by
  refine ⟨fun p hp => ?_, fun call hcall => ?_, fun p hp => ?_, fun doc => ?_, h.owned⟩
  · obtain ⟨_, s, hs, hdoc, hover⟩ := h.routes p hp
    refine ⟨s, hs, hdoc, Bool.eq_false_iff.2 fun hsig => ?_⟩
    exact absurd (over_of_signalled hs hsig) (by simp [hover])
  · obtain ⟨s, hs, happ, _⟩ := h.routed call hcall
    exact ⟨s, hs, happ⟩
  · obtain ⟨_, s, hs, hdoc, _, hwait⟩ := h.awaits p hp
    exact ⟨s, hs, hdoc, hwait⟩
  · exact (Nat.le_add_right _ _).trans (h.matched doc)

theorem routing_new : Routing (.new : MirrorRoutes δ υ) := by
  refine ⟨?_, ?_, ?_, ?_, ?_, ?_, ?_, ?_, ?_, ?_, ?_, ?_⟩ <;>
    simp [MirrorRoutes.new, subscription, appliedTo]

/-- An open call that is let through. -/
theorem Routing.openDoc (h : Routing b) (doc : δ) : Routing (b.openDoc doc) := by
  unfold MirrorRoutes.openDoc
  split
  · exact h
  rename_i hguard
  obtain ⟨hrun, hengine, hpending⟩ : b.stopped = false ∧ (∀ call, (doc, call) ∉ b.engines) ∧
      b.pending.get doc = none := by
    simpa [engine_isSome] using hguard
  have hnone : subscription b.calls b.log = none := by
    simpa using (h.asked b.calls).not.2 (lt_irrefl _)
  have hself : subscription b.calls (b.log ++ [RouteEvent.subscribe b.calls doc]) =
      some ⟨doc, [], false, false⟩ := by
    rw [subscription_append, hnone]
    simp [follow]
  have hsub : ∀ call, call ≠ b.calls →
      subscription call (b.log ++ [RouteEvent.subscribe b.calls doc]) = subscription call b.log := by
    intro call hne
    cases hs : subscription call b.log with
    | some s => exact subscription_goesOn hs
    | none => exact subscription_none hs (by simp [hne])
  have hlt : ∀ {call s}, subscription call b.log = some s → call ≠ b.calls := by
    intro call s hs heq
    rw [heq, hnone] at hs
    exact absurd hs (by simp)
  have hold : ∀ p ∈ b.opening, p.1 ≠ b.calls := by
    intro p hp
    obtain ⟨_, s, hs, _⟩ := h.awaits p hp
    exact hlt hs
  -- No call of the doc waits already: it would own a pending entry.
  have hfree : ∀ p ∈ b.opening, ∀ s, subscription p.1 b.log = some s → s.ended = false →
      p.2 ≠ doc := by
    intro p hp s hs hover hdoc
    obtain ⟨_, t, ht, _, _, hwait⟩ := h.awaits p hp
    obtain rfl : t = s := Option.some.inj (ht.symm.trans hs)
    have hget := hwait hover
    rw [hdoc, hpending] at hget
    exact absurd hget (by simp)
  refine ⟨fun call => ?_, ?_, h.docs, fun p hp => ?_, fun p hp => ?_, fun call hcall => ?_,
    fun call hcall => ?_, fun d hd => ?_, fun p hp => ?_,
    fun p hp q hq hpq s t hs ht hov hov' => ?_, fun hstop => absurd hstop (by simp [hrun]),
    fun d => ?_⟩
  · by_cases hc : call = b.calls
    · simp [hc, hself]
    · rw [hsub call hc, h.asked call]
      show call < b.calls ↔ call < b.calls + 1
      omega
  · rw [List.map_append, List.nodup_append]
    refine ⟨h.once, by simp, ?_⟩
    intro a ha a' ha'
    obtain ⟨p, hp, rfl⟩ := List.mem_map.1 ha
    obtain rfl : a' = b.calls := by simpa using ha'
    exact hold p hp
  · rcases List.mem_append.1 hp with hp | hp
    · obtain ⟨hnot, s, hs, hdoc, hover, hwait⟩ := h.awaits p hp
      refine ⟨by simpa using hnot, s, (hsub p.1 (hold p hp)).trans hs, hdoc, hover, fun hlive => ?_⟩
      show (b.pending.insert doc []).get p.2 = _
      rw [FMap.get_insert_ne _ _ (hfree p hp s hs hlive)]
      exact hwait hlive
    · obtain rfl : p = (b.calls, doc) := by simpa using hp
      refine ⟨fun hmem => ?_, _, hself, rfl, fun hover => absurd hover (by simp),
        fun _ => FMap.get_insert_self _ _ _⟩
      obtain ⟨s, hs, _⟩ := h.routed b.calls (by simpa using hmem)
      exact hlt hs rfl
  · obtain ⟨hmem, s, hs, hrest⟩ := h.routes p hp
    exact ⟨List.mem_append_left _ hmem, s, (hsub p.2 (hlt hs)).trans hs, hrest⟩
  · obtain ⟨s, hs, happ, hrest⟩ := h.routed call (by simpa using hcall)
    refine ⟨s, (hsub call (hlt hs)).trans hs, ?_, hrest⟩
    rw [appliedTo_append, happ]
    exact List.append_nil _
  · rw [appliedTo_append, h.silent call (by simpa using hcall)]
    rfl
  · by_cases hdoc : d = doc
    · subst hdoc
      exact ⟨_, List.mem_append_right _ (List.mem_singleton_self _), rfl, _, hself, rfl⟩
    · have hd' : (b.pending.get d).isSome = true := by
        rwa [← FMap.get_insert_ne b.pending ([] : List υ) hdoc]
      obtain ⟨p, hp, hpd, s, hs, hover⟩ := h.owned d hd'
      exact ⟨p, List.mem_append_left _ hp, hpd, s, (hsub p.1 (hold p hp)).trans hs, hover⟩
  · have hne : p.1 ≠ doc := fun heq => hengine p.2 (heq ▸ hp)
    exact (FMap.get_insert_ne _ _ hne).trans (h.apart p hp)
  · rcases List.mem_append.1 hp with hp | hp <;> rcases List.mem_append.1 hq with hq | hq
    · exact h.single p hp q hq hpq s t ((hsub p.1 (hold p hp)).symm.trans hs)
        ((hsub q.1 (hold q hq)).symm.trans ht) hov hov'
    · obtain rfl : q = (b.calls, doc) := by simpa using hq
      exact absurd hpq (hfree p hp s ((hsub p.1 (hold p hp)).symm.trans hs) hov)
    · obtain rfl : p = (b.calls, doc) := by simpa using hp
      exact absurd hpq.symm (hfree q hq t ((hsub q.1 (hold q hq)).symm.trans ht) hov')
    · rw [List.mem_singleton.1 hp, List.mem_singleton.1 hq]
  · simpa [isUnsubscribe, isSeed] using h.matched d

/-- An open call that waits, and what is known of it. -/
theorem Routing.awaited (h : Routing b) (hmem : (call, doc) ∈ b.opening) :
    (∀ p ∈ b.opening, p.1 = call → p = (call, doc)) ∧ .routed call ∉ b.log ∧ ∃ s,
      subscription call b.log = some s ∧ s.doc = doc ∧
        (b.stopped = false → s.signalled = false →
          s.ended = false ∧ b.pending.get doc = some s.arrived) := by
  obtain ⟨hnot, s, hs, hdoc, hover, hwait⟩ := h.awaits _ hmem
  refine ⟨fun p hp hcall => ?_, hnot, s, hs, hdoc, fun hrun hsig => ?_⟩
  · exact List.inj_on_of_nodup_map h.once hp hmem hcall
  · have hlive : s.ended = false := by
      refine Bool.eq_false_iff.2 fun hov => ?_
      rcases hover hov with hsig' | hstop
      · exact absurd hsig' (by simp [hsig])
      · exact absurd hstop (by simp [hrun])
    exact ⟨hlive, hwait hlive⟩

/-- A call is answered and nothing is routed; the pending entries that go were its own. -/
theorem Routing.dismiss (h : Routing b) (call : ℕ) (doc : δ) (es : List (RouteEvent δ υ))
    {pending : FMap δ (List υ)}
    (hplain : ∀ c, subscription c (b.log ++ es) = subscription c b.log)
    (hes : ∀ e ∈ es, e = .seeded doc ∨ e = .unsubscribe doc)
    (hcount : ∀ d, es.countP (isUnsubscribe d) ≤ es.countP (isSeed d))
    (hkept : ∀ p ∈ b.answered call, ∀ s, subscription p.1 b.log = some s → s.ended = false →
      pending.get p.2 = b.pending.get p.2)
    (hgone : ∀ d, (pending.get d).isSome = true → pending.get d = b.pending.get d ∧
      ∃ p ∈ b.answered call, p.2 = d ∧ ∃ s, subscription p.1 b.log = some s ∧ s.ended = false)
    (hempty : b.stopped = true → pending = .empty) :
    Routing { b with pending := pending, opening := b.answered call, log := b.log ++ es } := by
  have hrouted : ∀ c, .routed c ∈ b.log ++ es ↔ .routed c ∈ b.log := by
    intro c
    rw [List.mem_append, or_iff_left]
    exact fun hc => absurd (hes _ hc) (by simp)
  have happlied : ∀ c, appliedTo c (b.log ++ es) = appliedTo c b.log := by
    intro c
    have hnil : ∀ es : List (RouteEvent δ υ),
        (∀ e ∈ es, e = .seeded doc ∨ e = .unsubscribe doc) → appliedTo c es = [] := by
      intro es hes
      induction es with
      | nil => rfl
      | cons e es ih =>
        have hrest := ih fun e' he' => hes e' (List.mem_cons_of_mem _ he')
        rcases hes e List.mem_cons_self with rfl | rfl
        · exact hrest
        · exact hrest
    rw [appliedTo_append, hnil es hes, List.append_nil]
  refine ⟨fun c => ?_, ?_, h.docs, fun p hp => ?_, fun p hp => ?_, fun c hc => ?_, fun c hc => ?_,
    fun d hd => ?_, fun p hp => ?_, fun p hp q hq hpq s t hs ht => ?_, fun hstop => ?_,
    fun d => ?_⟩
  · rw [hplain]
    exact h.asked c
  · exact h.once.sublist (List.filter_sublist.map _)
  · obtain ⟨hnot, s, hs, hdoc, hover, hwait⟩ := h.awaits p (mem_answered.1 hp).1
    refine ⟨(hrouted p.1).not.2 hnot, s, (hplain p.1).trans hs, hdoc, hover, fun hlive => ?_⟩
    exact (hkept p hp s hs hlive).trans (hwait hlive)
  · obtain ⟨hin, s, hs, hrest⟩ := h.routes p hp
    exact ⟨(hrouted p.2).2 hin, s, (hplain p.2).trans hs, hrest⟩
  · obtain ⟨s, hs, happ, hrest⟩ := h.routed c ((hrouted c).1 hc)
    exact ⟨s, (hplain c).trans hs, (happlied c).trans happ, hrest⟩
  · exact (happlied c).trans (h.silent c ((hrouted c).not.1 hc))
  · obtain ⟨_, p, hp, hpd, s, hs, hover⟩ := hgone d hd
    exact ⟨p, hp, hpd, s, (hplain p.1).trans hs, hover⟩
  · refine Option.not_isSome_iff_eq_none.1 fun hd => ?_
    obtain ⟨heq, _⟩ := hgone p.1 hd
    rw [heq, h.apart p hp] at hd
    exact absurd hd (by simp)
  · exact h.single p (mem_answered.1 hp).1 q (mem_answered.1 hq).1 hpq s t
      ((hplain p.1).symm.trans hs) ((hplain q.1).symm.trans ht)
  · obtain ⟨heng, _, hall⟩ := h.halted hstop
    exact ⟨heng, hempty hstop, fun c s hs => hall c s ((hplain c).symm.trans hs)⟩
  · have hm := h.matched d
    have hes' := hcount d
    simp only [List.countP_append]
    omega

/-- A waiting call of another doc, or another call, keeps its entry. -/
theorem get_erase_of_live (h : Routing b) (hmem : (call, doc) ∈ b.opening)
    (hlive : ∃ s, subscription call b.log = some s ∧ s.ended = false) :
    ∀ p ∈ b.answered call, ∀ s, subscription p.1 b.log = some s → s.ended = false →
      (b.pending.erase doc).get p.2 = b.pending.get p.2 := by
  intro p hp s hs hover
  obtain ⟨hp, hne⟩ := mem_answered.1 hp
  obtain ⟨t, ht, hover'⟩ := hlive
  refine FMap.get_erase_ne _ fun hdoc => hne ?_
  exact congrArg Prod.fst (h.single p hp _ hmem hdoc s t hs ht hover hover')

/-- A pending entry of another doc has an owner that is not answered. -/
theorem owner_of_erase (h : Routing b) (hmem : (call, doc) ∈ b.opening) (d : δ)
    (hd : ((b.pending.erase doc).get d).isSome = true) :
    (b.pending.erase doc).get d = b.pending.get d ∧ ∃ p ∈ b.answered call, p.2 = d ∧
      ∃ s, subscription p.1 b.log = some s ∧ s.ended = false := by
  have hne : d ≠ doc := by
    rintro rfl
    simp at hd
  have hget := FMap.get_erase_ne b.pending hne
  rw [hget] at hd
  obtain ⟨p, hp, hpd, hlive⟩ := h.owned d hd
  refine ⟨hget, p, mem_answered.2 ⟨hp, fun hcall => hne ?_⟩, hpd, hlive⟩
  rw [← hpd, (h.awaited hmem).1 p hp hcall]

theorem erase_empty (doc : δ) : (FMap.empty : FMap δ (List υ)).erase doc = .empty :=
  FMap.ext_get fun d => by simp [FMap.get_erase]

/-- A subscribe that rejects. -/
theorem Routing.rejected (h : Routing b) (hmem : (call, doc) ∈ b.opening)
    (ht : Timely b (.rejected call)) : Routing (b.rejected call doc) := by
  obtain ⟨hself, _, s, hs, hdoc, hlive⟩ := h.awaited hmem
  have hdismiss : (∀ p ∈ b.answered call, ∀ s, subscription p.1 b.log = some s →
      s.ended = false → (b.pending.erase doc).get p.2 = b.pending.get p.2) →
      Routing (b.rejected call doc) := by
    intro hkept
    have hplain : ∀ c, subscription c (b.log ++ []) = subscription c b.log := by simp
    have := h.dismiss call doc [] hplain (by simp) (by simp) hkept
      (owner_of_erase h hmem) fun hstop => by rw [(h.halted hstop).2.1, erase_empty]
    rwa [List.append_nil] at this
  by_cases hstop : b.stopped = true
  · refine hdismiss fun p hp s hs hover => ?_
    exact absurd ((h.halted hstop).2.2 p.1 s hs) (by simp [hover])
  · cases hsig : s.signalled with
    | false =>
      refine hdismiss (get_erase_of_live h hmem ⟨s, hs, ?_⟩)
      exact (hlive (by simpa using hstop) hsig).1
    | true =>
      have hgone : b.pending.get doc = none :=
        hdoc ▸ (ht.resolve_left hstop) s hs hsig
      refine hdismiss fun p _ _ _ _ => ?_
      rw [FMap.get_erase]
      split
      · rename_i hp
        rw [hp, hgone]
      · rfl

/-- A seed that `createEngine` throws on. -/
theorem Routing.unusable (h : Routing b) (hmem : (call, doc) ∈ b.opening)
    (ht : Timely b (.unusable call)) : Routing (b.unusable call doc) := by
  obtain ⟨hself, _, s, hs, hdoc, hlive⟩ := h.awaited hmem
  have hplain : ∀ c, subscription c (b.log ++ [RouteEvent.seeded doc]) = subscription c b.log :=
    fun c => subscription_plain (by simp [Subscription.on])
  refine h.dismiss call doc _ hplain (by simp) (by simp [isUnsubscribe]) (fun _ _ _ _ _ => rfl)
    (fun d hd => ⟨rfl, ?_⟩) fun hstop => (h.halted hstop).2.1
  obtain ⟨p, hp, hpd, t, hpt, hover⟩ := h.owned d hd
  refine ⟨p, mem_answered.2 ⟨hp, fun hcall => ?_⟩, hpd, t, hpt, hover⟩
  -- The owner waits, and this call no longer does.
  obtain rfl : t = s := Option.some.inj (hpt.symm.trans (hcall ▸ hs))
  rcases ht with hstop | hsig
  · exact absurd ((h.halted hstop).2.2 call t hs) (by simp [hover])
  · exact absurd (over_of_signalled hs (hsig t hs)) (by simp [hover])

/-- A seed. -/
theorem Routing.seeded (h : Routing b) (hmem : (call, doc) ∈ b.opening)
    (ht : Timely b (.seeded call)) : Routing (b.seeded call doc) := by
  obtain ⟨hself, hnot, s, hs, hdoc, hlive⟩ := h.awaited hmem
  unfold MirrorRoutes.seeded
  dsimp only
  split
  · rename_i hstop
    obtain ⟨_, hempty, hall⟩ := h.halted hstop
    have hplain : ∀ c, subscription c (b.log ++ [RouteEvent.seeded doc, .unsubscribe doc]) =
        subscription c b.log := by
      intro c
      cases hc : subscription c b.log with
      | none => exact subscription_none hc (by simp)
      | some t =>
        have hover := hall c t hc
        rw [subscription_goesOn hc]
        obtain ⟨d, us, sig, ov⟩ := t
        obtain rfl : ov = true := hover
        simp [Subscription.on]
    refine h.dismiss call doc _ hplain (by simp) (fun d => ?_) (fun p _ t htp hover => ?_)
      (owner_of_erase h hmem) fun _ => by rw [hempty, erase_empty]
    · simp [isUnsubscribe, isSeed, List.countP_cons]
    · exact absurd (hall p.1 t htp) (by simp [hover])
  · rename_i hrun
    have hrun : b.stopped = false := by simpa using hrun
    have hsig : s.signalled = false :=
      ht.elim (fun hst => absurd hst (by simp [hrun])) fun hall => hall s hs
    obtain ⟨hover, hwait⟩ := hlive hrun hsig
    have hengine : b.engine doc = none := by
      refine Option.not_isSome_iff_eq_none.1 fun hsome => ?_
      obtain ⟨c, hc⟩ := engine_isSome.1 hsome
      exact absurd ((h.apart _ hc).symm.trans hwait) (by simp)
    have hset : b.setEngine doc call = b.engines ++ [(doc, call)] := by
      simp [MirrorRoutes.setEngine, hengine]
    simp only [hwait, hset, Option.getD_some]
    set es : List (RouteEvent δ υ) :=
      [.seeded doc, .routed call] ++ s.arrived.map (.applied call) with hes
    have hplain : ∀ c, subscription c (b.log ++ es) = subscription c b.log :=
      fun c => subscription_route
    have hrouted : ∀ c, .routed c ∈ b.log ++ es ↔ .routed c ∈ b.log ∨ c = call := by
      simp [hes]
    have happlied : ∀ c, appliedTo c (b.log ++ es) =
        appliedTo c b.log ++ if call = c then s.arrived else [] := by
      intro c
      rw [appliedTo_append, hes, appliedTo_append, appliedTo_applied]
      rfl
    have hkept := get_erase_of_live h hmem ⟨s, hs, hover⟩
    have hgone := owner_of_erase h hmem
    refine ⟨fun c => ?_, ?_, ?_, fun p hp => ?_, fun p hp => ?_, fun c hc => ?_, fun c hc => ?_,
      fun d hd => ?_, fun p hp => ?_, fun p hp q hq hpq s t hs ht => ?_, fun hstop => ?_,
      fun d => ?_⟩
    · rw [hplain]
      exact h.asked c
    · exact h.once.sublist (List.filter_sublist.map _)
    · rw [List.map_append, List.nodup_append]
      refine ⟨h.docs, by simp, ?_⟩
      intro d hd d' hd'
      obtain ⟨p, hp, rfl⟩ := List.mem_map.1 hd
      obtain rfl : d' = doc := by simpa using hd'
      rintro rfl
      exact absurd ((h.apart p hp).symm.trans hwait) (by simp)
    · obtain ⟨hp, hne⟩ := mem_answered.1 hp
      obtain ⟨hnot, t, htp, htd, hov, hw⟩ := h.awaits p hp
      refine ⟨fun hr => ((hrouted p.1).1 hr).elim hnot hne, t, (hplain p.1).trans htp, htd, hov,
        fun hl => ?_⟩
      exact (hkept p (mem_answered.2 ⟨hp, hne⟩) t htp hl).trans (hw hl)
    · rcases List.mem_append.1 hp with hp | hp
      · obtain ⟨hin, t, htp, hrest⟩ := h.routes p hp
        exact ⟨(hrouted p.2).2 (.inl hin), t, (hplain p.2).trans htp, hrest⟩
      · obtain rfl := List.mem_singleton.1 hp
        exact ⟨(hrouted call).2 (.inr rfl), s, (hplain call).trans hs, hdoc, hover⟩
    · rcases (hrouted c).1 hc with hc | rfl
      · obtain ⟨t, htc, happ, hrest⟩ := h.routed c hc
        have hne : call ≠ c := fun heq => hnot (heq ▸ hc)
        refine ⟨t, (hplain c).trans htc, ?_, fun hl => List.mem_append_left _ (hrest hl)⟩
        rw [happlied, if_neg hne, List.append_nil, happ]
      · refine ⟨s, (hplain c).trans hs, ?_, fun _ => ?_⟩
        · rw [happlied, if_pos rfl, h.silent c hnot, List.nil_append]
        · rw [hdoc]
          exact List.mem_append_right _ (List.mem_singleton_self _)
    · have hc' := (hrouted c).not.1 hc
      rw [not_or] at hc'
      rw [happlied, if_neg (Ne.symm hc'.2), h.silent c hc'.1, List.append_nil]
    · obtain ⟨_, p, hp, hpd, t, htp, hl⟩ := hgone d hd
      exact ⟨p, hp, hpd, t, (hplain p.1).trans htp, hl⟩
    · rcases List.mem_append.1 hp with hp | hp
      · refine Option.not_isSome_iff_eq_none.1 fun hd => ?_
        obtain ⟨heq, _⟩ := hgone p.1 hd
        rw [heq, h.apart p hp] at hd
        exact absurd hd (by simp)
      · obtain rfl := List.mem_singleton.1 hp
        exact FMap.get_erase_self _ _
    · exact h.single p (mem_answered.1 hp).1 q (mem_answered.1 hq).1 hpq s t
        ((hplain p.1).symm.trans hs) ((hplain q.1).symm.trans ht)
    · exact absurd hstop (by simp [hrun])
    · have hm := h.matched d
      have hun : es.countP (isUnsubscribe d) = 0 := by
        refine List.countP_eq_zero.2 fun e he => ?_
        rcases List.mem_append.1 he with he | he
        · rcases List.mem_pair.1 he with rfl | rfl <;> simp [isUnsubscribe]
        · obtain ⟨u, _, rfl⟩ := List.mem_map.1 he
          simp [isUnsubscribe]
      have hseed : (if doc = d then 1 else 0) ≤ es.countP (isSeed d) := by
        rw [hes, List.countP_append, List.countP_cons]
        simp only [isSeed, decide_eq_true_eq]
        omega
      simp only [List.countP_append, hun, List.countP_cons, List.countP_nil, decide_eq_true_eq]
      omega

theorem dropEngine_of_unrouted (h : (b.engine doc).isSome = false) :
    b.dropEngine doc = b.engines := by
  refine List.filter_eq_self.2 fun p hp => decide_eq_true fun hdoc => ?_
  obtain ⟨d, c⟩ := p
  obtain rfl : d = doc := hdoc
  exact absurd (engine_isSome.2 ⟨c, hp⟩) (by simp [h])

theorem erase_of_none {m : FMap δ (List υ)} (h : m.get doc = none) : m.erase doc = m := by
  refine FMap.ext_get fun d => ?_
  rw [FMap.get_erase]
  split
  · rename_i hd
    rw [hd, h]
  · rfl

/-- The host or `close` ends what there is of a doc. -/
theorem Routing.ends (h : Routing b) {e : RouteEvent δ υ}
    (he : e = .stoppedDoc doc ∨ e = .unsubscribe doc ∧ (b.engine doc).isSome = true) :
    Routing { b with
      engines := b.dropEngine doc, pending := b.pending.erase doc, log := b.log ++ [e] } := by
  have hsome : ∀ c, (subscription c (b.log ++ [e])).isSome = (subscription c b.log).isSome := by
    intro c
    refine isSome_subscription fun d hd => ?_
    rcases he with rfl | ⟨rfl, _⟩ <;> exact absurd hd (by simp)
  have hon : ∀ {c s}, subscription c b.log = some s →
      subscription c (b.log ++ [e]) = some (s.on e) := fun hs => subscription_goesOn hs
  have hover : ∀ s : Subscription δ υ, (s.on e).ended = false ↔ s.ended = false ∧ s.doc ≠ doc := by
    intro s
    rcases he with rfl | ⟨rfl, _⟩ <;> simp only [Subscription.on] <;> grind
  have harr : ∀ s : Subscription δ υ, (s.on e).arrived = s.arrived := by
    intro s
    rcases he with rfl | ⟨rfl, _⟩ <;> simp only [Subscription.on] <;> grind
  have hrouted : ∀ c, .routed c ∈ b.log ++ [e] ↔ .routed c ∈ b.log := by
    intro c
    rcases he with rfl | ⟨rfl, _⟩ <;> simp
  have happlied : ∀ c, appliedTo c (b.log ++ [e]) = appliedTo c b.log := by
    intro c
    rw [appliedTo_append]
    rcases he with rfl | ⟨rfl, _⟩ <;> exact List.append_nil _
  refine ⟨fun c => ?_, h.once, ?_, fun p hp => ?_, fun p hp => ?_, fun c hc => ?_,
    fun c hc => ?_, fun d hd => ?_, fun p hp => ?_, fun p hp q hq hpq s t hs ht hov hov' => ?_,
    fun hstop => ?_, fun d => ?_⟩
  · rw [hsome]
    exact h.asked c
  · exact h.docs.sublist (List.filter_sublist.map _)
  · obtain ⟨hnot, s, hs, hdoc, hends, hwait⟩ := h.awaits p hp
    refine ⟨(hrouted p.1).not.2 hnot, _, hon hs, (s.on_doc e).trans hdoc, fun hov => ?_,
      fun hl => ?_⟩
    · show _ ∨ b.stopped = true
      rcases he with rfl | ⟨rfl, hengine⟩
      · simp only [Subscription.on] at hov ⊢
        grind
      · -- A routed doc has no call that waits.
        obtain ⟨c, hc⟩ := engine_isSome.1 hengine
        have hapart : s.ended = false → s.doc ≠ doc := by
          intro hl heq
          have hget := h.apart _ hc
          rw [← heq, hdoc, hwait hl] at hget
          exact absurd hget (by simp)
        simp only [Subscription.on] at hov ⊢
        grind
    · obtain ⟨hl, hne⟩ := (hover s).1 hl
      rw [harr]
      exact (FMap.get_erase_ne _ (hdoc ▸ hne)).trans (hwait hl)
  · obtain ⟨hp, hne⟩ := mem_dropEngine.1 hp
    obtain ⟨hin, s, hs, hdoc, hl⟩ := h.routes p hp
    exact ⟨(hrouted p.2).2 hin, _, hon hs, (s.on_doc e).trans hdoc,
      (hover s).2 ⟨hl, hdoc ▸ hne⟩⟩
  · obtain ⟨s, hs, happ, hin⟩ := h.routed c ((hrouted c).1 hc)
    refine ⟨_, hon hs, ((happlied c).trans happ).trans (harr s).symm, fun hl => ?_⟩
    obtain ⟨hl, hne⟩ := (hover s).1 hl
    rw [Subscription.on_doc]
    exact mem_dropEngine.2 ⟨hin hl, hne⟩
  · exact (happlied c).trans (h.silent c ((hrouted c).not.1 hc))
  · have hne : d ≠ doc := by
      rintro rfl
      simp at hd
    rw [FMap.get_erase_ne _ hne] at hd
    obtain ⟨p, hp, hpd, s, hs, hl⟩ := h.owned d hd
    obtain ⟨_, t, ht, hdoc, _⟩ := h.awaits p hp
    obtain rfl : t = s := Option.some.inj (ht.symm.trans hs)
    exact ⟨p, hp, hpd, _, hon hs, (hover t).2 ⟨hl, hdoc.trans hpd ▸ hne⟩⟩
  · obtain ⟨hp, hne⟩ := mem_dropEngine.1 hp
    exact (FMap.get_erase_ne _ hne).trans (h.apart p hp)
  · obtain ⟨_, s', hs', _⟩ := h.awaits p hp
    obtain ⟨_, t', ht', _⟩ := h.awaits q hq
    obtain rfl := Option.some.inj ((hon hs').symm.trans hs)
    obtain rfl := Option.some.inj ((hon ht').symm.trans ht)
    exact h.single p hp q hq hpq s' t' hs' ht' ((hover s').1 hov).1 ((hover t').1 hov').1
  · obtain ⟨heng, hempty, hall⟩ := h.halted hstop
    refine ⟨?_, by rw [hempty, erase_empty], fun c s hs => ?_⟩
    · simp [MirrorRoutes.dropEngine, heng]
    · obtain ⟨t, ht⟩ := Option.isSome_iff_exists.1
        ((hsome c).symm.trans (Option.isSome_of_eq_some hs))
      obtain rfl := Option.some.inj ((hon ht).symm.trans hs)
      exact (foldl_on_of_over (hall c t ht) [e]).1
  · have hm := h.matched d
    have hle : (b.dropEngine doc).countP (fun p => decide (p.1 = d)) ≤
        b.engines.countP fun p => decide (p.1 = d) := List.filter_sublist.countP_le
    rcases he with rfl | ⟨rfl, hengine⟩
    · simp only [List.countP_append, List.countP_singleton, isUnsubscribe, isSeed]
      simpa using (Nat.add_le_add_left hle _).trans hm
    · have hlt : (b.dropEngine doc).countP (fun p => decide (p.1 = d)) +
          (if doc = d then 1 else 0) ≤ b.engines.countP fun p => decide (p.1 = d) := by
        by_cases hd : doc = d
        · subst hd
          have hzero : (b.dropEngine doc).countP (fun p => decide (p.1 = doc)) = 0 :=
            List.countP_eq_zero.2 fun p hp => by simpa using (mem_dropEngine.1 hp).2
          obtain ⟨c, hc⟩ := engine_isSome.1 hengine
          rw [hzero, if_pos rfl, Nat.zero_add]
          exact List.one_le_countP_iff.2 ⟨_, hc, decide_eq_true rfl⟩
        · rwa [if_neg hd, Nat.add_zero]
      simp only [List.countP_append, List.countP_singleton, isUnsubscribe, isSeed,
        decide_eq_true_eq, Bool.false_eq_true, if_false]
      omega

theorem Routing.close (h : Routing b) (doc : δ) : Routing (b.close doc) := by
  unfold MirrorRoutes.close
  split
  · rename_i hengine
    obtain ⟨c, hc⟩ := engine_isSome.1 hengine
    have := h.ends (.inr ⟨rfl, hengine⟩)
    rwa [erase_of_none (h.apart _ hc)] at this
  · exact h

/-- Stopping ends every subscription. -/
theorem Routing.stop (h : Routing b) : Routing b.stop := by
  unfold MirrorRoutes.stop
  split
  · exact h
  set es : List (RouteEvent δ υ) := .stop :: b.engines.map fun p => .unsubscribe p.1 with hes
  have hmem : ∀ e ∈ es, e = .stop ∨ ∃ d, e = .unsubscribe d := by
    intro e he
    rcases List.mem_cons.1 he with rfl | he
    · exact .inl rfl
    · obtain ⟨p, _, rfl⟩ := List.mem_map.1 he
      exact .inr ⟨p.1, rfl⟩
  have hon : ∀ {c s}, subscription c b.log = some s →
      ∃ t, subscription c (b.log ++ es) = some t ∧ t.ended = true ∧ t.arrived = s.arrived := by
    intro c s hs
    obtain ⟨hover, harr⟩ := foldl_on_of_over (s := s.on (.stop : RouteEvent δ υ)) rfl
      (b.engines.map fun p => .unsubscribe p.1)
    exact ⟨_, subscription_goesOn hs, hover, harr⟩
  have hsome : ∀ c, (subscription c (b.log ++ es)).isSome = (subscription c b.log).isSome := by
    refine fun c => isSome_subscription fun d hd => ?_
    obtain he | ⟨_, he⟩ := hmem _ hd <;> exact absurd he (by simp)
  have hrouted : ∀ c, .routed c ∈ b.log ++ es ↔ .routed c ∈ b.log := by
    intro c
    rw [List.mem_append, or_iff_left]
    intro hc
    obtain he | ⟨_, he⟩ := hmem _ hc <;> exact absurd he (by simp)
  have happlied : ∀ c, appliedTo c (b.log ++ es) = appliedTo c b.log := by
    intro c
    have hnil : ∀ l : List (δ × ℕ),
        appliedTo c (l.map fun p => (.unsubscribe p.1 : RouteEvent δ υ)) = [] := by
      intro l
      induction l with
      | nil => rfl
      | cons p l ih => exact ih
    rw [appliedTo_append]
    exact (congrArg _ (hnil b.engines)).trans (List.append_nil _)
  have hdoc : ∀ {c s t}, subscription c b.log = some s → subscription c (b.log ++ es) = some t →
      t.doc = s.doc := by
    intro c s t hs ht
    rw [subscription_goesOn hs] at ht
    exact Option.some.inj ht ▸ foldl_on_doc s es
  have hall : ∀ c s, subscription c (b.log ++ es) = some s → s.ended = true := by
    intro c s hs
    obtain ⟨t, ht⟩ := Option.isSome_iff_exists.1
      ((hsome c).symm.trans (Option.isSome_of_eq_some hs))
    obtain ⟨t', ht', hover, _⟩ := hon ht
    obtain rfl := Option.some.inj (ht'.symm.trans hs)
    exact hover
  refine ⟨fun c => ?_, h.once, List.nodup_nil, fun p hp => ?_,
    fun p hp => absurd hp List.not_mem_nil, fun c hc => ?_, fun c hc => ?_,
    fun d hd => absurd hd (by simp), fun p hp => rfl,
    fun p _ q _ _ s t hs _ hov => absurd (hall p.1 s hs) (by simp [hov]),
    fun _ => ⟨rfl, rfl, hall⟩, fun d => ?_⟩
  · rw [hsome]
    exact h.asked c
  · obtain ⟨hnot, s, hs, hd, _⟩ := h.awaits p hp
    obtain ⟨t, ht, hover, _⟩ := hon hs
    exact ⟨(hrouted p.1).not.2 hnot, t, ht, (hdoc hs ht).trans hd, fun _ => .inr rfl,
      fun hl => absurd hover (by simp [hl])⟩
  · obtain ⟨s, hs, happ, _⟩ := h.routed c ((hrouted c).1 hc)
    obtain ⟨t, ht, hover, harr⟩ := hon hs
    exact ⟨t, ht, ((happlied c).trans happ).trans harr.symm, fun hl => absurd hover (by simp [hl])⟩
  · exact (happlied c).trans (h.silent c ((hrouted c).not.1 hc))
  · have hm := h.matched d
    have hun : es.countP (isUnsubscribe d) = b.engines.countP fun p => decide (p.1 = d) := by
      rw [hes, List.countP_cons, List.countP_map]
      rfl
    simp only [List.countP_append, hun, List.countP_nil]
    omega

/-- An update goes to the engine that is routed, or to the queue that is there. -/
theorem Routing.hear (h : Routing b) {u : υ} {es : List (RouteEvent δ υ)}
    {pending : FMap δ (List υ)}
    (hes : (es = [] ∧ ∀ c, (doc, c) ∉ b.engines) ∨ ∃ c, es = [.applied c u] ∧ (doc, c) ∈ b.engines)
    (hpending : ∀ d, pending.get d =
      if d = doc then (b.pending.get d).map (· ++ [u]) else b.pending.get d) :
    Routing { b with pending := pending, log := b.log ++ .update doc u :: es } := by
  have hon : ∀ {c s}, subscription c b.log = some s →
      subscription c (b.log ++ .update doc u :: es) = some (s.on (.update doc u)) := by
    intro c s hs
    rw [subscription_goesOn hs, List.foldl_cons]
    rcases hes with ⟨rfl, _⟩ | ⟨c', rfl, _⟩ <;> rfl
  have hsome : ∀ c, (subscription c (b.log ++ .update doc u :: es)).isSome =
      (subscription c b.log).isSome := by
    refine fun c => isSome_subscription fun d hd => ?_
    rcases hes with ⟨rfl, _⟩ | ⟨c', rfl, _⟩ <;> simp at hd
  have hover : ∀ s : Subscription δ υ, (s.on (.update doc u)).ended = s.ended ∧
      (s.on (.update doc u)).signalled = s.signalled ∧ (s.on (.update doc u)).doc = s.doc := by
    intro s
    simp only [Subscription.on]
    split <;> exact ⟨rfl, rfl, rfl⟩
  have hrouted : ∀ c, .routed c ∈ b.log ++ .update doc u :: es ↔ .routed c ∈ b.log := by
    intro c
    rcases hes with ⟨rfl, _⟩ | ⟨c', rfl, _⟩ <;> simp
  have happlied : ∀ c, appliedTo c (b.log ++ .update doc u :: es) =
      appliedTo c b.log ++ appliedTo c es := fun c => appliedTo_append
  refine ⟨fun c => ?_, h.once, h.docs, fun p hp => ?_, fun p hp => ?_, fun c hc => ?_,
    fun c hc => ?_, fun d hd => ?_, fun p hp => ?_, fun p hp q hq hpq s t hs ht hov hov' => ?_,
    fun hstop => ?_, fun d => ?_⟩
  · rw [hsome]
    exact h.asked c
  · obtain ⟨hnot, s, hs, hdoc, hends, hwait⟩ := h.awaits p hp
    obtain ⟨hov, hsig, hd⟩ := hover s
    refine ⟨(hrouted p.1).not.2 hnot, _, hon hs, hd.trans hdoc, ?_, fun hl => ?_⟩
    · rw [hov, hsig]
      exact hends
    · rw [hov] at hl
      show pending.get p.2 = _
      rw [hpending, hwait hl, ← hdoc]
      simp only [Subscription.on, hl, eq_comm (a := doc), and_true]
      split <;> rfl
  · obtain ⟨hin, s, hs, hdoc, hl⟩ := h.routes p hp
    obtain ⟨hov, _, hd⟩ := hover s
    exact ⟨(hrouted p.2).2 hin, _, hon hs, hd.trans hdoc, hov.trans hl⟩
  · obtain ⟨s, hs, happ, hin⟩ := h.routed c ((hrouted c).1 hc)
    obtain ⟨hov, _, hd⟩ := hover s
    refine ⟨_, hon hs, ?_, fun hl => ?_⟩
    · rw [happlied, happ]
      by_cases hmine : doc = s.doc ∧ s.ended = false
      · -- The call is routed for the doc, so the engine is its own.
        obtain ⟨rfl, hl⟩ := hmine
        rcases hes with ⟨_, hno⟩ | ⟨c', rfl, hc'⟩
        · exact absurd (hin hl) (hno c)
        · obtain heq := List.inj_on_of_nodup_map h.docs hc' (hin hl) rfl
          obtain rfl : c' = c := congrArg Prod.snd heq
          simp [Subscription.on, hl, appliedTo]
      · have hnil : appliedTo c es = [] := by
          rcases hes with ⟨rfl, _⟩ | ⟨c', rfl, hc'⟩
          · rfl
          · refine if_neg fun heq => hmine ?_
            obtain ⟨_, t, ht, htd, hl⟩ := h.routes _ hc'
            obtain rfl : t = s := Option.some.inj (ht.symm.trans (heq ▸ hs))
            exact ⟨htd.symm, hl⟩
        rw [hnil, List.append_nil]
        simp [Subscription.on, hmine]
    · rw [hd]
      exact hin (hov ▸ hl)
  · have hc' := (hrouted c).not.1 hc
    rw [happlied, h.silent c hc', List.nil_append]
    rcases hes with ⟨rfl, _⟩ | ⟨c', rfl, hmem⟩
    · rfl
    · refine if_neg fun heq => hc' ?_
      obtain rfl : c' = c := heq
      exact (h.routes _ hmem).1
  · have hd' : (b.pending.get d).isSome = true := by
      have hget := hpending d
      split at hget
      · rw [hget, Option.isSome_map] at hd
        exact hd
      · rwa [hget] at hd
    obtain ⟨p, hp, hpd, s, hs, hl⟩ := h.owned d hd'
    exact ⟨p, hp, hpd, _, hon hs, (hover s).1.trans hl⟩
  · show pending.get p.1 = none
    rw [hpending, h.apart p hp]
    split <;> rfl
  · obtain ⟨_, s', hs', _⟩ := h.awaits p hp
    obtain ⟨_, t', ht', _⟩ := h.awaits q hq
    obtain rfl := Option.some.inj ((hon hs').symm.trans hs)
    obtain rfl := Option.some.inj ((hon ht').symm.trans ht)
    exact h.single p hp q hq hpq s' t' hs' ht' ((hover s').1 ▸ hov) ((hover t').1 ▸ hov')
  · obtain ⟨heng, hempty, hall⟩ := h.halted hstop
    refine ⟨heng, FMap.ext_get fun d => ?_, fun c s hs => ?_⟩
    · rw [hpending, hempty]
      split <;> rfl
    · obtain ⟨t, ht⟩ := Option.isSome_iff_exists.1
        ((hsome c).symm.trans (Option.isSome_of_eq_some hs))
      obtain rfl := Option.some.inj ((hon ht).symm.trans hs)
      exact (hover t).1.trans (hall c t ht)
  · have hnone : (RouteEvent.update doc u :: es).countP (isUnsubscribe d) = 0 := by
      refine List.countP_eq_zero.2 fun e he => ?_
      rcases hes with ⟨rfl, _⟩ | ⟨c', rfl, _⟩ <;> simp at he <;> grind [isUnsubscribe]
    have hm := h.matched d
    simp only [List.countP_append, hnone]
    omega

/-- An update that is for a routed doc, or waits, or is for none. -/
theorem Routing.update (h : Routing b) (doc : δ) (u : υ) :
    Routing ((b.hears (.update doc u)).handleUpdate doc u) := by
  have hsame : (∀ d, d = doc → b.pending.get d = none) → ∀ d, b.pending.get d =
      if d = doc then (b.pending.get d).map (· ++ [u]) else b.pending.get d := by
    intro hnone d
    split
    · rename_i hd
      rw [hnone d hd]
      rfl
    · rfl
  unfold MirrorRoutes.handleUpdate
  split
  · rename_i hstop
    obtain ⟨heng, hempty, _⟩ := h.halted hstop
    exact h.hear (.inl ⟨rfl, by simp [heng]⟩) (hsame fun d _ => by rw [hempty]; rfl)
  · split
    · rename_i c hc
      have hmem : (doc, c) ∈ b.engines := mem_of_engine hc
      have := h.hear (u := u) (.inr ⟨c, rfl, hmem⟩) (hsame fun d hd => hd ▸ h.apart _ hmem)
      simpa [MirrorRoutes.hears] using this
    · rename_i hengine
      have hno : ∀ c, (doc, c) ∉ b.engines := by
        intro c hc
        have hsome := engine_isSome.2 ⟨c, hc⟩
        rw [show b.engine doc = none from hengine] at hsome
        exact absurd hsome (by simp)
      split
      · rename_i queue hqueue
        refine h.hear (.inl ⟨rfl, hno⟩) fun d => ?_
        show (b.pending.insert doc (queue ++ [u])).get d = _
        rw [FMap.get_insert]
        split
        · rename_i hd
          rw [hd, show b.pending.get doc = some queue from hqueue]
          rfl
        · rfl
      · rename_i hqueue
        exact h.hear (.inl ⟨rfl, hno⟩) (hsame fun d hd => hd ▸ hqueue)

/-- The host's stopped signal. -/
theorem Routing.stoppedDoc (h : Routing b) (doc : δ) :
    Routing ((b.hears (.stoppedDoc doc)).handleStopped doc) := by
  have hends := h.ends (e := .stoppedDoc doc) (.inl rfl)
  unfold MirrorRoutes.handleStopped
  split
  · rename_i hstop
    obtain ⟨heng, hempty, _⟩ := h.halted hstop
    have hdrop : b.dropEngine doc = b.engines := by simp [MirrorRoutes.dropEngine, heng]
    rwa [hdrop, hempty, erase_empty, ← hempty] at hends
  · split
    · rename_i hengine
      obtain ⟨c, hc⟩ := engine_isSome.1 hengine
      rwa [erase_of_none (h.apart (doc, c) hc)] at hends
    · rename_i hengine
      have hdrop : b.dropEngine doc = b.engines :=
        dropEngine_of_unrouted (Bool.eq_false_iff.2 hengine)
      rwa [hdrop] at hends

/-! ## Runs -/

/-- Every timely step keeps the maps true to the subscriptions. -/
theorem routing_step (h : Routing b) (ht : Timely b l) (hstep : b.step l = some b') :
    Routing b' := by
  cases l with
  | openDoc doc => exact Option.some.inj hstep ▸ h.openDoc doc
  | seeded call =>
    obtain ⟨doc, hdoc, rfl⟩ := Option.map_eq_some_iff.1 hstep
    exact h.seeded (mem_of_awaited hdoc) ht
  | unusable call =>
    obtain ⟨doc, hdoc, rfl⟩ := Option.map_eq_some_iff.1 hstep
    exact h.unusable (mem_of_awaited hdoc) ht
  | rejected call =>
    obtain ⟨doc, hdoc, rfl⟩ := Option.map_eq_some_iff.1 hstep
    exact h.rejected (mem_of_awaited hdoc) ht
  | close doc => exact Option.some.inj hstep ▸ h.close doc
  | stop => exact Option.some.inj hstep ▸ h.stop
  | update doc u => exact Option.some.inj hstep ▸ h.update doc u
  | stoppedDoc doc => exact Option.some.inj hstep ▸ h.stoppedDoc doc

/-- A late seed routes a doc that was stopped. -/
theorem late_seeded (hb : Honoured (b.seeded call doc)) : Timely b (.seeded call) := by
  refine or_iff_not_imp_left.2 fun hrun s hs => ?_
  have hin : (doc, call) ∈ (b.seeded call doc).engines := by
    simp only [MirrorRoutes.seeded, if_neg hrun, MirrorRoutes.setEngine]
    split
    · rename_i hsome
      obtain ⟨c, hc⟩ := engine_isSome.1 hsome
      exact List.mem_map.2 ⟨_, hc, if_pos rfl⟩
    · exact List.mem_append_right _ (List.mem_singleton_self _)
  have hplain : subscription call (b.seeded call doc).log = subscription call b.log := by
    simp only [MirrorRoutes.seeded, if_neg hrun]
    exact subscription_route
  obtain ⟨t, ht, _, hsig⟩ := hb.unrevived _ hin
  obtain rfl := Option.some.inj ((hplain.symm.trans ht).symm.trans hs)
  exact hsig

/-- A seed that is refused leaves the entry of a call that is no more. -/
theorem late_unusable (h : Routing b) (hmem : (call, doc) ∈ b.opening)
    (hb : Honoured (b.unusable call doc)) : Timely b (.unusable call) := by
  refine or_iff_not_imp_left.2 fun hrun s hs => Bool.of_not_eq_false fun hsig => ?_
  obtain ⟨_, _, t, ht, hdoc, hlive⟩ := h.awaited hmem
  obtain rfl : t = s := Option.some.inj (ht.symm.trans hs)
  obtain ⟨hover, hwait⟩ := hlive (by simpa using hrun) hsig
  have hplain : ∀ c, subscription c (b.log ++ [RouteEvent.seeded doc]) = subscription c b.log :=
    fun c => subscription_plain (by simp [Subscription.on])
  obtain ⟨p, hp, hpd, s', hs', hl⟩ := hb.cleared doc (Option.isSome_of_eq_some hwait)
  obtain ⟨hp, hne⟩ := mem_answered.1 hp
  refine hne (congrArg Prod.fst (h.single p hp _ hmem hpd s' t ?_ hs hl hover))
  exact (hplain p.1).symm.trans hs'

/-- A late rejection takes the entry of the call that waits. -/
theorem late_rejected (h : Routing b) (hmem : (call, doc) ∈ b.opening)
    (hb : Honoured (b.rejected call doc)) : Timely b (.rejected call) := by
  refine or_iff_not_imp_left.2 fun _ s hs hsig => ?_
  obtain ⟨hself, _, t, ht, hdoc, _⟩ := h.awaited hmem
  obtain rfl : t = s := Option.some.inj (ht.symm.trans hs)
  rw [hdoc]
  refine Option.not_isSome_iff_eq_none.1 fun hsome => ?_
  obtain ⟨p, hp, hpd, s', hs', hl⟩ := h.owned doc hsome
  have hne : p.1 ≠ call := by
    intro hcall
    obtain rfl : s' = t := Option.some.inj (hs'.symm.trans (hcall ▸ hs))
    exact absurd (over_of_signalled hs hsig) (by simp [hl])
  obtain ⟨r, hr, _, hwait⟩ := hb.waiting p (mem_answered.2 ⟨hp, hne⟩)
  obtain rfl : r = s' := Option.some.inj (hr.symm.trans hs')
  have hget : (b.pending.erase doc).get p.2 = some r.arrived := hwait hl
  rw [hpd] at hget
  simp at hget

theorem routing_of_reach (h : (routing δ υ).Reach Timely b) : Routing b := by
  apply h.invariant
  · rintro b rfl
    exact routing_new
  · rintro b l b' _ hb ht hstep
    exact routing_step hb ht hstep

/-- **Every subscription is honoured** as long as the answers are timely, and the first that is not
breaks one. -/
theorem routes_honoured (h : (routing δ υ).Reach Timely b) :
    Honoured b ∧ ∀ l b', b.step l = some b' → (Honoured b' ↔ Timely b l) := by
  have hb := routing_of_reach h
  refine ⟨hb.honoured, fun l b' hstep =>
    ⟨fun hh => ?_, fun ht => (routing_step hb ht hstep).honoured⟩⟩
  cases l with
  | seeded call =>
    obtain ⟨doc, _, rfl⟩ := Option.map_eq_some_iff.1 hstep
    exact late_seeded hh
  | unusable call =>
    obtain ⟨doc, hdoc, rfl⟩ := Option.map_eq_some_iff.1 hstep
    exact late_unusable hb (mem_of_awaited hdoc) hh
  | rejected call =>
    obtain ⟨doc, hdoc, rfl⟩ := Option.map_eq_some_iff.1 hstep
    exact late_rejected hb (mem_of_awaited hdoc) hh
  | _ => trivial

end Runs

/-- Two docs: one is stopped while it is routed and opened again, the other is refused once and
closed later. -/
def reopened : List (RouteStep Bool ℕ) :=
  [.openDoc true, .openDoc false, .update true 1, .rejected 1, .update true 2, .seeded 0,
    .update true 3, .stoppedDoc true, .openDoc true, .openDoc false, .update true 4, .seeded 3,
    .seeded 2, .update true 5, .close false, .stop]

theorem routes_honoured_reopened :
    ∃ b, (routing Bool ℕ).exec .new reopened = some b ∧ appliedTo 0 b.log = [1, 2, 3] ∧
      appliedTo 2 b.log = [4, 5] ∧ Honoured b := by
  have hrun : (((routing Bool ℕ).exec .new reopened).map fun b =>
      decide (appliedTo 0 b.log = [1, 2, 3] ∧ appliedTo 2 b.log = [4, 5])) = some true := by
    decide
  have hok : (routing Bool ℕ).allStepsb (fun b l => decide (Timely b l)) .new reopened = true := by
    decide
  obtain ⟨b, hb, hfacts⟩ := Option.map_eq_some_iff.1 hrun
  obtain ⟨h0, h2⟩ := of_decide_eq_true hfacts
  refine ⟨b, hb, h0, h2, (routes_honoured ?_).1⟩
  exact Machine.Reach.exec (.init rfl)
    (Machine.allSteps_of_allStepsb (fun _ _ h => of_decide_eq_true h) hok) hb

/-- A stopped signal while the subscribe is in flight does not keep the seed from being routed, and
the updates that waited are gone; a seed that `createEngine` throws on leaves the pending entry, so
the doc cannot be opened again. -/
theorem routed_after_stopped :
    (∃ b, (routing Bool ℕ).exec .new
        [.openDoc true, .update true 1, .stoppedDoc true, .seeded 0] = some b ∧
      b.engines = [(true, 0)] ∧ appliedTo 0 b.log = [] ∧ ¬Honoured b) ∧
    ∃ b, (routing Bool ℕ).exec .new [.openDoc true, .unusable 0] = some b ∧
      b.opening = [] ∧ (b.openDoc true).calls = 1 ∧ ¬Honoured b := by
  constructor
  · refine ⟨_, rfl, rfl, rfl, fun hb => ?_⟩
    obtain ⟨s, hs, _, hsig⟩ := hb.unrevived (true, 0) (by decide)
    obtain rfl := Option.some.inj hs
    exact absurd hsig (by decide)
  · refine ⟨_, rfl, rfl, rfl, fun hb => ?_⟩
    obtain ⟨p, hp, _⟩ := hb.cleared true (by decide)
    exact absurd hp List.not_mem_nil

end Monoplan.Web
