import Mathlib.Data.Finset.Card
import Mathlib.Data.Finset.Dedup
import Mathlib.Logic.Function.Basic
import Monoplan.Protocol.Frames

/-!
# The broadcast registry

The in-memory registry of who has the document open, and each subscriber's bounded channel.
A channel outlives its registry entry: what was queued before the entry went is still
received, and only then does the receiver see the channel closed.

* `broadcast` queues the same frame on every subscriber but one; a subscriber whose channel
  is full is dropped from the registry.
* `subscribe`, `unsubscribe` and `closeForAccount` change the present set and announce it.
  A full channel is left alone there.
-/

namespace Monoplan.Server

open Monoplan.Protocol

variable {β : Type*}

/-- The most messages a channel holds. -/
def CHANNEL_CAPACITY : ℕ := 256

/-- One message on a subscriber's channel. -/
inductive Outbound (β : Type*)
  /-- Send the frame and carry on. -/
  | frame (f : ServerFrame β)
  /-- Send the frame, after unbinding the document from the connection. -/
  | close (f : ServerFrame β)
  /-- Unbind the document and send nothing. -/
  | unbind
  deriving DecidableEq

/-- The sequence numbers a queued message will deliver. -/
def Outbound.seqs : Outbound β → List ℕ
  | .frame f => f.seqs
  | .close f => f.seqs
  | .unbind => []

/-- One registered connection. -/
structure Subscriber where
  subId : ℕ
  deviceId : DeviceId
  accountId : AccountId
  email : String
  deriving DecidableEq

/-- The registry entry of the document, every channel ever made, and the id counter. -/
structure SyncSessions (β : Type*) where
  subs : List Subscriber
  channels : ℕ → List (Outbound β)
  nextSubId : ℕ

namespace SyncSessions

/-- The registry of a process that has just started. -/
def new : SyncSessions β where
  subs := []
  channels := fun _ => []
  nextSubId := 1

/-- The numbers queued for a subscriber, oldest first. -/
def queued (s : SyncSessions β) (id : ℕ) : List ℕ :=
  (s.channels id).flatMap Outbound.seqs

/-- Whether a subscriber is still in the registry. -/
def Registered (s : SyncSessions β) (id : ℕ) : Prop :=
  ∃ sub ∈ s.subs, sub.subId = id

instance (s : SyncSessions β) (id : ℕ) : Decidable (s.Registered id) :=
  inferInstanceAs (Decidable (∃ sub ∈ s.subs, sub.subId = id))

/-- There is room on a channel. -/
def hasRoom (s : SyncSessions β) (id : ℕ) : Bool :=
  decide ((s.channels id).length < CHANNEL_CAPACITY)

/-- `try_send`: queue the message where there is room. -/
def trySend (s : SyncSessions β) (id : ℕ) (m : Outbound β) : SyncSessions β :=
  if s.hasRoom id then
    { s with channels := Function.update s.channels id (s.channels id ++ [m]) }
  else s

/-- `try_send` to several subscribers in order. -/
def trySendAll (s : SyncSessions β) (m : Outbound β) : List ℕ → SyncSessions β
  | [] => s
  | id :: ids => (s.trySend id m).trySendAll m ids

/-! ## Presence -/

/-- `present_accounts`: the distinct accounts, first subscribed first. -/
def presentAccounts : List Subscriber → List PresentAccount
  | [] => []
  | s :: ss =>
    ⟨s.accountId, s.email⟩ :: (presentAccounts ss).filter fun p => decide (p.accountId ≠ s.accountId)

/-- `account_set`. -/
def accountSet (subs : List Subscriber) : Finset AccountId :=
  (subs.map Subscriber.accountId).toFinset

/-- `send_presence`: the current list to every subscriber, or to the one `only` names. -/
def sendPresence (s : SyncSessions β) (only : Option ℕ) : SyncSessions β :=
  s.trySendAll (.frame (.presence (presentAccounts s.subs)))
    ((s.subs.map Subscriber.subId).filter fun id => only.all fun o => decide (o = id))

/-! ## Registering -/

/-- A new entry under a fresh id, with an empty channel. -/
def enroll (s : SyncSessions β) (device : DeviceId) (account : AccountId) (email : String) :
    SyncSessions β where
  subs := s.subs ++ [⟨s.nextSubId, device, account, email⟩]
  channels := Function.update s.channels s.nextSubId []
  nextSubId := s.nextSubId + 1

/-- `subscribe`: register a connection.  One account alone is told nothing; a new account is
announced to everybody; another connection of a present account is told by itself. -/
def subscribe (s : SyncSessions β) (device : DeviceId) (account : AccountId) (email : String) :
    SyncSessions β × ℕ :=
  let before := accountSet s.subs
  let s₁ := s.enroll device account email
  let after := accountSet s₁.subs
  let s₂ :=
    if 1 < after.card then
      if after ≠ before then s₁.sendPresence none else s₁.sendPresence (some s.nextSubId)
    else s₁
  (s₂, s.nextSubId)

/-- Drop the entries `gone` picks and announce the present set if it changed. -/
def leave (s : SyncSessions β) (gone : Subscriber → Bool) : SyncSessions β :=
  let before := accountSet s.subs
  let s₁ := { s with subs := s.subs.filter fun sub => !gone sub }
  if s₁.subs.isEmpty then s₁
  else if accountSet s₁.subs ≠ before then s₁.sendPresence none
  else s₁

/-- `unsubscribe`. -/
def unsubscribe (s : SyncSessions β) (id : ℕ) : SyncSessions β :=
  s.leave fun sub => decide (sub.subId = id)

/-! ## Fan-out -/

/-- `broadcast`: queue the rows on every subscriber but `exclude`, dropping from the
registry those whose channel is full. -/
def broadcast (s : SyncSessions β) (exclude : ℕ) (updates : List (StoredBlob β)) :
    SyncSessions β :=
  if updates.isEmpty then s
  else
    let targets := (s.subs.map Subscriber.subId).filter fun id => decide (id ≠ exclude)
    { s.trySendAll (.frame (.updatesBroadcast updates)) targets with
      subs := s.subs.filter fun sub => decide (sub.subId = exclude) || s.hasRoom sub.subId }

/-- `close_for_account`: tell every connection of an account that the document is closed to
it, and drop it from the registry. -/
def closeForAccount (s : SyncSessions β) (account : AccountId) (reason : String) :
    SyncSessions β :=
  let told := (s.subs.filter fun sub => decide (sub.accountId = account)).map Subscriber.subId
  (s.trySendAll (.close (.docClosed reason)) told).leave fun sub => decide (sub.accountId = account)

/-- Receive the head of a channel: `rest` is what stays queued. -/
def pop (s : SyncSessions β) (id : ℕ) (rest : List (Outbound β)) : SyncSessions β :=
  { s with channels := Function.update s.channels id rest }

/-! ## What the operations leave alone -/

variable (s : SyncSessions β)

@[simp] theorem trySend_subs (id : ℕ) (m : Outbound β) : (s.trySend id m).subs = s.subs := by
  unfold trySend
  split <;> rfl

@[simp] theorem trySend_nextSubId (id : ℕ) (m : Outbound β) :
    (s.trySend id m).nextSubId = s.nextSubId := by
  unfold trySend
  split <;> rfl

theorem trySend_channels_ne {id j : ℕ} (m : Outbound β) (h : j ≠ id) :
    (s.trySend id m).channels j = s.channels j := by
  unfold trySend
  split
  · exact Function.update_of_ne h _ _
  · rfl

@[simp] theorem trySendAll_subs (m : Outbound β) (ids : List ℕ) :
    (s.trySendAll m ids).subs = s.subs := by
  induction ids generalizing s with
  | nil => rfl
  | cons id ids ih => rw [trySendAll, ih, trySend_subs]

@[simp] theorem trySendAll_nextSubId (m : Outbound β) (ids : List ℕ) :
    (s.trySendAll m ids).nextSubId = s.nextSubId := by
  induction ids generalizing s with
  | nil => rfl
  | cons id ids ih => rw [trySendAll, ih, trySend_nextSubId]

theorem trySendAll_channels_of_notMem {m : Outbound β} {ids : List ℕ} {j : ℕ}
    (h : j ∉ ids) : (s.trySendAll m ids).channels j = s.channels j := by
  induction ids generalizing s with
  | nil => rfl
  | cons id ids ih =>
    rw [List.mem_cons, not_or] at h
    rw [trySendAll, ih _ h.2, trySend_channels_ne s m h.1]

theorem trySendAll_channels_of_mem {m : Outbound β} {ids : List ℕ} (hnd : ids.Nodup)
    {j : ℕ} (h : j ∈ ids) :
    (s.trySendAll m ids).channels j =
      if s.hasRoom j then s.channels j ++ [m] else s.channels j := by
  induction ids generalizing s with
  | nil => simp at h
  | cons id ids ih =>
    rw [List.nodup_cons] at hnd
    rw [trySendAll]
    rcases List.mem_cons.1 h with rfl | h
    · rw [trySendAll_channels_of_notMem _ hnd.1, trySend]
      split <;> simp
    · have hne : j ≠ id := fun he => hnd.1 (he ▸ h)
      have hroom : (s.trySend id m).hasRoom j = s.hasRoom j := by
        rw [hasRoom, hasRoom, trySend_channels_ne s m hne]
      rw [ih _ hnd.2 h, hroom, trySend_channels_ne s m hne]

/-- A message that carries no numbers does not change what is queued. -/
theorem queued_trySendAll {m : Outbound β} (hm : m.seqs = []) (ids : List ℕ) (j : ℕ) :
    (s.trySendAll m ids).queued j = s.queued j := by
  induction ids generalizing s with
  | nil => rfl
  | cons id ids ih =>
    rw [trySendAll, ih, trySend]
    split
    · by_cases hj : j = id
      · subst hj
        simp [queued, hm]
      · simp [queued, Function.update_of_ne hj]
    · rfl

@[simp] theorem sendPresence_subs (only : Option ℕ) : (s.sendPresence only).subs = s.subs :=
  trySendAll_subs ..

@[simp] theorem sendPresence_nextSubId (only : Option ℕ) :
    (s.sendPresence only).nextSubId = s.nextSubId :=
  trySendAll_nextSubId ..

@[simp] theorem queued_sendPresence (only : Option ℕ) (j : ℕ) :
    (s.sendPresence only).queued j = s.queued j :=
  s.queued_trySendAll rfl _ j

@[simp] theorem leave_subs (gone : Subscriber → Bool) :
    (s.leave gone).subs = s.subs.filter fun sub => !gone sub := by
  simp only [leave]
  split_ifs <;> simp

@[simp] theorem leave_nextSubId (gone : Subscriber → Bool) :
    (s.leave gone).nextSubId = s.nextSubId := by
  simp only [leave]
  split_ifs <;> simp

@[simp] theorem queued_leave (gone : Subscriber → Bool) (j : ℕ) :
    (s.leave gone).queued j = s.queued j := by
  simp only [leave]
  split_ifs
  · rfl
  · exact queued_sendPresence _ _ _
  · rfl

@[simp] theorem subscribe_id (d : DeviceId) (a : AccountId) (e : String) :
    (s.subscribe d a e).2 = s.nextSubId := rfl

@[simp] theorem subscribe_subs (d : DeviceId) (a : AccountId) (e : String) :
    (s.subscribe d a e).1.subs = s.subs ++ [⟨s.nextSubId, d, a, e⟩] := by
  simp only [subscribe]
  split_ifs <;> simp [enroll]

@[simp] theorem subscribe_nextSubId (d : DeviceId) (a : AccountId) (e : String) :
    (s.subscribe d a e).1.nextSubId = s.nextSubId + 1 := by
  simp only [subscribe]
  split_ifs <;> simp [enroll]

theorem queued_subscribe (d : DeviceId) (a : AccountId) (e : String) (j : ℕ) :
    (s.subscribe d a e).1.queued j = if j = s.nextSubId then [] else s.queued j := by
  have henroll : (s.subscribe d a e).1.queued j = (s.enroll d a e).queued j := by
    simp only [subscribe]
    split_ifs
    · exact queued_sendPresence _ _ _
    · exact queued_sendPresence _ _ _
    · rfl
  rw [henroll]
  by_cases hj : j = s.nextSubId
  · subst hj
    simp [queued, enroll]
  · simp [hj, queued, enroll]

theorem queued_pop_self (id : ℕ) (rest : List (Outbound β)) :
    (s.pop id rest).queued id = rest.flatMap Outbound.seqs := by
  simp [pop, queued]

theorem queued_pop_ne {id j : ℕ} (rest : List (Outbound β)) (h : j ≠ id) :
    (s.pop id rest).queued j = s.queued j := by
  simp [pop, queued, h]

/-! ## Well-formed registries -/

/-- Subscriber ids are handed out once. -/
structure Wf : Prop where
  nodup : (s.subs.map Subscriber.subId).Nodup
  below : ∀ sub ∈ s.subs, sub.subId < s.nextSubId

variable {s}

theorem Registered.lt (h : s.Wf) {id : ℕ} (hr : s.Registered id) : id < s.nextSubId := by
  obtain ⟨sub, hsub, rfl⟩ := hr
  exact h.below sub hsub

theorem wf_new : (new : SyncSessions β).Wf where
  nodup := List.nodup_nil
  below := by simp [new]

theorem Wf.leave (h : s.Wf) (gone : Subscriber → Bool) : (s.leave gone).Wf where
  nodup := by
    rw [leave_subs]
    exact h.nodup.sublist (List.filter_sublist.map _)
  below := by
    intro sub hsub
    rw [leave_subs, List.mem_filter] at hsub
    rw [leave_nextSubId]
    exact h.below sub hsub.1

theorem Wf.subscribe (h : s.Wf) (d : DeviceId) (a : AccountId) (e : String) :
    (s.subscribe d a e).1.Wf where
  nodup := by
    rw [subscribe_subs, List.map_append, List.nodup_append]
    refine ⟨h.nodup, by simp, ?_⟩
    intro id hid j hj
    obtain ⟨sub, hsub, rfl⟩ := List.mem_map.1 hid
    rw [List.map_singleton, List.mem_singleton] at hj
    exact hj ▸ Nat.ne_of_lt (h.below sub hsub)
  below := by
    intro sub hsub
    rw [subscribe_subs, List.mem_append, List.mem_singleton] at hsub
    rw [subscribe_nextSubId]
    rcases hsub with hsub | rfl
    · have := h.below sub hsub
      omega
    · exact Nat.lt_succ_self _

theorem Registered.of_leave {gone : Subscriber → Bool} {id : ℕ}
    (hr : (s.leave gone).Registered id) : s.Registered id := by
  obtain ⟨sub, hsub, rfl⟩ := hr
  rw [leave_subs, List.mem_filter] at hsub
  exact ⟨sub, hsub.1, rfl⟩

theorem Registered.of_subscribe {d : DeviceId} {a : AccountId} {e : String} {id : ℕ}
    (hr : (s.subscribe d a e).1.Registered id) : s.Registered id ∨ id = s.nextSubId := by
  obtain ⟨sub, hsub, rfl⟩ := hr
  rw [subscribe_subs, List.mem_append, List.mem_singleton] at hsub
  rcases hsub with hsub | rfl
  · exact .inl ⟨sub, hsub, rfl⟩
  · exact .inr rfl

/-! ## What a broadcast does -/

theorem broadcast_nil (exclude : ℕ) : s.broadcast exclude [] = s := rfl

@[simp] theorem broadcast_nextSubId (exclude : ℕ) (us : List (StoredBlob β)) :
    (s.broadcast exclude us).nextSubId = s.nextSubId := by
  unfold broadcast
  split <;> simp

theorem Wf.broadcast (h : s.Wf) (exclude : ℕ) (us : List (StoredBlob β)) :
    (s.broadcast exclude us).Wf := by
  unfold SyncSessions.broadcast
  split
  · exact h
  · exact
      { nodup := h.nodup.sublist (List.filter_sublist.map _)
        below := fun sub hsub => by
          rw [List.mem_filter] at hsub
          rw [trySendAll_nextSubId]
          exact h.below sub hsub.1 }

/-- Who is registered after a broadcast was registered before it, and unless it is the
excluded one, or there was nothing to say, the rows were queued for it. -/
theorem Registered.of_broadcast (h : s.Wf) {exclude id : ℕ} {us : List (StoredBlob β)}
    (hr : (s.broadcast exclude us).Registered id) :
    s.Registered id ∧ (id ≠ exclude →
      (s.broadcast exclude us).queued id = s.queued id ++ us.map StoredBlob.seq) := by
  unfold SyncSessions.broadcast at hr ⊢
  split at hr
  · rename_i hnil
    rw [List.isEmpty_iff] at hnil
    subst hnil
    exact ⟨hr, fun _ => by simp⟩
  · rename_i hnil
    obtain ⟨sub, hsub, rfl⟩ := hr
    rw [List.mem_filter] at hsub
    refine ⟨⟨sub, hsub.1, rfl⟩, fun hne => ?_⟩
    have hroom : s.hasRoom sub.subId = true := by simpa [hne] using hsub.2
    have hmem : sub.subId ∈ (s.subs.map Subscriber.subId).filter fun id => decide (id ≠ exclude) := by
      simp only [List.mem_filter, List.mem_map, decide_eq_true_eq]
      exact ⟨⟨sub, hsub.1, rfl⟩, hne⟩
    rw [if_neg hnil]
    simp only [queued]
    rw [trySendAll_channels_of_mem s (h.nodup.filter _) hmem, if_pos hroom]
    simp [Outbound.seqs, ServerFrame.seqs]

/-- A broadcast either leaves a channel's numbers alone or adds its rows at the end. -/
theorem queued_broadcast (h : s.Wf) (exclude j : ℕ) (us : List (StoredBlob β)) :
    (s.broadcast exclude us).queued j = s.queued j ∨
      (s.Registered j ∧ j ≠ exclude ∧
        (s.broadcast exclude us).queued j = s.queued j ++ us.map StoredBlob.seq) := by
  unfold SyncSessions.broadcast
  split
  · exact .inl rfl
  · by_cases hmem : j ∈ (s.subs.map Subscriber.subId).filter fun id => decide (id ≠ exclude)
    · simp only [queued]
      rw [trySendAll_channels_of_mem s (h.nodup.filter _) hmem]
      split
      · right
        simp only [List.mem_filter, List.mem_map, decide_eq_true_eq] at hmem
        exact ⟨hmem.1, hmem.2, by simp [Outbound.seqs, ServerFrame.seqs]⟩
      · exact .inl rfl
    · left
      simp only [queued]
      rw [trySendAll_channels_of_notMem s hmem]

/-! ## Nobody queues for a subscriber that left -/

variable {id : ℕ}

theorem sendPresence_channels (h : ¬ s.Registered id) (only : Option ℕ) :
    (s.sendPresence only).channels id = s.channels id := by
  apply trySendAll_channels_of_notMem
  intro hmem
  obtain ⟨sub, hsub, rfl⟩ := List.mem_map.1 (List.mem_filter.1 hmem).1
  exact h ⟨sub, hsub, rfl⟩

theorem leave_channels (h : ¬ s.Registered id) (gone : Subscriber → Bool) :
    (s.leave gone).channels id = s.channels id := by
  have hleft : ¬ ({ s with subs := s.subs.filter fun sub => !gone sub } :
      SyncSessions β).Registered id := by
    rintro ⟨sub, hsub, rfl⟩
    exact h ⟨sub, (List.mem_filter.1 hsub).1, rfl⟩
  simp only [leave]
  split_ifs
  · rfl
  · exact sendPresence_channels hleft none
  · rfl

theorem subscribe_channels (h : ¬ s.Registered id) (hne : id ≠ s.nextSubId) (d : DeviceId)
    (a : AccountId) (e : String) :
    (s.subscribe d a e).1.channels id = s.channels id := by
  have henroll : (s.enroll d a e).channels id = s.channels id := by simp [enroll, hne]
  have hout : ¬ (s.enroll d a e).Registered id := by
    rintro ⟨sub, hsub, rfl⟩
    rcases List.mem_append.1 hsub with hsub | hsub
    · exact h ⟨sub, hsub, rfl⟩
    · rw [List.mem_singleton] at hsub
      exact hne (hsub ▸ rfl)
  simp only [subscribe]
  split_ifs
  · rw [sendPresence_channels hout, henroll]
  · rw [sendPresence_channels hout, henroll]
  · exact henroll

theorem broadcast_channels (h : ¬ s.Registered id) (exclude : ℕ) (us : List (StoredBlob β)) :
    (s.broadcast exclude us).channels id = s.channels id := by
  unfold broadcast
  split
  · rfl
  · apply trySendAll_channels_of_notMem
    intro hmem
    obtain ⟨sub, hsub, rfl⟩ := List.mem_map.1 (List.mem_filter.1 hmem).1
    exact h ⟨sub, hsub, rfl⟩

theorem closeForAccount_channels (h : ¬ s.Registered id) (a : AccountId) (reason : String) :
    (s.closeForAccount a reason).channels id = s.channels id := by
  have hout : id ∉ (s.subs.filter fun sub => decide (sub.accountId = a)).map Subscriber.subId := by
    intro hmem
    obtain ⟨sub, hsub, rfl⟩ := List.mem_map.1 hmem
    exact h ⟨sub, (List.mem_filter.1 hsub).1, rfl⟩
  have htold : ¬ (s.trySendAll (.close (.docClosed reason))
      ((s.subs.filter fun sub => decide (sub.accountId = a)).map Subscriber.subId)).Registered id := by
    rintro ⟨sub, hsub, rfl⟩
    rw [trySendAll_subs] at hsub
    exact h ⟨sub, hsub, rfl⟩
  rw [closeForAccount, leave_channels htold, trySendAll_channels_of_notMem s hout]

@[simp] theorem closeForAccount_subs (a : AccountId) (reason : String) :
    (s.closeForAccount a reason).subs = s.subs.filter fun sub => !decide (sub.accountId = a) := by
  rw [closeForAccount, leave_subs, trySendAll_subs]

@[simp] theorem closeForAccount_nextSubId (a : AccountId) (reason : String) :
    (s.closeForAccount a reason).nextSubId = s.nextSubId := by
  rw [closeForAccount, leave_nextSubId, trySendAll_nextSubId]

theorem broadcast_subs (exclude : ℕ) (us : List (StoredBlob β)) :
    ∀ sub ∈ (s.broadcast exclude us).subs, sub ∈ s.subs := by
  unfold broadcast
  split
  · exact fun sub hsub => hsub
  · exact fun sub hsub => (List.mem_filter.1 hsub).1

end SyncSessions

end Monoplan.Server
