import Monoplan.Base.Machine
import Monoplan.Server.Sessions

/-!
# Presence

Who has a document open, as its subscribers were told.

* `Registry` is the broadcast registry with everything that was ever queued for a subscriber.
* `Hears`: an operation either queues the present set for a subscriber, or leaves the set as it
  is.  Every operation but the broadcast does (`leave_hears`, `subscribe_hears`).
* `presence_names_accounts`: so where no broadcast drops the last subscriber of an account, the
  last present set queued for a subscriber is the one that is.
* `broadcast_unannounced`: a broadcast that does drop one tells nobody.
-/

namespace Monoplan.Server

open Monoplan.Base Monoplan.Protocol

variable {β : Type*}

/-! ## The registry and what it queued -/

/-- `close_doc`: drop every subscriber, and tell those of other devices. -/
def SyncSessions.closeDoc (s : SyncSessions β) (exceptDevice : Option DeviceId)
    (reason : String) : SyncSessions β :=
  { s.subs.foldl (fun s sub => s.trySend sub.subId
      (if some sub.deviceId = exceptDevice then .unbind else .close (.docClosed reason))) s with
    subs := [] }

/-- The registry entry of a document, and what became of its channels. -/
structure Registry (β : Type*) where
  sessions : SyncSessions β
  /-- Everything that was queued for a subscriber, oldest first. -/
  ever : ℕ → List (Outbound β)
  /-- The subscriber's channel has been full. -/
  filled : ℕ → Bool

/-- What happens to the registry. -/
inductive RegistryLabel (β : Type*)
  | subscribe (device : DeviceId) (account : AccountId) (email : String)
  | unsubscribe (id : ℕ)
  | broadcast (exclude : ℕ) (updates : List (StoredBlob β))
  | closeForAccount (account : AccountId) (reason : String)
  | closeDoc (exceptDevice : Option DeviceId) (reason : String)
  /-- A session takes the oldest message off its channel. -/
  | receive (id : ℕ)
  /-- Another document's subscriber is given an id. -/
  | elsewhere

/-- What an operation makes of the sessions. -/
def SyncSessions.apply (s : SyncSessions β) : RegistryLabel β → SyncSessions β
  | .subscribe device account email => (s.subscribe device account email).1
  | .unsubscribe id => s.unsubscribe id
  | .broadcast exclude updates => s.broadcast exclude updates
  | .closeForAccount account reason => s.closeForAccount account reason
  | .closeDoc exceptDevice reason => s.closeDoc exceptDevice reason
  | .receive id => s.pop id (s.channels id).tail
  | .elsewhere => { s with nextSubId := s.nextSubId + 1 }

namespace Registry

/-- Nobody has the document open yet. -/
def new : Registry β := ⟨.new, fun _ => [], fun _ => false⟩

/-- The registry after its sessions became `s`. -/
def after (r : Registry β) (s : SyncSessions β) : Registry β where
  sessions := s
  ever id := r.ever id ++ (s.channels id).drop (r.sessions.channels id).length
  filled id := r.filled id || decide (CHANNEL_CAPACITY ≤ (s.channels id).length)

end Registry

/-- The registry of one document. -/
def registries (β : Type*) : Machine (Registry β) (RegistryLabel β) where
  init r := r = .new
  step r l := some (r.after (r.sessions.apply l))

/-- The present set a message carries. -/
def Outbound.presence : Outbound β → Option (List PresentAccount)
  | .frame (.presence accounts) => some accounts
  | _ => none

/-- The last present set among some messages. -/
def lastPresence (ms : List (Outbound β)) : Option (List PresentAccount) :=
  (ms.filterMap Outbound.presence).getLast?

/-- The accounts that a subscriber of `account` takes to be there: its own where it was never told
anything. -/
def namedIn (account : AccountId) (ms : List (Outbound β)) : Finset AccountId :=
  (lastPresence ms).elim {account} fun accounts => (accounts.map PresentAccount.accountId).toFinset

/-- Every subscriber whose channel has never been full names the accounts that are there. -/
def Registry.Told (r : Registry β) : Prop :=
  ∀ sub ∈ r.sessions.subs, r.filled sub.subId = false →
    namedIn sub.accountId (r.ever sub.subId) = SyncSessions.accountSet r.sessions.subs

/-- Where a broadcast drops a subscriber, its account keeps another one. -/
def SyncSessions.KeepsAccounts (s : SyncSessions β) : RegistryLabel β → Prop
  | .broadcast exclude updates => updates ≠ [] → ∀ sub ∈ s.subs, ∃ stays ∈ s.subs,
      stays.accountId = sub.accountId ∧ (stays.subId = exclude ∨ s.hasRoom stays.subId = true)
  | _ => True

/-! ## Messages -/

theorem lastPresence_append (ms ns : List (Outbound β)) :
    lastPresence (ms ++ ns) = (lastPresence ns).or (lastPresence ms) := by
  rw [lastPresence, List.filterMap_append, List.getLast?_append]
  rfl

theorem namedIn_append (account : AccountId) (ms ns : List (Outbound β)) :
    namedIn account (ms ++ ns) = (lastPresence ns).elim (namedIn account ms) fun accounts =>
      (accounts.map PresentAccount.accountId).toFinset := by
  rw [namedIn, lastPresence_append]
  cases lastPresence ns <;> rfl

namespace SyncSessions

variable {s s' : SyncSessions β} {id : ℕ}

/-- `Presence` lists every account that is there. -/
theorem presentAccounts_accounts (subs : List Subscriber) :
    ((presentAccounts subs).map PresentAccount.accountId).toFinset = accountSet subs := by
  induction subs with
  | nil => rfl
  | cons sub subs ih =>
    ext a
    have hmem := congrArg (a ∈ ·) ih
    simp only [accountSet, List.mem_toFinset, List.mem_map, eq_iff_iff] at hmem
    simp only [presentAccounts, accountSet, List.map_cons, List.mem_toFinset, List.mem_cons,
      List.mem_map, List.mem_filter, decide_eq_true_eq]
    rw [← hmem]
    constructor
    · rintro (rfl | ⟨p, ⟨hp, -⟩, rfl⟩)
      · exact .inl rfl
      · exact .inr ⟨p, hp, rfl⟩
    · rintro (rfl | ⟨p, hp, rfl⟩)
      · exact .inl rfl
      · by_cases hsub : p.accountId = sub.accountId
        · exact .inl hsub
        · exact .inr ⟨p, ⟨hp, hsub⟩, rfl⟩

/-! ## What a subscriber hears -/

/-- What was queued for a subscriber from `s` to `s'`. -/
def newly (s s' : SyncSessions β) (id : ℕ) : List (Outbound β) :=
  (s'.channels id).drop (s.channels id).length

/-- The subscriber was queued the present set, or it is what it was. -/
def Hears (s s' : SyncSessions β) (id : ℕ) : Prop :=
  lastPresence (newly s s' id) = some (presentAccounts s'.subs) ∨
    lastPresence (newly s s' id) = none ∧ accountSet s'.subs = accountSet s.subs

theorem newly_of_eq (h : s'.channels id = s.channels id) : newly s s' id = [] := by
  rw [newly, h, List.drop_length]

theorem newly_of_append {ms : List (Outbound β)} (h : s'.channels id = s.channels id ++ ms) :
    newly s s' id = ms := by
  rw [newly, h, List.drop_left]

/-- A present set that is sent to a subscriber with room on its channel is queued. -/
theorem sendPresence_newly (hnodup : (s.subs.map Subscriber.subId).Nodup)
    (hid : s.Registered id) (hroom : s.hasRoom id = true) (only : Option ℕ)
    (hto : only.all (fun o => decide (o = id)) = true) :
    newly s (s.sendPresence only) id = [.frame (.presence (presentAccounts s.subs))] := by
  obtain ⟨sub, hsub, rfl⟩ := hid
  have hmem : sub.subId ∈ (s.subs.map Subscriber.subId).filter
      fun id => only.all fun o => decide (o = id) :=
    List.mem_filter.2 ⟨List.mem_map_of_mem hsub, hto⟩
  refine newly_of_append ?_
  rw [sendPresence, trySendAll_channels_of_mem s (hnodup.filter _) hmem, if_pos hroom]

theorem lastPresence_presence (accounts : List PresentAccount) :
    lastPresence [(.frame (.presence accounts) : Outbound β)] = some accounts := rfl

/-- Who stays when others leave hears of it. -/
theorem leave_hears (h : s.Wf) {gone : Subscriber → Bool} (hid : (s.leave gone).Registered id)
    (hroom : s.hasRoom id = true) : Hears s (s.leave gone) id := by
  obtain ⟨sub, hsub, rfl⟩ := hid
  rw [leave_subs] at hsub
  unfold Hears
  rw [leave_subs]
  unfold leave
  dsimp only
  have hsome : (s.subs.filter fun sub => !gone sub).isEmpty = false := by
    rw [List.isEmpty_eq_false_iff]
    exact List.ne_nil_of_mem hsub
  rw [hsome, if_neg Bool.false_ne_true]
  split
  · left
    have hnewly := sendPresence_newly
      (s := { s with subs := s.subs.filter fun sub => !gone sub })
      (h.nodup.sublist (List.filter_sublist.map _)) ⟨sub, hsub, rfl⟩ hroom none rfl
    exact congrArg lastPresence hnewly
  · rename_i hsame
    exact .inr ⟨congrArg lastPresence (newly_of_eq rfl), not_ne_iff.1 hsame⟩

theorem mem_accountSet {subs : List Subscriber} {sub : Subscriber} (h : sub ∈ subs) :
    sub.accountId ∈ accountSet subs :=
  List.mem_toFinset.2 (List.mem_map_of_mem h)

/-- With another connection the present set grows by its account. -/
theorem accountSet_enroll (s : SyncSessions β) (device : DeviceId) (account : AccountId)
    (email : String) :
    accountSet (s.enroll device account email).subs = insert account (accountSet s.subs) := by
  ext a
  simp [accountSet, enroll]

theorem subscribe_eq (s : SyncSessions β) (device : DeviceId) (account : AccountId)
    (email : String) :
    (s.subscribe device account email).1 =
      if 1 < (accountSet (s.enroll device account email).subs).card then
        if accountSet (s.enroll device account email).subs ≠ accountSet s.subs then
          (s.enroll device account email).sendPresence none
        else (s.enroll device account email).sendPresence (some s.nextSubId)
      else s.enroll device account email := rfl

section Enrolled

variable (h : s.Wf) {device : DeviceId} {account : AccountId} {email : String}
include h

theorem enroll_nodup : ((s.enroll device account email).subs.map Subscriber.subId).Nodup := by
  have hwf := (h.subscribe device account email).nodup
  rw [subscribe_subs] at hwf
  exact hwf

theorem enroll_channels (hid : s.Registered id) :
    (s.enroll device account email).channels id = s.channels id :=
  Function.update_of_ne (Nat.ne_of_lt (hid.lt h)) _ _

/-- Who was there before another connection comes hears of a new account. -/
theorem subscribe_hears (hid : s.Registered id) (hroom : s.hasRoom id = true) :
    Hears s (s.subscribe device account email).1 id := by
  have hchannel : (s.enroll device account email).channels id = s.channels id :=
    enroll_channels h hid
  have hid' : (s.enroll device account email).Registered id := by
    obtain ⟨sub, hsub, rfl⟩ := hid
    exact ⟨sub, List.mem_append_left _ hsub, rfl⟩
  have hroom' : (s.enroll device account email).hasRoom id = true := by
    rw [hasRoom, hchannel]
    exact hroom
  have hnewly : ∀ t : SyncSessions β,
      newly s t id = newly (s.enroll device account email) t id := fun t => by
    rw [newly, newly, hchannel]
  unfold Hears
  rw [subscribe_eq, hnewly]
  split
  · split
    · left
      rw [sendPresence_newly (enroll_nodup h) hid' hroom' _ rfl, sendPresence_subs]
      rfl
    · rename_i hsame
      right
      rw [sendPresence_subs]
      refine ⟨?_, not_ne_iff.1 hsame⟩
      rw [newly_of_eq]
      · rfl
      · refine trySendAll_channels_of_notMem _ fun hmem => ?_
        have heq := (List.mem_filter.1 hmem).2
        simp only [Option.all_some, decide_eq_true_eq] at heq
        exact absurd (hid.lt h) (by omega)
  · rename_i hcard
    obtain ⟨sub, hsub, rfl⟩ := hid
    right
    refine ⟨congrArg lastPresence (newly_of_eq rfl), ?_⟩
    rw [accountSet_enroll] at hcard ⊢
    have hone := Finset.card_le_one.1 (Nat.not_lt.1 hcard)
    have hin := mem_accountSet hsub
    rw [hone account (Finset.mem_insert_self _ _) _ (Finset.mem_insert_of_mem hin)]
    exact Finset.insert_eq_of_mem hin

/-- The new connection itself hears who is there, unless it is its own account alone. -/
theorem subscribe_told (hnew : s.channels s.nextSubId = []) :
    namedIn account (newly s (s.subscribe device account email).1 s.nextSubId) =
      accountSet (s.subscribe device account email).1.subs := by
  have hself : (s.enroll device account email).Registered s.nextSubId :=
    ⟨_, List.mem_append_right _ (List.mem_singleton_self _), rfl⟩
  have hempty : (s.enroll device account email).channels s.nextSubId = [] :=
    Function.update_self _ _ _
  have hroom : (s.enroll device account email).hasRoom s.nextSubId = true := by
    rw [hasRoom, hempty]
    rfl
  have hnewly : ∀ t : SyncSessions β,
      newly s t s.nextSubId = newly (s.enroll device account email) t s.nextSubId := fun t => by
    rw [newly, newly, hempty, hnew]
  rw [subscribe_eq, hnewly]
  split
  · have hsent : ∀ only : Option ℕ, only.all (fun o => decide (o = s.nextSubId)) = true →
        namedIn account (newly (s.enroll device account email)
          ((s.enroll device account email).sendPresence only) s.nextSubId) =
        accountSet ((s.enroll device account email).sendPresence only).subs := by
      intro only hto
      rw [sendPresence_newly (enroll_nodup h) hself hroom _ hto, sendPresence_subs]
      exact presentAccounts_accounts _
    split
    · exact hsent none rfl
    · exact hsent (some s.nextSubId) (by simp)
  · rename_i hcard
    rw [newly_of_eq rfl]
    rw [accountSet_enroll] at hcard ⊢
    have hone := Finset.card_le_one.1 (Nat.not_lt.1 hcard)
    refine Finset.ext fun a => ?_
    show a ∈ ({account} : Finset AccountId) ↔ _
    rw [Finset.mem_singleton]
    constructor
    · rintro rfl
      exact Finset.mem_insert_self _ _
    · exact fun ha => hone a ha account (Finset.mem_insert_self _ _)

end Enrolled

/-- No row carries a present set. -/
theorem broadcast_newly (h : s.Wf) (exclude : ℕ) (updates : List (StoredBlob β)) :
    lastPresence (newly s (s.broadcast exclude updates) id) = none := by
  unfold broadcast
  split
  · exact congrArg lastPresence (newly_of_eq rfl)
  · by_cases hmem : id ∈ (s.subs.map Subscriber.subId).filter fun id => decide (id ≠ exclude)
    · have hchannel := trySendAll_channels_of_mem s
        (m := .frame (.updatesBroadcast updates)) (h.nodup.filter _) hmem
      split at hchannel
      · exact congrArg lastPresence (newly_of_append hchannel)
      · exact congrArg lastPresence (newly_of_eq hchannel)
    · exact congrArg lastPresence (newly_of_eq (trySendAll_channels_of_notMem s hmem))

/-- A broadcast that keeps the accounts is no news. -/
theorem broadcast_hears (h : s.Wf) {exclude : ℕ} {updates : List (StoredBlob β)}
    (hkeeps : s.KeepsAccounts (.broadcast exclude updates)) :
    Hears s (s.broadcast exclude updates) id := by
  refine .inr ⟨broadcast_newly h exclude updates, ?_⟩
  unfold broadcast
  split
  · rfl
  · rename_i hsome
    refine Finset.Subset.antisymm (fun a ha => ?_) fun a ha => ?_
    · have hsub := (List.filter_sublist.map Subscriber.accountId).subset (List.mem_toFinset.1 ha)
      exact List.mem_toFinset.2 hsub
    · obtain ⟨sub, hsub, rfl⟩ := List.mem_map.1 (List.mem_toFinset.1 ha)
      obtain ⟨stays, hstays, haccount, hroom⟩ :=
        hkeeps (fun hnil => hsome (List.isEmpty_iff.2 hnil)) sub hsub
      rw [← haccount]
      refine mem_accountSet (List.mem_filter.2 ⟨hstays, ?_⟩)
      rw [Bool.or_eq_true, decide_eq_true_eq]
      exact hroom

/-- Closing the document to an account is announced to the others. -/
theorem closeForAccount_hears (h : s.Wf) {account : AccountId} {reason : String}
    (hid : (s.closeForAccount account reason).Registered id) (hroom : s.hasRoom id = true) :
    Hears s (s.closeForAccount account reason) id := by
  have hout : id ∉ (s.subs.filter fun sub => decide (sub.accountId = account)).map
      Subscriber.subId := by
    intro hmem
    obtain ⟨sub, hsub, rfl⟩ := hid
    rw [closeForAccount_subs, List.mem_filter] at hsub
    obtain ⟨told, htold, heq⟩ := List.mem_map.1 hmem
    rw [List.mem_filter] at htold
    obtain rfl := List.inj_on_of_nodup_map h.nodup htold.1 hsub.1 heq
    have hno := hsub.2
    rw [htold.2] at hno
    exact Bool.false_ne_true hno
  unfold closeForAccount at hid ⊢
  dsimp only at hid ⊢
  have hchannel : ∀ m : Outbound β, (s.trySendAll m ((s.subs.filter fun sub =>
      decide (sub.accountId = account)).map Subscriber.subId)).channels id = s.channels id :=
    fun m => trySendAll_channels_of_notMem s hout
  have hwf : ∀ (m : Outbound β) (ids : List ℕ), (s.trySendAll m ids).Wf := fun m ids =>
    ⟨by rw [trySendAll_subs]; exact h.nodup, by
      rw [trySendAll_subs, trySendAll_nextSubId]
      exact h.below⟩
  have hears := leave_hears (hwf _ _) hid (by rw [hasRoom, hchannel]; exact hroom)
  unfold Hears newly at hears ⊢
  rw [hchannel, trySendAll_subs] at hears
  exact hears

/-! ## Ids that are not out yet -/

/-- One message to each of some subscribers. -/
theorem foldl_trySend (message : Subscriber → Outbound β) (subs : List Subscriber)
    (s : SyncSessions β) :
    (∀ id, (∀ sub ∈ subs, sub.subId ≠ id) →
      (subs.foldl (fun s sub => s.trySend sub.subId (message sub)) s).channels id =
        s.channels id) ∧
      (subs.foldl (fun s sub => s.trySend sub.subId (message sub)) s).nextSubId = s.nextSubId := by
  induction subs generalizing s with
  | nil => exact ⟨fun _ _ => rfl, rfl⟩
  | cons sub subs ih =>
    obtain ⟨hchannels, hnext⟩ := ih (s.trySend sub.subId (message sub))
    refine ⟨fun id hid => ?_, hnext.trans (trySend_nextSubId s _ _)⟩
    have hne : id ≠ sub.subId := (hid sub List.mem_cons_self).symm
    exact (hchannels id fun other hother => hid other (List.mem_cons_of_mem _ hother)).trans
      (trySend_channels_ne s _ hne)

theorem closeDoc_channels (hid : ¬s.Registered id) (exceptDevice : Option DeviceId)
    (reason : String) : (s.closeDoc exceptDevice reason).channels id = s.channels id :=
  (foldl_trySend _ s.subs s).1 id fun sub hsub heq => hid ⟨sub, hsub, heq⟩

/-- An operation queues nothing for an id that is not out yet. -/
theorem apply_channels_fresh (h : s.Wf) (l : RegistryLabel β) (hfresh : s.channels id = [])
    (hid : (s.apply l).nextSubId ≤ id) (hid₀ : s.nextSubId ≤ id) :
    (s.apply l).channels id = [] := by
  have hout : ¬s.Registered id := fun hr => Nat.not_lt.2 hid₀ (hr.lt h)
  cases l with
  | subscribe device account email =>
    have hne : id ≠ s.nextSubId := by
      have hnext : (s.subscribe device account email).1.nextSubId ≤ id := hid
      rw [subscribe_nextSubId] at hnext
      omega
    exact (subscribe_channels hout hne device account email).trans hfresh
  | unsubscribe id' => exact (leave_channels hout _).trans hfresh
  | broadcast exclude updates => exact (broadcast_channels hout exclude updates).trans hfresh
  | closeForAccount account reason =>
    exact (closeForAccount_channels hout account reason).trans hfresh
  | closeDoc exceptDevice reason =>
    exact (closeDoc_channels hout exceptDevice reason).trans hfresh
  | receive id' =>
    by_cases heq : id = id'
    · subst heq
      show Function.update s.channels id _ id = []
      rw [Function.update_self, hfresh]
      rfl
    · show Function.update s.channels id' _ id = []
      rw [Function.update_of_ne heq, hfresh]
  | elsewhere => exact hfresh

/-- Ids are handed out once, and never again. -/
theorem apply_wf (h : s.Wf) (l : RegistryLabel β) :
    (s.apply l).Wf ∧ s.nextSubId ≤ (s.apply l).nextSubId := by
  cases l with
  | subscribe device account email =>
    refine ⟨h.subscribe device account email, ?_⟩
    show s.nextSubId ≤ (s.subscribe device account email).1.nextSubId
    rw [subscribe_nextSubId]
    exact Nat.le_succ _
  | unsubscribe id => exact ⟨h.leave _, (leave_nextSubId s _).ge⟩
  | broadcast exclude updates =>
    exact ⟨h.broadcast exclude updates, (broadcast_nextSubId exclude updates).ge⟩
  | closeForAccount account reason =>
    refine ⟨⟨?_, ?_⟩, (closeForAccount_nextSubId account reason).ge⟩
    · show ((s.closeForAccount account reason).subs.map Subscriber.subId).Nodup
      rw [closeForAccount_subs]
      exact h.nodup.sublist (List.filter_sublist.map _)
    · intro sub hsub
      have hsub' : sub ∈ (s.closeForAccount account reason).subs := hsub
      rw [closeForAccount_subs] at hsub'
      show sub.subId < (s.closeForAccount account reason).nextSubId
      rw [closeForAccount_nextSubId]
      exact h.below sub (List.mem_filter.1 hsub').1
  | closeDoc exceptDevice reason =>
    have hnext : (s.closeDoc exceptDevice reason).nextSubId = s.nextSubId :=
      (foldl_trySend _ s.subs s).2
    refine ⟨⟨List.nodup_nil, ?_⟩, hnext.ge⟩
    intro sub hsub
    exact absurd hsub List.not_mem_nil
  | receive id => exact ⟨⟨h.nodup, h.below⟩, Nat.le_refl _⟩
  | elsewhere =>
    exact ⟨⟨h.nodup, fun sub hsub => Nat.lt_succ_of_lt (h.below sub hsub)⟩, Nat.le_succ _⟩

end SyncSessions

/-! ## Runs -/

variable {r : Registry β}

namespace Registry

/-- Channels, and what is kept of them. -/
structure Wf (r : Registry β) : Prop where
  sessions : r.sessions.Wf
  room : ∀ id, r.filled id = false → r.sessions.hasRoom id = true
  fresh : ∀ id, r.sessions.nextSubId ≤ id → r.sessions.channels id = [] ∧ r.ever id = []

theorem wf_new : (new : Registry β).Wf where
  sessions := SyncSessions.wf_new
  room _ _ := rfl
  fresh _ _ := ⟨rfl, rfl⟩

theorem filled_after {s : SyncSessions β} {id : ℕ} (h : (r.after s).filled id = false) :
    r.filled id = false ∧ s.hasRoom id = true := by
  obtain ⟨hbefore, hnow⟩ := Bool.or_eq_false_iff.1 h
  refine ⟨hbefore, ?_⟩
  rw [SyncSessions.hasRoom, decide_eq_true_eq]
  exact Nat.lt_of_not_le (of_decide_eq_false hnow)

theorem Wf.after (h : r.Wf) (l : RegistryLabel β) : (r.after (r.sessions.apply l)).Wf := by
  obtain ⟨hwf, hle⟩ := SyncSessions.apply_wf h.sessions l
  refine ⟨hwf, fun id hid => (filled_after hid).2, fun id hid => ?_⟩
  obtain ⟨hchannel, hever⟩ := h.fresh id (hle.trans hid)
  have hempty := SyncSessions.apply_channels_fresh h.sessions l hchannel hid (hle.trans hid)
  refine ⟨hempty, ?_⟩
  show r.ever id ++ ((r.sessions.apply l).channels id).drop _ = []
  rw [hever, hempty, List.drop_nil]
  rfl

/-- Who hears of a change names the accounts that are there. -/
theorem named_of_hears {s : SyncSessions β} {sub : Subscriber}
    (hbefore : namedIn sub.accountId (r.ever sub.subId) = SyncSessions.accountSet r.sessions.subs)
    (hears : SyncSessions.Hears r.sessions s sub.subId) :
    namedIn sub.accountId ((r.after s).ever sub.subId) = SyncSessions.accountSet s.subs := by
  show namedIn _ (r.ever sub.subId ++ SyncSessions.newly r.sessions s sub.subId) = _
  rw [namedIn_append]
  rcases hears with hsent | ⟨hsilent, hsame⟩
  · rw [hsent, Option.elim_some]
    exact SyncSessions.presentAccounts_accounts _
  · rw [hsilent, Option.elim_none, hbefore, hsame]

/-- An operation that only takes subscribers away, and that those who stay hear of. -/
theorem Told.of_hears (h : r.Told) {s : SyncSessions β} (hsubs : ∀ sub ∈ s.subs,
    sub ∈ r.sessions.subs) (hears : ∀ sub ∈ s.subs, r.filled sub.subId = false →
      SyncSessions.Hears r.sessions s sub.subId) : (r.after s).Told := by
  intro sub hsub hfilled
  have hbefore := (filled_after hfilled).1
  exact named_of_hears (h sub (hsubs sub hsub) hbefore) (hears sub hsub hbefore)

/-- **One operation.**  Everybody who was told who is there is told again. -/
theorem Told.step (hwf : r.Wf) (h : r.Told) {l : RegistryLabel β}
    (hkeeps : r.sessions.KeepsAccounts l) : (r.after (r.sessions.apply l)).Told := by
  cases l with
  | subscribe device account email =>
    intro sub hsub hfilled
    have hbefore := (filled_after hfilled).1
    have hsub' : sub ∈ (r.sessions.subscribe device account email).1.subs := hsub
    rw [SyncSessions.subscribe_subs, List.mem_append, List.mem_singleton] at hsub'
    rcases hsub' with hold | rfl
    · exact named_of_hears (h sub hold hbefore)
        (SyncSessions.subscribe_hears hwf.sessions ⟨sub, hold, rfl⟩ (hwf.room _ hbefore))
    · obtain ⟨hchannel, hever⟩ := hwf.fresh r.sessions.nextSubId (Nat.le_refl _)
      show namedIn account (r.ever r.sessions.nextSubId ++ _) = _
      rw [hever, List.nil_append]
      exact SyncSessions.subscribe_told hwf.sessions hchannel
  | unsubscribe id =>
    refine h.of_hears (fun sub hsub => ?_) fun sub hsub hbefore => ?_
    · have hsub' : sub ∈ (r.sessions.unsubscribe id).subs := hsub
      rw [SyncSessions.unsubscribe, SyncSessions.leave_subs] at hsub'
      exact (List.mem_filter.1 hsub').1
    · exact SyncSessions.leave_hears hwf.sessions ⟨sub, hsub, rfl⟩ (hwf.room _ hbefore)
  | broadcast exclude updates =>
    exact h.of_hears (SyncSessions.broadcast_subs exclude updates) fun sub hsub _ =>
      SyncSessions.broadcast_hears hwf.sessions hkeeps
  | closeForAccount account reason =>
    refine h.of_hears (fun sub hsub => ?_) fun sub hsub hbefore => ?_
    · have hsub' : sub ∈ (r.sessions.closeForAccount account reason).subs := hsub
      rw [SyncSessions.closeForAccount_subs] at hsub'
      exact (List.mem_filter.1 hsub').1
    · exact SyncSessions.closeForAccount_hears hwf.sessions ⟨sub, hsub, rfl⟩ (hwf.room _ hbefore)
  | closeDoc exceptDevice reason =>
    intro sub hsub
    exact absurd hsub List.not_mem_nil
  | receive id =>
    refine h.of_hears (fun sub hsub => hsub) fun sub _ _ => .inr ⟨?_, rfl⟩
    have hshorter : (((r.sessions.apply (.receive id)).channels sub.subId)).length ≤
        (r.sessions.channels sub.subId).length := by
      show (Function.update r.sessions.channels id _ sub.subId).length ≤ _
      by_cases heq : sub.subId = id
      · rw [heq, Function.update_self, List.length_tail]
        exact Nat.sub_le _ _
      · rw [Function.update_of_ne heq]
    rw [SyncSessions.newly, List.drop_eq_nil_of_le hshorter]
    rfl
  | elsewhere =>
    refine h.of_hears (fun sub hsub => hsub) fun sub _ _ => .inr ⟨?_, rfl⟩
    exact congrArg lastPresence (SyncSessions.newly_of_eq rfl)

end Registry

/-- A broadcast that drops the last subscriber of an account leaves everybody with the accounts
that were there before. -/
theorem Registry.Told.broadcast (hwf : r.Wf) (h : r.Told) {exclude : ℕ}
    {updates : List (StoredBlob β)} (hdrops : ¬r.sessions.KeepsAccounts (.broadcast exclude updates))
    {sub : Subscriber} (hsub : sub ∈ (r.sessions.broadcast exclude updates).subs)
    (hfilled : (r.after (r.sessions.broadcast exclude updates)).filled sub.subId = false) :
    ¬(r.after (r.sessions.broadcast exclude updates)).Told := by
  intro htold
  have hnow := htold sub hsub hfilled
  have hbefore := h sub (SyncSessions.broadcast_subs exclude updates sub hsub)
    (Registry.filled_after hfilled).1
  have hsame : SyncSessions.accountSet r.sessions.subs =
      SyncSessions.accountSet (r.sessions.broadcast exclude updates).subs := by
    rw [← hbefore]
    refine Eq.trans ?_ hnow
    show _ = namedIn _ (r.ever sub.subId ++ SyncSessions.newly _ _ sub.subId)
    rw [namedIn_append, SyncSessions.broadcast_newly hwf.sessions exclude updates]
    rfl
  apply hdrops
  intro hsome gone hgone
  have hin := SyncSessions.mem_accountSet hgone
  rw [hsame] at hin
  obtain ⟨stays, hstays, haccount⟩ := List.mem_map.1 (List.mem_toFinset.1 hin)
  unfold SyncSessions.broadcast at hstays
  rw [if_neg fun hnil => hsome (List.isEmpty_iff.1 hnil)] at hstays
  obtain ⟨hmem, hroom⟩ := List.mem_filter.1 hstays
  rw [Bool.or_eq_true, decide_eq_true_eq] at hroom
  exact ⟨stays, hmem, haccount, hroom⟩

/-- **Presence.**  Where no broadcast drops the last subscriber of an account, every subscriber
whose channel has never been full was last told who is there; and the first broadcast that does
leaves them all wrong. -/
theorem presence_names_accounts
    (h : (registries β).Reach (fun r l => r.sessions.KeepsAccounts l) r) :
    r.Told ∧ ∀ exclude updates, ¬r.sessions.KeepsAccounts (.broadcast exclude updates) →
      ∀ sub ∈ (r.sessions.broadcast exclude updates).subs,
        (r.after (r.sessions.broadcast exclude updates)).filled sub.subId = false →
          ¬(r.after (r.sessions.broadcast exclude updates)).Told := by
  have hboth : r.Wf ∧ r.Told := by
    apply h.invariant
    · rintro r rfl
      exact ⟨Registry.wf_new, fun sub hsub => absurd hsub List.not_mem_nil⟩
    · rintro r l r' - ⟨hwf, htold⟩ hkeeps hstep
      obtain rfl := Option.some.inj hstep
      exact ⟨hwf.after l, htold.step hwf hkeeps⟩
  exact ⟨hboth.2, fun exclude updates hdrops sub hsub hfilled =>
    hboth.2.broadcast hboth.1 hdrops hsub hfilled⟩

instance [DecidableEq β] (s : SyncSessions β) (l : RegistryLabel β) :
    Decidable (s.KeepsAccounts l) :=
  match l with
  | .broadcast exclude updates => inferInstanceAs (Decidable (updates ≠ [] → ∀ sub ∈ s.subs,
      ∃ stays ∈ s.subs, stays.accountId = sub.accountId ∧
        (stays.subId = exclude ∨ s.hasRoom stays.subId = true)))
  | .subscribe _ _ _ | .unsubscribe _ | .closeForAccount _ _ | .closeDoc _ _ | .receive _
  | .elsewhere => .isTrue trivial

/-! ## A slow subscriber -/

/-- Two accounts have the document open, and the first one's device pushes. -/
def slowReader (pushes : ℕ) : List (RegistryLabel Unit) :=
  [.subscribe 0 0 "a", .subscribe 1 1 "b"] ++ List.replicate pushes (.broadcast 1 [⟨1, ()⟩])

/-- A push to two accounts leaves both named. -/
theorem presence_names_accounts_push :
    ∃ r, (registries Unit).exec .new (slowReader 1) = some r ∧ r.Told := by
  have hok : (registries Unit).allStepsb (fun r l => decide (r.sessions.KeepsAccounts l)) .new
      (slowReader 1) = true := by decide
  have hsteps := Machine.allSteps_of_allStepsb
    (fun _ _ h => of_decide_eq_true h) hok
  exact ⟨_, rfl, (presence_names_accounts (.exec (.init rfl) hsteps rfl)).1⟩

/-- **A full channel is dropped in silence**: the subscriber that pushes goes on naming the
account whose only subscriber the broadcast has dropped. -/
theorem presence_outlives_subscriber :
    ¬∀ r : Registry Unit, (registries Unit).Reachable r → r.Told := by
  intro hclaim
  have hseen : ((registries Unit).exec .new (slowReader 256)).map (fun r =>
      (r.sessions.subs, r.filled 1, namedIn 0 (r.ever 1))) =
        some ([⟨1, 0, 0, "a"⟩], false, {0, 1}) := by
    decide +kernel
  obtain ⟨r, hr, hr'⟩ := Option.map_eq_some_iff.1 hseen
  obtain ⟨hsubs, hr'⟩ := Prod.mk.inj hr'
  obtain ⟨hfilled, hnamed⟩ := Prod.mk.inj hr'
  have htold := hclaim r (Machine.reach_of_exec rfl hr) ⟨1, 0, 0, "a"⟩
    (hsubs ▸ List.mem_singleton_self _) hfilled
  rw [hsubs] at htold
  have hfalse : ({0, 1} : Finset AccountId) = {0} := hnamed.symm.trans htold
  exact absurd hfalse (by decide)

end Monoplan.Server
