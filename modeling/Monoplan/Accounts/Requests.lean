import Monoplan.Accounts.Transactions
import Monoplan.Base.History
import Monoplan.Base.Machine

/-!
# Requests on the account tables

The server between its requests.  A request is one database call with the checks its route makes
before it; requests of all accounts interleave, and one that authenticated early may run late,
when its account is gone.

* `server` is the machine.
* `Change` is what one request can do to the tables, and `run_change` says that it does nothing
  else; `run_foreignKeys` that it leaves no reference dangling.

The checks of passwords and recovery codes that precede a call are left out: the machine has
more runs than the server.
-/

namespace Monoplan.Accounts

open Monoplan.Base Monoplan.Protocol

/-! ## Requests -/

/-- A request at the granularity of its database call. -/
inductive Request (β : Type)
  | signup (accountId : AccountId) (deviceId : DeviceId) (minted : DocId) (new : NewAccount β)
  | authenticate (tokenHash : β)
  | createDoc (auth : DeviceLookup) (docId : DocId) (new : Wrap β)
  | deleteDoc (auth : DeviceLookup) (docId : DocId)
  | createInvite (auth : DeviceLookup) (docId : DocId) (new : NewInvite β)
  | revokeInvite (auth : DeviceLookup) (docId : DocId) (inviteId : β)
  | acceptInvite (auth : DeviceLookup) (inviteId : β) (wrap : Wrap β)
  | removeMember (auth : DeviceLookup) (docId : DocId) (target : AccountId)
  | deleteAccount (auth : DeviceLookup)
  | updatePassword (auth : DeviceLookup) (u : PasswordUpdate β)
  | createRecoverySession (accountId : AccountId) (tokenHash : β) (ttlMillis : ℤ)
  | resetPassword (tokenHash : β) (u : PasswordUpdate β)
  | createDevice (accountId : AccountId) (deviceId : DeviceId) (name kind : String)
    (tokenHash : β)
  | revokeDevice (auth : DeviceLookup) (deviceId : DeviceId)
  | pushUpdate (row : HistoryRow β)
  | pushSnapshot (row : HistoryRow β)
  | compactDoc (docId : DocId) (gone : β → Bool)
  | recordAck (deviceId : DeviceId) (docId : DocId) (seq : ℕ)

inductive Reply
  /-- A statement failed, and the transaction was rolled back. -/
  | failed
  /-- Refused by the route, before any transaction. -/
  | forbidden
  | created (c : CreatedAccount)
  | identified (l : Option DeviceLookup)
  | docCreated (docId : DocId)
  | docDeleted (out : DeleteDocOutcome)
  | invited (out : CreateInviteOutcome)
  | revoked (found : Bool)
  | accepted (out : AcceptInviteOutcome)
  | removed (out : RemoveMemberOutcome)
  | accountDeleted (d : DeletedAccount)
  | passwordUpdated (out : PasswordUpdateOutcome)
  | sessionCreated
  | passwordReset (out : PasswordResetOutcome)
  | done
  deriving DecidableEq

variable {β : Type}

/-- Run a transaction and word its outcome. -/
def Tables.answer {α : Type} (db : Tables β) (body : Tx β (Ending α)) (reply : α → Reply) :
    Tables β × Reply :=
  ((transact body db).1, ((transact body db).2.map reply).getD .failed)

/-- The lookup a request authenticated with. -/
def Request.auth : Request β → Option DeviceLookup
  | createDoc auth .. | deleteDoc auth _ | createInvite auth .. | revokeInvite auth ..
  | acceptInvite auth .. | removeMember auth .. | deleteAccount auth | updatePassword auth _
  | revokeDevice auth _ => some auth
  | _ => none

/-- The account id that a request mints. -/
def Request.mints : Request β → Option AccountId
  | signup accountId .. => some accountId
  | _ => none

section Serve

variable [DecidableEq β]

/-- The routes refuse to delete or share an account's primary document, whoever asks. -/
def Request.run (now : ℤ) (db : Tables β) : Request β → Tables β × Reply
  | signup accountId deviceId minted new =>
    db.answer (Accounts.createAccount now accountId deviceId minted new) .created
  | authenticate tokenHash => (db, .identified (findDeviceByTokenHash tokenHash db))
  | createDoc auth docId new =>
    db.answer (Accounts.createDoc now auth.accountId docId new) .docCreated
  | deleteDoc auth docId =>
    if docId = auth.primaryDocId then (db, .forbidden)
    else db.answer (Accounts.deleteDoc auth.accountId docId) .docDeleted
  | createInvite auth docId new =>
    if docId = auth.primaryDocId then (db, .forbidden)
    else db.answer (Accounts.createInvite now auth.accountId docId new) .invited
  | revokeInvite auth docId inviteId =>
    db.answer (Accounts.revokeInvite auth.accountId docId inviteId) .revoked
  | acceptInvite auth inviteId wrap =>
    db.answer (Accounts.acceptInvite now auth.accountId inviteId wrap) .accepted
  | removeMember auth docId target =>
    if docId = auth.primaryDocId then (db, .forbidden)
    else db.answer (Accounts.removeMember now auth.accountId docId target) .removed
  | deleteAccount auth => db.answer (Accounts.deleteAccount auth.accountId) .accountDeleted
  | updatePassword auth u => db.answer (Accounts.updatePassword auth.accountId u) .passwordUpdated
  | createRecoverySession accountId tokenHash ttlMillis =>
    db.answer (Accounts.createRecoverySession now accountId tokenHash ttlMillis)
      fun _ => .sessionCreated
  | resetPassword tokenHash u =>
    db.answer (resetPasswordWithRecoverySession now tokenHash u) .passwordReset
  | createDevice accountId deviceId name kind tokenHash =>
    db.answer (Accounts.createDevice now deviceId accountId name kind tokenHash) fun _ => .done
  | revokeDevice auth deviceId =>
    db.answer (Accounts.revokeDevice auth.accountId deviceId) fun _ => .done
  | pushUpdate row => db.answer (Accounts.pushUpdate row) fun _ => .done
  | pushSnapshot row => db.answer (Accounts.pushSnapshot row) fun _ => .done
  | compactDoc docId gone => db.answer (Accounts.compactDoc docId gone) fun _ => .done
  | recordAck deviceId docId seq => db.answer (Accounts.recordAck deviceId docId seq) fun _ => .done

/-- A request that was answered, and when. -/
structure Event (β : Type) where
  now : ℤ
  request : Request β
  reply : Reply

structure Server (β : Type) where
  db : Tables β
  /-- What the requests so far authenticated as. -/
  auths : List DeviceLookup
  /-- What was answered so far.  Nothing reads it. -/
  history : List (Event β)

namespace Server

/-- A request has authenticated, and an account id it mints is new. -/
def admits (s : Server β) (r : Request β) : Bool :=
  (r.auth.all fun auth => decide (auth ∈ s.auths)) &&
    r.mints.all fun a => s.auths.all fun auth => decide (auth.accountId ≠ a)

/-- The lookups after a reply. -/
def learn (auths : List DeviceLookup) : Reply → List DeviceLookup
  | .identified (some l) => auths ++ [l]
  | _ => auths

def step (s : Server β) (l : ℤ × Request β) : Option (Server β) :=
  if s.admits l.2 then
    some
      { db := (l.2.run l.1 s.db).1
        auths := learn s.auths (l.2.run l.1 s.db).2
        history := s.history ++ [⟨l.1, l.2, (l.2.run l.1 s.db).2⟩] }
  else none

end Server

/-- The server and its requests. -/
def server (β : Type) [DecidableEq β] : Machine (Server β) (ℤ × Request β) where
  init s := s = ⟨.empty, [], []⟩
  step := Server.step

/-- Two accounts sign up, and the second joins a document of the first through an invite. -/
def sharingRun : List (ℤ × Request ℕ) :=
  let signup (email : String) (token : ℕ) : NewAccount ℕ :=
    ⟨email, ⟨0, 0, ⟨1, 1, 1⟩⟩, ⟨0, 0⟩, none, none, none, "laptop", "web", token, none⟩
  [(0, .signup 1 11 101 (signup "a" 21)), (1, .signup 2 12 102 (signup "b" 22)),
    (2, .authenticate 21), (2, .authenticate 22), (3, .createDoc ⟨1, 11, 101⟩ 5 ⟨7, 7⟩),
    (4, .createInvite ⟨1, 11, 101⟩ 5 ⟨77, ⟨8, 8⟩, 100⟩), (5, .acceptInvite ⟨2, 12, 102⟩ 77 ⟨9, 9⟩),
    (6, .createRecoverySession 1 31 900)]

theorem sharingRun_reaches : ∃ s, (server ℕ).Reachable s ∧ s.auths = [⟨1, 11, 101⟩, ⟨2, 12, 102⟩] ∧
    isActiveOwner 5 1 s.db = true ∧ isMember 5 2 s.db = true := by
  have hrun : ((server ℕ).exec ⟨.empty, [], []⟩ sharingRun).any (fun s =>
      decide (s.auths = [⟨1, 11, 101⟩, ⟨2, 12, 102⟩]) && isActiveOwner 5 1 s.db &&
        isMember 5 2 s.db) = true := by
    decide +kernel
  obtain ⟨s, hs, h⟩ := (Option.any_eq_true _ _).1 hrun
  simp only [Bool.and_eq_true, decide_eq_true_eq] at h
  exact ⟨s, Machine.reach_of_exec rfl hs, h.1.1, h.1.2, h.2⟩

/-! ## What one request can do -/

/-- The replies that identify a caller, or tell of a change to who may see what or to a password
or session. -/
def Reply.effective : Reply → Bool
  | identified _ | created _ | docCreated _ | docDeleted .deleted | invited (.created _)
  | revoked true | accepted (.joined _) | removed .removed | accountDeleted _
  | passwordUpdated .updated | sessionCreated | passwordReset (.updated _) => true
  | _ => false

/-- What a request can find and leave, and what it replies. -/
inductive Change (now : ℤ) (db : Tables β) : Request β → Reply → Tables β → Prop
  | quiet {r : Request β} {reply : Reply} {db' : Tables β} (hreply : reply.effective = false)
    (h : db.SameAccess db') : Change now db r reply db'
  | authenticate {tokenHash : β} :
    Change now db (.authenticate tokenHash) (.identified (findDeviceByTokenHash tokenHash db)) db
  | signup {a : AccountId} {deviceId minted home : ℕ} {new : NewAccount β} {db' : Tables β}
    (hdoc : ¬db.HasDoc home) (haccount : ¬db.HasAccount a)
    (docs : db'.docs.rows = db.docs.rows ++ [⟨home, now⟩])
    (accounts : db'.accounts.rows = db.accounts.rows ++
      [⟨a, new.email, new.password, home, new.recoverySalt, new.recoveryAuthHash, now⟩])
    (members : db'.members.rows = db.members.rows ++
      [⟨home, a, .owner, new.wrap, new.recoveryWrap, now, none⟩])
    (invites : db'.invites = db.invites) (sessions : db'.sessions = db.sessions) :
    Change now db (.signup a deviceId minted new) (.created ⟨a, deviceId, home⟩) db'
  | createDoc {auth : DeviceLookup} {docId : DocId} {new : Wrap β} {db' : Tables β}
    (hdoc : ¬db.HasDoc docId) (docs : db'.docs.rows = db.docs.rows ++ [⟨docId, now⟩])
    (members : db'.members.rows = db.members.rows ++
      [⟨docId, auth.accountId, .owner, new, none, now, none⟩])
    (accounts : db'.accounts = db.accounts) (invites : db'.invites = db.invites)
    (sessions : db'.sessions = db.sessions) :
    Change now db (.createDoc auth docId new) (.docCreated docId) db'
  | deleteDoc {auth : DeviceLookup} {docId : DocId} (hhome : docId ≠ auth.primaryDocId)
    (howner : db.Owner docId auth.accountId) :
    Change now db (.deleteDoc auth docId) (.docDeleted .deleted)
      ((db.purge fun x => decide (x = docId)).dropDocs fun x => decide (x = docId))
  | createInvite {auth : DeviceLookup} {docId : DocId} {new : NewInvite β}
    {t : Table (InviteRow β) InviteRow.Same} (hhome : docId ≠ auth.primaryDocId)
    (howner : db.Owner docId auth.accountId) (hnew : ∀ i ∈ db.invites.rows, i.id ≠ new.id)
    (rows : t.rows = db.invites.rows ++
      [⟨new.id, docId, auth.accountId, new.wrap, now, now + new.ttlMillis, none, none⟩]) :
    Change now db (.createInvite auth docId new) (.invited (.created (now + new.ttlMillis)))
      { db with invites := t }
  | revokeInvite {auth : DeviceLookup} {docId : DocId} {inviteId : β} {found : Bool}
    (hfound : found = true ↔ ∃ i ∈ db.invites.rows, i.id = inviteId ∧ i.docId = docId) :
    Change now db (.revokeInvite auth docId inviteId) (.revoked found)
      { db with invites := db.invites.delete fun i => i.id = inviteId && i.docId = docId }
  | acceptInvite {auth : DeviceLookup} {wrap : Wrap β} {i : InviteRow β} {db' : Tables β}
    (hi : i ∈ db.invites.rows) (hopen : i.consumedAt = none) (hlive : now ≤ i.expiresAt)
    (members : Joined now i.docId auth.accountId wrap db.members.rows db'.members.rows)
    (invites : db'.invites = (db.consumeInvite now i.id auth.accountId).invites)
    (docs : db'.docs = db.docs) (accounts : db'.accounts = db.accounts)
    (sessions : db'.sessions = db.sessions) :
    Change now db (.acceptInvite auth i.id wrap) (.accepted (.joined i.docId)) db'
  | removeMember {auth : DeviceLookup} {docId : DocId} {target : AccountId}
    (hhome : docId ≠ auth.primaryDocId) (howner : db.Owner docId auth.accountId)
    (hne : auth.accountId ≠ target) (hmember : db.Member docId target)
    (hlast : db.Owner docId target → 2 ≤ activeOwners docId db) :
    Change now db (.removeMember auth docId target) (.removed .removed)
      (db.stampRemoved now docId target)
  | deleteAccount {auth : DeviceLookup} :
    Change now db (.deleteAccount auth)
      (.accountDeleted ⟨ownedDocs auth.accountId db, joinedDocs auth.accountId db⟩)
      (db.erase auth.accountId)
  | updatePassword {auth : DeviceLookup} {u : PasswordUpdate β} {account : AccountRow β}
    {k : DocKeyUpdate β} (haccount : account ∈ db.accounts.rows)
    (hid : account.id = auth.accountId) (hkeys : u.newDocKeys = [k])
    (hk : k.docId = account.primaryDocId) :
    Change now db (.updatePassword auth u) (.passwordUpdated .updated)
      ((db.rekeyAccount auth.accountId u.password).rewrapMember auth.accountId k)
  | createRecoverySession {a : AccountId} {tokenHash : β} {ttlMillis : ℤ}
    {t : Table (RecoverySession β) RecoverySession.Same}
    (hnew : ∀ s ∈ db.sessions.rows, s.tokenHash ≠ tokenHash)
    (rows : t.rows = db.sessions.rows ++ [⟨tokenHash, a, now + ttlMillis, none⟩]) :
    Change now db (.createRecoverySession a tokenHash ttlMillis) .sessionCreated
      { db with sessions := t }
  | resetPassword {u : PasswordUpdate β} {account : AccountRow β} {k : DocKeyUpdate β}
    {session : RecoverySession β} (hsession : session ∈ db.sessions.rows)
    (hopen : session.consumedAt = none) (hlive : now ≤ session.expiresAt)
    (haccount : account ∈ db.accounts.rows) (hid : account.id = session.accountId)
    (hkeys : u.newDocKeys = [k]) (hk : k.docId = account.primaryDocId) :
    Change now db (.resetPassword session.tokenHash u) (.passwordReset (.updated session.accountId))
      (((db.rekeyAccount session.accountId u.password).rewrapMember session.accountId k
        ).consumeSession now session.tokenHash)

variable {db db' : Tables β} {now : ℤ} {reply : Reply}

omit [DecidableEq β] in
/-- A transaction that fails or rolls back changes nothing. -/
theorem answer_cases {α : Type} {body : Tx β (Ending α)} {f : α → Reply}
    (h : db.answer body f = (db', reply)) :
    db' = db ∧ (reply = .failed ∨ ∃ a e, reply = f a ∧ body db = some (.rollback a, e)) ∨
      ∃ a, reply = f a ∧ body db = some (.commit a, db') := by
  unfold Tables.answer at h
  generalize ht : transact body db = t at h
  obtain ⟨e, out⟩ := t
  obtain ⟨rfl, rfl⟩ := Prod.mk.inj h
  rcases transact_cases ht with ⟨hsame, ⟨rfl, -⟩ | ⟨a, e', rfl, hb⟩⟩ | ⟨a, rfl, hb⟩
  · exact .inl ⟨hsame, .inl rfl⟩
  · exact .inl ⟨hsame, .inr ⟨a, e', rfl, hb⟩⟩
  · exact .inr ⟨a, rfl, hb⟩

theorem Change.same {r : Request β} (hreply : reply.effective = false) :
    Change now db r reply db := .quiet hreply (.refl db)

/-- The reply of a transaction that only touches devices or histories. -/
theorem change_of_sameAccess {α : Type} {body : Tx β (Ending α)} {r : Request β}
    (hbody : ∀ out, body db = some out → db.SameAccess out.2)
    (h : db.answer body (fun _ => .done) = (db', reply)) : Change now db r reply db' := by
  rcases answer_cases h with ⟨rfl, rfl | ⟨_, _, rfl, -⟩⟩ | ⟨_, rfl, hb⟩
  · exact .same rfl
  · exact .same rfl
  · exact .quiet rfl (hbody _ hb)

/-- A request does nothing else. -/
theorem run_change {r : Request β} (h : r.run now db = (db', reply)) :
    Change now db r reply db' := by
  cases r with
  | signup a deviceId minted new =>
    rcases answer_cases h with ⟨rfl, rfl | ⟨_, _, rfl, hb⟩⟩ | ⟨_, rfl, hb⟩
    · exact .same rfl
    · cases (createAccount_spec hb).1
    · obtain ⟨hout, hdoc, hacc, docs, accounts, members, invites, sessions⟩ :=
        createAccount_spec hb
      cases hout
      exact .signup hdoc hacc docs accounts members invites sessions
  | authenticate tokenHash =>
    obtain ⟨rfl, rfl⟩ := Prod.mk.inj h
    exact .authenticate
  | createDoc auth docId new =>
    rcases answer_cases h with ⟨rfl, rfl | ⟨_, _, rfl, hb⟩⟩ | ⟨_, rfl, hb⟩
    · exact .same rfl
    · cases (createDoc_spec hb).1
    · obtain ⟨hout, hdoc, docs, members, accounts, invites, sessions⟩ := createDoc_spec hb
      cases hout
      exact .createDoc hdoc docs members accounts invites sessions
  | deleteDoc auth docId =>
    simp only [Request.run] at h
    split at h
    next =>
      obtain ⟨rfl, rfl⟩ := Prod.mk.inj h
      exact .same rfl
    next hhome =>
      rcases answer_cases h with ⟨rfl, rfl | ⟨_, _, rfl, hb⟩⟩ | ⟨_, rfl, hb⟩
      · exact .same rfl
      · rw [deleteDoc_rollback hb]
        exact .same rfl
      · obtain ⟨rfl, howner, rfl⟩ := deleteDoc_spec hb
        exact .deleteDoc hhome howner
  | createInvite auth docId new =>
    simp only [Request.run] at h
    split at h
    next =>
      obtain ⟨rfl, rfl⟩ := Prod.mk.inj h
      exact .same rfl
    next hhome =>
      rcases answer_cases h with ⟨rfl, rfl | ⟨out, _, rfl, hb⟩⟩ | ⟨_, rfl, hb⟩
      · exact .same rfl
      · cases out with
        | created t => exact absurd rfl (createInvite_rollback hb t)
        | notOwner => exact .same rfl
        | duplicate => exact .same rfl
      · obtain ⟨rfl, howner, hnew, t, rows, rfl⟩ := createInvite_spec hb
        exact .createInvite hhome howner hnew rows
  | revokeInvite auth docId inviteId =>
    rcases answer_cases h with ⟨rfl, rfl | ⟨_, _, rfl, hb⟩⟩ | ⟨_, rfl, hb⟩
    · exact .same rfl
    · rw [revokeInvite_rollback hb]
      exact .same rfl
    · obtain ⟨hfound, -, rfl⟩ := revokeInvite_spec hb
      exact .revokeInvite hfound
  | acceptInvite auth inviteId wrap =>
    rcases answer_cases h with ⟨rfl, rfl | ⟨out, _, rfl, hb⟩⟩ | ⟨_, rfl, hb⟩
    · exact .same rfl
    · cases out with
      | joined d => exact absurd rfl (acceptInvite_rollback hb d)
      | notFound => exact .same rfl
      | expired => exact .same rfl
      | consumed => exact .same rfl
      | alreadyMember => exact .same rfl
    · obtain ⟨i, hi, rfl, hopen, hlive, rfl, members, invites, docs, accounts, sessions⟩ :=
        acceptInvite_spec hb
      exact .acceptInvite hi hopen hlive members invites docs accounts sessions
  | removeMember auth docId target =>
    simp only [Request.run] at h
    split at h
    next =>
      obtain ⟨rfl, rfl⟩ := Prod.mk.inj h
      exact .same rfl
    next hhome =>
      rcases answer_cases h with ⟨rfl, rfl | ⟨out, _, rfl, hb⟩⟩ | ⟨_, rfl, hb⟩
      · exact .same rfl
      · have hout := removeMember_rollback hb
        cases out with
        | removed => exact absurd rfl hout
        | _ => exact .same rfl
      · obtain ⟨rfl, howner, hne, hmember, hlast, rfl⟩ := removeMember_spec hb
        exact .removeMember hhome howner hne hmember hlast
  | deleteAccount auth =>
    rcases answer_cases h with ⟨rfl, rfl | ⟨_, _, rfl, hb⟩⟩ | ⟨_, rfl, hb⟩
    · exact .same rfl
    · cases deleteAccount_spec hb
    · cases deleteAccount_spec hb
      exact .deleteAccount
  | updatePassword auth u =>
    rcases answer_cases h with ⟨rfl, rfl | ⟨out, _, rfl, hb⟩⟩ | ⟨_, rfl, hb⟩
    · exact .same rfl
    · have hout := updatePassword_rollback hb
      cases out with
      | updated => exact absurd rfl hout
      | docKeysMismatch => exact .same rfl
    · obtain ⟨rfl, account, haccount, hid, k, hkeys, hk, rfl⟩ := updatePassword_spec hb
      exact .updatePassword haccount hid hkeys hk
  | createRecoverySession a tokenHash ttlMillis =>
    rcases answer_cases h with ⟨rfl, rfl | ⟨_, _, rfl, hb⟩⟩ | ⟨_, rfl, hb⟩
    · exact .same rfl
    · obtain ⟨-, t, -, hout⟩ := createRecoverySession_spec hb
      cases hout
    · obtain ⟨hnew, t, rows, hout⟩ := createRecoverySession_spec hb
      cases hout
      exact .createRecoverySession hnew rows
  | resetPassword tokenHash u =>
    rcases answer_cases h with ⟨rfl, rfl | ⟨out, _, rfl, hb⟩⟩ | ⟨_, rfl, hb⟩
    · exact .same rfl
    · cases out with
      | updated b => exact absurd rfl (resetPassword_rollback hb b)
      | sessionInvalid => exact .same rfl
      | docKeysMismatch => exact .same rfl
    · obtain ⟨s, hs, rfl, hopen, hlive, rfl, account, haccount, hid, k, hkeys, hk, rfl⟩ :=
        resetPassword_spec hb
      exact .resetPassword hs hopen hlive haccount hid hkeys hk
  | createDevice a deviceId name kind tokenHash =>
    exact change_of_sameAccess (fun _ => createDevice_spec) h
  | revokeDevice auth deviceId => exact change_of_sameAccess (fun _ => revokeDevice_spec) h
  | pushUpdate row => exact change_of_sameAccess (fun _ => pushUpdate_spec) h
  | pushSnapshot row => exact change_of_sameAccess (fun _ => pushSnapshot_spec) h
  | compactDoc docId gone => exact change_of_sameAccess (fun _ => compactDoc_spec) h
  | recordAck deviceId docId seq => exact change_of_sameAccess (fun _ => recordAck_spec) h

/-- No request leaves a reference dangling. -/
theorem run_foreignKeys (now : ℤ) (r : Request β) (h : db.ForeignKeys) :
    (r.run now db).1.ForeignKeys := by
  cases r with
  | signup => exact transact_keeps keeps_createAccount h
  | authenticate => exact h
  | createDoc => exact transact_keeps keeps_createDoc h
  | deleteDoc auth docId =>
    simp only [Request.run]
    split
    · exact h
    · exact transact_keeps keeps_deleteDoc h
  | createInvite auth docId new =>
    simp only [Request.run]
    split
    · exact h
    · exact transact_keeps keeps_createInvite h
  | revokeInvite => exact transact_keeps keeps_revokeInvite h
  | acceptInvite => exact transact_keeps keeps_acceptInvite h
  | removeMember auth docId target =>
    simp only [Request.run]
    split
    · exact h
    · exact transact_keeps keeps_removeMember h
  | deleteAccount => exact transact_keeps keeps_deleteAccount h
  | updatePassword => exact transact_keeps keeps_updatePassword h
  | createRecoverySession => exact transact_keeps keeps_createRecoverySession h
  | resetPassword => exact transact_keeps keeps_resetPassword h
  | createDevice => exact transact_keeps keeps_createDevice h
  | revokeDevice => exact transact_keeps keeps_revokeDevice h
  | pushUpdate => exact transact_keeps keeps_pushUpdate h
  | pushSnapshot => exact transact_keeps keeps_pushSnapshot h
  | compactDoc => exact transact_keeps keeps_compactDoc h
  | recordAck => exact transact_keeps keeps_recordAck h

end Serve

end Monoplan.Accounts
