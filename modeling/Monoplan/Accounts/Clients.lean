import Mathlib.Logic.Function.Basic
import Monoplan.Accounts.Keys
import Monoplan.Accounts.Requests

/-!
# The clients and their server

The server of `Monoplan.Accounts.Requests` with the clients that post to it.  An act is what one
client does between two requests of others: it reads the rows it is answered with, computes keys,
posts one request and keeps what the reply entitles it to.

* `Clients` is what people and their devices know.  The keys documents were given, passwords and
  recovery codes are there so that acts and theorems can speak of them.
* `Act.post` is what an act posts, `none` where it is not possible; `Clients.learn` what is known
  afterwards.
* `clients` is the machine.

Who signs in types the password of the account, and who recovers it its code.  Of a sign-in the
reads are one: between them, another password change would only make it fail.
-/

namespace Monoplan.Accounts

open Monoplan.Base Monoplan.Protocol

variable {β : Type}

/-! ## What clients know -/

/-- A recovery between its code and the new password. -/
structure Recovery (P : Primitives β) where
  tokenHash : β
  accountId : AccountId
  primaryDocId : DocId
  home : Dek P

/-- An update or a snapshot as it was sealed. -/
structure Sealed (β : Type) where
  docId : DocId
  plaintext : β
  nonce : β
  ciphertext : β

structure Clients (P : Primitives β) where
  /-- The key that was drawn for a document. -/
  deks : DocId → Option (Dek P)
  passwords : AccountId → Option β
  codes : AccountId → Option β
  /-- The workspaces that belong to no account yet. -/
  localDocs : List (DocId × Dek P)
  /-- The keys that the devices of accounts have stored. -/
  held : List (AccountId × DocId × Dek P)
  /-- The links that were made, and to which document. -/
  links : List (InviteSecret P × DocId)
  /-- The invites that were looked up with a link. -/
  opened : List (β × Dek P)
  recoveries : List (Recovery P)
  pushed : List (Sealed β)

variable {P : Primitives β}

namespace Clients

/-- Nobody ever ran a client. -/
def empty : Clients P :=
  ⟨fun _ => none, fun _ => none, fun _ => none, [], [], [], [], [], []⟩

/-- `dek_for_doc`, over the devices of an account. -/
def dekForDoc (c : Clients P) (a : AccountId) (docId : DocId) : Option (Dek P) :=
  (c.held.find? fun h => h.1 = a && h.2.1 = docId).map fun h => h.2.2

theorem mem_of_dekForDoc {c : Clients P} {a : AccountId} {docId : DocId} {dek : Dek P}
    (h : c.dekForDoc a docId = some dek) : (a, docId, dek) ∈ c.held := by
  obtain ⟨e, he, rfl⟩ := Option.map_eq_some_iff.1 h
  have hkey := List.find?_some he
  simp only [Bool.and_eq_true, decide_eq_true_eq] at hkey
  obtain ⟨rfl, rfl⟩ := hkey
  exact List.mem_of_find?_eq_some he

/-- New keys of an account's documents. -/
def hold (c : Clients P) (a : AccountId) (keys : List (DocId × Dek P)) : Clients P :=
  { c with held := c.held ++ keys.map fun k => (a, k) }

end Clients

/-! ## Acts -/

inductive Act (P : Primitives β)
  /-- A workspace without an account. -/
  | startLocally (docId : DocId) (dek : Dek P)
  | signup (accountId : AccountId) (deviceId : DeviceId) (minted : DocId) (creds : Credentials P)
    (tokenHash : β)
  | login (email : String) (password : β) (deviceId : DeviceId) (name kind : String)
    (tokenHash : β)
  /-- Ask for the memberships again. -/
  | listDocs (auth : DeviceLookup)
  | createDoc (auth : DeviceLookup) (docId : DocId) (dek : Dek P) (nonce : Nonce P)
  | link (auth : DeviceLookup) (docId : DocId) (secret : InviteSecret P) (nonce : Nonce P)
    (ttlMillis : ℤ)
  /-- Open the invite of a link that one was given. -/
  | fetch (secret : InviteSecret P) (docId : DocId)
  | accept (auth : DeviceLookup) (inviteId : β) (nonce : Nonce P)
  | changePassword (auth : DeviceLookup) (current : AuthSecret P) (new : NewPassword P)
  | recover (email : String) (recoveryCode tokenHash : β) (ttlMillis : ℤ)
  | resetPassword (recovery : Recovery P) (new : NewPassword P)
  | push (auth : DeviceLookup) (docId : DocId) (plaintext : β) (nonce : Nonce P) (snapshot : Bool)
  /-- A request that posts no key. -/
  | other (r : Request β)

/-- A request, if there is one, and the bytes that are posted. -/
structure Post (β : Type) where
  request : Option (Request β)
  words : List β

def Wrap.words (w : Wrap β) : List β := [w.dek, w.nonce]

def SignupRequest.words (req : SignupRequest β) : List β :=
  [req.masterSalt, req.authSecret, req.recovery.recoverySalt, req.recovery.recoveryAuthSecret] ++
    req.wrap.words ++ req.recovery.recoveryWrap.words

def PasswordRequest.words (req : PasswordRequest β) : List β :=
  [req.newMasterSalt, req.newAuthSecret] ++ req.newDocKeys.flatMap fun k => k.wrap.words

/-- The requests that carry no key. -/
def Request.keyless : Request β → Bool
  | authenticate _ | deleteDoc .. | revokeInvite .. | removeMember .. | deleteAccount _
  | createDevice .. | revokeDevice .. | compactDoc .. | recordAck .. => true
  | _ => false

section

variable [DecidableEq β]

/-- `find_account_by_email`. -/
def findAccountByEmail (email : String) (db : Tables β) : Option (AccountRow β) :=
  db.accounts.rows.find? fun a => decide (a.email = email)

/-- `fetch_invite`, as far as it answers with a wrap. -/
def fetchInvite (now : ℤ) (inviteId : β) (db : Tables β) : Option (InviteRow β) :=
  (db.invites.rows.find? fun i => decide (i.id = inviteId)).bind fun i =>
    if i.consumedAt ≠ none ∨ i.expiresAt < now then none else some i

/-- The keys a sign-in yields, with the account. -/
def loginKeys (P : Primitives β) (email : String) (password : β) (db : Tables β) :
    Option (AccountRow β × List (DocId × Dek P)) :=
  (findAccountByEmail email db).bind fun account =>
    ((login P password account ((listMemberships account.id db).map MemberRow.membership)).toOption).map
      fun keys => (account, keys)

/-- The keys of the memberships that the home key opens. -/
def refreshKeys (home : Dek P) (auth : DeviceLookup) (db : Tables β) :
    Option (List (DocId × Dek P)) :=
  (unwrapMemberships home auth.primaryDocId
    ((listMemberships auth.accountId db).map MemberRow.membership)).toOption

/-- The key an invite yields. -/
def inviteKey (now : ℤ) (secret : InviteSecret P) (db : Tables β) : Option (Dek P) :=
  (fetchInvite now secret.id db).bind fun i => (unwrapDocKey secret.kek i.wrap).toOption

/-- The home key a recovery yields, with the account. -/
def recoverKey (P : Primitives β) (email : String) (recoveryCode : β) (db : Tables β) :
    Option (AccountRow β × Dek P) :=
  (findAccountByEmail email db).bind fun account =>
    (recover P recoveryCode account (listMemberships account.id db)).toOption.map
      fun home => (account, home)

end

end Monoplan.Accounts
