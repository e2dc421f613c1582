import Mathlib.Data.Int.Notation
import Monoplan.Base.Transaction
import Monoplan.Protocol.Frames

/-!
# The account tables

The tables of the server that say who may see which document, with the foreign keys between
them, and the transactions over them.

* `Tables.ForeignKeys` is checked after every statement, so a statement that would leave a
  reference dangling fails and takes its transaction with it.
* `createAccount`, `createDoc`, `deleteDoc`, `deleteAccount`, `updatePassword`,
  `resetPasswordWithRecoverySession`, `createInvite`, `revokeInvite`, `acceptInvite`,
  `removeMember`: the bodies of the transactions.
* The rows of a document's history are kept as far as they name the document; their own
  queries are in `Monoplan.Server.Queries`.

Hashes, salts, keys and tokens are an arbitrary type `β`.  The clock is an argument.
-/

namespace Monoplan.Accounts

open Monoplan.Base Monoplan.Protocol

abbrev DocId := ℕ

/-! ## Rows -/

inductive MemberRole
  | owner
  | member
  deriving DecidableEq

structure KdfParams where
  mKib : ℕ
  t : ℕ
  p : ℕ
  deriving DecidableEq

structure DocRow where
  id : DocId
  createdAt : ℤ
  deriving DecidableEq

/-- The columns a password change rewrites. -/
structure PasswordMaterial (β : Type) where
  hash : β
  salt : β
  kdf : KdfParams
  deriving DecidableEq

structure AccountRow (β : Type) where
  id : AccountId
  email : String
  password : PasswordMaterial β
  primaryDocId : DocId
  recoverySalt : Option β
  recoveryAuthHash : Option β
  createdAt : ℤ
  deriving DecidableEq

/-- A wrapped document key with its nonce. -/
structure Wrap (β : Type) where
  dek : β
  nonce : β
  deriving DecidableEq

structure MemberRow (β : Type) where
  docId : DocId
  accountId : AccountId
  role : MemberRole
  wrap : Wrap β
  recoveryWrap : Option (Wrap β)
  addedAt : ℤ
  /-- Unset while the membership is active. -/
  removedAt : Option ℤ
  deriving DecidableEq

structure InviteRow (β : Type) where
  id : β
  docId : DocId
  issuedBy : AccountId
  wrap : Wrap β
  createdAt : ℤ
  expiresAt : ℤ
  consumedAt : Option ℤ
  consumedBy : Option AccountId
  deriving DecidableEq

structure RecoverySession (β : Type) where
  tokenHash : β
  accountId : AccountId
  expiresAt : ℤ
  consumedAt : Option ℤ
  deriving DecidableEq

structure DeviceRow (β : Type) where
  id : DeviceId
  accountId : AccountId
  name : String
  kind : String
  tokenHash : β
  lastSeenAt : ℤ
  lastSeenIp : Option String
  createdAt : ℤ
  deriving DecidableEq

structure FrontierRow where
  deviceId : DeviceId
  docId : DocId
  lastAckedSeq : ℕ
  deriving DecidableEq

/-- A row of `updates` or `snapshots`. -/
structure HistoryRow (β : Type) where
  docId : DocId
  content : β
  deriving DecidableEq

variable {β : Type}

/-! What the primary keys and the unique columns forbid two rows to share. -/

abbrev DocRow.Same (a b : DocRow) : Prop := a.id = b.id

abbrev AccountRow.Same (a b : AccountRow β) : Prop := a.id = b.id ∨ a.email = b.email

abbrev MemberRow.Same (a b : MemberRow β) : Prop := a.docId = b.docId ∧ a.accountId = b.accountId

abbrev InviteRow.Same (a b : InviteRow β) : Prop := a.id = b.id

abbrev RecoverySession.Same (a b : RecoverySession β) : Prop := a.tokenHash = b.tokenHash

abbrev DeviceRow.Same (a b : DeviceRow β) : Prop := a.id = b.id

abbrev FrontierRow.Same (a b : FrontierRow) : Prop := a.deviceId = b.deviceId ∧ a.docId = b.docId

/-! ## The database -/

structure Tables (β : Type) where
  docs : Table DocRow DocRow.Same
  accounts : Table (AccountRow β) AccountRow.Same
  members : Table (MemberRow β) MemberRow.Same
  invites : Table (InviteRow β) InviteRow.Same
  sessions : Table (RecoverySession β) RecoverySession.Same
  devices : Table (DeviceRow β) DeviceRow.Same
  frontiers : Table FrontierRow FrontierRow.Same
  /-- The documents with a row in `doc_sequences`. -/
  sequences : List DocId
  updates : List (HistoryRow β)
  snapshots : List (HistoryRow β)

namespace Tables

/-- A database nothing was written to. -/
def empty : Tables β :=
  ⟨.empty, .empty, .empty, .empty, .empty, .empty, .empty, [], [], []⟩

def HasDoc (db : Tables β) (id : DocId) : Prop := ∃ d ∈ db.docs.rows, d.id = id

def HasAccount (db : Tables β) (id : AccountId) : Prop := ∃ a ∈ db.accounts.rows, a.id = id

def HasDevice (db : Tables β) (id : DeviceId) : Prop := ∃ d ∈ db.devices.rows, d.id = id

instance (db : Tables β) (id : DocId) : Decidable (db.HasDoc id) :=
  inferInstanceAs (Decidable (∃ d ∈ db.docs.rows, d.id = id))

instance (db : Tables β) (id : AccountId) : Decidable (db.HasAccount id) :=
  inferInstanceAs (Decidable (∃ a ∈ db.accounts.rows, a.id = id))

instance (db : Tables β) (id : DeviceId) : Decidable (db.HasDevice id) :=
  inferInstanceAs (Decidable (∃ d ∈ db.devices.rows, d.id = id))

/-- The `REFERENCES` clauses of the schema. -/
structure ForeignKeys (db : Tables β) : Prop where
  primary : ∀ a ∈ db.accounts.rows, db.HasDoc a.primaryDocId
  member : ∀ m ∈ db.members.rows, db.HasDoc m.docId ∧ db.HasAccount m.accountId
  invite : ∀ i ∈ db.invites.rows, db.HasDoc i.docId ∧ db.HasAccount i.issuedBy ∧
    ∀ a ∈ i.consumedBy, db.HasAccount a
  session : ∀ s ∈ db.sessions.rows, db.HasAccount s.accountId
  device : ∀ d ∈ db.devices.rows, db.HasAccount d.accountId
  frontier : ∀ f ∈ db.frontiers.rows, db.HasDevice f.deviceId ∧ db.HasDoc f.docId
  sequence : ∀ d ∈ db.sequences, db.HasDoc d
  update : ∀ u ∈ db.updates, db.HasDoc u.docId
  snapshot : ∀ s ∈ db.snapshots, db.HasDoc s.docId

instance : DecidablePred (ForeignKeys (β := β)) := fun db =>
  decidable_of_iff
    ((∀ a ∈ db.accounts.rows, db.HasDoc a.primaryDocId) ∧
      (∀ m ∈ db.members.rows, db.HasDoc m.docId ∧ db.HasAccount m.accountId) ∧
      (∀ i ∈ db.invites.rows, db.HasDoc i.docId ∧ db.HasAccount i.issuedBy ∧
        ∀ a ∈ i.consumedBy, db.HasAccount a) ∧
      (∀ s ∈ db.sessions.rows, db.HasAccount s.accountId) ∧
      (∀ d ∈ db.devices.rows, db.HasAccount d.accountId) ∧
      (∀ f ∈ db.frontiers.rows, db.HasDevice f.deviceId ∧ db.HasDoc f.docId) ∧
      (∀ d ∈ db.sequences, db.HasDoc d) ∧ (∀ u ∈ db.updates, db.HasDoc u.docId) ∧
      ∀ s ∈ db.snapshots, db.HasDoc s.docId)
    ⟨fun ⟨h₁, h₂, h₃, h₄, h₅, h₆, h₇, h₈, h₉⟩ => ⟨h₁, h₂, h₃, h₄, h₅, h₆, h₇, h₈, h₉⟩,
      fun h => ⟨h.1, h.2, h.3, h.4, h.5, h.6, h.7, h.8, h.9⟩⟩

end Tables

/-- A transaction over the account tables. -/
abbrev Tx (β α : Type) := Transaction (Tables β) α

/-- `UPDATE` or `DELETE`. -/
def write (f : Tables β → Tables β) : Tx β Unit := execute Tables.ForeignKeys f

/-! ## Accounts and documents -/

/-- What a signup posts.  The wraps go on the membership of the primary document. -/
structure NewAccount (β : Type) where
  email : String
  password : PasswordMaterial β
  wrap : Wrap β
  recoverySalt : Option β
  recoveryAuthHash : Option β
  recoveryWrap : Option (Wrap β)
  deviceName : String
  deviceKind : String
  deviceTokenHash : β
  /-- Chosen by the client; otherwise minted here. -/
  primaryDocId : Option DocId
  deriving DecidableEq

structure CreatedAccount where
  accountId : AccountId
  deviceId : DeviceId
  primaryDocId : DocId
  deriving DecidableEq

def insertDoc (r : DocRow) : Tx β Unit :=
  insertRow Tables.ForeignKeys Tables.docs (fun db t => { db with docs := t }) r

def insertAccount (r : AccountRow β) : Tx β Unit :=
  insertRow Tables.ForeignKeys Tables.accounts (fun db t => { db with accounts := t }) r

def insertMember (r : MemberRow β) : Tx β Unit :=
  insertRow Tables.ForeignKeys Tables.members (fun db t => { db with members := t }) r

section

variable [DecidableEq β]

def insertInvite (r : InviteRow β) : Tx β Unit :=
  insertRow Tables.ForeignKeys Tables.invites (fun db t => { db with invites := t }) r

def insertSession (r : RecoverySession β) : Tx β Unit :=
  insertRow Tables.ForeignKeys Tables.sessions (fun db t => { db with sessions := t }) r

end

def insertDevice (r : DeviceRow β) : Tx β Unit :=
  insertRow Tables.ForeignKeys Tables.devices (fun db t => { db with devices := t }) r

/-- The three uuids are what `now_v7` mints. -/
def createAccount (now : ℤ) (accountId : AccountId) (deviceId : DeviceId) (minted : DocId)
    (new : NewAccount β) : Tx β (Ending CreatedAccount) := do
  let primaryDocId := new.primaryDocId.getD minted
  -- the document first: the account refers to it
  insertDoc ⟨primaryDocId, now⟩
  insertAccount ⟨accountId, new.email, new.password, primaryDocId, new.recoverySalt,
    new.recoveryAuthHash, now⟩
  insertMember ⟨primaryDocId, accountId, .owner, new.wrap, new.recoveryWrap, now, none⟩
  insertDevice ⟨deviceId, accountId, new.deviceName, new.deviceKind, new.deviceTokenHash, now,
    none, now⟩
  return .commit ⟨accountId, deviceId, primaryDocId⟩

def createDoc (now : ℤ) (accountId : AccountId) (docId : DocId) (new : Wrap β) :
    Tx β (Ending DocId) := do
  insertDoc ⟨docId, now⟩
  insertMember ⟨docId, accountId, .owner, new, none, now, none⟩
  return .commit docId

/-- `role = 'owner' AND removed_at IS NULL`, on one document and account. -/
def ownsActively (docId : DocId) (accountId : AccountId) (m : MemberRow β) : Bool :=
  m.docId = docId && m.accountId = accountId && m.role = .owner && m.removedAt = none

def isActiveOwner (docId : DocId) (accountId : AccountId) (db : Tables β) : Bool :=
  decide (0 < (db.members.select (ownsActively docId accountId)).length)

def isActive (docId : DocId) (accountId : AccountId) (m : MemberRow β) : Bool :=
  m.docId = docId && m.accountId = accountId && m.removedAt = none

/-- Does the account hold an active membership on the document? -/
def isMember (docId : DocId) (accountId : AccountId) (db : Tables β) : Bool :=
  decide (0 < (db.members.select (isActive docId accountId)).length)

inductive DeleteDocOutcome
  | deleted
  | notOwner
  deriving DecidableEq

/-- Every row under a document, but not the document. -/
def purgeRowsUnderDoc (docId : DocId) : Tx β Unit := do
  write fun db => { db with updates := db.updates.filter fun u => !decide (u.docId = docId) }
  write fun db => { db with snapshots := db.snapshots.filter fun s => !decide (s.docId = docId) }
  write fun db => { db with frontiers := db.frontiers.delete fun f => decide (f.docId = docId) }
  write fun db => { db with sequences := db.sequences.filter fun d => !decide (d = docId) }
  write fun db => { db with invites := db.invites.delete fun i => decide (i.docId = docId) }
  write fun db => { db with members := db.members.delete fun m => decide (m.docId = docId) }

def deleteDocRow (docId : DocId) : Tx β Unit :=
  write fun db => { db with docs := db.docs.delete fun d => decide (d.id = docId) }

def purgeDocRows (docId : DocId) : Tx β Unit := do
  purgeRowsUnderDoc docId
  deleteDocRow docId

def deleteDoc (accountId : AccountId) (docId : DocId) : Tx β (Ending DeleteDocOutcome) := do
  let owner ← query (isActiveOwner docId accountId)
  if owner then do
    purgeDocRows docId
    return .commit .deleted
  else
    return .rollback .notOwner

/-- What `deleteAccount` removed. -/
structure DeletedAccount where
  purgedDocs : List DocId
  leftDocs : List DocId
  deriving DecidableEq

/-- The active memberships of an account, with the role. -/
def activeRoles (accountId : AccountId) (db : Tables β) : List (DocId × MemberRole) :=
  (db.members.select fun m => m.accountId = accountId && m.removedAt = none).map
    fun m => (m.docId, m.role)

/-- `UPDATE doc_invites SET consumed_by_account_id = NULL WHERE consumed_by_account_id = ?`. -/
def InviteRow.forget (accountId : AccountId) (i : InviteRow β) : InviteRow β :=
  if i.consumedBy = some accountId then { i with consumedBy := none } else i

@[simp] theorem InviteRow.forget_id (accountId : AccountId) (i : InviteRow β) :
    (i.forget accountId).id = i.id := by
  unfold forget
  split <;> rfl

theorem InviteRow.forget_same (accountId : AccountId) (a b : InviteRow β)
    (h : (a.forget accountId).Same (b.forget accountId)) : a.Same b := by
  simpa [InviteRow.Same] using h

def Tables.forgetConsumer (accountId : AccountId) (db : Tables β) : Tables β :=
  { db with invites := db.invites.modify (.forget accountId) (InviteRow.forget_same accountId) }

/-- The account's devices, and with each its frontiers. -/
def deleteDevices (gone : DeviceRow β → Bool) (db : Tables β) : Tables β :=
  { db with
    devices := db.devices.delete gone
    frontiers := db.frontiers.delete fun f =>
      db.devices.rows.any fun d => gone d && decide (d.id = f.deviceId) }

/-- Every row that refers to an account. -/
def deleteRowsOfAccount (accountId : AccountId) : Tx β Unit := do
  write fun db =>
    { db with members := db.members.delete fun m => decide (m.accountId = accountId) }
  write fun db =>
    { db with invites := db.invites.delete fun i => decide (i.issuedBy = accountId) }
  write (.forgetConsumer accountId)
  write fun db =>
    { db with sessions := db.sessions.delete fun s => decide (s.accountId = accountId) }
  write (deleteDevices fun d => decide (d.accountId = accountId))

def deleteAccountRow (accountId : AccountId) : Tx β Unit :=
  write fun db => { db with accounts := db.accounts.delete fun a => decide (a.id = accountId) }

def deleteAccount (accountId : AccountId) : Tx β (Ending DeletedAccount) := do
  let rows ← query (activeRoles accountId)
  let purged := (rows.filter fun r => decide (r.2 = .owner)).map Prod.fst
  let left := (rows.filter fun r => decide (r.2 ≠ .owner)).map Prod.fst
  purged.forM purgeRowsUnderDoc
  deleteRowsOfAccount accountId
  deleteAccountRow accountId
  -- the documents last: the account refers to its primary one
  purged.forM deleteDocRow
  return .commit ⟨purged, left⟩

/-! ## Passwords -/

structure DocKeyUpdate (β : Type) where
  docId : DocId
  wrap : Wrap β
  deriving DecidableEq

structure PasswordUpdate (β : Type) where
  password : PasswordMaterial β
  newDocKeys : List (DocKeyUpdate β)
  deriving DecidableEq

inductive PasswordUpdateOutcome
  | updated
  | docKeysMismatch (expected got : List DocId)
  deriving DecidableEq

def AccountRow.rekey (accountId : AccountId) (p : PasswordMaterial β) (a : AccountRow β) :
    AccountRow β :=
  if a.id = accountId then { a with password := p } else a

@[simp] theorem AccountRow.rekey_id (accountId : AccountId) (p : PasswordMaterial β)
    (a : AccountRow β) : (a.rekey accountId p).id = a.id := by
  unfold rekey
  split <;> rfl

@[simp] theorem AccountRow.rekey_email (accountId : AccountId) (p : PasswordMaterial β)
    (a : AccountRow β) : (a.rekey accountId p).email = a.email := by
  unfold rekey
  split <;> rfl

theorem AccountRow.rekey_same (accountId : AccountId) (p : PasswordMaterial β)
    (a b : AccountRow β)
    (h : (a.rekey accountId p).Same (b.rekey accountId p)) : a.Same b := by
  simpa [AccountRow.Same] using h

def Tables.rekeyAccount (accountId : AccountId) (p : PasswordMaterial β) (db : Tables β) :
    Tables β :=
  { db with
    accounts :=
      db.accounts.modify (.rekey accountId p)
        (AccountRow.rekey_same accountId p) }

def MemberRow.rewrap (accountId : AccountId) (k : DocKeyUpdate β) (m : MemberRow β) :
    MemberRow β :=
  if isActive k.docId accountId m then { m with wrap := k.wrap } else m

@[simp] theorem MemberRow.rewrap_docId (accountId : AccountId) (k : DocKeyUpdate β)
    (m : MemberRow β) : (m.rewrap accountId k).docId = m.docId := by
  unfold rewrap
  split <;> rfl

@[simp] theorem MemberRow.rewrap_accountId (accountId : AccountId) (k : DocKeyUpdate β)
    (m : MemberRow β) : (m.rewrap accountId k).accountId = m.accountId := by
  unfold rewrap
  split <;> rfl

theorem MemberRow.rewrap_same (accountId : AccountId) (k : DocKeyUpdate β) (a b : MemberRow β)
    (h : (a.rewrap accountId k).Same (b.rewrap accountId k)) : a.Same b := by
  simpa [MemberRow.Same] using h

def Tables.rewrapMember (accountId : AccountId) (k : DocKeyUpdate β) (db : Tables β) :
    Tables β :=
  { db with members := db.members.modify (.rewrap accountId k) (MemberRow.rewrap_same accountId k) }

/-- The re-wrap of one key fails unless it changed exactly one row. -/
def rewrapMember (accountId : AccountId) (k : DocKeyUpdate β) : Tx β Unit := do
  let n ← query fun db => (db.members.select (isActive k.docId accountId)).length
  write (.rewrapMember accountId k)
  if n = 1 then return () else raise

/-- The shared body of change and reset. -/
def applyPasswordUpdate (accountId : AccountId) (u : PasswordUpdate β) :
    Tx β PasswordUpdateOutcome := do
  let account ← query fun db => db.accounts.rows.find? fun a => decide (a.id = accountId)
  match account with
  | none => raise
  | some account =>
    let got := u.newDocKeys.map DocKeyUpdate.docId
    -- the set of the keys' documents is the primary one, and no key is there twice
    if got = [account.primaryDocId] then do
      write (.rekeyAccount accountId u.password)
      u.newDocKeys.forM (rewrapMember accountId)
      return .updated
    else
      return .docKeysMismatch [account.primaryDocId] got

def updatePassword (accountId : AccountId) (u : PasswordUpdate β) :
    Tx β (Ending PasswordUpdateOutcome) := do
  let outcome ← applyPasswordUpdate accountId u
  if outcome = .updated then return .commit outcome else return .rollback outcome

inductive PasswordResetOutcome
  | updated (accountId : AccountId)
  | sessionInvalid
  | docKeysMismatch (expected got : List DocId)
  deriving DecidableEq

section

variable [DecidableEq β]

def RecoverySession.consume (now : ℤ) (tokenHash : β) (s : RecoverySession β) :
    RecoverySession β :=
  if s.tokenHash = tokenHash then { s with consumedAt := some now } else s

@[simp] theorem RecoverySession.consume_tokenHash (now : ℤ) (tokenHash : β)
    (s : RecoverySession β) : (s.consume now tokenHash).tokenHash = s.tokenHash := by
  unfold consume
  split <;> rfl

theorem RecoverySession.consume_same (now : ℤ) (tokenHash : β) (a b : RecoverySession β)
    (h : (a.consume now tokenHash).Same (b.consume now tokenHash)) : a.Same b := by
  simpa [RecoverySession.Same] using h

def Tables.consumeSession (now : ℤ) (tokenHash : β) (db : Tables β) : Tables β :=
  { db with
    sessions :=
      db.sessions.modify (.consume now tokenHash)
        (RecoverySession.consume_same now tokenHash) }

def resetPasswordWithRecoverySession (now : ℤ) (tokenHash : β) (u : PasswordUpdate β) :
    Tx β (Ending PasswordResetOutcome) := do
  let row ← query fun db => db.sessions.rows.find? fun s => decide (s.tokenHash = tokenHash)
  match row with
  | none => return .rollback .sessionInvalid
  | some s =>
    if s.consumedAt ≠ none ∨ s.expiresAt < now then return .rollback .sessionInvalid
    else do
      let outcome ← applyPasswordUpdate s.accountId u
      match outcome with
      | .docKeysMismatch expected got => return .rollback (.docKeysMismatch expected got)
      | .updated =>
        write (.consumeSession now tokenHash)
        return .commit (.updated s.accountId)

def createRecoverySession (now : ℤ) (accountId : AccountId) (tokenHash : β) (ttlMillis : ℤ) :
    Tx β (Ending Unit) := do
  insertSession ⟨tokenHash, accountId, now + ttlMillis, none⟩
  return .commit ()

end

/-! ## Devices -/

def createDevice (now : ℤ) (deviceId : DeviceId) (accountId : AccountId) (name kind : String)
    (tokenHash : β) : Tx β (Ending DeviceId) := do
  insertDevice ⟨deviceId, accountId, name, kind, tokenHash, now, none, now⟩
  return .commit deviceId

def revokeDevice (accountId : AccountId) (deviceId : DeviceId) : Tx β (Ending Bool) := do
  let gone : DeviceRow β → Bool := fun d => d.id = deviceId && d.accountId = accountId
  let n ← query fun db => (db.devices.select gone).length
  write (deleteDevices gone)
  return .commit (decide (0 < n))

structure DeviceLookup where
  accountId : AccountId
  deviceId : DeviceId
  primaryDocId : DocId
  deriving DecidableEq

def findDeviceByTokenHash [DecidableEq β] (tokenHash : β) (db : Tables β) :
    Option DeviceLookup := do
  let d ← db.devices.rows.find? fun d => decide (d.tokenHash = tokenHash)
  let a ← db.accounts.rows.find? fun a => decide (a.id = d.accountId)
  return ⟨d.accountId, d.id, a.primaryDocId⟩

/-! ## Invites -/

section Invites

variable [DecidableEq β]

structure NewInvite (β : Type) where
  id : β
  wrap : Wrap β
  ttlMillis : ℤ
  deriving DecidableEq

inductive CreateInviteOutcome
  | created (expiresAt : ℤ)
  | notOwner
  | duplicate
  deriving DecidableEq

def createInvite (now : ℤ) (accountId : AccountId) (docId : DocId) (new : NewInvite β) :
    Tx β (Ending CreateInviteOutcome) := do
  let owner ← query (isActiveOwner docId accountId)
  if owner = false then return .rollback .notOwner
  else do
    let taken ← query fun db => db.invites.rows.any fun i => decide (i.id = new.id)
    if taken then return .rollback .duplicate
    else do
      insertInvite ⟨new.id, docId, accountId, new.wrap, now, now + new.ttlMillis, none, none⟩
      return .commit (.created (now + new.ttlMillis))

def revokeInvite (accountId : AccountId) (docId : DocId) (inviteId : β) : Tx β (Ending Bool) := do
  let owner ← query (isActiveOwner docId accountId)
  if owner = false then return .rollback false
  else do
    let gone : InviteRow β → Bool := fun i => i.id = inviteId && i.docId = docId
    let n ← query fun db => (db.invites.select gone).length
    write fun db => { db with invites := db.invites.delete gone }
    return .commit (decide (0 < n))

inductive AcceptInviteOutcome
  | joined (docId : DocId)
  | notFound
  | expired
  | consumed
  | alreadyMember (docId : DocId)
  deriving DecidableEq

/-- A removed member joins again under the new wrap. -/
def MemberRow.reactivate (now : ℤ) (docId : DocId) (accountId : AccountId) (wrap : Wrap β)
    (m : MemberRow β) : MemberRow β :=
  if m.docId = docId ∧ m.accountId = accountId then
    { m with
      role := .member
      wrap := wrap
      recoveryWrap := none
      addedAt := now
      removedAt := none }
  else m

omit [DecidableEq β] in
@[simp] theorem MemberRow.reactivate_docId (now : ℤ) (docId : DocId) (accountId : AccountId)
    (wrap : Wrap β) (m : MemberRow β) :
    (m.reactivate now docId accountId wrap).docId = m.docId := by
  unfold reactivate
  split <;> rfl

omit [DecidableEq β] in
@[simp] theorem MemberRow.reactivate_accountId (now : ℤ) (docId : DocId) (accountId : AccountId)
    (wrap : Wrap β) (m : MemberRow β) :
    (m.reactivate now docId accountId wrap).accountId = m.accountId := by
  unfold reactivate
  split <;> rfl

omit [DecidableEq β] in
theorem MemberRow.reactivate_same (now : ℤ) (docId : DocId) (accountId : AccountId) (wrap : Wrap β)
    (a b : MemberRow β)
    (h : (a.reactivate now docId accountId wrap).Same (b.reactivate now docId accountId wrap)) :
    a.Same b := by
  simpa [MemberRow.Same] using h

def Tables.reactivateMember (now : ℤ) (docId : DocId) (accountId : AccountId) (wrap : Wrap β)
    (db : Tables β) : Tables β :=
  { db with
    members :=
      db.members.modify (.reactivate now docId accountId wrap)
        (MemberRow.reactivate_same now docId accountId wrap) }

def InviteRow.consume (now : ℤ) (inviteId : β) (accountId : AccountId) (i : InviteRow β) :
    InviteRow β :=
  if i.id = inviteId then { i with consumedAt := some now, consumedBy := some accountId } else i

@[simp] theorem InviteRow.consume_id (now : ℤ) (inviteId : β) (accountId : AccountId)
    (i : InviteRow β) : (i.consume now inviteId accountId).id = i.id := by
  unfold consume
  split <;> rfl

theorem InviteRow.consume_same (now : ℤ) (inviteId : β) (accountId : AccountId)
    (a b : InviteRow β)
    (h : (a.consume now inviteId accountId).Same (b.consume now inviteId accountId)) :
    a.Same b := by
  simpa [InviteRow.Same] using h

def Tables.consumeInvite (now : ℤ) (inviteId : β) (accountId : AccountId) (db : Tables β) :
    Tables β :=
  { db with
    invites :=
      db.invites.modify (.consume now inviteId accountId)
        (InviteRow.consume_same now inviteId accountId) }

/-- The acceptor's membership: their old row again, or a new one. -/
def joinDoc (now : ℤ) (docId : DocId) (accountId : AccountId) (wrap : Wrap β)
    (existing : Bool) : Tx β Unit :=
  if existing then
    write (.reactivateMember now docId accountId wrap)
  else insertMember ⟨docId, accountId, .member, wrap, none, now, none⟩

def acceptInvite (now : ℤ) (accountId : AccountId) (inviteId : β) (wrap : Wrap β) :
    Tx β (Ending AcceptInviteOutcome) := do
  let row ← query fun db => db.invites.rows.find? fun i => decide (i.id = inviteId)
  match row with
  | none => return .rollback .notFound
  | some i =>
    if i.consumedAt ≠ none then return .rollback .consumed
    else if i.expiresAt < now then return .rollback .expired
    else do
      let existing ← query fun db => db.members.rows.find? fun m =>
        decide (m.docId = i.docId) && decide (m.accountId = accountId)
      if existing.any fun m => decide (m.removedAt = none) then
        return .rollback (.alreadyMember i.docId)
      else do
        joinDoc now i.docId accountId wrap existing.isSome
        write (.consumeInvite now inviteId accountId)
        return .commit (.joined i.docId)

end Invites

/-! ## Removing a member -/

inductive RemoveMemberOutcome
  | removed
  | callerNotMember
  | callerNotOwner
  | selfRemoval
  | lastOwner
  | targetNotMember
  deriving DecidableEq

/-- The role of an active membership. -/
def activeRole (docId : DocId) (accountId : AccountId) (db : Tables β) : Option MemberRole :=
  (db.members.rows.find? (isActive docId accountId)).map MemberRow.role

def MemberRow.remove (now : ℤ) (docId : DocId) (accountId : AccountId) (m : MemberRow β) :
    MemberRow β :=
  if isActive docId accountId m then { m with removedAt := some now } else m

@[simp] theorem MemberRow.remove_docId (now : ℤ) (docId : DocId) (accountId : AccountId)
    (m : MemberRow β) : (m.remove now docId accountId).docId = m.docId := by
  unfold remove
  split <;> rfl

@[simp] theorem MemberRow.remove_accountId (now : ℤ) (docId : DocId) (accountId : AccountId)
    (m : MemberRow β) : (m.remove now docId accountId).accountId = m.accountId := by
  unfold remove
  split <;> rfl

theorem MemberRow.remove_same (now : ℤ) (docId : DocId) (accountId : AccountId)
    (a b : MemberRow β)
    (h : (a.remove now docId accountId).Same (b.remove now docId accountId)) : a.Same b := by
  simpa [MemberRow.Same] using h

def Tables.stampRemoved (now : ℤ) (docId : DocId) (accountId : AccountId) (db : Tables β) :
    Tables β :=
  { db with
    members :=
      db.members.modify (.remove now docId accountId)
        (MemberRow.remove_same now docId accountId) }

/-- How many active owners a document has. -/
def activeOwners (docId : DocId) (db : Tables β) : ℕ :=
  (db.members.select fun m => m.docId = docId && m.role = .owner && m.removedAt = none).length

def removeMember (now : ℤ) (caller : AccountId) (docId : DocId) (target : AccountId) :
    Tx β (Ending RemoveMemberOutcome) := do
  let callerRole ← query (activeRole docId caller)
  match callerRole with
  | none => return .rollback .callerNotMember
  | some .member => return .rollback .callerNotOwner
  | some .owner =>
    if caller = target then return .rollback .selfRemoval
    else do
      let targetRole ← query (activeRole docId target)
      let owners ← query (activeOwners docId)
      match targetRole with
      | none => return .rollback .targetNotMember
      | some role =>
        if role = .owner ∧ owners ≤ 1 then return .rollback .lastOwner
        else do
          write (.stampRemoved now docId target)
          return .commit .removed

/-! ## What the sync queries write -/

/-- A row of `updates`, with the counter of its document. -/
def pushUpdate (r : HistoryRow β) : Tx β (Ending Unit) := do
  write fun db => { db with sequences := db.sequences.insert r.docId }
  write fun db => { db with updates := db.updates ++ [r] }
  return .commit ()

def pushSnapshot (r : HistoryRow β) : Tx β (Ending Unit) := do
  write fun db => { db with snapshots := db.snapshots ++ [r] }
  return .commit ()

/-- Updates and snapshots of a document that compaction drops. -/
def compactDoc (docId : DocId) (gone : β → Bool) : Tx β (Ending Unit) := do
  write fun db =>
    { db with updates := db.updates.filter fun u => !(decide (u.docId = docId) && gone u.content) }
  return .commit ()

def FrontierRow.raise (deviceId : DeviceId) (docId : DocId) (seq : ℕ) (f : FrontierRow) :
    FrontierRow :=
  if f.deviceId = deviceId ∧ f.docId = docId then { f with lastAckedSeq := max f.lastAckedSeq seq }
  else f

@[simp] theorem FrontierRow.raise_deviceId (deviceId : DeviceId) (docId : DocId) (seq : ℕ)
    (f : FrontierRow) : (f.raise deviceId docId seq).deviceId = f.deviceId := by
  unfold raise
  split <;> rfl

@[simp] theorem FrontierRow.raise_docId (deviceId : DeviceId) (docId : DocId) (seq : ℕ)
    (f : FrontierRow) : (f.raise deviceId docId seq).docId = f.docId := by
  unfold raise
  split <;> rfl

theorem FrontierRow.raise_same (deviceId : DeviceId) (docId : DocId) (seq : ℕ) (a b : FrontierRow)
    (h : (a.raise deviceId docId seq).Same (b.raise deviceId docId seq)) : a.Same b := by
  simpa [FrontierRow.Same] using h

def Tables.raiseFrontier (deviceId : DeviceId) (docId : DocId) (seq : ℕ) (db : Tables β) :
    Tables β :=
  { db with
    frontiers :=
      db.frontiers.modify (.raise deviceId docId seq)
        (FrontierRow.raise_same deviceId docId seq) }

/-- The row of a device that acked the document before, or a new one. -/
def upsertFrontier (deviceId : DeviceId) (docId : DocId) (seq : ℕ) (there : Bool) : Tx β Unit :=
  if there then write (.raiseFrontier deviceId docId seq)
  else
    insertRow Tables.ForeignKeys Tables.frontiers (fun db t => { db with frontiers := t })
      ⟨deviceId, docId, seq⟩

def recordAck (deviceId : DeviceId) (docId : DocId) (seq : ℕ) : Tx β (Ending Unit) := do
  let there ← query fun db => db.frontiers.rows.any fun f =>
    decide (f.deviceId = deviceId) && decide (f.docId = docId)
  upsertFrontier deviceId docId seq there
  return .commit ()

end Monoplan.Accounts
