import Monoplan.Accounts.Tables
import Monoplan.Base.StableSort

/-!
# The keys of accounts and documents

What the clients compute: keys from passwords, recovery codes and link secrets, and documents'
keys wrapped under other keys.

* A password or a recovery code gives a master key, which gives a key that wraps (`Kek`) and a
  secret that signs in.  The key of an account's primary document, its home key, is wrapped under
  these two; every other document's key under the home key; and a sharing link wraps the key of
  the document it leads to.
* `SignupRequest`, `PasswordChangeRequest` and `PasswordResetRequest` are what the clients post,
  with the columns the server makes of them.
* `login`, `recover`: the keys a client ends up with, from the rows the server answers with.

The primitives are a parameter.  Bytes are an arbitrary type `β`; what is drawn at random is an
argument.
-/

namespace Monoplan.Accounts

open Monoplan.Base Monoplan.Protocol

def KEY_LEN : ℕ := 32

def AEAD_NONCE_LEN : ℕ := 24

def KEK_INFO : String := "monoplan/kek/v1"
def AUTH_INFO : String := "monoplan/auth/v1"
def RECOVERY_KEK_INFO : String := "monoplan/recovery_kek/v1"
def RECOVERY_AUTH_INFO : String := "monoplan/recovery_auth/v1"
def INVITE_KEK_INFO : String := "monoplan/invite_kek/v1"
def INVITE_ID_INFO : String := "monoplan/invite_id/v1"

/-- What every client uses outside its tests. -/
def KdfParams.DEFAULT : KdfParams := ⟨64 * 1024, 3, 1⟩

/-- Argon2id, HKDF-SHA256, SHA-256 and XChaCha20-Poly1305. -/
structure Primitives (β : Type) where
  length : β → ℕ
  /-- `none` for parameters it does not accept. -/
  argon2id (input salt : β) (params : KdfParams) : Option β
  hkdfExpand (master : β) (info : String) : β
  sha256 (bytes : β) : β
  encrypt (key nonce plaintext : β) : β
  decrypt (key nonce ciphertext : β) : Option β
  length_argon2id {input salt out : β} {params : KdfParams} :
    argon2id input salt params = some out → length out = KEY_LEN
  length_hkdfExpand (master : β) (info : String) : length (hkdfExpand master info) = KEY_LEN
  decrypt_encrypt (key nonce plaintext : β) :
    decrypt key nonce (encrypt key nonce plaintext) = some plaintext

inductive CryptoError
  | argon2
  | aead
  | invalidKeyLength (expected actual : ℕ)
  | invalidNonceLength (expected actual : ℕ)
  deriving DecidableEq

variable {β : Type} {P : Primitives β}

/-! ## Keys -/

inductive KeyKind
  | passwordMaster
  | recoveryMaster
  | kek
  | authSecret
  | dek
  | inviteSecret

/-- 32 bytes; what they are for is in the type. -/
structure Key (P : Primitives β) (kind : KeyKind) where
  bytes : β
  length_eq : P.length bytes = KEY_LEN

abbrev PasswordMaster (P : Primitives β) := Key P .passwordMaster
abbrev RecoveryMaster (P : Primitives β) := Key P .recoveryMaster
abbrev Kek (P : Primitives β) := Key P .kek
abbrev AuthSecret (P : Primitives β) := Key P .authSecret
abbrev Dek (P : Primitives β) := Key P .dek
abbrev InviteSecret (P : Primitives β) := Key P .inviteSecret

namespace Key

variable {kind kind' : KeyKind}

theorem ext_bytes {k k' : Key P kind} (h : k.bytes = k'.bytes) : k = k' := by
  cases k
  cases k'
  cases h
  rfl

instance [DecidableEq β] : DecidableEq (Key P kind) := fun k k' =>
  decidable_of_iff (k.bytes = k'.bytes) ⟨ext_bytes, fun h => h ▸ rfl⟩

def fromBytes (b : β) : Except CryptoError (Key P kind) :=
  if h : P.length b = KEY_LEN then .ok ⟨b, h⟩
  else .error (.invalidKeyLength KEY_LEN (P.length b))

@[simp] theorem fromBytes_bytes (k : Key P kind) :
    (fromBytes k.bytes : Except CryptoError (Key P kind)) = .ok k := by
  rw [fromBytes, dif_pos k.length_eq]

/-- A subkey. -/
def expand (k : Key P kind) (info : String) : Key P kind' :=
  ⟨P.hkdfExpand k.bytes info, P.length_hkdfExpand _ _⟩

end Key

def PasswordMaster.kek (m : PasswordMaster P) : Kek P := m.expand KEK_INFO
def PasswordMaster.authSecret (m : PasswordMaster P) : AuthSecret P := m.expand AUTH_INFO
def RecoveryMaster.kek (m : RecoveryMaster P) : Kek P := m.expand RECOVERY_KEK_INFO
def RecoveryMaster.authSecret (m : RecoveryMaster P) : AuthSecret P := m.expand RECOVERY_AUTH_INFO

/-- Argon2id. -/
def deriveMaster {kind : KeyKind} (P : Primitives β) (input salt : β) (params : KdfParams) :
    Except CryptoError (Key P kind) :=
  match h : P.argon2id input salt params with
  | none => .error .argon2
  | some out => .ok ⟨out, P.length_argon2id h⟩

def derivePasswordMaster (P : Primitives β) (password salt : β) (params : KdfParams) :
    Except CryptoError (PasswordMaster P) := deriveMaster P password salt params

def deriveRecoveryMaster (P : Primitives β) (recoveryCode salt : β) (params : KdfParams) :
    Except CryptoError (RecoveryMaster P) := deriveMaster P recoveryCode salt params

/-! ## Wraps -/

structure Nonce (P : Primitives β) where
  bytes : β
  length_eq : P.length bytes = AEAD_NONCE_LEN

structure WrappedDek (P : Primitives β) where
  ciphertext : β
  nonce : Nonce P

/-- The columns of a wrap. -/
def WrappedDek.wire (w : WrappedDek P) : Wrap β := ⟨w.ciphertext, w.nonce.bytes⟩

def Kek.wrap (self : Kek P) (nonce : Nonce P) (dek : Dek P) : WrappedDek P :=
  ⟨P.encrypt self.bytes nonce.bytes dek.bytes, nonce⟩

def Kek.unwrap (self : Kek P) (w : WrappedDek P) : Except CryptoError (Dek P) :=
  match P.decrypt self.bytes w.nonce.bytes w.ciphertext with
  | none => .error .aead
  | some plaintext => Key.fromBytes plaintext

/-- The ciphertext; the nonce goes with it. -/
def Dek.seal (self : Dek P) (nonce : Nonce P) (plaintext : β) : β :=
  P.encrypt self.bytes nonce.bytes plaintext

/-- `open`. -/
def Dek.opened (self : Dek P) (ciphertext nonce : β) : Except CryptoError β :=
  if P.length nonce ≠ AEAD_NONCE_LEN then
    .error (.invalidNonceLength AEAD_NONCE_LEN (P.length nonce))
  else
    match P.decrypt self.bytes nonce ciphertext with
    | none => .error .aead
    | some plaintext => .ok plaintext

def Dek.wrapDek (self : Dek P) (nonce : Nonce P) (other : Dek P) : WrappedDek P :=
  ⟨self.seal nonce other.bytes, nonce⟩

def Dek.unwrapDek (self : Dek P) (w : WrappedDek P) : Except CryptoError (Dek P) :=
  (self.opened w.ciphertext w.nonce.bytes).bind Key.fromBytes

namespace InviteSecret

/-- The server's lookup id. -/
def id (self : InviteSecret P) : β := P.hkdfExpand self.bytes INVITE_ID_INFO

def kek (self : InviteSecret P) : Kek P := self.expand INVITE_KEK_INFO

def wrap (self : InviteSecret P) (nonce : Nonce P) (dek : Dek P) : WrappedDek P :=
  self.kek.wrap nonce dek

def unwrap (self : InviteSecret P) (w : WrappedDek P) : Except CryptoError (Dek P) :=
  self.kek.unwrap w

end InviteSecret

@[simp] theorem Kek.unwrap_wrap (k : Kek P) (nonce : Nonce P) (dek : Dek P) :
    k.unwrap (k.wrap nonce dek) = .ok dek := by
  simp [Kek.unwrap, Kek.wrap, P.decrypt_encrypt]

theorem Dek.opened_seal (k : Dek P) (nonce : Nonce P) (plaintext : β) :
    k.opened (k.seal nonce plaintext) nonce.bytes = .ok plaintext := by
  simp [Dek.opened, Dek.seal, nonce.length_eq, P.decrypt_encrypt]

@[simp] theorem Dek.unwrapDek_wrapDek (k : Dek P) (nonce : Nonce P) (dek : Dek P) :
    k.unwrapDek (k.wrapDek nonce dek) = .ok dek := by
  rw [Dek.unwrapDek, Dek.wrapDek, Dek.opened_seal]
  exact Key.fromBytes_bytes dek

/-! ## Rows -/

inductive KeystoreError
  | crypto (e : CryptoError)
  | missingPrimaryMembership (docId : DocId)
  | badNonceLength
  | invalidCredentials
  | recoveryNotEnrolled
  | noPrimaryKey
  deriving DecidableEq

/-- `wrapped`. -/
def wrapped (P : Primitives β) (w : Wrap β) : Except KeystoreError (WrappedDek P) :=
  if h : P.length w.nonce = AEAD_NONCE_LEN then .ok ⟨w.dek, w.nonce, h⟩ else .error .badNonceLength

@[simp] theorem wrapped_wire (w : WrappedDek P) : wrapped P w.wire = .ok w := by
  rw [wrapped, WrappedDek.wire, dif_pos w.nonce.length_eq]

/-- Open a wrap under a password, recovery or link key. -/
def unwrapDocKey (kek : Kek P) (w : Wrap β) : Except KeystoreError (Dek P) :=
  (wrapped P w).bind fun w => (kek.unwrap w).mapError .crypto

/-- Open a wrap under the home key. -/
def unwrapUnder (home : Dek P) (w : Wrap β) : Except KeystoreError (Dek P) :=
  (wrapped P w).bind fun w => (home.unwrapDek w).mapError .crypto

@[simp] theorem unwrapDocKey_wire (k : Kek P) (nonce : Nonce P) (dek : Dek P) :
    unwrapDocKey k (k.wrap nonce dek).wire = .ok dek := by
  rw [unwrapDocKey, wrapped_wire]
  change (k.unwrap _).mapError _ = _
  rw [Kek.unwrap_wrap]
  rfl

@[simp] theorem unwrapUnder_wire (home : Dek P) (nonce : Nonce P) (dek : Dek P) :
    unwrapUnder home (home.wrapDek nonce dek).wire = .ok dek := by
  rw [unwrapUnder, wrapped_wire]
  change (home.unwrapDek _).mapError _ = _
  rw [Dek.unwrapDek_wrapDek]
  rfl

/-- What a client is told of one of its memberships. -/
structure Membership (β : Type) where
  docId : DocId
  role : MemberRole
  wrap : Wrap β

/-- `list_memberships`: the active ones, oldest first. -/
def listMemberships (accountId : AccountId) (db : Tables β) : List (MemberRow β) :=
  sortBy (fun m n => (compare m.addedAt n.addedAt).then (compare m.docId n.docId))
    (db.members.select fun m => m.accountId = accountId && m.removedAt = none)

def MemberRow.membership (m : MemberRow β) : Membership β := ⟨m.docId, m.role, m.wrap⟩

/-- `unwrap_home`. -/
def unwrapHome (kek : Kek P) (primaryDocId : DocId) (memberships : List (Membership β)) :
    Except KeystoreError (Dek P) :=
  match memberships.find? fun m => m.docId = primaryDocId with
  | none => .error (.missingPrimaryMembership primaryDocId)
  | some primary => unwrapDocKey kek primary.wrap

/-- `unwrap_memberships`. -/
def unwrapMemberships (home : Dek P) (primaryDocId : DocId) (memberships : List (Membership β)) :
    Except KeystoreError (List (DocId × Dek P)) :=
  memberships.mapM fun m =>
    if m.docId = primaryDocId then .ok (m.docId, home)
    else (unwrapUnder home m.wrap).map fun dek => (m.docId, dek)

/-! ## Requests -/

structure RecoveryMaterial (β : Type) where
  recoverySalt : β
  recoveryAuthSecret : β
  recoveryWrap : Wrap β

structure SignupRequest (β : Type) where
  email : String
  masterSalt : β
  kdfParams : KdfParams
  authSecret : β
  wrap : Wrap β
  recovery : RecoveryMaterial β
  deviceName : String
  deviceKind : String
  primaryDocId : Option DocId

/-- The rows the server makes of it; `tokenHash` is of the token it mints. -/
def SignupRequest.newAccount (P : Primitives β) (req : SignupRequest β) (tokenHash : β) :
    NewAccount β where
  email := req.email
  password := ⟨P.sha256 req.authSecret, req.masterSalt, req.kdfParams⟩
  wrap := req.wrap
  recoverySalt := some req.recovery.recoverySalt
  recoveryAuthHash := some (P.sha256 req.recovery.recoveryAuthSecret)
  recoveryWrap := some req.recovery.recoveryWrap
  deviceName := req.deviceName
  deviceKind := req.deviceKind
  deviceTokenHash := tokenHash
  primaryDocId := req.primaryDocId

/-- What a person types at a signup, and what is drawn.  `adopt` is the local workspace that
becomes the account's, with `dek` its key. -/
structure Credentials (P : Primitives β) where
  email : String
  password : β
  deviceName : String
  deviceKind : String
  kdfParams : KdfParams
  adopt : Option DocId
  dek : Dek P
  recoveryCode : β
  masterSalt : β
  recoverySalt : β
  nonce : Nonce P
  recoveryNonce : Nonce P

/-- `signup`. -/
def Credentials.signup (c : Credentials P) : Except CryptoError (SignupRequest β) := do
  let master ← derivePasswordMaster P c.password c.masterSalt c.kdfParams
  let rMaster ← deriveRecoveryMaster P c.recoveryCode c.recoverySalt c.kdfParams
  return {
    email := c.email
    masterSalt := c.masterSalt
    kdfParams := c.kdfParams
    authSecret := master.authSecret.bytes
    wrap := (master.kek.wrap c.nonce c.dek).wire
    recovery := {
      recoverySalt := c.recoverySalt
      recoveryAuthSecret := rMaster.authSecret.bytes
      recoveryWrap := (rMaster.kek.wrap c.recoveryNonce c.dek).wire }
    deviceName := c.deviceName
    deviceKind := c.deviceKind
    primaryDocId := c.adopt }

/-- What a password change and a reset post. -/
structure PasswordRequest (β : Type) where
  newMasterSalt : β
  newKdfParams : KdfParams
  newAuthSecret : β
  newDocKeys : List (DocKeyUpdate β)

def PasswordRequest.update (P : Primitives β) (req : PasswordRequest β) : PasswordUpdate β :=
  ⟨⟨P.sha256 req.newAuthSecret, req.newMasterSalt, req.newKdfParams⟩, req.newDocKeys⟩

/-- A new password, and what is drawn for it. -/
structure NewPassword (P : Primitives β) where
  password : β
  kdfParams : KdfParams
  masterSalt : β
  nonce : Nonce P

/-- The home key, and no other, under a new password. -/
def NewPassword.rekey (n : NewPassword P) (primaryDocId : DocId) (home : Dek P) :
    Except CryptoError (PasswordRequest β) := do
  let master ← derivePasswordMaster P n.password n.masterSalt n.kdfParams
  return {
    newMasterSalt := n.masterSalt
    newKdfParams := n.kdfParams
    newAuthSecret := master.authSecret.bytes
    newDocKeys := [⟨primaryDocId, (master.kek.wrap n.nonce home).wire⟩] }

/-! ## Signing in -/

section

variable [DecidableEq β]

/-- A sign-in, from the account and its memberships: what `prelogin` and `login` answer, and what
the client makes of it. -/
def login (P : Primitives β) (password : β) (account : AccountRow β)
    (memberships : List (Membership β)) : Except KeystoreError (List (DocId × Dek P)) := do
  let master ← (derivePasswordMaster P password account.password.salt
    account.password.kdf).mapError .crypto
  if P.sha256 master.authSecret.bytes ≠ account.password.hash then throw .invalidCredentials
  let home ← unwrapHome master.kek account.primaryDocId memberships
  unwrapMemberships home account.primaryDocId memberships

/-- A recovery up to the home key.  The salt is the one the code was enrolled with, but the
parameters are those of the password. -/
def recover (P : Primitives β) (recoveryCode : β) (account : AccountRow β)
    (rows : List (MemberRow β)) : Except KeystoreError (Dek P) := do
  let some recoverySalt := account.recoverySalt | throw .recoveryNotEnrolled
  let rMaster ← (deriveRecoveryMaster P recoveryCode recoverySalt
    account.password.kdf).mapError .crypto
  if some (P.sha256 rMaster.authSecret.bytes) ≠ account.recoveryAuthHash then
    throw .invalidCredentials
  let some w := (rows.find? fun m => m.docId = account.primaryDocId).bind MemberRow.recoveryWrap
    | throw .noPrimaryKey
  unwrapDocKey rMaster.kek w

end

end Monoplan.Accounts
