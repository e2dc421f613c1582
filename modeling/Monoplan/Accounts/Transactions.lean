import Monoplan.Accounts.Tables

/-!
# What the account transactions do

One lemma for each transaction: what a run that was committed found in the tables, and the rows
it left.  Every other proof about accounts rests on these and never on a transaction's body.

* `keeps_…`: a transaction leaves the foreign keys whole, for every statement is checked.
* `createAccount_spec`, …, `removeMember_spec`: the rows before and after a commit.
* `Tables.purge`: what the six statements of `purgeRowsUnderDoc` come to, and what the loop over
  the documents of an account comes to.
-/

namespace Monoplan.Accounts

open Monoplan.Base Monoplan.Protocol

variable {β : Type} {db db' : Tables β} {now : ℤ} {a : AccountId} {docId : DocId}

/-! ## Reading rows -/

theorem find_eq_some {ρ : Type} {rows : List ρ} {p : ρ → Bool} {r : ρ}
    (h : rows.find? p = some r) : r ∈ rows ∧ p r = true :=
  ⟨List.mem_of_find?_eq_some h, List.find?_some h⟩

theorem find_eq_none {ρ : Type} {rows : List ρ} {p : ρ → Bool} (h : rows.find? p = none) :
    ∀ r ∈ rows, p r = false := by
  simpa using h

theorem isActive_iff {m : MemberRow β} :
    isActive docId a m = true ↔ m.docId = docId ∧ m.accountId = a ∧ m.removedAt = none := by
  simp [isActive, and_assoc]

theorem ownsActively_iff {m : MemberRow β} :
    ownsActively docId a m = true ↔
      m.docId = docId ∧ m.accountId = a ∧ m.role = .owner ∧ m.removedAt = none := by
  simp [ownsActively, and_assoc]

/-- The account has an active membership on the document. -/
def Tables.Member (db : Tables β) (docId : DocId) (a : AccountId) : Prop :=
  ∃ m ∈ db.members.rows, isActive docId a m = true

/-- The account is an active owner of the document. -/
def Tables.Owner (db : Tables β) (docId : DocId) (a : AccountId) : Prop :=
  ∃ m ∈ db.members.rows, ownsActively docId a m = true

theorem isActiveOwner_iff : isActiveOwner docId a db = true ↔ db.Owner docId a := by
  simp [isActiveOwner, Tables.Owner, Table.select, List.length_pos_iff]

theorem isMember_iff : isMember docId a db = true ↔ db.Member docId a := by
  simp [isMember, Tables.Member, Table.select, List.length_pos_iff]

/-! ## Inserting rows -/

section Insert

variable {r : Unit × Tables β}

theorem insertDoc_spec {row : DocRow} (h : insertDoc row db = some r) :
    ¬db.HasDoc row.id ∧
      ∃ t : Table DocRow DocRow.Same, t.rows = db.docs.rows ++ [row] ∧
        r = ((), { db with docs := t }) := by
  obtain ⟨t, ht, -, rfl⟩ := insertRow_eq_some.1 h
  obtain ⟨hrows, hnew⟩ := Table.rows_of_insert ht
  exact ⟨fun ⟨d, hd, hid⟩ => hnew d hd hid, t, hrows, rfl⟩

theorem insertAccount_spec {row : AccountRow β} (h : insertAccount row db = some r) :
    ¬db.HasAccount row.id ∧
      ∃ t : Table (AccountRow β) AccountRow.Same, t.rows = db.accounts.rows ++ [row] ∧
        r = ((), { db with accounts := t }) := by
  obtain ⟨t, ht, -, rfl⟩ := insertRow_eq_some.1 h
  obtain ⟨hrows, hnew⟩ := Table.rows_of_insert ht
  exact ⟨fun ⟨d, hd, hid⟩ => hnew d hd (.inl hid), t, hrows, rfl⟩

theorem insertMember_spec {row : MemberRow β} (h : insertMember row db = some r) :
    (∀ m ∈ db.members.rows, ¬(m.docId = row.docId ∧ m.accountId = row.accountId)) ∧
      ∃ t : Table (MemberRow β) MemberRow.Same, t.rows = db.members.rows ++ [row] ∧
        r = ((), { db with members := t }) := by
  obtain ⟨t, ht, -, rfl⟩ := insertRow_eq_some.1 h
  obtain ⟨hrows, hnew⟩ := Table.rows_of_insert ht
  exact ⟨hnew, t, hrows, rfl⟩

theorem insertInvite_spec [DecidableEq β] {row : InviteRow β}
    (h : insertInvite row db = some r) :
    (∀ i ∈ db.invites.rows, i.id ≠ row.id) ∧
      ∃ t : Table (InviteRow β) InviteRow.Same, t.rows = db.invites.rows ++ [row] ∧
        r = ((), { db with invites := t }) := by
  obtain ⟨t, ht, -, rfl⟩ := insertRow_eq_some.1 h
  obtain ⟨hrows, hnew⟩ := Table.rows_of_insert ht
  exact ⟨hnew, t, hrows, rfl⟩

theorem insertSession_spec [DecidableEq β] {row : RecoverySession β}
    (h : insertSession row db = some r) :
    (∀ s ∈ db.sessions.rows, s.tokenHash ≠ row.tokenHash) ∧
      ∃ t : Table (RecoverySession β) RecoverySession.Same, t.rows = db.sessions.rows ++ [row] ∧
        r = ((), { db with sessions := t }) := by
  obtain ⟨t, ht, -, rfl⟩ := insertRow_eq_some.1 h
  obtain ⟨hrows, hnew⟩ := Table.rows_of_insert ht
  exact ⟨hnew, t, hrows, rfl⟩

theorem insertDevice_spec {row : DeviceRow β} (h : insertDevice row db = some r) :
    ∃ t : Table (DeviceRow β) DeviceRow.Same, r = ((), { db with devices := t }) := by
  obtain ⟨t, -, -, rfl⟩ := insertRow_eq_some.1 h
  exact ⟨t, rfl⟩

end Insert

/-! ## Signing up and creating documents -/

/-- A commit of `createAccount`. -/
theorem createAccount_spec {deviceId minted : ℕ} {new : NewAccount β}
    {r : Ending CreatedAccount × Tables β}
    (h : createAccount now a deviceId minted new db = some r) :
    r.1 = .commit ⟨a, deviceId, new.primaryDocId.getD minted⟩ ∧
      ¬db.HasDoc (new.primaryDocId.getD minted) ∧ ¬db.HasAccount a ∧
      r.2.docs.rows = db.docs.rows ++ [⟨new.primaryDocId.getD minted, now⟩] ∧
      r.2.accounts.rows = db.accounts.rows ++
        [⟨a, new.email, new.password, new.primaryDocId.getD minted, new.recoverySalt,
          new.recoveryAuthHash, now⟩] ∧
      r.2.members.rows = db.members.rows ++
        [⟨new.primaryDocId.getD minted, a, .owner, new.wrap, new.recoveryWrap, now, none⟩] ∧
      r.2.invites = db.invites ∧ r.2.sessions = db.sessions := by
  obtain ⟨_, _, h₁, h⟩ := bind_eq_some.1 h
  obtain ⟨_, _, h₂, h⟩ := bind_eq_some.1 h
  obtain ⟨_, _, h₃, h⟩ := bind_eq_some.1 h
  obtain ⟨_, _, h₄, h⟩ := bind_eq_some.1 h
  obtain ⟨hdoc, docs, hdocs, he₁⟩ := insertDoc_spec h₁
  obtain ⟨rfl, rfl⟩ := Prod.mk.inj he₁
  obtain ⟨haccount, accounts, haccounts, he₂⟩ := insertAccount_spec h₂
  obtain ⟨rfl, rfl⟩ := Prod.mk.inj he₂
  obtain ⟨-, members, hmembers, he₃⟩ := insertMember_spec h₃
  obtain ⟨rfl, rfl⟩ := Prod.mk.inj he₃
  obtain ⟨devices, he₄⟩ := insertDevice_spec h₄
  obtain ⟨rfl, rfl⟩ := Prod.mk.inj he₄
  rw [pure_eq_some.1 h]
  exact ⟨rfl, hdoc, haccount, hdocs, haccounts, hmembers, rfl, rfl⟩

theorem createDoc_spec {new : Wrap β} {r : Ending DocId × Tables β}
    (h : createDoc now a docId new db = some r) :
    r.1 = .commit docId ∧ ¬db.HasDoc docId ∧
      r.2.docs.rows = db.docs.rows ++ [⟨docId, now⟩] ∧
      r.2.members.rows = db.members.rows ++ [⟨docId, a, .owner, new, none, now, none⟩] ∧
      r.2.accounts = db.accounts ∧ r.2.invites = db.invites ∧ r.2.sessions = db.sessions := by
  obtain ⟨_, _, h₁, h⟩ := bind_eq_some.1 h
  obtain ⟨_, _, h₂, h⟩ := bind_eq_some.1 h
  obtain ⟨hdoc, docs, hdocs, he₁⟩ := insertDoc_spec h₁
  obtain ⟨rfl, rfl⟩ := Prod.mk.inj he₁
  obtain ⟨-, members, hmembers, he₂⟩ := insertMember_spec h₂
  obtain ⟨rfl, rfl⟩ := Prod.mk.inj he₂
  rw [pure_eq_some.1 h]
  exact ⟨rfl, hdoc, hdocs, hmembers, rfl, rfl, rfl⟩

/-! ## Purging documents -/

namespace Tables

/-- The database without the rows under the documents that `gone` selects. -/
def purge (gone : DocId → Bool) (db : Tables β) : Tables β :=
  { db with
    updates := db.updates.filter fun u => !gone u.docId
    snapshots := db.snapshots.filter fun s => !gone s.docId
    frontiers := db.frontiers.delete fun f => gone f.docId
    sequences := db.sequences.filter fun d => !gone d
    invites := db.invites.delete fun i => gone i.docId
    members := db.members.delete fun m => gone m.docId }

/-- The database without those documents' own rows. -/
def dropDocs (gone : DocId → Bool) (db : Tables β) : Tables β :=
  { db with docs := db.docs.delete fun d => gone d.id }

theorem purge_purge (p q : DocId → Bool) (db : Tables β) :
    (db.purge p).purge q = db.purge fun d => p d || q d := by
  simp only [purge, Table.delete_delete, List.filter_filter, Bool.not_or, Bool.and_comm]

theorem dropDocs_dropDocs (p q : DocId → Bool) (db : Tables β) :
    (db.dropDocs p).dropDocs q = db.dropDocs fun d => p d || q d := by
  simp only [dropDocs, Table.delete_delete]

theorem purge_none (db : Tables β) : (db.purge fun _ => false) = db := by
  simp [purge, Table.delete_eq_self]

theorem dropDocs_none (db : Tables β) : (db.dropDocs fun _ => false) = db := by
  simp [dropDocs, Table.delete_eq_self]

/-- The loop over the documents of an account purges them all. -/
theorem foldl_purge (ds : List DocId) (db : Tables β) :
    (ds.foldl (fun db d => db.purge fun x => decide (x = d)) db) =
      db.purge fun x => decide (x ∈ ds) := by
  induction ds generalizing db with
  | nil => simpa using db.purge_none.symm
  | cons d ds ih =>
    rw [List.foldl_cons, ih, purge_purge]
    simp only [List.mem_cons, Bool.decide_or]

theorem foldl_dropDocs (ds : List DocId) (db : Tables β) :
    (ds.foldl (fun db d => db.dropDocs fun x => decide (x = d)) db) =
      db.dropDocs fun x => decide (x ∈ ds) := by
  induction ds generalizing db with
  | nil => simpa using db.dropDocs_none.symm
  | cons d ds ih =>
    rw [List.foldl_cons, ih, dropDocs_dropDocs]
    simp only [List.mem_cons, Bool.decide_or]

end Tables

theorem purgeRowsUnderDoc_does (docId : DocId) :
    Does (purgeRowsUnderDoc (β := β) docId) (.purge fun x => decide (x = docId)) := by
  intro d r h
  obtain ⟨_, _, h₁, h⟩ := bind_eq_some.1 h
  obtain ⟨_, _, h₂, h⟩ := bind_eq_some.1 h
  obtain ⟨_, _, h₃, h⟩ := bind_eq_some.1 h
  obtain ⟨_, _, h₄, h⟩ := bind_eq_some.1 h
  obtain ⟨_, _, h₅, h⟩ := bind_eq_some.1 h
  cases does_execute _ h₁
  cases does_execute _ h₂
  cases does_execute _ h₃
  cases does_execute _ h₄
  cases does_execute _ h₅
  exact does_execute _ h

theorem deleteDocRow_does (docId : DocId) :
    Does (deleteDocRow (β := β) docId) (.dropDocs fun x => decide (x = docId)) :=
  does_execute _

theorem purgeDocs_does (ds : List DocId) :
    Does (ds.forM (purgeRowsUnderDoc (β := β))) (.purge fun x => decide (x ∈ ds)) := by
  intro d r h
  rw [Does.forM purgeRowsUnderDoc_does ds h]
  exact congrArg (Prod.mk _) (Tables.foldl_purge ds d)

theorem deleteDocRows_does (ds : List DocId) :
    Does (ds.forM (deleteDocRow (β := β))) (.dropDocs fun x => decide (x ∈ ds)) := by
  intro d r h
  rw [Does.forM deleteDocRow_does ds h]
  exact congrArg (Prod.mk _) (Tables.foldl_dropDocs ds d)

/-- A commit of `deleteDoc`. -/
theorem deleteDoc_spec {out : DeleteDocOutcome}
    (h : deleteDoc a docId db = some (.commit out, db')) :
    out = .deleted ∧ db.Owner docId a ∧
      db' = (db.purge fun x => decide (x = docId)).dropDocs fun x => decide (x = docId) := by
  replace h := query_bind.1 h
  split at h
  next howner =>
    obtain ⟨_, _, h₂, h⟩ := bind_eq_some.1 h
    obtain ⟨_, _, h₃, h₄⟩ := bind_eq_some.1 h₂
    cases purgeRowsUnderDoc_does docId h₃
    cases deleteDocRow_does docId h₄
    cases pure_eq_some.1 h
    exact ⟨rfl, isActiveOwner_iff.1 howner, rfl⟩
  next => cases pure_eq_some.1 h

theorem deleteDoc_rollback {out : DeleteDocOutcome}
    (h : deleteDoc a docId db = some (.rollback out, db')) : out = .notOwner := by
  replace h := query_bind.1 h
  split at h
  next =>
    obtain ⟨_, _, -, h⟩ := bind_eq_some.1 h
    cases pure_eq_some.1 h
  next =>
    cases pure_eq_some.1 h
    rfl

/-! ## Deleting an account -/

/-- The documents that go with an account. -/
def ownedDocs (a : AccountId) (db : Tables β) : List DocId :=
  ((activeRoles a db).filter fun r => decide (r.2 = .owner)).map Prod.fst

/-- The documents the account merely belongs to. -/
def joinedDocs (a : AccountId) (db : Tables β) : List DocId :=
  ((activeRoles a db).filter fun r => decide (r.2 ≠ .owner)).map Prod.fst

theorem mem_ownedDocs : docId ∈ ownedDocs a db ↔ db.Owner docId a := by
  simp only [ownedDocs, activeRoles, Tables.Owner, Table.select, ownsActively_iff, List.mem_map,
    List.mem_filter, Bool.and_eq_true, decide_eq_true_eq]
  constructor
  · rintro ⟨p, ⟨⟨m, ⟨hm, hacc, hact⟩, rfl⟩, hrole⟩, rfl⟩
    exact ⟨m, hm, rfl, hacc, hrole, hact⟩
  · rintro ⟨m, hm, rfl, hacc, hrole, hact⟩
    exact ⟨_, ⟨⟨m, ⟨hm, hacc, hact⟩, rfl⟩, hrole⟩, rfl⟩

namespace Tables

/-- The database without the rows that refer to an account. -/
def clearAccount (a : AccountId) (db : Tables β) : Tables β :=
  deleteDevices (fun d => decide (d.accountId = a))
    { Tables.forgetConsumer a
        { db with
          members := db.members.delete fun m => decide (m.accountId = a)
          invites := db.invites.delete fun i => decide (i.issuedBy = a) } with
      sessions := db.sessions.delete fun s => decide (s.accountId = a) }

/-- The database without the account's own row. -/
def dropAccount (a : AccountId) (db : Tables β) : Tables β :=
  { db with accounts := db.accounts.delete fun r => decide (r.id = a) }

/-- The database without an account and the documents it owns. -/
def erase (a : AccountId) (db : Tables β) : Tables β :=
  (((db.purge fun x => decide (x ∈ ownedDocs a db)).clearAccount a).dropAccount a).dropDocs
    fun x => decide (x ∈ ownedDocs a db)

end Tables

theorem deleteRowsOfAccount_does (a : AccountId) :
    Does (deleteRowsOfAccount (β := β) a) (.clearAccount a) := by
  intro d r h
  obtain ⟨_, _, h₁, h⟩ := bind_eq_some.1 h
  obtain ⟨_, _, h₂, h⟩ := bind_eq_some.1 h
  obtain ⟨_, _, h₃, h⟩ := bind_eq_some.1 h
  obtain ⟨_, _, h₄, h⟩ := bind_eq_some.1 h
  cases does_execute _ h₁
  cases does_execute _ h₂
  cases does_execute _ h₃
  cases does_execute _ h₄
  exact does_execute _ h

theorem deleteAccountRow_does (a : AccountId) :
    Does (deleteAccountRow (β := β) a) (.dropAccount a) := does_execute _

/-- Where `deleteAccount` goes through, it erases the account and commits. -/
theorem deleteAccount_spec {r : Ending DeletedAccount × Tables β}
    (h : deleteAccount a db = some r) :
    r = (.commit ⟨ownedDocs a db, joinedDocs a db⟩, db.erase a) := by
  replace h := query_bind.1 h
  obtain ⟨_, _, h₂, h⟩ := bind_eq_some.1 h
  obtain ⟨_, _, h₃, h⟩ := bind_eq_some.1 h
  obtain ⟨_, _, h₄, h⟩ := bind_eq_some.1 h
  obtain ⟨_, _, h₅, h⟩ := bind_eq_some.1 h
  cases purgeDocs_does _ h₂
  cases deleteRowsOfAccount_does a h₃
  cases deleteAccountRow_does a h₄
  cases deleteDocRows_does _ h₅
  exact pure_eq_some.1 h

/-! ## Passwords -/

/-- The update names exactly the primary document, under one key. -/
theorem applyPasswordUpdate_spec {u : PasswordUpdate β} {out : PasswordUpdateOutcome}
    (h : applyPasswordUpdate a u db = some (out, db')) :
    ∃ account ∈ db.accounts.rows, account.id = a ∧
      (out = .updated ∧
          (∃ k, u.newDocKeys = [k] ∧ k.docId = account.primaryDocId ∧
            db' = (db.rekeyAccount a u.password).rewrapMember a k) ∨
        db' = db ∧ ∃ expected got, out = .docKeysMismatch expected got) := by
  replace h := query_bind.1 h
  generalize hfind : List.find? _ db.accounts.rows = row at h
  cases row with
  | none => cases h
  | some account =>
    obtain ⟨hmem, hid⟩ := find_eq_some hfind
    refine ⟨account, hmem, of_decide_eq_true hid, ?_⟩
    dsimp only at h
    split at h
    next hkeys =>
      obtain ⟨_, _, h₂, h⟩ := bind_eq_some.1 h
      obtain ⟨_, _, h₃, h⟩ := bind_eq_some.1 h
      cases does_execute _ h₂
      obtain ⟨k, hk, hdoc⟩ : ∃ k, u.newDocKeys = [k] ∧ k.docId = account.primaryDocId := by
        rw [List.map_eq_singleton_iff] at hkeys
        exact hkeys
      rw [hk] at h₃
      obtain ⟨_, _, h₄, h₅⟩ := bind_eq_some.1 h₃
      cases pure_eq_some.1 h₅
      obtain ⟨_, _, h₆, h₇⟩ := bind_eq_some.1 h₄
      obtain ⟨_, _, h₈, h₉⟩ := bind_eq_some.1 h₇
      cases query_eq_some.1 h₆
      cases does_execute _ h₈
      split at h₉
      next =>
        cases pure_eq_some.1 h₉
        cases pure_eq_some.1 h
        exact .inl ⟨rfl, k, hk, hdoc, rfl⟩
      next => cases h₉
    next =>
      cases pure_eq_some.1 h
      exact .inr ⟨rfl, _, _, rfl⟩

/-- A commit of `updatePassword`. -/
theorem updatePassword_spec {u : PasswordUpdate β} {out : PasswordUpdateOutcome}
    (h : updatePassword a u db = some (.commit out, db')) :
    out = .updated ∧ ∃ account ∈ db.accounts.rows, account.id = a ∧
      ∃ k, u.newDocKeys = [k] ∧ k.docId = account.primaryDocId ∧
        db' = (db.rekeyAccount a u.password).rewrapMember a k := by
  obtain ⟨_, _, h₁, h⟩ := bind_eq_some.1 h
  split at h
  next hout =>
    cases pure_eq_some.1 h
    obtain ⟨account, hmem, hid, ⟨-, hk⟩ | ⟨-, _, _, hne⟩⟩ := applyPasswordUpdate_spec h₁
    · exact ⟨hout, account, hmem, hid, hk⟩
    · exact absurd (hne.symm.trans hout) (by simp)
  next => cases pure_eq_some.1 h

theorem updatePassword_rollback {u : PasswordUpdate β} {out : PasswordUpdateOutcome}
    (h : updatePassword a u db = some (.rollback out, db')) : out ≠ .updated := by
  obtain ⟨_, _, h₁, h⟩ := bind_eq_some.1 h
  split at h
  next => cases pure_eq_some.1 h
  next hout =>
    cases pure_eq_some.1 h
    exact hout

section Sessions

variable [DecidableEq β] {tokenHash : β}

/-- A commit of `resetPasswordWithRecoverySession`. -/
theorem resetPassword_spec {u : PasswordUpdate β} {out : PasswordResetOutcome}
    (h : resetPasswordWithRecoverySession now tokenHash u db = some (.commit out, db')) :
    ∃ s ∈ db.sessions.rows, s.tokenHash = tokenHash ∧ s.consumedAt = none ∧ now ≤ s.expiresAt ∧
      out = .updated s.accountId ∧ ∃ account ∈ db.accounts.rows, account.id = s.accountId ∧
        ∃ k, u.newDocKeys = [k] ∧ k.docId = account.primaryDocId ∧
          db' = (((db.rekeyAccount s.accountId u.password).rewrapMember s.accountId k)
            ).consumeSession now tokenHash := by
  replace h := query_bind.1 h
  generalize hfind : List.find? _ db.sessions.rows = row at h
  cases row with
  | none => cases pure_eq_some.1 h
  | some s =>
    obtain ⟨hmem, htoken⟩ := find_eq_some hfind
    dsimp only at h
    split at h
    next => cases pure_eq_some.1 h
    next hvalid =>
      obtain ⟨hopen, hlive⟩ := not_or.1 hvalid
      obtain ⟨outcome, _, h₂, h⟩ := bind_eq_some.1 h
      obtain ⟨account, hacc, hid, hupd⟩ := applyPasswordUpdate_spec h₂
      cases outcome with
      | docKeysMismatch => cases pure_eq_some.1 h
      | updated =>
        obtain ⟨_, _, h₃, h⟩ := bind_eq_some.1 h
        cases does_execute _ h₃
        cases pure_eq_some.1 h
        obtain ⟨-, k, hk, hdoc, rfl⟩ | ⟨-, _, _, hne⟩ := hupd
        · exact ⟨s, hmem, of_decide_eq_true htoken, not_not.1 hopen, not_lt.1 hlive, rfl, account,
            hacc, hid, k, hk, hdoc, rfl⟩
        · cases hne

theorem resetPassword_rollback {u : PasswordUpdate β} {out : PasswordResetOutcome}
    (h : resetPasswordWithRecoverySession now tokenHash u db = some (.rollback out, db')) :
    ∀ b, out ≠ .updated b := by
  replace h := query_bind.1 h
  generalize List.find? _ db.sessions.rows = row at h
  cases row with
  | none =>
    cases pure_eq_some.1 h
    simp
  | some s =>
    dsimp only at h
    split at h
    next =>
      cases pure_eq_some.1 h
      simp
    next =>
      obtain ⟨outcome, _, -, h⟩ := bind_eq_some.1 h
      cases outcome with
      | docKeysMismatch =>
        cases pure_eq_some.1 h
        simp
      | updated =>
        obtain ⟨_, _, -, h⟩ := bind_eq_some.1 h
        cases pure_eq_some.1 h

theorem createRecoverySession_spec {ttlMillis : ℤ} {r : Ending Unit × Tables β}
    (h : createRecoverySession now a tokenHash ttlMillis db = some r) :
    (∀ s ∈ db.sessions.rows, s.tokenHash ≠ tokenHash) ∧
      ∃ t : Table (RecoverySession β) RecoverySession.Same,
        t.rows = db.sessions.rows ++ [⟨tokenHash, a, now + ttlMillis, none⟩] ∧
        r = (.commit (), { db with sessions := t }) := by
  obtain ⟨_, _, h₁, h⟩ := bind_eq_some.1 h
  obtain ⟨hnew, t, hrows, he⟩ := insertSession_spec h₁
  obtain ⟨rfl, rfl⟩ := Prod.mk.inj he
  exact ⟨hnew, t, hrows, pure_eq_some.1 h⟩

end Sessions

/-! ## Invites -/

section Invites

variable [DecidableEq β] {inviteId : β}

/-- A commit of `createInvite`. -/
theorem createInvite_spec {new : NewInvite β} {out : CreateInviteOutcome}
    (h : createInvite now a docId new db = some (.commit out, db')) :
    out = .created (now + new.ttlMillis) ∧ db.Owner docId a ∧
      (∀ i ∈ db.invites.rows, i.id ≠ new.id) ∧
      ∃ t : Table (InviteRow β) InviteRow.Same,
        t.rows = db.invites.rows ++
          [⟨new.id, docId, a, new.wrap, now, now + new.ttlMillis, none, none⟩] ∧
        db' = { db with invites := t } := by
  replace h := query_bind.1 h
  split at h
  next => cases pure_eq_some.1 h
  next howner =>
    replace h := query_bind.1 h
    split at h
    next => cases pure_eq_some.1 h
    next =>
      obtain ⟨_, _, h₃, h⟩ := bind_eq_some.1 h
      obtain ⟨hnew, t, hrows, he⟩ := insertInvite_spec h₃
      obtain ⟨rfl, rfl⟩ := Prod.mk.inj he
      cases pure_eq_some.1 h
      exact ⟨rfl, isActiveOwner_iff.1 (by simpa using howner), hnew, t, hrows, rfl⟩

theorem createInvite_rollback {new : NewInvite β} {out : CreateInviteOutcome}
    (h : createInvite now a docId new db = some (.rollback out, db')) :
    ∀ t, out ≠ .created t := by
  replace h := query_bind.1 h
  split at h
  next =>
    cases pure_eq_some.1 h
    simp
  next =>
    obtain ⟨_, _, -, h⟩ := bind_eq_some.1 h
    split at h
    next =>
      cases pure_eq_some.1 h
      simp
    next =>
      obtain ⟨_, _, -, h⟩ := bind_eq_some.1 h
      cases pure_eq_some.1 h

/-- A commit of `revokeInvite`. -/
theorem revokeInvite_spec {out : Bool}
    (h : revokeInvite a docId inviteId db = some (.commit out, db')) :
    (out = true ↔ ∃ i ∈ db.invites.rows, i.id = inviteId ∧ i.docId = docId) ∧
      db.Owner docId a ∧
      db' = { db with
        invites := db.invites.delete fun i => i.id = inviteId && i.docId = docId } := by
  replace h := query_bind.1 h
  split at h
  next => cases pure_eq_some.1 h
  next howner =>
    replace h := query_bind.1 h
    obtain ⟨_, _, h₃, h⟩ := bind_eq_some.1 h
    cases does_execute _ h₃
    cases pure_eq_some.1 h
    refine ⟨?_, isActiveOwner_iff.1 (by simpa using howner), rfl⟩
    simp [Table.select, List.length_pos_iff]

theorem revokeInvite_rollback {out : Bool}
    (h : revokeInvite a docId inviteId db = some (.rollback out, db')) : out = false := by
  replace h := query_bind.1 h
  split at h
  next =>
    cases pure_eq_some.1 h
    rfl
  next =>
    obtain ⟨_, _, -, h⟩ := bind_eq_some.1 h
    obtain ⟨_, _, -, h⟩ := bind_eq_some.1 h
    cases pure_eq_some.1 h

/-- The rows of a document's members after an account joined it. -/
inductive Joined (now : ℤ) (docId : DocId) (a : AccountId) (wrap : Wrap β)
    (rows : List (MemberRow β)) : List (MemberRow β) → Prop
  | first (h : ∀ m ∈ rows, ¬(m.docId = docId ∧ m.accountId = a)) :
    Joined now docId a wrap rows (rows ++ [⟨docId, a, .member, wrap, none, now, none⟩])
  | again (m : MemberRow β) (hm : m ∈ rows) (hdoc : m.docId = docId) (hacc : m.accountId = a)
    (hremoved : m.removedAt ≠ none) :
    Joined now docId a wrap rows (rows.map (.reactivate now docId a wrap))

/-- A commit of `acceptInvite`. -/
theorem acceptInvite_spec {wrap : Wrap β} {out : AcceptInviteOutcome}
    (h : acceptInvite now a inviteId wrap db = some (.commit out, db')) :
    ∃ i ∈ db.invites.rows, i.id = inviteId ∧ i.consumedAt = none ∧ now ≤ i.expiresAt ∧
      out = .joined i.docId ∧ Joined now i.docId a wrap db.members.rows db'.members.rows ∧
      db'.invites = (db.consumeInvite now inviteId a).invites ∧ db'.docs = db.docs ∧
      db'.accounts = db.accounts ∧ db'.sessions = db.sessions := by
  replace h := query_bind.1 h
  generalize hfind : List.find? _ db.invites.rows = row at h
  cases row with
  | none => cases pure_eq_some.1 h
  | some i =>
    obtain ⟨hmem, hid⟩ := find_eq_some hfind
    dsimp only at h
    split at h
    next => cases pure_eq_some.1 h
    next hopen =>
      split at h
      next => cases pure_eq_some.1 h
      next hlive =>
        replace h := query_bind.1 h
        split at h
        next => cases pure_eq_some.1 h
        next hfree =>
          obtain ⟨_, _, h₃, h⟩ := bind_eq_some.1 h
          obtain ⟨_, _, h₄, h⟩ := bind_eq_some.1 h
          cases does_execute _ h₄
          cases pure_eq_some.1 h
          refine ⟨i, hmem, of_decide_eq_true hid, not_not.1 hopen, not_lt.1 hlive, rfl, ?_⟩
          unfold joinDoc at h₃
          cases hrow : db.members.rows.find? fun m =>
              decide (m.docId = i.docId) && decide (m.accountId = a) with
          | none =>
            rw [hrow] at h₃
            obtain ⟨hnew, t, hrows, he⟩ := insertMember_spec h₃
            obtain ⟨-, rfl⟩ := Prod.mk.inj he
            refine ⟨?_, rfl, rfl, rfl, rfl⟩
            change Joined now i.docId a wrap db.members.rows t.rows
            rw [hrows]
            exact .first hnew
          | some m =>
            obtain ⟨hm, hkey⟩ := find_eq_some hrow
            rw [hrow] at h₃ hfree
            cases does_execute _ h₃
            rw [Bool.and_eq_true, decide_eq_true_eq, decide_eq_true_eq] at hkey
            refine ⟨?_, rfl, rfl, rfl, rfl⟩
            exact .again m hm hkey.1 hkey.2 (by simpa using hfree)

theorem acceptInvite_rollback {wrap : Wrap β} {out : AcceptInviteOutcome}
    (h : acceptInvite now a inviteId wrap db = some (.rollback out, db')) :
    ∀ d, out ≠ .joined d := by
  replace h := query_bind.1 h
  generalize List.find? _ db.invites.rows = row at h
  cases row with
  | none =>
    cases pure_eq_some.1 h
    simp
  | some i =>
    dsimp only at h
    split at h
    next =>
      cases pure_eq_some.1 h
      simp
    next =>
      split at h
      next =>
        cases pure_eq_some.1 h
        simp
      next =>
        obtain ⟨_, _, -, h⟩ := bind_eq_some.1 h
        split at h
        next =>
          cases pure_eq_some.1 h
          simp
        next =>
          obtain ⟨_, _, -, h⟩ := bind_eq_some.1 h
          obtain ⟨_, _, -, h⟩ := bind_eq_some.1 h
          cases pure_eq_some.1 h

end Invites

/-! ## Removing a member -/

theorem activeRole_eq_some {role : MemberRole} (h : activeRole docId a db = some role) :
    ∃ m ∈ db.members.rows, m.docId = docId ∧ m.accountId = a ∧ m.role = role ∧
      m.removedAt = none := by
  obtain ⟨m, hfind, rfl⟩ := Option.map_eq_some_iff.1 h
  obtain ⟨hm, hact⟩ := find_eq_some hfind
  obtain ⟨hdoc, hacc, hremoved⟩ := isActive_iff.1 hact
  exact ⟨m, hm, hdoc, hacc, rfl, hremoved⟩

/-- A commit of `removeMember`. -/
theorem removeMember_spec {target : AccountId} {out : RemoveMemberOutcome}
    (h : removeMember now a docId target db = some (.commit out, db')) :
    out = .removed ∧ db.Owner docId a ∧ a ≠ target ∧ db.Member docId target ∧
      (db.Owner docId target → 2 ≤ activeOwners docId db) ∧
      db' = db.stampRemoved now docId target := by
  replace h := query_bind.1 h
  generalize hcaller : activeRole docId a db = role at h
  rcases role with _ | _ | _
  · cases pure_eq_some.1 h
  · obtain ⟨c, hc, hcdoc, hcacc, hcrole, hcact⟩ := activeRole_eq_some hcaller
    dsimp only at h
    split at h
    next => cases pure_eq_some.1 h
    next hne =>
      replace h := query_bind.1 h
      replace h := query_bind.1 h
      generalize htarget : activeRole docId target db = role at h
      cases role with
      | none => cases pure_eq_some.1 h
      | some role =>
        obtain ⟨m, hm, hdoc, hacc, hrole, hact⟩ := activeRole_eq_some htarget
        dsimp only at h
        split at h
        next => cases pure_eq_some.1 h
        next hlast =>
          obtain ⟨_, _, h₄, h⟩ := bind_eq_some.1 h
          cases does_execute _ h₄
          cases pure_eq_some.1 h
          refine ⟨rfl, ⟨c, hc, ownsActively_iff.2 ⟨hcdoc, hcacc, hcrole, hcact⟩⟩, hne,
            ⟨m, hm, isActive_iff.2 ⟨hdoc, hacc, hact⟩⟩, ?_, rfl⟩
          rintro ⟨o, ho, hown⟩
          obtain ⟨hodoc, hoacc, horole, -⟩ := ownsActively_iff.1 hown
          -- the key is unique: the target's active row is the owner's
          have hsame : o = m := Table.eq_of_conflict (fun _ _ hc => ⟨hc.1.symm, hc.2.symm⟩) ho hm
            ⟨hodoc.trans hdoc.symm, hoacc.trans hacc.symm⟩
          rw [hsame, hrole] at horole
          by_contra hfew
          exact hlast ⟨horole, by omega⟩
  · cases pure_eq_some.1 h

theorem removeMember_rollback {target : AccountId} {out : RemoveMemberOutcome}
    (h : removeMember now a docId target db = some (.rollback out, db')) : out ≠ .removed := by
  replace h := query_bind.1 h
  generalize activeRole docId a db = role at h
  rcases role with _ | _ | _
  · cases pure_eq_some.1 h
    simp
  · dsimp only at h
    split at h
    next =>
      cases pure_eq_some.1 h
      simp
    next =>
      obtain ⟨role, _, -, h⟩ := bind_eq_some.1 h
      obtain ⟨_, _, -, h⟩ := bind_eq_some.1 h
      cases role with
      | none =>
        cases pure_eq_some.1 h
        simp
      | some role =>
        dsimp only at h
        split at h
        next =>
          cases pure_eq_some.1 h
          simp
        next =>
          obtain ⟨_, _, -, h⟩ := bind_eq_some.1 h
          cases pure_eq_some.1 h
  · cases pure_eq_some.1 h
    simp

/-! ## Devices and histories -/

/-- The transaction touched neither documents and accounts nor who may see what. -/
structure Tables.SameAccess (db db' : Tables β) : Prop where
  docs : db'.docs = db.docs
  accounts : db'.accounts = db.accounts
  members : db'.members = db.members
  invites : db'.invites = db.invites
  sessions : db'.sessions = db.sessions

theorem Tables.SameAccess.refl (db : Tables β) : db.SameAccess db := ⟨rfl, rfl, rfl, rfl, rfl⟩

theorem createDevice_spec {deviceId : DeviceId} {name kind : String} {tokenHash : β}
    {r : Ending DeviceId × Tables β}
    (h : createDevice now deviceId a name kind tokenHash db = some r) : db.SameAccess r.2 := by
  obtain ⟨_, _, h₁, h⟩ := bind_eq_some.1 h
  obtain ⟨t, he⟩ := insertDevice_spec h₁
  cases he
  cases pure_eq_some.1 h
  exact ⟨rfl, rfl, rfl, rfl, rfl⟩

theorem revokeDevice_spec {deviceId : DeviceId} {r : Ending Bool × Tables β}
    (h : revokeDevice a deviceId db = some r) : db.SameAccess r.2 := by
  replace h := query_bind.1 h
  obtain ⟨_, _, h₁, h⟩ := bind_eq_some.1 h
  cases does_execute _ h₁
  cases pure_eq_some.1 h
  exact ⟨rfl, rfl, rfl, rfl, rfl⟩

theorem pushUpdate_spec {row : HistoryRow β} {r : Ending Unit × Tables β}
    (h : pushUpdate row db = some r) : db.SameAccess r.2 := by
  obtain ⟨_, _, h₁, h⟩ := bind_eq_some.1 h
  obtain ⟨_, _, h₂, h⟩ := bind_eq_some.1 h
  cases does_execute _ h₁
  cases does_execute _ h₂
  cases pure_eq_some.1 h
  exact ⟨rfl, rfl, rfl, rfl, rfl⟩

theorem pushSnapshot_spec {row : HistoryRow β} {r : Ending Unit × Tables β}
    (h : pushSnapshot row db = some r) : db.SameAccess r.2 := by
  obtain ⟨_, _, h₁, h⟩ := bind_eq_some.1 h
  cases does_execute _ h₁
  cases pure_eq_some.1 h
  exact ⟨rfl, rfl, rfl, rfl, rfl⟩

theorem compactDoc_spec {gone : β → Bool} {r : Ending Unit × Tables β}
    (h : compactDoc docId gone db = some r) : db.SameAccess r.2 := by
  obtain ⟨_, _, h₁, h⟩ := bind_eq_some.1 h
  cases does_execute _ h₁
  cases pure_eq_some.1 h
  exact ⟨rfl, rfl, rfl, rfl, rfl⟩

theorem recordAck_spec {deviceId : DeviceId} {seq : ℕ} {r : Ending Unit × Tables β}
    (h : recordAck deviceId docId seq db = some r) : db.SameAccess r.2 := by
  replace h := query_bind.1 h
  obtain ⟨_, _, h₁, h⟩ := bind_eq_some.1 h
  unfold upsertFrontier at h₁
  split at h₁
  next =>
    cases does_execute _ h₁
    cases pure_eq_some.1 h
    exact ⟨rfl, rfl, rfl, rfl, rfl⟩
  next =>
    obtain ⟨t, -, -, he⟩ := insertRow_eq_some.1 h₁
    cases he
    cases pure_eq_some.1 h
    exact ⟨rfl, rfl, rfl, rfl, rfl⟩

/-! ## The foreign keys hold after every transaction -/

section Keeps

/-- The transaction leaves no reference dangling. -/
abbrev Whole {α : Type} (x : Tx β α) : Prop := Keeps Tables.ForeignKeys x

theorem keeps_write (f : Tables β → Tables β) : Whole (write f) := keeps_execute f

theorem keeps_createAccount {deviceId minted : ℕ} {new : NewAccount β} :
    Whole (createAccount now a deviceId minted new) :=
  keeps_bind (keeps_insertRow _ _ _) fun _ => keeps_bind (keeps_insertRow _ _ _) fun _ =>
    keeps_bind (keeps_insertRow _ _ _) fun _ => keeps_bind (keeps_insertRow _ _ _) fun _ =>
      keeps_pure _

theorem keeps_createDoc {new : Wrap β} : Whole (createDoc now a docId new) :=
  keeps_bind (keeps_insertRow _ _ _) fun _ => keeps_bind (keeps_insertRow _ _ _) fun _ =>
    keeps_pure _

theorem keeps_purgeRowsUnderDoc (docId : DocId) : Whole (purgeRowsUnderDoc (β := β) docId) :=
  keeps_bind (keeps_write _) fun _ => keeps_bind (keeps_write _) fun _ =>
    keeps_bind (keeps_write _) fun _ => keeps_bind (keeps_write _) fun _ =>
      keeps_bind (keeps_write _) fun _ => keeps_write _

theorem keeps_deleteDoc : Whole (deleteDoc (β := β) a docId) := by
  refine keeps_bind (keeps_query _) fun owner => ?_
  cases owner
  · exact keeps_pure _
  · exact keeps_bind (keeps_bind (keeps_purgeRowsUnderDoc _) fun _ => keeps_write _) fun _ =>
      keeps_pure _

theorem keeps_deleteAccount : Whole (deleteAccount (β := β) a) :=
  keeps_bind (keeps_query _) fun _ =>
    keeps_bind (keeps_forM keeps_purgeRowsUnderDoc _) fun _ =>
      keeps_bind (keeps_bind (keeps_write _) fun _ => keeps_bind (keeps_write _) fun _ =>
        keeps_bind (keeps_write _) fun _ => keeps_bind (keeps_write _) fun _ => keeps_write _)
        fun _ => keeps_bind (keeps_write _) fun _ =>
          keeps_bind (keeps_forM (fun _ => keeps_write _) _) fun _ => keeps_pure _

theorem keeps_applyPasswordUpdate {u : PasswordUpdate β} : Whole (applyPasswordUpdate a u) := by
  refine keeps_bind (keeps_query _) fun account => ?_
  cases account with
  | none => exact keeps_raise
  | some account =>
    dsimp only
    split
    · refine keeps_bind (keeps_write _) fun _ => keeps_bind (keeps_forM (fun k => ?_) _) fun _ =>
        keeps_pure _
      refine keeps_bind (keeps_query _) fun n => keeps_bind (keeps_write _) fun _ => ?_
      split
      · exact keeps_pure _
      · exact keeps_raise
    · exact keeps_pure _

theorem keeps_updatePassword {u : PasswordUpdate β} : Whole (updatePassword a u) := by
  refine keeps_bind keeps_applyPasswordUpdate fun out => ?_
  split <;> exact keeps_pure _

theorem keeps_createDevice {deviceId : DeviceId} {name kind : String} {tokenHash : β} :
    Whole (createDevice now deviceId a name kind tokenHash) :=
  keeps_bind (keeps_insertRow _ _ _) fun _ => keeps_pure _

theorem keeps_revokeDevice {deviceId : DeviceId} : Whole (revokeDevice (β := β) a deviceId) :=
  keeps_bind (keeps_query _) fun _ => keeps_bind (keeps_write _) fun _ => keeps_pure _

theorem keeps_removeMember {target : AccountId} :
    Whole (removeMember (β := β) now a docId target) := by
  refine keeps_bind (keeps_query _) fun role => ?_
  rcases role with _ | _ | _
  · exact keeps_pure _
  · dsimp only
    split
    · exact keeps_pure _
    · refine keeps_bind (keeps_query _) fun role => keeps_bind (keeps_query _) fun owners => ?_
      cases role with
      | none => exact keeps_pure _
      | some role =>
        dsimp only
        split
        · exact keeps_pure _
        · exact keeps_bind (keeps_write _) fun _ => keeps_pure _
  · exact keeps_pure _

theorem keeps_pushUpdate {row : HistoryRow β} : Whole (pushUpdate row) :=
  keeps_bind (keeps_write _) fun _ => keeps_bind (keeps_write _) fun _ => keeps_pure _

theorem keeps_pushSnapshot {row : HistoryRow β} : Whole (pushSnapshot row) :=
  keeps_bind (keeps_write _) fun _ => keeps_pure _

theorem keeps_compactDoc {gone : β → Bool} : Whole (compactDoc docId gone) :=
  keeps_bind (keeps_write _) fun _ => keeps_pure _

theorem keeps_recordAck {deviceId : DeviceId} {seq : ℕ} :
    Whole (recordAck (β := β) deviceId docId seq) := by
  refine keeps_bind (keeps_query _) fun there => keeps_bind ?_ fun _ => keeps_pure _
  unfold upsertFrontier
  split
  · exact keeps_write _
  · exact keeps_insertRow _ _ _

variable [DecidableEq β]

theorem keeps_resetPassword {tokenHash : β} {u : PasswordUpdate β} :
    Whole (resetPasswordWithRecoverySession now tokenHash u) := by
  refine keeps_bind (keeps_query _) fun row => ?_
  cases row with
  | none => exact keeps_pure _
  | some s =>
    dsimp only
    split
    · exact keeps_pure _
    · refine keeps_bind keeps_applyPasswordUpdate fun out => ?_
      cases out with
      | docKeysMismatch => exact keeps_pure _
      | updated => exact keeps_bind (keeps_write _) fun _ => keeps_pure _

theorem keeps_createRecoverySession {tokenHash : β} {ttlMillis : ℤ} :
    Whole (createRecoverySession now a tokenHash ttlMillis) :=
  keeps_bind (keeps_insertRow _ _ _) fun _ => keeps_pure _

theorem keeps_createInvite {new : NewInvite β} : Whole (createInvite now a docId new) := by
  refine keeps_bind (keeps_query _) fun owner => ?_
  split
  · exact keeps_pure _
  · refine keeps_bind (keeps_query _) fun taken => ?_
    split
    · exact keeps_pure _
    · exact keeps_bind (keeps_insertRow _ _ _) fun _ => keeps_pure _

theorem keeps_revokeInvite {inviteId : β} : Whole (revokeInvite a docId inviteId) := by
  refine keeps_bind (keeps_query _) fun owner => ?_
  split
  · exact keeps_pure _
  · exact keeps_bind (keeps_query _) fun _ => keeps_bind (keeps_write _) fun _ => keeps_pure _

theorem keeps_acceptInvite {inviteId : β} {wrap : Wrap β} :
    Whole (acceptInvite now a inviteId wrap) := by
  refine keeps_bind (keeps_query _) fun row => ?_
  cases row with
  | none => exact keeps_pure _
  | some i =>
    dsimp only
    split
    · exact keeps_pure _
    · split
      · exact keeps_pure _
      · refine keeps_bind (keeps_query _) fun existing => ?_
        split
        · exact keeps_pure _
        · refine keeps_bind ?_ fun _ => keeps_bind (keeps_write _) fun _ => keeps_pure _
          unfold joinDoc
          split
          · exact keeps_write _
          · exact keeps_insertRow _ _ _

end Keeps

end Monoplan.Accounts
