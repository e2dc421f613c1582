import Monoplan.Accounts.Ownership

/-!
# Erasing an account or a document

The foreign keys make the database refuse to delete what something still refers to, and a
refusal takes the whole transaction back.  What is shown here is that this never happens to a
deletion: the rows that could refer to what goes are the ones deleted before it, and the rows of
other accounts never refer to it (`Sharing`).

* `Trims`: statements after which the foreign keys hold because rows only went.
* `deleteAccount_commits`, `deleteDoc_commits`: the deletions go through.
* `account_erased`, `doc_erased`: exactly which rows are left.
-/

namespace Monoplan.Accounts

open Monoplan.Base Monoplan.Protocol

variable {β : Type} {db db' : Tables β} {a : AccountId} {docId : DocId}

/-! ## Statements that only take rows away -/

/-- What is referred to stays; what refers to it comes from rows that did. -/
structure Trims (db db' : Tables β) : Prop where
  docs : db'.docs = db.docs := by rfl
  accounts : db'.accounts = db.accounts := by rfl
  devices : db'.devices = db.devices := by rfl
  members : ∀ m ∈ db'.members.rows, m ∈ db.members.rows := by exact fun _ h => h
  invites : ∀ i ∈ db'.invites.rows, ∃ j ∈ db.invites.rows, j.docId = i.docId ∧
    j.issuedBy = i.issuedBy ∧ ∀ b ∈ i.consumedBy, b ∈ j.consumedBy := by
      exact fun i hi => ⟨i, hi, rfl, rfl, fun _ h => h⟩
  sessions : ∀ s ∈ db'.sessions.rows, s ∈ db.sessions.rows := by exact fun _ h => h
  frontiers : ∀ f ∈ db'.frontiers.rows, f ∈ db.frontiers.rows := by exact fun _ h => h
  sequences : ∀ d ∈ db'.sequences, d ∈ db.sequences := by exact fun _ h => h
  updates : ∀ u ∈ db'.updates, u ∈ db.updates := by exact fun _ h => h
  snapshots : ∀ s ∈ db'.snapshots, s ∈ db.snapshots := by exact fun _ h => h

theorem Trims.foreignKeys (ht : Trims db db') (h : db.ForeignKeys) : db'.ForeignKeys := by
  have hdoc : ∀ d, db.HasDoc d → db'.HasDoc d := by
    intro d hd
    rw [Tables.HasDoc, ht.docs]
    exact hd
  have haccount : ∀ b, db.HasAccount b → db'.HasAccount b := by
    intro b hb
    rw [Tables.HasAccount, ht.accounts]
    exact hb
  have hdevice : ∀ d, db.HasDevice d → db'.HasDevice d := by
    intro d hd
    rw [Tables.HasDevice, ht.devices]
    exact hd
  exact
    { primary := fun x hx => hdoc _ (h.primary x (ht.accounts ▸ hx))
      member := fun m hm =>
        ⟨hdoc _ (h.member m (ht.members m hm)).1, haccount _ (h.member m (ht.members m hm)).2⟩
      invite := fun i hi => by
        obtain ⟨j, hj, hjdoc, hjby, hjcon⟩ := ht.invites i hi
        obtain ⟨h₁, h₂, h₃⟩ := h.invite j hj
        exact ⟨hdoc _ (hjdoc ▸ h₁), haccount _ (hjby ▸ h₂), fun b hb =>
          haccount _ (h₃ b (hjcon b hb))⟩
      session := fun s hs => haccount _ (h.session s (ht.sessions s hs))
      device := fun d hd => haccount _ (h.device d (ht.devices ▸ hd))
      frontier := fun f hf =>
        ⟨hdevice _ (h.frontier f (ht.frontiers f hf)).1,
          hdoc _ (h.frontier f (ht.frontiers f hf)).2⟩
      sequence := fun d hd => hdoc _ (h.sequence d (ht.sequences d hd))
      update := fun u hu => hdoc _ (h.update u (ht.updates u hu))
      snapshot := fun s hs => hdoc _ (h.snapshot s (ht.snapshots s hs)) }

theorem passes_write {f : Tables β → Tables β} (hf : ∀ db, Trims db (f db)) :
    Passes Tables.ForeignKeys (write f) :=
  passes_execute fun db h => ⟨(hf db).foreignKeys h, (hf db).foreignKeys h⟩

theorem of_mem_delete {ρ : Type} {conflict : ρ → ρ → Prop} {t : Table ρ conflict} {r : ρ}
    {p : ρ → Bool} (h : r ∈ (t.delete p).rows) : r ∈ t.rows := (Table.mem_delete.1 h).1

theorem passes_purgeRowsUnderDoc (docId : DocId) :
    Passes Tables.ForeignKeys (purgeRowsUnderDoc (β := β) docId) :=
  passes_bind (passes_write fun _ => { updates := fun _ => List.mem_of_mem_filter }) fun _ =>
    passes_bind (passes_write fun _ => { snapshots := fun _ => List.mem_of_mem_filter }) fun _ =>
      passes_bind (passes_write fun _ => { frontiers := fun _ => of_mem_delete }) fun _ =>
        passes_bind (passes_write fun _ => { sequences := fun _ => List.mem_of_mem_filter })
          fun _ => passes_bind (passes_write fun _ => { invites := fun i hi =>
            ⟨i, of_mem_delete hi, rfl, rfl, fun _ h => h⟩ }) fun _ =>
              passes_write fun _ => { members := fun _ => of_mem_delete }

/-- A device goes with its frontiers. -/
theorem foreignKeys_deleteDevices (gone : DeviceRow β → Bool) (h : db.ForeignKeys) :
    (deleteDevices gone db).ForeignKeys where
  primary := h.primary
  member := h.member
  invite := h.invite
  session := h.session
  device d hd := h.device d (of_mem_delete hd)
  frontier f hf := by
    obtain ⟨hmem, hstays⟩ := Table.mem_delete.1 hf
    obtain ⟨⟨d, hd, hid⟩, hdoc⟩ := h.frontier f hmem
    refine ⟨⟨d, Table.mem_delete.2 ⟨hd, ?_⟩, hid⟩, hdoc⟩
    by_contra hgone
    rw [List.any_eq_false] at hstays
    exact hstays d hd (by simp [hid, Bool.of_not_eq_false hgone])
  sequence := h.sequence
  update := h.update
  snapshot := h.snapshot

theorem passes_deleteRowsOfAccount (a : AccountId) :
    Passes Tables.ForeignKeys (deleteRowsOfAccount (β := β) a) := by
  refine passes_bind (passes_write fun _ => { members := fun _ => of_mem_delete }) fun _ => ?_
  refine passes_bind (passes_write fun _ => { invites := fun i hi =>
    ⟨i, of_mem_delete hi, rfl, rfl, fun _ h => h⟩ }) fun _ => ?_
  refine passes_bind (passes_write fun _ => { invites := fun i hi => ?_ }) fun _ => ?_
  · obtain ⟨j, hj, rfl⟩ := List.mem_map.1 hi
    refine ⟨j, hj, ?_⟩
    unfold InviteRow.forget
    split
    · exact ⟨rfl, rfl, nofun⟩
    · exact ⟨rfl, rfl, fun _ h => h⟩
  refine passes_bind (passes_write fun _ => { sessions := fun _ => of_mem_delete }) fun _ => ?_
  exact passes_execute fun db h =>
    ⟨foreignKeys_deleteDevices _ h, foreignKeys_deleteDevices _ h⟩

/-! ## Deleting what nothing refers to -/

/-- No row refers to the document. -/
structure Tables.Unnamed (db : Tables β) (docId : DocId) : Prop where
  accounts : ∀ x ∈ db.accounts.rows, x.primaryDocId ≠ docId
  members : ∀ m ∈ db.members.rows, m.docId ≠ docId
  invites : ∀ i ∈ db.invites.rows, i.docId ≠ docId
  frontiers : ∀ f ∈ db.frontiers.rows, f.docId ≠ docId
  sequences : ∀ d ∈ db.sequences, d ≠ docId
  updates : ∀ u ∈ db.updates, u.docId ≠ docId
  snapshots : ∀ s ∈ db.snapshots, s.docId ≠ docId

theorem foreignKeys_dropDocs (gone : DocId → Bool) (h : db.ForeignKeys)
    (hfree : ∀ d, gone d = true → db.Unnamed d) : (db.dropDocs gone).ForeignKeys := by
  have hdoc : ∀ d, gone d = false → db.HasDoc d → (db.dropDocs gone).HasDoc d := by
    rintro d hd ⟨r, hr, rfl⟩
    exact ⟨r, Table.mem_delete.2 ⟨hr, hd⟩, rfl⟩
  exact
    { primary := fun x hx => hdoc _ (Bool.of_not_eq_true fun hg => (hfree _ hg).accounts x hx rfl)
        (h.primary x hx)
      member := fun m hm =>
        ⟨hdoc _ (Bool.of_not_eq_true fun hg => (hfree _ hg).members m hm rfl) (h.member m hm).1,
          (h.member m hm).2⟩
      invite := fun i hi =>
        ⟨hdoc _ (Bool.of_not_eq_true fun hg => (hfree _ hg).invites i hi rfl) (h.invite i hi).1,
          (h.invite i hi).2⟩
      session := h.session
      device := h.device
      frontier := fun f hf => ⟨(h.frontier f hf).1,
        hdoc _ (Bool.of_not_eq_true fun hg => (hfree _ hg).frontiers f hf rfl) (h.frontier f hf).2⟩
      sequence := fun d hd =>
        hdoc _ (Bool.of_not_eq_true fun hg => (hfree _ hg).sequences d hd rfl) (h.sequence d hd)
      update := fun u hu =>
        hdoc _ (Bool.of_not_eq_true fun hg => (hfree _ hg).updates u hu rfl) (h.update u hu)
      snapshot := fun s hs =>
        hdoc _ (Bool.of_not_eq_true fun hg => (hfree _ hg).snapshots s hs rfl) (h.snapshot s hs) }

/-- The rows under documents are gone once they were purged. -/
theorem unnamed_purge {gone : DocId → Bool} (hg : gone docId = true)
    (hhome : ∀ x ∈ db.accounts.rows, x.primaryDocId ≠ docId) :
    (db.purge gone).Unnamed docId where
  accounts := hhome
  members m hm := by
    rintro rfl
    simpa [hg] using (Table.mem_delete.1 hm).2
  invites i hi := by
    rintro rfl
    simpa [hg] using (Table.mem_delete.1 hi).2
  frontiers f hf := by
    rintro rfl
    simpa [hg] using (Table.mem_delete.1 hf).2
  sequences d hd := by
    rintro rfl
    simpa [hg] using (List.mem_filter.1 hd).2
  updates u hu := by
    rintro rfl
    simpa [hg] using (List.mem_filter.1 hu).2
  snapshots s hs := by
    rintro rfl
    simpa [hg] using (List.mem_filter.1 hs).2

/-- With the rows gone that refer to it, the account's own row may go. -/
theorem foreignKeys_dropAccount (h : (db.clearAccount a).ForeignKeys) :
    ((db.clearAccount a).dropAccount a).ForeignKeys := by
  have hacc : ∀ b, b ≠ a → (db.clearAccount a).HasAccount b →
      ((db.clearAccount a).dropAccount a).HasAccount b := by
    rintro b hb ⟨x, hx, rfl⟩
    exact ⟨x, Table.mem_delete.2 ⟨hx, by simpa using hb⟩, rfl⟩
  exact
    { primary := fun x hx => h.primary x (of_mem_delete hx)
      member := fun m hm =>
        ⟨(h.member m hm).1, hacc _ (by simpa using (Table.mem_delete.1 hm).2) (h.member m hm).2⟩
      invite := fun i hi => by
        obtain ⟨h₁, h₂, h₃⟩ := h.invite i hi
        obtain ⟨j, hj, rfl⟩ := List.mem_map.1 hi
        have hby : (j.forget a).issuedBy ≠ a := by
          unfold InviteRow.forget
          split <;> simpa using (Table.mem_delete.1 hj).2
        refine ⟨h₁, hacc _ hby h₂, fun b hb => hacc b ?_ (h₃ b hb)⟩
        rintro rfl
        unfold InviteRow.forget at hb
        split at hb
        next => cases hb
        next hne => exact hne hb
      session := fun s hs => hacc _ (by simpa using (Table.mem_delete.1 hs).2) (h.session s hs)
      device := fun d hd => hacc _ (by simpa using (Table.mem_delete.1 hd).2) (h.device d hd)
      frontier := h.frontier
      sequence := h.sequence
      update := h.update
      snapshot := h.snapshot }

/-! ## What is left -/

/-- Forgetting by whom an invite was consumed leaves the rest. -/
theorem InviteRow.forget_cases (i : InviteRow β) :
    (i.forget a).id = i.id ∧ (i.forget a).docId = i.docId ∧
      (i.forget a).expiresAt = i.expiresAt ∧ (i.forget a).consumedAt = i.consumedAt := by
  unfold forget
  split <;> exact ⟨rfl, rfl, rfl, rfl⟩

/-- The rows after an account was deleted: those that referred neither to it nor to a document
it owned.  An invite that it consumed forgets by whom. -/
structure Erased (a : AccountId) (db db' : Tables β) : Prop where
  docs : ∀ d, d ∈ db'.docs.rows ↔ d ∈ db.docs.rows ∧ ¬db.Owner d.id a
  accounts : ∀ x, x ∈ db'.accounts.rows ↔ x ∈ db.accounts.rows ∧ x.id ≠ a
  members : ∀ m, m ∈ db'.members.rows ↔
    m ∈ db.members.rows ∧ ¬db.Owner m.docId a ∧ m.accountId ≠ a
  invites : ∀ i, i ∈ db'.invites.rows ↔
    ∃ j ∈ db.invites.rows, ¬db.Owner j.docId a ∧ j.issuedBy ≠ a ∧ j.forget a = i
  sessions : ∀ s, s ∈ db'.sessions.rows ↔ s ∈ db.sessions.rows ∧ s.accountId ≠ a
  devices : ∀ d, d ∈ db'.devices.rows ↔ d ∈ db.devices.rows ∧ d.accountId ≠ a
  frontiers : ∀ f, f ∈ db'.frontiers.rows ↔ f ∈ db.frontiers.rows ∧ ¬db.Owner f.docId a ∧
    ∀ d ∈ db.devices.rows, d.accountId = a → d.id ≠ f.deviceId
  sequences : ∀ d, d ∈ db'.sequences ↔ d ∈ db.sequences ∧ ¬db.Owner d a
  updates : ∀ u, u ∈ db'.updates ↔ u ∈ db.updates ∧ ¬db.Owner u.docId a
  snapshots : ∀ s, s ∈ db'.snapshots ↔ s ∈ db.snapshots ∧ ¬db.Owner s.docId a

theorem erased_erase (a : AccountId) (db : Tables β) : Erased a db (db.erase a) where
  docs d := by
    simp [Tables.erase, Tables.dropDocs, Tables.dropAccount, Tables.clearAccount, deleteDevices,
      Tables.forgetConsumer, Tables.purge, Table.mem_delete, mem_ownedDocs]
  accounts x := by
    simp [Tables.erase, Tables.dropDocs, Tables.dropAccount, Tables.clearAccount, deleteDevices,
      Tables.forgetConsumer, Tables.purge, Table.mem_delete]
  members m := by
    simp [Tables.erase, Tables.dropDocs, Tables.dropAccount, Tables.clearAccount, deleteDevices,
      Tables.forgetConsumer, Tables.purge, Table.mem_delete, mem_ownedDocs, and_assoc]
  invites i := by
    simp [Tables.erase, Tables.dropDocs, Tables.dropAccount, Tables.clearAccount, deleteDevices,
      Tables.forgetConsumer, Tables.purge, Table.mem_delete, Table.mem_modify, mem_ownedDocs,
      and_assoc]
  sessions s := by
    simp [Tables.erase, Tables.dropDocs, Tables.dropAccount, Tables.clearAccount, deleteDevices,
      Tables.forgetConsumer, Tables.purge, Table.mem_delete]
  devices d := by
    simp [Tables.erase, Tables.dropDocs, Tables.dropAccount, Tables.clearAccount, deleteDevices,
      Tables.forgetConsumer, Tables.purge, Table.mem_delete]
  frontiers f := by
    simp [Tables.erase, Tables.dropDocs, Tables.dropAccount, Tables.clearAccount, deleteDevices,
      Tables.forgetConsumer, Tables.purge, Table.mem_delete, mem_ownedDocs, and_assoc]
  sequences d := by
    simp [Tables.erase, Tables.dropDocs, Tables.dropAccount, Tables.clearAccount, deleteDevices,
      Tables.forgetConsumer, Tables.purge, mem_ownedDocs]
  updates u := by
    simp [Tables.erase, Tables.dropDocs, Tables.dropAccount, Tables.clearAccount, deleteDevices,
      Tables.forgetConsumer, Tables.purge, mem_ownedDocs]
  snapshots s := by
    simp [Tables.erase, Tables.dropDocs, Tables.dropAccount, Tables.clearAccount, deleteDevices,
      Tables.forgetConsumer, Tables.purge, mem_ownedDocs]

/-- The rows after a document was deleted: those that did not refer to it. -/
structure DocErased (docId : DocId) (db db' : Tables β) : Prop where
  docs : ∀ d, d ∈ db'.docs.rows ↔ d ∈ db.docs.rows ∧ d.id ≠ docId
  accounts : db'.accounts = db.accounts
  members : ∀ m, m ∈ db'.members.rows ↔ m ∈ db.members.rows ∧ m.docId ≠ docId
  invites : ∀ i, i ∈ db'.invites.rows ↔ i ∈ db.invites.rows ∧ i.docId ≠ docId
  sessions : db'.sessions = db.sessions
  devices : db'.devices = db.devices
  frontiers : ∀ f, f ∈ db'.frontiers.rows ↔ f ∈ db.frontiers.rows ∧ f.docId ≠ docId
  sequences : ∀ d, d ∈ db'.sequences ↔ d ∈ db.sequences ∧ d ≠ docId
  updates : ∀ u, u ∈ db'.updates ↔ u ∈ db.updates ∧ u.docId ≠ docId
  snapshots : ∀ s, s ∈ db'.snapshots ↔ s ∈ db.snapshots ∧ s.docId ≠ docId

theorem docErased_purge (docId : DocId) (db : Tables β) :
    DocErased docId db
      ((db.purge fun x => decide (x = docId)).dropDocs fun x => decide (x = docId)) := by
  constructor <;> simp [Tables.dropDocs, Tables.purge, Table.mem_delete]

/-! ## The deletions go through -/

theorem Tables.Unnamed.dropDocs (gone : DocId → Bool) (h : db.Unnamed docId) :
    (db.dropDocs gone).Unnamed docId :=
  ⟨h.accounts, h.members, h.invites, h.frontiers, h.sequences, h.updates, h.snapshots⟩

/-- Documents nothing refers to are deleted one after the other. -/
theorem passes_deleteDocRow {ds : List DocId} {k : DocId} (hk : k ∈ ds) :
    Passes (fun db : Tables β => db.ForeignKeys ∧ ∀ d ∈ ds, db.Unnamed d) (deleteDocRow k) := by
  refine passes_execute fun db h => ?_
  have hkeys : (db.dropDocs fun x => decide (x = k)).ForeignKeys :=
    foreignKeys_dropDocs _ h.1 fun d hd => h.2 d (of_decide_eq_true hd ▸ hk)
  exact ⟨hkeys, hkeys, fun d hd => (h.2 d hd).dropDocs fun x => decide (x = k)⟩

/-- What is gone with the documents and the account is named by no row that is left. -/
theorem unnamed_clearAccount (h : db.Shared) (hdoc : docId ∈ ownedDocs a db) :
    (((db.purge fun x => decide (x ∈ ownedDocs a db)).clearAccount a).dropAccount a
      ).Unnamed docId := by
  have howner : db.Owner docId a := mem_ownedDocs.1 hdoc
  have hleft := erased_erase a db
  refine ⟨fun x hx heq => ?_, fun m hm heq => ?_, fun i hi heq => ?_, fun f hf heq => ?_,
    fun d hd heq => ?_, fun u hu heq => ?_, fun s hs heq => ?_⟩
  · -- a primary document is owned by its account alone, whose row is gone
    obtain ⟨hmem, hne⟩ := (hleft.accounts x).1 hx
    exact hne (h.owner_home hmem (heq ▸ howner)).symm
  · exact ((hleft.members m).1 hm).2.1 (heq ▸ howner)
  · obtain ⟨j, -, hfree, -, rfl⟩ := (hleft.invites i).1 hi
    rw [j.forget_cases.2.1] at heq
    exact hfree (heq ▸ howner)
  · exact ((hleft.frontiers f).1 hf).2.1 (heq ▸ howner)
  · exact ((hleft.sequences d).1 hd).2 (heq ▸ howner)
  · exact ((hleft.updates u).1 hu).2 (heq ▸ howner)
  · exact ((hleft.snapshots s).1 hs).2 (heq ▸ howner)

theorem deleteAccount_commits (hkeys : db.ForeignKeys) (h : db.Shared) (a : AccountId) :
    deleteAccount a db = some (.commit ⟨ownedDocs a db, joinedDocs a db⟩, db.erase a) := by
  obtain ⟨r, hr⟩ : ∃ r, deleteAccount a db = some r := by
    obtain ⟨⟨⟨⟩, d₁⟩, h₁, hk₁⟩ := passes_forM (ownedDocs a db)
      (fun k _ => passes_purgeRowsUnderDoc (β := β) k) hkeys
    obtain ⟨⟨⟨⟩, d₂⟩, h₂, hk₂⟩ := passes_deleteRowsOfAccount a hk₁
    cases purgeDocs_does _ h₁
    cases deleteRowsOfAccount_does a h₂
    have hk₃ := foreignKeys_dropAccount hk₂
    have h₃ : deleteAccountRow a ((db.purge fun x => decide (x ∈ ownedDocs a db)).clearAccount a) =
        some ((), _) := execute_eq_some.2 ⟨hk₃, rfl⟩
    obtain ⟨⟨⟨⟩, d₄⟩, h₄, -⟩ := passes_forM (ownedDocs a db)
      (fun k hk => passes_deleteDocRow (β := β) hk)
      ⟨hk₃, fun d hd => unnamed_clearAccount h hd⟩
    exact ⟨_, query_bind.2 (bind_eq_some.2 ⟨_, _, h₁, bind_eq_some.2 ⟨_, _, h₂,
      bind_eq_some.2 ⟨_, _, h₃, bind_eq_some.2 ⟨_, _, h₄, rfl⟩⟩⟩⟩)⟩
  rw [hr, deleteAccount_spec hr]

theorem deleteDoc_commits (hkeys : db.ForeignKeys) (howner : db.Owner docId a)
    (hhome : ∀ x ∈ db.accounts.rows, x.primaryDocId ≠ docId) :
    deleteDoc a docId db = some (.commit .deleted,
      (db.purge fun x => decide (x = docId)).dropDocs fun x => decide (x = docId)) := by
  obtain ⟨⟨⟨⟩, d₁⟩, h₁, hk₁⟩ := passes_purgeRowsUnderDoc docId hkeys
  cases purgeRowsUnderDoc_does docId h₁
  have hk₂ := foreignKeys_dropDocs (fun x => decide (x = docId)) hk₁ fun d hd => by
    rw [of_decide_eq_true hd]
    exact @unnamed_purge β db docId (fun x => decide (x = docId)) (decide_eq_true rfl) hhome
  have h₂ : deleteDocRow docId (db.purge fun x => decide (x = docId)) = some ((), _) :=
    execute_eq_some.2 ⟨hk₂, rfl⟩
  refine query_bind.2 ?_
  rw [isActiveOwner_iff.2 howner]
  exact bind_eq_some.2 ⟨_, _, bind_eq_some.2 ⟨_, _, h₁, h₂⟩, rfl⟩

section Reachable

variable [DecidableEq β] {s : Server β}

/-- **Erasure of an account.**  In every state reached the deletion of an account goes through,
and leaves exactly the rows that referred neither to it nor to a document it owned. -/
theorem account_erased (h : (server β).Reachable s) (now : ℤ) (auth : DeviceLookup) :
    ∃ db', (Request.deleteAccount auth).run now s.db =
        (db', .accountDeleted ⟨ownedDocs auth.accountId s.db, joinedDocs auth.accountId s.db⟩) ∧
      db'.ForeignKeys ∧ Erased auth.accountId s.db db' := by
  have hinv := ownershipInv_of_reach h
  have hrun : (Request.deleteAccount auth).run now s.db = (s.db.erase auth.accountId,
      .accountDeleted ⟨ownedDocs auth.accountId s.db, joinedDocs auth.accountId s.db⟩) := by
    simp only [Request.run, Tables.answer,
      transact_eq_of_commit (deleteAccount_commits hinv.keys hinv.shared auth.accountId)]
    rfl
  refine ⟨_, hrun, ?_, erased_erase _ _⟩
  have hkeys := run_foreignKeys now (.deleteAccount auth) hinv.keys
  rwa [hrun] at hkeys

theorem account_erased_shared : ∃ s : Server ℕ, isActiveOwner 5 1 s.db = true ∧
    ∃ db', (Request.deleteAccount ⟨1, 11, 101⟩).run 9 s.db =
        (db', .accountDeleted ⟨ownedDocs 1 s.db, joinedDocs 1 s.db⟩) ∧
      db'.ForeignKeys ∧ Erased 1 s.db db' := by
  obtain ⟨s, hs, -, howner, -⟩ := sharingRun_reaches
  exact ⟨s, howner, account_erased hs 9 ⟨1, 11, 101⟩⟩

/-- **Erasure of a document.**  In every state reached a request to delete a document either
deletes exactly the rows that refer to it, where the caller is its owner and it is not their
primary one, or changes nothing. -/
theorem doc_erased (h : (server β).Reachable s) (now : ℤ) {auth : DeviceLookup}
    (hauth : auth ∈ s.auths) (docId : DocId) :
    (docId ≠ auth.primaryDocId ∧ s.db.Owner docId auth.accountId →
        ∃ db', (Request.deleteDoc auth docId).run now s.db = (db', .docDeleted .deleted) ∧
          db'.ForeignKeys ∧ DocErased docId s.db db') ∧
      (¬(docId ≠ auth.primaryDocId ∧ s.db.Owner docId auth.accountId) →
        ∃ reply, (Request.deleteDoc auth docId).run now s.db = (s.db, reply) ∧
          (reply = .forbidden ∨ reply = .docDeleted .notOwner)) := by
  have hinv := ownershipInv_of_reach h
  constructor
  · rintro ⟨hhome, howner⟩
    have hfree := hinv.shared.not_home hinv.lookups hauth hhome howner
    have hrun : (Request.deleteDoc auth docId).run now s.db =
        ((s.db.purge fun x => decide (x = docId)).dropDocs fun x => decide (x = docId),
          .docDeleted .deleted) := by
      simp only [Request.run, if_neg hhome, Tables.answer, transact_eq_of_commit
        (deleteDoc_commits hinv.keys howner fun x hx => (hfree x hx).symm)]
      rfl
    refine ⟨_, hrun, ?_, docErased_purge _ _⟩
    have hkeys := run_foreignKeys now (.deleteDoc auth docId) hinv.keys
    rwa [hrun] at hkeys
  · intro hnot
    by_cases hhome : docId = auth.primaryDocId
    · exact ⟨.forbidden, if_pos hhome, .inl rfl⟩
    · refine ⟨.docDeleted .notOwner, ?_, .inr rfl⟩
      have hno : isActiveOwner docId auth.accountId s.db = false :=
        Bool.of_not_eq_true fun ho => hnot ⟨hhome, isActiveOwner_iff.1 ho⟩
      have hbody : deleteDoc auth.accountId docId s.db = some (.rollback .notOwner, s.db) := by
        refine query_bind.2 ?_
        rw [hno]
        rfl
      simp only [Request.run, if_neg hhome, Tables.answer, transact, hbody]
      rfl

theorem doc_erased_shared : ∃ s : Server ℕ, isMember 5 2 s.db = true ∧
    ∃ db', (Request.deleteDoc ⟨1, 11, 101⟩ 5).run 9 s.db = (db', .docDeleted .deleted) ∧
      db'.ForeignKeys ∧ DocErased 5 s.db db' := by
  obtain ⟨s, hs, hauths, howner, hmember⟩ := sharingRun_reaches
  have hauth : (⟨1, 11, 101⟩ : DeviceLookup) ∈ s.auths := by simp [hauths]
  exact ⟨s, hmember, (doc_erased hs 9 hauth 5).1 ⟨by decide, isActiveOwner_iff.1 howner⟩⟩

end Reachable

end Monoplan.Accounts
