import Monoplan.Accounts.Requests

/-!
# Who owns a document

* `Sharing` is what the rows keep to: an account's primary document has the account as its only
  member and no invite, every document has one owner, who is active, and every invite was issued
  by the owner of its document.
* `sharing_step`: every request keeps it.  The cases are those of `Change`; each rests on one
  lemma about the rows (`Sharing.addDoc`, `Sharing.mapMembers`, `Sharing.keep`).
* `documents_owned`: what holds in every state reached.
-/

namespace Monoplan.Accounts

open Monoplan.Base Monoplan.Protocol

variable {β : Type}

/-! ## The rows -/

/-- What the rows of documents, accounts, members and invites keep to. -/
structure Sharing (docs : List DocRow) (accounts : List (AccountRow β))
    (members : List (MemberRow β)) (invites : List (InviteRow β)) : Prop where
  /-- An account owns its primary document. -/
  home : ∀ a ∈ accounts, ∃ m ∈ members, m.docId = a.primaryDocId ∧ m.accountId = a.id ∧
    m.role = .owner
  /-- Nobody else ever joined it. -/
  alone : ∀ a ∈ accounts, ∀ m ∈ members, m.docId = a.primaryDocId → m.accountId = a.id
  uninvited : ∀ a ∈ accounts, ∀ i ∈ invites, i.docId ≠ a.primaryDocId
  owned : ∀ d ∈ docs, ∃ m ∈ members, m.docId = d.id ∧ m.role = .owner
  /-- An owner is never removed. -/
  standing : ∀ m ∈ members, m.role = .owner → m.removedAt = none
  single : ∀ m ∈ members, ∀ n ∈ members, m.docId = n.docId → m.role = .owner →
    n.role = .owner → m.accountId = n.accountId
  issued : ∀ i ∈ invites, ∃ m ∈ members, m.docId = i.docId ∧ m.accountId = i.issuedBy ∧
    m.role = .owner

section Rows

variable {docs docs' : List DocRow} {accounts : List (AccountRow β)}
  {members : List (MemberRow β)} {invites : List (InviteRow β)}

theorem sharing_nil : Sharing (β := β) [] [] [] [] where
  home := nofun
  alone := nofun
  uninvited := nofun
  owned := nofun
  standing := nofun
  single := nofun
  issued := nofun

variable (h : Sharing docs accounts members invites)

include h

/-- A new document gets its owner. -/
theorem Sharing.addDoc {d : DocRow} {o : MemberRow β} (hdoc : o.docId = d.id)
    (hrole : o.role = .owner) (hactive : o.removedAt = none)
    (haccounts : ∀ a ∈ accounts, a.primaryDocId ≠ d.id)
    (hmembers : ∀ m ∈ members, m.docId ≠ d.id) :
    Sharing (docs ++ [d]) accounts (members ++ [o]) invites where
  home a ha := by
    obtain ⟨m, hm, hrest⟩ := h.home a ha
    exact ⟨m, List.mem_append_left _ hm, hrest⟩
  alone a ha m hm hhome := by
    rcases List.mem_append.1 hm with hm | hm
    · exact h.alone a ha m hm hhome
    · rw [List.mem_singleton.1 hm, hdoc] at hhome
      exact absurd hhome.symm (haccounts a ha)
  uninvited := h.uninvited
  owned e he := by
    rcases List.mem_append.1 he with he | he
    · obtain ⟨m, hm, hrest⟩ := h.owned e he
      exact ⟨m, List.mem_append_left _ hm, hrest⟩
    · rw [List.mem_singleton.1 he]
      exact ⟨o, by simp, hdoc, hrole⟩
  standing m hm hown := by
    rcases List.mem_append.1 hm with hm | hm
    · exact h.standing m hm hown
    · rw [List.mem_singleton.1 hm]
      exact hactive
  single m hm n hn hmn hmown hnown := by
    rcases List.mem_append.1 hm with hm | hm <;> rcases List.mem_append.1 hn with hn | hn
    · exact h.single m hm n hn hmn hmown hnown
    · rw [List.mem_singleton.1 hn, hdoc] at hmn
      exact absurd hmn (hmembers m hm)
    · rw [List.mem_singleton.1 hm, hdoc] at hmn
      exact absurd hmn.symm (hmembers n hn)
    · rw [List.mem_singleton.1 hm, List.mem_singleton.1 hn]
  issued i hi := by
    obtain ⟨m, hm, hrest⟩ := h.issued i hi
    exact ⟨m, List.mem_append_left _ hm, hrest⟩

/-- A new account whose primary document has it as the owner and nobody else. -/
theorem Sharing.addAccount {a : AccountRow β}
    (hhome : ∃ m ∈ members, m.docId = a.primaryDocId ∧ m.accountId = a.id ∧ m.role = .owner)
    (halone : ∀ m ∈ members, m.docId = a.primaryDocId → m.accountId = a.id)
    (hinvites : ∀ i ∈ invites, i.docId ≠ a.primaryDocId) :
    Sharing docs (accounts ++ [a]) members invites where
  home b hb := by
    rcases List.mem_append.1 hb with hb | hb
    · exact h.home b hb
    · rw [List.mem_singleton.1 hb]
      exact hhome
  alone b hb := by
    rcases List.mem_append.1 hb with hb | hb
    · exact h.alone b hb
    · rw [List.mem_singleton.1 hb]
      exact halone
  uninvited b hb := by
    rcases List.mem_append.1 hb with hb | hb
    · exact h.uninvited b hb
    · rw [List.mem_singleton.1 hb]
      exact hinvites
  owned := h.owned
  standing := h.standing
  single := h.single
  issued := h.issued

/-- A plain member joins a document that is nobody's primary one. -/
theorem Sharing.addMember {m : MemberRow β} (hrole : m.role = .member)
    (haccounts : ∀ a ∈ accounts, m.docId ≠ a.primaryDocId) :
    Sharing docs accounts (members ++ [m]) invites where
  home a ha := by
    obtain ⟨o, ho, hrest⟩ := h.home a ha
    exact ⟨o, List.mem_append_left _ ho, hrest⟩
  alone a ha n hn hhome := by
    rcases List.mem_append.1 hn with hn | hn
    · exact h.alone a ha n hn hhome
    · rw [List.mem_singleton.1 hn] at hhome
      exact absurd hhome (haccounts a ha)
  uninvited := h.uninvited
  owned d hd := by
    obtain ⟨o, ho, hrest⟩ := h.owned d hd
    exact ⟨o, List.mem_append_left _ ho, hrest⟩
  standing n hn hown := by
    rcases List.mem_append.1 hn with hn | hn
    · exact h.standing n hn hown
    · rw [List.mem_singleton.1 hn, hrole] at hown
      cases hown
  single n hn k hk hnk hnown hkown := by
    rcases List.mem_append.1 hn with hn | hn
    · rcases List.mem_append.1 hk with hk | hk
      · exact h.single n hn k hk hnk hnown hkown
      · rw [List.mem_singleton.1 hk, hrole] at hkown
        cases hkown
    · rw [List.mem_singleton.1 hn, hrole] at hnown
      cases hnown
  issued i hi := by
    obtain ⟨o, ho, hrest⟩ := h.issued i hi
    exact ⟨o, List.mem_append_left _ ho, hrest⟩

/-- Members rewritten in place: who is an owner stays one, and stays active. -/
theorem Sharing.mapMembers {f : MemberRow β → MemberRow β}
    (hkey : ∀ m ∈ members, (f m).docId = m.docId ∧ (f m).accountId = m.accountId)
    (hrole : ∀ m ∈ members, (f m).role = .owner ↔ m.role = .owner)
    (hactive : ∀ m ∈ members, m.role = .owner → (f m).removedAt = none) :
    Sharing docs accounts (members.map f) invites where
  home a ha := by
    obtain ⟨m, hm, hdoc, hacc, hown⟩ := h.home a ha
    exact ⟨f m, List.mem_map_of_mem hm, (hkey m hm).1.trans hdoc, (hkey m hm).2.trans hacc,
      (hrole m hm).2 hown⟩
  alone a ha n hn hhome := by
    obtain ⟨m, hm, rfl⟩ := List.mem_map.1 hn
    exact (hkey m hm).2.trans (h.alone a ha m hm ((hkey m hm).1.symm.trans hhome))
  uninvited := h.uninvited
  owned d hd := by
    obtain ⟨m, hm, hdoc, hown⟩ := h.owned d hd
    exact ⟨f m, List.mem_map_of_mem hm, (hkey m hm).1.trans hdoc, (hrole m hm).2 hown⟩
  standing n hn hown := by
    obtain ⟨m, hm, rfl⟩ := List.mem_map.1 hn
    exact hactive m hm ((hrole m hm).1 hown)
  single n hn k hk hnk hnown hkown := by
    obtain ⟨m, hm, rfl⟩ := List.mem_map.1 hn
    obtain ⟨o, ho, rfl⟩ := List.mem_map.1 hk
    rw [(hkey m hm).2, (hkey o ho).2]
    rw [(hkey m hm).1, (hkey o ho).1] at hnk
    exact h.single m hm o ho hnk ((hrole m hm).1 hnown) ((hrole o ho).1 hkown)
  issued i hi := by
    obtain ⟨m, hm, hdoc, hacc, hown⟩ := h.issued i hi
    exact ⟨f m, List.mem_map_of_mem hm, (hkey m hm).1.trans hdoc, (hkey m hm).2.trans hacc,
      (hrole m hm).2 hown⟩

/-- Accounts rewritten in place keep their ids and primary documents. -/
theorem Sharing.mapAccounts {f : AccountRow β → AccountRow β}
    (hf : ∀ a ∈ accounts, (f a).id = a.id ∧ (f a).primaryDocId = a.primaryDocId) :
    Sharing docs (accounts.map f) members invites where
  home b hb := by
    obtain ⟨a, ha, rfl⟩ := List.mem_map.1 hb
    rw [(hf a ha).1, (hf a ha).2]
    exact h.home a ha
  alone b hb := by
    obtain ⟨a, ha, rfl⟩ := List.mem_map.1 hb
    rw [(hf a ha).1, (hf a ha).2]
    exact h.alone a ha
  uninvited b hb := by
    obtain ⟨a, ha, rfl⟩ := List.mem_map.1 hb
    rw [(hf a ha).2]
    exact h.uninvited a ha
  owned := h.owned
  standing := h.standing
  single := h.single
  issued := h.issued

/-- Invites that come from old ones, or that the owner issues on a shareable document. -/
theorem Sharing.setInvites {invites' : List (InviteRow β)}
    (hinvites : ∀ i ∈ invites', (∃ j ∈ invites, j.docId = i.docId ∧ j.issuedBy = i.issuedBy) ∨
      (∀ a ∈ accounts, i.docId ≠ a.primaryDocId) ∧
        ∃ m ∈ members, m.docId = i.docId ∧ m.accountId = i.issuedBy ∧ m.role = .owner) :
    Sharing docs accounts members invites' where
  home := h.home
  alone := h.alone
  uninvited a ha i hi := by
    rcases hinvites i hi with ⟨j, hj, hdoc, -⟩ | ⟨hfree, -⟩
    · rw [← hdoc]
      exact h.uninvited a ha j hj
    · exact hfree a ha
  owned := h.owned
  standing := h.standing
  single := h.single
  issued i hi := by
    rcases hinvites i hi with ⟨j, hj, hdoc, hby⟩ | ⟨-, howner⟩
    · rw [← hdoc, ← hby]
      exact h.issued j hj
    · exact howner

/-- Rows deleted: what stays finds its owner among what stays. -/
theorem Sharing.keep {accounts' : List (AccountRow β)} {members' : List (MemberRow β)}
    {invites' : List (InviteRow β)} (hdocs : ∀ d ∈ docs', d ∈ docs)
    (haccounts : ∀ a ∈ accounts', a ∈ accounts) (hmembers : ∀ m ∈ members', m ∈ members)
    (hinvites : ∀ i ∈ invites', i ∈ invites)
    (hhome : ∀ a ∈ accounts', ∀ m ∈ members, m.docId = a.primaryDocId → m ∈ members')
    (howned : ∀ d ∈ docs', ∀ m ∈ members, m.docId = d.id → m.role = .owner → m ∈ members')
    (hissued : ∀ i ∈ invites', ∀ m ∈ members, m.docId = i.docId → m.accountId = i.issuedBy →
      m ∈ members') :
    Sharing docs' accounts' members' invites' where
  home a ha := by
    obtain ⟨m, hm, hdoc, hrest⟩ := h.home a (haccounts a ha)
    exact ⟨m, hhome a ha m hm hdoc, hdoc, hrest⟩
  alone a ha m hm := h.alone a (haccounts a ha) m (hmembers m hm)
  uninvited a ha i hi := h.uninvited a (haccounts a ha) i (hinvites i hi)
  owned d hd := by
    obtain ⟨m, hm, hdoc, hown⟩ := h.owned d (hdocs d hd)
    exact ⟨m, howned d hd m hm hdoc hown, hdoc, hown⟩
  standing m hm := h.standing m (hmembers m hm)
  single m hm n hn := h.single m (hmembers m hm) n (hmembers n hn)
  issued i hi := by
    obtain ⟨m, hm, hdoc, hacc, hown⟩ := h.issued i (hinvites i hi)
    exact ⟨m, hissued i hi m hm hdoc hacc, hdoc, hacc, hown⟩

end Rows

/-! ## Requests keep it -/

/-- `Sharing`, of the tables. -/
def Tables.Shared (db : Tables β) : Prop :=
  Sharing db.docs.rows db.accounts.rows db.members.rows db.invites.rows

/-- What a request authenticated as still tells the primary document of the account. -/
def Lookups (auths : List DeviceLookup) (db : Tables β) : Prop :=
  ∀ l ∈ auths, ∀ a ∈ db.accounts.rows, a.id = l.accountId → a.primaryDocId = l.primaryDocId

variable {db db' : Tables β} {now : ℤ} {a : AccountId} {docId : DocId}

theorem Tables.eq_of_key {m n : MemberRow β} (hm : m ∈ db.members.rows) (hn : n ∈ db.members.rows)
    (hdoc : m.docId = n.docId) (hacc : m.accountId = n.accountId) : m = n :=
  Table.eq_of_conflict (fun _ _ hc => ⟨hc.1.symm, hc.2.symm⟩) hm hn ⟨hdoc, hacc⟩

theorem Tables.eq_of_id {x y : AccountRow β} (hx : x ∈ db.accounts.rows)
    (hy : y ∈ db.accounts.rows) (h : x.id = y.id) : x = y :=
  Table.eq_of_conflict
    (fun _ _ hc => hc.elim (fun h => .inl h.symm) fun h => .inr h.symm) hx hy (.inl h)

namespace Tables.Shared

variable (h : db.Shared)

include h

/-- An owner row is active: it makes an owner. -/
theorem owner_of_mem {m : MemberRow β} (hm : m ∈ db.members.rows) (hown : m.role = .owner) :
    db.Owner m.docId m.accountId :=
  ⟨m, hm, ownsActively_iff.2 ⟨rfl, rfl, hown, h.standing m hm hown⟩⟩

/-- A document has one owner. -/
theorem owner_unique {b : AccountId} (ha : db.Owner docId a) (hb : db.Owner docId b) : a = b := by
  obtain ⟨m, hm, hown⟩ := ha
  obtain ⟨n, hn, hown'⟩ := hb
  obtain ⟨hdoc, rfl, hrole, -⟩ := ownsActively_iff.1 hown
  obtain ⟨hdoc', rfl, hrole', -⟩ := ownsActively_iff.1 hown'
  exact h.single m hm n hn (hdoc.trans hdoc'.symm) hrole hrole'

/-- Who owns a primary document is its account. -/
theorem owner_home {x : AccountRow β} (hx : x ∈ db.accounts.rows)
    (ha : db.Owner x.primaryDocId a) : a = x.id := by
  obtain ⟨m, hm, hown⟩ := ha
  obtain ⟨hdoc, rfl, -, -⟩ := ownsActively_iff.1 hown
  exact h.alone x hx m hm hdoc

/-- Its guard keeps a request away from every primary document, not only the caller's. -/
theorem not_home {auths : List DeviceLookup} (hauths : Lookups auths db) {auth : DeviceLookup}
    (hauth : auth ∈ auths) (hhome : docId ≠ auth.primaryDocId)
    (howner : db.Owner docId auth.accountId) :
    ∀ x ∈ db.accounts.rows, docId ≠ x.primaryDocId := by
  rintro x hx rfl
  have hid : auth.accountId = x.id := h.owner_home hx howner
  exact hhome (hauths auth hauth x hx hid.symm)

theorem of_same (hs : db.SameAccess db') : db'.Shared := by
  unfold Tables.Shared
  rw [hs.docs, hs.accounts, hs.members, hs.invites]
  exact h

/-- The rows under a document go, and the document, where it is nobody's primary one. -/
theorem purge (hhome : ∀ x ∈ db.accounts.rows, docId ≠ x.primaryDocId) :
    ((db.purge fun x => decide (x = docId)).dropDocs fun x => decide (x = docId)).Shared := by
  refine Sharing.keep h (fun d hd => (Table.mem_delete.1 hd).1) (fun _ hx => hx)
    (fun m hm => (Table.mem_delete.1 hm).1) (fun i hi => (Table.mem_delete.1 hi).1)
    (fun x hx m hm hdoc => ?_) (fun d hd m hm hdoc _ => ?_) (fun i hi m hm hdoc _ => ?_)
  · exact Table.mem_delete.2 ⟨hm, by simpa [hdoc] using (hhome x hx).symm⟩
  · exact Table.mem_delete.2 ⟨hm, by simpa [hdoc] using (Table.mem_delete.1 hd).2⟩
  · exact Table.mem_delete.2 ⟨hm, by simpa [hdoc] using (Table.mem_delete.1 hi).2⟩

/-- A removed member's row makes a member again. -/
theorem join {wrap : Wrap β} {rows : List (MemberRow β)}
    (hhome : ∀ x ∈ db.accounts.rows, docId ≠ x.primaryDocId)
    (hjoin : Joined now docId a wrap db.members.rows rows) :
    Sharing db.docs.rows db.accounts.rows rows db.invites.rows := by
  cases hjoin with
  | first hnew => exact Sharing.addMember h rfl hhome
  | again m hm hdoc hacc hremoved =>
    have hplain : m.role ≠ .owner := fun hown => hremoved (h.standing m hm hown)
    have hrow : ∀ n ∈ db.members.rows, n.docId = docId → n.accountId = a → n = m :=
      fun n hn hnd hna => eq_of_key hn hm (hnd.trans hdoc.symm) (hna.trans hacc.symm)
    refine Sharing.mapMembers h (fun n _ => ⟨by simp, by simp⟩) (fun n hn => ?_)
      fun n hn hown => ?_
    · unfold MemberRow.reactivate
      split
      next hkey => simp [hrow n hn hkey.1 hkey.2, hplain]
      next => rfl
    · unfold MemberRow.reactivate
      split
      next => rfl
      next => exact h.standing n hn hown

/-- The removed member is not the owner. -/
theorem remove {target : AccountId} (howner : db.Owner docId a) (hne : a ≠ target) :
    (db.stampRemoved now docId target).Shared := by
  refine Sharing.mapMembers h (fun n _ => ⟨by simp, by simp⟩) (fun n hn => ?_)
    fun n hn hown => ?_
  · unfold MemberRow.remove
    split <;> rfl
  · unfold MemberRow.remove
    split
    next hact =>
      obtain ⟨rfl, rfl, -⟩ := isActive_iff.1 hact
      exact absurd (h.owner_unique howner (h.owner_of_mem hn hown)) hne
    next => exact h.standing n hn hown

theorem rekey {password : PasswordMaterial β} {k : DocKeyUpdate β} :
    ((db.rekeyAccount a password).rewrapMember a k).Shared := by
  have hacc : Sharing db.docs.rows (db.accounts.rows.map (.rekey a password)) db.members.rows
      db.invites.rows := by
    refine Sharing.mapAccounts h fun x _ => ⟨by simp, ?_⟩
    unfold AccountRow.rekey
    split <;> rfl
  refine Sharing.mapMembers hacc (fun n _ => ⟨by simp, by simp⟩) (fun n _ => ?_)
    fun n hn hown => ?_
  · unfold MemberRow.rewrap
    split <;> rfl
  · unfold MemberRow.rewrap
    split <;> exact h.standing n hn hown

/-- Who owned nothing but what goes with an account still owns it. -/
theorem erase (a : AccountId) : (db.erase a).Shared := by
  -- what the account does not own has an owner other than the account
  have hother : ∀ m ∈ db.members.rows, m.role = .owner → m.docId ∉ ownedDocs a db →
      m.accountId ≠ a := by
    rintro m hm hown hdoc rfl
    exact hdoc (mem_ownedDocs.2 (h.owner_of_mem hm hown))
  have hstays : ∀ m ∈ db.members.rows, m.docId ∉ ownedDocs a db → m.accountId ≠ a →
      m ∈ (db.erase a).members.rows := by
    intro m hm hdoc hacc
    exact Table.mem_delete.2 ⟨Table.mem_delete.2 ⟨hm, by simpa using hdoc⟩, by simpa using hacc⟩
  have hkept : Sharing (db.erase a).docs.rows (db.erase a).accounts.rows (db.erase a).members.rows
      (((db.purge fun x => decide (x ∈ ownedDocs a db)).invites.delete
        fun i => decide (i.issuedBy = a)).rows) := by
    refine Sharing.keep h (fun d hd => (Table.mem_delete.1 hd).1)
      (fun x hx => (Table.mem_delete.1 hx).1)
      (fun m hm => (Table.mem_delete.1 (Table.mem_delete.1 hm).1).1)
      (fun i hi => (Table.mem_delete.1 (Table.mem_delete.1 hi).1).1)
      (fun x hx m hm hdoc => ?_) (fun d hd m hm hdoc hown => ?_) (fun i hi m hm hdoc hacc => ?_)
    · obtain ⟨hxmem, hxid⟩ := Table.mem_delete.1 hx
      have hid : m.accountId = x.id := h.alone x hxmem m hm hdoc
      have hne : x.id ≠ a := by simpa using hxid
      refine hstays m hm (fun hgone => hne ?_) (hid ▸ hne)
      rw [hdoc] at hgone
      exact (h.owner_home hxmem (mem_ownedDocs.1 hgone)).symm
    · have hdocs : d.id ∉ ownedDocs a db := by simpa using (Table.mem_delete.1 hd).2
      rw [← hdoc] at hdocs
      exact hstays m hm hdocs (hother m hm hown hdocs)
    · obtain ⟨hi', hby⟩ := Table.mem_delete.1 hi
      have hdocs : i.docId ∉ ownedDocs a db := by simpa using (Table.mem_delete.1 hi').2
      refine hstays m hm (hdoc ▸ hdocs) (hacc ▸ ?_)
      simpa using hby
  refine Sharing.setInvites hkept fun i hi => ?_
  obtain ⟨j, hj, rfl⟩ := List.mem_map.1 hi
  refine .inl ⟨j, hj, ?_⟩
  unfold InviteRow.forget
  split <;> exact ⟨rfl, rfl⟩

end Tables.Shared

/-- No row names a document that is not there. -/
theorem unnamed_of_foreignKeys (hkeys : db.ForeignKeys) (hdoc : ¬db.HasDoc docId) :
    (∀ x ∈ db.accounts.rows, x.primaryDocId ≠ docId) ∧
      (∀ m ∈ db.members.rows, m.docId ≠ docId) ∧ ∀ i ∈ db.invites.rows, i.docId ≠ docId := by
  refine ⟨?_, ?_, ?_⟩
  · rintro x hx rfl
    exact hdoc (hkeys.primary x hx)
  · rintro m hm rfl
    exact hdoc (hkeys.member m hm).1
  · rintro i hi rfl
    exact hdoc (hkeys.invite i hi).1

/-- What an authentication tells is in the tables. -/
theorem findDeviceByTokenHash_spec [DecidableEq β] {tokenHash : β} {l : DeviceLookup}
    (h : findDeviceByTokenHash tokenHash db = some l) :
    ∃ x ∈ db.accounts.rows, x.id = l.accountId ∧ x.primaryDocId = l.primaryDocId := by
  obtain ⟨d, -, h⟩ := Option.bind_eq_some_iff.1 h
  obtain ⟨x, hx, h⟩ := Option.bind_eq_some_iff.1 h
  obtain ⟨hmem, hid⟩ := find_eq_some hx
  cases h
  exact ⟨x, hmem, of_decide_eq_true hid, rfl⟩

section Step

variable [DecidableEq β] {auths : List DeviceLookup} {r : Request β} {reply : Reply}

/-- A request of an authenticated caller keeps the rows in order. -/
theorem sharing_step (h : db.Shared) (hkeys : db.ForeignKeys) (hauths : Lookups auths db)
    (hauth : ∀ l ∈ r.auth, l ∈ auths) (hc : Change now db r reply db') : db'.Shared := by
  cases hc with
  | quiet _ hs => exact h.of_same hs
  | authenticate => exact h
  | signup hdoc _ docs accounts members invites _ =>
    unfold Tables.Shared
    rw [docs, accounts, members, invites]
    obtain ⟨hprimary, hmember, hinvite⟩ := unnamed_of_foreignKeys hkeys hdoc
    refine Sharing.addAccount ?_ ⟨_, List.mem_append_right _ List.mem_cons_self, rfl, rfl, rfl⟩
      (fun m hm hhome => ?_) hinvite
    · exact Sharing.addDoc h rfl rfl rfl hprimary hmember
    · rcases List.mem_append.1 hm with hm | hm
      · exact absurd hhome (hmember m hm)
      · rw [List.mem_singleton.1 hm]
  | createDoc hdoc docs members accounts invites _ =>
    unfold Tables.Shared
    rw [docs, accounts, members, invites]
    obtain ⟨hprimary, hmember, -⟩ := unnamed_of_foreignKeys hkeys hdoc
    exact Sharing.addDoc h rfl rfl rfl hprimary hmember
  | deleteDoc hhome howner => exact h.purge (h.not_home hauths (hauth _ rfl) hhome howner)
  | createInvite hhome howner _ rows =>
    refine Sharing.setInvites h fun i hi => ?_
    rw [rows] at hi
    rcases List.mem_append.1 hi with hi | hi
    · exact .inl ⟨i, hi, rfl, rfl⟩
    · rw [List.mem_singleton.1 hi]
      obtain ⟨m, hm, hown⟩ := howner
      obtain ⟨hdoc, hacc, hrole, -⟩ := ownsActively_iff.1 hown
      exact .inr ⟨h.not_home hauths (hauth _ rfl) hhome ⟨m, hm, hown⟩, m, hm, hdoc, hacc, hrole⟩
  | revokeInvite _ =>
    exact Sharing.setInvites h fun i hi => .inl ⟨i, (Table.mem_delete.1 hi).1, rfl, rfl⟩
  | acceptInvite hi _ _ members invites docs accounts _ =>
    have hjoin := h.join (fun x hx => h.uninvited x hx _ hi) members
    unfold Tables.Shared
    rw [docs, accounts, invites]
    refine Sharing.setInvites hjoin fun j hj => ?_
    obtain ⟨k, hk, rfl⟩ := List.mem_map.1 hj
    refine .inl ⟨k, hk, ?_⟩
    unfold InviteRow.consume
    split <;> exact ⟨rfl, rfl⟩
  | removeMember _ howner hne _ _ => exact h.remove howner hne
  | deleteAccount => exact h.erase _
  | updatePassword _ _ _ _ => exact h.rekey
  | createRecoverySession _ _ => exact h
  | @resetPassword u account k session =>
    have hrekey : ((db.rekeyAccount session.accountId u.password).rewrapMember
      session.accountId k).Shared := h.rekey
    exact hrekey

/-- The ids that accounts are looked up under are minted once. -/
theorem lookups_step (hauths : Lookups auths db)
    (hmints : ∀ b ∈ r.mints, ∀ l ∈ auths, l.accountId ≠ b) (hc : Change now db r reply db') :
    Lookups (Server.learn auths reply) db' := by
  -- rows rewritten in place keep what was looked up
  have hrekey : ∀ (b : AccountId) (p : PasswordMaterial β), ∀ l ∈ auths,
      ∀ x ∈ (db.rekeyAccount b p).accounts.rows, x.id = l.accountId →
        x.primaryDocId = l.primaryDocId := by
    intro b p l hl x hx hid
    obtain ⟨y, hy, rfl⟩ := List.mem_map.1 hx
    rw [AccountRow.rekey_id] at hid
    rw [← hauths l hl y hy hid]
    unfold AccountRow.rekey
    split <;> rfl
  have hlearn : ∀ reply : Reply, reply.effective = false → Server.learn auths reply = auths := by
    intro reply hreply
    cases reply with
    | identified l => cases hreply
    | _ => rfl
  cases hc with
  | quiet hreply hs =>
    rw [hlearn _ hreply]
    intro l hl x hx
    exact hauths l hl x (hs.accounts ▸ hx)
  | @authenticate tokenHash =>
    cases hfind : findDeviceByTokenHash tokenHash db with
    | none => exact hauths
    | some l =>
      intro k hk x hx hid
      rcases List.mem_append.1 hk with hk | hk
      · exact hauths k hk x hx hid
      · obtain ⟨y, hy, hyid, hprimary⟩ := findDeviceByTokenHash_spec hfind
        rw [List.mem_singleton.1 hk] at hid ⊢
        rw [Tables.eq_of_id hx hy (hid.trans hyid.symm), hprimary]
  | signup _ _ _ accounts =>
    intro l hl x hx hid
    rw [accounts] at hx
    rcases List.mem_append.1 hx with hx | hx
    · exact hauths l hl x hx hid
    · rw [List.mem_singleton.1 hx] at hid
      exact absurd hid.symm (hmints _ rfl l hl)
  | createDoc _ _ _ accounts => exact fun l hl x hx => hauths l hl x (accounts ▸ hx)
  | acceptInvite _ _ _ _ _ _ accounts => exact fun l hl x hx => hauths l hl x (accounts ▸ hx)
  | deleteAccount => exact fun l hl x hx => hauths l hl x (Table.mem_delete.1 hx).1
  | updatePassword => exact hrekey _ _
  | resetPassword => exact hrekey _ _
  | _ => exact hauths

/-- What holds of the tables between requests. -/
structure OwnershipInv (s : Server β) : Prop where
  keys : s.db.ForeignKeys
  shared : s.db.Shared
  lookups : Lookups s.auths s.db

/-- What an enabled request does. -/
theorem step_eq_some {s s' : Server β} {l : ℤ × Request β}
    (h : (server β).step s l = some s') :
    (∀ auth ∈ l.2.auth, auth ∈ s.auths) ∧
      (∀ b ∈ l.2.mints, ∀ auth ∈ s.auths, auth.accountId ≠ b) ∧
      ∃ reply, l.2.run l.1 s.db = (s'.db, reply) ∧ s'.auths = Server.learn s.auths reply ∧
        s'.history = s.history ++ [⟨l.1, l.2, reply⟩] := by
  obtain ⟨now, r⟩ := l
  change Server.step s (now, r) = some s' at h
  unfold Server.step at h
  split at h
  next hadmits =>
    cases h
    simp only [Server.admits, Bool.and_eq_true, Option.all_eq_true, List.all_eq_true,
      decide_eq_true_eq] at hadmits
    exact ⟨hadmits.1, hadmits.2, _, rfl, rfl, rfl⟩
  next => cases h

theorem ownershipInv_of_reach {s : Server β} (h : (server β).Reachable s) : OwnershipInv s := by
  refine h.invariant (fun s hs => ?_) fun s l s' _ hinv _ hstep => ?_
  · cases hs
    exact ⟨⟨nofun, nofun, nofun, nofun, nofun, nofun, nofun, nofun, nofun⟩, sharing_nil, nofun⟩
  · obtain ⟨hauth, hmints, reply, hrun, hauths, -⟩ := step_eq_some hstep
    have hc := run_change hrun
    refine ⟨?_, sharing_step hinv.shared hinv.keys hinv.lookups hauth hc, ?_⟩
    · have hkeys := run_foreignKeys l.1 l.2 hinv.keys
      rwa [hrun] at hkeys
    · rw [hauths]
      exact lookups_step hinv.lookups hmints hc

/-- **Ownership.**  In every state reached: an account owns its primary document and is its only
active member, no invite leads to a primary document, every document has exactly one active
owner, and an invite was issued by the owner of its document. -/
theorem documents_owned {s : Server β} (h : (server β).Reachable s) :
    s.db.ForeignKeys ∧
      (∀ x ∈ s.db.accounts.rows, s.db.Owner x.primaryDocId x.id ∧
        (∀ b, s.db.Member x.primaryDocId b → b = x.id) ∧
        ∀ i ∈ s.db.invites.rows, i.docId ≠ x.primaryDocId) ∧
      (∀ d ∈ s.db.docs.rows, ∃ b, ∀ c, s.db.Owner d.id c ↔ c = b) ∧
      ∀ i ∈ s.db.invites.rows, s.db.Owner i.docId i.issuedBy := by
  obtain ⟨hkeys, hshared, -⟩ := ownershipInv_of_reach h
  refine ⟨hkeys, fun x hx => ⟨?_, ?_, fun i hi => hshared.uninvited x hx i hi⟩, fun d hd => ?_,
    fun i hi => ?_⟩
  · obtain ⟨m, hm, hdoc, hacc, hown⟩ := hshared.home x hx
    rw [← hdoc, ← hacc]
    exact hshared.owner_of_mem hm hown
  · rintro b ⟨m, hm, hact⟩
    obtain ⟨hdoc, rfl, -⟩ := isActive_iff.1 hact
    exact hshared.alone x hx m hm hdoc
  · obtain ⟨m, hm, hdoc, hown⟩ := hshared.owned d hd
    have howner : s.db.Owner d.id m.accountId := hdoc ▸ hshared.owner_of_mem hm hown
    refine ⟨m.accountId, fun c => ⟨fun hc => hshared.owner_unique hc howner, ?_⟩⟩
    rintro rfl
    exact howner
  · obtain ⟨m, hm, hdoc, hacc, hown⟩ := hshared.issued i hi
    rw [← hdoc, ← hacc]
    exact hshared.owner_of_mem hm hown

end Step

theorem documents_owned_shared : ∃ s : Server ℕ, isMember 5 2 s.db = true ∧
    s.db.ForeignKeys ∧
      (∀ x ∈ s.db.accounts.rows, s.db.Owner x.primaryDocId x.id ∧
        (∀ b, s.db.Member x.primaryDocId b → b = x.id) ∧
        ∀ i ∈ s.db.invites.rows, i.docId ≠ x.primaryDocId) ∧
      (∀ d ∈ s.db.docs.rows, ∃ b, ∀ c, s.db.Owner d.id c ↔ c = b) ∧
      ∀ i ∈ s.db.invites.rows, s.db.Owner i.docId i.issuedBy := by
  obtain ⟨s, hs, -, -, hmember⟩ := sharingRun_reaches
  exact ⟨s, hmember, documents_owned hs⟩

end Monoplan.Accounts
