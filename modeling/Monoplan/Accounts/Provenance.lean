import Monoplan.Accounts.Erasure

/-!
# Where access and keys come from

What the rows say goes back to requests.  `Recorded` states it of the tables and the history
together, and `recorded_step` that a request keeps it.

* `members_invited`: an account joins a document only through an invite of it that was created,
  has not expired, and was neither used nor revoked nor deleted with its document since.  So an
  invite is used once.  An active member that is not the owner joined so, and was not removed
  since.
* `keys_of_one_request`: the password material of an account and the wrap of its primary
  document come from one request, and a recovery session is used once.
* `password_change_exact`: a password change writes one row of accounts and one of members, or
  nothing.
-/

namespace Monoplan.Accounts

open Monoplan.Base Monoplan.Protocol

variable {β : Type}

/-! ## What an event is about -/

namespace Event

/-- An invite was created. -/
def Opens (id : β) (docId : DocId) (expiresAt : ℤ) (e : Event β) : Prop :=
  ∃ auth new, e.request = .createInvite auth docId new ∧ new.id = id ∧
    e.reply = .invited (.created expiresAt)

/-- An account joined a document through an invite. -/
def Joins (a : AccountId) (docId : DocId) (id : β) (wrap : Wrap β) (e : Event β) : Prop :=
  ∃ auth, e.request = .acceptInvite auth id wrap ∧ auth.accountId = a ∧
    e.reply = .accepted (.joined docId)

/-- A document was deleted, on its own or with its owner. -/
def Deletes (docId : DocId) (e : Event β) : Prop :=
  (∃ auth, e.request = .deleteDoc auth docId ∧ e.reply = .docDeleted .deleted) ∨
    ∃ d, e.reply = .accountDeleted d ∧ docId ∈ d.purgedDocs

/-- An invite was used or revoked, or its document deleted. -/
def Closes (id : β) (docId : DocId) (e : Event β) : Prop :=
  (∃ a d wrap, e.Joins a d id wrap) ∨
    (∃ auth, e.request = .revokeInvite auth docId id ∧ e.reply = .revoked true) ∨
    e.Deletes docId

/-- A member was removed, or the document or the account deleted. -/
def Leaves (a : AccountId) (docId : DocId) (e : Event β) : Prop :=
  (∃ auth, e.request = .removeMember auth docId a ∧ e.reply = .removed .removed) ∨
    e.Deletes docId ∨
    ∃ auth d, e.request = .deleteAccount auth ∧ auth.accountId = a ∧ e.reply = .accountDeleted d

/-- A request set the password material of an account, and the wrap of its primary document. -/
def Keys (a : AccountId) (p : PasswordMaterial β) (wrap : Wrap β) (e : Event β) : Prop :=
  (∃ deviceId minted new c, e.request = .signup a deviceId minted new ∧ e.reply = .created c ∧
      new.password = p ∧ new.wrap = wrap) ∨
    (∃ auth u k, e.request = .updatePassword auth u ∧ auth.accountId = a ∧
      e.reply = .passwordUpdated .updated ∧ u.password = p ∧ u.newDocKeys = [k] ∧
      k.wrap = wrap) ∨
    ∃ token u k, e.request = .resetPassword token u ∧ e.reply = .passwordReset (.updated a) ∧
      u.password = p ∧ u.newDocKeys = [k] ∧ k.wrap = wrap

/-- A recovery session was created. -/
def Starts (token : β) (a : AccountId) (expiresAt : ℤ) (e : Event β) : Prop :=
  ∃ ttlMillis, e.request = .createRecoverySession a token ttlMillis ∧
    e.reply = .sessionCreated ∧ expiresAt = e.now + ttlMillis

/-- A recovery session was used. -/
def Resets (token : β) (a : AccountId) (e : Event β) : Prop :=
  ∃ u, e.request = .resetPassword token u ∧ e.reply = .passwordReset (.updated a)

variable {e : Event β} {id : β} {docId : DocId} {a : AccountId}

theorem Closes.effective (h : e.Closes id docId) : e.reply.effective = true := by
  rcases h with ⟨_, _, _, _, -, -, h⟩ | ⟨_, -, h⟩ | ⟨_, -, h⟩ | ⟨_, h, -⟩ <;> rw [h] <;> rfl

theorem Leaves.effective (h : e.Leaves a docId) : e.reply.effective = true := by
  rcases h with ⟨_, -, h⟩ | (⟨_, -, h⟩ | ⟨_, h, -⟩) | ⟨_, _, -, -, h⟩ <;> rw [h] <;> rfl

theorem Keys.effective {p : PasswordMaterial β} {wrap : Wrap β} (h : e.Keys a p wrap) :
    e.reply.effective = true := by
  rcases h with ⟨_, _, _, _, -, h, -⟩ | ⟨_, _, _, -, -, h, -⟩ | ⟨_, _, _, -, h, -⟩ <;> rw [h] <;>
    rfl

theorem Resets.effective {token : β} (h : e.Resets token a) : e.reply.effective = true := by
  obtain ⟨_, -, h⟩ := h
  rw [h]
  rfl

end Event

/-! ## The tables and the history -/

structure Recorded (db : Tables β) (history : List (Event β)) : Prop where
  invites : ∀ i ∈ db.invites.rows, i.consumedAt = none →
    Since (Event.Opens i.id i.docId i.expiresAt) (Event.Closes i.id i.docId) history
  members : ∀ m ∈ db.members.rows, m.role = .member → m.removedAt = none →
    ∃ id, Since (Event.Joins m.accountId m.docId id m.wrap)
      (Event.Leaves m.accountId m.docId) history
  passwords : ∀ x ∈ db.accounts.rows, ∀ m ∈ db.members.rows, m.docId = x.primaryDocId →
    m.accountId = x.id →
      Since (Event.Keys x.id x.password m.wrap) (fun e : Event β => ∃ p w, e.Keys x.id p w) history
  sessions : ∀ s ∈ db.sessions.rows, s.consumedAt = none →
    Since (Event.Starts s.tokenHash s.accountId s.expiresAt)
      (fun e : Event β => ∃ b, e.Resets s.tokenHash b) history

section Step

variable [DecidableEq β] {db db' : Tables β} {now : ℤ} {r : Request β} {reply : Reply}
  {history : List (Event β)}

theorem invites_step (h : Recorded db history) (hc : Change now db r reply db') :
    ∀ i ∈ db'.invites.rows, i.consumedAt = none →
      Since (Event.Opens i.id i.docId i.expiresAt) (Event.Closes i.id i.docId)
        (history ++ [⟨now, r, reply⟩]) := by
  intro i hi hopen
  cases hc with
  | quiet hreply hs =>
    refine (h.invites i (hs.invites ▸ hi) hopen).append fun hcl => ?_
    exact Bool.false_ne_true (hreply.symm.trans hcl.effective)
  | signup _ _ _ _ _ invites =>
    refine (h.invites i (invites ▸ hi) hopen).append ?_
    simp [Event.Closes, Event.Joins, Event.Deletes]
  | createDoc _ _ _ _ invites =>
    refine (h.invites i (invites ▸ hi) hopen).append ?_
    simp [Event.Closes, Event.Joins, Event.Deletes]
  | deleteDoc =>
    obtain ⟨hmem, hne⟩ := Table.mem_delete.1 hi
    refine (h.invites i hmem hopen).append ?_
    simpa [Event.Closes, Event.Joins, Event.Deletes, eq_comm] using hne
  | createInvite _ _ _ rows =>
    rw [rows] at hi
    rcases List.mem_append.1 hi with hi | hi
    · refine (h.invites i hi hopen).append ?_
      simp [Event.Closes, Event.Joins, Event.Deletes]
    · rw [List.mem_singleton.1 hi]
      exact since_last ⟨_, _, rfl, rfl, rfl⟩
  | revokeInvite =>
    obtain ⟨hmem, hne⟩ := Table.mem_delete.1 hi
    refine (h.invites i hmem hopen).append ?_
    rintro (⟨_, _, _, _, hreq, -⟩ | ⟨_, hreq, -⟩ | ⟨_, hreq, -⟩ | ⟨_, hreply, -⟩)
    · cases hreq
    · cases hreq
      simp at hne
    · cases hreq
    · cases hreply
  | acceptInvite _ _ _ _ invites =>
    rw [invites] at hi
    obtain ⟨k, hk, rfl⟩ := List.mem_map.1 hi
    unfold InviteRow.consume at hopen ⊢
    split at hopen
    next => cases hopen
    next hne =>
      rw [if_neg hne]
      refine (h.invites k hk hopen).append ?_
      rintro (⟨_, _, _, _, hreq, -⟩ | ⟨_, hreq, -⟩ | ⟨_, hreq, -⟩ | ⟨_, hreply, -⟩)
      · exact hne (Request.acceptInvite.inj hreq).2.1.symm
      · cases hreq
      · cases hreq
      · cases hreply
  | @deleteAccount auth =>
    obtain ⟨j, hj, hfree, -, rfl⟩ := ((erased_erase _ db).invites i).1 hi
    obtain ⟨hid, hdoc, hexpires, hconsumed⟩ := InviteRow.forget_cases (a := auth.accountId) j
    rw [hid, hdoc, hexpires]
    refine (h.invites j hj (hconsumed.symm.trans hopen)).append ?_
    simpa [Event.Closes, Event.Joins, Event.Deletes, mem_ownedDocs] using hfree
  | _ =>
    refine (h.invites i hi hopen).append ?_
    simp [Event.Closes, Event.Joins, Event.Deletes]

omit [DecidableEq β] in
/-- The only row of an account on its primary document is the owner's. -/
theorem home_of_mem (hshared : db.Shared) {x : AccountRow β} (hx : x ∈ db.accounts.rows)
    {m : MemberRow β} (hm : m ∈ db.members.rows) (hdoc : m.docId = x.primaryDocId) :
    m.accountId = x.id ∧ m.role = .owner ∧ m.removedAt = none := by
  obtain ⟨o, ho, hodoc, hoacc, hown⟩ := hshared.home x hx
  have hacc := hshared.alone x hx m hm hdoc
  have heq : m = o := Tables.eq_of_key hm ho (hdoc.trans hodoc.symm) (hacc.trans hoacc.symm)
  rw [heq]
  exact ⟨hoacc, hown, hshared.standing o ho hown⟩

omit [DecidableEq β] in
/-- The re-wrap of a primary document's key leaves the rows of members alone. -/
theorem rewrap_of_member (hshared : db.Shared) {x : AccountRow β} (hx : x ∈ db.accounts.rows)
    {k : DocKeyUpdate β} (hk : k.docId = x.primaryDocId) {m : MemberRow β}
    (hm : m ∈ db.members.rows) {a : AccountId} (hrole : m.role = .member) :
    m.rewrap a k = m := by
  refine if_neg fun hact => ?_
  obtain ⟨hdoc, -, -⟩ := isActive_iff.1 hact
  have hown := (home_of_mem hshared hx hm (hdoc.trans hk)).2.1
  rw [hrole] at hown
  cases hown

omit [DecidableEq β] in
@[simp] theorem MemberRow.rewrap_role (a : AccountId) (k : DocKeyUpdate β) (m : MemberRow β) :
    (m.rewrap a k).role = m.role := by
  unfold rewrap
  split <;> rfl

theorem members_step (h : Recorded db history) (hshared : db.Shared)
    (hc : Change now db r reply db') :
    ∀ m ∈ db'.members.rows, m.role = .member → m.removedAt = none →
      ∃ id, Since (Event.Joins m.accountId m.docId id m.wrap)
        (Event.Leaves m.accountId m.docId) (history ++ [⟨now, r, reply⟩]) := by
  intro m hm hrole hactive
  -- a row that was there goes back to the same event, unless this one ends it
  have hold : ∀ k ∈ db.members.rows, k.docId = m.docId → k.accountId = m.accountId →
      k.wrap = m.wrap → k.role = .member → k.removedAt = none →
      ¬Event.Leaves m.accountId m.docId ⟨now, r, reply⟩ →
        ∃ id, Since (Event.Joins m.accountId m.docId id m.wrap)
          (Event.Leaves m.accountId m.docId) (history ++ [⟨now, r, reply⟩]) := by
    intro k hk hdoc hacc hwrap hkrole hkactive hstays
    obtain ⟨id, hsince⟩ := h.members k hk hkrole hkactive
    rw [hdoc, hacc, hwrap] at hsince
    exact ⟨id, hsince.append hstays⟩
  cases hc with
  | quiet hreply hs =>
    refine hold m (hs.members ▸ hm) rfl rfl rfl hrole hactive fun hl => ?_
    exact Bool.false_ne_true (hreply.symm.trans hl.effective)
  | signup _ _ _ _ members =>
    rw [members] at hm
    rcases List.mem_append.1 hm with hm | hm
    · exact hold m hm rfl rfl rfl hrole hactive (by simp [Event.Leaves, Event.Deletes])
    · rw [List.mem_singleton.1 hm] at hrole
      cases hrole
  | createDoc _ _ members =>
    rw [members] at hm
    rcases List.mem_append.1 hm with hm | hm
    · exact hold m hm rfl rfl rfl hrole hactive (by simp [Event.Leaves, Event.Deletes])
    · rw [List.mem_singleton.1 hm] at hrole
      cases hrole
  | deleteDoc =>
    obtain ⟨hmem, hne⟩ := Table.mem_delete.1 hm
    refine hold m hmem rfl rfl rfl hrole hactive ?_
    simpa [Event.Leaves, Event.Deletes, eq_comm] using hne
  | @acceptInvite auth wrap i _ _ _ _ members =>
    have hstays : ¬Event.Leaves m.accountId m.docId
        ⟨now, .acceptInvite auth i.id wrap, .accepted (.joined i.docId)⟩ := by
      simp [Event.Leaves, Event.Deletes]
    generalize hrows : db'.members.rows = rows at hm members
    cases members with
    | first =>
      rcases List.mem_append.1 hm with hm | hm
      · exact hold m hm rfl rfl rfl hrole hactive hstays
      · rw [List.mem_singleton.1 hm]
        exact ⟨i.id, since_last ⟨auth, rfl, rfl, rfl⟩⟩
    | again =>
      obtain ⟨k, hk, rfl⟩ := List.mem_map.1 hm
      by_cases hkey : k.docId = i.docId ∧ k.accountId = auth.accountId
      · rw [MemberRow.reactivate, if_pos hkey]
        exact ⟨i.id, since_last ⟨auth, rfl, hkey.2.symm, by rw [hkey.1]⟩⟩
      · rw [MemberRow.reactivate, if_neg hkey] at hold hrole hactive hstays ⊢
        exact hold k hk rfl rfl rfl hrole hactive hstays
  | @removeMember auth docId target =>
    obtain ⟨k, hk, rfl⟩ := List.mem_map.1 hm
    by_cases hact : isActive docId target k = true
    · rw [MemberRow.remove, if_pos hact] at hactive
      cases hactive
    · rw [MemberRow.remove, if_neg hact] at hold hrole hactive ⊢
      refine hold k hk rfl rfl rfl hrole hactive ?_
      rintro (⟨_, hreq, -⟩ | (⟨_, hreq, -⟩ | ⟨_, hreply, -⟩) | ⟨_, _, hreq, -⟩)
      · cases hreq
        exact hact (isActive_iff.2 ⟨rfl, rfl, hactive⟩)
      · cases hreq
      · cases hreply
      · cases hreq
  | deleteAccount =>
    obtain ⟨hmem, hfree, hne⟩ := ((erased_erase _ db).members m).1 hm
    refine hold m hmem rfl rfl rfl hrole hactive ?_
    rintro (⟨_, hreq, -⟩ | (⟨_, hreq, -⟩ | ⟨_, hreply, hgone⟩) | ⟨_, _, hreq, hacc, -⟩)
    · cases hreq
    · cases hreq
    · cases hreply
      exact hfree (mem_ownedDocs.1 hgone)
    · cases hreq
      exact hne hacc.symm
  | updatePassword haccount _ _ hk =>
    obtain ⟨n, hn, rfl⟩ := List.mem_map.1 hm
    rw [rewrap_of_member hshared haccount hk hn (by simpa using hrole)] at hold hrole hactive ⊢
    exact hold n hn rfl rfl rfl hrole hactive (by simp [Event.Leaves, Event.Deletes])
  | resetPassword _ _ _ haccount _ _ hk =>
    obtain ⟨n, hn, rfl⟩ := List.mem_map.1 hm
    rw [rewrap_of_member hshared haccount hk hn (by simpa using hrole)] at hold hrole hactive ⊢
    exact hold n hn rfl rfl rfl hrole hactive (by simp [Event.Leaves, Event.Deletes])
  | _ => exact hold m hm rfl rfl rfl hrole hactive (by simp [Event.Leaves, Event.Deletes])

omit [DecidableEq β] in
/-- What a password request leaves of an account and its primary membership. -/
theorem passwords_rekey (h : Recorded db history) (hshared : db.Shared) {a : AccountId}
    {p : PasswordMaterial β} {account : AccountRow β} {k : DocKeyUpdate β} {e : Event β}
    (haccount : account ∈ db.accounts.rows) (hid : account.id = a)
    (hk : k.docId = account.primaryDocId) (he : e.Keys a p k.wrap)
    (honly : ∀ b, (∃ p w, e.Keys b p w) → b = a) :
    ∀ x ∈ (db.rekeyAccount a p).accounts.rows, ∀ m ∈ (db.rewrapMember a k).members.rows,
      m.docId = x.primaryDocId → m.accountId = x.id →
        Since (Event.Keys x.id x.password m.wrap) (fun e : Event β => ∃ p w, e.Keys x.id p w)
          (history ++ [e]) := by
  intro x hx m hm hdoc hacc
  obtain ⟨y, hy, rfl⟩ := List.mem_map.1 hx
  obtain ⟨n, hn, rfl⟩ := List.mem_map.1 hm
  by_cases hmine : y.id = a
  · -- the account of the request: both columns were written
    have hy' : y = account := Tables.eq_of_id hy haccount (hmine.trans hid.symm)
    subst hy'
    rw [AccountRow.rekey, if_pos hmine] at hdoc ⊢
    have hn' := home_of_mem hshared hy hn (by simpa using hdoc)
    have hact : isActive k.docId a n = true :=
      isActive_iff.2 ⟨(by simpa using hdoc : n.docId = y.primaryDocId).trans hk.symm,
        hn'.1.trans hmine, hn'.2.2⟩
    rw [MemberRow.rewrap, if_pos hact]
    refine since_last ?_
    change e.Keys y.id p k.wrap
    rw [hmine]
    exact he
  · rw [AccountRow.rekey, if_neg hmine] at hdoc hacc ⊢
    rw [MemberRow.rewrap_docId] at hdoc
    rw [MemberRow.rewrap_accountId] at hacc
    have hact : ¬isActive k.docId a n = true := fun hact =>
      hmine (hacc.symm.trans (isActive_iff.1 hact).2.1)
    rw [MemberRow.rewrap, if_neg hact]
    exact (h.passwords y hy n hn hdoc hacc).append fun hkeys => hmine (honly _ hkeys)

theorem passwords_step (h : Recorded db history) (hshared : db.Shared) (hkeys : db.ForeignKeys)
    (hc : Change now db r reply db') :
    ∀ x ∈ db'.accounts.rows, ∀ m ∈ db'.members.rows, m.docId = x.primaryDocId →
      m.accountId = x.id →
        Since (Event.Keys x.id x.password m.wrap) (fun e : Event β => ∃ p w, e.Keys x.id p w)
          (history ++ [⟨now, r, reply⟩]) := by
  intro x hx m hm hdoc hacc
  have hold : ∀ y ∈ db.accounts.rows, ∀ n ∈ db.members.rows, n.docId = y.primaryDocId →
      n.accountId = y.id → y.id = x.id → y.password = x.password → n.wrap = m.wrap →
      (¬∃ p w, Event.Keys x.id p w ⟨now, r, reply⟩) →
        Since (Event.Keys x.id x.password m.wrap) (fun e : Event β => ∃ p w, e.Keys x.id p w)
          (history ++ [⟨now, r, reply⟩]) := by
    intro y hy n hn hdoc hacc hid hpass hwrap hno
    have hsince := h.passwords y hy n hn hdoc hacc
    rw [hid, hpass, hwrap] at hsince
    exact hsince.append hno
  cases hc with
  | quiet hreply hs =>
    refine hold x (hs.accounts ▸ hx) m (hs.members ▸ hm) hdoc hacc rfl rfl rfl ?_
    rintro ⟨p, w, hkeyed⟩
    exact Bool.false_ne_true (hreply.symm.trans hkeyed.effective)
  | signup hnew haccount _ accounts members =>
    obtain ⟨hprimary, hmember, -⟩ := unnamed_of_foreignKeys hkeys hnew
    rw [accounts] at hx
    rw [members] at hm
    rcases List.mem_append.1 hx with hx | hx <;> rcases List.mem_append.1 hm with hm | hm
    · refine hold x hx m hm hdoc hacc rfl rfl rfl ?_
      rintro ⟨p, w, ⟨_, _, _, _, hreq, -⟩ | ⟨_, _, _, hreq, -⟩ | ⟨_, _, _, hreq, -⟩⟩
      · exact haccount ⟨x, hx, (Request.signup.inj hreq).1.symm⟩
      · cases hreq
      · cases hreq
    · rw [List.mem_singleton.1 hm] at hdoc
      exact absurd hdoc.symm (hprimary x hx)
    · rw [List.mem_singleton.1 hx] at hdoc
      exact absurd hdoc (hmember m hm)
    · rw [List.mem_singleton.1 hx, List.mem_singleton.1 hm]
      exact since_last (.inl ⟨_, _, _, _, rfl, rfl, rfl, rfl⟩)
  | createDoc hnew _ members accounts =>
    obtain ⟨hprimary, -, -⟩ := unnamed_of_foreignKeys hkeys hnew
    rw [accounts] at hx
    rw [members] at hm
    rcases List.mem_append.1 hm with hm | hm
    · exact hold x hx m hm hdoc hacc rfl rfl rfl (by simp [Event.Keys])
    · rw [List.mem_singleton.1 hm] at hdoc
      exact absurd hdoc.symm (hprimary x hx)
  | deleteDoc =>
    exact hold x hx m (of_mem_delete hm) hdoc hacc rfl rfl rfl (by simp [Event.Keys])
  | @acceptInvite auth wrap i _ hi _ _ members _ _ accounts =>
    rw [accounts] at hx
    have hfree := hshared.uninvited x hx i hi
    generalize db'.members.rows = rows at hm members
    cases members with
    | first =>
      rcases List.mem_append.1 hm with hm | hm
      · exact hold x hx m hm hdoc hacc rfl rfl rfl (by simp [Event.Keys])
      · rw [List.mem_singleton.1 hm] at hdoc
        exact absurd hdoc hfree
    | again =>
      obtain ⟨n, hn, rfl⟩ := List.mem_map.1 hm
      have hkey : ¬(n.docId = i.docId ∧ n.accountId = auth.accountId) := fun hkey =>
        hfree (hkey.1.symm.trans (by simpa using hdoc))
      rw [MemberRow.reactivate, if_neg hkey] at hdoc hacc hold ⊢
      exact hold x hx n hn hdoc hacc rfl rfl rfl (by simp [Event.Keys])
  | removeMember =>
    obtain ⟨n, hn, rfl⟩ := List.mem_map.1 hm
    refine hold x hx n hn (by simpa using hdoc) (by simpa using hacc) rfl rfl ?_
      (by simp [Event.Keys])
    unfold MemberRow.remove
    split <;> rfl
  | deleteAccount =>
    exact hold x (of_mem_delete hx) m (of_mem_delete (of_mem_delete hm)) hdoc hacc rfl rfl rfl
      (by simp [Event.Keys])
  | updatePassword haccount hid hkeyed hk =>
    refine passwords_rekey h hshared haccount hid hk
      (.inr (.inl ⟨_, _, _, rfl, rfl, rfl, rfl, hkeyed, rfl⟩)) ?_ x hx m hm hdoc hacc
    rintro b ⟨p, w, ⟨_, _, _, _, hreq, -⟩ | ⟨_, _, _, hreq, hb, -⟩ | ⟨_, _, _, hreq, -⟩⟩
    · cases hreq
    · cases hreq
      exact hb.symm
    · cases hreq
  | resetPassword _ _ _ haccount hid hkeyed hk =>
    refine passwords_rekey h hshared haccount hid hk
      (.inr (.inr ⟨_, _, _, rfl, rfl, rfl, hkeyed, rfl⟩)) ?_ x hx m hm hdoc hacc
    rintro b ⟨p, w, ⟨_, _, _, _, hreq, -⟩ | ⟨_, _, _, hreq, -⟩ | ⟨_, _, _, -, hreply, -⟩⟩
    · cases hreq
    · cases hreq
    · cases hreply
      rfl
  | _ => exact hold x hx m hm hdoc hacc rfl rfl rfl (by simp [Event.Keys])

theorem sessions_step (h : Recorded db history) (hc : Change now db r reply db') :
    ∀ s ∈ db'.sessions.rows, s.consumedAt = none →
      Since (Event.Starts s.tokenHash s.accountId s.expiresAt)
        (fun e : Event β => ∃ b, e.Resets s.tokenHash b) (history ++ [⟨now, r, reply⟩]) := by
  intro s hs hopen
  cases hc with
  | quiet hreply hsame =>
    refine (h.sessions s (hsame.sessions ▸ hs) hopen).append ?_
    rintro ⟨b, hreset⟩
    exact Bool.false_ne_true (hreply.symm.trans hreset.effective)
  | signup _ _ _ _ _ _ sessions =>
    exact (h.sessions s (sessions ▸ hs) hopen).append (by simp [Event.Resets])
  | createDoc _ _ _ _ _ sessions =>
    exact (h.sessions s (sessions ▸ hs) hopen).append (by simp [Event.Resets])
  | acceptInvite _ _ _ _ _ _ _ sessions =>
    exact (h.sessions s (sessions ▸ hs) hopen).append (by simp [Event.Resets])
  | deleteAccount =>
    exact (h.sessions s (of_mem_delete hs) hopen).append (by simp [Event.Resets])
  | createRecoverySession _ rows =>
    change s ∈ (_ : Table _ _).rows at hs
    rw [rows] at hs
    rcases List.mem_append.1 hs with hs | hs
    · exact (h.sessions s hs hopen).append (by simp [Event.Resets])
    · rw [List.mem_singleton.1 hs]
      exact since_last ⟨_, rfl, rfl, rfl⟩
  | resetPassword =>
    obtain ⟨t, ht, rfl⟩ := List.mem_map.1 hs
    unfold RecoverySession.consume at hopen ⊢
    split at hopen
    next => cases hopen
    next hne =>
      rw [if_neg hne]
      refine (h.sessions t ht hopen).append ?_
      rintro ⟨b, u, hreq, -⟩
      exact hne (Request.resetPassword.inj hreq).1.symm
  | _ => exact (h.sessions s hs hopen).append (by simp [Event.Resets])

theorem recorded_step (h : Recorded db history) (hshared : db.Shared) (hkeys : db.ForeignKeys)
    (hc : Change now db r reply db') : Recorded db' (history ++ [⟨now, r, reply⟩]) :=
  ⟨invites_step h hc, members_step h hshared hc, passwords_step h hshared hkeys hc,
    sessions_step h hc⟩

/-- What a request that joins, or that resets a password, found. -/
theorem grounds_step (h : Recorded db history) (hc : Change now db r reply db') :
    (∀ a docId id wrap, Event.Joins a docId id wrap ⟨now, r, reply⟩ →
      ∃ expiresAt, now ≤ expiresAt ∧ Since (Event.Opens id docId expiresAt)
        (Event.Closes id docId) history) ∧
    ∀ token a, Event.Resets token a ⟨now, r, reply⟩ →
      ∃ expiresAt, now ≤ expiresAt ∧ Since (Event.Starts token a expiresAt)
        (fun e : Event β => ∃ b, e.Resets token b) history := by
  constructor
  · rintro a docId id wrap ⟨auth, hreq, hacc, hreply⟩
    cases hc with
    | quiet hquiet =>
      change reply = _ at hreply
      rw [hreply] at hquiet
      cases hquiet
    | @acceptInvite _ _ i _ hi hopen hlive =>
      obtain ⟨-, rfl, -⟩ := Request.acceptInvite.inj hreq
      cases hreply
      exact ⟨i.expiresAt, hlive, h.invites i hi hopen⟩
    | _ => cases hreply
  · rintro token a ⟨u, hreq, hreply⟩
    cases hc with
    | quiet hquiet =>
      change reply = _ at hreply
      rw [hreply] at hquiet
      cases hquiet
    | @resetPassword _ _ _ session hsession hopen hlive =>
      obtain ⟨rfl, -⟩ := Request.resetPassword.inj hreq
      cases hreply
      exact ⟨session.expiresAt, hlive, h.sessions session hsession hopen⟩
    | _ => cases hreply

end Step

/-! ## A password update takes effect or changes nothing -/

section Update

variable {db : Tables β} {x : AccountRow β} {k : DocKeyUpdate β} {u : PasswordUpdate β}

theorem foreignKeys_rekey (h : db.ForeignKeys) (a : AccountId) (p : PasswordMaterial β) :
    (db.rekeyAccount a p).ForeignKeys := by
  have hacc : ∀ b, db.HasAccount b → (db.rekeyAccount a p).HasAccount b := by
    rintro b ⟨y, hy, rfl⟩
    exact ⟨_, List.mem_map_of_mem hy, AccountRow.rekey_id a p y⟩
  refine ⟨fun y hy => ?_, fun m hm => ⟨(h.member m hm).1, hacc _ (h.member m hm).2⟩,
    fun i hi => ?_, fun s hs => hacc _ (h.session s hs), fun d hd => hacc _ (h.device d hd),
    h.frontier, h.sequence, h.update, h.snapshot⟩
  · obtain ⟨z, hz, rfl⟩ := List.mem_map.1 hy
    have hprimary : (z.rekey a p).primaryDocId = z.primaryDocId := by
      unfold AccountRow.rekey
      split <;> rfl
    rw [hprimary]
    exact h.primary z hz
  · obtain ⟨h₁, h₂, h₃⟩ := h.invite i hi
    exact ⟨h₁, hacc _ h₂, fun b hb => hacc b (h₃ b hb)⟩

theorem foreignKeys_rewrap (h : db.ForeignKeys) (a : AccountId) (k : DocKeyUpdate β) :
    (db.rewrapMember a k).ForeignKeys := by
  refine ⟨h.primary, fun m hm => ?_, h.invite, h.session, h.device, h.frontier, h.sequence,
    h.update, h.snapshot⟩
  obtain ⟨n, hn, rfl⟩ := List.mem_map.1 hm
  rw [MemberRow.rewrap_docId, MemberRow.rewrap_accountId]
  exact h.member n hn

theorem find_account (hx : x ∈ db.accounts.rows) :
    db.accounts.rows.find? (fun y => decide (y.id = x.id)) = some x := by
  cases hrow : db.accounts.rows.find? fun y => decide (y.id = x.id) with
  | none => simpa using find_eq_none hrow x hx
  | some y =>
    obtain ⟨hy, hid⟩ := find_eq_some hrow
    rw [Tables.eq_of_id hy hx (of_decide_eq_true hid)]

/-- The re-wrap finds the one active row it expects. -/
theorem applyPasswordUpdate_commits (hkeys : db.ForeignKeys) (hshared : db.Shared)
    (hx : x ∈ db.accounts.rows) (hk : u.newDocKeys = [k]) (hdoc : k.docId = x.primaryDocId) :
    applyPasswordUpdate x.id u db =
      some (.updated, (db.rekeyAccount x.id u.password).rewrapMember x.id k) := by
  obtain ⟨o, ho, hodoc, hoacc, hown⟩ := hshared.home x hx
  have hone : (db.members.select (isActive k.docId x.id)) = [o] := by
    refine Table.select_eq_singleton ho ?_ ⟨rfl, rfl⟩ fun q hq hact => ?_
    · exact isActive_iff.2 ⟨hodoc.trans hdoc.symm, hoacc, hshared.standing o ho hown⟩
    · obtain ⟨hqdoc, hqacc, -⟩ := isActive_iff.1 hact
      exact Tables.eq_of_key hq ho ((hqdoc.trans hdoc).trans hodoc.symm)
        (hqacc.trans hoacc.symm)
  have hrekey := foreignKeys_rekey hkeys x.id u.password
  have hrewrap := foreignKeys_rewrap hrekey x.id k
  refine query_bind.2 ?_
  rw [find_account hx]
  have hnamed : u.newDocKeys.map DocKeyUpdate.docId = [x.primaryDocId] := by
    rw [hk, List.map_singleton, hdoc]
  simp only [hnamed, if_true]
  have hmember : rewrapMember x.id k (db.rekeyAccount x.id u.password) =
      some ((), (db.rekeyAccount x.id u.password).rewrapMember x.id k) := by
    refine query_bind.2 (bind_eq_some.2 ⟨(), _, execute_eq_some.2 ⟨hrewrap, rfl⟩, ?_⟩)
    change (if (db.members.select (isActive k.docId x.id)).length = 1 then pure () else raise) _ =
      some ((), _)
    rw [hone]
    rfl
  refine bind_eq_some.2 ⟨(), _, execute_eq_some.2 ⟨hrekey, rfl⟩, bind_eq_some.2 ⟨⟨⟩, _, ?_, rfl⟩⟩
  rw [hk]
  exact bind_eq_some.2 ⟨(), _, hmember, rfl⟩

/-- A key set that is not exactly the primary document's is refused. -/
theorem applyPasswordUpdate_refuses (hx : x ∈ db.accounts.rows)
    (hk : u.newDocKeys.map DocKeyUpdate.docId ≠ [x.primaryDocId]) :
    applyPasswordUpdate x.id u db = some
      (.docKeysMismatch [x.primaryDocId] (u.newDocKeys.map DocKeyUpdate.docId), db) := by
  refine query_bind.2 ?_
  rw [find_account hx]
  simp only [hk, if_false]
  rfl

end Update

/-! ## Every run -/

section Runs

variable [DecidableEq β] {s : Server β}

/-- What holds of the tables and the history between requests. -/
structure ProvenanceInv (s : Server β) : Prop where
  ownership : OwnershipInv s
  recorded : Recorded s.db s.history
  joins : Always (fun before e => ∀ a docId id wrap, e.Joins a docId id wrap →
    ∃ expiresAt, e.now ≤ expiresAt ∧
      Since (Event.Opens id docId expiresAt) (Event.Closes id docId) before) s.history
  resets : Always (fun before e => ∀ token a, e.Resets token a → ∃ expiresAt, e.now ≤ expiresAt ∧
    Since (Event.Starts token a expiresAt) (fun e : Event β => ∃ b, e.Resets token b) before)
    s.history

theorem provenanceInv_of_reach (h : (server β).Reachable s) : ProvenanceInv s := by
  refine h.invariant (fun s hs => ?_) fun s l s' hr hinv _ hstep => ?_
  · have hown := ownershipInv_of_reach (.init hs)
    cases hs
    exact ⟨hown, ⟨nofun, nofun, nofun, nofun⟩, always_nil _, always_nil _⟩
  · have hown := ownershipInv_of_reach (hr.step trivial hstep)
    obtain ⟨-, -, reply, hrun, -, hhistory⟩ := step_eq_some hstep
    have hc := run_change hrun
    obtain ⟨hjoin, hreset⟩ := grounds_step hinv.recorded hc
    refine ⟨hown, ?_, ?_, ?_⟩
    · rw [hhistory]
      exact recorded_step hinv.recorded hinv.ownership.shared hinv.ownership.keys hc
    · rw [hhistory]
      exact hinv.joins.append hjoin
    · rw [hhistory]
      exact hinv.resets.append hreset

/-- **Invites.**  In every run, who joins a document does so through an invite of it that was
created before, has not expired, and was neither used nor revoked nor deleted with its document
since; an active member who is not the owner joined so, with the wrap the row holds, and was
neither removed nor deleted since, nor was the document. -/
theorem members_invited (h : (server β).Reachable s) :
    Always (fun before e => ∀ a docId id wrap, e.Joins a docId id wrap →
      ∃ expiresAt, e.now ≤ expiresAt ∧
        Since (Event.Opens id docId expiresAt) (Event.Closes id docId) before) s.history ∧
    ∀ m ∈ s.db.members.rows, m.role ≠ .owner → m.removedAt = none →
      ∃ id, Since (Event.Joins m.accountId m.docId id m.wrap)
        (Event.Leaves m.accountId m.docId) s.history := by
  have hinv := provenanceInv_of_reach h
  refine ⟨hinv.joins, fun m hm hrole hactive => hinv.recorded.members m hm ?_ hactive⟩
  cases hm' : m.role with
  | owner => exact absurd hm' hrole
  | member => rfl

theorem members_invited_shared : ∃ s : Server ℕ, isMember 5 2 s.db = true ∧
    Always (fun before e => ∀ a docId id wrap, e.Joins a docId id wrap →
      ∃ expiresAt, e.now ≤ expiresAt ∧
        Since (Event.Opens id docId expiresAt) (Event.Closes id docId) before) s.history ∧
    ∀ m ∈ s.db.members.rows, m.role ≠ .owner → m.removedAt = none →
      ∃ id, Since (Event.Joins m.accountId m.docId id m.wrap)
        (Event.Leaves m.accountId m.docId) s.history := by
  obtain ⟨s, hs, -, -, hmember⟩ := sharingRun_reaches
  exact ⟨s, hmember, members_invited hs⟩

/-- **Keys.**  In every run, the password material of an account and the wrap of its primary
document come from one request, the last one that set either; and a recovery session is used
once, before it expires, by a reset that took effect. -/
theorem keys_of_one_request (h : (server β).Reachable s) :
    (∀ x ∈ s.db.accounts.rows, ∃ m ∈ s.db.members.rows, m.docId = x.primaryDocId ∧
      m.accountId = x.id ∧ Since (Event.Keys x.id x.password m.wrap)
        (fun e : Event β => ∃ p w, e.Keys x.id p w) s.history) ∧
    Always (fun before e => ∀ token a, e.Resets token a → ∃ expiresAt, e.now ≤ expiresAt ∧
      Since (Event.Starts token a expiresAt) (fun e : Event β => ∃ b, e.Resets token b) before)
      s.history := by
  have hinv := provenanceInv_of_reach h
  refine ⟨fun x hx => ?_, hinv.resets⟩
  obtain ⟨m, hm, hdoc, hacc, -⟩ := hinv.ownership.shared.home x hx
  exact ⟨m, hm, hdoc, hacc, hinv.recorded.passwords x hx m hm hdoc hacc⟩

theorem keys_of_one_request_shared : ∃ s : Server ℕ, isMember 5 2 s.db = true ∧
    (∀ x ∈ s.db.accounts.rows, ∃ m ∈ s.db.members.rows, m.docId = x.primaryDocId ∧
      m.accountId = x.id ∧ Since (Event.Keys x.id x.password m.wrap)
        (fun e : Event ℕ => ∃ p w, e.Keys x.id p w) s.history) ∧
    Always (fun before e => ∀ token a, e.Resets token a → ∃ expiresAt, e.now ≤ expiresAt ∧
      Since (Event.Starts token a expiresAt) (fun e : Event ℕ => ∃ b, e.Resets token b) before)
      s.history := by
  obtain ⟨s, hs, -, -, hmember⟩ := sharingRun_reaches
  exact ⟨s, hmember, keys_of_one_request hs⟩

/-- **Password changes.**  In every state reached, a password change of an account that is there
either names exactly its primary document, and then rewrites the material of that account and
the wrap of the one row of that document and nothing else, or is refused and changes nothing. -/
theorem password_change_exact (h : (server β).Reachable s) {x : AccountRow β}
    (hx : x ∈ s.db.accounts.rows) (u : PasswordUpdate β) :
    (∃ k db', u.newDocKeys = [k] ∧ k.docId = x.primaryDocId ∧
        transact (updatePassword x.id u) s.db = (db', some .updated) ∧
        db'.accounts.rows = s.db.accounts.rows.map (fun y =>
          if y.id = x.id then { y with password := u.password } else y) ∧
        db'.members.rows = s.db.members.rows.map (fun m =>
          if m.docId = x.primaryDocId then { m with wrap := k.wrap } else m) ∧
        { db' with accounts := s.db.accounts, members := s.db.members } = s.db) ∨
      u.newDocKeys.map DocKeyUpdate.docId ≠ [x.primaryDocId] ∧
        transact (updatePassword x.id u) s.db = (s.db, some
          (.docKeysMismatch [x.primaryDocId] (u.newDocKeys.map DocKeyUpdate.docId))) := by
  have hinv := ownershipInv_of_reach h
  by_cases hnamed : u.newDocKeys.map DocKeyUpdate.docId = [x.primaryDocId]
  · obtain ⟨k, hk, hdoc⟩ : ∃ k, u.newDocKeys = [k] ∧ k.docId = x.primaryDocId :=
      List.map_eq_singleton_iff.1 hnamed
    have hbody : updatePassword x.id u s.db = some
        (.commit .updated, (s.db.rekeyAccount x.id u.password).rewrapMember x.id k) :=
      bind_eq_some.2
        ⟨_, _, applyPasswordUpdate_commits hinv.keys hinv.shared hx hk hdoc, rfl⟩
    refine .inl ⟨k, _, hk, hdoc, transact_eq_of_commit hbody, rfl, ?_, rfl⟩
    refine List.map_congr_left fun m hm => ?_
    unfold MemberRow.rewrap
    by_cases hmine : m.docId = x.primaryDocId
    · obtain ⟨hacc, -, hactive⟩ := home_of_mem hinv.shared hx hm hmine
      rw [if_pos hmine, if_pos (isActive_iff.2 ⟨hmine.trans hdoc.symm, hacc, hactive⟩)]
    · rw [if_neg hmine, if_neg fun hact => hmine ((isActive_iff.1 hact).1.trans hdoc)]
  · refine .inr ⟨hnamed, ?_⟩
    have hbody : updatePassword x.id u s.db = some (.rollback
        (.docKeysMismatch [x.primaryDocId] (u.newDocKeys.map DocKeyUpdate.docId)), s.db) :=
      bind_eq_some.2 ⟨_, _, applyPasswordUpdate_refuses hx hnamed, rfl⟩
    rw [transact, hbody]

theorem password_change_exact_shared : ∃ (s : Server ℕ) (x : AccountRow ℕ)
    (u : PasswordUpdate ℕ), x.id = 1 ∧ u.newDocKeys = [⟨x.primaryDocId, ⟨6, 6⟩⟩] ∧
    ((∃ k db', u.newDocKeys = [k] ∧ k.docId = x.primaryDocId ∧
        transact (updatePassword x.id u) s.db = (db', some .updated) ∧
        db'.accounts.rows = s.db.accounts.rows.map (fun y =>
          if y.id = x.id then { y with password := u.password } else y) ∧
        db'.members.rows = s.db.members.rows.map (fun m =>
          if m.docId = x.primaryDocId then { m with wrap := k.wrap } else m) ∧
        { db' with accounts := s.db.accounts, members := s.db.members } = s.db) ∨
      u.newDocKeys.map DocKeyUpdate.docId ≠ [x.primaryDocId] ∧
        transact (updatePassword x.id u) s.db = (s.db, some
          (.docKeysMismatch [x.primaryDocId] (u.newDocKeys.map DocKeyUpdate.docId)))) := by
  obtain ⟨s, hs, -, howner, -⟩ := sharingRun_reaches
  obtain ⟨m, hm, hown⟩ := isActiveOwner_iff.1 howner
  obtain ⟨x, hx, hid⟩ := ((ownershipInv_of_reach hs).keys.member m hm).2
  exact ⟨s, x, ⟨⟨5, 5, ⟨1, 1, 1⟩⟩, [⟨x.primaryDocId, ⟨6, 6⟩⟩]⟩,
    hid.trans (ownsActively_iff.1 hown).2.1, rfl, password_change_exact hs hx _⟩

end Runs

end Monoplan.Accounts
