import Monoplan.Base.FMap
import Monoplan.Base.Machine

/-!
# The key vault of the browser

One record per origin holds the keys of a session, each sealed under a wrapping key of the record
itself.  Sealing runs outside any transaction, so a call may find another record than it read when
it comes back: `save` replaces record and wrapping key together, `putDocKey` adds an entry it
sealed under the key it read.

* `DekVault.step`: calls of any number of tabs, each transaction a step of its own.
* `vault_opens`: every record opens, and keeps the keys that were put, as long as no entry is
  merged into a record of another wrapping key, and the first that is breaks it.

AES-GCM is symbolic: an entry names the key it was sealed under and opens under that key only.
-/

namespace Monoplan.Web

open Monoplan.Base

/-- A `CryptoKey`: `generateKey` never returns the same one twice. -/
abbrev CryptoKey := ℕ

/-- One wrapped DEK. -/
structure WrappedEntry (κ : Type*) where
  sealedUnder : CryptoKey
  dek : κ
  deriving DecidableEq

structure VaultedSession (δ κ : Type*) where
  anonymous : Bool
  accountId : String
  primaryDocId : δ
  email : Option String
  deviceId : Option String
  docKeys : FMap δ κ

structure VaultRecord (δ κ : Type*) where
  anonymous : Bool
  accountId : String
  primaryDocId : δ
  email : Option String
  deviceId : Option String
  wrappingKey : CryptoKey
  docKeys : FMap δ (WrappedEntry κ)

variable {δ κ : Type*}

def wrapOne (wrappingKey : CryptoKey) (dek : κ) : WrappedEntry κ := ⟨wrappingKey, dek⟩

/-- Decryption fails under any other key. -/
def unwrapOne (wrappingKey : CryptoKey) (entry : WrappedEntry κ) : Option κ :=
  if entry.sealedUnder = wrappingKey then some entry.dek else none

/-- `none` where it throws: `docKeys` has no entry for the primary doc. -/
def sealSession (s : VaultedSession δ κ) (wrappingKey : CryptoKey) : Option (VaultRecord δ κ) :=
  match s.docKeys.get s.primaryDocId with
  | none => none
  | some _ =>
    some
      { anonymous := s.anonymous
        accountId := s.accountId
        primaryDocId := s.primaryDocId
        email := s.email
        deviceId := s.deviceId
        wrappingKey
        docKeys := s.docKeys.filterMap fun dek => some (wrapOne wrappingKey dek) }

/-- `none` for a record without its primary entry, and where an entry does not decrypt. -/
def openRecord (rec : VaultRecord δ κ) : Option (VaultedSession δ κ) :=
  match rec.docKeys.get rec.primaryDocId with
  | none => none
  | some _ =>
    if ∀ doc ∈ rec.docKeys.keys,
        ((rec.docKeys.get doc).bind (unwrapOne rec.wrappingKey)).isSome = true then
      some
        { anonymous := rec.anonymous
          accountId := rec.accountId
          primaryDocId := rec.primaryDocId
          email := rec.email
          deviceId := rec.deviceId
          docKeys := rec.docKeys.filterMap (unwrapOne rec.wrappingKey) }
    else none

/-- A record that has an entry for its primary doc, and every entry of which is sealed under its
own wrapping key. -/
structure VaultRecord.Opens (rec : VaultRecord δ κ) : Prop where
  primary : (rec.docKeys.get rec.primaryDocId).isSome = true
  own : ∀ doc entry, rec.docKeys.get doc = some entry → entry.sealedUnder = rec.wrappingKey

/-- Those are the records that `openRecord` opens. -/
theorem openRecord_isSome_iff {rec : VaultRecord δ κ} :
    (openRecord rec).isSome = true ↔ rec.Opens := by
  have hall : (∀ doc ∈ rec.docKeys.keys,
      ((rec.docKeys.get doc).bind (unwrapOne rec.wrappingKey)).isSome = true) ↔
        ∀ doc entry, rec.docKeys.get doc = some entry → entry.sealedUnder = rec.wrappingKey := by
    constructor
    · intro h doc entry hentry
      have hsome := h doc ((rec.docKeys.mem_keys doc).2 (by rw [hentry]; rfl))
      rw [hentry, Option.bind_some, unwrapOne] at hsome
      by_contra hne
      rw [if_neg hne] at hsome
      exact absurd hsome (by simp)
    · intro h doc hdoc
      obtain ⟨entry, hentry⟩ := Option.isSome_iff_exists.1 ((rec.docKeys.mem_keys doc).1 hdoc)
      rw [hentry, Option.bind_some, unwrapOne, if_pos (h doc entry hentry)]
      rfl
  unfold openRecord
  cases hprimary : rec.docKeys.get rec.primaryDocId with
  | none => exact ⟨fun h => absurd h (by simp), fun h => absurd h.primary (by simp [hprimary])⟩
  | some entry =>
    dsimp only
    split
    · rename_i h
      exact ⟨fun _ => ⟨by rw [hprimary]; rfl, hall.1 h⟩, fun _ => rfl⟩
    · rename_i h
      exact ⟨fun hs => absurd hs (by simp), fun hopens => absurd (hall.2 hopens.own) h⟩

theorem opens_sealSession {s : VaultedSession δ κ} {wrappingKey : CryptoKey}
    {rec : VaultRecord δ κ} (h : sealSession s wrappingKey = some rec) : rec.Opens := by
  unfold sealSession at h
  split at h
  · exact absurd h (by simp)
  · rename_i dek hdek
    obtain rfl := Option.some.inj h
    refine ⟨by simp [hdek], fun doc entry hentry => ?_⟩
    obtain ⟨dek, _, hwrap⟩ := Option.bind_eq_some_iff.1 hentry
    rw [← Option.some.inj hwrap]
    rfl

/-! ## The calls -/

/-- What a call in flight still has to do in a transaction of its own. -/
inductive VaultJob (δ κ : Type*)
  /-- `save`, its record sealed. -/
  | put (rec : VaultRecord δ κ)
  /-- `putDocKey`, its entry sealed under the key of the record it read.  `raced`: another record
  was stored, or the vault cleared, since. -/
  | merge (rec : VaultRecord δ κ) (doc : δ) (entry : WrappedEntry κ) (raced : Bool)
  /-- `load`, which could not open what it read. -/
  | clear

structure DekVault (δ κ : Type*) where
  /-- The record under `current`. -/
  store : Option (VaultRecord δ κ)
  jobs : List (VaultJob δ κ)
  nextKey : CryptoKey
  /-- The key each doc must have: that of its last completed `putDocKey`, unless it was dropped.
  A `putDocKey` whose record was replaced or cleared meanwhile owes nothing where it finds no record
  of its account.  Nothing reads it. -/
  owed : δ → Option κ

inductive VaultStep (δ κ : Type*)
  /-- `save`, up to its `put`. -/
  | save (s : VaultedSession δ κ)
  /-- `putDocKey`: its read, and the sealing. -/
  | putDocKey (doc : δ) (dek : κ)
  | removeDocKey (doc : δ)
  | clear
  /-- `load`, up to a `clear`. -/
  | load
  /-- The transaction of the `i`-th call in flight. -/
  | commit (i : ℕ)

/-- Its read is outdated. -/
def VaultJob.race : VaultJob δ κ → VaultJob δ κ
  | .merge rec doc entry _ => .merge rec doc entry true
  | job => job

namespace DekVault

/-- Nothing stored. -/
def new : DekVault δ κ := ⟨none, [], 0, fun _ => none⟩

variable [DecidableEq δ] (v : DekVault δ κ)

/-- There is a record of the same account. -/
def finds (rec : VaultRecord δ κ) : Bool :=
  v.store.any fun current => decide (current.accountId = rec.accountId)

/-- `putDocKey`'s `idbUpdate`. -/
def merged (rec : VaultRecord δ κ) (doc : δ) (entry : WrappedEntry κ) : Option (VaultRecord δ κ) :=
  v.store.map fun current =>
    if current.accountId ≠ rec.accountId then current
    else { current with docKeys := current.docKeys.insert doc entry }

/-- The store after a `put` or a `delete`. -/
def replace (store : Option (VaultRecord δ κ)) : DekVault δ κ :=
  { v with store, jobs := v.jobs.map VaultJob.race, owed := fun _ => none }

def step : VaultStep δ κ → Option (DekVault δ κ)
  | .save s =>
    (sealSession s v.nextKey).map fun rec =>
      { v with jobs := v.jobs ++ [.put rec], nextKey := v.nextKey + 1 }
  | .putDocKey doc dek =>
    v.store.map fun rec =>
      { v with jobs := v.jobs ++ [.merge rec doc (wrapOne rec.wrappingKey dek) false] }
  | .removeDocKey doc =>
    some <|
      match v.store with
      | none => v
      | some current =>
        if current.primaryDocId = doc ∨ current.docKeys.get doc = none then v
        else
          { v with
            store := some { current with docKeys := current.docKeys.erase doc }
            owed := Function.update v.owed doc none }
  | .clear => some (v.replace none)
  | .load =>
    some <|
      match v.store with
      | none => v
      | some rec =>
        match openRecord rec with
        | none => { v with jobs := v.jobs ++ [.clear] }
        | some _ => v
  | .commit i =>
    match v.jobs[i]? with
    | none => none
    | some job =>
      let rest := { v with jobs := v.jobs.eraseIdx i }
      some <|
        match job with
        | .put rec => rest.replace (some rec)
        | .clear => rest.replace none
        | .merge rec doc entry raced =>
          { rest with
            store := v.merged rec doc entry
            owed :=
              if raced && !v.finds rec then v.owed
              else Function.update v.owed doc (some entry.dek) }

end DekVault

/-- The calls of any number of tabs. -/
def vaulting (δ κ : Type*) [DecidableEq δ] : Machine (DekVault δ κ) (VaultStep δ κ) :=
  ⟨(· = .new), DekVault.step⟩

/-! ## What holds in every state -/

section Vault

variable {v v' : DekVault δ κ} {l : VaultStep δ κ} {rec cur : VaultRecord δ κ}
  {doc : δ} {entry : WrappedEntry κ} {raced : Bool} {job : VaultJob δ κ} {i : ℕ}

/-- The record opens, has the keys that were put, and no `load` is about to clear it. -/
structure Kept (v : DekVault δ κ) : Prop where
  opens : ∀ rec ∈ v.store, rec.Opens
  owed : ∀ doc dek, v.owed doc = some dek →
    ∃ rec ∈ v.store, (rec.docKeys.get doc).bind (unwrapOne rec.wrappingKey) = some dek
  loads : .clear ∉ v.jobs

/-- No entry is merged into a record of the same account under another wrapping key. -/
def Steady (v : DekVault δ κ) : VaultStep δ κ → Prop
  | .commit i => ∀ rec doc entry raced, v.jobs[i]? = some (.merge rec doc entry raced) →
      ∀ cur ∈ v.store, cur.accountId = rec.accountId → cur.wrappingKey = rec.wrappingKey
  | _ => True

/-- What the calls in flight hold. -/
structure InFlight (v : DekVault δ κ) : Prop where
  put : ∀ rec, .put rec ∈ v.jobs → rec.Opens
  entry : ∀ rec doc entry raced, .merge rec doc entry raced ∈ v.jobs →
    entry.sealedUnder = rec.wrappingKey
  current : ∀ rec doc entry, .merge rec doc entry false ∈ v.jobs →
    ∃ cur ∈ v.store, cur.accountId = rec.accountId ∧ cur.wrappingKey = rec.wrappingKey

theorem mem_map_race {jobs : List (VaultJob δ κ)} (h : job ∈ jobs.map VaultJob.race) :
    (job ∈ jobs ∧ ∀ rec doc entry raced, job ≠ .merge rec doc entry raced) ∨
      ∃ rec doc entry raced, job = .merge rec doc entry true ∧
        .merge rec doc entry raced ∈ jobs := by
  obtain ⟨j, hj, rfl⟩ := List.mem_map.1 h
  cases j with
  | merge rec doc entry raced => exact .inr ⟨rec, doc, entry, raced, rfl, hj⟩
  | _ => exact .inl ⟨hj, fun _ _ _ _ he => absurd he (by simp [VaultJob.race])⟩

/-- The calls that are left when one is done. -/
theorem InFlight.rest (h : InFlight v) (i : ℕ) : InFlight { v with jobs := v.jobs.eraseIdx i } :=
  ⟨fun rec hj => h.put rec (List.mem_of_mem_eraseIdx hj),
    fun rec doc entry raced hj => h.entry rec doc entry raced (List.mem_of_mem_eraseIdx hj),
    fun rec doc entry hj => h.current rec doc entry (List.mem_of_mem_eraseIdx hj)⟩

theorem Kept.rest (h : Kept v) (i : ℕ) : Kept { v with jobs := v.jobs.eraseIdx i } :=
  ⟨h.opens, h.owed, fun hj => h.loads (List.mem_of_mem_eraseIdx hj)⟩

/-- The calls in flight only ask which account the record is of, and under which key. -/
theorem InFlight.of_same {store : Option (VaultRecord δ κ)} {owed : δ → Option κ}
    (h : InFlight v)
    (hsame : ∀ cur ∈ v.store, ∃ cur' ∈ store, cur'.accountId = cur.accountId ∧
      cur'.wrappingKey = cur.wrappingKey) :
    InFlight { v with store, owed } := by
  refine ⟨h.put, h.entry, fun rec doc entry hj => ?_⟩
  obtain ⟨cur, hcur, hacc, hkey⟩ := h.current rec doc entry hj
  obtain ⟨cur', hcur', hacc', hkey'⟩ := hsame cur hcur
  exact ⟨cur', hcur', hacc'.trans hacc, hkey'.trans hkey⟩

theorem InFlight.replace (h : InFlight v) (store : Option (VaultRecord δ κ)) :
    InFlight (v.replace store) := by
  refine ⟨fun rec hmem => ?_, fun rec doc entry raced hmem => ?_, fun rec doc entry hmem => ?_⟩
  · obtain ⟨hj, _⟩ | ⟨_, _, _, _, he, _⟩ := mem_map_race hmem
    · exact h.put rec hj
    · exact absurd he (by simp)
  · obtain ⟨_, hne⟩ | ⟨_, _, _, _, he, hj⟩ := mem_map_race hmem
    · exact absurd rfl (hne rec doc entry raced)
    · obtain ⟨rfl, rfl, rfl, rfl⟩ := VaultJob.merge.inj he
      exact h.entry _ _ _ _ hj
  · obtain ⟨_, hne⟩ | ⟨_, _, _, _, he, _⟩ := mem_map_race hmem
    · exact absurd rfl (hne rec doc entry false)
    · exact absurd he (by simp)

/-- A record stored in place of what was there. -/
theorem Kept.replace (h : Kept v) (store : Option (VaultRecord δ κ))
    (hopens : ∀ rec ∈ store, rec.Opens) : Kept (v.replace store) := by
  refine ⟨hopens, fun _ _ howed => absurd howed (by simp [DekVault.replace]), fun hmem => ?_⟩
  obtain ⟨hj, _⟩ | ⟨_, _, _, _, he, _⟩ := mem_map_race hmem
  · exact h.loads hj
  · exact absurd he (by simp)

/-! ## `removeDocKey` -/

variable [DecidableEq δ]

theorem opens_erase (h : cur.Opens) (hne : cur.primaryDocId ≠ doc) :
    ({ cur with docKeys := cur.docKeys.erase doc } : VaultRecord δ κ).Opens := by
  refine ⟨?_, fun d entry hentry => ?_⟩
  · show ((cur.docKeys.erase doc).get cur.primaryDocId).isSome = true
    rw [FMap.get_erase_ne _ hne]
    exact h.primary
  · have hentry : (cur.docKeys.erase doc).get d = some entry := hentry
    rw [FMap.get_erase] at hentry
    split at hentry
    · exact absurd hentry (by simp)
    · exact h.own d entry hentry

theorem remove_kept (hk : Kept v) (hf : InFlight v) (hstep : v.step (.removeDocKey doc) = some v') :
    Kept v' ∧ InFlight v' := by
  obtain rfl := Option.some.inj hstep
  split
  · exact ⟨hk, hf⟩
  · rename_i cur hcur
    split
    · exact ⟨hk, hf⟩
    · rename_i hkeep
      obtain ⟨hne, _⟩ := not_or.1 hkeep
      have hopens := hk.opens cur hcur
      refine ⟨⟨fun rec hrec => ?_, fun d dek howed => ?_, hk.loads⟩, hf.of_same fun c hc => ?_⟩
      · rw [← Option.some.inj hrec]
        exact opens_erase hopens hne
      · by_cases hd : d = doc
        · subst hd
          exact absurd howed (by simp)
        · have howed : v.owed d = some dek := by simpa [hd] using howed
          obtain ⟨rec, hrec, hkey⟩ := hk.owed d dek howed
          obtain rfl := Option.some.inj (hcur.symm.trans hrec)
          refine ⟨_, rfl, ?_⟩
          show ((cur.docKeys.erase doc).get d).bind _ = _
          rw [FMap.get_erase_ne _ hd]
          exact hkey
      · obtain rfl := Option.some.inj (hcur.symm.trans hc)
        exact ⟨_, rfl, rfl, rfl⟩

/-! ## The merge of `putDocKey` -/

theorem opens_insert (h : cur.Opens) :
    ({ cur with docKeys := cur.docKeys.insert doc entry } : VaultRecord δ κ).Opens ↔
      entry.sealedUnder = cur.wrappingKey := by
  constructor
  · exact fun hopens => hopens.own doc entry (FMap.get_insert_self ..)
  · refine fun hkey => ⟨?_, fun d e he => ?_⟩
    · show ((cur.docKeys.insert doc entry).get cur.primaryDocId).isSome = true
      rw [FMap.get_insert]
      split
      · rfl
      · exact h.primary
    · have he : (cur.docKeys.insert doc entry).get d = some e := he
      rw [FMap.get_insert] at he
      split at he
      · rw [← Option.some.inj he]
        exact hkey
      · exact h.own d e he

/-- After a merge the record has what is owed. -/
theorem merge_owed (hk : Kept v) (hf : InFlight v) (hjob : .merge rec doc entry raced ∈ v.jobs)
    (hsteady : ∀ cur ∈ v.store, cur.accountId = rec.accountId → cur.wrappingKey = rec.wrappingKey)
    {d : δ} {dek : κ}
    (howed : (if raced && !v.finds rec then v.owed
      else Function.update v.owed doc (some entry.dek)) d = some dek) :
    ∃ r ∈ v.merged rec doc entry, (r.docKeys.get d).bind (unwrapOne r.wrappingKey) = some dek := by
  have hraced : (∀ cur ∈ v.store, cur.accountId ≠ rec.accountId) → raced = true := by
    intro hnone
    by_contra hfresh
    rw [Bool.not_eq_true] at hfresh
    subst hfresh
    obtain ⟨cur, hcur, hacc, _⟩ := hf.current rec doc entry hjob
    exact hnone cur hcur hacc
  by_cases hfinds : ∃ cur ∈ v.store, cur.accountId = rec.accountId
  · obtain ⟨cur, hcur, hacc⟩ := hfinds
    have htrue : v.finds rec = true := by
      rw [DekVault.finds, Option.mem_def.1 hcur]
      exact decide_eq_true hacc
    have hmerged : v.merged rec doc entry =
        some { cur with docKeys := cur.docKeys.insert doc entry } := by
      rw [DekVault.merged, Option.mem_def.1 hcur, Option.map_some, if_neg (fun hne => hne hacc)]
    refine ⟨_, hmerged, ?_⟩
    rw [htrue, Bool.not_true, Bool.and_false, if_neg Bool.false_ne_true] at howed
    show ((cur.docKeys.insert doc entry).get d).bind _ = _
    by_cases hd : d = doc
    · subst hd
      have hkey := (hf.entry _ _ _ _ hjob).trans (hsteady cur hcur hacc).symm
      rw [FMap.get_insert_self, Option.bind_some, unwrapOne, if_pos hkey]
      simpa using howed
    · rw [Function.update_of_ne hd] at howed
      obtain ⟨r, hr, hdek⟩ := hk.owed d dek howed
      obtain rfl := Option.some.inj ((Option.mem_def.1 hcur).symm.trans hr)
      rw [FMap.get_insert_ne _ _ hd]
      exact hdek
  · have hnone : ∀ cur ∈ v.store, cur.accountId ≠ rec.accountId :=
      fun cur hcur hacc => hfinds ⟨cur, hcur, hacc⟩
    have hfalse : v.finds rec = false := by
      rw [DekVault.finds]
      cases hstore : v.store with
      | none => rfl
      | some cur => exact decide_eq_false (hnone cur hstore)
    rw [hfalse, hraced hnone, Bool.not_false, Bool.and_true, if_pos rfl] at howed
    obtain ⟨r, hr, hdek⟩ := hk.owed d dek howed
    refine ⟨r, ?_, hdek⟩
    rw [DekVault.merged, Option.mem_def.1 hr, Option.map_some, if_pos (hnone r hr)]
    rfl

/-- **A merge** keeps the vault open if and only if the record it finds has the wrapping key it
sealed under, or is of another account. -/
theorem merge_kept (hk : Kept v) (hf : InFlight v)
    (hjob : .merge rec doc entry raced ∈ v.jobs) (i : ℕ) :
    let v' : DekVault δ κ :=
      { v with
        jobs := v.jobs.eraseIdx i
        store := v.merged rec doc entry
        owed :=
          if raced && !v.finds rec then v.owed else Function.update v.owed doc (some entry.dek) }
    (Kept v' ↔ ∀ cur ∈ v.store, cur.accountId = rec.accountId →
      cur.wrappingKey = rec.wrappingKey) ∧ InFlight v' := by
  have hown := hf.entry rec doc entry raced hjob
  have hmerged : ∀ cur ∈ v.store, v.merged rec doc entry =
      some (if cur.accountId ≠ rec.accountId then cur
        else { cur with docKeys := cur.docKeys.insert doc entry }) :=
    fun cur hcur => by rw [DekVault.merged, Option.mem_def.1 hcur, Option.map_some]
  refine ⟨⟨fun hk' cur hcur hacc => ?_, fun hsteady => ?_⟩, ?_⟩
  · have hopens := hk'.opens _ (hmerged cur hcur)
    rw [if_neg (fun hne => hne hacc)] at hopens
    exact ((opens_insert (hk.opens cur hcur)).1 hopens).symm.trans hown
  · have hput : ∀ cur ∈ v.store, cur.accountId = rec.accountId →
        ({ cur with docKeys := cur.docKeys.insert doc entry } : VaultRecord δ κ).Opens :=
      fun cur hcur hacc =>
        (opens_insert (hk.opens cur hcur)).2 (hown.trans (hsteady cur hcur hacc).symm)
    refine ⟨fun r hr => ?_, fun d dek howed => ?_, fun hj => hk.loads (List.mem_of_mem_eraseIdx hj)⟩
    · obtain ⟨cur, hcur, rfl⟩ := Option.map_eq_some_iff.1 hr
      split
      · exact hk.opens cur hcur
      · rename_i hacc
        exact hput cur hcur (not_not.1 hacc)
    · exact merge_owed hk hf hjob hsteady howed
  · refine (hf.rest i).of_same fun cur hcur => ⟨_, hmerged cur hcur, ?_⟩
    split
    · exact ⟨rfl, rfl⟩
    · exact ⟨rfl, rfl⟩

/-! ## Runs -/

theorem save_kept {session : VaultedSession δ κ} (hk : Kept v) (hf : InFlight v)
    (hstep : v.step (.save session) = some v') : Kept v' ∧ InFlight v' := by
  obtain ⟨rec, hrec, rfl⟩ := Option.map_eq_some_iff.1 hstep
  have hnew : ∀ job, job ∈ v.jobs ++ [VaultJob.put rec] → job ∈ v.jobs ∨ job = .put rec := by simp
  refine ⟨⟨hk.opens, hk.owed, fun hj => ?_⟩, ⟨fun r hj => ?_, fun r d e b hj => ?_,
    fun r d e hj => ?_⟩⟩
  · exact (hnew _ hj).elim hk.loads fun he => absurd he (by simp)
  · rcases hnew _ hj with hj | he
    · exact hf.put r hj
    · exact VaultJob.put.inj he ▸ opens_sealSession hrec
  · exact (hnew _ hj).elim (hf.entry r d e b) fun he => absurd he (by simp)
  · exact (hnew _ hj).elim (hf.current r d e) fun he => absurd he (by simp)

theorem putDocKey_kept {dek : κ} (hk : Kept v) (hf : InFlight v)
    (hstep : v.step (.putDocKey doc dek) = some v') : Kept v' ∧ InFlight v' := by
  obtain ⟨rec, hrec, rfl⟩ := Option.map_eq_some_iff.1 hstep
  have hnew : ∀ job, job ∈ v.jobs ++ [VaultJob.merge rec doc (wrapOne rec.wrappingKey dek) false] →
      job ∈ v.jobs ∨ job = .merge rec doc (wrapOne rec.wrappingKey dek) false := by simp
  refine ⟨⟨hk.opens, hk.owed, fun hj => ?_⟩, ⟨fun r hj => ?_, fun r d e b hj => ?_,
    fun r d e hj => ?_⟩⟩
  · exact (hnew _ hj).elim hk.loads fun he => absurd he (by simp)
  · exact (hnew _ hj).elim (hf.put r) fun he => absurd he (by simp)
  · rcases hnew _ hj with hj | he
    · exact hf.entry r d e b hj
    · obtain ⟨rfl, rfl, rfl, rfl⟩ := VaultJob.merge.inj he
      rfl
  · rcases hnew _ hj with hj | he
    · exact hf.current r d e hj
    · obtain ⟨rfl, rfl, rfl, _⟩ := VaultJob.merge.inj he
      exact ⟨_, hrec, rfl, rfl⟩

/-- `load` opens the record that is there. -/
theorem load_kept (hk : Kept v) (hstep : v.step .load = some v') : v' = v := by
  obtain rfl := Option.some.inj hstep
  cases hstore : v.store with
  | none => rfl
  | some rec =>
    have hopen := openRecord_isSome_iff.2 (hk.opens rec hstore)
    dsimp only
    cases hrec : openRecord rec with
    | none =>
      rw [hrec] at hopen
      exact absurd hopen (by simp)
    | some session => rfl

/-- **One step.** -/
theorem vault_step (hk : Kept v) (hf : InFlight v) (hstep : v.step l = some v') :
    (Kept v' ↔ Steady v l) ∧ InFlight v' := by
  cases l with
  | save session =>
    obtain ⟨hk', hf'⟩ := save_kept hk hf hstep
    exact ⟨iff_of_true hk' trivial, hf'⟩
  | putDocKey doc dek =>
    obtain ⟨hk', hf'⟩ := putDocKey_kept hk hf hstep
    exact ⟨iff_of_true hk' trivial, hf'⟩
  | removeDocKey doc =>
    obtain ⟨hk', hf'⟩ := remove_kept hk hf hstep
    exact ⟨iff_of_true hk' trivial, hf'⟩
  | clear =>
    obtain rfl := Option.some.inj hstep
    have hk' := hk.replace none fun _ hr => absurd hr (by simp)
    exact ⟨iff_of_true hk' trivial, hf.replace none⟩
  | load =>
    rw [load_kept hk hstep]
    exact ⟨iff_of_true hk trivial, hf⟩
  | commit i =>
    unfold DekVault.step at hstep
    dsimp only at hstep
    cases hjob : v.jobs[i]? with
    | none =>
      rw [hjob] at hstep
      exact absurd hstep (by simp)
    | some job =>
      have hmem : job ∈ v.jobs := List.mem_of_getElem? hjob
      rw [hjob] at hstep
      obtain rfl := Option.some.inj hstep
      cases job with
      | put rec =>
        have hopens : ∀ r ∈ some rec, r.Opens := fun r hr => Option.some.inj hr ▸ hf.put rec hmem
        refine ⟨iff_of_true ((hk.rest i).replace (some rec) hopens) ?_, (hf.rest i).replace _⟩
        intro _ _ _ _ he
        exact absurd (hjob.symm.trans he) (by simp)
      | clear => exact absurd hmem hk.loads
      | merge rec doc entry raced =>
        obtain ⟨hiff, hf'⟩ := merge_kept hk hf hmem i
        refine ⟨hiff.trans ⟨fun h r d e b he => ?_, fun h => h rec doc entry raced hjob⟩, hf'⟩
        obtain ⟨rfl, rfl, rfl, rfl⟩ := VaultJob.merge.inj (Option.some.inj (hjob.symm.trans he))
        exact h

theorem kept_of_reach (h : (vaulting δ κ).Reach Steady v) : Kept v ∧ InFlight v := by
  apply h.invariant
  · rintro v rfl
    refine ⟨⟨fun _ hr => absurd hr (by simp [DekVault.new]),
      fun _ _ ho => absurd ho (by simp [DekVault.new]), List.not_mem_nil⟩,
      ⟨fun _ hj => absurd hj List.not_mem_nil, fun _ _ _ _ hj => absurd hj List.not_mem_nil,
        fun _ _ _ hj => absurd hj List.not_mem_nil⟩⟩
  · rintro v l v' _ ⟨hk, hf⟩ hsteady hstep
    obtain ⟨hiff, hf'⟩ := vault_step hk hf hstep
    exact ⟨hiff.2 hsteady, hf'⟩

/-- **The vault opens** and keeps what was put, while no `putDocKey` merges its entry into a record
of its account under another wrapping key, and the first that does breaks it. -/
theorem vault_opens (h : (vaulting δ κ).Reach Steady v) :
    Kept v ∧ ∀ l v', v.step l = some v' → (Kept v' ↔ Steady v l) := by
  obtain ⟨hk, hf⟩ := kept_of_reach h
  exact ⟨hk, fun _ _ hstep => (vault_step hk hf hstep).1⟩

/-- The Boolean test of `Steady`. -/
def steadyb (v : DekVault δ κ) : VaultStep δ κ → Bool
  | .commit i =>
    match v.jobs[i]? with
    | some (.merge rec _ _ _) =>
      v.store.all fun cur =>
        decide (cur.accountId = rec.accountId → cur.wrappingKey = rec.wrappingKey)
    | _ => true
  | _ => true

omit [DecidableEq δ] in
theorem steady_of_steadyb (h : steadyb v l = true) : Steady v l := by
  cases l with
  | commit i =>
    intro rec doc entry raced hjob cur hcur
    rw [steadyb, hjob] at h
    dsimp only at h
    rw [Option.mem_def.1 hcur] at h
    exact of_decide_eq_true h
  | _ => trivial

end Vault

/-- A session of an account with the key of its Home doc. -/
def session (accountId : String) (home : Bool) (dek : ℕ) : VaultedSession Bool ℕ :=
  ⟨false, accountId, home, none, none, FMap.empty.insert home dek⟩

/-- A login, a key put while another account logs in, and one put for that account. -/
def loginsAndPuts : List (VaultStep Bool ℕ) :=
  [.save (session "a" true 1), .commit 0, .putDocKey false 2, .save (session "b" true 3),
    .commit 1, .commit 0, .putDocKey false 4, .commit 0, .load]

theorem vault_opens_loginsAndPuts :
    ∃ v, (vaulting Bool ℕ).exec .new loginsAndPuts = some v ∧ v.owed false = some 4 ∧ Kept v := by
  have hrun : (((vaulting Bool ℕ).exec .new loginsAndPuts).map fun v =>
      decide (v.owed false = some 4)) = some true := by
    decide
  have hok : (vaulting Bool ℕ).allStepsb steadyb .new loginsAndPuts = true := by decide
  obtain ⟨v, hv, hfacts⟩ := Option.map_eq_some_iff.1 hrun
  refine ⟨v, hv, of_decide_eq_true hfacts, (vault_opens ?_).1⟩
  exact Machine.Reach.exec (.init rfl)
    (Machine.allSteps_of_allStepsb (fun _ _ h => steady_of_steadyb h) hok) hv

/-- A key put while the same account logs in again. -/
def loginAmidPut : List (VaultStep Bool ℕ) :=
  [.save (session "a" true 1), .commit 0, .putDocKey false 2, .save (session "a" true 1),
    .commit 1, .commit 0]

/-- The record has an entry under the wrapping key of the one before, and `load` clears it. -/
theorem mixed_record_cleared :
    (∃ v, (vaulting Bool ℕ).exec .new loginAmidPut = some v ∧ ¬Kept v) ∧
      ∃ v, (vaulting Bool ℕ).exec .new (loginAmidPut ++ [.load, .commit 0]) = some v ∧
        v.store.isNone = true := by
  have hrun : (((vaulting Bool ℕ).exec .new loginAmidPut).map fun v =>
      v.store.any fun rec => (openRecord rec).isNone) = some true := by
    decide
  obtain ⟨v, hv, hfails⟩ := Option.map_eq_some_iff.1 hrun
  constructor
  · refine ⟨v, hv, fun hk => ?_⟩
    cases hstore : v.store with
    | none =>
      rw [hstore] at hfails
      exact absurd hfails (by simp)
    | some rec =>
      rw [hstore] at hfails
      have hopen := openRecord_isSome_iff.2 (hk.opens rec hstore)
      have hnone : (openRecord rec).isNone = true := hfails
      rw [Option.isNone_iff_eq_none.1 hnone] at hopen
      exact absurd hopen (by simp)
  · have hload : (((vaulting Bool ℕ).exec .new (loginAmidPut ++ [.load, .commit 0])).map fun v =>
        v.store.isNone) = some true := by
      decide
    exact Option.map_eq_some_iff.1 hload

end Monoplan.Web
