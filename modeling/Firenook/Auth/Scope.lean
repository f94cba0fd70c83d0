import Firenook.Auth.IndexExact

/-!
# Auth — the index along the operations on accounts

A `Scope` is a project's accounts with the console's index of them. The accounts go as without it
(**`Scope.state_run`**), and every operation keeps it in step, also one that fails half-way.

**`Scope.index_exact`**: in every state that such operations reach, the index is exact, and so is
the one that a rebuild would make. The states have fewer than `2 ^ 32` accounts and interners of at
most `2 ^ 32` names. The second bound is needed, because an interned id saturates
(`Scope.interned_ids_run_out`).
-/

namespace Firenook.Auth

open List Std Option ProjectState ExtTreeMap Interner Nat

variable {record props : UserRecord} {uid : Text} {k : Nat}

structure Scope where
  state : ProjectState := {}
  index : UserIndex := {}

inductive ScopeOperation where
  | account (operation : Operation)
  | rebuildIndexes

namespace Scope

variable (readings : Readings)

/-! ### Operations -/

def users (scope : Scope) : Users := scope.state.users

/-- Brings the digest up to date with the map. -/
def reindex (scope : Scope) (localId : Text) : Scope :=
  { scope with
    index :=
      match scope.users[localId]? with
      | some record => scope.index.upsert readings localId record
      | none => scope.index.remove localId }

def applyUpdate (scope : Scope) (localId : Text) (fields : UserRecord) (upserts : List JsonMap)
    (deletes : List Text) : Scope × Except ApiError UserRecord :=
  let result := scope.state.applyUpdate localId fields upserts deletes
  ({ state := result.1
     index :=
      match result.2 with
      | .ok updated => scope.index.upsert readings localId updated
      | .error _ => scope.index },
    result.2)

/-- The update that ends a creation or an import. -/
def writeProps (scope : Scope) (localId : Text) (props : UserRecord) : Scope :=
  let result := scope.applyUpdate readings localId props (providerInfos props) []
  match result.2 with
  | .ok _ => result.1
  | .error _ => result.1.reindex readings localId

def createUserWithLocalId (scope : Scope) (localId : Text) (props : UserRecord) : Scope :=
  if localId ∈ scope.users then scope
  else
    let users := scope.users.insert localId (ProjectState.blank localId)
    writeProps readings { scope with state := { scope.state with users } } localId props

def overwriteUserWithLocalId (scope : Scope) (localId : Text) (props : UserRecord) (now : Text) :
    Scope :=
  writeProps readings { scope with state := scope.state.beginOverwrite localId props now } localId
    props

def deleteUser (scope : Scope) (user : UserRecord) : Scope where
  state := scope.state.deleteUser user
  index := scope.index.remove ((strField user "localId").getD [])

def deleteUserQuietly (scope : Scope) (localId : Text) : Scope :=
  match scope.users[localId]? with
  | none => scope
  | some _ =>
    { state := scope.state.deleteUserQuietly localId, index := scope.index.remove localId }

def removeUsersQuietly (scope : Scope) (uids : List Text) : Scope :=
  uids.foldl deleteUserQuietly scope

def deleteAllAccounts (scope : Scope) : Scope where
  state := scope.state.deleteAllAccounts
  index := scope.index.clear

def rebuildIndexes (scope : Scope) : Scope where
  state := scope.state.rebuildIndexes
  index := UserIndex.build readings scope.users

def step (scope : Scope) : ScopeOperation → Scope
  | .account (.create uid props) => scope.createUserWithLocalId readings uid props
  | .account (.overwrite uid props now) =>
    scope.overwriteUserWithLocalId readings uid props now
  | .account (.update uid fields upserts deletes) =>
    (scope.applyUpdate readings uid fields upserts deletes).1
  | .account (.deleteUser user) => scope.deleteUser user
  | .account (.deleteUserQuietly uid) => scope.deleteUserQuietly uid
  | .account (.removeUsersQuietly uids) => scope.removeUsersQuietly uids
  | .account .deleteAllAccounts => scope.deleteAllAccounts
  | .rebuildIndexes => scope.rebuildIndexes readings

/-- Fewer accounts than slot numbers. -/
def Few (scope : Scope) : Prop := scope.users.size < 2 ^ 32

/-- And no more interned names than ids. -/
def Fits (scope : Scope) : Prop := scope.Few ∧ scope.index.data.Fits

/-- The scopes that operations reach through scopes that are `small`. -/
inductive Run (small : Scope → Prop) : Scope → Prop
  | start : Run small {}
  | next {scope : Scope} (operation : ScopeOperation) : Run small scope →
      small (scope.step readings operation) → Run small (scope.step readings operation)

variable {readings} {scope : Scope}

/-! ### The accounts are those of the operations -/

theorem state_writeProps (uid : Text) (props : UserRecord) :
    (scope.writeProps readings uid props).state
      = (scope.state.applyUpdate uid props (providerInfos props) []).1 := by
  unfold writeProps
  dsimp only
  split <;> rfl

theorem state_deleteUserQuietly (scope : Scope) (uid : Text) :
    (scope.deleteUserQuietly uid).state = scope.state.deleteUserQuietly uid := by
  rw [deleteUserQuietly]
  split
  · next hnn =>
    have hnn : scope.state.users[uid]? = none := hnn
    rw [ProjectState.deleteUserQuietly, hnn]
  · rfl

theorem state_removeUsersQuietly (scope : Scope) (uids : List Text) :
    (scope.removeUsersQuietly uids).state = scope.state.removeUsersQuietly uids := by
  induction uids generalizing scope with
  | nil => rfl
  | cons uid uids ih =>
    refine (ih (scope.deleteUserQuietly uid)).trans ?_
    rw [state_deleteUserQuietly]
    rfl

/-- The accounts do not depend on the index. -/
theorem state_step (scope : Scope) (op : Operation) :
    (scope.step readings (.account op)).state = scope.state.step op := by
  cases op with
  | create uid props =>
    unfold step ProjectState.step createUserWithLocalId ProjectState.createUserWithLocalId users
    dsimp only
    split
    · rfl
    · exact state_writeProps uid props
  | overwrite uid props now => exact state_writeProps uid props
  | update uid fields upserts deletes => rfl
  | deleteUser user => rfl
  | deleteUserQuietly uid => exact state_deleteUserQuietly scope uid
  | removeUsersQuietly uids => exact state_removeUsersQuietly scope uids
  | deleteAllAccounts => rfl

/-- **The index leaves the accounts alone**: any operations make of them what they do without it. -/
theorem state_run (scope : Scope) (ops : List ScopeOperation) :
    (ops.foldl (step readings) scope).state = ops.foldl (fun state op =>
          match op with
          | .account op => state.step op
          | .rebuildIndexes => state.rebuildIndexes) scope.state := by
  induction ops generalizing scope with
  | nil => rfl
  | cons op ops ih =>
    rw [foldl_cons, foldl_cons, ih]
    cases op with
    | account op => rw [state_step]
    | rebuildIndexes => rfl

/-! ### Every operation keeps the index exact -/

/-- An update that succeeds writes its record; one that fails writes none. -/
theorem users_applyUpdate (state : ProjectState) (uid : Text) (fields : UserRecord)
    (upserts : List JsonMap) (deletes : List Text) :
    (state.applyUpdate uid fields upserts deletes).1.users
      = match (state.applyUpdate uid fields upserts deletes).2 with
        | .ok updated => state.users.insert uid updated
        | .error _ => state.users := by
  unfold ProjectState.applyUpdate
  split
  · rfl
  · dsimp only
    split <;> rfl

theorem insert_insert (users : Users) (uid : Text) (record record' : UserRecord) :
    (users.insert uid record).insert uid record' = users.insert uid record' :=
  ChangeLog.put_put users uid (some record) (some record')

theorem exact_applyUpdate (h : Exact readings scope.index scope.users) (hfew : scope.Few)
    {fields : UserRecord} {upserts : List JsonMap} {deletes : List Text}
    (hft : (scope.applyUpdate readings uid fields upserts deletes).1.index.data.Fits) :
    Exact readings (scope.applyUpdate readings uid fields upserts deletes).1.index
      (scope.applyUpdate readings uid fields upserts deletes).1.users := by
  simp only [applyUpdate, users, users_applyUpdate] at hft ⊢
  split
  · next updated hres =>
    rw [hres] at hft
    exact h.upsert hfew hft
  · exact h

/-- A creation or an import, once it has put its first record: the index is still that of the
accounts before. -/
theorem exact_writeProps (scope : Scope) {before : Users} (h : Exact readings scope.index before)
    (hfew : before.size < 2 ^ 32) (hput : scope.users = before.insert uid record)
    (hft : (scope.writeProps readings uid props).index.data.Fits) :
    Exact readings (scope.writeProps readings uid props).index
      (scope.writeProps readings uid props).users := by
  have husr := users_applyUpdate scope.state uid props (providerInfos props) []
  change scope.state.users = _ at hput
  rw [users, state_writeProps, husr]
  unfold writeProps applyUpdate at hft ⊢
  cases hres : (scope.state.applyUpdate uid props (providerInfos props) []).2 with
  | ok updated =>
    simp only [hres] at hft ⊢
    rw [hput, insert_insert]
    exact h.upsert hfew hft
  | error e =>
    simp only [hres] at hft husr ⊢
    have hget : (before.insert uid record)[uid]? = some record :=
      getElem?_insert_self
    simp only [reindex, users, husr, hput, hget] at hft ⊢
    exact h.upsert hfew hft

theorem exact_deleteUserQuietly (h : Exact readings scope.index scope.users) (uid : Text) :
    Exact readings (scope.deleteUserQuietly uid).index (scope.deleteUserQuietly uid).users := by
  unfold deleteUserQuietly
  cases hus : scope.users[uid]? with
  | none => exact h
  | some user =>
    have hus : scope.state.users[uid]? = some user := hus
    have hers : (scope.state.deleteUserQuietly uid).users = scope.state.users.erase uid := by
      rw [ProjectState.deleteUserQuietly, hus]
    simp only [users, hers]
    exact h.remove uid

theorem exact_removeUsersQuietly (h : Exact readings scope.index scope.users) (uids : List Text) :
    Exact readings (scope.removeUsersQuietly uids).index (scope.removeUsersQuietly uids).users := by
  induction uids generalizing scope with
  | nil => exact h
  | cons uid uids ih => exact ih (exact_deleteUserQuietly h uid)

theorem exact_step (h : Exact readings scope.index scope.users) (hfew : scope.Few)
    (op : ScopeOperation) (hft : (scope.step readings op).Fits) :
    Exact readings (scope.step readings op).index (scope.step readings op).users := by
  cases op with
  | rebuildIndexes => exact Exact.build hfew hft.2
  | account op =>
    cases op with
    | create uid props =>
      have hft := hft.2
      simp only [step, createUserWithLocalId] at hft ⊢
      split
      · exact h
      next hnew =>
      rw [if_neg hnew] at hft
      exact exact_writeProps ⟨⟨scope.users.insert uid (blank uid),
        scope.state.indexes⟩, scope.index⟩ h hfew rfl hft
    | overwrite uid props now =>
      exact exact_writeProps
        { scope with state := scope.state.beginOverwrite uid props now } h hfew rfl hft.2
    | update uid fields upserts deletes => exact exact_applyUpdate h hfew hft.2
    | deleteUser user => exact h.remove _
    | deleteUserQuietly uid => exact exact_deleteUserQuietly h uid
    | removeUsersQuietly uids => exact exact_removeUsersQuietly h uids
    | deleteAllAccounts => exact Exact.empty readings

theorem fits_of_run (run : Run readings Fits scope) : scope.Fits := by
  cases run with
  | start => exact ⟨Nat.two_pow_pos 32, Nat.zero_le _, Nat.zero_le _⟩
  | next op run hft => exact hft

theorem exact_of_run (run : Run readings Fits scope) : Exact readings scope.index scope.users := by
  induction run with
  | start => exact Exact.empty readings
  | next op run hft ih => exact exact_step ih (fits_of_run run).1 op hft

/-- **The console's index is exact** in every state that operations on accounts reach, while the
accounts and the interned names are numbered, and it is the index a rebuild would make, up to
slots and interned ids. -/
theorem index_exact (run : Run readings Fits scope) : Exact readings scope.index scope.users
      ∧ Exact readings (UserIndex.build readings scope.users) scope.users := by
  have h := exact_of_run run
  have hft := fits_of_run run
  exact ⟨h, Exact.build hft.1 (h.fits_build hft.2)⟩

/-! ### Interned ids run out -/

def plain : Readings where
  emailKey text := text
  lowercase text := text
  millis _ := none
  claimNames _ := []
  claimNames_nodup _ := .nil

theorem index_exact_created :
    Exact plain (({} : Scope).step plain (.account (.create (ascii "u") ∅))).index
      (({} : Scope).step plain (.account (.create (ascii "u") ∅))).users :=
  (index_exact (.next _ .start ⟨show _ < _ by decide +kernel, by decide +kernel,
    by decide +kernel⟩)).1

/-- The `k`-th provider, its entry, and the record of an account that has it last. -/
def providerName (k : Nat) : Text := replicate (k + 1) 0x61

def providerEntry (k : Nat) : JsonMap := [(ascii "providerId", .string (providerName k))]

def account : Text := ascii "u"

def recordAt : Nat → UserRecord
  | 0 => ProjectState.blank account
  | k + 1 => withInfos (ProjectState.blank account) [providerEntry k]

/-- Links the `k`-th provider in place of the one before. -/
def relink (k : Nat) : ScopeOperation :=
  .account (.update account ∅ [providerEntry k] [providerName (k - 1)])

theorem providerName_inj {j : Nat} (h : providerName j = providerName k) : j = k := by
  have hlen := congrArg length h
  simpa [providerName] using hlen

theorem infoField_providerEntry (k : Nat) :
    infoField (providerEntry k) "providerId" = some (providerName k) := by
  simp [infoField, providerEntry, Assoc.get, Json.asStr]

theorem getElem?_recordAt (k : Nat) {field : Text} (hid : ascii "localId" ≠ field)
    (hin : ascii "providerUserInfo" ≠ field) : (recordAt k)[field]? = none := by
  cases k with
  | zero => exact getElem?_blank hid
  | succ k => rw [recordAt, getElem?_withInfos hin, getElem?_blank hid]

theorem truthyStr_recordAt (k : Nat) (field : String) (hid : ascii "localId" ≠ ascii field)
    (hin : ascii "providerUserInfo" ≠ ascii field) : truthyStr (recordAt k) field = none := by
  rw [truthyStr, strField, getElem?_recordAt k hid hin]
  rfl

theorem withInfos_withInfos (user : UserRecord) (infos infos' : List JsonMap) :
    withInfos (withInfos user infos) infos' = withInfos user infos' := by
  refine ExtTreeMap.ext_getElem? fun field => ?_
  simp only [withInfos, ExtTreeMap.getElem?_insert]
  split <;> rfl

/-- Relinking writes the next record. -/
theorem updatedRecord_recordAt (k : Nat) (deletes : List Text)
    (h : providerName (k - 1) ∈ deletes) :
    updatedRecord (recordAt k) [providerEntry k] deletes = recordAt (k + 1) := by
  cases k with
  | zero =>
    have hnn : (blank account)[ascii "providerUserInfo"]? = none :=
      getElem?_blank (by decide)
    simp [updatedRecord, recordAt, keepProviders, upsertProviders, providerInfos, objects, hnn,
      upsertInfo]
  | succ k =>
    have hkp : keepProviders (recordAt (k + 1)) deletes = withInfos (blank account) [] := by
      have hent : entryProvider (providerEntry k) = providerName k := by
        rw [entryProvider, infoField_providerEntry, getD_some]
      have harr : (recordAt (k + 1))[ascii "providerUserInfo"]?
          = some (.array ([providerEntry k].map .object)) :=
        getElem?_insert_self
      have hdr : (providerInfos (recordAt (k + 1))).filter
          (fun info => !deletes.contains (entryProvider info)) = [] := by
        simpa [recordAt, hent] using h
      simp only [keepProviders, harr, bind_some, Json.asArray, hdr]
      exact withInfos_withInfos ..
    rw [updatedRecord, hkp]
    simp [upsertProviders, upsertInfo, withInfos_withInfos, recordAt]

theorem allUpserts_recordAt (k : Nat) (upserts : List JsonMap) :
    allUpserts (recordAt k) upserts = upserts := by
  have hpw : passwordInfo (recordAt k) = none := by
    rw [passwordInfo, truthyStr_recordAt k _ (by decide) (by decide)]
  have hphn : phoneInfo (recordAt k) = none := by
    rw [phoneInfo, truthyStr_recordAt k _ (by decide) (by decide)]
    rfl
  rw [allUpserts, hpw, hphn, toList_none, append_nil, append_nil]

/-- An update that sets no field writes the provider entries. -/
theorem applyUpdate_recordAt (k : Nat) (state : ProjectState) (upserts : List JsonMap)
    (deletes : List Text) (h : state.users[account]? = some (recordAt k)) :
    (state.applyUpdate account ∅ upserts deletes).2
      = .ok (updatedRecord (recordAt k) upserts (allDeletes (recordAt k) deletes)) := by
  have hmir : mirror (recordAt k) ∅ = recordAt k := rfl
  have hmfa : checkMfa (recordAt k) = .ok () := by
    rw [checkMfa, getElem?_recordAt k (by decide) (by decide)]
    rfl
  simp [ProjectState.applyUpdate, h, hmir, hmfa, updateUserProviderInfo, allUpserts_recordAt]

theorem step_relink (readings : Readings) (h : scope.users[account]? = some (recordAt k)) :
    (scope.step readings (relink k)).index = scope.index.upsert readings account (recordAt (k + 1))
      ∧ (scope.step readings (relink k)).users = scope.users.insert account (recordAt (k + 1)) := by
  have hres := applyUpdate_recordAt k scope.state [providerEntry k] [providerName (k - 1)] h
  rw [updatedRecord_recordAt k _ (by simp [allDeletes])] at hres
  have husr := users_applyUpdate scope.state account ∅ [providerEntry k] [providerName (k - 1)]
  rw [hres] at husr
  refine ⟨?_, husr⟩
  simp [relink, step, applyUpdate, hres]

theorem writeProps_of_ok (readings : Readings) (scope : Scope) {updated : UserRecord}
    (h : (scope.state.applyUpdate uid props (providerInfos props) []).2 = .ok updated) :
    (scope.writeProps readings uid props).index = scope.index.upsert readings uid updated
      ∧ (scope.writeProps readings uid props).users = scope.users.insert uid updated := by
  have husr := users_applyUpdate scope.state uid props (providerInfos props) []
  rw [h] at husr
  refine ⟨?_, ?_⟩
  · simp [writeProps, applyUpdate, h]
  · rw [users, state_writeProps]
    exact husr

theorem step_create (readings : Readings) :
    (({} : Scope).step readings (.account (.create account ∅))).index
        = ({} : UserIndex).upsert readings account (recordAt 0)
      ∧ (({} : Scope).step readings (.account (.create account ∅))).users
        = (∅ : Users).insert account (recordAt 0) := by
  have hget : ((∅ : Users).insert account (recordAt 0))[account]? = some (recordAt 0) :=
    getElem?_insert_self
  have hres := applyUpdate_recordAt 0 ⟨(∅ : Users).insert account (recordAt 0), {}⟩ [] [] hget
  obtain ⟨hidx, husr⟩ := writeProps_of_ok readings
    ⟨⟨(∅ : Users).insert account (recordAt 0), {}⟩, {}⟩ hres
  exact ⟨hidx, husr.trans (insert_insert ..)⟩

/-- The names that an upsert of such a record interns. -/
theorem interners_upsert_recordAt (readings : Readings) (index : UserIndex) (k : Nat) :
    (index.upsert readings account (recordAt k)).data.providers
        = (index.data.providers.internNew (providerNames (recordAt k)) []).1
      ∧ (index.upsert readings account (recordAt k)).data.claimNames = index.data.claimNames := by
  obtain ⟨hpr, hclm⟩ := upsert_interners readings index account (recordAt k)
  refine ⟨hpr, hclm.trans ?_⟩
  have htx : claimsOf readings (recordAt k) = ([], none) := by
    rw [claimsOf, truthyStr_recordAt k _ (by decide) (by decide)]
  dsimp [IndexData.buildDigest, IndexData.buildClaims]
  rw [htx]
  split
  · split <;> rfl
  · rfl

theorem providerNames_recordAt (k : Nat) : providerNames (recordAt (k + 1)) = [providerName k] := by
  simp [providerNames, recordAt, infoField_providerEntry]

/-- The account has gone through `k` providers. -/
structure Relinked (readings : Readings) (k : Nat) (scope : Scope) : Prop where
  run : Run readings Fits scope
  users : scope.users = (∅ : Users).insert account (recordAt k)
  providers : scope.index.data.providers.names = (range k).map providerName
  claims : scope.index.data.claimNames.names = []

theorem few_of_users (h : scope.users = (∅ : Users).insert account record) : scope.Few := by
  have hle := size_insert_le (t := (∅ : Users)) (k := account) (v := record)
  rw [size_empty] at hle
  rw [Few, h]
  omega

theorem relinked_zero (readings : Readings) :
    Relinked readings 0 (({} : Scope).step readings (.account (.create account ∅))) := by
  obtain ⟨hidx, husr⟩ := step_create readings
  obtain ⟨hpr, hclm⟩ := interners_upsert_recordAt readings {} 0
  have hnn : providerNames (recordAt 0) = [] := by
    have hnn : (blank account)[ascii "providerUserInfo"]? = none :=
      getElem?_blank (by decide)
    simp [providerNames, recordAt, providerInfos, objects, hnn]
  have hnms := congrArg names hpr
  have hky := congrArg names hclm
  refine ⟨.next _ .start ⟨few_of_users husr, ?_, ?_⟩, husr, hnms, hky⟩
  · exact zero_le _
  · exact zero_le _

/-- A provider that was never linked is not interned. -/
theorem Relinked.fresh (h : Relinked readings k scope) :
    scope.index.data.providers.ids[providerName k]? = none := by
  cases hid : scope.index.data.providers.ids[providerName k]? with
  | none => rfl
  | some id =>
    have hmem := mem_of_getElem? (((exact_of_run h.run).providersOk _ _).mp hid)
    rw [h.providers] at hmem
    obtain ⟨j, hj, heq⟩ := mem_map.mp hmem
    rw [providerName_inj heq] at hj
    exact absurd (mem_range.mp hj) (lt_irrefl k)

/-- Its interner after one more provider. -/
theorem Relinked.names (h : Relinked readings k scope) :
    (scope.index.upsert readings account (recordAt (k + 1))).data.providers.names
      = (range (k + 1)).map providerName := by
  rw [(interners_upsert_recordAt readings scope.index (k + 1)).1, providerNames_recordAt]
  simp only [internNew, intern, h.fresh, h.providers]
  rw [range_succ, map_append, map_singleton]

theorem Relinked.get (h : Relinked readings k scope) :
    scope.users[account]? = some (recordAt k) := by
  rw [h.users]
  exact getElem?_insert_self

theorem Relinked.next (h : Relinked readings k scope) (hk : k < 2 ^ 32) :
    Relinked readings (k + 1) (scope.step readings (relink k)) := by
  obtain ⟨hidx, husr⟩ := step_relink readings h.get
  have hnms := h.names
  have hky := congrArg Interner.names (interners_upsert_recordAt readings scope.index (k + 1)).2
  rw [← hidx] at hnms hky
  rw [h.users] at husr
  rw [h.claims] at hky
  refine ⟨.next _ h.run ⟨few_of_users husr, ?_, ?_⟩, husr, hnms, hky⟩
  · rw [hnms, length_map, length_range]
    exact hk
  · rw [hky]
    exact zero_le _

theorem exists_relinked (readings : Readings) (k : Nat) (hk : k ≤ 2 ^ 32) :
    ∃ scope, Relinked readings k scope := by
  induction k with
  | zero => exact ⟨_, relinked_zero readings⟩
  | succ k ih =>
    obtain ⟨scope, h⟩ := ih (le_of_succ_le hk)
    exact ⟨_, h.next hk⟩

theorem Run.few (run : Run readings Fits scope) : Run readings Few scope := by
  induction run with
  | start => exact .start
  | next op run hft ih => exact .next op ih hft.1

/-- An upsert puts the digest it built in the slot of the account. -/
theorem slot_upsert {index : UserIndex} {users : Users} (h : Exact readings index users)
    {slot : Nat} (hsl : index.data.byUid[uid]? = some slot) (record : UserRecord) :
    (index.upsert readings uid record).data.slots[slot]? = some (some
      (index.data.buildDigest readings uid record
        (index.data.byUid[uid]?.bind index.data.digest)).2) := by
  obtain ⟨d, -, hget, -, -, -⟩ := h.slot_of_mem hsl
  have hdig := digest_of_slot hget
  simp only [UserIndex.upsert, hsl, bind_some, hdig]
  split
  · next hsm => exact hget.trans (congrArg some hsm)
  · exact (getElem?_set_slot hget _ slot).trans (if_pos rfl)

/-- One provider more than there are ids: the digest names another one. -/
theorem Relinked.lost (h : Relinked readings k scope) (hk : maxU32 < k) :
    ∃ (slot : Nat) (d : UserDigest Nat) (record : UserRecord),
      (scope.step readings (relink k)).index.data.slots[slot]? = some (some d)
      ∧ (scope.step readings (relink k)).users[d.profile.uid]? = some record
      ∧ ¬DigestReads (scope.step readings (relink k)).index.data d
          (digestOf readings d.profile.uid record) := by
  obtain ⟨hidx, husr⟩ := step_relink readings h.get
  have hex := exact_of_run h.run
  obtain ⟨slot, hsl⟩ := (hex.accounts account).mp (mem_iff_isSome_getElem?.mpr (by rw [h.get]; rfl))
  refine ⟨slot, _, recordAt (k + 1), hidx ▸ slot_upsert hex hsl (recordAt (k + 1)), ?_, ?_⟩
  · rw [husr]
    exact getElem?_insert_self
  intro hrd
  have hpr := hrd.providers
  rw [hidx] at hpr
  have hid : (scope.index.data.providers.internNew (providerNames (recordAt (k + 1))) []).2
      = [maxU32] := by
    rw [providerNames_recordAt]
    simp [internNew, intern, h.fresh, h.providers, pushNew, Nat.min_eq_right (Nat.le_of_lt hk)]
  change Interner.Reads _ (scope.index.data.providers.internNew _ []).2
    (digestOf readings account (recordAt (k + 1))).providers at hpr
  rw [hid, Interner.Reads, h.names, map_singleton,
    List.getElem?_map, List.getElem?_range (lt_succ_of_lt hk)] at hpr
  have heq := some.inj (List.cons.inj hpr).1
  exact absurd (providerName_inj heq) (Nat.ne_of_lt hk)

/-- **Interned ids run out**: with one account only, a digest that is not that of its record. -/
theorem interned_ids_run_out : ∃ scope, Run plain Few scope
    ∧ ∃ (slot : Nat) (d : UserDigest Nat) (record : UserRecord),
      scope.index.data.slots[slot]? = some (some d)
      ∧ scope.users[d.profile.uid]? = some record
      ∧ ¬DigestReads scope.index.data d (digestOf plain d.profile.uid record) := by
  obtain ⟨scope, h⟩ := exists_relinked plain (2 ^ 32) (Nat.le_refl _)
  obtain ⟨-, husr⟩ := step_relink plain h.get
  rw [h.users] at husr
  exact ⟨_, .next (relink (2 ^ 32)) h.run.few (few_of_users husr), h.lost (by decide)⟩

end Scope

end Firenook.Auth
