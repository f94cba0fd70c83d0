import Firenook.Auth.Lookups
import Firenook.Support.Fallible

/-!
# Auth — imports and refused changes

`importOne` stores one account of a batch: it builds the record's fields while it checks the entry
against the accounts, and then overwrites the account.

The second factors of a record are checked after its first changes, so a refused operation can
leave traces: **`ProjectState.refused_unchanged`** says when the accounts and the lookups are as
before. A refused creation always leaves the new account (`refused_create_stays`).
-/

namespace Firenook.Auth

open List Std Option ExtTreeMap Indexes
open Fallible (exists_of_not_isOk map_eq_error)

/-! ### Imports -/

def isValidPhone (phone : Text) : Bool := phone.head? = some 0x2B

def isValidEmail (email : Text) : Bool :=
  match email.span (· ≠ 0x40) with
  | (name, _ :: domain) =>
    !name.isEmpty && !domain.isEmpty && !name.contains 0x40 && !domain.contains 0x40
  | _ => false

/-- What an import reads besides the entry and the accounts. -/
structure Importer where
  tenantId : Option Text
  oneAccountPerEmail : Bool
  allowOverwrite : Bool
  sanityCheck : Bool
  /-- `now_millis`, as text. -/
  uploadTime : Text
  nowSeconds : Text
  nowIso : Text
  fakeSalt : Text
  /-- The id drawn for the enrollment at a position. -/
  newRandomId : Nat → Text
  canonicalizeEmail : Text → Text
  validateClaims : Text → Except ApiError Unit
  /-- Whether the text, trimmed, is not empty and reads as a number. -/
  isNumber : Text → Bool

def ensure (condition : Bool) (message : Text) : Except ApiError Unit :=
  if condition then .ok () else .error (.badRequest message)

def hashPassword (password salt : Text) : Text :=
  ascii "fakeHash:salt=" ++ salt ++ ascii ":password=" ++ password

/-- No account answers, or the one with this id. -/
def isOwn (localId : Text) (existing : Option UserRecord) : Bool :=
  existing.all fun user => strField user "localId" = some localId

section

variable (env : Importer)

def createdIsNumeric : Json → Bool
  | .number _ _ | .bool _ | .null => true
  | .string text => env.isNumber text
  | .array _ | .object _ => false

/-- The provider entries of an import. -/
def importProviders (state : ProjectState) (localId : Text) :
    List JsonMap → Except ApiError (List Json)
  | [] => .ok []
  | entry :: entries =>
    let provider := truthyInfo entry "providerId"
    if provider = some (ascii "password") ∨ provider = some (ascii "phone") then
      importProviders state localId entries
    else
      match provider, truthyInfo entry "rawId" with
      | some provider, some raw => do
        ensure (isOwn localId (state.lookup (.raw provider raw)))
          (ascii "raw id exists in other account in database")
        let rest ← importProviders state localId entries
        return .object (Assoc.insert (ascii "rawId") (.string raw)
          (Assoc.insert (ascii "providerId") (.string provider) entry)) :: rest
      | _, _ =>
        if Json.truthy (Assoc.get (ascii "federatedId") entry) then
          .error (.badRequest (ascii "((Parsing federatedId is not implemented in Auth Emulator; please specify providerId AND rawId as a workaround.))"))
        else .error (.badRequest (ascii "federatedId or (providerId & rawId) is required"))

/-- The enrollment ids of an entry are distinct. -/
def checkEnrollmentIds : List Json → List Text → Except ApiError Unit
  | [], _ => .ok ()
  | enrollment :: enrollments, ids =>
    match truthyInfo (enrollment.asObject.getD []) "mfaEnrollmentId" with
    | none => checkEnrollmentIds enrollments ids
    | some id => do
      ensure (id ∉ ids) (ascii "Enrollment id already exists.")
      checkEnrollmentIds enrollments (ids ++ [id])

def importEnrollment (enrollment : Json) (position : Nat) : Except ApiError Json := do
  let entry := enrollment.asObject.getD []
  let id := (truthyInfo entry "mfaEnrollmentId").getD (env.newRandomId position)
  let enrolledAt := (truthyInfo entry "enrolledAt").getD env.nowIso
  let entry := Assoc.insert (ascii "enrolledAt") (.string enrolledAt)
    (Assoc.insert (ascii "mfaEnrollmentId") (.string id) entry)
  match truthyInfo entry "phoneInfo" with
  | none => .error (.badRequest (ascii "Second factor not supported."))
  | some phone =>
    ensure (isValidPhone phone) (ascii "Phone number format is invalid")
    return .object (Assoc.insert (ascii "unobfuscatedPhoneInfo") (.string phone) entry)

/-- `import_one` up to the write: the id and the fields of the record. -/
def importFields (state : ProjectState) (info : UserRecord) :
    Except ApiError (Text × UserRecord) := do
  let some uid := truthyStr info "localId"
    | .error (.badRequest (ascii "localId is missing"))
  let mut fields : UserRecord := ∅
  for field in ["displayName", "photoUrl", "lastLoginAt"] do
    fields := fields.insert (ascii field) (info[ascii field]?.getD .null)
  ensure ((truthyStr info "tenantId").all fun tenant => env.tenantId = some tenant)
    (ascii "Tenant id in userInfo does not match the tenant id in request.")
  if let some tenant := env.tenantId then
    fields := fields.insert (ascii "tenantId") (.string tenant)
  let updatedAt := Json.number env.uploadTime (env.uploadTime == ascii "0")
  if let some hash := truthyStr info "passwordHash" then
    fields := fields.insert (ascii "passwordHash") (.string hash)
    fields := fields.insert (ascii "salt") (info[ascii "salt"]?.getD .null)
    fields := fields.insert (ascii "passwordUpdatedAt") updatedAt
  else if let some password := truthyStr info "rawPassword" then
    let salt := (truthyStr info "salt").getD env.fakeSalt
    fields := fields.insert (ascii "passwordHash") (.string (hashPassword password salt))
    fields := fields.insert (ascii "salt") (.string salt)
    fields := fields.insert (ascii "passwordUpdatedAt") updatedAt
  if let some claims := truthyStr info "customAttributes" then
    env.validateClaims claims
    fields := fields.insert (ascii "customAttributes") (.string claims)
  if Json.truthy info[ascii "providerUserInfo"]? then
    let providers ← importProviders state uid (providerInfos info)
    fields := fields.insert (ascii "providerUserInfo") (.array providers)
  if let some phone := truthyStr info "phoneNumber" then
    ensure (isValidPhone phone) (ascii "phone number format is invalid")
    fields := fields.insert (ascii "phoneNumber") (.string phone)
  fields := fields.insert (ascii "validSince") (.string env.nowSeconds)
  let created := info[ascii "createdAt"]?.filter (createdIsNumeric env)
  fields := fields.insert (ascii "createdAt") (created.getD (.string env.uploadTime))
  if let some email := truthyStr info "email" then
    ensure (isValidEmail email) (ascii "email is invalid")
    ensure (isOwn uid (state.lookup (.email email)))
      (if env.sanityCheck && env.oneAccountPerEmail then
        ascii "email exists in other account in database"
      else ascii "((Auth Emulator does not support importing duplicate email: " ++ email ++ ascii "))")
    fields := fields.insert (ascii "email") (.string (env.canonicalizeEmail email))
  for field in ["emailVerified", "disabled"] do
    fields := fields.insert (ascii field) (.bool (Json.truthy info[ascii field]?))
  let enrollments := (info[ascii "mfaInfo"]?.bind Json.asArray).getD []
  if !enrollments.isEmpty then
    ensure (Json.truthy fields[ascii "email"]?)
      (ascii "Second factor account requires email to be presented.")
    ensure (Json.truthy fields[ascii "emailVerified"]?)
      (ascii "Second factor account requires email to be verified.")
    checkEnrollmentIds enrollments []
    let imported ← enrollments.zipIdx.mapM fun e => importEnrollment env e.1 e.2
    fields := fields.insert (ascii "mfaInfo") (.array imported)
  ensure (uid ∉ state.users || env.allowOverwrite)
    (ascii "localId belongs to an existing account - can not overwrite.")
  return (uid, fields)

end

namespace ProjectState

/-- `import_one`; `now` is the clock of the write. -/
def importOne (state : ProjectState) (env : Importer) (info : UserRecord) (now : Text) :
    ProjectState × Except ApiError Unit :=
  match importFields env state info with
  | .error e => (state, .error e)
  | .ok (uid, fields) =>
    let result := state.overwriteUserWithLocalId uid fields now
    (result.1, result.2.map fun _ => ())

/-! ### Refused changes -/

/-- Whether the operation ends in an error. -/
def refused (state : ProjectState) : Operation → Bool
  | .create uid props => !(state.createUserWithLocalId uid props).2.isOk
  | .overwrite uid props now => !(state.overwriteUserWithLocalId uid props now).2.isOk
  | .update uid fields upserts deletes =>
    !(state.applyUpdate uid fields upserts deletes).2.isOk
  | _ => false

/-- The accounts and the answers of the lookups are the same. -/
def Unchanged (before after : ProjectState) : Prop :=
  after.users = before.users ∧ ∀ v, after.lookup v = before.lookup v

end ProjectState

def setsPasskeys (fields : UserRecord) : Bool :=
  fields[ascii "passkeyInfo"]?.any fun value => !value.isNull

/-- What an update has filed when it checks the second factors, and what it has taken out. -/
def filed (old fields : UserRecord) : List Identity :=
  let user := mirror old fields
  (if setsPasskeys fields then passkeyIdentities user else [])
    ++ ((truthyStr user "email").map .email).toList
    ++ ((truthyStr user "initialEmail").map .initialEmail).toList
    ++ ((truthyStr user "phoneNumber").map .phone).toList

@[inherit_doc filed] def withdrawn (old fields : UserRecord) : List Identity :=
  (if setsPasskeys fields then passkeyIdentities old else [])
    ++ ((truthyStr old "email").map .email).toList
    ++ ((truthyStr old "phoneNumber").map .phone).toList

variable {uid now : Text} {fields old props : UserRecord} {upserts : List JsonMap}
  {deletes : List Text} {state : ProjectState}

theorem find_filed (indexes : Indexes) (uid : Text) (old fields : UserRecord) (v : Identity) :
    (indexes.moveFields uid fields old (mirror old fields)).find v =
      if v ∈ filed old fields then some uid
      else if v ∈ withdrawn old fields then none else indexes.find v := by
  have hps : indexes.movePasskeys uid fields old (mirror old fields) =
      if setsPasskeys fields then (indexes.dropAll (passkeyIdentities old)).putAll uid
        (passkeyIdentities (mirror old fields)) else indexes := rfl
  simp only [moveFields, hps, find_move, find_putAll, filed, withdrawn]
  by_cases hset : setsPasskeys fields = true <;>
    cases v <;> simp [hset, find_putAll, find_dropAll, not_mem_passkeyIdentities]

namespace ProjectState

/-- The lookups answer already as they would after the refused update. -/
def Settled (state : ProjectState) (old fields : UserRecord) : Prop :=
  (∀ v ∈ filed old fields, state.lookup v = some old) ∧
    ∀ v ∈ withdrawn old fields, v ∉ filed old fields → state.lookup v = none

/-- When a refused operation leaves no trace: a creation never, an import over the very record it
starts from, and an update of no account or of one whose lookups stay. -/
def Traceless (state : ProjectState) : Operation → Prop
  | .create _ _ => False
  | .overwrite uid props now => state.users[uid]? = some (imported uid now props) ∧
      state.Settled (imported uid now props) props
  | .update uid fields _ _ =>
    ∀ old, state.users[uid]? = some old → state.Settled old fields
  | _ => True

theorem applyUpdate_refused {e : ApiError} (hold : state.users[uid]? = some old)
    (h : (state.applyUpdate uid fields upserts deletes).2 = .error e) :
    (state.applyUpdate uid fields upserts deletes).1 = { state with
      indexes := state.indexes.moveFields uid fields old (mirror old fields) } := by
  simp only [applyUpdate, hold] at h ⊢
  cases hmfa : checkMfa (mirror old fields) with
  | error e' => rfl
  | ok _ =>
    rw [hmfa] at h
    cases h

/-- The answers after a refused update of an account. -/
theorem unchanged_iff_settled {after : ProjectState} (hold : state.users[uid]? = some old)
    (hus : after.users = state.users)
    (hfn : ∀ v, after.indexes.find v = if v ∈ filed old fields then some uid
      else if v ∈ withdrawn old fields then none else state.indexes.find v) :
    Unchanged state after ↔ state.Settled old fields := by
  have hans : ∀ v, after.lookup v = if v ∈ filed old fields then some old
      else if v ∈ withdrawn old fields then none else state.lookup v := by
    intro v
    rw [lookup, hfn, hus]
    split
    · exact hold
    · split <;> rfl
  constructor
  · rintro ⟨-, h⟩
    refine ⟨fun v hv => ?_, fun v hv hnot => ?_⟩
    · rw [← h, hans, if_pos hv]
    · rw [← h, hans, if_neg hnot, if_pos hv]
  · rintro ⟨hput, hout⟩
    refine ⟨hus, fun v => ?_⟩
    rw [hans]
    split
    · next hv => exact (hput v hv).symm
    · next hnot =>
      split
      · next hv => exact (hout v hv hnot).symm
      · rfl

theorem overwrite_refused {e : ApiError}
    (h : (state.overwriteUserWithLocalId uid props now).2 = .error e) :
    Unchanged state (state.overwriteUserWithLocalId uid props now).1 ↔
      state.Traceless (.overwrite uid props now) := by
  have haf := applyUpdate_refused (getElem?_insert_self) h
  rw [overwriteUserWithLocalId, haf]
  have hus : (state.users.insert uid (imported uid now props) = state.users) ↔
      state.users[uid]? = some (imported uid now props) := by
    refine ⟨fun heq => heq ▸ getElem?_insert_self, fun hrec => ext_getElem? fun k => ?_⟩
    rw [getElem?_insert_user]
    split
    · next hk => rw [← hk, hrec]
    · rfl
  refine ⟨fun hun => ?_, fun ⟨hrec, hset⟩ => ?_⟩
  · have hrec := hus.mp hun.1
    refine ⟨hrec, (unchanged_iff_settled hrec hun.1 fun v => ?_).mp hun⟩
    simp [find_filed, beginOverwrite, hrec, identities_imported]
  · refine (unchanged_iff_settled hrec (hus.mpr hrec) fun v => ?_).mpr hset
    simp [find_filed, beginOverwrite, hrec, identities_imported]

/-- **When a refused change changes nothing**, of an account and of an entry of an import. -/
theorem refused_unchanged (state : ProjectState) :
    (∀ op, state.refused op = true → (Unchanged state (state.step op) ↔ state.Traceless op)) ∧
    ∀ env info now e, (state.importOne env info now).2 = .error e →
      (Unchanged state (state.importOne env info now).1 ↔ ∀ uid fields,
        importFields env state info = .ok (uid, fields) →
          state.Traceless (.overwrite uid fields now)) := by
  refine ⟨fun op h => ?_, fun env info now e h => ?_⟩
  · cases op with
    | create uid props =>
      simp only [refused, step, createUserWithLocalId] at h ⊢
      split at h
      · cases h
      next hnew =>
      obtain ⟨e, he⟩ := exists_of_not_isOk h
      rw [if_neg hnew, applyUpdate_refused getElem?_insert_self (map_eq_error he)]
      refine iff_of_false (fun hun => hnew ?_) id
      rw [← hun.1]
      exact mem_insert_self
    | overwrite uid props now =>
      obtain ⟨e, he⟩ := exists_of_not_isOk h
      exact overwrite_refused he
    | update uid fields upserts deletes =>
      obtain ⟨e, he⟩ := exists_of_not_isOk h
      cases hold : state.users[uid]? with
      | none =>
        rw [step, applyUpdate, hold]
        simp [Unchanged, Traceless, hold]
      | some old =>
        rw [step, applyUpdate_refused hold he]
        simp only [Traceless, hold, some.injEq, forall_eq']
        exact unchanged_iff_settled hold rfl fun v => find_filed ..
    | _ => cases h
  · unfold importOne at h ⊢
    split at h
    · next hf => simp [hf, Unchanged]
    · next uid fields hf =>
      rw [hf]
      simpa using overwrite_refused (map_eq_error h)

/-- Fields with a second factor that has neither a phone number nor an id. -/
def emptyFactor : UserRecord := (∅ : UserRecord).insert (ascii "mfaInfo") (.array [.object []])

def secondFactor (id : String) : Json :=
  .object [(ascii "phoneInfo", .string (ascii "+1")), (ascii "mfaEnrollmentId", .string (ascii id))]

/-- An entry that passes the checks of an import: one phone number twice, under two ids. -/
def twoFactors : UserRecord :=
  ((((∅ : UserRecord).insert (ascii "localId") (.string (ascii "u"))).insert (ascii "email")
    (.string (ascii "a@b"))).insert (ascii "emailVerified") (.bool true)).insert (ascii "mfaInfo")
      (.array [secondFactor "x", secondFactor "y"])

def sampleImporter : Importer where
  tenantId := none
  oneAccountPerEmail := true
  allowOverwrite := true
  sanityCheck := true
  uploadTime := ascii "1000"
  nowSeconds := ascii "1"
  nowIso := ascii "1970-01-01T00:00:01Z"
  fakeSalt := ascii "fakeSalt"
  newRandomId _ := ascii "z"
  canonicalizeEmail := id
  validateClaims _ := .ok ()
  isNumber _ := false

/-- A refused update of the second factors alone leaves no trace, a refused import does. -/
theorem refused_unchanged_factors :
    let one : ProjectState := { users := (∅ : ExtTreeMap _ _ _).insert (ascii "u") (blank (ascii "u")) }
    Unchanged one (one.step (.update (ascii "u") emptyFactor [] [])) ∧
    ¬Unchanged {} (({} : ProjectState).importOne sampleImporter twoFactors (ascii "1000")).1 := by
  constructor
  · refine ((refused_unchanged _).1 _ (by decide +kernel)).mpr fun old hold => ?_
    obtain rfl := some.inj (getElem?_insert_self.symm.trans hold)
    have hnn : filed (blank (ascii "u")) emptyFactor = [] ∧
        withdrawn (blank (ascii "u")) emptyFactor = [] := by decide +kernel
    simp [Settled, hnn]
  · have hrf : (!(({} : ProjectState).importOne sampleImporter twoFactors
        (ascii "1000")).2.isOk) = true ∧
        (importFields sampleImporter {} twoFactors).toOption.isSome = true := by decide +kernel
    obtain ⟨e, he⟩ := exists_of_not_isOk hrf.1
    obtain ⟨⟨uid, fields⟩, hfl⟩ := isSome_iff_exists.mp hrf.2
    intro hun
    have htr := ((refused_unchanged _).2 _ _ _ e he).mp hun uid fields
      (Fallible.toOption_eq_some.mp hfl)
    simpa using htr.1

/-- The same fields with an email. -/
def badlyEnrolled : UserRecord := emptyFactor.insert (ascii "email") (.string (ascii "a"))

/-- **A refused account is there.** The second factors are checked after the record is inserted and
its email is filed. -/
theorem refused_create_stays :
    ({} : ProjectState).refused (.create (ascii "u") badlyEnrolled) = true ∧
    (({} : ProjectState).lookup (.email (ascii "a"))).isSome = false ∧
    ((({} : ProjectState).step (.create (ascii "u") badlyEnrolled)).lookup
      (.email (ascii "a"))).isSome = true := by
  refine ⟨?_, ?_, ?_⟩ <;> decide +kernel

end ProjectState

end Firenook.Auth
