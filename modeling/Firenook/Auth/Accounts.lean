import Firenook.Store.Name
import Firenook.Support.Assoc

/-!
# Auth — the accounts of one project and their lookups

A `ProjectState` maps local ids to user records, which are JSON objects, and keeps derived maps
from what identifies an account (an `Identity`: email, initial email, phone number, provider id
and raw id, passkey credential) to its local id. `applyUpdate` mirrors arbitrary fields into a
record and adjusts the maps as it goes; it can fail after it has changed some of them. Creation,
imports and the deletions are built on it and on `unindex`. `rebuildIndexes` computes the maps
anew from the records, as a restart does.

The record of an account carries the identities in `identities`.
-/

namespace Firenook.Auth

open Std Assoc

abbrev Text := List UInt8

/-! ### Records -/

/-- A JSON value; a number is its text and whether it reads as zero. -/
inductive Json where
  | null
  | bool (flag : Bool)
  | number (text : Text) (zero : Bool)
  | string (text : Text)
  | array (items : List Json)
  | object (fields : List (Text × Json))

abbrev JsonMap := List (Text × Json)

/-- A user record: the official `UserInfo` object, kept as JSON. -/
abbrev UserRecord := ExtTreeMap Text Json compare

namespace Json

def isNull : Json → Bool
  | null => true
  | _ => false

def asStr : Json → Option Text
  | string text => some text
  | _ => none

def asObject : Json → Option JsonMap
  | object fields => some fields
  | _ => none

def asArray : Json → Option (List Json)
  | array items => some items
  | _ => none

/-- JavaScript truthiness. -/
def truthy : Option Json → Bool
  | none | some null => false
  | some (bool flag) => flag
  | some (number _ zero) => !zero
  | some (string text) => !text.isEmpty
  | some (array _) => true
  | some (object _) => true

end Json

/-- A string field of a record, and of an object inside one. -/
def strField (user : UserRecord) (field : String) : Option Text := user[ascii field]?.bind Json.asStr

def infoField (info : JsonMap) (field : String) : Option Text :=
  (get (ascii field) info).bind Json.asStr

/-- A string field that is present and not empty. -/
def truthyStr (user : UserRecord) (field : String) : Option Text :=
  (strField user field).filter fun text => !text.isEmpty

def truthyInfo (info : JsonMap) (field : String) : Option Text :=
  (infoField info field).filter fun text => !text.isEmpty

/-- The objects of an array field. -/
def objects (value : Option Json) : List JsonMap :=
  ((value.bind Json.asArray).getD []).filterMap Json.asObject

def providerInfos (user : UserRecord) : List JsonMap := objects user[ascii "providerUserInfo"]?

def passkeys (user : UserRecord) : List JsonMap := objects user[ascii "passkeyInfo"]?

def providerEmails (user : UserRecord) : List Text :=
  ((providerInfos user).filterMap (truthyInfo · "email")).dedup

/-! ### Identities -/

/-- What an account is looked up by. -/
inductive Identity where
  | email (email : Text)
  | initialEmail (email : Text)
  | phone (phone : Text)
  | raw (provider rawId : Text)
  | passkey (credential : Text)
  deriving DecidableEq

/-- The provider of a raw id. -/
def Identity.provider : Identity → Option Text
  | .raw provider _ => some provider
  | _ => none

def rawIdentities (infos : List JsonMap) : List Identity :=
  infos.filterMap fun info =>
    match infoField info "providerId", infoField info "rawId" with
    | some provider, some rawId => some (.raw provider rawId)
    | _, _ => none

def passkeyIdentities (user : UserRecord) : List Identity :=
  (passkeys user).filterMap fun passkey => (truthyInfo passkey "credentialId").map .passkey

def identities (user : UserRecord) : List Identity :=
  ((truthyStr user "email").map .email).toList
    ++ ((truthyStr user "initialEmail").map .initialEmail).toList
    ++ ((truthyStr user "phoneNumber").map .phone).toList
    ++ rawIdentities (providerInfos user) ++ passkeyIdentities user

/-! ### The derived maps -/

@[ext] structure RawKey where
  provider : Text
  rawId : Text
  deriving DecidableEq

instance : Ord RawKey := ⟨compareLex (compareOn RawKey.provider) (compareOn RawKey.rawId)⟩

instance : TransOrd RawKey :=
  inferInstanceAs (TransCmp (compareLex (compareOn RawKey.provider) (compareOn RawKey.rawId)))

instance : LawfulEqOrd RawKey := LexOrder.lawfulEqCmp_compareLex RawKey.ext

/-- The maps from identities to local ids. The source keeps one map of raw ids per provider. -/
structure Indexes where
  localIdForEmail : ExtTreeMap Text Text compare := ∅
  localIdForInitialEmail : ExtTreeMap Text Text compare := ∅
  localIdForPhone : ExtTreeMap Text Text compare := ∅
  localIdsForProviderEmail : ExtTreeMap Text (List Text) compare := ∅
  userForProviderRawId : ExtTreeMap RawKey Text compare := ∅
  localIdForPasskey : ExtTreeMap Text Text compare := ∅

namespace Indexes

def find (indexes : Indexes) : Identity → Option Text
  | .email email => indexes.localIdForEmail[email]?
  | .initialEmail email => indexes.localIdForInitialEmail[email]?
  | .phone phone => indexes.localIdForPhone[phone]?
  | .raw provider rawId => indexes.userForProviderRawId[RawKey.mk provider rawId]?
  | .passkey credential => indexes.localIdForPasskey[credential]?

def put (indexes : Indexes) (localId : Text) : Identity → Indexes
  | .email email =>
    { indexes with localIdForEmail := indexes.localIdForEmail.insert email localId }
  | .initialEmail email =>
    { indexes with localIdForInitialEmail := indexes.localIdForInitialEmail.insert email localId }
  | .phone phone =>
    { indexes with localIdForPhone := indexes.localIdForPhone.insert phone localId }
  | .raw provider rawId =>
    { indexes with
      userForProviderRawId := indexes.userForProviderRawId.insert ⟨provider, rawId⟩ localId }
  | .passkey credential =>
    { indexes with localIdForPasskey := indexes.localIdForPasskey.insert credential localId }

def drop (indexes : Indexes) : Identity → Indexes
  | .email email => { indexes with localIdForEmail := indexes.localIdForEmail.erase email }
  | .initialEmail email =>
    { indexes with localIdForInitialEmail := indexes.localIdForInitialEmail.erase email }
  | .phone phone => { indexes with localIdForPhone := indexes.localIdForPhone.erase phone }
  | .raw provider rawId =>
    { indexes with userForProviderRawId := indexes.userForProviderRawId.erase ⟨provider, rawId⟩ }
  | .passkey credential =>
    { indexes with localIdForPasskey := indexes.localIdForPasskey.erase credential }

def putAll (indexes : Indexes) (localId : Text) (all : List Identity) : Indexes :=
  all.foldl (fun indexes identity => indexes.put localId identity) indexes

def dropAll (indexes : Indexes) (all : List Identity) : Indexes := all.foldl drop indexes

def addProviderEmail (indexes : Indexes) (localId : Text) (email : Text) : Indexes :=
  { indexes with
    localIdsForProviderEmail := indexes.localIdsForProviderEmail.insert email
      ((indexes.localIdsForProviderEmail[email]?.getD []).insert localId) }

/-- `remove_provider_email_for_user`. -/
def removeProviderEmail (indexes : Indexes) (localId : Text) (email : Text) : Indexes :=
  match indexes.localIdsForProviderEmail[email]? with
  | none => indexes
  | some ids =>
    let ids := ids.erase localId
    { indexes with
      localIdsForProviderEmail :=
        if ids.isEmpty then indexes.localIdsForProviderEmail.erase email
        else indexes.localIdsForProviderEmail.insert email ids }

/-- `remove_user_from_index`. -/
def unindex (indexes : Indexes) (user : UserRecord) : Indexes :=
  ((providerInfos user).filterMap (truthyInfo · "email")).foldl
    (fun indexes email => indexes.removeProviderEmail ((strField user "localId").getD []) email)
    (indexes.dropAll (identities user))

/-- `index_user`. -/
def index (indexes : Indexes) (user : UserRecord) : Indexes :=
  let localId := (strField user "localId").getD []
  ((providerInfos user).filterMap (truthyInfo · "email")).foldl
    (fun indexes email => indexes.addProviderEmail localId email)
    (indexes.putAll localId (identities user))

/-- A value that moved: the old entry goes, the new one is set. -/
def move (indexes : Indexes) (localId : Text) (kind : Text → Identity) (old new : Option Text) :
    Indexes :=
  let cleared := if old = new then indexes else indexes.dropAll (old.map kind).toList
  cleared.putAll localId (new.map kind).toList

end Indexes

/-! ### The state and its update -/

inductive ApiError where
  /-- `Internal assertion error: trying to update nonexistent user`. -/
  | nonexistentUser (localId : Text)
  /-- `INVALID_MFA_PHONE_NUMBER : Invalid format.` -/
  | invalidMfaPhoneNumber
  /-- `INVALID_MFA_ENROLLMENT_ID : mfaEnrollmentId must be defined.` -/
  | invalidMfaEnrollmentId
  /-- `DUPLICATE_MFA_ENROLLMENT_ID`. -/
  | duplicateMfaEnrollmentId
  /-- `INTERNAL_ERROR : MFA Enrollment Phone Numbers must be unique.` -/
  | duplicateMfaPhoneNumber
  | badRequest (message : Text)
  deriving DecidableEq

structure ProjectState where
  users : ExtTreeMap Text UserRecord compare := ∅
  indexes : Indexes := {}

/-- The enrollments still to check, with the phone numbers and the ids of those before them. -/
def validateMfaEnrollments : List Json → List Text → List Text → Except ApiError Unit
  | [], _, _ => .ok ()
  | enrollment :: enrollments, phones, ids =>
    let object := enrollment.asObject.getD []
    match (truthyInfo object "phoneInfo").filter fun phone => phone.head? = some 0x2B with
    | none => .error .invalidMfaPhoneNumber
    | some phone =>
      match truthyInfo object "mfaEnrollmentId" with
      | none => .error .invalidMfaEnrollmentId
      | some id =>
        if id ∈ ids then .error .duplicateMfaEnrollmentId
        else if phone ∈ phones then .error .duplicateMfaPhoneNumber
        else validateMfaEnrollments enrollments (phone :: phones) (id :: ids)

/-- Sets every field of `fields`; a null deletes. -/
def mirror (user fields : UserRecord) : UserRecord :=
  fields.toList.foldl
    (fun user field => if field.2.isNull then user.erase field.1 else user.insert field.1 field.2)
    user

/-- `mirror_field`: the provider entry gets the record's field, or loses it with the record. -/
def mirrorField (info : JsonMap) (field : String) (user : UserRecord) : JsonMap :=
  match user[ascii field]? with
  | some value => insert (ascii field) value info
  | none => erase (ascii field) info

/-- The entry of the password provider, if the account has an email and a way to use it. -/
def passwordInfo (user : UserRecord) : Option JsonMap :=
  match truthyStr user "email" with
  | some email =>
    if Json.truthy user[ascii "passwordHash"]? || Json.truthy user[ascii "emailLinkSignin"]? then
      let info := insert (ascii "providerId") (.string (ascii "password"))
        (insert (ascii "email") (.string email) (insert (ascii "federatedId") (.string email)
            (insert (ascii "rawId") (.string email) [])))
      some (mirrorField (mirrorField info "displayName" user) "photoUrl" user)
    else none
  | none => none

/-- The entry of the phone provider. -/
def phoneInfo (user : UserRecord) : Option JsonMap :=
  (truthyStr user "phoneNumber").map fun phone =>
    insert (ascii "providerId") (.string (ascii "phone"))
      (insert (ascii "phoneNumber") (.string phone) (insert (ascii "rawId") (.string phone) []))

/-- The provider entries an update writes, and the providers it deletes. -/
def allUpserts (user : UserRecord) (upserts : List JsonMap) : List JsonMap :=
  upserts ++ (passwordInfo user).toList ++ (phoneInfo user).toList

def allDeletes (user : UserRecord) (deletes : List Text) : List Text :=
  deletes ++ (if (passwordInfo user).isSome then [] else [ascii "password"])
    ++ (if (phoneInfo user).isSome then [] else [ascii "phone"])

/-- The provider of an entry, empty where it is missing. -/
def entryProvider (info : JsonMap) : Text := (infoField info "providerId").getD []

/-- Writes an entry over the first one of its provider, or appends it. -/
def upsertInfo (upsert : JsonMap) : List JsonMap → List JsonMap
  | [] => [upsert]
  | info :: infos =>
    if infoField info "providerId" = some (entryProvider upsert) then upsert :: infos
    else info :: upsertInfo upsert infos

def withInfos (user : UserRecord) (infos : List JsonMap) : UserRecord :=
  user.insert (ascii "providerUserInfo") (.array (infos.map .object))

/-- The entries that stay when providers are deleted; a field that is no array is left as it is. -/
def keepProviders (user : UserRecord) (deletes : List Text) : UserRecord :=
  match user[ascii "providerUserInfo"]?.bind Json.asArray with
  | some _ =>
    withInfos user ((providerInfos user).filter fun info => !deletes.contains (entryProvider info))
  | none => user

/-- What deleting providers takes out of the raw id map. -/
def droppedRawIds (user : UserRecord) (deletes : List Text) : List Identity :=
  ((providerInfos user).filter fun info => deletes.contains (entryProvider info)).filterMap
    fun info => (infoField info "rawId").map (.raw (entryProvider info))

/-- The key an upsert sets in the raw id map. -/
def upsertedRawId (upsert : JsonMap) : Identity :=
  .raw (entryProvider upsert) ((infoField upsert "rawId").getD [])

def upsertProviders (user : UserRecord) (upserts : List JsonMap) : UserRecord :=
  if upserts.isEmpty then user
  else withInfos user (upserts.foldl (fun infos upsert => upsertInfo upsert infos)
    (providerInfos user))

/-- The record that `update_user_provider_info` answers. -/
def updatedRecord (user : UserRecord) (upserts : List JsonMap) (deletes : List Text) :
    UserRecord :=
  upsertProviders (keepProviders user deletes) upserts

/-- The map of provider emails after a record changed its entries. -/
def Indexes.moveProviderEmails (indexes : Indexes) (localId : Text) (old new : List Text) :
    Indexes :=
  (old.filter fun email => !new.contains email).foldl
    (fun indexes email => indexes.removeProviderEmail localId email)
    (new.foldl (fun indexes email => indexes.addProviderEmail localId email) indexes)

def updateUserProviderInfo (indexes : Indexes) (user : UserRecord) (upserts : List JsonMap)
    (deletes : List Text) : Indexes × UserRecord :=
  let localId := (strField user "localId").getD []
  let updated := updatedRecord user upserts deletes
  let indexes := indexes.dropAll (droppedRawIds user deletes)
  let indexes := indexes.putAll localId (upserts.map upsertedRawId)
  (indexes.moveProviderEmails localId (providerEmails user) (providerEmails updated), updated)

/-- The passkey map: rewritten if the update sets `passkeyInfo` to something. -/
def Indexes.movePasskeys (indexes : Indexes) (localId : Text) (fields old user : UserRecord) :
    Indexes :=
  if fields[ascii "passkeyInfo"]?.any fun value => !value.isNull then
    (indexes.dropAll (passkeyIdentities old)).putAll localId (passkeyIdentities user)
  else indexes

/-- The maps when the enrollments are checked. -/
def Indexes.moveFields (indexes : Indexes) (localId : Text) (fields old user : UserRecord) :
    Indexes :=
  let indexes := indexes.movePasskeys localId fields old user
  let indexes := indexes.move localId .email (truthyStr old "email") (truthyStr user "email")
  let indexes := indexes.putAll localId ((truthyStr user "initialEmail").map .initialEmail).toList
  indexes.move localId .phone (truthyStr old "phoneNumber") (truthyStr user "phoneNumber")

def checkMfa (user : UserRecord) : Except ApiError Unit :=
  match user[ascii "mfaInfo"]?.bind Json.asArray with
  | some enrollments => validateMfaEnrollments enrollments [] []
  | none => .ok ()

namespace ProjectState

/-- `apply_update`. A failed check of the enrollments leaves the maps changed and the record as
it was. -/
def applyUpdate (state : ProjectState) (localId : Text) (fields : UserRecord)
    (upserts : List JsonMap) (deletes : List Text) : ProjectState × Except ApiError UserRecord :=
  match state.users[localId]? with
  | none => (state, .error (.nonexistentUser localId))
  | some old =>
    let user := mirror old fields
    let indexes := state.indexes.moveFields localId fields old user
    match checkMfa user with
    | .error e => ({ state with indexes }, .error e)
    | .ok () =>
      let (indexes, updated) := updateUserProviderInfo indexes user (allUpserts user upserts)
        (allDeletes user deletes)
      ({ users := state.users.insert localId updated, indexes }, .ok updated)

/-- A record that holds its local id only. -/
def blank (localId : Text) : UserRecord :=
  (∅ : UserRecord).insert (ascii "localId") (.string localId)

/-- `createUserWithLocalId`: nothing happens when the id exists. -/
def createUserWithLocalId (state : ProjectState) (localId : Text) (props : UserRecord) :
    ProjectState × Except ApiError (Option UserRecord) :=
  if localId ∈ state.users then (state, .ok none)
  else
    let result := applyUpdate { state with users := state.users.insert localId (blank localId) }
      localId props (providerInfos props) []
    (result.1, result.2.map some)

/-- The record an import starts from. -/
def imported (localId now : Text) (props : UserRecord) : UserRecord :=
  let createdAt := (props[ascii "createdAt"]?.filter fun value => Json.truthy (some value)).getD
    (.string now)
  ((blank localId).insert (ascii "createdAt") createdAt).insert (ascii "lastLoginAt") (.string now)

/-- What an import has done when it calls `apply_update`. -/
def beginOverwrite (state : ProjectState) (localId : Text) (props : UserRecord) (now : Text) :
    ProjectState where
  users := state.users.insert localId (imported localId now props)
  indexes :=
    match state.users[localId]? with
    | some before => state.indexes.unindex before
    | none => state.indexes

def overwriteUserWithLocalId (state : ProjectState) (localId : Text) (props : UserRecord)
    (now : Text) : ProjectState × Except ApiError UserRecord :=
  applyUpdate (state.beginOverwrite localId props now) localId props (providerInfos props) []

/-- `deleteUser`, by the record a caller holds. -/
def deleteUser (state : ProjectState) (user : UserRecord) : ProjectState where
  users := state.users.erase ((strField user "localId").getD [])
  indexes := state.indexes.unindex user

def deleteUserQuietly (state : ProjectState) (localId : Text) : ProjectState :=
  match state.users[localId]? with
  | none => state
  | some user =>
    { users := state.users.erase localId, indexes := state.indexes.unindex user }

def removeUsersQuietly (state : ProjectState) (uids : List Text) : ProjectState :=
  uids.foldl deleteUserQuietly state

/-- `deleteAllAccounts`: every map but the one of initial emails is cleared. -/
def deleteAllAccounts (state : ProjectState) : ProjectState where
  users := ∅
  indexes := { localIdForInitialEmail := state.indexes.localIdForInitialEmail }

def rebuildIndexes (state : ProjectState) : ProjectState :=
  { state with
    indexes := state.users.toList.foldl (fun indexes user => indexes.index user.2) {} }

/-- The lookups: the record the map's entry leads to. -/
def lookup (state : ProjectState) (identity : Identity) : Option UserRecord :=
  (state.indexes.find identity).bind (state.users[·]?)

end ProjectState

end Firenook.Auth
