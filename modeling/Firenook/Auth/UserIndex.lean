import Mathlib.Data.Finset.Basic
import Firenook.Auth.Accounts

/-!
# Auth — the console's index of accounts

The index gives every account a slot with a digest of its record, and keeps beside the slots an
order for each of five columns (`Column`), a counter for each facet, and the number of accounts per
provider and per claim key. Provider ids and claim keys are interned, so a digest holds numbers.

A digest is built from a record and the digest before it, of which it takes over the haystack and
the claim keys where they cannot have changed (`buildDigest`). Its values are those of `digestOf`,
which reads the record alone. Letter case, times and claims are read by functions that the index is
given (`Readings`).
-/

namespace Firenook.Auth

open Std

/-! ### Digests -/

/-- How texts are read: the key of an email, a text in lower case, a time in milliseconds, and the
sorted keys of a claims text, none if it is no object. -/
structure Readings where
  emailKey : Text → Text
  lowercase : Text → Text
  millis : Json → Option Int
  claimNames : Text → List Text
  claimNames_nodup : ∀ text, (claimNames text).Nodup

structure Flags where
  disabled : Bool
  verified : Bool
  email : Bool
  phone : Bool
  password : Bool
  photo : Bool
  name : Bool
  anonymous : Bool
  customAuth : Bool
  sample : Bool
  deriving DecidableEq

/-- What a digest reads off the fields of a record. -/
structure Profile where
  uid : Text
  email : Option Text
  emailKey : Option Text
  phone : Option Text
  phoneDigits : Option Text
  displayName : Option Text
  nameKey : Option Text
  photoUrl : Option Text
  createdAt : Option Int
  lastSignInAt : Option Int
  flags : Flags
  mfa : Nat
  deriving DecidableEq

/-- One account as the console sees it, with its providers and claim keys as `ι`. -/
structure UserDigest (ι : Type) where
  profile : Profile
  haystack : Text
  providers : List ι
  claimKeys : List ι
  claims : Option Text
  deriving DecidableEq

def digits (text : Text) : Text := text.filter fun b => 0x30 ≤ b ∧ b ≤ 0x39

def profileOf (readings : Readings) (localId : Text) (record : UserRecord) (noProviders : Bool) :
    Profile :=
  let email := truthyStr record "email"
  let phone := truthyStr record "phoneNumber"
  let displayName := truthyStr record "displayName"
  let photoUrl := truthyStr record "photoUrl"
  let customAuth := Json.truthy record[ascii "customAuth"]?
  { uid := localId
    email
    emailKey := email.map readings.emailKey
    phone
    phoneDigits := (phone.map digits).filter fun text => !text.isEmpty
    displayName
    nameKey := displayName.map readings.lowercase
    photoUrl
    createdAt := record[ascii "createdAt"]?.bind readings.millis
    lastSignInAt := record[ascii "lastLoginAt"]?.bind readings.millis
    flags :=
      { disabled := Json.truthy record[ascii "disabled"]?
        verified := Json.truthy record[ascii "emailVerified"]?
        email := email.isSome
        phone := phone.isSome
        password := Json.truthy record[ascii "passwordHash"]?
        photo := photoUrl.isSome
        name := displayName.isSome
        anonymous := noProviders && !customAuth
        customAuth
        sample := (ascii "sample-").isPrefixOf localId }
    mfa := min 255 (((record[ascii "mfaInfo"]?.bind Json.asArray).map List.length).getD 0) }

/-- Email, phone digits, uid and display name, each on a line. -/
def haystackOf (readings : Readings) (profile : Profile) : Text :=
  profile.emailKey.getD [] ++ 0x0A :: (profile.phoneDigits.getD [] ++ 0x0A ::
    (readings.lowercase profile.uid ++ 0x0A :: profile.nameKey.getD []))

/-- Appends what is not there yet. -/
def pushNew {α : Type} [DecidableEq α] (all : List α) (a : α) : List α :=
  if a ∈ all then all else all ++ [a]

/-- The provider ids of a record's entries, in link order. -/
def providerNames (record : UserRecord) : List Text :=
  (providerInfos record).filterMap (infoField · "providerId")

/-- The claims text of a record and its keys, if it holds any. -/
def claimsOf (readings : Readings) (record : UserRecord) : List Text × Option Text :=
  match truthyStr record "customAttributes" with
  | none => ([], none)
  | some text =>
    if (readings.claimNames text).isEmpty then ([], none)
    else (readings.claimNames text, some text)

/-- The digest of a record, with names instead of interned ids. -/
def digestOf (readings : Readings) (localId : Text) (record : UserRecord) : UserDigest Text :=
  let providers := (providerNames record).foldl pushNew []
  let profile := profileOf readings localId record providers.isEmpty
  { profile
    haystack := haystackOf readings profile
    providers
    claimKeys := (claimsOf readings record).1
    claims := (claimsOf readings record).2 }

/-! ### Interning -/

/-- The largest interned id and slot number. -/
def maxU32 : Nat := 2 ^ 32 - 1

structure Interner where
  names : List Text := []
  ids : ExtTreeMap Text Nat compare := ∅

def Interner.intern (interner : Interner) (name : Text) : Interner × Nat :=
  match interner.ids[name]? with
  | some id => (interner, id)
  | none =>
    let id := min interner.names.length maxU32
    (⟨interner.names ++ [name], interner.ids.insert name id⟩, id)

/-- Interns names one after the other, each id once. -/
def Interner.internNew : Interner → List Text → List Nat → Interner × List Nat
  | interner, [], ids => (interner, ids)
  | interner, name :: names, ids =>
    let interned := interner.intern name
    interned.1.internNew names (pushNew ids interned.2)

/-- Interns names one after the other. -/
def Interner.internAll : Interner → List Text → Interner × List Nat
  | interner, [] => (interner, [])
  | interner, name :: names =>
    let interned := interner.intern name
    let rest := interned.1.internAll names
    (rest.1, interned.2 :: rest.2)

/-! ### The index -/

inductive Facet where
  | disabled
  | unverified
  | anonymous
  | customToken
  | sample
  | mfa
  | claims
  | neverSignedIn
  deriving DecidableEq

def Facet.applies {ι : Type} (digest : UserDigest ι) : Facet → Bool
  | disabled => digest.profile.flags.disabled
  | unverified => digest.profile.flags.email && !digest.profile.flags.verified
  | anonymous => digest.profile.flags.anonymous
  | customToken => digest.profile.flags.customAuth
  | sample => digest.profile.flags.sample
  | mfa => 0 < digest.profile.mfa
  | claims => !digest.claimKeys.isEmpty
  | neverSignedIn => digest.profile.lastSignInAt.isNone

inductive UserColumn where
  | created
  | signedIn
  | email
  | name
  | phone
  deriving DecidableEq

inductive SortValue where
  | time (millis : Int)
  | text (text : Text)
  deriving DecidableEq

def UserColumn.key {ι : Type} (digest : UserDigest ι) : UserColumn → Option SortValue
  | created => digest.profile.createdAt.map .time
  | signedIn => digest.profile.lastSignInAt.map .time
  | email => digest.profile.emailKey.map .text
  | name => digest.profile.nameKey.map .text
  | phone => digest.profile.phoneDigits.map .text

/-- The slots with a key for an order, and those without one. -/
structure Column where
  values : Finset (SortValue × Nat) := ∅
  nulls : Finset Nat := ∅

def Column.insertKeyed (column : Column) (slot : Nat) : Option SortValue → Column
  | some key => { column with values := insert (key, slot) column.values }
  | none => { column with nulls := insert slot column.nulls }

def Column.removeKeyed (column : Column) (slot : Nat) : Option SortValue → Column
  | some key => { column with values := column.values.erase (key, slot) }
  | none => { column with nulls := column.nulls.erase slot }

abbrev Counts := ExtTreeMap Nat Nat compare

def increment (counts : Counts) (id : Nat) : Counts := counts.insert id (counts[id]?.getD 0 + 1)

def decrement (counts : Counts) (id : Nat) : Counts :=
  let remaining := counts[id]?.getD 0 - 1
  if remaining = 0 then counts.erase id else counts.insert id remaining

structure IndexData where
  slots : List (Option (UserDigest Nat)) := []
  byUid : ExtTreeMap Text Nat compare := ∅
  columns : UserColumn → Column := fun _ => {}
  counters : Facet → Nat := fun _ => 0
  providerCounts : Counts := ∅
  claimCounts : Counts := ∅
  providers : Interner := {}
  claimNames : Interner := {}

namespace IndexData

def digest (data : IndexData) (slot : Nat) : Option (UserDigest Nat) := data.slots[slot]?.join

/-- The interned claim keys of a record: those of the digest before it, if its claims text is the
same. -/
def buildClaims (data : IndexData) (readings : Readings) (record : UserRecord)
    (previous : Option (UserDigest Nat)) : Interner × List Nat × Option Text :=
  let text := truthyStr record "customAttributes"
  let fresh :=
    let claims := claimsOf readings record
    let interned := data.claimNames.internAll claims.1
    (interned.1, interned.2, claims.2)
  match previous with
  | some digest =>
    if digest.claims = text ∧ (text.isSome ∨ digest.claimKeys.isEmpty) then
      (data.claimNames, digest.claimKeys, digest.claims)
    else fresh
  | none => fresh

/-- `build_digest`: the digest, with the names it interned. -/
def buildDigest (data : IndexData) (readings : Readings) (localId : Text) (record : UserRecord)
    (previous : Option (UserDigest Nat)) : IndexData × UserDigest Nat :=
  let providers := data.providers.internNew (providerNames record) []
  let profile := profileOf readings localId record providers.2.isEmpty
  let haystack :=
    match previous with
    | some digest =>
      if digest.profile.uid = localId ∧ digest.profile.emailKey = profile.emailKey
          ∧ digest.profile.phoneDigits = profile.phoneDigits
          ∧ digest.profile.nameKey = profile.nameKey then digest.haystack
      else haystackOf readings profile
    | none => haystackOf readings profile
  let claims := data.buildClaims readings record previous
  ({ data with providers := providers.1, claimNames := claims.1 },
    ⟨profile, haystack, providers.2, claims.2.1, claims.2.2⟩)

def applyCounters (counters : Facet → Nat) (digest : UserDigest Nat) (add : Bool) : Facet → Nat :=
  fun facet =>
    if facet.applies digest then if add then counters facet + 1 else counters facet - 1
    else counters facet

def link (data : IndexData) (slot : Nat) (digest : UserDigest Nat) : IndexData :=
  { data with
    byUid := data.byUid.insert digest.profile.uid slot
    columns := fun column => (data.columns column).insertKeyed slot (column.key digest)
    counters := applyCounters data.counters digest true
    providerCounts := digest.providers.foldl increment data.providerCounts
    claimCounts := digest.claimKeys.foldl increment data.claimCounts
    slots := data.slots.set slot (some digest) }

/-- The counts of a list of ids that changed. -/
def recount (counts : Counts) (previous next : List Nat) : Counts :=
  if previous = next then counts else next.foldl increment (previous.foldl decrement counts)

/-- Touches only the orders and counts whose keys changed. -/
def replace (data : IndexData) (slot : Nat) (previous digest : UserDigest Nat) : IndexData :=
  { data with
    columns := fun column =>
      if column.key previous = column.key digest then data.columns column
      else ((data.columns column).removeKeyed slot (column.key previous)).insertKeyed slot
        (column.key digest)
    counters := applyCounters (applyCounters data.counters previous false) digest true
    providerCounts := recount data.providerCounts previous.providers digest.providers
    claimCounts := recount data.claimCounts previous.claimKeys digest.claimKeys
    slots := data.slots.set slot (some digest) }

def unlink (data : IndexData) (slot : Nat) (digest : UserDigest Nat) : IndexData :=
  { data with
    byUid := data.byUid.erase digest.profile.uid
    columns := fun column => (data.columns column).removeKeyed slot (column.key digest)
    counters := applyCounters data.counters digest false
    providerCounts := digest.providers.foldl decrement data.providerCounts
    claimCounts := digest.claimKeys.foldl decrement data.claimCounts }

end IndexData

structure UserIndex where
  data : IndexData := {}
  free : List Nat := []

namespace UserIndex

/-- A free slot, or a new one at the end. -/
def takeSlot (index : UserIndex) : UserIndex × Nat :=
  match index.free with
  | slot :: free => ({ index with free }, slot)
  | [] =>
    ({ index with data := { index.data with slots := index.data.slots ++ [none] } },
      min index.data.slots.length maxU32)

/-- Brings the account's digest up to date with `record`. -/
def upsert (readings : Readings) (index : UserIndex) (localId : Text) (record : UserRecord) :
    UserIndex :=
  let slot := index.data.byUid[localId]?
  let previous := slot.bind index.data.digest
  let built := index.data.buildDigest readings localId record previous
  let index := { index with data := built.1 }
  if previous = some built.2 then index
  else
    match slot, previous with
    | some slot, some previous => { index with data := index.data.replace slot previous built.2 }
    | _, _ =>
      let taken := index.takeSlot
      { taken.1 with data := taken.1.data.link taken.2 built.2 }

/-- Drops the account. -/
def remove (index : UserIndex) (localId : Text) : UserIndex :=
  match index.data.byUid[localId]? with
  | none => index
  | some slot =>
    match index.data.digest slot with
    | none => index
    | some previous =>
      let unlinked := index.data.unlink slot previous
      { data := { unlinked with slots := unlinked.slots.set slot none }
        free := slot :: index.free }

/-- Drops every account. -/
def clear (_ : UserIndex) : UserIndex := {}

/-- An index of `users`, built from scratch. -/
def build (readings : Readings) (users : ExtTreeMap Text UserRecord compare) : UserIndex :=
  users.toList.foldl (fun index user => index.upsert readings user.1 user.2) {}

end UserIndex

end Firenook.Auth
