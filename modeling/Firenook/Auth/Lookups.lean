import Firenook.Auth.Accounts

/-!
# Auth — the lookups of accounts against their records

Each derived map answers as if computed from the records (`Exact`) when an operation leaves no entry
behind: **`ProjectState.lookups_exact`** says so of every run whose operations are `Orderly`: an
update is `Tidy` and gives the account nothing that another account carries, a new id is not one
that a map still names, and a deletion is given the stored record.

Without that, entries stay behind: an account with a password that changes its email is still found
under the old raw id (`old_raw_id_answers`).
-/

namespace Firenook.Auth

open List Std Option ExtTreeMap Indexes

variable {l : List (Text × UserRecord)} {info : JsonMap} {user fields old props : UserRecord}
  {v : Identity} {field uid : Text} {infos upserts : List JsonMap} {deletes : List Text}
  {indexes : Indexes} {state : ProjectState}

/-! ### What the maps answer after each change -/

namespace Indexes

@[simp] theorem find_put (indexes : Indexes) (uid : Text) (v w : Identity) :
    (indexes.put uid v).find w = if v = w then some uid else indexes.find w := by
  cases v <;> cases w <;> simp [put, find, ExtTreeMap.getElem?_insert]

@[simp] theorem find_drop (indexes : Indexes) (v w : Identity) :
    (indexes.drop v).find w = if v = w then none else indexes.find w := by
  cases v <;> cases w <;> simp [drop, find, getElem?_erase]

/-- Each identity of the list gets the same answer. -/
theorem find_foldl_set {f : Indexes → Identity → Indexes} {answer : Option Text} {w : Identity}
    (hf : ∀ indexes v, (f indexes v).find w = if v = w then answer else indexes.find w)
    (all : List Identity) (indexes : Indexes) :
    (all.foldl f indexes).find w = if w ∈ all then answer else indexes.find w := by
  induction all generalizing indexes with
  | nil => simp
  | cons v all ih =>
    rw [foldl_cons, ih, hf]
    by_cases hv : v = w
    · simp [hv]
    · simp [hv, Ne.symm hv]

theorem find_putAll (indexes : Indexes) (uid : Text) (all : List Identity) (w : Identity) :
    (indexes.putAll uid all).find w = if w ∈ all then some uid else indexes.find w :=
  find_foldl_set (fun _ _ => find_put ..) all indexes

theorem find_dropAll (indexes : Indexes) (all : List Identity) (w : Identity) :
    (indexes.dropAll all).find w = if w ∈ all then none else indexes.find w :=
  find_foldl_set (fun _ _ => find_drop ..) all indexes

@[simp] theorem find_addProviderEmail (indexes : Indexes) (uid email : Text) (w : Identity) :
    (indexes.addProviderEmail uid email).find w = indexes.find w := by
  cases w <;> rfl

@[simp] theorem find_removeProviderEmail (indexes : Indexes) (uid email : Text)
    (w : Identity) : (indexes.removeProviderEmail uid email).find w = indexes.find w := by
  unfold removeProviderEmail
  split
  · rfl
  · cases w <;> rfl

/-- Changes that no lookup sees, one after the other. -/
theorem find_foldl {α : Type} (f : Indexes → α → Indexes) (w : Identity)
    (hf : ∀ indexes a, (f indexes a).find w = indexes.find w) (l : List α) (indexes : Indexes) :
    (l.foldl f indexes).find w = indexes.find w := by
  induction l generalizing indexes with
  | nil => rfl
  | cons a l ih => rw [foldl_cons, ih, hf]

@[simp] theorem find_unindex (indexes : Indexes) (user : UserRecord) (w : Identity) :
    (indexes.unindex user).find w = if w ∈ identities user then none else indexes.find w := by
  rw [unindex, find_foldl _ _ fun _ _ => find_removeProviderEmail .., find_dropAll]

@[simp] theorem find_index (indexes : Indexes) (user : UserRecord) (w : Identity) :
    (indexes.index user).find w
      = if w ∈ identities user then some ((strField user "localId").getD []) else indexes.find w := by
  rw [index, find_foldl _ _ fun _ _ => find_addProviderEmail .., find_putAll]

theorem find_moveProviderEmails (indexes : Indexes) (uid : Text) (old new : List Text)
    (w : Identity) : (indexes.moveProviderEmails uid old new).find w = indexes.find w := by
  rw [moveProviderEmails, find_foldl _ _ fun _ _ => find_removeProviderEmail ..,
    find_foldl _ _ fun _ _ => find_addProviderEmail ..]

theorem find_move (indexes : Indexes) (uid : Text) (kind : Text → Identity)
    (old new : Option Text) (w : Identity) :
    (indexes.move uid kind old new).find w =
      if w ∈ (new.map kind).toList then some uid
      else if w ∈ (old.map kind).toList then none else indexes.find w := by
  unfold move
  rw [find_putAll]
  split
  · rfl
  next hnew =>
  by_cases heq : old = new
  · rw [if_pos heq, if_neg (heq ▸ hnew)]
  · rw [if_neg heq, find_dropAll]

end Indexes

/-! ### What a record carries -/

theorem mem_rawIdentities :
    v ∈ rawIdentities infos ↔ ∃ info ∈ infos, ∃ p r, infoField info "providerId" = some p
      ∧ infoField info "rawId" = some r ∧ v = .raw p r := by
  rw [rawIdentities, mem_filterMap]
  refine exists_congr fun info => and_congr_right fun _ => ?_
  constructor
  · intro h
    split at h
    · next p r hp hr => exact ⟨p, r, hp, hr, (some.inj h).symm⟩
    · cases h
  · rintro ⟨p, r, hp, hr, rfl⟩
    simp [hp, hr]

theorem not_mem_passkeyIdentities (hv : ∀ c, v ≠ .passkey c) : v ∉ passkeyIdentities user := by
  intro hmem
  obtain ⟨info, -, hin⟩ := mem_filterMap.mp hmem
  obtain ⟨c, -, rfl⟩ := map_eq_some_iff.mp hin
  exact hv c rfl

theorem mem_identities : v ∈ identities user ↔ match v with
      | .email email => truthyStr user "email" = some email
      | .initialEmail email => truthyStr user "initialEmail" = some email
      | .phone phone => truthyStr user "phoneNumber" = some phone
      | .raw p r => Identity.raw p r ∈ rawIdentities (providerInfos user)
      | .passkey credential => Identity.passkey credential ∈ passkeyIdentities user := by
  have hraw : ∀ w, (∀ p r, w ≠ Identity.raw p r) → w ∉ rawIdentities (providerInfos user) :=
    fun w hne hw => by
      obtain ⟨-, -, p, r, -, -, rfl⟩ := mem_rawIdentities.mp hw
      exact hne p r rfl
  cases v <;> simp [identities, hraw, not_mem_passkeyIdentities]

/-- Fields that are not written stay as they were. -/
theorem getElem?_foldl_mirror {l : List (Text × Json)} (hne : ∀ b ∈ l, ¬compare b.1 field = .eq)
    (user : UserRecord) :
    (l.foldl (fun user b => if b.2.isNull then user.erase b.1
      else user.insert b.1 b.2) user)[field]? = user[field]? := by
  induction l generalizing user with
  | nil => rfl
  | cons b l ih =>
    have hb := hne b mem_cons_self
    rw [foldl_cons, ih fun c hc => hne c (mem_cons_of_mem _ hc)]
    split
    · rw [getElem?_erase, if_neg hb]
    · rw [ExtTreeMap.getElem?_insert, if_neg hb]

theorem getElem?_mirror_of_none (h : fields[field]? = none) :
    (mirror user fields)[field]? = user[field]? := by
  refine getElem?_foldl_mirror (fun b hb heq => ?_) user
  cases LawfulEqCmp.eq_of_compare heq
  rw [mem_toList_iff_getElem?_eq_some.mp hb] at h
  cases h

/-- A null deletes. -/
theorem getElem?_mirror_of_null (h : fields[field]? = some .null) :
    (mirror user fields)[field]? = none := by
  have hmem := mem_toList_iff_getElem?_eq_some.mpr h
  obtain ⟨before, after, hspl⟩ := append_of_mem hmem
  have hdis := fields.distinct_keys_toList
  rw [hspl] at hdis
  have haft := (pairwise_cons.mp (pairwise_append.mp hdis).2.1).1
  rw [mirror, hspl, foldl_append, foldl_cons, getElem?_foldl_mirror]
  · simp [Json.isNull]
  · exact fun b hb heq => haft b hb (OrientedCmp.eq_symm heq)

@[simp] theorem objects_array (infos : List JsonMap) :
    objects (some (.array (infos.map .object))) = infos := by
  simp [objects, Json.asArray, Json.asObject, Function.comp_def]

@[simp] theorem providerInfos_withInfos (user : UserRecord) (infos : List JsonMap) :
    providerInfos (withInfos user infos) = infos := by
  simp [providerInfos, withInfos]

/-- Writing the provider entries leaves the other fields alone. -/
theorem getElem?_withInfos (h : ascii "providerUserInfo" ≠ field) :
    (withInfos user infos)[field]? = user[field]? := by
  rw [withInfos, ExtTreeMap.getElem?_insert, if_neg]
  exact fun heq => h (LawfulEqCmp.eq_of_compare heq)

theorem getElem?_updatedRecord (field : Text) (h : ascii "providerUserInfo" ≠ field) :
    (updatedRecord user upserts deletes)[field]? = user[field]? := by
  have hkp : (keepProviders user deletes)[field]? = user[field]? := by
    unfold keepProviders
    split
    · exact getElem?_withInfos h
    · rfl
  unfold updatedRecord upsertProviders
  split
  · exact hkp
  · rw [getElem?_withInfos h, hkp]

theorem truthyStr_updatedRecord (field : String) (h : ascii "providerUserInfo" ≠ ascii field) :
    truthyStr (updatedRecord user upserts deletes) field = truthyStr user field := by
  rw [truthyStr, strField, getElem?_updatedRecord _ h]
  rfl

/-- Writing the provider entries changes no other identity. -/
theorem mem_identities_updatedRecord (hv : v.provider = none) :
    v ∈ identities (updatedRecord user upserts deletes) ↔ v ∈ identities user := by
  rw [mem_identities, mem_identities]
  cases v with
  | raw p r => cases hv
  | email e => simp only [truthyStr_updatedRecord "email" (by decide)]
  | initialEmail e => simp only [truthyStr_updatedRecord "initialEmail" (by decide)]
  | phone e => simp only [truthyStr_updatedRecord "phoneNumber" (by decide)]
  | passkey c =>
    simp [passkeyIdentities, passkeys, getElem?_updatedRecord (ascii "passkeyInfo") (by decide)]

theorem mem_upsertInfo {upsert : JsonMap} (h : info ∈ upsertInfo upsert infos) :
    info = upsert ∨ info ∈ infos := by
  induction infos with
  | nil => exact .inl (mem_singleton.mp h)
  | cons x infos ih =>
    rw [upsertInfo] at h
    split at h
    · rcases mem_cons.mp h with rfl | h
      · exact .inl rfl
      · exact .inr (mem_cons_of_mem _ h)
    · rcases mem_cons.mp h with rfl | h
      · exact .inr mem_cons_self
      · exact (ih h).imp_right (mem_cons_of_mem _)

theorem mem_foldl_upsertInfo
    (h : info ∈ upserts.foldl (fun infos upsert => upsertInfo upsert infos) infos) :
    info ∈ upserts ∨ info ∈ infos := by
  induction upserts generalizing infos with
  | nil => exact .inr h
  | cons u upserts ih =>
    rcases ih h with h | h
    · exact .inl (mem_cons_of_mem _ h)
    · rcases mem_upsertInfo h with rfl | h
      · exact .inl mem_cons_self
      · exact .inr h

theorem providerInfos_keepProviders (user : UserRecord) (deletes : List Text) :
    providerInfos (keepProviders user deletes)
      = (providerInfos user).filter fun info => !deletes.contains (entryProvider info) := by
  unfold keepProviders
  split
  · exact providerInfos_withInfos ..
  · next h => simp [providerInfos, objects, h]

/-- An entry of the record that an update writes was upserted, or was there and stayed. -/
theorem mem_providerInfos_updatedRecord
    (h : info ∈ providerInfos (updatedRecord user upserts deletes)) :
    info ∈ upserts ∨ (info ∈ providerInfos user ∧ entryProvider info ∉ deletes) := by
  have hkp : info ∈ providerInfos (keepProviders user deletes) →
      info ∈ providerInfos user ∧ entryProvider info ∉ deletes := by
    rw [providerInfos_keepProviders]
    intro h
    have h := mem_filter.mp h
    exact ⟨h.1, by simpa using h.2⟩
  unfold updatedRecord upsertProviders at h
  split at h
  · exact .inr (hkp h)
  · rw [providerInfos_withInfos] at h
    exact (mem_foldl_upsertInfo h).imp_right hkp

/-- A raw id of the record that an update writes is one it sets, or one it found and kept. -/
theorem raw_of_updatedRecord
    (h : v ∈ rawIdentities (providerInfos (updatedRecord user upserts deletes))) :
    v ∈ upserts.map upsertedRawId ∨
      (v ∈ rawIdentities (providerInfos user) ∧ v ∉ droppedRawIds user deletes) := by
  obtain ⟨info, hin, p, r, hp, hr, rfl⟩ := mem_rawIdentities.mp h
  rcases mem_providerInfos_updatedRecord hin with hmem | ⟨hmem, hkp⟩
  · exact .inl (mem_map.mpr ⟨info, hmem, by simp [upsertedRawId, entryProvider, hp, hr]⟩)
  refine .inr ⟨mem_rawIdentities.mpr ⟨info, hmem, p, r, hp, hr, rfl⟩, fun hdrp => hkp ?_⟩
  obtain ⟨info', hin', heq⟩ := mem_filterMap.mp hdrp
  obtain ⟨r', -, heq⟩ := map_eq_some_iff.mp heq
  cases heq
  have := (mem_filter.mp hin').2
  rw [entryProvider, hp]
  simpa using this

/-! ### Orderly operations -/

/-- What an update that finds `old` writes. -/
def recordAfter (old fields : UserRecord) (upserts : List JsonMap) (deletes : List Text) :
    UserRecord :=
  let user := mirror old fields
  updatedRecord user (allUpserts user upserts) (allDeletes user deletes)

/-- An update of `old` that leaves no entry behind. Its enrollments pass; the record keeps its
local id and its initial email; passkeys are not deleted by a null; every raw id it sets is one
the record has afterwards; a raw id the record had stays or is deleted with its provider; raw ids
that come with the fields are also set; and nothing is taken out that the record did not have. -/
structure Tidy (localId : Text) (old fields : UserRecord) (upserts : List JsonMap)
    (deletes : List Text) : Prop where
  mfa : checkMfa (mirror old fields) = .ok ()
  named : strField (mirror old fields) "localId" = some localId
  initial : ∀ v ∈ truthyStr old "initialEmail",
    truthyStr (mirror old fields) "initialEmail" = some v
  passkeys : fields[ascii "passkeyInfo"]?.any Json.isNull = true → passkeyIdentities old = []
  upserted : ∀ u ∈ allUpserts (mirror old fields) upserts,
    upsertedRawId u ∈ identities (recordAfter old fields upserts deletes)
  kept : ∀ v ∈ rawIdentities (providerInfos old),
    v ∈ identities (recordAfter old fields upserts deletes)
      ∨ v ∈ droppedRawIds (mirror old fields) (allDeletes (mirror old fields) deletes)
  found : ∀ v ∈ rawIdentities (providerInfos (mirror old fields)),
    v ∈ identities old ∨ v ∈ (allUpserts (mirror old fields) upserts).map upsertedRawId
  dropped : ∀ v ∈ droppedRawIds (mirror old fields) (allDeletes (mirror old fields) deletes),
    v ∈ identities (mirror old fields)

/-! ### The invariant -/

/-- An entry that leads to an account is one its record carries, and what a record carries leads
to its account. -/
structure Inv (state : ProjectState) : Prop where
  named : ∀ (id : Text) (user : UserRecord), state.users[id]? = some user →
    strField user "localId" = some id
  sound : ∀ (v : Identity) (id : Text) (user : UserRecord), state.indexes.find v = some id →
    state.users[id]? = some user → v ∈ identities user
  complete : ∀ (v : Identity) (id : Text) (user : UserRecord), state.users[id]? = some user →
    v ∈ identities user → state.indexes.find v = some id

/-- The maps after an account's record turned from `old` into `new`. -/
def Moved (localId : Text) (old new : UserRecord) (indexes indexes' : Indexes) : Prop :=
  ∀ v, indexes'.find v = if v ∈ identities new then some localId
    else if v ∈ identities old then none else indexes.find v

theorem find_movePasskeys (hv : ∀ c, v ≠ .passkey c) :
    (indexes.movePasskeys uid fields old user).find v = indexes.find v := by
  unfold movePasskeys
  split
  · rw [find_putAll, if_neg (not_mem_passkeyIdentities hv), find_dropAll,
      if_neg (not_mem_passkeyIdentities hv)]
  · rfl

/-- The passkey map follows the record, unless passkeys are deleted by a null. -/
theorem find_movePasskeys_passkey
    (hnl : fields[ascii "passkeyInfo"]?.any Json.isNull = true → passkeyIdentities old = [])
    {c : Text}
    (hold : Identity.passkey c ∈ passkeyIdentities old → indexes.find (.passkey c) = some uid) :
    (indexes.movePasskeys uid fields old (mirror old fields)).find (.passkey c)
      = if Identity.passkey c ∈ passkeyIdentities (mirror old fields) then some uid
        else if Identity.passkey c ∈ passkeyIdentities old then none
        else indexes.find (.passkey c) := by
  unfold movePasskeys
  split
  · rw [find_putAll, find_dropAll]
  next hset =>
  cases hfld : fields[ascii "passkeyInfo"]? with
  | none =>
    rw [passkeyIdentities, passkeys, getElem?_mirror_of_none hfld]
    split
    · next hmem => exact hold hmem
    · next hmem => exact (if_neg hmem).symm
  | some value =>
    have hval : value = .null := by
      cases value <;> simp_all [Json.isNull]
    subst hval
    have hemp : passkeyIdentities (mirror old fields) = [] := by
      simp [passkeyIdentities, passkeys, objects, getElem?_mirror_of_null hfld]
    rw [hemp, hnl (by simp [hfld, Json.isNull])]
    simp

/-- The maps of everything but raw ids follow the record. -/
theorem find_moveFields (ht : Tidy uid old fields upserts deletes)
    (hold : ∀ v ∈ identities old, indexes.find v = some uid) (hv : v.provider = none) :
    (indexes.moveFields uid fields old (mirror old fields)).find v
      = if v ∈ identities (mirror old fields) then some uid
        else if v ∈ identities old then none else indexes.find v := by
  simp only [moveFields, find_move, find_putAll]
  cases v with
  | raw p r => cases hv
  | email | phone => simp [mem_identities, find_movePasskeys]
  | initialEmail e =>
    have hkp : truthyStr old "initialEmail" = some e →
        truthyStr (mirror old fields) "initialEmail" = some e := fun h => ht.initial e h
    by_cases hnew : truthyStr (mirror old fields) "initialEmail" = some e
    · simp [mem_identities, hnew]
    · simp [mem_identities, mt hkp hnew, find_movePasskeys]
  | passkey c =>
    have hpk := find_movePasskeys_passkey ht.passkeys
      fun (hmem : Identity.passkey c ∈ _) => hold _ (mem_identities.mpr hmem)
    simpa [mem_identities] using hpk

theorem find_moveFields_raw {p r : Text} :
    (indexes.moveFields uid fields old user).find (.raw p r) = indexes.find (.raw p r) := by
  simp [moveFields, find_move, find_putAll, find_movePasskeys]

section

variable {uid : Text} (ht : Tidy uid old fields upserts deletes)
  (hold : ∀ v ∈ identities old, indexes.find v = some uid)

include ht hold

/-- The map of raw ids follows the record of a tidy update. -/
theorem find_raw {p r : Text} :
    (if Identity.raw p r ∈ (allUpserts (mirror old fields) upserts).map upsertedRawId then
      some uid
    else if Identity.raw p r ∈ droppedRawIds (mirror old fields)
        (allDeletes (mirror old fields) deletes) then none
    else (indexes.moveFields uid fields old (mirror old fields)).find (.raw p r))
      = if Identity.raw p r ∈ identities (recordAfter old fields upserts deletes) then some uid
        else if Identity.raw p r ∈ identities old then none else indexes.find (.raw p r) := by
  rw [find_moveFields_raw]
  by_cases hput : Identity.raw p r ∈ (allUpserts (mirror old fields) upserts).map upsertedRawId
  · obtain ⟨u, hu, heq⟩ := mem_map.mp hput
    rw [if_pos hput, if_pos (heq ▸ ht.upserted u hu)]
  rw [if_neg hput]
  by_cases hnew : Identity.raw p r ∈ identities (recordAfter old fields upserts deletes)
  · -- A raw id that is not set was there before, and stayed.
    obtain ⟨hmid, hnot⟩ := (raw_of_updatedRecord (mem_identities.mp hnew)).resolve_left hput
    rw [if_pos hnew, if_neg hnot]
    exact hold _ ((ht.found _ hmid).resolve_right hput)
  rw [if_neg hnew]
  by_cases hmem : Identity.raw p r ∈ identities old
  · rw [if_pos hmem, if_pos ((ht.kept _ (mem_identities.mp hmem)).resolve_left hnew)]
  rw [if_neg hmem, if_neg]
  intro hdrp
  have hmid := mem_identities.mp (ht.dropped _ hdrp)
  exact (ht.found _ hmid).elim hmem hput

/-- The maps follow a tidy update. -/
theorem moved_of_tidy : Moved uid old (recordAfter old fields upserts deletes) indexes
      (updateUserProviderInfo (indexes.moveFields uid fields old (mirror old fields))
        (mirror old fields) (allUpserts (mirror old fields) upserts)
        (allDeletes (mirror old fields) deletes)).1 := by
  intro v
  simp only [updateUserProviderInfo, find_moveProviderEmails, find_putAll,
    find_dropAll, ht.named, getD_some]
  cases hv : v.provider with
  | none =>
    have hput : v ∉ (allUpserts (mirror old fields) upserts).map upsertedRawId := fun hmem => by
      obtain ⟨u, -, rfl⟩ := mem_map.mp hmem
      cases hv
    have hdr : v ∉ droppedRawIds (mirror old fields) (allDeletes (mirror old fields) deletes) :=
      fun hmem => by
        obtain ⟨info, -, hin⟩ := mem_filterMap.mp hmem
        obtain ⟨r, -, rfl⟩ := map_eq_some_iff.mp hin
        cases hv
    rw [if_neg hput, if_neg hdr, find_moveFields ht hold hv, recordAfter]
    simp only [mem_identities_updatedRecord hv]
  | some p =>
    cases v with
    | raw p r => exact find_raw ht hold
    | _ => cases hv

end

theorem getElem?_insert_user (users : ExtTreeMap Text UserRecord) (uid : Text) (record : UserRecord)
    (k : Text) : (users.insert uid record)[k]? = if uid = k then some record else users[k]? := by
  simp [ExtTreeMap.getElem?_insert]

namespace Inv

variable {state : ProjectState} {uid : Text}

theorem empty {indexes : Indexes} : Inv { indexes } :=
  ⟨fun _ _ h => by simp at h, fun _ _ _ _ h => by simp at h, fun _ _ _ h => by simp at h⟩

/-- A record that changes keeps the invariant, if the maps follow it and no other account carries
what it carries now. -/
theorem write (h : Inv state) {new : UserRecord} (hold : state.users[uid]? = some old)
    (hmov : Moved uid old new state.indexes indexes)
    (hnmd : strField new "localId" = some uid)
    (huns : ∀ v ∈ identities new, ∀ (id : Text) user,
      state.users[id]? = some user → id ≠ uid → v ∉ identities user) :
    Inv { users := state.users.insert uid new, indexes } := by
  have hget := getElem?_insert_user state.users uid new
  refine ⟨fun id user hus => ?_, fun v id user hfn hus => ?_, fun v id user hus hv => ?_⟩
  · rw [hget] at hus
    split at hus
    · next heq => cases hus; exact heq ▸ hnmd
    · exact h.named id user hus
  · rw [hget] at hus
    rw [hmov v] at hfn
    by_cases hnew : v ∈ identities new
    · rw [if_pos hnew] at hfn
      rw [if_pos (some.inj hfn)] at hus
      exact some.inj hus ▸ hnew
    · rw [if_neg hnew] at hfn
      split at hfn
      · cases hfn
      next hnot =>
      split at hus
      · next heq => exact absurd (h.sound v id old hfn (heq ▸ hold)) hnot
      · exact h.sound v id user hfn hus
  · rw [hget] at hus
    rw [hmov v]
    split at hus
    · next heq => cases hus; rw [if_pos hv, heq]
    next hne =>
    have hfn := h.complete v id user hus hv
    rw [if_neg fun hnew => huns v hnew id user hus (Ne.symm hne) hv, if_neg]
    · exact hfn
    · intro hmem
      exact hne (some.inj ((h.complete v uid old hold hmem).symm.trans hfn))

/-- Removing an account with its entries keeps the invariant, and no entry names it any more. -/
theorem erase (h : Inv state) (hold : state.users[uid]? = some old) :
    Inv { users := state.users.erase uid, indexes := state.indexes.unindex old }
      ∧ ∀ v, (state.indexes.unindex old).find v ≠ some uid := by
  have hget : ∀ id : Text, (state.users.erase uid)[id]?
      = if uid = id then none else state.users[id]? := fun id => by
    simp [getElem?_erase]
  refine ⟨⟨fun id user hus => ?_, fun v id user hfn hus => ?_, fun v id user hus hv => ?_⟩,
    fun v hfn => ?_⟩
  · rw [hget] at hus
    split at hus
    · cases hus
    · exact h.named id user hus
  · rw [hget] at hus
    rw [find_unindex] at hfn
    split at hfn
    · cases hfn
    · split at hus
      · cases hus
      · exact h.sound v id user hfn hus
  · rw [hget] at hus
    split at hus
    · cases hus
    next hne =>
    have hfn := h.complete v id user hus hv
    rw [find_unindex, if_neg]
    · exact hfn
    · intro hmem
      exact hne (some.inj ((h.complete v uid old hold hmem).symm.trans hfn))
  · rw [find_unindex] at hfn
    split at hfn
    · cases hfn
    · next hnot => exact hnot (h.sound v uid old hfn hold)

/-- A new record that carries nothing keeps the invariant, if no entry names its id. -/
theorem insert_blank (h : Inv state) (hfr : ∀ v, state.indexes.find v ≠ some uid)
    {record : UserRecord} (hnmd : strField record "localId" = some uid)
    (hemp : identities record = []) :
    Inv { state with users := state.users.insert uid record } := by
  have hget := getElem?_insert_user state.users uid record
  refine ⟨fun id user hus => ?_, fun v id user hfn hus => ?_, fun v id user hus hv => ?_⟩
  · rw [hget] at hus
    split at hus
    · next heq => cases hus; exact heq ▸ hnmd
    · exact h.named id user hus
  · rw [hget] at hus
    split at hus
    · next heq => exact absurd (heq ▸ hfn) (hfr v)
    · exact h.sound v id user hfn hus
  · rw [hget] at hus
    split at hus
    · cases hus; rw [hemp] at hv; cases hv
    · exact h.complete v id user hus hv

end Inv

/-! ### The operations -/

/-- What an update must meet: it is tidy, and no other account carries what it leaves. -/
def OrderlyUpdate (state : ProjectState) (localId : Text) (fields : UserRecord)
    (upserts : List JsonMap) (deletes : List Text) : Prop :=
  ∀ old, state.users[localId]? = some old → Tidy localId old fields upserts deletes ∧
    ∀ v ∈ identities (recordAfter old fields upserts deletes), ∀ (id : Text) (user : UserRecord),
      state.users[id]? = some user → id ≠ localId → v ∉ identities user

theorem Inv.applyUpdate (h : Inv state) (ho : OrderlyUpdate state uid fields upserts deletes) :
    Inv (state.applyUpdate uid fields upserts deletes).1 := by
  unfold ProjectState.applyUpdate
  split
  · exact h
  next old hold =>
  obtain ⟨ht, huns⟩ := ho old hold
  simp only [ht.mfa]
  refine h.write hold (moved_of_tidy ht fun v hv => h.complete v uid old hold hv) ?_ huns
  have hfld : (recordAfter old fields upserts deletes)[ascii "localId"]?
      = (mirror old fields)[ascii "localId"]? := getElem?_updatedRecord _ (by decide)
  exact (congrArg (·.bind Json.asStr) hfld).trans ht.named

/-- No entry names the id. -/
def Unnamed (state : ProjectState) (localId : Text) : Prop :=
  ∀ v, state.indexes.find v ≠ some localId

inductive Operation where
  | create (localId : Text) (props : UserRecord)
  | overwrite (localId : Text) (props : UserRecord) (now : Text)
  | update (localId : Text) (fields : UserRecord) (upserts : List JsonMap) (deletes : List Text)
  | deleteUser (user : UserRecord)
  | deleteUserQuietly (localId : Text)
  | removeUsersQuietly (uids : List Text)
  | deleteAllAccounts

namespace ProjectState

def step (state : ProjectState) : Operation → ProjectState
  | .create uid props => (state.createUserWithLocalId uid props).1
  | .overwrite uid props now => (state.overwriteUserWithLocalId uid props now).1
  | .update uid fields upserts deletes =>
    (state.applyUpdate uid fields upserts deletes).1
  | .deleteUser user => state.deleteUser user
  | .deleteUserQuietly uid => state.deleteUserQuietly uid
  | .removeUsersQuietly uids => state.removeUsersQuietly uids
  | .deleteAllAccounts => state.deleteAllAccounts

/-- An operation that leaves no entry behind. -/
def Orderly (state : ProjectState) : Operation → Prop
  | .create uid props => uid ∉ state.users → Unnamed state uid ∧
      OrderlyUpdate { state with users := state.users.insert uid (blank uid) } uid props
        (providerInfos props) []
  | .overwrite uid props now => (uid ∉ state.users → Unnamed state uid) ∧
      OrderlyUpdate (state.beginOverwrite uid props now) uid props (providerInfos props) []
  | .update uid fields upserts deletes => OrderlyUpdate state uid fields upserts deletes
  | .deleteUser user => ∃ uid, strField user "localId" = some uid
      ∧ state.users[uid]? = some user
  | _ => True

/-- The states that operations meeting `permitted` reach. -/
inductive Run (permitted : ProjectState → Operation → Prop) : ProjectState → Prop
  | start : Run permitted {}
  | next {state : ProjectState} (operation : Operation) : Run permitted state →
      permitted state operation → Run permitted (state.step operation)

/-! ### Every operation keeps the invariant -/

/-- A record with none of the fields that identities come from carries none. -/
theorem identities_eq_nil
    (h : ∀ field ∈ ["email", "initialEmail", "phoneNumber", "providerUserInfo", "passkeyInfo"],
      user[ascii field]? = none) :
    identities user = [] := by
  simp only [mem_cons, not_mem_nil, or_false, forall_eq_or_imp, forall_eq] at h
  obtain ⟨heml, hini, hphn, hpr, hpks⟩ := h
  simp [identities, truthyStr, strField, rawIdentities, providerInfos, passkeyIdentities, passkeys,
    objects, heml, hini, hphn, hpr, hpks]

theorem getElem?_blank (h : ascii "localId" ≠ field) : (blank uid)[field]? = none := by
  simp [blank, h]

theorem identities_blank (uid : Text) : identities (blank uid) = [] := by
  refine identities_eq_nil fun field hfld => getElem?_blank ?_
  revert field
  decide

theorem identities_imported (uid now : Text) (props : UserRecord) :
    identities (imported uid now props) = [] := by
  have hne : ∀ field ∈ ["email", "initialEmail", "phoneNumber", "providerUserInfo",
      "passkeyInfo"], ascii "localId" ≠ ascii field ∧ ascii "createdAt" ≠ ascii field
        ∧ ascii "lastLoginAt" ≠ ascii field := by decide
  refine identities_eq_nil fun field hfld => ?_
  simp [imported, ExtTreeMap.getElem?_insert, hne field hfld, getElem?_blank]

theorem strField_imported (uid now : Text) (props : UserRecord) :
    strField (imported uid now props) "localId" = some uid := by
  have hlg : ¬compare (ascii "lastLoginAt") (ascii "localId") = .eq := by decide
  rfl

section

variable {state : ProjectState} (h : Inv state)

include h

theorem inv_create (ho : Orderly state (.create uid props)) :
    Inv (state.createUserWithLocalId uid props).1 := by
  unfold createUserWithLocalId
  split
  · exact h
  next hnew =>
  obtain ⟨hfr, hupd⟩ := ho hnew
  refine Inv.applyUpdate (h.insert_blank hfr ?_ (identities_blank uid)) hupd
  rfl

/-- An import starts from a record that carries nothing, with the old entries gone. -/
theorem inv_beginOverwrite {now : Text} (hfr : uid ∉ state.users → Unnamed state uid) :
    Inv (state.beginOverwrite uid props now) := by
  unfold beginOverwrite
  split
  · next before hbef =>
    obtain ⟨herd, hunn⟩ := h.erase hbef
    have hin := herd.insert_blank hunn (strField_imported uid now props)
      (identities_imported uid now props)
    have hsm : (state.users.erase uid).insert uid (imported uid now props)
        = state.users.insert uid (imported uid now props) := by
      refine ext_getElem? fun k => ?_
      simp only [ExtTreeMap.getElem?_insert, ExtTreeMap.getElem?_erase]
      split <;> rfl
    rwa [hsm] at hin
  · next hnn =>
    refine h.insert_blank (hfr fun hmem => ?_) (strField_imported uid now props)
      (identities_imported uid now props)
    rw [mem_iff_isSome_getElem?, hnn] at hmem
    cases hmem

theorem inv_deleteUserQuietly (uid : Text) : Inv (state.deleteUserQuietly uid) := by
  unfold deleteUserQuietly
  split
  · exact h
  · next user hus => exact (h.erase hus).1

theorem inv_removeUsersQuietly (uids : List Text) : Inv (state.removeUsersQuietly uids) := by
  induction uids generalizing state with
  | nil => exact h
  | cons uid uids ih => exact ih (inv_deleteUserQuietly h uid)

theorem inv_step {op : Operation} (ho : Orderly state op) :
    Inv (state.step op) := by
  cases op with
  | create uid props => exact inv_create h ho
  | overwrite uid props now => exact (inv_beginOverwrite h ho.1).applyUpdate ho.2
  | update uid fields upserts deletes => exact h.applyUpdate ho
  | deleteUser user =>
    obtain ⟨uid, hid, hus⟩ := ho
    have herd := (h.erase hus).1
    simpa [step, deleteUser, hid] using herd
  | deleteUserQuietly uid => exact inv_deleteUserQuietly h uid
  | removeUsersQuietly uids => exact inv_removeUsersQuietly h uids
  | deleteAllAccounts => exact .empty

end

theorem inv_of_run (run : Run Orderly state) : Inv state := by
  induction run with
  | start => exact .empty
  | next op _ ho ih => exact inv_step ih ho

/-! ### A restart -/

/-- An entry of the rebuilt maps comes from a record. -/
theorem find_foldl_index
    (h : (l.foldl (fun indexes user => indexes.index user.2) indexes).find v = some uid) :
    (∃ b ∈ l, v ∈ identities b.2 ∧ (strField b.2 "localId").getD [] = uid)
      ∨ indexes.find v = some uid := by
  induction l generalizing indexes with
  | nil => exact .inr h
  | cons b l ih =>
    rcases ih h with ⟨c, hc, hv, hid⟩ | h
    · exact .inl ⟨c, mem_cons_of_mem _ hc, hv, hid⟩
    rw [find_index] at h
    split at h
    · next hv => exact .inl ⟨b, mem_cons_self, hv, some.inj h⟩
    · exact .inr h

/-- What a record carries has an entry in the rebuilt maps. -/
theorem find_foldl_index_ne_none (h : (∃ b ∈ l, v ∈ identities b.2) ∨ indexes.find v ≠ none) :
    (l.foldl (fun indexes user => indexes.index user.2) indexes).find v ≠ none := by
  induction l generalizing indexes with
  | nil => exact h.resolve_left fun ⟨b, hb, _⟩ => by cases hb
  | cons b l ih =>
    refine ih ?_
    rw [find_index]
    rcases h with ⟨c, hc, hv⟩ | h
    · rcases mem_cons.mp hc with rfl | hc
      · exact .inr (by rw [if_pos hv]; exact some_ne_none _)
      · exact .inl ⟨c, hc, hv⟩
    · right
      split
      · exact some_ne_none _
      · exact h

theorem find_empty (v : Identity) : ({} : Indexes).find v = none := by
  cases v <;> simp [find]

/-- After a restart every lookup answers as before. -/
theorem lookup_rebuildIndexes (h : Inv state) (v : Identity) :
    state.rebuildIndexes.lookup v = state.lookup v := by
  have hfr : ∀ id, state.rebuildIndexes.indexes.find v = some id →
      ∃ user, state.users[id]? = some user ∧ v ∈ identities user := by
    intro id hfn
    obtain ⟨⟨id', user⟩, hmem, hv, hid⟩ :=
      (find_foldl_index hfn).resolve_right (by rw [find_empty]; exact nofun)
    have hus := mem_toList_iff_getElem?_eq_some.mp hmem
    rw [h.named id' user hus] at hid
    exact ⟨user, hid ▸ hus, hv⟩
  by_cases hcrr : ∃ (id : Text) (user : UserRecord), state.users[id]? = some user
      ∧ v ∈ identities user
  · obtain ⟨id, user, hus, hv⟩ := hcrr
    have hsm : state.rebuildIndexes.indexes.find v ≠ none := find_foldl_index_ne_none
      (.inl ⟨(id, user), mem_toList_iff_getElem?_eq_some.mpr hus, hv⟩)
    obtain ⟨id', hid'⟩ := ne_none_iff_exists'.mp hsm
    obtain ⟨user', hus', hv'⟩ := hfr id' hid'
    have hsa : state.indexes.find v = some id' := h.complete v id' user' hus' hv'
    rw [lookup, lookup, hid', hsa]
    rfl
  · have hnn : state.rebuildIndexes.indexes.find v = none := by
      by_contra hne
      obtain ⟨id, hid⟩ := ne_none_iff_exists'.mp hne
      obtain ⟨user, hus, hv⟩ := hfr id hid
      exact hcrr ⟨id, user, hus, hv⟩
    rw [lookup, lookup, hnn]
    cases hfn : state.indexes.find v with
    | none => rfl
    | some id =>
      cases hus : state.users[id]? with
      | none => simp [hus]
      | some user => exact absurd ⟨id, user, hus, h.sound v id user hfn hus⟩ hcrr

/-! ### Exact lookups -/

/-- A lookup answers accounts that carry what was looked up, and the one account that carries it;
and so it does after a restart. -/
def Exact (state : ProjectState) : Prop :=
  ∀ v : Identity,
    (∀ user, state.lookup v = some user → v ∈ identities user) ∧
    (∀ (id : Text) (user : UserRecord), state.users[id]? = some user → v ∈ identities user →
      (∀ (id' : Text) (user' : UserRecord), state.users[id']? = some user' → v ∈ identities user' →
        id' = id) → state.lookup v = some user) ∧
    state.rebuildIndexes.lookup v = state.lookup v

/-- **Lookups are exact** in every state that orderly operations reach. -/
theorem lookups_exact {state : ProjectState} (run : Run Orderly state) : Exact state := by
  have h := inv_of_run run
  refine fun v => ⟨fun user hlk => ?_, fun id user hus hv _ => ?_, lookup_rebuildIndexes h v⟩
  · obtain ⟨id, hfn, hus⟩ := bind_eq_some_iff.mp hlk
    exact h.sound v id user hfn hus
  · rw [lookup, h.complete v id user hus hv]
    exact hus

/-! ### An account with a password -/

/-- The fields of an account with an email and a password. -/
def withPassword (email : Text) : UserRecord :=
  ((∅ : UserRecord).insert (ascii "email") (.string email)).insert (ascii "passwordHash")
    (.string (ascii "hash"))

def signUp : Operation := .create (ascii "u") (withPassword (ascii "a"))

theorem tidy_signUp : Tidy (ascii "u") (blank (ascii "u")) (withPassword (ascii "a")) [] [] where
  mfa := by decide +kernel
  named := by decide +kernel
  initial := by decide +kernel
  passkeys := by decide +kernel
  upserted := by decide +kernel
  kept := by decide +kernel
  found := by decide +kernel
  dropped := by decide +kernel

theorem orderly_signUp : Orderly {} signUp := by
  intro _
  have hunn : Unnamed {} (ascii "u") := fun v => by
    rw [find_empty]
    exact nofun
  refine ⟨hunn, fun old hold => ?_⟩
  cases hold
  refine ⟨tidy_signUp, fun v _ id user hus hne => ?_⟩
  simp [Ne.symm hne] at hus

/-- The account that signed up is found by its email and by its password's raw id. -/
theorem lookups_exact_signUp : Exact (({} : ProjectState).step signUp)
    ∧ (({} : ProjectState).step signUp).lookup (.raw (ascii "password") (ascii "a")) ≠ none := by
  refine ⟨lookups_exact (.next signUp .start orderly_signUp), ?_⟩
  have hsm : ((({} : ProjectState).step signUp).lookup
      (.raw (ascii "password") (ascii "a"))).isSome = true := by decide +kernel
  exact isSome_iff_ne_none.mp hsm

def changeEmail : Operation :=
  .update (ascii "u") ((∅ : UserRecord).insert (ascii "email") (.string (ascii "b"))) [] []

/-- **An old raw id still answers.** An account with a password changes its email: its password
entry is rewritten in place, and the raw id it had leads to it for good. -/
theorem old_raw_id_answers : ∃ (state : ProjectState) (user : UserRecord),
    Run (fun _ _ => True) state
    ∧ state.lookup (.raw (ascii "password") (ascii "a")) = some user
    ∧ Identity.raw (ascii "password") (ascii "a") ∉ identities user := by
  have hany : (((({} : ProjectState).step signUp).step changeEmail).lookup
      (.raw (ascii "password") (ascii "a"))).any (fun user =>
        !(identities user).contains (.raw (ascii "password") (ascii "a"))) = true := by
    decide +kernel
  obtain ⟨user, hlk, hnot⟩ := (any_eq_true _ _).mp hany
  exact ⟨_, user, .next changeEmail (.next signUp .start trivial) trivial, hlk, by simpa using hnot⟩

end ProjectState

end Firenook.Auth
