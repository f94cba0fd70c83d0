import Firenook.Store.Memory
import Firenook.Disk.FieldIndex

/-!
# Tables — the redb tables and what one transaction does to them

A transaction applies a record's mutations to four tables and to the prefix ids, then stores the
revision and time it reached. Each mutation writes its own key in each table
(`applyMutation_eq_ok`), so the documents table always holds the encoding of exactly the documents
the mutations leave (**`applyMutations_represents`**), and a commit loads what it reads from there
(`loadWriteDocuments_eq_ok`).
-/

namespace Firenook.Disk

open List Std Except Fallible ChangeLog IndexTable

variable {key e : List UInt8} {loaded : Documents} {k : DocumentKey} {docs : Documents}
  {t : Tables}

/-! ### The tables -/

/-- The revision and time of the last commit in the tables. -/
structure PersistedState where
  revision : Nat
  lastCommitTime : Timestamp
  deriving DecidableEq

/-- The documents' figures at a revision. -/
structure PersistedUsage where
  revision : Nat
  usage : LogicalMemoryUsage
  deriving DecidableEq

/-- The redb tables; the metadata table by its keys. -/
structure Tables where
  documents : Table
  collections : Table
  collectionGroups : Table
  fieldIndex : Table
  fieldPrefixes : PrefixIds
  state : Option PersistedState
  fieldIndexRevision : Option Nat
  documentUsage : Option PersistedUsage

def Tables.empty : Tables := ⟨∅, ∅, ∅, ∅, ∅, none, none, none⟩

/-- `PersistedMutation`. -/
structure Mutation where
  key : DocumentKey
  document : Option Document
  deriving DecidableEq

/-- `WalRecord`: a commit as it is journaled and replayed. -/
structure WalRecord where
  revision : Nat
  commitTime : Timestamp
  mutations : List Mutation
  deriving DecidableEq

def WalRecord.fromPlan (plan : CommitPlan) : WalRecord where
  revision := plan.result.revision
  commitTime := plan.result.commitTime
  mutations := plan.changes.map fun c => ⟨c.key, c.after⟩

/-- A codec's failure as the store reports it. -/
def coded {α : Type} (result : Except Bincode.Error α) : Except DiskError α :=
  result.mapError .codec

theorem coded_eq_ok {α : Type} {result : Except Bincode.Error α} {a : α} :
    coded result = .ok a ↔ result = .ok a := by
  cases result with
  | ok | error => simp [coded, Except.mapError]

/-! ### Applying a record -/

section

variable (sha : Sha256)

/-- The entries the stored document under a key holds now. -/
def previousEntries (t : Tables) (encodedKey : List UInt8) (key : DocumentKey) :
    Except DiskError Entries :=
  match t.documents[encodedKey]? with
  | none => .ok []
  | some stored => do
    let fields ← coded (storedIndexFields stored)
    let (found, _) ← entries sha t.fieldPrefixes false key
      (fields.map fun f => (f.1, Indexed.ofStored f.2))
    pure found

/-- The entries the document will hold, with the prefix ids they name. -/
def nextEntries (t : Tables) (m : Mutation) : Except DiskError (Entries × PrefixIds) :=
  match m.document with
  | some document => documentEntries sha t.fieldPrefixes m.key document
  | none => .ok ([], t.fieldPrefixes)

/-- The field-index part of a mutation: only the entries that differ are written. -/
def updateFieldIndex (t : Tables) (encodedKey : List UInt8) (m : Mutation) :
    Except DiskError Tables := do
  let previous ← previousEntries sha t encodedKey m.key
  let (next, fieldPrefixes) ← nextEntries sha t m
  let index := (previous.filter fun e => e ∉ next).foldl (fun i e => i.erase e.1) t.fieldIndex
  let index := (next.filter fun e => e ∉ previous).foldl (fun i e => i.insert e.1 e.2) index
  pure { t with fieldIndex := index, fieldPrefixes }

/-- The field index is left alone when it is switched off. -/
def indexMutation (fieldIndexes : Bool) (t : Tables) (encodedKey : List UInt8) (m : Mutation) :
    Except DiskError Tables :=
  if fieldIndexes then updateFieldIndex sha t encodedKey m else .ok t

/-- One round of the loop of `apply_mutations`. -/
def applyMutation (fieldIndexes : Bool) (t : Tables) (m : Mutation) : Except DiskError Tables := do
  let key ← encodeDocumentKey m.key
  let collectionKey ← encodeCollectionIndexKey m.key
  let collectionGroupKey ← encodeCollectionGroupIndexKey m.key
  let t ← indexMutation sha fieldIndexes t key m
  match m.document with
  | some document => do
    let value ← coded (encodeStoredDocument document)
    pure { t with
      documents := t.documents.insert key value
      collections := t.collections.insert collectionKey key
      collectionGroups := t.collectionGroups.insert collectionGroupKey key }
  | none =>
    pure { t with
      documents := t.documents.erase key
      collections := t.collections.erase collectionKey
      collectionGroups := t.collectionGroups.erase collectionGroupKey }

def applyMutations (fieldIndexes : Bool) (t : Tables) (mutations : List Mutation) :
    Except DiskError Tables :=
  mutations.foldlM (applyMutation sha fieldIndexes) t

/-- `persist_state`: without figures the saved ones stay, with their older revision. -/
def persistState (t : Tables) (state : PersistedState) (fieldIndexes : Bool)
    (usage : Option LogicalMemoryUsage) : Tables :=
  { t with
    state := some state
    fieldIndexRevision := if fieldIndexes then some state.revision else t.fieldIndexRevision
    documentUsage := (usage.map (PersistedUsage.mk state.revision)).or t.documentUsage }

/-- `persist_record`: one transaction. -/
def persistRecord (t : Tables) (record : WalRecord) (fieldIndexes : Bool)
    (usage : Option LogicalMemoryUsage) : Except DiskError Tables := do
  let t ← applyMutations sha fieldIndexes t record.mutations
  pure (persistState t ⟨record.revision, record.commitTime⟩ fieldIndexes usage)

/-! ### Reading -/

/-- `load_persisted_state`: a store never written is at revision zero. -/
def loadPersistedState (t : Tables) : PersistedState := t.state.getD ⟨0, .zero⟩

/-- `field_index_valid`: the index describes the persisted revision. -/
def fieldIndexValid (t : Tables) : Bool := t.fieldIndexRevision == some (loadPersistedState t).revision

def savedUsage (t : Tables) (revision : Nat) : Option LogicalMemoryUsage :=
  (t.documentUsage.filter fun u => u.revision = revision).map PersistedUsage.usage

def decodeStored (entry : List UInt8 × List UInt8) : Except DiskError (DocumentKey × Document) := do
  let key ← decodeDocumentKey entry.1
  let document ← coded (decodeStoredDocument entry.2)
  pure (key, document)

/-- One mutation of `usage_after_record`: the stored document leaves, the mutation's enters. -/
def usageAfterMutation (t : Tables) (usage : LogicalMemoryUsage) (m : Mutation) :
    Except DiskError LogicalMemoryUsage := do
  let key ← encodeDocumentKey m.key
  match t.documents[key]? with
  | none => pure (usage.addEntry m.key m.document)
  | some stored => do
    let before ← coded (decodeStoredDocument stored)
    pure ((usage.subEntry m.key (some before)).addEntry m.key m.document)

/-- `usage` after a record's writes, which have not been applied yet. -/
def usageAfterRecord (t : Tables) (usage : LogicalMemoryUsage) (record : WalRecord) :
    Except DiskError LogicalMemoryUsage :=
  record.mutations.foldlM (usageAfterMutation t) usage

/-- The loop of `rebuild_field_index` over one stored document. -/
def reindexEntry (acc : Table × PrefixIds × LogicalMemoryUsage) (entry : List UInt8 × List UInt8) :
    Except DiskError (Table × PrefixIds × LogicalMemoryUsage) := do
  let (key, document) ← decodeStored entry
  let (found, fieldPrefixes) ← documentEntries sha acc.2.1 key document
  pure (found.foldl (fun i e => i.insert e.1 e.2) acc.1, fieldPrefixes,
    acc.2.2.addEntry key (some document))

/-- `rebuild_field_index`: one transaction, and the documents' figures. -/
def rebuildFieldIndex (t : Tables) : Except DiskError (Tables × LogicalMemoryUsage) := do
  let (fieldIndex, fieldPrefixes, counted) ←
    t.documents.toList.foldlM (reindexEntry sha) (∅, ∅, .zero)
  pure ({ t with
    fieldIndex, fieldPrefixes, fieldIndexRevision := some (loadPersistedState t).revision }, counted)

end

/-- One entry of the documents in the count of an open. -/
def countEntry (usage : LogicalMemoryUsage) (entry : List UInt8 × List UInt8) :
    Except DiskError LogicalMemoryUsage := do
  let (key, document) ← decodeStored entry
  pure (usage.addEntry key (some document))

/-- The documents' figures, and whether they were counted: by the rebuild, or here when none are
saved. -/
def documentFigures (t : Tables) (counted : Option LogicalMemoryUsage) :
    Except DiskError (LogicalMemoryUsage × Bool) :=
  match counted, t.state.bind fun s => savedUsage t s.revision with
  | some counted, _ => .ok (counted, true)
  | none, some saved => .ok (saved, false)
  | none, none => do
    let usage ← t.documents.toList.foldlM countEntry .zero
    pure (usage, true)

/-- `load_database`: the persisted state, the documents' figures and whether they were counted. -/
def loadDatabase (t : Tables) (counted : Option LogicalMemoryUsage) :
    Except DiskError (PersistedState × LogicalMemoryUsage × Bool) := do
  let (usage, recounted) ← documentFigures t counted
  match t.state with
  | some state => pure (state, usage, recounted)
  | none =>
    if usage.entries = 0 then pure (⟨0, .zero⟩, usage, recounted)
    else .error (.corrupt "document table exists without store metadata")

/-- One key of `load_write_documents`. -/
def loadDocument (t : Tables) (documents : Documents) (key : DocumentKey) :
    Except DiskError Documents := do
  let encodedKey ← encodeDocumentKey key
  match t.documents[encodedKey]? with
  | none => pure documents
  | some stored => do
    let document ← coded (decodeStoredDocument stored)
    pure (documents.insert key document)

/-- The stored documents the writes name. -/
def loadWriteDocuments (t : Tables) (writes : List Write) : Except DiskError Documents :=
  (ExtTreeSet.ofList (writes.map writeKey) compare).toList.foldlM (loadDocument t) ∅

/-! ### One mutation -/

/-- What a mutation stores for its document. -/
def Encodes : Option Document → Option (List UInt8) → Prop
  | none, none => True
  | some d, some v => encodeStoredDocument d = .ok v
  | _, _ => False

section

variable {mutations : List Mutation} {sha : Sha256} {fieldIndexes : Bool} {t t' : Tables}
  {m : Mutation}

/-- The field index of a mutation is written beside the other tables. -/
theorem updateFieldIndex_frame (h : updateFieldIndex sha t key m = .ok t') :
    t' = { t with fieldIndex := t'.fieldIndex, fieldPrefixes := t'.fieldPrefixes } := by
  obtain ⟨prev, -, h⟩ := bind_eq_ok.mp h
  obtain ⟨⟨next, ids⟩, -, h⟩ := bind_eq_ok.mp h
  obtain rfl := pure_eq_ok.mp h
  rfl

/-- **What a mutation can do**: its three keys and its document are encodable, and each table is
written at its own key. -/
theorem applyMutation_eq_ok (h : applyMutation sha fieldIndexes t m = .ok t') :
    ∃ key collection group value mid,
      encodeDocumentKey m.key = .ok key ∧ encodeCollectionIndexKey m.key = .ok collection ∧
      encodeCollectionGroupIndexKey m.key = .ok group ∧ Encodes m.document value ∧
      indexMutation sha fieldIndexes t key m = .ok mid ∧
      t' = { t with
        documents := put t.documents key value
        collections := put t.collections collection (value.map fun _ => key)
        collectionGroups := put t.collectionGroups group (value.map fun _ => key)
        fieldIndex := mid.fieldIndex
        fieldPrefixes := mid.fieldPrefixes } := by
  obtain ⟨key, hkey, h⟩ := bind_eq_ok.mp h
  obtain ⟨collection, hcol, h⟩ := bind_eq_ok.mp h
  obtain ⟨group, hgrp, h⟩ := bind_eq_ok.mp h
  obtain ⟨mid, hmid, h⟩ := bind_eq_ok.mp h
  have hfrm : mid = { t with fieldIndex := mid.fieldIndex, fieldPrefixes := mid.fieldPrefixes } := by
    cases fieldIndexes with
    | true => exact updateFieldIndex_frame hmid
    | false =>
      obtain rfl := ok.inj hmid
      rfl
  cases hdoc : m.document with
  | some doc =>
    rw [hdoc] at h
    obtain ⟨value, hval, h⟩ := bind_eq_ok.mp h
    refine ⟨key, collection, group, some value, mid, hkey, hcol, hgrp,
      coded_eq_ok.mp hval, hmid, ?_⟩
    rw [← pure_eq_ok.mp h, hfrm]
    rfl
  | none =>
    rw [hdoc] at h
    refine ⟨key, collection, group, none, mid, hkey, hcol, hgrp, trivial, hmid, ?_⟩
    rw [← pure_eq_ok.mp h, hfrm]
    rfl

theorem applyMutations_cons (h : applyMutations sha fieldIndexes t (m :: mutations) = .ok t') :
    ∃ mid, applyMutation sha fieldIndexes t m = .ok mid ∧
      applyMutations sha fieldIndexes mid mutations = .ok t' := by
  exact bind_eq_ok.mp h

theorem applyMutations_metadata (h : applyMutations sha fieldIndexes t mutations = .ok t') :
    t'.state = t.state ∧ t'.fieldIndexRevision = t.fieldIndexRevision ∧
      t'.documentUsage = t.documentUsage := by
  induction mutations generalizing t with
  | nil =>
    cases h
    exact ⟨rfl, rfl, rfl⟩
  | cons m mutations ih =>
    obtain ⟨mid, hmid, h⟩ := applyMutations_cons h
    obtain ⟨_, _, _, _, _, -, -, -, -, -, hwrn⟩ := applyMutation_eq_ok hmid
    obtain ⟨hste, hidx, husg⟩ := ih h
    rw [hste, hidx, husg, hwrn]
    exact ⟨rfl, rfl, rfl⟩

end

/-! ### The documents the tables represent -/

def mutate (documents : Documents) (mutations : List Mutation) : Documents :=
  mutations.foldl (fun documents m => put documents m.key m.document) documents

theorem mutate_fromPlan (docs : Documents) (plan : CommitPlan) :
    mutate docs (WalRecord.fromPlan plan).mutations = redo docs plan.changes := by
  rw [mutate, WalRecord.fromPlan, foldl_map]
  rfl

/-- The documents table holds the encoding of exactly these documents. -/
structure Represents (t : Tables) (documents : Documents) : Prop where
  table : Describes t.documents fun e v => ∃ (k : DocumentKey) (d : Document),
    documents[k]? = some d ∧ encodeDocumentKey k = .ok e ∧ encodeStoredDocument d = .ok v
  encodable : ∀ (k : DocumentKey) d, documents[k]? = some d →
    ∃ e v, encodeDocumentKey k = .ok e ∧ encodeStoredDocument d = .ok v

theorem represents_empty (h : t.documents = ∅) : Represents t ∅ where
  table := by
    intro e v
    rw [h]
    simp
  encodable := by
    intro k d hd
    simp at hd

namespace Represents

variable {t t' : Tables} {docs : Documents}

section

variable (h : Represents t docs)

include h

theorem congr (hsm : t'.documents = t.documents) :
    Represents t' docs := ⟨hsm ▸ h.table, h.encodable⟩

theorem lookup_none (he : encodeDocumentKey k = .ok e) (hk : docs[k]? = none) :
    t.documents[e]? = none := by
  cases hv : t.documents[e]? with
  | none => rfl
  | some v =>
    obtain ⟨j, d, hd, hj, -⟩ := (h.table e v).mp hv
    obtain rfl := encodeDocumentKey_inj hj he
    rw [hk] at hd
    cases hd

theorem lookup_some {d : Document} (he : encodeDocumentKey k = .ok e) (hk : docs[k]? = some d) :
    ∃ v, t.documents[e]? = some v ∧ encodeStoredDocument d = .ok v := by
  obtain ⟨e', v, he', hv⟩ := h.encodable k d hk
  exact ⟨v, (h.table e v).mpr ⟨k, d, hk, he, hv⟩, hv⟩

/-- Writing one document under its encoded key. -/
theorem put {doc : Option Document} {value : Option (List UInt8)}
    (hkey : encodeDocumentKey k = .ok key) (hval : Encodes doc value)
    (ht' : t'.documents = ChangeLog.put t.documents key value) :
    Represents t' (ChangeLog.put docs k doc) where
  table := by
    intro e v
    rw [ht']
    by_cases he : key = e
    · subst he
      rw [getElem?_put_self]
      refine ⟨?_, ?_⟩
      · rintro rfl
        cases doc with
        | none => cases hval
        | some d => exact ⟨k, d, getElem?_put_self _ _ _, hkey, hval⟩
      · rintro ⟨j, d, hd, hj, hv⟩
        obtain rfl := encodeDocumentKey_inj hj hkey
        rw [getElem?_put_self] at hd
        subst hd
        cases value with
        | none => cases hval
        | some w => rw [ok.inj (hval.symm.trans hv)]
    · rw [getElem?_put_of_ne _ he, h.table e v]
      have hoth : ∀ j, encodeDocumentKey j = .ok e → (ChangeLog.put docs k doc)[j]? = docs[j]? := by
        intro j hj
        refine getElem?_put_of_ne _ ?_ _
        rintro rfl
        exact he (ok.inj (hkey.symm.trans hj))
      refine ⟨?_, ?_⟩
      · rintro ⟨j, d, hd, hj, hv⟩
        exact ⟨j, d, (hoth j hj).trans hd, hj, hv⟩
      · rintro ⟨j, d, hd, hj, hv⟩
        exact ⟨j, d, (hoth j hj).symm.trans hd, hj, hv⟩
  encodable := by
    intro j d hd
    by_cases hj : k = j
    · subst hj
      rw [getElem?_put_self] at hd
      subst hd
      cases value with
      | none => cases hval
      | some v => exact ⟨key, v, hkey, hval⟩
    · rw [getElem?_put_of_ne _ hj] at hd
      exact h.encodable j d hd

end

end Represents

section

variable {sha : Sha256} {fieldIndexes : Bool} {t t' : Tables} {docs : Documents}

theorem applyMutation_represents {m : Mutation} (h : Represents t docs)
    (hm : applyMutation sha fieldIndexes t m = .ok t') :
    Represents t' (put docs m.key m.document) := by
  obtain ⟨key, _, _, value, _, hkey, -, -, hval, -, rfl⟩ := applyMutation_eq_ok hm
  exact h.put hkey hval rfl

/-- **A record's mutations are represented.** -/
theorem applyMutations_represents (h : Represents t docs)
    (ht : applyMutations sha fieldIndexes t mutations = .ok t') :
    Represents t' (mutate docs mutations) := by
  induction mutations generalizing t docs with
  | nil =>
    cases ht
    exact h
  | cons m mutations ih =>
    obtain ⟨mid, hmid, ht⟩ := applyMutations_cons ht
    exact ih (applyMutation_represents h hmid) ht

end

/-! ### Loading -/

theorem loadDocument_eq_ok {loaded' : Documents} (h : Represents t docs)
    (hld : loadDocument t loaded k = .ok loaded') :
    loaded'[k]? = docs[k]?.or loaded[k]? ∧ ∀ j, k ≠ j → loaded'[j]? = loaded[j]? := by
  obtain ⟨e, he, hld⟩ := bind_eq_ok.mp hld
  cases hk : docs[k]? with
  | none =>
    rw [h.lookup_none he hk] at hld
    obtain rfl := pure_eq_ok.mp hld
    exact ⟨rfl, fun _ _ => rfl⟩
  | some d =>
    obtain ⟨v, hv, hd⟩ := h.lookup_some he hk
    rw [hv] at hld
    obtain ⟨d', hd', hld⟩ := bind_eq_ok.mp hld
    obtain rfl := pure_eq_ok.mp hld
    obtain rfl : d = d' :=
      ok.inj ((decodeStoredDocument_encode hd).symm.trans (coded_eq_ok.mp hd'))
    exact ⟨getElem?_put_self loaded k (some d), fun j hj => getElem?_put_of_ne loaded hj (some d)⟩

theorem foldlM_loadDocument (h : Represents t docs) :
    ∀ {keys : List DocumentKey} {loaded loaded' : Documents},
      keys.foldlM (loadDocument t) loaded = .ok loaded' →
      ∀ k, loaded'[k]? = if k ∈ keys then docs[k]?.or loaded[k]? else loaded[k]?
  | [], loaded, loaded', hld, k => by
    cases hld
    simp
  | key :: keys, loaded, loaded', hld, k => by
    obtain ⟨mid, hmid, hld⟩ := bind_eq_ok.mp hld
    obtain ⟨hsl, hoth⟩ := loadDocument_eq_ok h hmid
    rw [foldlM_loadDocument h hld k]
    by_cases hk : key = k
    · subst hk
      rw [hsl]
      by_cases hin : key ∈ keys
      · simp [← Option.or_assoc]
      · simp [hin]
    · rw [hoth k hk]
      simp [Ne.symm hk]

/-- The documents loaded for a commit are the stored ones, at every key it names. -/
theorem loadWriteDocuments_eq_ok {writes : List Write}
    (h : Represents t docs) (hld : loadWriteDocuments t writes = .ok loaded) :
    ∀ w ∈ writes, loaded[writeKey w]? = docs[writeKey w]? := by
  intro w hw
  have hmem : writeKey w ∈ (ExtTreeSet.ofList (writes.map writeKey) compare).toList := by
    rw [ExtTreeSet.mem_toList, ExtTreeSet.mem_ofList, contains_iff_mem]
    exact mem_map_of_mem hw
  rw [foldlM_loadDocument h hld, if_pos hmem]
  simp

end Firenook.Disk
