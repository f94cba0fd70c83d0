import Firenook.Support.Bincode
import Firenook.Support.Words
import Firenook.Store.Write

/-!
# Disk keys — how documents and scope entries are keyed in redb

The documents table is keyed by `encodeDocumentKey`: the length-prefixed project and database,
then the path. The two scope tables order a collection's (a collection group's) documents as the
query engine orders names: after the length-prefixed scope come *ordered ids*
(`orderedResourceId`), the id of the document in one, every segment of its path in the other.

The ordered id is an order code for `compareResourceIds` (**`orderCode_orderedResourceId`**), so
it identifies a resource id exactly up to the spelling of a numeric one: two keys of one database
share a collection entry iff they lie in one collection and their ids tie
(`encodeCollectionIndexKey_eq_iff`), and share a collection-group entry iff their immediate
collections have one id and their paths tie (`encodeCollectionGroupIndexKey_eq_iff`).
-/

namespace Firenook

open List Std

variable {v s t c : List UInt8} {d : DatabaseName} {f : List UInt8} {k a b : DocumentKey}
  {e : List UInt8}

/-- Why a disk operation fails. -/
inductive DiskError where
  | encoding (message : String)
  /-- `Encoding`, with the text of a codec error. -/
  | codec (error : Bincode.Error)
  | corrupt (message : String)
  /-- `Corrupt`, with the text of a name error. -/
  | corruptName (error : NameError)
  | recordTooLarge (bytes limit : Nat)
  | requiresRestart
  | commit (error : CommitError)
  deriving DecidableEq

namespace Disk

open Bytes Fallible LexOrder

/-! ### Ordered resource ids -/

/-- `i64` bits whose unsigned big-endian order is the signed order. -/
def sortableInteger (value : Int64) : UInt64 := value.toUInt64 ^^^ Words.signBit

theorem toNat_sortableInteger (v : Int64) : ((sortableInteger v).toNat : Int) = v.toInt + 2 ^ 63 :=
  Words.toNat_flipSign v

theorem compare_sortableInteger (v w : Int64) :
    compare (sortableInteger v).toNat (sortableInteger w).toNat = compare v w := by
  have hv := toNat_sortableInteger v
  have hw := toNat_sortableInteger w
  rcases Int.lt_trichotomy v.toInt w.toInt with h | h | h
  · rw [compare_eq_lt.mpr (Int64.lt_iff_toInt_lt.mpr h), Nat.compare_eq_lt.mpr (by omega)]
  · obtain rfl := Int64.toInt_inj.mp h
    simp
  · rw [compare_eq_gt.mpr (Int64.lt_iff_toInt_lt.mpr h), Nat.compare_eq_gt.mpr (by omega)]

/-- A resource id so that byte order is query order: numeric ids first, by value. -/
def orderedResourceId (resourceId : List UInt8) : List UInt8 :=
  match numericResourceId resourceId with
  | some numeric => 0 :: beBytes 8 (sortableInteger numeric).toNat
  | none => 1 :: (escape resourceId ++ [0, 0])

theorem orderedResourceId_ne_nil (id : List UInt8) : orderedResourceId id ≠ [] := by
  unfold orderedResourceId
  split <;> simp

theorem sortableInteger_lt (v : Int64) : (sortableInteger v).toNat < 256 ^ 8 := by
  have := (sortableInteger v).toNat_lt
  omega

instance : OrientedCmp compareResourceIds where
  eq_swap {a b} := by
    unfold compareResourceIds
    cases numericResourceId a <;> cases numericResourceId b
    · exact OrientedOrd.eq_swap (α := List UInt8)
    · rfl
    · rfl
    · exact OrientedOrd.eq_swap (α := Int64)

/-- **The ordered id encodes the order of resource ids.** -/
theorem orderCode_orderedResourceId : OrderCode compareResourceIds orderedResourceId where
  eq_of_eq a b h := by
    unfold compareResourceIds at h
    unfold orderedResourceId
    cases ha : numericResourceId a <;> cases hb : numericResourceId b <;> simp only [ha, hb] at h
    · rw [LawfulEqCmp.eq_of_compare h]
    · cases h
    · cases h
    · rw [LawfulEqCmp.eq_of_compare h]
  below_of_lt a b h := by
    unfold compareResourceIds at h
    unfold orderedResourceId
    cases ha : numericResourceId a <;> cases hb : numericResourceId b <;> simp only [ha, hb] at h
    · exact (escape_below h (by decide) [] [0, 0]).cons 1
    · cases h
    · exact .of_lt (by decide) _ _
    · next v w =>
      rw [← compare_sortableInteger, Nat.compare_eq_lt] at h
      exact (beBytes_below (sortableInteger_lt w) h).cons 0

instance : TransCmp compareResourceIds := orderCode_orderedResourceId.transCmp

instance : TransCmp compareResourcePaths where
  eq_swap := (inferInstance : OrientedCmp (List.compareLex compareResourceIds)).eq_swap
  isLE_trans := (inferInstance : TransCmp (List.compareLex compareResourceIds)).isLE_trans

/-- The concatenated ordered ids of a path's segments compare as the paths do. -/
theorem compare_orderedPath (p q : List UInt8) :
    compare ((segments p).flatMap orderedResourceId) ((segments q).flatMap orderedResourceId)
      = compareResourcePaths p q :=
  orderCode_orderedResourceId.compare_flatMap orderedResourceId_ne_nil _ _

/-! ### Length-prefixed names -/

/-- The bytes `push_length_prefixed` appends. -/
def lengthPrefixed (value : List UInt8) : Except DiskError (List UInt8) :=
  if value.length < 2 ^ 32 then .ok (beBytes 4 value.length ++ value)
  else .error (.encoding "resource identifier exceeds u32 bytes")

theorem lengthPrefixed_eq_ok :
    lengthPrefixed v = .ok e ↔ v.length < 2 ^ 32 ∧ e = beBytes 4 v.length ++ v := by
  unfold lengthPrefixed
  split
  · next h =>
    rw [Except.ok.injEq]
    exact ⟨fun e => ⟨h, e.symm⟩, fun e => e.2.symm⟩
  · next h => exact ⟨nofun, fun e => absurd e.1 h⟩

/-- A length-prefixed name ends where its length says. -/
theorem lengthPrefixed_append_inj {w : List UInt8} (hv : lengthPrefixed v = .ok e)
    (hw : lengthPrefixed w = .ok f) (h : e ++ s = f ++ t) : v = w ∧ e = f ∧ s = t := by
  obtain ⟨hvl, rfl⟩ := lengthPrefixed_eq_ok.mp hv
  obtain ⟨hwl, rfl⟩ := lengthPrefixed_eq_ok.mp hw
  rw [append_assoc, append_assoc] at h
  have hlen := append_inj h (by simp)
  have hvw : v.length = w.length := beBytes_injective (by omega) (by omega) hlen.1
  have hrs := append_inj hlen.2 hvw
  exact ⟨hrs.1, by rw [hrs.1], hrs.2⟩

def databasePrefix (database : DatabaseName) : Except DiskError (List UInt8) := do
  let project ← lengthPrefixed database.projectId.bytes
  let name ← lengthPrefixed database.databaseId.bytes
  return project ++ name

def encodeDocumentKey (key : DocumentKey) : Except DiskError (List UInt8) := do
  let encoded ← databasePrefix key.database
  return encoded ++ key.path.bytes

/-- `decode_length_prefixed_string`: the name at the front, and what follows it. -/
def decodeLengthPrefixedString (bytes : List UInt8) : Except DiskError (Str × List UInt8) :=
  if bytes.length < 4 then .error (.corrupt "document key length is truncated")
  else
    let length := ofBytes (bytes.take 4)
    let rest := bytes.drop 4
    if rest.length < length then .error (.corrupt "document key value is truncated")
    else
      match Str.fromUtf8 (rest.take length) with
      | some value => .ok (value, rest.drop length)
      | none => .error (.corrupt "document key value is not UTF-8")

def decodeDocumentKey (bytes : List UInt8) : Except DiskError DocumentKey := do
  let (projectId, rest) ← decodeLengthPrefixedString bytes
  let (databaseId, rest) ← decodeLengthPrefixedString rest
  match Str.fromUtf8 rest with
  | none => .error (.corrupt "document key path is not UTF-8")
  | some path => do
    let database ← (DatabaseName.new projectId databaseId).mapError .corruptName
    (DocumentKey.new database path).mapError .corruptName

def collectionIndexPrefix (database : DatabaseName) (collectionPath : List UInt8) :
    Except DiskError (List UInt8) := do
  let encoded ← databasePrefix database
  let scope ← lengthPrefixed collectionPath
  return encoded ++ scope

/-- `collection_group_index_prefix`: the same bytes for a collection id. -/
def collectionGroupIndexPrefix (database : DatabaseName) (collectionId : List UInt8) :
    Except DiskError (List UInt8) :=
  collectionIndexPrefix database collectionId

/-- `immediate_collection_id`: the last segment of the collection a document lies in. -/
def immediateCollectionId (documentPath : List UInt8) : Option (List UInt8) :=
  (rsplitOnce documentPath).bind fun parts => (segments parts.1).getLast?

def encodeCollectionIndexKey (key : DocumentKey) : Except DiskError (List UInt8) :=
  match rsplitOnce key.path.bytes with
  | none => .error (.corrupt "document path has no collection")
  | some (collectionPath, documentId) => do
    let encoded ← collectionIndexPrefix key.database collectionPath
    return encoded ++ orderedResourceId documentId

def encodeCollectionGroupIndexKey (key : DocumentKey) : Except DiskError (List UInt8) :=
  match immediateCollectionId key.path.bytes with
  | none => .error (.corrupt "document path has no collection group")
  | some collectionId => do
    let encoded ← collectionGroupIndexPrefix key.database collectionId
    return encoded ++ (segments key.path.bytes).flatMap orderedResourceId

/-! ### What the keys identify -/

theorem decodeLengthPrefixedString_append {v : Str} (h : lengthPrefixed v.bytes = .ok e)
    (rest : List UInt8) : decodeLengthPrefixedString (e ++ rest) = .ok (v, rest) := by
  obtain ⟨hlen, rfl⟩ := lengthPrefixed_eq_ok.mp h
  have htk : (beBytes 4 v.bytes.length ++ (v.bytes ++ rest)).take 4 = beBytes 4 v.bytes.length :=
    take_left' (length_beBytes 4 _)
  have hdr : (beBytes 4 v.bytes.length ++ (v.bytes ++ rest)).drop 4 = v.bytes ++ rest :=
    drop_left' (length_beBytes 4 _)
  unfold decodeLengthPrefixedString
  rw [append_assoc, if_neg (by simp)]
  simp only [htk, hdr, ofBytes_beBytes (show v.bytes.length < 256 ^ 4 by omega)]
  rw [if_neg (by simp), take_left, drop_left, Str.fromUtf8_bytes]

/-- **A document's table key decodes to the document's key.** -/
theorem decodeDocumentKey_encode (h : encodeDocumentKey k = .ok e) :
    decodeDocumentKey e = .ok k := by
  simp only [encodeDocumentKey, databasePrefix, bind_eq_ok, pure_eq_ok] at h
  obtain ⟨p, ⟨x, hx, y, hy, rfl⟩, rfl⟩ := h
  unfold decodeDocumentKey
  simp [decodeLengthPrefixedString_append hx, decodeLengthPrefixedString_append hy, Except.mapError]

theorem encodeDocumentKey_too_long {k : DocumentKey}
    (h : 2 ^ 32 ≤ k.database.projectId.bytes.length ∨ 2 ^ 32 ≤ k.database.databaseId.bytes.length) :
    encodeDocumentKey k = .error (.encoding "resource identifier exceeds u32 bytes") := by
  unfold encodeDocumentKey databasePrefix lengthPrefixed
  by_cases hp : k.database.projectId.bytes.length < 2 ^ 32
  · rw [if_pos hp, if_neg (h.resolve_left hp.not_ge).not_gt]
    rfl
  · rw [if_neg hp]
    rfl

/-- **The ordered encoding of resource paths.** Byte order is path order, no segment's encoding is a
proper prefix of another's, and table keys decode, or are refused for the length of an id. -/
theorem orderedResourceId_embeds :
    (∀ p q, compare ((segments p).flatMap orderedResourceId) ((segments q).flatMap orderedResourceId) =
      compareResourcePaths p q) ∧
    (∀ s t, orderedResourceId s <+: orderedResourceId t → orderedResourceId s = orderedResourceId t) ∧
    ∀ k : DocumentKey, (k.database.projectId.bytes.length < 2 ^ 32 →
      k.database.databaseId.bytes.length < 2 ^ 32 →
      ∃ e, encodeDocumentKey k = .ok e ∧ decodeDocumentKey e = .ok k) ∧
      (2 ^ 32 ≤ k.database.projectId.bytes.length ∨ 2 ^ 32 ≤ k.database.databaseId.bytes.length →
        encodeDocumentKey k = .error (.encoding "resource identifier exceeds u32 bytes")) := by
  refine ⟨compare_orderedPath, fun s t => orderCode_orderedResourceId.prefix_free,
    fun k => ⟨fun hprj hdb => ?_, encodeDocumentKey_too_long⟩⟩
  have hp := lengthPrefixed_eq_ok.mpr ⟨hprj, rfl⟩
  have hd := lengthPrefixed_eq_ok.mpr ⟨hdb, rfl⟩
  obtain ⟨e, he⟩ : ∃ e, encodeDocumentKey k = .ok e := by
    simp [encodeDocumentKey, databasePrefix, hp, hd]
  exact ⟨e, he, decodeDocumentKey_encode he⟩

theorem orderedResourceId_embeds_example : ∃ e, encodeDocumentKey exampleKey = .ok e ∧
    decodeDocumentKey e = .ok exampleKey :=
  (orderedResourceId_embeds.2.2 exampleKey).1 (by decide) (by decide)

/-- A project id of `2 ^ 32` bytes is valid, and its documents have no table key. -/
theorem encodeDocumentKey_refused : ∃ k : DocumentKey,
    encodeDocumentKey k = .error (.encoding "resource identifier exceeds u32 bytes") := by
  have hutf8 : ∀ n, Utf8.valid (replicate n 97) = true := fun n => by
    induction n with
    | zero => rfl
    | succ n ih => exact Utf8.valid_append (s := [97]) rfl ih
  -- the length stays a variable, so that nothing evaluates the identifier
  obtain ⟨n, hn⟩ : ∃ n, 2 ^ 32 ≤ n := ⟨_, le_rfl⟩
  have hprj : validateIdentifier "project" ⟨replicate n 97, hutf8 n⟩ = .ok () := by
    have hpos : n ≠ 0 := by omega
    simp [validateIdentifier, slash, hpos]
  exact ⟨⟨⟨_, ⟨ascii "d", rfl⟩, hprj, by decide⟩, ⟨ascii "c/a", rfl⟩, by decide⟩,
    encodeDocumentKey_too_long (.inl (by rwa [length_replicate]))⟩

theorem encodeDocumentKey_inj (ha : encodeDocumentKey a = .ok e)
    (hb : encodeDocumentKey b = .ok e) :
    a = b := by
  have key := decodeDocumentKey_encode ha
  rw [decodeDocumentKey_encode hb] at key
  exact (Except.ok.inj key).symm

theorem immediateCollectionId_path (k : DocumentKey) :
    immediateCollectionId k.path.bytes = some k.collectionId := by
  have hne : segments k.collectionPath ≠ [] := splitOn_ne_nil _ _
  rw [immediateCollectionId, k.rsplitOnce_path, Option.bind_some, DocumentKey.collectionId,
    getLastD_eq_getLast?, getLast?_eq_some_getLast hne, Option.getD_some]

/-- The parts of a scope prefix. -/
theorem collectionIndexPrefix_eq_ok : collectionIndexPrefix d c = .ok e ↔
      ∃ p, databasePrefix d = .ok p ∧ ∃ s, lengthPrefixed c = .ok s ∧ p ++ s = e := by
  simp only [collectionIndexPrefix, bind_eq_ok, pure_eq_ok]

/-- A collection entry is the scope's prefix and the document's ordered id. -/
theorem encodeCollectionIndexKey_eq_ok :
    encodeCollectionIndexKey k = .ok e ↔ ∃ p, collectionIndexPrefix k.database k.collectionPath
      = .ok p ∧ p ++ orderedResourceId k.documentId = e := by
  unfold encodeCollectionIndexKey
  rw [k.rsplitOnce_path]
  simp only [bind_eq_ok, pure_eq_ok]

/-- A collection-group entry is the scope's prefix and the path's ordered ids. -/
theorem encodeCollectionGroupIndexKey_eq_ok : encodeCollectionGroupIndexKey k = .ok e ↔
      ∃ p, collectionGroupIndexPrefix k.database k.collectionId = .ok p
        ∧ p ++ (segments k.path.bytes).flatMap orderedResourceId = e := by
  unfold encodeCollectionGroupIndexKey
  rw [immediateCollectionId_path]
  simp only [bind_eq_ok, pure_eq_ok]

/-- Two scope entries of one database with one key lie in one scope and end in one string. -/
theorem collectionIndexPrefix_append_inj {c' p q : List UInt8}
    (hp : collectionIndexPrefix d c = .ok p) (hq : collectionIndexPrefix d c' = .ok q) :
    p ++ s = q ++ t ↔ c = c' ∧ s = t := by
  obtain ⟨r, hr, x, hx, rfl⟩ := collectionIndexPrefix_eq_ok.mp hp
  obtain ⟨r', hr', y, hy, rfl⟩ := collectionIndexPrefix_eq_ok.mp hq
  obtain rfl : r = r' := Except.ok.inj (hr.symm.trans hr')
  refine ⟨fun h => ?_, fun ⟨hc, hs⟩ => ?_⟩
  · rw [append_assoc, append_assoc] at h
    have key := lengthPrefixed_append_inj hx hy (append_cancel_left h)
    exact ⟨key.1, key.2.2⟩
  · subst hc hs
    obtain rfl : x = y := Except.ok.inj (hx.symm.trans hy)
    rfl

/-- Two keys of one database share a collection entry iff they lie in one collection and their
ids tie. -/
theorem encodeCollectionIndexKey_eq_iff (hd : a.database = b.database)
    (ha : encodeCollectionIndexKey a = .ok e) (hb : encodeCollectionIndexKey b = .ok f) :
    e = f ↔ a.collectionPath = b.collectionPath
      ∧ compareResourceIds a.documentId b.documentId = .eq := by
  obtain ⟨p, hp, rfl⟩ := encodeCollectionIndexKey_eq_ok.mp ha
  obtain ⟨q, hq, rfl⟩ := encodeCollectionIndexKey_eq_ok.mp hb
  rw [← hd] at hq
  rw [collectionIndexPrefix_append_inj hp hq]
  refine and_congr_right fun _ => ⟨?_, ?_⟩
  · intro hids
    rw [← orderCode_orderedResourceId.compare_encode, hids]
    exact ReflCmp.compare_self
  · exact orderCode_orderedResourceId.eq_of_eq _ _

/-- Two keys of one database share a collection-group entry iff their immediate collections have
one id and their paths tie. -/
theorem encodeCollectionGroupIndexKey_eq_iff (hd : a.database = b.database)
    (ha : encodeCollectionGroupIndexKey a = .ok e) (hb : encodeCollectionGroupIndexKey b = .ok f) :
    e = f ↔ a.collectionId = b.collectionId
      ∧ compareResourcePaths a.path.bytes b.path.bytes = .eq := by
  obtain ⟨p, hp, rfl⟩ := encodeCollectionGroupIndexKey_eq_ok.mp ha
  obtain ⟨q, hq, rfl⟩ := encodeCollectionGroupIndexKey_eq_ok.mp hb
  rw [← hd] at hq
  rw [collectionIndexPrefix_append_inj hp hq, ← compare_orderedPath]
  exact and_congr_right fun _ => LawfulEqCmp.compare_eq_iff_eq.symm

end Disk

end Firenook
