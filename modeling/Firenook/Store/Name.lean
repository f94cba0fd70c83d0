import Firenook.Support.LexOrder
import Firenook.Support.Utf8

/-!
# Names — text, resource ids, database names and document keys

A Rust `str` is its UTF-8 bytes (`Str`), compared byte by byte. A `DatabaseName` and a
`DocumentKey` carry the checks of their constructors (`DatabaseName.new`, `DocumentKey.new`), so
a value of either type is one the store accepts.

Resource paths have an order of their own, `compareResourcePaths`: segment by segment, with the
signed numeric ids `__id<digits>__` first, by their integer (`numericResourceId`). Several
spellings name one integer (`__id5__`, `__id05__`), so the order ties on names that differ.
-/

namespace Firenook

open List Std LawfulEqCmp

variable {bs : List UInt8}

/-! ### Text -/

/-- A Rust string: bytes that are well-formed UTF-8. -/
@[ext] structure Str where
  bytes : List UInt8
  utf8 : Utf8.valid bytes = true
  deriving DecidableEq

/-- The bytes of an ASCII literal. -/
def ascii (s : String) : List UInt8 := s.toList.map fun c => UInt8.ofNat c.toNat

namespace Str

/-- `str::from_utf8`. -/
def fromUtf8 (bs : List UInt8) : Option Str :=
  if h : Utf8.valid bs = true then some ⟨bs, h⟩ else none

@[simp] theorem fromUtf8_bytes (s : Str) : fromUtf8 s.bytes = some s := by
  simp [fromUtf8, s.utf8]

theorem bytes_of_fromUtf8 {s : Str} (h : fromUtf8 bs = some s) : s.bytes = bs := by
  unfold fromUtf8 at h
  split at h
  · cases h; rfl
  · cases h

/-- `str` is ordered by its bytes. -/
instance : Ord Str := ⟨compareOn bytes⟩

theorem compare_def (a b : Str) : compare a b = compare a.bytes b.bytes := rfl

instance : TransOrd Str := inferInstanceAs (TransCmp (compareOn bytes))

instance : LawfulEqOrd Str where
  eq_of_compare h := Str.ext (eq_of_compare (α := List UInt8) h)

/-- Concatenation of texts. -/
def append (a b : Str) : Str := ⟨a.bytes ++ b.bytes, Utf8.valid_append a.utf8 b.utf8⟩

instance : Append Str := ⟨append⟩

@[simp] theorem bytes_append (a b : Str) : (a ++ b).bytes = a.bytes ++ b.bytes := rfl

end Str

/-! ### Splitting at `/` -/

/-- The byte `/`. -/
def slash : UInt8 := 0x2F

/-- `path.split('/')`: at least one segment, none of which holds the separator. -/
def segments (path : List UInt8) : List (List UInt8) := path.splitOn slash

/-- `path.rsplit_once('/')`: what precedes and what follows the last separator. -/
def rsplitOnce : List UInt8 → Option (List UInt8 × List UInt8)
  | [] => none
  | b :: bs =>
    match rsplitOnce bs with
    | some (l, r) => some (b :: l, r)
    | none => if b = slash then some ([], bs) else none

theorem rsplitOnce_eq_none : rsplitOnce bs = none ↔ slash ∉ bs := by
  induction bs with
  | nil => simp [rsplitOnce]
  | cons b bs ih =>
    cases h : rsplitOnce bs with
    | some p => simp [rsplitOnce, h, mt ih.mpr (by simp [h])]
    | none =>
      have hbs := ih.mp h
      by_cases hb : b = slash
      · simp [rsplitOnce, h, hb]
      · simp [rsplitOnce, h, hb, hbs, Ne.symm hb]

/-- The two parts of a split, and that the second one is free of separators. -/
theorem rsplitOnce_eq_some {l r : List UInt8} :
    rsplitOnce bs = some (l, r) ↔ bs = l ++ slash :: r ∧ slash ∉ r := by
  induction bs generalizing l with
  | nil => simp [rsplitOnce]
  | cons b bs ih =>
    cases h : rsplitOnce bs with
    | some p =>
      obtain ⟨l', r'⟩ := p
      have hsm : rsplitOnce (b :: bs) = some (b :: l', r') := by simp [rsplitOnce, h]
      have hin : slash ∈ bs := by
        by_contra hn
        rw [rsplitOnce_eq_none.mpr hn] at h
        cases h
      rw [hsm, Option.some.injEq, Prod.mk.injEq]
      constructor
      · rintro ⟨rfl, rfl⟩
        have key := (ih (l := l')).mp h
        exact ⟨by rw [key.1, cons_append], key.2⟩
      · rintro ⟨hb, hr⟩
        cases l with
        | nil =>
          simp only [nil_append, cons.injEq] at hb
          exact absurd (hb.2 ▸ hin) hr
        | cons x l =>
          simp only [cons_append, cons.injEq] at hb
          have key := (ih (l := l)).mpr ⟨hb.2, hr⟩
          rw [key] at h
          cases h
          exact ⟨by rw [hb.1], rfl⟩
    | none =>
      have hbs := rsplitOnce_eq_none.mp h
      have hval : rsplitOnce (b :: bs) = if b = slash then some ([], bs) else none := by
        simp [rsplitOnce, h]
      rw [hval]
      constructor
      · intro hb
        split at hb
        · next hs => cases hb; exact ⟨by rw [hs]; rfl, hbs⟩
        · cases hb
      · rintro ⟨hb, hr⟩
        cases l with
        | nil =>
          simp only [nil_append, cons.injEq] at hb
          rw [if_pos hb.1, hb.2]
        | cons x l =>
          simp only [cons_append, cons.injEq] at hb
          exact absurd (hb.2 ▸ by simp) hbs

/-! ### Resource ids -/

/-- `byte.is_ascii_digit()`. -/
def isAsciiDigit (b : UInt8) : Bool := 0x30 ≤ b && b ≤ 0x39

/-- The number a string of decimal digits spells. -/
def decimal (bs : List UInt8) : Nat := bs.foldl (fun n b => n * 10 + (b.toNat - 0x30)) 0

/-- `digits.parse::<i64>()`, for an optional sign and decimal digits: `None` out of range. -/
def parseI64 (negative : Bool) (magnitude : List UInt8) : Option Int64 :=
  let n := decimal magnitude
  if negative then
    if n ≤ 2 ^ 63 then some (Int64.ofInt (-n)) else none
  else
    if n < 2 ^ 63 then some (Int64.ofInt n) else none

/-- The signed integer of a Datastore id `__id<digits>__`. -/
def numericResourceId (resourceId : List UInt8) : Option Int64 := do
  let rest ← resourceId.dropPrefix? (ascii "__id")
  let digits ← rest.dropSuffix? (ascii "__")
  let magnitude := (digits.dropPrefix? (ascii "-")).getD digits
  if magnitude.isEmpty || !magnitude.all isAsciiDigit then none
  else parseI64 (digits.dropPrefix? (ascii "-")).isSome magnitude

/-- Numeric ids first, by value; other ids by their bytes. -/
def compareResourceIds (left right : List UInt8) : Ordering :=
  match numericResourceId left, numericResourceId right with
  | some l, some r => compare l r
  | some _, none => .lt
  | none, some _ => .gt
  | none, none => compare left right

/-- The order of resource paths: segment by segment, a proper prefix first. -/
def compareResourcePaths (left right : List UInt8) : Ordering :=
  List.compareLex compareResourceIds (segments left) (segments right)

/-- Why a name is refused. -/
inductive NameError where
  /-- A project or database identifier is empty or contains `/`. -/
  | invalidIdentifier (kind : String) (value : Str)
  /-- A document path is empty, has empty segments, or does not end in a document segment. -/
  | invalidDocumentPath (path : Str)
  /-- An identifier uses the reserved `__.*__` namespace. -/
  | reservedResourceId (resourceId : List UInt8)
  deriving DecidableEq

/-- Refuses the reserved `__.*__` namespace, but for the numeric ids. -/
def validateResourceId (resourceId : List UInt8) : Except NameError Unit :=
  if 4 ≤ resourceId.length ∧ (ascii "__").isPrefixOf resourceId
      ∧ (ascii "__").isSuffixOf resourceId ∧ (numericResourceId resourceId).isNone then
    .error (.reservedResourceId resourceId)
  else .ok ()

/-- The checks of `validate_identifier`. -/
def validateIdentifier (kind : String) (value : Str) : Except NameError Unit :=
  if value.bytes.isEmpty || value.bytes.contains slash then .error (.invalidIdentifier kind value)
  else .ok ()

/-! ### Database names and document keys -/

/-- A project and database pair. -/
@[ext] structure DatabaseName where
  projectId : Str
  databaseId : Str
  project_valid : validateIdentifier "project" projectId = .ok ()
  database_valid : validateIdentifier "database" databaseId = .ok ()
  deriving DecidableEq

namespace DatabaseName

/-- Validates and creates a database name. -/
def new (projectId databaseId : Str) : Except NameError DatabaseName :=
  match hp : validateIdentifier "project" projectId with
  | .error e => .error e
  | .ok () =>
    match hd : validateIdentifier "database" databaseId with
    | .error e => .error e
    | .ok () => .ok ⟨projectId, databaseId, hp, hd⟩

@[simp] theorem new_self (d : DatabaseName) : new d.projectId d.databaseId = .ok d := by
  unfold new
  split
  · next e h => rw [d.project_valid] at h; cases h
  · split
    · next e h => rw [d.database_valid] at h; cases h
    · rfl

/-- Database names are ordered by project, then by database. -/
instance : Ord DatabaseName := ⟨compareLex (compareOn projectId) (compareOn databaseId)⟩

instance : TransOrd DatabaseName :=
  inferInstanceAs (TransCmp (compareLex (compareOn projectId) (compareOn databaseId)))

instance : LawfulEqOrd DatabaseName := LexOrder.lawfulEqCmp_compareLex DatabaseName.ext

end DatabaseName

/-- The checks `DocumentKey::new` makes on a path: at least two segments, an even number of them,
none empty, none reserved. -/
def checkDocumentPath (path : Str) : Except NameError Unit :=
  let parts := segments path.bytes
  if parts.length < 2 ∨ parts.length % 2 ≠ 0 ∨ parts.any isEmpty then
    .error (.invalidDocumentPath path)
  else parts.forM validateResourceId

/-- A validated document key scoped to one named database. -/
@[ext] structure DocumentKey where
  database : DatabaseName
  path : Str
  valid : checkDocumentPath path = .ok ()
  deriving DecidableEq

namespace DocumentKey

/-- Creates a key from an alternating collection/document path. -/
def new (database : DatabaseName) (path : Str) : Except NameError DocumentKey :=
  match h : checkDocumentPath path with
  | .error e => .error e
  | .ok () => .ok ⟨database, path, h⟩

@[simp] theorem new_self (k : DocumentKey) : new k.database k.path = .ok k := by
  unfold new
  split
  · next e h => rw [k.valid] at h; cases h
  · rfl

theorem new_eq_some {db : DatabaseName} {path : Str} {key : DocumentKey}
    (h : (new db path).toOption = some key) : key.database = db ∧ key.path = path := by
  unfold new at h
  split at h
  · cases h
  · obtain rfl := Option.some.inj h
    exact ⟨rfl, rfl⟩

/-- Document keys are ordered by database, then by the bytes of the path. -/
instance : Ord DocumentKey := ⟨compareLex (compareOn database) (compareOn path)⟩

instance : TransOrd DocumentKey :=
  inferInstanceAs (TransCmp (compareLex (compareOn database) (compareOn path)))

instance : LawfulEqOrd DocumentKey := LexOrder.lawfulEqCmp_compareLex DocumentKey.ext

/-- The collection a document lies in. -/
def collectionPath (k : DocumentKey) : List UInt8 := (rsplitOnce k.path.bytes).elim [] Prod.fst

/-- The last segment of a document's path. -/
def documentId (k : DocumentKey) : List UInt8 := (rsplitOnce k.path.bytes).elim [] Prod.snd

/-- The last segment of the collection a document lies in. -/
def collectionId (k : DocumentKey) : List UInt8 := (segments k.collectionPath).getLastD []

section

variable (k : DocumentKey)

include k

theorem two_le_segments : 2 ≤ (segments k.path.bytes).length := by
  have h := k.valid
  unfold checkDocumentPath at h
  simp only at h
  split at h
  · cases h
  · next hc => push Not at hc; exact hc.1

/-- A validated path always has a collection. -/
theorem rsplitOnce_path : rsplitOnce k.path.bytes = some (k.collectionPath, k.documentId) := by
  cases h : rsplitOnce k.path.bytes with
  | none =>
    have hone : segments k.path.bytes = [k.path.bytes] :=
      splitOn_eq_singleton (rsplitOnce_eq_none.mp h)
    have htwo := k.two_le_segments
    rw [hone] at htwo
    simp at htwo
  | some p => simp [collectionPath, documentId, h]

theorem path_bytes : k.path.bytes = k.collectionPath ++ slash :: k.documentId :=
  (rsplitOnce_eq_some.mp k.rsplitOnce_path).1

/-- A path's segments are its collection's and its document id. -/
theorem segments_path : segments k.path.bytes = segments k.collectionPath ++ [k.documentId] := by
  rw [k.path_bytes]
  unfold segments
  rw [splitOn_append_cons_self, splitOn_eq_singleton (rsplitOnce_eq_some.mp k.rsplitOnce_path).2]

theorem length_collectionPath_lt : k.collectionPath.length < k.path.bytes.length := by
  rw [k.path_bytes, length_append, length_cons]
  omega

theorem length_collectionId_le : k.collectionId.length ≤ k.collectionPath.length := by
  unfold collectionId
  cases h : rsplitOnce k.collectionPath with
  | none =>
    rw [segments, splitOn_eq_singleton (rsplitOnce_eq_none.mp h)]
    exact Nat.le_refl _
  | some parts =>
    obtain ⟨heq, hlast⟩ := rsplitOnce_eq_some.mp (show _ = some (parts.1, parts.2) from h)
    rw [heq, segments, splitOn_append_cons_self, splitOn_eq_singleton hlast,
      getLastD_concat, length_append, length_cons]
    omega

end

end DocumentKey

/-! ### Names for the examples -/

def exampleDatabase : DatabaseName := ⟨⟨ascii "p", rfl⟩, ⟨ascii "d", rfl⟩, by decide, by decide⟩

def exampleKey : DocumentKey := ⟨exampleDatabase, ⟨ascii "c/a", rfl⟩, by decide⟩

def otherKey : DocumentKey := ⟨exampleDatabase, ⟨ascii "c/d", rfl⟩, by decide⟩

def exampleField : Str := ⟨ascii "x", rfl⟩

end Firenook
