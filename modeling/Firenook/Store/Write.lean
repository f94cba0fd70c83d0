import Firenook.Support.ChangeLog
import Firenook.Support.Fallible
import Firenook.Store.Value

/-!
# Writes — one write on the documents, and a commit's plan

A write names one document, checks its precondition against the documents as they stand and
gives the document that replaces it. Masked updates and server-side transforms edit the field
map by path; they keep every map in key order, which the result type `Fields` records.

A plan runs the writes of a commit one after another (`planWrites`). It logs a change when the
derived equality of the source tells the document before a write from the document after it.
That equality is coarser than what is stored: the two zeros are equal. A write that it does not
tell apart, on a document with other bits, is `Silent`; the plan applies it and logs nothing.
-/

namespace Firenook

open Assoc Option List Bool Fallible Value Prod

variable {next : Option Document} {fields : List (Str × Value)} {time : Timestamp} {rev : Nat}

open Binary64 (F64)
open ChangeLog

/-! ### The write language -/

/-- Conditional write guard. -/
inductive Precondition where
  | none
  | existence (expected : Bool)
  | updateTime (expected : Timestamp)
  deriving DecidableEq

/-- A path to a document field: at least one segment, none of them empty. -/
@[ext] structure FieldPath where
  segments : List Str
  valid : segments ≠ [] ∧ ∀ s ∈ segments, s.bytes ≠ []
  deriving DecidableEq

/-- A value with every map in key order. -/
abbrev OrderedValue := { v : Value // v.ordered = true }

/-- Server-side field transforms. -/
inductive TransformOperation where
  | serverTimestamp
  | increment (operand : OrderedValue)
  | arrayUnion (elements : List OrderedValue)
  | arrayRemove (elements : List OrderedValue)
  | maximum (operand : OrderedValue)
  | minimum (operand : OrderedValue)

structure FieldTransform where
  path : FieldPath
  operation : TransformOperation

/-- One atomic mutation in a commit. -/
inductive Write where
  | create (key : DocumentKey) (fields : Fields)
  | set (key : DocumentKey) (fields : Fields) (transforms : List FieldTransform)
      (precondition : Precondition)
  | patch (key : DocumentKey) (fields : Fields) (updateMask : List FieldPath)
      (transforms : List FieldTransform) (precondition : Precondition)
  | delete (key : DocumentKey) (precondition : Precondition)
  | verify (key : DocumentKey) (precondition : Precondition)

/-- Why a commit is refused. -/
inductive CommitError where
  | alreadyExists (key : DocumentKey)
  | existencePrecondition (key : DocumentKey) (expected : Bool)
  | updateTimePrecondition (key : DocumentKey) (expected : Timestamp) (actual : Option Timestamp)
  | invalidNumericTransformOperand (key : DocumentKey) (field : FieldPath)
  | revisionExhausted
  deriving DecidableEq

def writeKey : Write → DocumentKey
  | .create key _ => key
  | .set key _ _ _ => key
  | .patch key _ _ _ _ => key
  | .delete key _ => key
  | .verify key _ => key

/-! ### Editing by path -/

/-- Assigns the value at a path. What is not a map on the way becomes an empty map. -/
def setNestedValue (fields : List (Str × Value)) : List Str → Value → List (Str × Value)
  | [], _ => fields
  | [key], value => insert key value fields
  | key :: next :: rest, value =>
    let child := ((get key fields).bind asMap).getD []
    insert key (.map (setNestedValue child (next :: rest) value)) fields

/-- Removes the value at a path, if maps lead to it. -/
def deleteNestedValue (fields : List (Str × Value)) : List Str → List (Str × Value)
  | [] => fields
  | [key] => erase key fields
  | key :: next :: rest =>
    match (get key fields).bind asMap with
    | some child => insert key (.map (deleteNestedValue child (next :: rest))) fields
    | none => fields

theorem ordered_insert (h : (map fields).ordered = true) (k : Str) {v : Value}
    (hv : v.ordered = true) : (map (insert k v fields)).ordered = true := by
  obtain ⟨hsrt, hall⟩ := (ordered_map_iff _).mp h
  refine (ordered_map_iff _).mpr ⟨sorted_insert hsrt k v, ?_⟩
  intro f hf
  rcases mem_insert hf with rfl | hf
  · exact hv
  · exact hall f hf

theorem ordered_erase (h : (map fields).ordered = true) (k : Str) :
    (map (erase k fields)).ordered = true := by
  obtain ⟨hsrt, hall⟩ := (ordered_map_iff _).mp h
  exact (ordered_map_iff _).mpr ⟨sorted_erase hsrt k, fun f hf => hall f (mem_erase hf)⟩

theorem ordered_of_asMap {v : Value} (hv : v.ordered = true) (h : asMap v = some fields) :
    (map fields).ordered = true := by
  cases v with
  | map entries =>
    obtain rfl := some.inj h
    exact hv
  | _ => cases h

/-- The map below a key of an ordered map is ordered. -/
theorem ordered_child {child : List (Str × Value)} (h : (map fields).ordered = true) {k : Str}
    (hch : (get k fields).bind asMap = some child) : (map child).ordered = true := by
  obtain ⟨v, hv, hmap⟩ := bind_eq_some_iff.mp hch
  refine ordered_of_asMap (ordered_of_get ?_ hv) hmap
  exact (orderedFields_iff _).mpr ((ordered_map_iff _).mp h).2

theorem ordered_setNestedValue {v : Value} (hv : v.ordered = true) :
    ∀ path {fields : List (Str × Value)}, (map fields).ordered = true →
      (map (setNestedValue fields path v)).ordered = true
  | [], _, h => h
  | [key], _, h => ordered_insert h key hv
  | key :: next :: rest, fields, h => by
    refine ordered_insert h key (ordered_setNestedValue hv (next :: rest) ?_)
    cases hch : (get key fields).bind asMap with
    | none => rfl
    | some child => exact ordered_child h hch

theorem ordered_deleteNestedValue :
    ∀ path {fields : List (Str × Value)}, (map fields).ordered = true →
      (map (deleteNestedValue fields path)).ordered = true
  | [], _, h => h
  | [key], _, h => ordered_erase h key
  | key :: next :: rest, fields, h => by
    rw [deleteNestedValue]
    split
    · next child hch =>
      exact ordered_insert h key (ordered_deleteNestedValue (next :: rest) (ordered_child h hch))
    · exact h

theorem ordered_nestedValue {v : Value} :
    ∀ {path : List Str} {fields : List (Str × Value)}, (map fields).ordered = true →
      nestedValue fields path = some v → v.ordered = true
  | [], _, _, hv => by cases hv
  | [key], fields, h, hv =>
    ordered_of_get ((orderedFields_iff _).mpr ((ordered_map_iff _).mp h).2) hv
  | key :: next :: rest, fields, h, hv => by
    obtain ⟨child, hch, hv⟩ := bind_eq_some_iff.mp hv
    exact ordered_nestedValue (ordered_child h hch) hv

namespace Fields

def setPath (f : Fields) (path : FieldPath) (v : OrderedValue) : Fields :=
  ⟨setNestedValue f.entries path.segments v, ordered_setNestedValue v.2 _ f.ordered⟩

def deletePath (f : Fields) (path : FieldPath) : Fields :=
  ⟨deleteNestedValue f.entries path.segments, ordered_deleteNestedValue _ f.ordered⟩

def atPath (f : Fields) (path : FieldPath) : Option OrderedValue :=
  match h : nestedValue f.entries path.segments with
  | some v => some ⟨v, ordered_nestedValue f.ordered h⟩
  | none => none

end Fields

/-! ### Transforms -/

/-- `2_f64.powi(63)`. -/
def twoPow63 : F64 := ⟨0x43E0000000000000⟩

namespace Transform

/-- `i64::saturating_add`. -/
def saturatingAdd (a b : Int64) : Int64 :=
  Int64.ofInt (max (-2 ^ 63) (min (2 ^ 63 - 1) (a.toInt + b.toInt)))

def isNumeric : Value → Bool
  | .integer _ => true
  | .double _ => true
  | _ => false

/-- Adds, or takes the operand where there is no number to add to. -/
def incrementValue (current : Option OrderedValue) (operand : OrderedValue) : OrderedValue :=
  match current.map Subtype.val, operand.val with
  | some (.integer left), .integer right => ⟨.integer (saturatingAdd left right), rfl⟩
  | some (.integer left), .double right => ⟨.double ((F64.ofInt left.toInt).add right), rfl⟩
  | some (.double left), .integer right => ⟨.double (left.add (F64.ofInt right.toInt)), rfl⟩
  | some (.double left), .double right => ⟨.double (left.add right), rfl⟩
  | _, _ => operand

def compareIntegerDouble (integer : Int64) (double : F64) : Ordering :=
  if double.ge twoPow63 then .lt
  else if double.lt twoPow63.neg then .gt
  else
    match compare integer double.trunc.toI64 with
    | .eq =>
      if !double.fract.negative && !double.fract.eq .zero then .lt
      else if double.fract.negative && !double.fract.eq .zero then .gt
      else .eq
    | ordering => ordering

/-- The order of two numbers, neither of them a NaN. -/
def compareNumeric : Value → Value → Ordering
  | .integer left, .integer right => compare left right
  | .double left, .double right => (left.partialCmp right).getD .eq
  | .integer left, .double right => compareIntegerDouble left right
  | .double left, .integer right => (compareIntegerDouble right left).swap
  | _, _ => .eq

def isNanValue : Value → Bool
  | .double value => value.isNan
  | _ => false

/-- The larger or the smaller of two numbers; a NaN wins. -/
def numericBoundValue (current : Option OrderedValue) (operand : OrderedValue)
    (replaceWhen : Ordering) (key : DocumentKey) (field : FieldPath) :
    Except CommitError OrderedValue :=
  if !isNumeric operand.val then .error (.invalidNumericTransformOperand key field)
  else
    match current.filter fun v => isNumeric v.val with
    | none => .ok operand
    | some current =>
      if isNanValue current.val then .ok current
      else if isNanValue operand.val then .ok operand
      else if compareNumeric current.val operand.val = replaceWhen then .ok operand
      else .ok current

def doublesEqual (left right : F64) : Bool := left.eq right || (left.isNan && right.isNan)

def integerDoubleEqual (integer : Int64) (double : F64) : Bool :=
  if !double.isFinite || double.lt twoPow63.neg || double.ge twoPow63 then false
  else double.fract.eq .zero && integer == double.toI64

mutual

/-- The value equality of array transforms. -/
def valuesEqual : Value → Value → Bool
  | .null, .null => true
  | .boolean a, .boolean b => a = b
  | .integer a, .integer b => a = b
  | .double a, .double b => doublesEqual a b
  | .integer a, .double b => integerDoubleEqual a b
  | .double a, .integer b => integerDoubleEqual b a
  | .timestamp a, .timestamp b => a = b
  | .string a, .string b => a = b
  | .bytes a, .bytes b => a = b
  | .reference a, .reference b => a = b
  | .geoPoint a c, .geoPoint b d => doublesEqual a b && doublesEqual c d
  | .array a, .array b => listsEqual a b
  | .map a, .map b => mapsEqual a b
  | .vector a, .vector b =>
    a.length = b.length && (a.zip b).all fun p => doublesEqual p.1 p.2
  | _, _ => false

def listsEqual : List Value → List Value → Bool
  | [], [] => true
  | a :: s, b :: t => valuesEqual a b && listsEqual s t
  | _, _ => false

def mapsEqual : List (Str × Value) → List (Str × Value) → Bool
  | [], [] => true
  | (j, a) :: s, (k, b) :: t => j = k && valuesEqual a b && mapsEqual s t
  | _, _ => false

end

/-- The elements of an array, none for anything else. -/
def elementsOf (current : Option OrderedValue) : List OrderedValue :=
  match current with
  | some ⟨.array values, h⟩ => values.attachWith _ ((orderedList_iff values).mp h)
  | _ => []

def arrayOf (elements : List OrderedValue) : OrderedValue :=
  ⟨.array (elements.map Subtype.val), by
    rw [ordered, orderedList_iff]
    intro v hv
    obtain ⟨e, -, rfl⟩ := mem_map.mp hv
    exact e.2⟩

/-- Appends the elements that are not there yet. -/
def arrayUnion (current : Option OrderedValue) (elements : List OrderedValue) : OrderedValue :=
  arrayOf (elements.foldl (fun result element =>
    if result.any fun existing => valuesEqual existing.val element.val then result
    else result ++ [element]) (elementsOf current))

/-- Removes every occurrence of the elements. -/
def arrayRemove (current : Option OrderedValue) (elements : List OrderedValue) : OrderedValue :=
  arrayOf ((elementsOf current).filter fun existing =>
    !elements.any fun element => valuesEqual existing.val element.val)

end Transform

/-- The value a transform gives, from the one it finds. -/
def transformValue (transformTime : Timestamp) (key : DocumentKey) (transform : FieldTransform)
    (current : Option OrderedValue) : Except CommitError OrderedValue :=
  match transform.operation with
  | .serverTimestamp => .ok ⟨.timestamp transformTime, rfl⟩
  | .increment operand =>
    if !Transform.isNumeric operand.val then
      .error (.invalidNumericTransformOperand key transform.path)
    else .ok (Transform.incrementValue current operand)
  | .arrayUnion elements => .ok (Transform.arrayUnion current elements)
  | .arrayRemove elements => .ok (Transform.arrayRemove current elements)
  | .maximum operand => Transform.numericBoundValue current operand .lt key transform.path
  | .minimum operand => Transform.numericBoundValue current operand .gt key transform.path

/-- Evaluates one transform and assigns its result. -/
def applyTransform (transformTime : Timestamp) (key : DocumentKey) (fields : Fields)
    (transform : FieldTransform) : Except CommitError Fields := do
  let next ← transformValue transformTime key transform (fields.atPath transform.path)
  pure (fields.setPath transform.path next)

/-! ### One write -/

abbrev Documents := ChangeLog.Map DocumentKey Document

def validatePrecondition (key : DocumentKey) (document : Option Document) :
    Precondition → Except CommitError Unit
  | .none => .ok ()
  | .existence expected =>
    if document.isSome = expected then .ok () else .error (.existencePrecondition key expected)
  | .updateTime expected =>
    if document.any fun d => d.updateTime = expected then .ok ()
    else .error (.updateTimePrecondition key expected (document.map Document.updateTime))

/-- Assigns the masked paths the source has a value for and deletes the others. -/
def applyMask (source : Fields) (fields : Fields) (path : FieldPath) : Fields :=
  match source.atPath path with
  | some value => fields.setPath path value
  | none => fields.deletePath path

/-- The document a write leaves under its key. -/
def applyWrite (documents : Documents) (commitTime : Timestamp) :
    Write → Except CommitError (DocumentKey × Option Document)
  | .create key fields =>
    if documents.contains key then .error (.alreadyExists key)
    else .ok (key, some ⟨fields, commitTime, commitTime⟩)
  | .set key fields transforms precondition => do
    let previous := documents[key]?
    validatePrecondition key previous precondition
    let next ← transforms.foldlM (applyTransform commitTime key) fields
    -- an unchanged replacement keeps the stored document and its update time
    if transforms.isEmpty && previous.any fun d => d.fields.eqv next then pure (key, previous)
    else pure (key, some ⟨next, previous.elim commitTime Document.createTime, commitTime⟩)
  | .patch key fields updateMask transforms precondition => do
    let previous := documents[key]?
    validatePrecondition key previous precondition
    let masked := updateMask.foldl (applyMask fields) (previous.elim .empty Document.fields)
    let next ← transforms.foldlM (applyTransform commitTime key) masked
    pure (key, some ⟨next, previous.elim commitTime Document.createTime, commitTime⟩)
  | .delete key precondition => do
    validatePrecondition key documents[key]? precondition
    pure (key, none)
  | .verify key precondition => do
    validatePrecondition key documents[key]? precondition
    pure (key, documents[key]?)

variable {docs : Documents} {w : Write} {other : Documents}

/-- **What a write can leave**: nothing, the document that was there, or one stamped with the
commit's time. -/
theorem applyWrite_cases {key : DocumentKey} (h : applyWrite docs time w = .ok (key, next)) :
    key = writeKey w ∧
      (next = none ∨ next = docs[key]? ∨ ∃ d, next = some d ∧ d.updateTime = time) := by
  cases w with
  | create k fields =>
    simp only [applyWrite] at h
    split at h
    · cases h
    · cases h
      exact ⟨rfl, .inr (.inr ⟨_, rfl, rfl⟩)⟩
  | set k fields transforms precondition =>
    obtain ⟨-, -, h⟩ := bind_eq_ok.mp h
    obtain ⟨fields', -, h⟩ := bind_eq_ok.mp h
    split at h
    · cases h
      exact ⟨rfl, .inr (.inl rfl)⟩
    · cases h
      exact ⟨rfl, .inr (.inr ⟨_, rfl, rfl⟩)⟩
  | patch k fields mask transforms precondition =>
    obtain ⟨-, -, h⟩ := bind_eq_ok.mp h
    obtain ⟨fields', -, h⟩ := bind_eq_ok.mp h
    cases h
    exact ⟨rfl, .inr (.inr ⟨_, rfl, rfl⟩)⟩
  | delete k precondition =>
    obtain ⟨-, -, h⟩ := bind_eq_ok.mp h
    cases h
    exact ⟨rfl, .inl rfl⟩
  | verify k precondition =>
    obtain ⟨-, -, h⟩ := bind_eq_ok.mp h
    cases h
    exact ⟨rfl, .inr (.inl rfl)⟩

/-- A write reads only the document it names. -/
theorem applyWrite_congr (h : docs[writeKey w]? = other[writeKey w]?) (time : Timestamp) :
    applyWrite docs time w = applyWrite other time w := by
  cases w with
  | create k fields =>
    simp only [writeKey] at h
    simp only [applyWrite, Std.ExtTreeMap.contains_eq_isSome_getElem?, h]
  | set | patch | delete | verify =>
    simp only [writeKey] at h
    simp [applyWrite, h]

/-! ### Stored precision -/

namespace Timestamp

/-- The timestamp rounded down to a whole microsecond. -/
def toMicroseconds (t : Timestamp) : Timestamp :=
  ⟨t.seconds, UInt32.ofNat (t.nanos.toNat - t.nanos.toNat % 1000), by
    have h := UInt32.lt_iff_toNat_lt.mp t.valid
    rw [show (1000000000 : UInt32).toNat = 1000000000 from rfl] at h
    rw [UInt32.lt_iff_toNat_lt, UInt32.toNat_ofNat', Nat.mod_eq_of_lt (by omega)]
    exact (Nat.sub_le _ _).trans_lt h⟩

end Timestamp

namespace Value

mutual

/-- Rounds every timestamp of the value down to a whole microsecond. -/
def round : Value → Value
  | .timestamp t => .timestamp t.toMicroseconds
  | .array values => .array (roundList values)
  | .map fields => .map (roundFields fields)
  | v => v

def roundList : List Value → List Value
  | [] => []
  | v :: vs => round v :: roundList vs

def roundFields : List (Str × Value) → List (Str × Value)
  | [] => []
  | (k, v) :: fs => (k, round v) :: roundFields fs

end

theorem map_fst_roundFields (fs : List (Str × Value)) : (roundFields fs).map fst = fs.map fst := by
  induction fs with
  | nil => rfl
  | cons f fs ih => simp [roundFields, ih]

theorem sorted_roundFields {fs : List (Str × Value)} (h : Sorted fs) : Sorted (roundFields fs) := by
  have hky : ((roundFields fs).map fst).Pairwise fun a b => compare a b = .lt := by
    rw [map_fst_roundFields]
    exact pairwise_map.mpr h
  exact pairwise_map.mp hky

mutual

theorem ordered_round : ∀ v : Value, v.ordered = true → v.round.ordered = true
  | .array values, h => ordered_roundList values h
  | .map fields, h => by
    rw [ordered, and_eq_true, decide_eq_true_eq] at h
    rw [round, ordered, and_eq_true, decide_eq_true_eq]
    exact ⟨sorted_roundFields h.1, ordered_roundFields fields h.2⟩
  | .null, h | .boolean _, h | .integer _, h | .double _, h | .timestamp _, h | .string _, h
  | .bytes _, h | .reference _, h | .geoPoint _ _, h | .vector _, h => h

theorem ordered_roundList : ∀ vs : List Value, orderedList vs = true →
    orderedList (roundList vs) = true
  | [], _ => rfl
  | v :: vs, h => by
    rw [orderedList, and_eq_true] at h
    rw [roundList, orderedList, and_eq_true]
    exact ⟨ordered_round v h.1, ordered_roundList vs h.2⟩

theorem ordered_roundFields : ∀ fs : List (Str × Value), orderedFields fs = true →
    orderedFields (roundFields fs) = true
  | [], _ => rfl
  | (_, v) :: fs, h => by
    rw [orderedFields, and_eq_true] at h
    rw [roundFields, orderedFields, and_eq_true]
    exact ⟨ordered_round v h.1, ordered_roundFields fs h.2⟩

end

end Value

def roundOrdered (v : OrderedValue) : OrderedValue := ⟨v.val.round, ordered_round v.val v.2⟩

def Fields.round (f : Fields) : Fields :=
  ⟨roundFields f.entries, ordered_round (.map f.entries) f.ordered⟩

def TransformOperation.round : TransformOperation → TransformOperation
  | .serverTimestamp => .serverTimestamp
  | .increment operand => .increment (roundOrdered operand)
  | .arrayUnion elements => .arrayUnion (elements.map roundOrdered)
  | .arrayRemove elements => .arrayRemove (elements.map roundOrdered)
  | .maximum operand => .maximum (roundOrdered operand)
  | .minimum operand => .minimum (roundOrdered operand)

def FieldTransform.round (t : FieldTransform) : FieldTransform := ⟨t.path, t.operation.round⟩

def Write.round : Write → Write
  | .create key fields => .create key fields.round
  | .set key fields transforms precondition =>
    .set key fields.round (transforms.map FieldTransform.round) precondition
  | .patch key fields mask transforms precondition =>
    .patch key fields.round mask (transforms.map FieldTransform.round) precondition
  | .delete key precondition => .delete key precondition
  | .verify key precondition => .verify key precondition

/-- The writes as a commit stores them. The source borrows a list that rounding leaves as it is. -/
def storedPrecision (writes : List Write) : List Write := writes.map Write.round

/-! ### A commit's writes -/

abbrev Change := ChangeLog.Change DocumentKey Document

/-- The derived `!=` on what a key holds. -/
def differs : Option Document → Option Document → Bool
  | none, none => false
  | some a, some b => !a.eqv b
  | _, _ => true

/-- Runs the writes in order: the documents they leave and the changes that are logged. -/
def planWrites (revision : Nat) (commitTime : Timestamp) (documents : Documents) :
    List Write → Except CommitError (Documents × List Change)
  | [] => .ok (documents, [])
  | write :: writes => do
    let (key, next) ← applyWrite documents commitTime write
    let previous := documents[key]?
    let (final, changes) ← planWrites revision commitTime (put documents key next) writes
    pure (final,
      if differs previous next then ⟨revision, key, previous, next⟩ :: changes else changes)

variable {changes : List Change}

/-- What `planWrites` does when it returns, write by write. -/
inductive Plans (revision : Nat) (time : Timestamp) (final : Documents) :
    Documents → List Write → List Change → Prop
  | nil : Plans revision time final final [] []
  | cons {docs write writes next later}
    (hwrite : applyWrite docs time write = .ok (writeKey write, next))
    (hrest : Plans revision time final (put docs (writeKey write) next) writes later) :
    Plans revision time final docs (write :: writes)
      (if differs docs[writeKey write]? next
        then ⟨revision, writeKey write, docs[writeKey write]?, next⟩ :: later else later)

theorem plans (h : planWrites rev time docs writes = .ok (final, changes)) :
    Plans rev time final docs writes changes := by
  induction writes generalizing docs changes with
  | nil => cases h; exact .nil
  | cons write writes ih =>
    obtain ⟨⟨key, next⟩, hwr, h⟩ := bind_eq_ok.mp h
    obtain ⟨⟨final', later⟩, hrs, h⟩ := bind_eq_ok.mp h
    obtain ⟨rfl, rfl⟩ := mk.inj (pure_eq_ok.mp h)
    obtain ⟨rfl, -⟩ := applyWrite_cases hwr
    exact .cons hwr (ih hrs)

/-- The changes of a commit carry its revision. -/
theorem Plans.revisions (h : Plans rev time final docs writes changes) :
    ∀ c ∈ changes, c.revision = rev := by
  induction h with
  | nil => exact nofun
  | cons _ _ ih =>
    split
    · exact forall_mem_cons.mpr ⟨rfl, ih⟩
    · exact ih

theorem put_agree {writes : List Write} (k : DocumentKey) (next : Option Document)
    (hag : ∀ w ∈ writes, docs[writeKey w]? = other[writeKey w]?) :
    ∀ w ∈ writes, (put docs k next)[writeKey w]? = (put other k next)[writeKey w]? := by
  intro w hw
  by_cases hk : k = writeKey w
  · rw [← hk, getElem?_put_self, getElem?_put_self]
  · rw [getElem?_put_of_ne _ hk, getElem?_put_of_ne _ hk]
    exact hag w hw

/-- **A plan reads only the documents its writes name**: it fails alike or logs the same. -/
theorem planWrites_local : ∀ {docs other : Documents},
    (∀ w ∈ writes, docs[writeKey w]? = other[writeKey w]?) →
    (planWrites rev time docs writes).map snd = (planWrites rev time other writes).map snd := by
  induction writes with
  | nil => exact fun _ => rfl
  | cons write writes ih =>
    intro docs other hag
    have hsm := hag write mem_cons_self
    rw [planWrites, planWrites, applyWrite_congr hsm]
    cases hwr : applyWrite other time write with
    | error e => rfl
    | ok r =>
      obtain ⟨key, next⟩ := r
      obtain ⟨rfl, -⟩ := applyWrite_cases hwr
      have hrs := ih (put_agree (writeKey write) next fun w hw => hag w (mem_cons_of_mem _ hw))
      simp only [ok_bind, hsm]
      revert hrs
      cases planWrites rev time (put docs (writeKey write) next) writes <;>
        cases planWrites rev time (put other (writeKey write) next) writes <;>
        simp +contextual [Except.map]

theorem planWrites_congr (hag : ∀ w ∈ writes, docs[writeKey w]? = other[writeKey w]?)
    (h : planWrites rev time docs writes = .ok (final, changes)) :
    ∃ final', planWrites rev time other writes = .ok (final', changes) := by
  have hsm : (planWrites rev time docs writes).map snd = _ :=
    planWrites_local hag
  rw [h] at hsm
  cases hoth : planWrites rev time other writes with
  | error e => rw [hoth] at hsm; cases hsm
  | ok r => rw [hoth] at hsm; cases hsm; exact ⟨r.1, rfl⟩

/-- A property of the stored documents that the commit's own documents have passes to what the
plan leaves and to what it logs. -/
theorem Plans.property {p : DocumentKey → Document → Prop}
    (h : Plans rev time final docs writes changes)
    (hnew : ∀ k d, d.updateTime = time → p k d) (hold : ∀ k d, docs[k]? = some d → p k d) :
    (∀ k d, final[k]? = some d → p k d) ∧ ∀ c ∈ changes, ∀ d, c.after = some d → p c.key d := by
  induction h with
  | nil => exact ⟨hold, nofun⟩
  | @cons docs write writes next later hwr _ ih =>
    have hnx : ∀ d, next = some d → p (writeKey write) d := by
      intro d hd
      rcases (applyWrite_cases hwr).2 with h | h | ⟨d', h, ht⟩
      · rw [h] at hd
        cases hd
      · exact hold _ d (h ▸ hd)
      · rw [hd] at h
        exact hnew _ d (some.inj h ▸ ht)
    have hput : ∀ k d, (put docs (writeKey write) next)[k]? = some d → p k d := by
      intro k d hd
      by_cases hk : writeKey write = k
      · subst hk
        rw [getElem?_put_self] at hd
        exact hnx d hd
      · rw [getElem?_put_of_ne _ hk] at hd
        exact hold k d hd
    refine (ih hput).imp_right fun hlat => ?_
    split
    · exact forall_mem_cons.mpr ⟨hnx, hlat⟩
    · exact hlat

/-- What a plan leaves under a key was there before or carries the commit's time. -/
theorem Plans.updateTime (h : Plans rev time final docs writes changes) :
    ∀ (k : DocumentKey) d, final[k]? = some d → docs[k]? = some d ∨ d.updateTime = time :=
  (h.property (fun _ _ => .inr) fun _ _ => .inl).1

/-- A plan that names each document once changes it from what it was to what it becomes. -/
theorem Plans.once (h : Plans rev time final docs writes changes)
    (hnd : (writes.map writeKey).Nodup) :
    (∀ k ∉ writes.map writeKey, final[k]? = docs[k]?) ∧
      ∀ c ∈ changes, c.key ∈ writes.map writeKey ∧ c.before = docs[c.key]? ∧
        c.after = final[c.key]? := by
  induction h with
  | nil => exact ⟨fun _ _ => rfl, nofun⟩
  | @cons docs write writes next later _ _ ih =>
    obtain ⟨hnot, hnd⟩ := nodup_cons.mp hnd
    obtain ⟨hkp, hch⟩ := ih hnd
    have hlat : ∀ c ∈ later, c.key ∈ (write :: writes).map writeKey ∧
        c.before = docs[c.key]? ∧ c.after = final[c.key]? := by
      intro c hc
      obtain ⟨hkey, hbef, haft⟩ := hch c hc
      have hne : writeKey write ≠ c.key := fun hkw => hnot (hkw ▸ hkey)
      rw [getElem?_put_of_ne _ hne] at hbef
      exact ⟨mem_cons_of_mem _ hkey, hbef, haft⟩
    refine ⟨fun k hk => ?_, ?_⟩
    · rw [map_cons, mem_cons] at hk
      rw [hkp k (hk ∘ .inr), getElem?_put_of_ne _ fun heq => hk (.inl heq.symm)]
    split
    · refine forall_mem_cons.mpr ⟨⟨mem_cons_self, rfl, ?_⟩, hlat⟩
      rw [hkp _ hnot, getElem?_put_self]
    · exact hlat

/-! ### What the log misses -/

/-- The write replaces a stored document by one with other bits that the derived equality takes
for the same. -/
def Silent (documents : Documents) (time : Timestamp) (w : Write) : Prop :=
  ∃ previous next, documents[writeKey w]? = some previous ∧
    applyWrite documents time w = .ok (writeKey w, some next) ∧
    previous.eqv next = true ∧ previous ≠ next

/-- No write of the list is silent when its turn comes. -/
def NoneSilent (documents : Documents) (time : Timestamp) : List Write → Prop
  | [] => True
  | write :: writes =>
    ¬Silent documents time write ∧
    ∀ next, applyWrite documents time write = .ok (writeKey write, next) →
      NoneSilent (put documents (writeKey write) next) time writes

theorem eq_of_unlogged (hsil : ¬Silent docs time w)
    (hwr : applyWrite docs time w = .ok (writeKey w, next))
    (h : differs docs[writeKey w]? next = false) : docs[writeKey w]? = next := by
  cases hpr : docs[writeKey w]? with
  | none =>
    cases next with
    | none => rfl
    | some d => simp [hpr, differs] at h
  | some prev =>
    cases next with
    | none => simp [hpr, differs] at h
    | some d =>
      by_contra hne
      refine hsil ⟨prev, d, hpr, hwr, ?_, fun he => hne (congrArg some he)⟩
      simpa [hpr, differs] using h

/-- **Without silent writes the logged changes are a two-way delta** between the documents before
and after the commit. -/
theorem Plans.delta (h : Plans rev time final docs writes changes)
    (hsil : NoneSilent docs time writes) :
    undo final changes = docs ∧ redo docs changes = final := by
  induction h with
  | nil => exact ⟨rfl, rfl⟩
  | @cons docs write writes next later hwr _ ih =>
    obtain ⟨hun, hrd⟩ := ih (hsil.2 next hwr)
    split
    · refine ⟨?_, hrd⟩
      change put (undo final later) _ _ = docs
      rw [hun, put_put, put_getElem?]
    · next hdif =>
      have hsm := eq_of_unlogged hsil.1 hwr (by simpa using hdif)
      rw [← hsm, put_getElem?] at hun hrd
      exact ⟨hun, hrd⟩

/-- The keys of the documents follow the logged changes, silent writes or not. -/
theorem Plans.live (h : Plans rev time final docs writes changes)
    (hlv : ∀ k : DocumentKey, docs[k]?.isSome = other[k]?.isSome) :
    ∀ k : DocumentKey, final[k]?.isSome = (redo other changes)[k]?.isSome := by
  induction h generalizing other with
  | nil => exact hlv
  | @cons docs write writes next later _ _ ih =>
    split
    · refine @ih (put other (writeKey write) next) fun k => ?_
      by_cases hk : writeKey write = k
      · subst hk
        rw [getElem?_put_self, getElem?_put_self]
      · rw [getElem?_put_of_ne _ hk, getElem?_put_of_ne _ hk, hlv k]
    · next hdif =>
      refine ih fun k => ?_
      by_cases hk : writeKey write = k
      · rw [← hlv]
        cases hp : docs[writeKey write]? <;> cases hn : next <;>
          simp_all [differs]
      · rw [getElem?_put_of_ne _ hk, hlv k]

/-- A commit whose time no stored document carries logs the first write of every document it
changes, so taking its changes back restores the documents, silent writes or not. -/
theorem Plans.undo {past : List Change} (h : Plans rev time final docs writes changes)
    (hfrs : ∀ k d, docs[k]? = some d → d.updateTime = time → k ∈ past.map ChangeLog.Change.key) :
    undo final (past ++ changes) = undo docs past := by
  induction h generalizing past with
  | nil => rw [append_nil]
  | @cons docs write writes next later hwr _ ih =>
    split
    · -- logged: the change joins the past and covers its key
      have hput := @ih (past ++ [⟨rev, writeKey write, docs[writeKey write]?, next⟩])
        fun k d hd ht => ?_
      · rw [append_assoc, singleton_append] at hput
        rw [hput, undo_append]
        exact congrArg (ChangeLog.undo · past) ((put_put ..).trans (put_getElem? ..))
      rw [map_append, mem_append]
      by_cases hk : writeKey write = k
      · exact .inr (by simp [hk])
      · rw [getElem?_put_of_ne _ hk] at hd
        exact .inl (hfrs k d hd ht)
    · -- unlogged: the document is unchanged, or was written before in this commit
      next hdif =>
      have hcs : docs[writeKey write]? = next ∨
          writeKey write ∈ past.map ChangeLog.Change.key := by
        by_cases hsil : Silent docs time write
        · obtain ⟨prev, d, hpr, hapl, heqv, hne⟩ := hsil
          refine .inr (hfrs _ prev hpr ?_)
          rw [Document.eqv, and_eq_true, decide_eq_true_eq] at heqv
          rw [heqv.2]
          rcases (applyWrite_cases hapl).2 with h | h | ⟨d', h, hd'⟩
          · cases h
          · rw [hpr] at h
            exact absurd (some.inj h).symm hne
          · rw [some.inj h, hd']
        · exact .inl (eq_of_unlogged hsil hwr (by simpa using hdif))
      have hkp := @ih past fun k d hd ht => ?_
      · rw [hkp]
        rcases hcs with h | h
        · rw [← h, put_getElem?]
        · exact undo_put_of_mem docs next h
      · by_cases hk : writeKey write = k
        · subst hk
          rcases hcs with h | h
          · rw [← h, put_getElem?] at hd
            exact hfrs _ d hd ht
          · exact h
        · rw [getElem?_put_of_ne _ hk] at hd
          exact hfrs k d hd ht

end Firenook
