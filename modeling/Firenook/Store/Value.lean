import Firenook.Support.Assoc
import Firenook.Support.Binary64
import Firenook.Store.Name

/-!
# Values — timestamps, typed values, fields and documents

A `Value` is one of the twelve typed values; a map's bindings are a list in key order. The order
is part of the type of every stored field map: `Fields` and with it `Document` carry the proof
that the map and every map below it is in order (`Value.ordered`).

Two equalities are kept apart. `=` compares what is stored, bit by bit. The derived `PartialEq`
of the source (`Value.eqv`, `Document.eqv`) compares doubles as IEEE does: the zeros are equal,
and a NaN is not equal to itself.
-/

namespace Firenook

open Assoc Std

open Binary64 (F64)

/-! ### Timestamps -/

/-- A timestamp with a normalized nanosecond fraction. -/
@[ext] structure Timestamp where
  seconds : Int64
  nanos : UInt32
  valid : nanos < 1000000000
  deriving DecidableEq

namespace Timestamp

/-- The derived order: by seconds, then by nanoseconds. -/
instance : Ord Timestamp := ⟨compareLex (compareOn seconds) (compareOn nanos)⟩

instance : TransOrd Timestamp :=
  inferInstanceAs (TransCmp (compareLex (compareOn seconds) (compareOn nanos)))

instance : LawfulEqOrd Timestamp := LexOrder.lawfulEqCmp_compareLex Timestamp.ext

instance : LT Timestamp := ltOfOrd

instance : LE Timestamp := leOfOrd

/-- The epoch. -/
def zero : Timestamp := ⟨0, 0, by decide⟩

/-- `i64::saturating_add(1)`. -/
def saturatingSucc (s : Int64) : Int64 := if s.toInt = 2 ^ 63 - 1 then s else s + 1

/-- The next microsecond, staying in the last second when the seconds are exhausted. -/
def saturatingNextMicrosecond (t : Timestamp) : Timestamp :=
  let microseconds := t.nanos.toNat / 1000
  if h : microseconds < 999999 then
    ⟨t.seconds, UInt32.ofNat ((microseconds + 1) * 1000), by
      have hlt : (microseconds + 1) * 1000 < 1000000000 := by omega
      rw [UInt32.lt_iff_toNat_lt, UInt32.toNat_ofNat', Nat.mod_eq_of_lt (by omega)]
      exact hlt⟩
  else ⟨saturatingSucc t.seconds, 0, by decide⟩

end Timestamp

/-! ### Values -/

inductive Value where
  | null
  | boolean (value : Bool)
  | integer (value : Int64)
  | double (value : F64)
  | timestamp (value : Timestamp)
  | string (value : Str)
  | bytes (value : List UInt8)
  | reference (value : Str)
  | geoPoint (latitude longitude : F64)
  | array (values : List Value)
  | map (fields : List (Str × Value))
  | vector (values : List F64)

namespace Value

mutual

/-- Bitwise equality. -/
def same : Value → Value → Bool
  | .null, .null => true
  | .boolean a, .boolean b => a = b
  | .integer a, .integer b => a = b
  | .double a, .double b => a = b
  | .timestamp a, .timestamp b => a = b
  | .string a, .string b => a = b
  | .bytes a, .bytes b => a = b
  | .reference a, .reference b => a = b
  | .geoPoint a c, .geoPoint b d => a = b && c = d
  | .array a, .array b => sameList a b
  | .map a, .map b => sameFields a b
  | .vector a, .vector b => a = b
  | _, _ => false

def sameList : List Value → List Value → Bool
  | [], [] => true
  | a :: s, b :: t => same a b && sameList s t
  | _, _ => false

def sameFields : List (Str × Value) → List (Str × Value) → Bool
  | [], [] => true
  | (j, a) :: s, (k, b) :: t => j = k && same a b && sameFields s t
  | _, _ => false

end

mutual

theorem same_iff : ∀ a b : Value, same a b = true ↔ a = b
  | .null, b | .boolean _, b | .integer _, b | .double _, b | .timestamp _, b | .string _, b
  | .bytes _, b | .reference _, b | .geoPoint .., b | .vector _, b => by cases b <;> simp [same]
  | .array a, b => by cases b <;> simp [same, sameList_iff a]
  | .map a, b => by cases b <;> simp [same, sameFields_iff a]

theorem sameList_iff : ∀ a b : List Value, sameList a b = true ↔ a = b
  | [], b => by cases b <;> simp [sameList]
  | a :: s, b => by cases b <;> simp [sameList, same_iff a, sameList_iff s]

theorem sameFields_iff : ∀ a b : List (Str × Value), sameFields a b = true ↔ a = b
  | [], b => by cases b <;> simp [sameFields]
  | (k, a) :: s, b => by
    cases b with
    | nil => simp [sameFields]
    | cons p t =>
      obtain ⟨j, b⟩ := p
      simp [sameFields, same_iff a, sameFields_iff s]

end

instance : DecidableEq Value := fun a b => decidable_of_iff _ (same_iff a b)

mutual

/-- The derived `PartialEq`. -/
def eqv : Value → Value → Bool
  | .null, .null => true
  | .boolean a, .boolean b => a = b
  | .integer a, .integer b => a = b
  | .double a, .double b => a.eq b
  | .timestamp a, .timestamp b => a = b
  | .string a, .string b => a = b
  | .bytes a, .bytes b => a = b
  | .reference a, .reference b => a = b
  | .geoPoint a c, .geoPoint b d => a.eq b && c.eq d
  | .array a, .array b => eqvList a b
  | .map a, .map b => eqvFields a b
  | .vector a, .vector b => a.length = b.length && (a.zip b).all fun p => p.1.eq p.2
  | _, _ => false

def eqvList : List Value → List Value → Bool
  | [], [] => true
  | a :: s, b :: t => eqv a b && eqvList s t
  | _, _ => false

def eqvFields : List (Str × Value) → List (Str × Value) → Bool
  | [], [] => true
  | (j, a) :: s, (k, b) :: t => j = k && eqv a b && eqvFields s t
  | _, _ => false

end

mutual

/-- Every map in the value has its keys in strictly increasing order. -/
def ordered : Value → Bool
  | .array values => orderedList values
  | .map fields => decide (Sorted fields) && orderedFields fields
  | _ => true

def orderedList : List Value → Bool
  | [] => true
  | v :: vs => ordered v && orderedList vs

def orderedFields : List (Str × Value) → Bool
  | [] => true
  | (_, v) :: fs => ordered v && orderedFields fs

end

theorem orderedList_iff (vs : List Value) : orderedList vs = true ↔ ∀ v ∈ vs, ordered v = true := by
  induction vs with
  | nil => simp [orderedList]
  | cons v vs ih => simp [orderedList, ih]

theorem orderedFields_iff (fs : List (Str × Value)) :
    orderedFields fs = true ↔ ∀ f ∈ fs, ordered f.2 = true := by
  induction fs with
  | nil => simp [orderedFields]
  | cons f fs ih => simp [orderedFields, ih]

theorem ordered_map_iff (fs : List (Str × Value)) :
    ordered (.map fs) = true ↔ Sorted fs ∧ ∀ f ∈ fs, ordered f.2 = true := by
  rw [ordered, Bool.and_eq_true, decide_eq_true_eq, orderedFields_iff]

end Value

/-! ### Paths -/

def asMap : Value → Option (List (Str × Value))
  | .map fields => some fields
  | _ => none

/-- The value at a path of map keys. -/
def nestedValue (fields : List (Str × Value)) : List Str → Option Value
  | [] => none
  | [key] => get key fields
  | key :: next :: rest =>
    ((get key fields).bind asMap).bind fun fields => nestedValue fields (next :: rest)

theorem ordered_of_get {fs : List (Str × Value)} (hord : Value.orderedFields fs = true) {key : Str}
    {v : Value} (h : get key fs = some v) : v.ordered = true := by
  obtain ⟨x, hx, -⟩ := mem_of_get h
  exact (Value.orderedFields_iff fs).mp hord (x, v) hx

/-! ### Documents -/

/-- A document's top-level fields, in field-name order at every depth. -/
@[ext] structure Fields where
  entries : List (Str × Value)
  ordered : (Value.map entries).ordered = true
  deriving DecidableEq

namespace Fields

def empty : Fields := ⟨[], by decide⟩

def sample : Fields := ⟨[(exampleField, .integer 1)], rfl⟩

/-- One field, a double of the given bits. -/
def ofBits (bits : UInt64) : Fields := ⟨[(exampleField, .double ⟨bits⟩)], rfl⟩

/-- The derived `PartialEq`. -/
def eqv (a b : Fields) : Bool := Value.eqvFields a.entries b.entries

theorem sorted (f : Fields) : Sorted f.entries := ((Value.ordered_map_iff _).mp f.ordered).1

end Fields

/-- An immutable stored document. -/
@[ext] structure Document where
  fields : Fields
  createTime : Timestamp
  updateTime : Timestamp
  deriving DecidableEq

/-- The derived `PartialEq`. -/
def Document.eqv (a b : Document) : Bool :=
  a.fields.eqv b.fields && a.createTime = b.createTime && a.updateTime = b.updateTime

end Firenook
