import Firenook.Query.Compare

/-!
# Matching — queries, their predicates and their order

A query selects documents of a scope with a predicate tree and two cursors, and orders them by a
list of fields. `candidateMatches` says whether a document is a result before the offset and the
limit, and `compareOrderValues` orders what matches.

The order values of a candidate are extracted once, and only from a document that has them all:
`rank` is defined on every match (`isSome_rank`). Among candidates of one list of orders the
comparison is a total preorder (the `TransCmp` instance of `OrderKey.compare`).
-/

namespace Firenook.QueryEngine

open Std Option List TransCmp

variable {ed : DatabaseEdition} {key : DocumentKey} {doc : Document}

/-! ### The query language -/

/-- A document field or the document's name. -/
inductive FieldPath where
  | documentId
  | field (segments : List Str)
  deriving DecidableEq

/-- The documents a query looks at before its filters. -/
inductive QueryScope where
  | collection (path : Str)
  | collectionGroup (collectionId : Str)
  deriving DecidableEq

inductive FieldOperator where
  | equal
  | lessThan
  | lessThanOrEqual
  | greaterThan
  | greaterThanOrEqual
  | notEqual
  | «in»
  | notIn
  | arrayContains
  | arrayContainsAny
  deriving DecidableEq

structure FieldFilter where
  path : FieldPath
  operator : FieldOperator
  value : Value
  deriving DecidableEq

/-- A field or composite predicate. -/
inductive Filter where
  | field (filter : FieldFilter)
  | and (filters : List Filter)
  | or (filters : List Filter)

inductive Direction where
  | ascending
  | descending
  deriving DecidableEq

structure Order where
  path : FieldPath
  direction : Direction
  deriving DecidableEq

/-- A start or end position: values of the first sort keys. -/
structure Cursor where
  values : List Value
  inclusive : Bool

/-- Which side of the ordered result a limit retains. -/
inductive Limit where
  | first (count : Nat)
  | last (count : Nat)
  deriving DecidableEq

/-- An executable structured query without a vector stage. -/
structure Query where
  scope : QueryScope
  ancestor : Option Str
  filter : Option Filter
  orders : List Order
  start : Option Cursor
  stop : Option Cursor
  offset : Nat
  limit : Option Limit

/-! ### Field values -/

def databaseText (database : DatabaseName) : List UInt8 :=
  ascii "projects/" ++ database.projectId.bytes ++ ascii "/databases/" ++ database.databaseId.bytes

/-- The full name of a document. -/
def keyText (key : DocumentKey) : List UInt8 :=
  databaseText key.database ++ ascii "/documents/" ++ key.path.bytes

/-- What a path reads from a document. -/
inductive FieldValue where
  | value (v : Value)
  | documentName (name : List UInt8)

def fieldValue (key : DocumentKey) (document : Document) : FieldPath → Option FieldValue
  | .documentId => some (.documentName (keyText key))
  | .field segments => (nestedValue document.fields.entries segments).map .value

namespace FieldValue

def asValue : FieldValue → Option Value
  | .value v => some v
  | .documentName _ => none

def compare (edition : DatabaseEdition) : FieldValue → Value → Ordering
  | .value left, right => compareValues edition left right
  | .documentName left, .reference right => compareResourcePaths left right.bytes
  | .documentName left, .string right => compareResourcePaths left right.bytes
  | .documentName _, _ => .gt

end FieldValue

/-- Whether a range filter may compare the two values. -/
def valuesShareRangeDomain : Value → Value → Bool
  | .integer _, .double r => !r.isNan
  | .double l, .integer _ => !l.isNan
  | .double l, .double r => !l.isNan && !r.isNan
  | .integer _, .integer _ => true
  | .null, .null => true
  | .boolean _, .boolean _ => true
  | .timestamp _, .timestamp _ => true
  | .string _, .string _ => true
  | .bytes _, .bytes _ => true
  | .reference _, .reference _ => true
  | .geoPoint _ _, .geoPoint _ _ => true
  | .array _, .array _ => true
  | .vector _, .vector _ => true
  | .map _, .map _ => true
  | _, _ => false

def FieldValue.rangeCompare (edition : DatabaseEdition) : FieldValue → Value → Option Ordering
  | .value left, right =>
    if valuesShareRangeDomain left right then some (compareValues edition left right) else none
  | .documentName left, .reference right => some (compareResourcePaths left right.bytes)
  | .documentName left, .string right => some (compareResourcePaths left right.bytes)
  | .documentName _, _ => none

/-! ### Predicates -/

/-- A value that is never a member. -/
def isMembershipSentinel : Value → Bool
  | .null => true
  | .double d => d.isNan
  | _ => false

def isNull : Value → Bool
  | .null => true
  | _ => false

/-- What an operator says of the value a path reads. -/
def operatorMatches (edition : DatabaseEdition) (left : FieldValue) (right : Value) :
    FieldOperator → Bool
  | .equal => left.compare edition right = .eq
  | .lessThan => left.rangeCompare edition right = some .lt
  | .lessThanOrEqual => (left.rangeCompare edition right).any (· ≠ .gt)
  | .greaterThan => left.rangeCompare edition right = some .gt
  | .greaterThanOrEqual => (left.rangeCompare edition right).any (· ≠ .lt)
  | .notEqual => !left.asValue.any isNull && left.compare edition right ≠ .eq
  | .in =>
    match right with
    | .array values =>
      (values.filter (!isMembershipSentinel ·)).any fun right =>
        left.compare edition right = .eq
    | _ => false
  | .notIn =>
    match right with
    | .array values =>
      if values.any isNull || left.asValue.any isNull then false
      else values.all fun right => left.compare edition right ≠ .eq
    | _ => false
  | .arrayContains =>
    match left.asValue with
    | some (.array values) => values.any fun value => compareValues edition value right = .eq
    | _ => false
  | .arrayContainsAny =>
    match left.asValue, right with
    | some (.array left), .array right =>
      left.any fun left => (right.filter (!isMembershipSentinel ·)).any fun right =>
        compareValues edition left right = .eq
    | _, _ => false

def fieldFilterMatches (edition : DatabaseEdition) (filter : FieldFilter) (key : DocumentKey)
    (document : Document) : Bool :=
  (fieldValue key document filter.path).any fun left =>
    operatorMatches edition left filter.value filter.operator

mutual

def filterMatches (edition : DatabaseEdition) (key : DocumentKey) (document : Document) :
    Filter → Bool
  | .field filter => fieldFilterMatches edition filter key document
  | .and filters => allMatch edition key document filters
  | .or filters => anyMatches edition key document filters

def allMatch (edition : DatabaseEdition) (key : DocumentKey) (document : Document) :
    List Filter → Bool
  | [] => true
  | filter :: filters =>
    filterMatches edition key document filter && allMatch edition key document filters

def anyMatches (edition : DatabaseEdition) (key : DocumentKey) (document : Document) :
    List Filter → Bool
  | [] => false
  | filter :: filters =>
    filterMatches edition key document filter || anyMatches edition key document filters

end

def applyDirection (ordering : Ordering) : Direction → Ordering
  | .ascending => ordering
  | .descending => ordering.swap

/-- A document against a cursor. `none` is a document without a field the cursor compares. -/
def compareDocumentCursor (edition : DatabaseEdition) (key : DocumentKey) (document : Document) :
    List Order → List Value → Option Ordering
  | order :: orders, cursorValue :: values => do
    let documentValue ← fieldValue key document order.path
    let ordering := applyDirection (documentValue.compare edition cursorValue) order.direction
    if ordering ≠ .eq then pure ordering
    else compareDocumentCursor edition key document orders values
  | _, _ => some .eq

/-- Whether a cursor leaves a document on the given side of it. -/
def cursorAdmits (side : Ordering) (edition : DatabaseEdition) (orders : List Order)
    (key : DocumentKey) (document : Document) (cursor : Cursor) : Bool :=
  (compareDocumentCursor edition key document orders cursor.values).any fun ordering =>
    ordering = side || (cursor.inclusive && ordering = .eq)

def hasOrderFields (orders : List Order) (key : DocumentKey) (document : Document) : Bool :=
  orders.all fun order => (fieldValue key document order.path).isSome

/-- Whether a document is a result, offset and limit apart. -/
def candidateMatches (query : Query) (orders : List Order) (edition : DatabaseEdition)
    (key : DocumentKey) (document : Document) : Bool :=
  query.filter.all (filterMatches edition key document) &&
    hasOrderFields orders key document &&
    query.start.all (cursorAdmits .gt edition orders key document) &&
    query.stop.all (cursorAdmits .lt edition orders key document)

/-! ### Order -/

/-- The order value of one path: `none` is the name. -/
def orderValue : FieldValue → Option Value
  | .value v => some v
  | .documentName _ => none

/-- The order values of a candidate. `none` is a document without one of the fields. -/
def orderValues (key : DocumentKey) (document : Document) (orders : List Order) :
    Option (List (Option Value)) :=
  orders.mapM fun order => (fieldValue key document order.path).map orderValue

/-- An order value, read as the field value it stands for. -/
def orderField (key : DocumentKey) : Option Value → FieldValue
  | some v => .value v
  | none => .documentName (keyText key)

def compareFieldValues (edition : DatabaseEdition) : FieldValue → FieldValue → Ordering
  | .value left, .value right => compareValues edition left right
  | .documentName left, .documentName right => compareResourcePaths left right
  | .value _, .documentName _ => .lt
  | .documentName _, .value _ => .gt

def compareOrderValues (edition : DatabaseEdition) (leftKey rightKey : DocumentKey) :
    List Order → List (Option Value) → List (Option Value) → Ordering
  | order :: orders, left :: lefts, right :: rights =>
    let ordering := applyDirection
      (compareFieldValues edition (orderField leftKey left) (orderField rightKey right))
      order.direction
    if ordering ≠ .eq then ordering
    else compareOrderValues edition leftKey rightKey orders lefts rights
  | _, _, _ => .eq

/-- A candidate's key and its values for a list of orders. -/
@[ext] structure OrderKey (orders : List Order) where
  key : DocumentKey
  values : List (Option Value)
  size : values.length = orders.length
  deriving DecidableEq

def OrderKey.compare (edition : DatabaseEdition) {orders : List Order}
    (left right : OrderKey orders) : Ordering :=
  compareOrderValues edition left.key right.key orders left.values right.values

theorem length_of_orderValues {values : List (Option Value)}
    (h : orderValues key doc orders = some values) : values.length = orders.length := by
  induction orders generalizing values with
  | nil =>
    obtain rfl := some.inj h
    rfl
  | cons order orders ih =>
    rw [orderValues, mapM_cons] at h
    obtain ⟨value, -, h⟩ := bind_eq_some_iff.mp h
    obtain ⟨rest, hrs, h⟩ := bind_eq_some_iff.mp h
    obtain rfl := some.inj h
    rw [length_cons, length_cons, ih hrs]

def rank (query : Query) (orders : List Order) (edition : DatabaseEdition) (key : DocumentKey)
    (document : Document) : Option (OrderKey orders) :=
  if candidateMatches query orders edition key document then
    match h : orderValues key document orders with
    | some values => some ⟨key, values, length_of_orderValues h⟩
    | none => none
  else none

theorem isSome_orderValues (h : hasOrderFields orders key doc = true) :
    (orderValues key doc orders).isSome = true := by
  induction orders with
  | nil => rfl
  | cons order orders ih =>
    obtain ⟨hfld, hfl⟩ := (Bool.and_eq_true _ _).mp (all_cons.symm.trans h)
    obtain ⟨left, hlf⟩ := isSome_iff_exists.mp hfld
    obtain ⟨values, hvl⟩ := isSome_iff_exists.mp (ih hfl)
    rw [orderValues] at hvl
    rw [orderValues, mapM_cons, hlf, hvl]
    rfl

/-- **The order fields of a match are there to be read.** -/
theorem isSome_rank (query : Query) (orders : List Order) (ed : DatabaseEdition)
    (key : DocumentKey) (doc : Document) :
    (rank query orders ed key doc).isSome =
      candidateMatches query orders ed key doc := by
  unfold rank
  split
  · next hmat =>
    have hfl := hmat
    simp only [candidateMatches, Bool.and_eq_true] at hfl
    have hvl := isSome_orderValues hfl.1.1.2
    split
    · rw [hmat]
      rfl
    · next hnn =>
      rw [hnn] at hvl
      cases hvl
  · next hmat => simpa using hmat

theorem key_of_rank {query : Query} {k : OrderKey orders}
    (h : rank query orders ed key doc = some k) : k.key = key := by
  unfold rank at h
  split at h
  · split at h
    · cases h
      rfl
    · cases h
  · cases h

/-! ### The comparison is a preorder -/

instance (edition : DatabaseEdition) : TransCmp (compareFieldValues edition) where
  eq_swap {a b} := by
    cases a <;> cases b
    · exact (inferInstance : OrientedCmp (compareValues edition)).eq_swap
    · rfl
    · rfl
    · exact (inferInstance : OrientedCmp compareResourcePaths).eq_swap
  isLE_trans {a b c} hab hbc := by
    cases a <;> cases b <;> cases c <;> simp only [compareFieldValues] at hab hbc ⊢
    · exact isLE_trans hab hbc
    · rfl
    · cases hbc
    · rfl
    · cases hab
    · cases hab
    · cases hbc
    · exact isLE_trans hab hbc

/-- One sort key, in its direction. -/
def compareDirected (edition : DatabaseEdition) (direction : Direction) (left right : FieldValue) :
    Ordering :=
  applyDirection (compareFieldValues edition left right) direction

instance (edition : DatabaseEdition) (direction : Direction) :
    TransCmp (compareDirected edition direction) := by
  cases direction with
  | ascending => exact inferInstanceAs (TransCmp (compareFieldValues edition))
  | descending =>
    have hsw : compareDirected edition .descending =
        fun left right => compareFieldValues edition right left := by
      funext left right
      exact ((inferInstance : OrientedCmp (compareFieldValues edition)).eq_swap).symm
    rw [hsw]
    exact
      { eq_swap := (inferInstance : OrientedCmp (compareFieldValues edition)).eq_swap
        isLE_trans := fun hab hbc => isLE_trans hbc hab }

theorem compareOrderValues_cons (ed : DatabaseEdition) (leftKey rightKey : DocumentKey)
    (order : Order) (orders : List Order) (left right : Option Value)
    (lefts rights : List (Option Value)) :
    compareOrderValues ed leftKey rightKey (order :: orders) (left :: lefts) (right :: rights) =
      (compareDirected ed order.direction (orderField leftKey left)
        (orderField rightKey right)).then
        (compareOrderValues ed leftKey rightKey orders lefts rights) := by
  rw [compareOrderValues, compareDirected]
  generalize applyDirection _ _ = ordering
  cases ordering <;> rfl

theorem compareOrderValues_swap (ed : DatabaseEdition) (a b : DocumentKey) :
    ∀ (orders : List Order) (l r : List (Option Value)),
      compareOrderValues ed a b orders l r = (compareOrderValues ed b a orders r l).swap
  | [], _, _ | _ :: _, [], _ | _ :: _, _ :: _, [] => by simp [compareOrderValues]
  | order :: orders, l :: ls, r :: rs => by
    rw [compareOrderValues_cons, compareOrderValues_cons, Ordering.swap_then,
      ← compareOrderValues_swap ed a b orders ls rs]
    congr 1
    exact (inferInstance : OrientedCmp (compareDirected ed order.direction)).eq_swap

theorem compareOrderValues_trans (ed : DatabaseEdition) (a b c : DocumentKey) :
    ∀ (orders : List Order) (x y z : List (Option Value)), x.length = orders.length →
      y.length = orders.length → z.length = orders.length →
      (compareOrderValues ed a b orders x y).isLE →
      (compareOrderValues ed b c orders y z).isLE →
      (compareOrderValues ed a c orders x z).isLE
  | [], _, _, _, _, _, _, _, _ => by simp [compareOrderValues]
  | order :: orders, x :: xs, y :: ys, z :: zs, hx, hy, hz, hxy, hyz => by
    rw [compareOrderValues_cons, Ordering.isLE_then_iff_or] at hxy hyz ⊢
    rcases hxy with hxy | ⟨hxy, hxys⟩ <;> rcases hyz with hyz | ⟨hyz, hyzs⟩
    · exact .inl (lt_trans hxy hyz)
    · exact .inl (lt_of_lt_of_eq hxy hyz)
    · exact .inl (lt_of_eq_of_lt hxy hyz)
    · exact .inr ⟨eq_trans hxy hyz, compareOrderValues_trans ed a b c orders xs
        ys zs (Nat.succ.inj hx) (Nat.succ.inj hy) (Nat.succ.inj hz) hxys hyzs⟩

instance (edition : DatabaseEdition) (orders : List Order) :
    TransCmp (OrderKey.compare edition : OrderKey orders → OrderKey orders → Ordering) where
  eq_swap {a b} := compareOrderValues_swap edition a.key b.key orders a.values b.values
  isLE_trans {a b c} :=
    compareOrderValues_trans edition a.key b.key c.key orders _ _ _ a.size b.size c.size

end Firenook.QueryEngine
