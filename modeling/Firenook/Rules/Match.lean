import Firenook.Store.Memory

/-!
# Rules — Match

How a ruleset decides a `list` request without a filter (`evaluator.rs`, `query_constraints.rs`).
The request names a domain of paths, not one document: the segments of its collection and one
unknown document id. A match block applies when its pattern covers the domain, with every wildcard
bound to the segment it meets or to an unknown; the request is allowed when a condition of some
block says so. A condition is a function of the bindings, the request and the stored documents.
-/

namespace Firenook.Rules

/-- Text as UTF-8 bytes. -/
abbrev Text := List UInt8

inductive PatternSegment where
  | literal (text : Text)
  | wildcard (name : Text)
  | recursiveWildcard (name : Text)

inductive RequestOperation where
  | get
  | list
  | create
  | update
  | delete
  deriving DecidableEq

inductive QueryScope where
  | collection (path : Text)
  | collectionGroup (collectionId : Text) (ancestor : Option Text)

/-- A segment of a domain of paths. -/
inductive Segment where
  | literal (text : Text)
  | any
  | descendants

inductive Bound where
  | string (text : Text)
  | path (text : Text)
  | unknown

abbrev Bindings := Std.ExtTreeMap Text Bound

/-- Segments as a path. -/
def join (parts : List Text) : Text := [slash].intercalate parts

/-- A `list` request and its query, which has no filter. -/
structure ListRequest (Auth : Type) where
  databaseId : Text
  auth : Option Auth
  time : Timestamp
  limit : Option Int
  offset : Option Int
  orderBy : List (Text × Text)
  scope : QueryScope

/-- The domain a query's scope names under its database. -/
def domain (databaseId : Text) (scope : QueryScope) : List Segment :=
  let root := [.literal (ascii "databases"), .literal databaseId, .literal (ascii "documents")]
  match scope with
  | .collection path => root ++ (segments path).map .literal ++ [.any]
  | .collectionGroup collectionId ancestor =>
    root ++ (ancestor.elim [] segments).map .literal ++
      [.descendants, .literal collectionId, .any]

/-- What a recursive wildcard is bound to by the segments it covers. -/
def boundPath (covered : List Segment) : Bound :=
  match covered.mapM fun | .literal text => some text | _ => none with
  | some parts => .path (slash :: join parts)
  | none => .unknown

def matchDomain : List PatternSegment → List Segment → Bindings → Option Bindings
  | [], domain, bindings => if domain.isEmpty then some bindings else none
  | .literal expected :: rest, .literal actual :: tail, bindings =>
    if expected = actual then matchDomain rest tail bindings else none
  | .literal _ :: _, _, _ => none
  | .wildcard name :: rest, .literal value :: tail, bindings =>
    matchDomain rest tail (bindings.insert name (.string value))
  | .wildcard name :: rest, .any :: tail, bindings =>
    matchDomain rest tail (bindings.insert name .unknown)
  | .wildcard _ :: _, _, _ => none
  | .recursiveWildcard name :: rest, domain, bindings =>
    (List.range (domain.length + 1)).findSome? fun covered =>
      matchDomain rest (domain.drop covered)
        (bindings.insert name (boundPath (domain.take covered)))

/-- An `allow` statement; a condition that errs or is not boolean does not allow. -/
structure Allow (Auth : Type) where
  operations : List RequestOperation
  condition : Bindings → ListRequest Auth → Documents → Bool

inductive MatchBlock (Auth : Type) where
  | mk (pattern : List PatternSegment) (allows : List (Allow Auth))
      (children : List (MatchBlock Auth))

variable {Auth : Type}

mutual

/-- `walk`: the block's own statements, then its children under the joined pattern. -/
def walk (request : ListRequest Auth) (access : Documents) (parent : List PatternSegment) :
    MatchBlock Auth → Bool
  | .mk pattern allows children =>
    let pattern := parent ++ pattern
    (matchDomain pattern (domain request.databaseId request.scope) ∅).any (fun bindings =>
      allows.any fun allow =>
        allow.operations.contains .list && allow.condition bindings request access) ||
      walkAll request access pattern children

def walkAll (request : ListRequest Auth) (access : Documents) (parent : List PatternSegment) :
    List (MatchBlock Auth) → Bool
  | [] => false
  | block :: rest => walk request access parent block || walkAll request access parent rest

end

/-- `evaluate` of a `list` request: a query without a filter has one branch. -/
def evaluate (program : List (MatchBlock Auth)) (request : ListRequest Auth) (access : Documents) :
    Bool :=
  walkAll request access [] program

inductive Authorization (Auth : Type) where
  | owner
  | client (auth : Option Auth)

/-- `evaluate_with_read_transaction`: no rules installed, or the owner, allow everything. -/
def allowed (installed : Option (List (MatchBlock Auth))) (authorization : Authorization Auth)
    (request : ListRequest Auth) (access : Documents) : Bool :=
  match installed, authorization with
  | none, _ => true
  | some _, .owner => true
  | some program, .client auth => evaluate program { request with auth } access

end Firenook.Rules
