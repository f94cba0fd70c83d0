import Firenook.Store.Write

/-!
# Functions — the trigger registry

The registry of the Functions bridge holds first- and second-generation triggers in two maps, each
keyed by the project and the trigger's key. `registerV1` and `registerV2` check a registration and
store it; `matching` answers the triggers that one document change calls, those of the first
generation before those of the second, each in key order. A document pattern matches what its
segments stand for (**`pathMatches_iff`**).

A registration that passes leaves a trigger under its own key (`registerV1_ok`, `registerV2_ok`), so
within one generation a key names at most one trigger. Nothing keeps the two generations from using
one key.
-/

namespace Firenook.Functions

open Fallible Std

abbrev Text := List UInt8

/-! ### Event types -/

inductive TriggerGeneration where
  | v1
  | v2
  deriving DecidableEq

inductive EventKind where
  | create
  | update
  | delete
  | write
  deriving DecidableEq

/-- An event type: one of the eight the bridge knows, with or without the suffix
`.withAuthContext`, or another text. -/
inductive EventType where
  | known (generation : TriggerGeneration) (kind : EventKind) (withAuthContext : Bool)
  | other (name : Text)
  deriving DecidableEq

/-- The shape of a document change, without its documents. -/
inductive ChangeShape where
  | created
  | updated
  | deleted
  deriving DecidableEq

/-- `None` when nothing existed before or after. -/
def ChangeShape.of (change : Change) : Option ChangeShape :=
  match change.before.isSome, change.after.isSome with
  | false, true => some .created
  | true, true => some .updated
  | true, false => some .deleted
  | false, false => none

/-- Whether a change of `shape` raises `eventType`. -/
def shapeMatches (eventType : EventType) (shape : ChangeShape) : Bool :=
  match eventType, shape with
  | .known _ kind _, .created => kind = .create || kind = .write
  | .known _ kind _, .updated => kind = .update || kind = .write
  | .known _ kind _, .deleted => kind = .delete || kind = .write
  | .other _, _ => false

def eventMatches (eventType : EventType) (change : Change) : Bool :=
  (ChangeShape.of change).any (shapeMatches eventType)

/-! ### Document patterns -/

/-- The bytes `{` and `}`. -/
def openBrace : UInt8 := 0x7B

def closeBrace : UInt8 := 0x7D

def isRecursiveWildcard (segment : Text) : Bool :=
  segment.head? = some openBrace && (ascii "=**" ++ [closeBrace]).isSuffixOf segment

def isSingleWildcard (segment : Text) : Bool :=
  segment.head? = some openBrace && segment.getLast? = some closeBrace &&
    !(ascii "=**" ++ [closeBrace]).isSuffixOf segment && !segment.contains slash

/-- A recursive wildcard takes one segment or more. -/
def matchSegments : List Text → List Text → Bool
  | [], path => path.isEmpty
  | head :: tail, path =>
    if isRecursiveWildcard head then
      (List.range path.length).any fun i => matchSegments tail (path.drop (i + 1))
    else
      match path with
      | [] => false
      | value :: remaining =>
        (isSingleWildcard head || head = value) && matchSegments tail remaining

def pathMatches (pattern path : Text) : Bool := matchSegments (segments pattern) (segments path)

/-- What a segment of a pattern stands for. -/
def Covers (segment : Text) (part : List Text) : Prop :=
  if isRecursiveWildcard segment then part ≠ []
  else ∃ value, part = [value] ∧ (isSingleWildcard segment = true ∨ segment = value)

open List in
/-- **A pattern matches what its segments stand for**, one after the other. -/
theorem pathMatches_iff (pattern path : Text) : pathMatches pattern path = true ↔
    ∃ parts, Forall₂ Covers (segments pattern) parts ∧ parts.flatten = segments path := by
  unfold pathMatches
  generalize segments pattern = pattern, segments path = path
  induction pattern generalizing path with
  | nil => simp [matchSegments, @eq_comm _ _ path]
  | cons head tail ih =>
    simp only [matchSegments, forall₂_cons_left_iff, Covers]
    split
    · simp only [any_eq_true, mem_range, ih]
      constructor
      · rintro ⟨i, hi, parts, hpts, hpt⟩
        refine ⟨path.take (i + 1) :: parts, ⟨_, _, ?_, hpts, rfl⟩, ?_⟩
        · exact ne_nil_of_length_pos (by rw [length_take]; omega)
        · rw [flatten_cons, hpt, take_append_drop]
      · rintro ⟨_, ⟨part, parts, hpr, hpts, rfl⟩, rfl⟩
        have hpos := length_pos_iff.mpr hpr
        exact ⟨part.length - 1, by simp; omega, parts, hpts, by simp [Nat.sub_add_cancel hpos]⟩
    · cases path <;> simp [ih]
      simp only [← exists_and_left, and_assoc]

/-! ### Triggers -/

structure Trigger where
  project : Text
  key : Text
  generation : TriggerGeneration
  eventType : EventType
  database : Text
  documentPattern : Text
  deriving DecidableEq

def Trigger.matches (trigger : Trigger) (change : Change) : Bool :=
  change.key.database.projectId.bytes = trigger.project
    && change.key.database.databaseId.bytes = trigger.database
    && eventMatches trigger.eventType change
    && pathMatches trigger.documentPattern change.key.path.bytes

theorem Trigger.project_of_matches {trigger : Trigger} {change : Change}
    (h : trigger.matches change = true) :
    trigger.project = change.key.database.projectId.bytes := by
  simp only [Trigger.matches, Bool.and_eq_true, decide_eq_true_eq] at h
  exact h.1.1.1.symm

/-! ### Checking a registration -/

inductive RegistrationError where
  | eventTriggerRequired
  | emptyField (field : String)
  | notFirestore
  | resourceWithoutDocuments
  | invalidDatabaseName
  | otherProject
  | patternNotRelative
  | invalidSegment
  | patternNotDocuments
  | unsupportedEventType (eventType : EventType)
  | documentRequired
  | invalidMatchType
  deriving DecidableEq

/-- The text of an error; the type that is not supported follows its text in the source. -/
def RegistrationError.message : RegistrationError → String
  | .eventTriggerRequired => "eventTrigger object is required"
  | .emptyField field => field ++ " must be a non-empty string"
  | .notFirestore => "only Firestore trigger registrations are supported"
  | .resourceWithoutDocuments => "eventTrigger.resource must contain /documents/"
  | .invalidDatabaseName => "eventTrigger.resource has an invalid database name"
  | .otherProject => "trigger resource project does not match request project"
  | .patternNotRelative => "document pattern must be a non-empty relative path"
  | .invalidSegment => "document pattern contains an invalid segment"
  | .patternNotDocuments => "document pattern must identify documents"
  | .unsupportedEventType _ => "unsupported Firestore event type: "
  | .documentRequired => "document object is required"
  | .invalidMatchType => "document.matchType must be PATH_PATTERN or EXACT"

/-- A field that must be there and not empty. -/
def requiredString (value : Option Text) (field : String) : Except RegistrationError Text :=
  match value with
  | some text => if text.isEmpty then .error (.emptyField field) else .ok text
  | none => .error (.emptyField field)

/-- The event type of a body; `none` stands for a missing or empty text. -/
def requiredEventType (value : Option EventType) (field : String) :
    Except RegistrationError EventType :=
  match value with
  | some eventType => .ok eventType
  | none => .error (.emptyField field)

def validateEventType (generation : TriggerGeneration) (eventType : EventType) :
    Except RegistrationError Unit :=
  match generation, eventType with
  | .v1, .known .v1 _ false => .ok ()
  | .v2, .known .v2 _ _ => .ok ()
  | _, _ => .error (.unsupportedEventType eventType)

def validateDocumentPattern (pattern : Text) : Except RegistrationError Unit :=
  if pattern.isEmpty ∨ pattern.head? = some slash ∨ pattern.getLast? = some slash then
    .error .patternNotRelative
  else if (segments pattern).any fun segment => segment.isEmpty
      || (segment.head? = some openBrace) != (segment.getLast? = some closeBrace) then
    .error .invalidSegment
  else if (segments pattern).length % 2 ≠ 0 then .error .patternNotDocuments
  else .ok ()

/-- `text.split_once(marker)` for a marker that is not empty. -/
def splitOnce (marker : Text) : Text → Option (Text × Text)
  | [] => none
  | b :: bs =>
    if marker.isPrefixOf (b :: bs) then some ([], (b :: bs).drop marker.length)
    else (splitOnce marker bs).map fun parts => (b :: parts.1, parts.2)

/-- The project, the database and the document pattern of a resource name. -/
def parseV1Resource (resource : Text) : Except RegistrationError (Text × Text × Text) :=
  match splitOnce (ascii "/documents/") resource with
  | none => .error .resourceWithoutDocuments
  | some (databaseResource, pattern) =>
    match segments databaseResource with
    | [projects, project, databases, database] =>
      if projects ≠ ascii "projects" ∨ databases ≠ ascii "databases" then
        .error .invalidDatabaseName
      else do
        validateDocumentPattern pattern
        return (project, database, pattern)
    | _ => .error .invalidDatabaseName

/-- The `eventTrigger` object of a first-generation registration. -/
structure EventTriggerBody where
  eventType : Option EventType
  service : Option Text
  resource : Option Text

inductive MatchType where
  | pathPattern
  | exact
  deriving DecidableEq

/-- The `document` object of a second-generation registration; `none` for another match type. -/
structure DocumentBody where
  value : Option Text
  matchType : Option MatchType

structure EventarcBody where
  eventType : Option EventType
  database : Option Text
  document : Option DocumentBody

/-! ### The registry -/

/-- The key of both maps. -/
@[ext] structure TriggerKey where
  project : Text
  key : Text
  deriving DecidableEq

instance : Ord TriggerKey := ⟨compareLex (compareOn TriggerKey.project) (compareOn TriggerKey.key)⟩

instance : TransOrd TriggerKey :=
  inferInstanceAs (TransCmp (compareLex (compareOn TriggerKey.project) (compareOn TriggerKey.key)))

instance : LawfulEqOrd TriggerKey := LexOrder.lawfulEqCmp_compareLex TriggerKey.ext

abbrev TriggerMap := ExtTreeMap TriggerKey Trigger compare

structure Registry where
  v1 : TriggerMap := ∅
  v2 : TriggerMap := ∅
  backgroundEnabled : Bool := true

namespace Registry

variable {registry registry' : Registry} {project : Text}

def registerV1 (registry : Registry) (project key : Text)
    (eventTrigger : Option EventTriggerBody) : Except RegistrationError Registry := do
  let event ← eventTrigger.elim (.error .eventTriggerRequired) .ok
  let eventType ← requiredEventType event.eventType "eventTrigger.eventType"
  let service ← requiredString event.service "eventTrigger.service"
  if service ≠ ascii "firestore.googleapis.com" then .error .notFirestore
  else
    let resource ← requiredString event.resource "eventTrigger.resource"
    let (resourceProject, database, documentPattern) ← parseV1Resource resource
    if resourceProject ≠ project then .error .otherProject
    else
      validateEventType .v1 eventType
      let trigger : Trigger := ⟨project, key, .v1, eventType, database, documentPattern⟩
      .ok { registry with v1 := registry.v1.insert ⟨project, key⟩ trigger }

def registerV2 (registry : Registry) (project key : Text) (body : EventarcBody) :
    Except RegistrationError Registry := do
  let eventType ← requiredEventType body.eventType "eventType"
  validateEventType .v2 eventType
  let database ← requiredString body.database "database"
  let document ← body.document.elim (.error .documentRequired) .ok
  let documentPattern ← requiredString document.value "document.value"
  if document.matchType.isNone then .error .invalidMatchType
  else
    validateDocumentPattern documentPattern
    let trigger : Trigger := ⟨project, key, .v2, eventType, database, documentPattern⟩
    .ok { registry with v2 := registry.v2.insert ⟨project, key⟩ trigger }

/-- Deleting an unknown key changes nothing. -/
def removeV1 (registry : Registry) (project key : Text) : Registry :=
  { registry with v1 := registry.v1.erase ⟨project, key⟩ }

def removeV2 (registry : Registry) (project key : Text) : Registry :=
  { registry with v2 := registry.v2.erase ⟨project, key⟩ }

/-- Switches background delivery without deleting inventory. -/
def setBackgroundEnabled (registry : Registry) (enabled : Bool) : Registry :=
  { registry with backgroundEnabled := enabled }

/-- All registrations, in generation and key order. -/
def all (registry : Registry) : List Trigger :=
  registry.v1.toList.map Prod.snd ++ registry.v2.toList.map Prod.snd

/-- The registrations that one document change calls; none while delivery is paused. -/
def matching (registry : Registry) (change : Change) : List Trigger :=
  if registry.backgroundEnabled then registry.all.filter (·.matches change) else []

/-- A registration that passes stores a first-generation trigger under its own key. -/
theorem registerV1_ok {key : Text} {eventTrigger : Option EventTriggerBody}
    (h : registry.registerV1 project key eventTrigger = .ok registry') :
    ∃ trigger : Trigger, trigger.project = project ∧ trigger.key = key ∧ trigger.generation = .v1
      ∧ registry' = { registry with v1 := registry.v1.insert ⟨project, key⟩ trigger } := by
  obtain ⟨event, -, h⟩ := bind_eq_ok.mp h
  obtain ⟨eventType, -, h⟩ := bind_eq_ok.mp h
  obtain ⟨service, -, h⟩ := bind_eq_ok.mp h
  split at h
  · cases h
  obtain ⟨resource, -, h⟩ := bind_eq_ok.mp h
  obtain ⟨⟨resourceProject, db, pattern⟩, -, h⟩ := bind_eq_ok.mp h
  simp only at h
  split at h
  · cases h
  · obtain ⟨_, -, h⟩ := bind_eq_ok.mp h
    cases h
    exact ⟨_, rfl, rfl, rfl, rfl⟩

/-- A registration that passes stores a second-generation trigger under its own key. -/
theorem registerV2_ok {key : Text} {body : EventarcBody}
    (h : registry.registerV2 project key body = .ok registry') :
    ∃ trigger : Trigger, trigger.project = project ∧ trigger.key = key ∧ trigger.generation = .v2
      ∧ registry' = { registry with v2 := registry.v2.insert ⟨project, key⟩ trigger } := by
  obtain ⟨eventType, -, h⟩ := bind_eq_ok.mp h
  obtain ⟨_, -, h⟩ := bind_eq_ok.mp h
  obtain ⟨db, -, h⟩ := bind_eq_ok.mp h
  obtain ⟨document, -, h⟩ := bind_eq_ok.mp h
  obtain ⟨pattern, -, h⟩ := bind_eq_ok.mp h
  split at h
  · cases h
  · obtain ⟨_, -, h⟩ := bind_eq_ok.mp h
    cases h
    exact ⟨_, rfl, rfl, rfl, rfl⟩

end Registry

end Firenook.Functions
