import Firenook.Disk.Stored
import Firenook.Store.Memory

/-!
# Transitions — which changes a commit reports

A commit reports a change when the derived inequality tells the document before a write from the
document after it. No document that holds a NaN equals itself under it, so a write that leaves
such a document as it was is reported as a change of it. Such a write is an `Echo`.

**`reported_changes`**: every reported change is one of stored documents exactly when no write of
the commit is an echo; a commit that only verifies leaves every document as it was, and reports
nothing exactly when the documents it verifies hold no NaN.
-/

namespace Firenook

open List Fallible

variable {rev : Nat} {writes : List Write} {time : Timestamp}

open ChangeLog
open Binary64 (F64)

/-! ### Documents that differ from themselves -/

namespace Value

mutual

/-- The value holds a NaN, at any depth. -/
def hasNan : Value → Bool
  | .double d => d.isNan
  | .geoPoint a b => a.isNan || b.isNan
  | .array values => hasNanList values
  | .map fields => hasNanFields fields
  | .vector ds => ds.any F64.isNan
  | _ => false

def hasNanList : List Value → Bool
  | [] => false
  | v :: vs => hasNan v || hasNanList vs

def hasNanFields : List (Str × Value) → Bool
  | [] => false
  | (_, v) :: fs => hasNan v || hasNanFields fs

end

/-- A double equals itself unless it is a NaN. -/
theorem eq_self (d : F64) : d.eq d = !d.isNan := by
  cases hnan : d.isNan with
  | true => simp [F64.eq, F64.partialCmp, hnan]
  | false => exact (F64.eq_iff hnan hnan).mpr rfl

theorem all_zip_self (ds : List F64) :
    ((ds.zip ds).all fun p => p.1.eq p.2) = !ds.any F64.isNan := by
  induction ds with
  | nil => rfl
  | cons d ds ih =>
    simp [eq_self, ih]

mutual

/-- The derived equality takes a value for itself unless the value holds a NaN. -/
theorem eqv_self : ∀ v : Value, v.eqv v = !v.hasNan
  | .null | .boolean _ | .integer _ | .timestamp _ | .string _ | .bytes _ | .reference _ => by
    simp [eqv, hasNan]
  | .double d => by rw [eqv, hasNan, eq_self]
  | .geoPoint a b => by rw [eqv, hasNan, eq_self, eq_self, Bool.not_or]
  | .array values => by rw [eqv, hasNan, eqvList_self values]
  | .map fields => by rw [eqv, hasNan, eqvFields_self fields]
  | .vector ds => by simp [eqv, hasNan, all_zip_self]

theorem eqvList_self : ∀ vs : List Value, eqvList vs vs = !hasNanList vs
  | [] => rfl
  | v :: vs => by rw [eqvList, hasNanList, eqv_self v, eqvList_self vs, Bool.not_or]

theorem eqvFields_self : ∀ fs : List (Str × Value), eqvFields fs fs = !hasNanFields fs
  | [] => rfl
  | (k, v) :: fs => by
    rw [eqvFields, hasNanFields, eqv_self v, eqvFields_self fs, Bool.not_or]
    simp

end

end Value

def Document.hasNan (d : Document) : Bool := Value.hasNanFields d.fields.entries

theorem Document.eqv_self (d : Document) : d.eqv d = !d.hasNan := by
  simp [Document.eqv, Fields.eqv, Value.eqvFields_self, Document.hasNan]

/-- What a key holds differs from itself when it is a document with a NaN. -/
theorem differs_self (doc : Option Document) :
    differs doc doc = doc.any Document.hasNan := by
  cases doc with
  | none => rfl
  | some d => simp [differs, Document.eqv_self]

/-! ### Echoes -/

/-- The write leaves the document it names, which holds a NaN, as it was. -/
def Echo (documents : Documents) (time : Timestamp) (w : Write) : Prop :=
  documents[writeKey w]?.any Document.hasNan = true ∧
    applyWrite documents time w = .ok (writeKey w, documents[writeKey w]?)

/-- No write of the list is an echo when its turn comes. -/
def NoneEchoed (documents : Documents) (time : Timestamp) : List Write → Prop
  | [] => True
  | write :: writes =>
    ¬Echo documents time write ∧
    ∀ next, applyWrite documents time write = .ok (writeKey write, next) →
      NoneEchoed (put documents (writeKey write) next) time writes

/-- **The changes of a commit are changes exactly when no write is an echo.** -/
theorem Plans.changed (h : Plans rev time final docs writes changes) :
    (∀ c ∈ changes, c.before ≠ c.after) ↔ NoneEchoed docs time writes := by
  induction h with
  | nil => exact ⟨fun _ => trivial, fun _ => nofun⟩
  | @cons docs write writes next later hwr _ ih =>
    have hhd : Echo docs time write ↔
        differs docs[writeKey write]? next = true ∧ docs[writeKey write]? = next := by
      rw [Echo, ← differs_self, hwr, Except.ok.injEq, Prod.mk.injEq, @eq_comm _ next]
      refine ⟨fun ⟨hnan, _, heq⟩ => ⟨heq ▸ hnan, heq⟩, fun ⟨hdif, heq⟩ => ⟨?_, rfl, heq⟩⟩
      rwa [heq] at hdif ⊢
    have hlat : (∀ next', applyWrite docs time write = .ok (writeKey write, next') →
        NoneEchoed (put docs (writeKey write) next') time writes) ↔
        ∀ c ∈ later, c.before ≠ c.after := by simp [hwr, ih]
    rw [NoneEchoed, hlat, hhd]
    split
    · next hdif => simp [hdif]
    · next hdif => simp [hdif]

/-! ### Verifying commits -/

/-- A write that only checks a precondition. -/
def Write.isVerify : Write → Bool
  | .verify _ _ => true
  | _ => false

theorem applyWrite_verify {docs : Documents} {w : Write} (hw : w.isVerify = true)
    {key : DocumentKey} {next : Option Document}
    (h : applyWrite docs time w = .ok (key, next)) :
    next = docs[writeKey w]? := by
  cases w with
  | verify k precondition =>
    obtain ⟨-, -, h⟩ := bind_eq_ok.mp h
    cases h
    rfl
  | _ => cases hw

/-- A commit that only verifies keeps the documents, and logs those with a NaN. -/
theorem Plans.verify (h : Plans rev time final docs writes changes)
    (hvfy : ∀ w ∈ writes, w.isVerify = true) :
    final = docs ∧ (changes = [] ↔
      ∀ w ∈ writes, docs[writeKey w]?.any Document.hasNan = false) := by
  induction h with
  | nil => exact ⟨rfl, fun _ => nofun, fun _ => rfl⟩
  | @cons docs write writes next later hwr _ ih =>
    obtain rfl := applyWrite_verify (hvfy write mem_cons_self) hwr
    rw [put_getElem?] at ih
    obtain ⟨rfl, hlat⟩ := ih fun w hw => hvfy w (mem_cons_of_mem _ hw)
    refine ⟨rfl, ?_⟩
    rw [differs_self, forall_mem_cons]
    cases final[writeKey write]?.any Document.hasNan with
    | true => simp
    | false => simpa using hlat

/-! ### What a commit reports -/

/-- What is stored under a key differs: one side has no document, or the bytes are other ones. -/
def StoredDiffer (before after : Option Document) : Prop :=
  before ≠ after ∧ ∀ d e x y, before = some d → after = some e →
    Disk.encodeStoredDocument d = .ok x → Disk.encodeStoredDocument e = .ok y → x ≠ y

theorem storedDiffer_iff (before after : Option Document) :
    StoredDiffer before after ↔ before ≠ after := by
  refine ⟨And.left, fun hne => ⟨hne, ?_⟩⟩
  rintro d e x y rfl rfl hx hy rfl
  have hd := Disk.decodeStoredDocument_encode hx
  rw [Disk.decodeStoredDocument_encode hy] at hd
  exact hne (congrArg some (Except.ok.inj hd).symm)

/-- **Which changes a commit reports.** Each is a change of what is stored, if and only if no write
left a document with a NaN as it was. A commit that only verifies keeps every document, and
reports no change if and only if none of the documents it verifies holds a NaN. -/
theorem reported_changes (s : State) (now : Elapsed) (writes : List Write) (docs : Documents)
    (plan : CommitPlan) (h : s.planWithDocuments now writes docs = .ok plan) :
    ((∀ c ∈ plan.changes, StoredDiffer c.before c.after) ↔
      NoneEchoed docs (s.nextCommitTime now) writes) ∧
    ((∀ w ∈ writes, w.isVerify = true) → plan.documents = docs ∧
      (plan.changes = [] ↔ ∀ w ∈ writes, docs[writeKey w]?.any Document.hasNan = false)) := by
  obtain ⟨-, -, hpl⟩ := State.planWithDocuments_eq_ok h
  refine ⟨?_, (plans hpl).verify⟩
  rw [← (plans hpl).changed]
  exact forall₂_congr fun c _ => storedDiffer_iff c.before c.after

def doubleDocument (bits : UInt64) : Document := ⟨.ofBits bits, .zero, .zero⟩

def firstReading : Elapsed := .ofSeconds 1

/-- Verifying a document that holds a one reports nothing. -/
theorem reported_changes_one : ∃ plan,
    (State.new ⟨10, 1000⟩).planWithDocuments firstReading [.verify otherKey .none]
        (put ∅ otherKey (some (doubleDocument 0x3FF0000000000000))) = .ok plan ∧
      plan.changes = [] := by
  have hpl : ((State.new ⟨10, 1000⟩).planWithDocuments firstReading [.verify otherKey .none]
      (put ∅ otherKey (some (doubleDocument 0x3FF0000000000000)))).toOption.isSome = true := by
    decide +kernel
  obtain ⟨plan, hpl⟩ := Option.isSome_iff_exists.mp hpl
  rw [toOption_eq_some] at hpl
  refine ⟨plan, hpl, ?_⟩
  refine ((reported_changes _ _ _ _ plan hpl).2 ?_).2.mpr ?_
  · decide
  · decide +kernel

/-- **A commit that only verifies reports a change**: the document holds a NaN, and the change has
it on both sides. -/
theorem verify_reported :
    ∃ plan, (State.new ⟨10, 1000⟩).planWithDocuments firstReading [.verify otherKey .none]
        (put ∅ otherKey (some (doubleDocument 0x7FF8000000000000))) = .ok plan ∧
      plan.changes = [⟨1, otherKey, some (doubleDocument 0x7FF8000000000000),
        some (doubleDocument 0x7FF8000000000000)⟩] := by
  have hpl : ((State.new ⟨10, 1000⟩).planWithDocuments firstReading [.verify otherKey .none]
      (put ∅ otherKey (some (doubleDocument 0x7FF8000000000000)))).toOption.any
        (fun plan => decide (plan.changes = [⟨1, otherKey, some (doubleDocument 0x7FF8000000000000),
          some (doubleDocument 0x7FF8000000000000)⟩])) = true := by
    decide +kernel
  obtain ⟨plan, hpl, hch⟩ := (Option.any_eq_true _ _).mp hpl
  rw [toOption_eq_some] at hpl
  exact ⟨plan, hpl, of_decide_eq_true hch⟩

end Firenook
