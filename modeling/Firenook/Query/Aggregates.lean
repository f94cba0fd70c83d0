import Firenook.Query.Matching
import Mathlib.Data.List.Infix

/-!
# Aggregates — the sum of a field

`sum` counts in 64-bit integers as long as it can. At the first overflow of the running total, or
at a double, it changes to binary64 and stays there: over integers the answer is exact if and only
if the sum of every initial part of the results fits (**`sum_integers`**), not only the last.
-/

namespace Firenook.QueryEngine

open Binary64 List

def projectedValue (document : Document) : FieldPath → Option Value
  | .documentId => none
  | .field segments => nestedValue document.fields.entries segments

/-- `i64::checked_add`. -/
def checkedAdd (a b : Int64) : Option Int64 :=
  if -2 ^ 63 ≤ a.toInt + b.toInt ∧ a.toInt + b.toInt < 2 ^ 63 then some (a + b) else none

/-- The local variables of `sum`. -/
structure RunningSum where
  integerSum : Int64 := 0
  doubleSum : F64 := F64.ofInt 0
  hasDouble : Bool := false

namespace RunningSum

def add (s : RunningSum) : Option Value → RunningSum
  | some (.integer value) =>
    if s.hasDouble then { s with doubleSum := s.doubleSum.add (.ofInt value.toInt) }
    else
      match checkedAdd s.integerSum value with
      | some next => { s with integerSum := next }
      | none =>
        { s with
          hasDouble := true
          doubleSum := (F64.ofInt s.integerSum.toInt).add (.ofInt value.toInt) }
  | some (.double value) =>
    let start := if s.hasDouble then s.doubleSum else .ofInt s.integerSum.toInt
    { s with hasDouble := true, doubleSum := start.add value }
  | _ => s

def value (s : RunningSum) : Value := if s.hasDouble then .double s.doubleSum else .integer s.integerSum

end RunningSum

def sum (documents : List Document) (field : FieldPath) : Value :=
  RunningSum.value <|
    documents.foldl (fun s document => s.add (projectedValue document field)) ({} : RunningSum)

/-! ### Integers only -/

/-- What a value adds to an exact sum. -/
def integerPart : Option Value → Int
  | some (.integer value) => value.toInt
  | _ => 0

def total (values : List (Option Value)) : Int := (values.map integerPart).sum

def Fits (n : Int) : Prop := -2 ^ 63 ≤ n ∧ n < 2 ^ 63

instance (n : Int) : Decidable (Fits n) := inferInstanceAs (Decidable (_ ∧ _))

theorem checkedAdd_eq_some {a b next : Int64} :
    checkedAdd a b = some next ↔ Fits (a.toInt + b.toInt) ∧ next.toInt = a.toInt + b.toInt := by
  unfold checkedAdd Fits
  split
  · next h =>
    have hadd : (a + b).toInt = a.toInt + b.toInt := by
      rw [Int64.toInt_add, Int.bmod_eq_of_le] <;> omega
    simp only [Option.some.injEq, h, true_and, ← Int64.toInt_inj, hadd, eq_comm]
  · next h => exact ⟨nofun, fun hft => absurd hft.1 h⟩

/-- One value: the total stays exact, or it no longer fits. -/
theorem RunningSum.add_spec {s : RunningSum} {v : Option Value} (hs : s.hasDouble = false)
    (hv : ∀ d, v ≠ some (.double d)) :
    ((s.add v).hasDouble = false ↔ Fits (s.integerSum.toInt + integerPart v)) ∧
      ((s.add v).hasDouble = false →
        (s.add v).integerSum.toInt = s.integerSum.toInt + integerPart v) := by
  unfold RunningSum.add
  split
  · next n =>
    rw [if_neg (by simp [hs])]
    cases hadd : checkedAdd s.integerSum n with
    | none =>
      have hnot : ¬Fits (s.integerSum.toInt + n.toInt) := fun h =>
        absurd (checkedAdd_eq_some.mpr ⟨h, Int64.toInt_ofInt_of_le h.1 h.2⟩) (by simp [hadd])
      simpa [integerPart] using hnot
    | some next =>
      obtain ⟨hft, hnx⟩ := checkedAdd_eq_some.mp hadd
      simpa [hs, integerPart, hnx] using hft
  · next d => exact absurd rfl (hv d)
  · next hint _ =>
    have hzr : integerPart v = 0 := by
      unfold integerPart
      split
      · exact absurd rfl (hint _)
      · rfl
    simpa [hs, hzr, Fits] using ⟨Int64.le_toInt s.integerSum, Int64.toInt_lt s.integerSum⟩

theorem RunningSum.hasDouble_add {s : RunningSum} (h : s.hasDouble = true) (v : Option Value) :
    (s.add v).hasDouble = true := by
  unfold RunningSum.add
  split <;> simp [h]

/-- A whole run, by the step: exact as long as every initial part fits. -/
theorem RunningSum.foldl_spec (values : List (Option Value))
    (hv : ∀ v ∈ values, ∀ d, v ≠ some (.double d)) :
    ((values.foldl add {}).hasDouble = false ↔ ∀ l, l <+: values → Fits (total l)) ∧
      ((values.foldl add {}).hasDouble = false →
        (values.foldl add {}).integerSum.toInt = total values) := by
  induction values using reverseRecOn with
  | nil => exact ⟨⟨fun _ l hl => prefix_nil.mp hl ▸ by decide, fun _ => rfl⟩, fun _ => rfl⟩
  | append_singleton values v ih =>
    obtain ⟨hiff, hex⟩ := ih fun w hw => hv w (mem_append_left _ hw)
    simp only [prefix_concat_iff, forall_eq_or_imp, ← hiff, foldl_append, foldl_cons, foldl_nil]
    cases hrun : (values.foldl add {}).hasDouble with
    | true => simp [hasDouble_add hrun v]
    | false =>
      have hst := add_spec hrun (hv v (by simp))
      have htot : total (values ++ [v]) = total values + integerPart v := by simp [total]
      rw [hex hrun, ← htot] at hst
      simpa using hst

/-- **A sum of integers is exact if every initial part of it fits in 64 bits**; otherwise it is a
double. -/
theorem sum_integers (docs : List Document) (field : FieldPath)
    (h : ∀ doc ∈ docs, ∀ d, projectedValue doc field ≠ some (.double d)) :
    let values := docs.map (projectedValue · field)
    ((∀ l, l <+: values → Fits (total l)) →
        ∃ n : Int64, sum docs field = .integer n ∧ n.toInt = total values) ∧
      ((∃ l, l <+: values ∧ ¬Fits (total l)) → ∃ d, sum docs field = .double d) := by
  intro values
  have hvl : ∀ v ∈ values, ∀ d, v ≠ some (.double d) := by
    intro v hv
    obtain ⟨doc, hmem, rfl⟩ := mem_map.mp hv
    exact h doc hmem
  obtain ⟨hiff, hex⟩ := RunningSum.foldl_spec values hvl
  have hfl : sum docs field = (values.foldl RunningSum.add {}).value := by
    rw [foldl_map]
    rfl
  rw [hfl, RunningSum.value]
  refine ⟨fun hall => ?_, fun ⟨l, hl, hov⟩ => ?_⟩
  · have hnn := hiff.mpr hall
    exact ⟨_, by rw [hnn]; rfl, hex hnn⟩
  · cases hdbl : (values.foldl RunningSum.add {}).hasDouble with
    | true => exact ⟨_, rfl⟩
    | false => exact absurd (hiff.mp hdbl l hl) hov

/-- A document with one field, an integer. -/
def integerDocument (n : Int64) : Document :=
  ⟨⟨[(exampleField, .integer n)], rfl⟩, .zero, .zero⟩

def summedField : FieldPath := .field [exampleField]

theorem sum_integers_two : ∃ n : Int64,
    sum [integerDocument 1, integerDocument 2] summedField = .integer n ∧ n.toInt = 3 :=
  (sum_integers [integerDocument 1, integerDocument 2] summedField (fun doc hmem d => by
      simp only [mem_cons, not_mem_nil, or_false] at hmem
      rcases hmem with rfl | rfl <;> nofun)).1 fun l hl =>
    (by decide : ∀ l ∈ inits [some (.integer 1), some (.integer 2)], Fits (total l)) l
      ((mem_inits l _).mpr hl)

/-- The largest integer, one and minus one: the sum fits, but that of the first two does not. -/
theorem sum_overflow : let docs := [9223372036854775807, 1, -1].map integerDocument
    total (docs.map (projectedValue · summedField)) = 9223372036854775807 ∧
      ∃ d, sum docs summedField = .double d :=
  ⟨by decide, _, rfl⟩

end Firenook.QueryEngine
