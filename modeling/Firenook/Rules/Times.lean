import Firenook.Rules.Branches

/-!
# Rules — arithmetic on timestamps and durations

The evaluator adds and subtracts in 128 bits and puts the result back into 64-bit seconds and
nanoseconds (`eval_add`, `eval_subtract`, `duration_namespace`). A timestamp that does not fit is an
error. A duration that does not fit keeps its nanoseconds and takes the nearest seconds, so that it
is exact just when its seconds fit (`total_fromNanoseconds`): **`time_arithmetic`** says where each
operation is exact, and `weeks_saturate` is one that is not.
-/

namespace Firenook.Rules.Times

def billion : Int := 1000000000

/-- Seconds of 64 bits, and nanoseconds below a second. -/
structure Normalized where
  seconds : Int64
  nanoseconds : Nat
  normal : nanoseconds < 1000000000

abbrev Timestamp := Normalized

abbrev RulesDuration := Normalized

def Normalized.totalNanoseconds (d : Normalized) : Int := d.seconds.toInt * billion + d.nanoseconds

/-- Whole seconds that fit 64 bits. -/
def Fits (total : Int) : Prop := -2 ^ 63 ≤ total / billion ∧ total / billion < 2 ^ 63

instance (total : Int) : Decidable (Fits total) := inferInstanceAs (Decidable (_ ∧ _))

theorem normal_nanoseconds (total : Int) : (total % billion).toNat < 1000000000 := by
  rw [billion] at ⊢
  omega

/-- Seconds that do not fit become the least or the greatest. -/
def Normalized.fromNanoseconds (total : Int) : RulesDuration where
  seconds :=
    if Fits total then Int64.ofInt (total / billion)
    else if total / billion < 0 then Int64.minValue else Int64.maxValue
  nanoseconds := (total % billion).toNat
  normal := normal_nanoseconds total

/-- A 128-bit operation that fails when the result does not fit. -/
def checked (message : String) (n : Int) : Except RuntimeError Int :=
  if -2 ^ 127 ≤ n ∧ n < 2 ^ 127 then .ok n else .error ⟨message⟩

def addTimestampDuration (t : Timestamp) (d : RulesDuration) : Except RuntimeError Timestamp := do
  let total ← checked "timestamp arithmetic overflow" (t.totalNanoseconds + d.totalNanoseconds)
  if Fits total then
    .ok ⟨Int64.ofInt (total / billion), (total % billion).toNat, normal_nanoseconds total⟩
  else .error ⟨"timestamp is outside range"⟩

/-- The operands of time arithmetic. -/
inductive TimeValue where
  | timestamp (t : Timestamp)
  | duration (d : RulesDuration)

def TimeValue.total : TimeValue → Int
  | .timestamp t | .duration t => t.totalNanoseconds

/-- `eval_add` of times; two timestamps are left to `numeric_binary`, which refuses them. -/
def evalAdd : TimeValue → TimeValue → Except RuntimeError TimeValue
  | .timestamp t, .duration d => .timestamp <$> addTimestampDuration t d
  | .duration d, .timestamp t => .timestamp <$> addTimestampDuration t d
  | .duration l, .duration r => do
    let total ← checked "duration addition overflow" (l.totalNanoseconds + r.totalNanoseconds)
    return .duration (.fromNanoseconds total)
  | .timestamp _, .timestamp _ => .error ⟨"expected a numeric value"⟩

/-- `eval_subtract` of times. -/
def evalSubtract : TimeValue → TimeValue → Except RuntimeError TimeValue
  | .timestamp l, .timestamp r =>
    .ok (.duration (.fromNanoseconds (l.totalNanoseconds - r.totalNanoseconds)))
  | .timestamp t, .duration d =>
    .timestamp <$> addTimestampDuration t (.fromNanoseconds (-d.totalNanoseconds))
  | .duration l, .duration r => do
    let total ← checked "duration subtraction overflow" (l.totalNanoseconds - r.totalNanoseconds)
    return .duration (.fromNanoseconds total)
  | .duration _, .timestamp _ => .error ⟨"expected a numeric value"⟩

/-- The nanoseconds of a unit. -/
def multiplier : String → Option Int
  | "w" => some 604800000000000
  | "d" => some 86400000000000
  | "h" => some 3600000000000
  | "m" => some 60000000000
  | "s" => some 1000000000
  | "ms" => some 1000000
  | "us" => some 1000
  | "µs" => some 1000
  | "ns" => some 1
  | _ => none

/-- `duration.value`. -/
def durationValue (amount : Int64) (unit : String) : Except RuntimeError TimeValue :=
  match multiplier unit with
  | none => .error ⟨"unsupported duration unit " ++ unit.quote⟩
  | some multiplier => do
    let total ← checked "duration is outside the supported range" (amount.toInt * multiplier)
    return .duration (.fromNanoseconds total)

/-! ### Where it is exact -/

theorem toInt_ofInt_of_fits {total : Int} (h : Fits total) :
    (Int64.ofInt (total / billion)).toInt = total / billion :=
  Int64.toInt_ofInt_of_le h.1 h.2

/-- Seconds and the rest make up the total just when they are its whole seconds. -/
theorem sum_of_parts {total seconds : Int} :
    seconds * billion + ((total % billion).toNat : Int) = total ↔ seconds = total / billion := by
  rw [billion]
  omega

/-- **A duration is exact just when its seconds fit.** -/
theorem total_fromNanoseconds (total : Int) :
    (Normalized.fromNanoseconds total).totalNanoseconds = total ↔ Fits total := by
  refine Iff.trans sum_of_parts ⟨fun h => ?_, fun h => ?_⟩
  · exact ⟨h ▸ Int64.le_toInt _, h ▸ Int64.toInt_lt _⟩
  · rw [Normalized.fromNanoseconds, if_pos h, toInt_ofInt_of_fits h]

theorem checked_eq_ok {message : String} {n total : Int} (h : checked message n = .ok total) :
    total = n := by
  unfold checked at h
  split at h <;> cases h
  rfl

/-- A duration out of a checked operation. -/
theorem total_checked {message : String} {n : Int} {v : TimeValue}
    (h : (do let total ← checked message n; return TimeValue.duration (.fromNanoseconds total)) =
      .ok v) : v.total = n ↔ Fits n := by
  obtain ⟨total, htot, h⟩ := Fallible.bind_eq_ok.mp h
  rw [checked_eq_ok htot] at h
  cases h
  exact total_fromNanoseconds n

theorem total_addTimestampDuration {t : Timestamp} {d : RulesDuration} {v : TimeValue}
    (h : TimeValue.timestamp <$> addTimestampDuration t d = .ok v) :
    v.total = t.totalNanoseconds + d.totalNanoseconds := by
  cases hsum : addTimestampDuration t d with
  | error e => rw [hsum] at h; cases h
  | ok t' =>
    rw [hsum] at h
    cases h
    obtain ⟨total, htot, hsum⟩ := Fallible.bind_eq_ok.mp hsum
    rw [checked_eq_ok htot] at hsum
    split at hsum
    · next hft =>
      cases hsum
      exact sum_of_parts.mpr (toInt_ofInt_of_fits hft)
    · cases hsum

/-- What an addition puts into a duration fits. -/
def AddFits : TimeValue → TimeValue → Prop
  | .duration l, .duration r => Fits (l.totalNanoseconds + r.totalNanoseconds)
  | _, _ => True

/-- What a subtraction puts into a duration fits: its result, or the negated duration. -/
def SubtractFits : TimeValue → TimeValue → Prop
  | .timestamp _, .duration d => Fits (-d.totalNanoseconds)
  | left, right => Fits (left.total - right.total)

/-- **Time arithmetic is an error or exact, just when the durations it makes fit.** -/
theorem time_arithmetic (left right v : TimeValue) (amount : Int64) (unit : String) :
    (evalAdd left right = .ok v → (v.total = left.total + right.total ↔ AddFits left right)) ∧
    (evalSubtract left right = .ok v →
      (v.total = left.total - right.total ↔ SubtractFits left right)) ∧
    (durationValue amount unit = .ok v → ∃ k, multiplier unit = some k ∧
      (v.total = amount.toInt * k ↔ Fits (amount.toInt * k))) := by
  refine ⟨fun h => ?_, fun h => ?_, fun h => ?_⟩
  · match left, right, h with
    | .timestamp t, .duration d, h => exact iff_of_true (total_addTimestampDuration h) trivial
    | .duration d, .timestamp t, h =>
      exact iff_of_true ((total_addTimestampDuration h).trans (Int.add_comm _ _)) trivial
    | .duration l, .duration r, h => exact total_checked h
  · match left, right, h with
    | .timestamp l, .timestamp r, h =>
      cases h
      exact total_fromNanoseconds _
    | .timestamp t, .duration d, h =>
      rw [total_addTimestampDuration h, SubtractFits, ← total_fromNanoseconds, TimeValue.total, Int.sub_eq_add_neg]
      exact add_right_inj _
    | .duration l, .duration r, h => exact total_checked h
  · unfold durationValue at h
    split at h
    · cases h
    · next k hk => exact ⟨k, hk, total_checked h⟩

/-- **A duration of too many weeks is cut short**, and so is the negated least duration. -/
theorem weeks_saturate : (∃ v, durationValue Int64.maxValue "w" = .ok v ∧
      v.total ≠ Int64.maxValue.toInt * 604800000000000) ∧
    let t : TimeValue := .timestamp ⟨-1, 0, by decide⟩
    let d : TimeValue := .duration ⟨Int64.minValue, 0, by decide⟩
    ∃ v, evalSubtract t d = .ok v ∧ v.total ≠ t.total - d.total :=
  ⟨⟨_, rfl, by decide⟩, _, rfl, by decide⟩

end Firenook.Rules.Times
