import Mathlib.Data.List.Sort
import Mathlib.Tactic.Linarith

/-!
# UTF-8 — well-formed byte strings

Well-formedness is acceptance by the automaton of the Unicode byte-sequence table: overlong
forms, surrogates and code points past U+10FFFF are dead ends. A string that spells text
concatenates with another (`valid_append`) and may be cut at any ASCII byte
(**`valid_append_cons`**), which is what splitting a resource path at `/` does.
-/

namespace Utf8

/-- Where the automaton is inside a code point: between code points, with one to three
continuation bytes due, or after a lead byte that restricts its first continuation byte. -/
inductive State where
  | start | one | two | three | afterE0 | afterED | afterF0 | afterF4 | dead
  deriving DecidableEq

/-- One byte read. -/
def step (q : State) (b : UInt8) : State :=
  match q with
  | .start =>
    if b < 0x80 then .start
    else if b < 0xC2 then .dead
    else if b < 0xE0 then .one
    else if b = 0xE0 then .afterE0
    else if b = 0xED then .afterED
    else if b < 0xF0 then .two
    else if b = 0xF0 then .afterF0
    else if b < 0xF4 then .three
    else if b = 0xF4 then .afterF4
    else .dead
  | .one => if 0x80 ≤ b ∧ b ≤ 0xBF then .start else .dead
  | .two => if 0x80 ≤ b ∧ b ≤ 0xBF then .one else .dead
  | .three => if 0x80 ≤ b ∧ b ≤ 0xBF then .two else .dead
  | .afterE0 => if 0xA0 ≤ b ∧ b ≤ 0xBF then .one else .dead
  | .afterED => if 0x80 ≤ b ∧ b ≤ 0x9F then .one else .dead
  | .afterF0 => if 0x90 ≤ b ∧ b ≤ 0xBF then .two else .dead
  | .afterF4 => if 0x80 ≤ b ∧ b ≤ 0x8F then .two else .dead
  | .dead => .dead

/-- The automaton run over a string. -/
def run (q : State) (bs : List UInt8) : State := bs.foldl step q

/-- The string is well-formed UTF-8. -/
def valid (bs : List UInt8) : Bool := run .start bs = .start

@[simp] theorem valid_nil : valid [] = true := rfl

theorem run_append (q : State) (s t : List UInt8) : run q (s ++ t) = run (run q s) t :=
  List.foldl_append

theorem run_dead (bs : List UInt8) : run .dead bs = .dead := by
  induction bs with
  | nil => rfl
  | cons b bs ih => exact ih

/-- An ASCII byte is a whole code point, and is no continuation byte. -/
theorem step_ascii {b : UInt8} (hb : b < 0x80) (q : State) :
    step q b = if q = .start then .start else .dead := by
  have hlow : ∀ lo : UInt8, 0x80 ≤ lo → ¬ lo ≤ b := by
    intro lo hlo h
    rw [UInt8.lt_iff_toNat_lt] at hb
    rw [UInt8.le_iff_toNat_le] at hlo h
    omega
  cases q <;> simp [step, hlow]

theorem valid_append {s t : List UInt8} (hs : valid s = true) (ht : valid t = true) :
    valid (s ++ t) = true := by
  simp only [valid, decide_eq_true_eq] at *
  rw [run_append, hs, ht]

/-- **A string may be cut at an ASCII byte.** -/
theorem valid_append_cons {c : UInt8} (hc : c < 0x80) (s t : List UInt8) :
    valid (s ++ c :: t) = true ↔ valid s = true ∧ valid t = true := by
  simp only [valid, decide_eq_true_eq]
  have hcut : run .start (s ++ c :: t) = run (step (run .start s) c) t := run_append _ _ _
  rw [hcut, step_ascii hc]
  by_cases hs : run .start s = .start
  · simp [hs]
  · simp [hs, run_dead]

end Utf8
