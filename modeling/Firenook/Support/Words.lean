import Mathlib.Data.List.Sort
import Mathlib.Tactic.Linarith

/-!
# Words — 64-bit patterns whose unsigned order is another order

Flipping the sign bit of a two's-complement word turns the signed order into the unsigned one
(`toNat_flipSign`); setting it, and complementing every bit, do the same for the two halves of
the sign-and-magnitude order of doubles.
-/

namespace Words

/-- The word with only the sign bit set. -/
def signBit : UInt64 := (1 : UInt64) <<< 63

theorem toNat_signBit : signBit.toNat = 2 ^ 63 := by decide

theorem toNat_xor_signBit (x : UInt64) :
    (x ^^^ signBit).toNat = if x.toNat < 2 ^ 63 then x.toNat + 2 ^ 63 else x.toNat - 2 ^ 63 := by
  have hlt := x.toNat_lt
  rw [UInt64.toNat_xor, toNat_signBit]
  generalize x.toNat = n at *
  have hdiv := Nat.xor_div_two_pow (a := n) (b := 2 ^ 63) (n := 63)
  have hmod := Nat.xor_mod_two_pow (a := n) (b := 2 ^ 63) (n := 63)
  have hone : (2) ^ 63 / 2 ^ 63 = 1 := by decide
  have hzr : (2 : Nat) ^ 63 % 2 ^ 63 = 0 := by decide
  rw [hone] at hdiv
  rw [hzr, Nat.xor_zero] at hmod
  generalize n ^^^ 2 ^ 63 = m at *
  split
  · next h =>
    have h0 : n / 2 ^ 63 = 0 := by omega
    rw [h0] at hdiv
    have : (0 : Nat) ^^^ 1 = 1 := by decide
    omega
  · next h =>
    have h1 : n / 2 ^ 63 = 1 := by omega
    rw [h1] at hdiv
    have : (1 : Nat) ^^^ 1 = 0 := by decide
    omega

/-- **Flipping the sign bit** makes the unsigned order of words their signed order. -/
theorem toNat_flipSign (v : Int64) : ((v.toUInt64 ^^^ signBit).toNat : Int) = v.toInt + 2 ^ 63 := by
  have hval : v.toInt = if 2 * v.toUInt64.toNat < 2 ^ 64 then (v.toUInt64.toNat : Int)
      else (v.toUInt64.toNat) - 2 ^ 64 := BitVec.toInt_eq_toNat_cond v.toBitVec
  rw [toNat_xor_signBit, hval]
  generalize v.toUInt64.toNat = n at *
  split <;> split <;> omega

theorem toNat_or_signBit {x : UInt64} (h : x.toNat < 2 ^ 63) :
    (x ||| signBit).toNat = 2 ^ 63 + x.toNat := by
  have key := Nat.two_pow_add_eq_or_of_lt h 1
  rw [UInt64.toNat_or, Nat.or_comm]
  exact key.symm

theorem toNat_not (x : UInt64) : (~~~x).toNat = 2 ^ 64 - 1 - x.toNat := by
  rw [UInt64.toNat_not]
  rfl

end Words
