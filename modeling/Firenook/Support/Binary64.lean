import Mathlib.Data.Nat.Log
import Mathlib.Data.List.Sort
import Mathlib.Tactic.Linarith
import Mathlib.Tactic.Ring

/-!
# Binary64 — IEEE-754 doubles as bit patterns with exact values

A double is its 64 bits (`F64`). The value of a double that is not a NaN is an integer multiple
of `2⁻¹⁰⁷⁴`, so values are exact integers in that unit (`F64.scaled`); the infinities take the
value the exponent formula gives them, past every finite double, and the two zeros take `0`.
Comparison is comparison of those integers, and a NaN compares with nothing.

Arithmetic computes exactly and rounds once, to nearest with ties to even (`roundMag`). An
integer with at most 53 significant bits is a double's value and rounds to itself
(**`scaledMag_roundMag`**), which makes truncation and the fraction of a double exact
(`scaled_trunc`, `scaled_fract`).
-/

namespace Binary64

open Nat Int

variable {k j m : Nat}

/-- A double, as its bit pattern. -/
structure F64 where
  bits : UInt64
  deriving DecidableEq

/-! ### Magnitudes -/

/-- The magnitude bits of infinity; magnitudes past it are NaNs. -/
def infMag : Nat := 2047 * 2 ^ 52

/-- The binary logarithm of the value the exponent formula gives infinity, in units. -/
def infExponent : Nat := 2098

/-- The unit of the integers: `1.0` is this many times `2⁻¹⁰⁷⁴`. -/
@[irreducible] def unit : Nat := 2 ^ 1074

theorem unit_eq : unit = 2 ^ 1074 := by
  unfold unit
  exact Eq.refl _

/-- The absolute value of the double with magnitude bits `m`, in units of `2⁻¹⁰⁷⁴`. -/
def scaledMag (m : Nat) : Nat :=
  if m < 2 ^ 52 then m else (2 ^ 52 + m % 2 ^ 52) * 2 ^ (m / 2 ^ 52 - 1)

/-- `n / 2 ^ s` to the nearest integer, ties to even. -/
def roundShift (n s : Nat) : Nat :=
  let q := n / 2 ^ s
  let r := n % 2 ^ s
  if 2 * r < 2 ^ s then q else if 2 * r = 2 ^ s then q + q % 2 else q + 1

/-- The magnitude bits of the double nearest to `n` units; infinity on overflow. -/
def roundMag (n : Nat) : Nat :=
  if n < 2 ^ 53 then n
  else min infMag ((n.log2 - 52) * 2 ^ 52 + roundShift n (n.log2 - 52))

theorem scaledMag_of_lt (h : m < 2 ^ 53) : scaledMag m = m := by
  unfold scaledMag
  split
  · rfl
  · have hd : m / 2 ^ 52 = 1 := by omega
    rw [hd]
    omega

theorem scaledMag_of_ge (h : 2 ^ 52 ≤ m) :
    scaledMag m = (2 ^ 52 + m % 2 ^ 52) * 2 ^ (m / 2 ^ 52 - 1) := if_neg (by omega)

/-- Within one binade, and across its upper end, the value grows by a power of two. -/
theorem scaledMag_lt_succ (m : Nat) : scaledMag m < scaledMag (m + 1) := by
  by_cases hm : m + 1 < 2 ^ 53
  · rw [scaledMag_of_lt hm, scaledMag_of_lt (by omega)]
    omega
  rw [scaledMag_of_ge (by omega), scaledMag_of_ge (by omega)]
  have hpow : 0 < 2 ^ (m / 2 ^ 52 - 1) := by positivity
  by_cases hc : m % 2 ^ 52 + 1 = 2 ^ 52
  · have hd : (m + 1) / 2 ^ 52 = m / 2 ^ 52 + 1 := by omega
    have hr : (m + 1) % 2 ^ 52 = 0 := by omega
    have he : m / 2 ^ 52 + 1 - 1 = (m / 2 ^ 52 - 1) + 1 := by omega
    have hp : 2 ^ (m / 2 ^ 52 - 1 + 1) = 2 * 2 ^ (m / 2 ^ 52 - 1) := by
      rw [pow_succ, mul_comm]
    rw [hd, he, hp]
    generalize 2 ^ (m / 2 ^ 52 - 1) = p at *
    nlinarith
  · have hd : (m + 1) / 2 ^ 52 = m / 2 ^ 52 := by omega
    have hr : (m + 1) % 2 ^ 52 = m % 2 ^ 52 + 1 := by omega
    rw [hd, hr]
    nlinarith

theorem scaledMag_strictMono : StrictMono scaledMag := strictMono_nat_of_lt_succ scaledMag_lt_succ

@[simp] theorem scaledMag_zero : scaledMag 0 = 0 := rfl

theorem scaledMag_eq_zero : scaledMag m = 0 ↔ m = 0 :=
  ⟨fun h => scaledMag_strictMono.injective (h.trans scaledMag_zero.symm), fun h => by rw [h, scaledMag_zero]⟩

/-- A magnitude's value has at most 53 significant bits. -/
theorem scaledMag_significand (m : Nat) : ∃ k j, k < 2 ^ 53 ∧ scaledMag m = k * 2 ^ j := by
  by_cases h : m < 2 ^ 53
  · exact ⟨m, 0, h, by rw [scaledMag_of_lt h]; omega⟩
  · refine ⟨2 ^ 52 + m % 2 ^ 52, m / 2 ^ 52 - 1, ?_, scaledMag_of_ge (by omega)⟩
    omega

theorem scaledMag_infMag : scaledMag infMag = 2 ^ infExponent := by
  have hmod : infMag % 2 ^ 52 = 0 := mul_mod_left _ _
  rw [scaledMag_of_ge (by unfold infMag; omega), hmod, add_zero, ← pow_add]
  exact congrArg (2 ^ ·) (show 52 + (infExponent - 52) = infExponent by decide)

/-- **An integer with at most 53 significant bits is a double's value.** It rounds to the
magnitude whose value it is. -/
theorem scaledMag_roundMag (hk : k < 2 ^ 53) (h : k * 2 ^ j < scaledMag infMag) :
    scaledMag (roundMag (k * 2 ^ j)) = k * 2 ^ j := by
  generalize hn : k * 2 ^ j = n at *
  by_cases hsml : n < 2 ^ 53
  · rw [roundMag, if_pos hsml, scaledMag_of_lt hsml]
  have hn0 : n ≠ 0 := by omega
  have hlow : 2 ^ n.log2 ≤ n := log2_self_le hn0
  have hhg : n < 2 ^ (n.log2 + 1) := lt_log2_self
  have hlog : 53 ≤ n.log2 := (le_log2 hn0).mpr (by omega)
  -- The significand's width bounds the shift, so the shift discards only zeros.
  have hsj : n.log2 - 52 ≤ j := by
    have hlt : 2 ^ n.log2 < 2 ^ (53 + j) := by
      calc 2 ^ n.log2 ≤ n := hlow
        _ = k * 2 ^ j := hn.symm
        _ < 2 ^ 53 * 2 ^ j := mul_lt_mul_of_pos_right hk (by positivity)
        _ = 2 ^ (53 + j) := (pow_add 2 53 j).symm
    have := (Nat.pow_lt_pow_iff_right (by norm_num : 1 < 2)).mp hlt
    omega
  obtain ⟨q, hq⟩ : 2 ^ (n.log2 - 52) ∣ n := hn ▸ Dvd.dvd.mul_left (pow_dvd_pow 2 hsj) k
  set s := n.log2 - 52 with hs
  have hpow : 0 < 2 ^ s := by positivity
  have hrnd : roundShift n s = q := by
    have hr : n % 2 ^ s = 0 := mod_eq_zero_of_dvd ⟨q, hq⟩
    have hd : n / 2 ^ s = q := by rw [hq, Nat.mul_div_cancel_left _ hpow]
    simp only [roundShift, hr, hd]
    rw [if_pos (by omega)]
  have hql : 2 ^ 52 ≤ q := by
    have : 2 ^ s * 2 ^ 52 ≤ 2 ^ s * q := by
      rw [← hq, ← pow_add]
      exact le_trans (Nat.pow_le_pow_right (by norm_num) (by omega)) hlow
    exact Nat.le_of_mul_le_mul_left this hpow
  have hqh : q < 2 ^ 53 := by
    have : 2 ^ s * q < 2 ^ s * 2 ^ 53 := by
      rw [← hq, ← pow_add]
      exact lt_of_lt_of_le hhg (Nat.pow_le_pow_right (by norm_num) (by omega))
    exact Nat.lt_of_mul_lt_mul_left this
  have hs2046 : s < 2046 := by
    rw [scaledMag_infMag] at h
    have := (Nat.pow_lt_pow_iff_right (by norm_num : 1 < 2)).mp (lt_of_le_of_lt hlow h)
    unfold infExponent at this
    omega
  have hbt : roundMag n = s * 2 ^ 52 + q := by
    rw [roundMag, if_neg hsml, hrnd]
    exact min_eq_right (by unfold infMag; omega)
  rw [hbt, scaledMag_of_ge (by omega)]
  have hd : (s * 2 ^ 52 + q) / 2 ^ 52 = s + 1 := by omega
  have hr : (s * 2 ^ 52 + q) % 2 ^ 52 = q - 2 ^ 52 := by omega
  rw [hd, hr, Nat.add_sub_cancel' hql, Nat.mul_comm]
  exact hq.symm

theorem roundMag_le (n : Nat) : roundMag n ≤ infMag := by
  unfold roundMag
  split
  · unfold infMag
    omega
  · exact min_le_left _ _

/-- The whole part of a value with few significant bits has few significant bits. -/
theorem significand_div_mul (hk : k < 2 ^ 53) (u : Nat) :
    ∃ k' j', k' < 2 ^ 53 ∧ k * 2 ^ j / 2 ^ u * 2 ^ u = k' * 2 ^ j' := by
  by_cases huj : u ≤ j
  · refine ⟨k, j, hk, Nat.div_mul_cancel ?_⟩
    exact Dvd.dvd.mul_left (pow_dvd_pow 2 huj) k
  refine ⟨k * 2 ^ j / 2 ^ u, u, ?_, rfl⟩
  have hu : 2 ^ u = 2 ^ (u - j) * 2 ^ j := by rw [← Nat.pow_add]; congr 1; omega
  rw [hu, Nat.mul_div_mul_right _ _ (by positivity)]
  exact lt_of_le_of_lt (Nat.div_le_self _ _) hk

/-- The fraction of a value with few significant bits has few significant bits. -/
theorem significand_mod (hk : k < 2 ^ 53) (u : Nat) :
    ∃ k' j', k' < 2 ^ 53 ∧ k * 2 ^ j % 2 ^ u = k' * 2 ^ j' := by
  by_cases huj : u ≤ j
  · exact ⟨0, 0, by norm_num, by
      simpa using mod_eq_zero_of_dvd (Dvd.dvd.mul_left (pow_dvd_pow 2 huj) k)⟩
  · refine ⟨k % 2 ^ (u - j), j, lt_of_le_of_lt (mod_le _ _) hk, ?_⟩
    have hu : 2 ^ u = 2 ^ (u - j) * 2 ^ j := by rw [← pow_add]; congr 1; omega
    rw [hu, mul_mod_mul_right]

/-! ### Doubles -/

namespace F64

variable {x : F64}

/-- `is_sign_negative`. -/
def negative (x : F64) : Bool := 2 ^ 63 ≤ x.bits.toNat

/-- The bits below the sign. -/
def mag (x : F64) : Nat := x.bits.toNat % 2 ^ 63

def isNan (x : F64) : Bool := infMag < x.mag

def isInfinite (x : F64) : Bool := x.mag = infMag

def isFinite (x : F64) : Bool := x.mag < infMag

/-- The double with a sign and magnitude bits. -/
def ofMag (negative : Bool) (m : Nat) : F64 :=
  ⟨UInt64.ofNat (if negative then 2 ^ 63 + m else m)⟩

/-- `0.0`. -/
def zero : F64 := ⟨0⟩

/-- The NaN that arithmetic makes. -/
def nan : F64 := ⟨0x7FF8000000000000⟩

/-- The exact value of a double that is not a NaN, in units of `2⁻¹⁰⁷⁴`. -/
def scaled (x : F64) : Int :=
  if x.negative then -(scaledMag x.mag : Int) else (scaledMag x.mag : Int)

def partialCmp (x y : F64) : Option Ordering :=
  if x.isNan || y.isNan then none else some (compare x.scaled y.scaled)

/-- `==`: a NaN equals nothing, and the zeros are equal. -/
def eq (x y : F64) : Bool := x.partialCmp y == some .eq

/-- `<`. -/
def lt (x y : F64) : Bool := x.partialCmp y == some .lt

/-- `>=`. -/
def ge (x y : F64) : Bool := x.partialCmp y == some .gt || x.partialCmp y == some .eq

/-- The double nearest to an integer number of units; the zero is positive. -/
def ofScaled (n : Int) : F64 := ofMag (n < 0) (roundMag n.natAbs)

def neg (x : F64) : F64 := ofMag (!x.negative) x.mag

/-- `+`, rounding to nearest. -/
def add (x y : F64) : F64 :=
  if x.isNan || y.isNan then nan
  else if x.isInfinite then (if y.isInfinite && x.negative != y.negative then nan else x)
  else if y.isInfinite then y
  else if x.scaled + y.scaled = 0 then ofMag (x.negative && y.negative) 0
  else ofScaled (x.scaled + y.scaled)

/-- `-`. -/
def sub (x y : F64) : F64 := x.add y.neg

/-- `trunc`: the integer part, toward zero, with the sign kept. -/
def trunc (x : F64) : F64 :=
  if x.isFinite then ofMag x.negative (roundMag (scaledMag x.mag / unit * unit)) else x

/-- `fract`: what truncation drops. -/
def fract (x : F64) : F64 := x.sub x.trunc

/-- An integer as the nearest double. -/
def ofInt (i : Int) : F64 := ofScaled (i * unit)

/-- `as i64`: truncation, clamped to the range, with `0` for a NaN. -/
def toI64 (x : F64) : Int64 :=
  if x.isNan then 0
  else Int64.ofInt (max (-2 ^ 63) (min (2 ^ 63 - 1) (x.scaled.tdiv unit)))

@[simp] theorem scaled_zero : zero.scaled = 0 := rfl

@[simp] theorem isNan_zero : zero.isNan = false := rfl

section

variable {y : F64} (hx : x.isNan = false) (hy : y.isNan = false)

include hx hy

theorem eq_iff : x.eq y = true ↔ x.scaled = y.scaled := by
  simp [eq, partialCmp, hx, hy]

theorem lt_iff : x.lt y = true ↔ x.scaled < y.scaled := by
  simp [lt, partialCmp, hx, hy, Int.compare_eq_lt]

theorem ge_iff : x.ge y = true ↔ y.scaled ≤ x.scaled := by
  simp only [ge, partialCmp, hx, hy, Bool.or_self, Bool.false_eq_true, if_false, Bool.or_eq_true,
    beq_iff_eq, Option.some.injEq, Int.compare_eq_gt, Int.compare_eq_eq]
  omega

end

/-- The sign of a value that is not zero is its sign bit. -/
theorem negative_iff (h : x.scaled ≠ 0) : x.negative = true ↔ x.scaled < 0 := by
  cases hn : x.negative with
  | false =>
    have hx : x.scaled = scaledMag x.mag := by simp [scaled, hn]
    simp only [Bool.false_eq_true, false_iff]
    omega
  | true =>
    have hx : x.scaled = -(scaledMag x.mag) := by simp [scaled, hn]
    simp only [true_iff]
    omega

theorem mag_lt (x : F64) : x.mag < 2 ^ 63 := mod_lt _ (by positivity)

theorem bits_toNat (x : F64) : x.bits.toNat = if x.negative then 2 ^ 63 + x.mag else x.mag := by
  have hlt := x.bits.toNat_lt
  simp only [negative, mag, decide_eq_true_eq]
  split <;> omega

theorem negative_ofMag (h : m < 2 ^ 63) (s : Bool) : (ofMag s m).negative = s := by
  cases s <;> simp [ofMag, negative] <;> omega

theorem mag_ofMag (h : m < 2 ^ 63) (s : Bool) : (ofMag s m).mag = m := by
  cases s <;> simp [ofMag, mag] <;> omega

theorem infMag_lt : infMag < 2 ^ 63 := by decide

theorem scaled_ofMag (h : m < 2 ^ 63) (s : Bool) :
    (ofMag s m).scaled = if s then -(scaledMag m : Int) else (scaledMag m : Int) := by
  rw [scaled, negative_ofMag h, mag_ofMag h]

theorem natAbs_scaled (x : F64) : x.scaled.natAbs = scaledMag x.mag := by
  unfold scaled
  split <;> simp

theorem isNan_ofMag (h : m ≤ infMag) (s : Bool) : (ofMag s m).isNan = false := by
  rw [isNan, mag_ofMag (lt_of_le_of_lt h infMag_lt)]
  simpa using h

/-- A finite double's value is short of infinity's. -/
theorem scaledMag_mag_lt (h : x.isFinite = true) : scaledMag x.mag < scaledMag infMag :=
  scaledMag_strictMono (by simpa [isFinite] using h)

theorem not_isNan_of_isFinite (h : x.isFinite = true) : x.isNan = false := by
  simp only [isFinite, isNan, decide_eq_true_eq, decide_eq_false_iff_not] at *
  omega

theorem scaled_ofScaled {n : Int} (h : scaledMag (roundMag n.natAbs) = n.natAbs) :
    (ofScaled n).scaled = n := by
  have hle := lt_of_le_of_lt (roundMag_le n.natAbs) infMag_lt
  rw [ofScaled, scaled_ofMag hle]
  by_cases hn : n < 0
  · simp only [hn, decide_true, if_true]
    omega
  · simp only [hn, decide_false, Bool.false_eq_true, if_false]
    omega

theorem scaled_neg (x : F64) : x.neg.scaled = -x.scaled := by
  rw [neg, scaled_ofMag x.mag_lt, scaled]
  cases x.negative <;> simp

theorem isFinite_neg (x : F64) : x.neg.isFinite = x.isFinite := by
  rw [neg, isFinite, mag_ofMag x.mag_lt, isFinite]

/-! ### Truncation and fraction are exact -/

/-- The magnitude of a truncation. -/
theorem scaledMag_trunc (m : Nat) (h : scaledMag m < scaledMag infMag) :
    scaledMag (roundMag (scaledMag m / unit * unit)) = scaledMag m / unit * unit := by
  obtain ⟨k, j, hk, hm⟩ := scaledMag_significand m
  obtain ⟨k', j', hk', hdiv⟩ := significand_div_mul (j := j) hk 1074
  have heq : scaledMag m / unit * unit = k' * 2 ^ j' := by
    rw [hm, unit_eq]
    exact hdiv
  rw [heq]
  refine scaledMag_roundMag hk' ?_
  rw [← heq]
  exact lt_of_le_of_lt (div_mul_le_self _ _) h

theorem isFinite_trunc (h : x.isFinite = true) : x.trunc.isFinite = true := by
  have hlt := scaledMag_mag_lt h
  have hmag := lt_of_le_of_lt (roundMag_le (scaledMag x.mag / unit * unit)) infMag_lt
  rw [trunc, if_pos h, isFinite, mag_ofMag hmag, decide_eq_true_eq,
    ← scaledMag_strictMono.lt_iff_lt, scaledMag_trunc _ hlt]
  exact lt_of_le_of_lt (div_mul_le_self _ _) hlt

/-- **Truncation is exact.** -/
theorem scaled_trunc (h : x.isFinite = true) : x.trunc.scaled = x.scaled.tdiv unit * unit := by
  have hmag := lt_of_le_of_lt (roundMag_le (scaledMag x.mag / unit * unit)) infMag_lt
  rw [trunc, if_pos h, scaled_ofMag hmag, scaledMag_trunc _ (scaledMag_mag_lt h), scaled]
  cases x.negative
  · push_cast
    rw [tdiv_eq_ediv_of_nonneg (natCast_nonneg _)]
  · simp only [if_true]
    push_cast
    rw [Int.neg_tdiv, Int.tdiv_eq_ediv_of_nonneg (Int.natCast_nonneg _), Int.neg_mul]

/-- **The fraction is exact**, and is no NaN. -/
theorem scaled_fract (h : x.isFinite = true) :
    x.fract.isNan = false ∧ x.fract.scaled = x.scaled.tmod unit := by
  have hx := not_isNan_of_isFinite h
  have ht := isFinite_trunc h
  have hn : x.trunc.neg.isFinite = true := by rw [isFinite_neg, ht]
  have hinf : x.isInfinite = false := by
    simp only [isFinite, isInfinite, decide_eq_true_eq, decide_eq_false_iff_not] at *
    omega
  have hnn : x.trunc.neg.isInfinite = false := by
    simp only [isFinite, isInfinite, decide_eq_true_eq, decide_eq_false_iff_not] at *
    omega
  have hsum : x.scaled + x.trunc.neg.scaled = x.scaled.tmod unit := by
    have := tmod_add_mul_tdiv x.scaled unit
    rw [scaled_neg, scaled_trunc h]
    linarith [mul_comm (unit : Int) (x.scaled.tdiv unit)]
  have hfr : x.fract = if x.scaled.tmod unit = 0 then ofMag (x.negative && x.trunc.neg.negative) 0
      else ofScaled (x.scaled.tmod unit) := by
    simp [fract, sub, add, hx, not_isNan_of_isFinite hn, hinf, hnn, hsum]
  obtain ⟨k, j, hk, hm⟩ := scaledMag_significand x.mag
  obtain ⟨k', j', hk', hmod⟩ := significand_mod (j := j) hk 1074
  have hex : scaledMag (roundMag (x.scaled.tmod unit).natAbs) = (x.scaled.tmod unit).natAbs := by
    have heq : (x.scaled.tmod unit).natAbs = k' * 2 ^ j' := by
      rw [natAbs_tmod, natAbs_scaled, hm, unit_eq]
      exact hmod
    rw [heq]
    refine scaledMag_roundMag hk' ?_
    rw [← heq, natAbs_tmod, natAbs_scaled, natAbs_natCast]
    exact lt_of_le_of_lt (mod_le _ _) (scaledMag_mag_lt h)
  rw [hfr]
  split
  · next hz =>
    refine ⟨isNan_ofMag (zero_le _) _, ?_⟩
    rw [scaled_ofMag (by norm_num), hz]
    simp
  · exact ⟨isNan_ofMag (roundMag_le _) _, scaled_ofScaled hex⟩

end F64

end Binary64
