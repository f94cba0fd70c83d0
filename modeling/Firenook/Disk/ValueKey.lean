import Firenook.Query.Compare

/-!
# Value keys — how a field's value is keyed in the field index

`valueKey` writes a top-level value as bytes whose order is the query order, as far as a short
key can: a type tag, then an order code of the value. Integers and doubles share one numeric
domain. Long strings, bytes and references, and arrays, maps and vectors that are not empty, are
keyed by an order-preserving prefix only, the *group* of the key; a long string's group is
followed by a digest of what is compared. Such keys are *inexact*.

The digest is SHA-256, of which nothing is used here but that it is a function.
-/

namespace Firenook.Disk

open Option Int

variable {y : F64} {n : Int} {l k a b : List UInt8} {x : F64} {v w : Value}
  {ed : DatabaseEdition}

open Binary64 (F64)
open Binary64 Bytes LexOrder

/-- A digest of 32 bytes. -/
abbrev Sha256 := List UInt8 → Vector UInt8 32

open List

/-! ### The key -/

def inlineBytes : Nat := 64
def inlineReferenceBytes : Nat := 256
def digestBytes : Nat := 16
def comparedPrefixBytes : Nat := 1500

def tagNull : UInt8 := 0x10
def tagBoolean : UInt8 := 0x20
def tagNan : UInt8 := 0x30
def tagNegativeInfinity : UInt8 := 0x31
/-- Finite doubles below `-2^63`. -/
def tagBelowIntegers : UInt8 := 0x32
/-- Integers, and doubles in `[-2^63, 2^63)`. -/
def tagIntegers : UInt8 := 0x33
/-- Finite doubles at or above `2^63`. -/
def tagAboveIntegers : UInt8 := 0x34
def tagPositiveInfinity : UInt8 := 0x35
def tagTimestamp : UInt8 := 0x40
def tagString : UInt8 := 0x50
def tagBytes : UInt8 := 0x60
def tagReference : UInt8 := 0x70
def tagGeoPoint : UInt8 := 0x80
def tagArray : UInt8 := 0x90
def tagVector : UInt8 := 0xA0
def tagMap : UInt8 := 0xB0

def fractionNegative : UInt8 := 0
def fractionZero : UInt8 := 1
def fractionPositive : UInt8 := 2

/-- Ends an exact string, bytes or reference key. -/
def endExact : List UInt8 := [0, 0]
/-- Ends the group of a long one; its digest follows. -/
def endGroup : List UInt8 := [0, 1]

/-- The flag after an array, map or vector tag. -/
def emptyFlag (empty : Bool) : UInt8 := if empty then 0 else 1

/-- A top-level value as the index sees it: an array or a map only by its emptiness. -/
inductive Indexed where
  | value (v : Value)
  | array (empty : Bool)
  | map (empty : Bool)
  deriving DecidableEq

/-- `Indexed::from(&Value)`. -/
def Indexed.ofValue : Value → Indexed
  | .array values => .array values.isEmpty
  | .map fields => .map fields.isEmpty
  | v => .value v

/-- `f64` bits whose unsigned order is the query engine's double order. -/
def sortableDouble (value : F64) : UInt64 :=
  if value.isNan then 0
  else if value.eq F64.zero then Words.signBit
  else if value.negative then ~~~value.bits
  else value.bits ||| Words.signBit

/-- An integer part, and the fraction that completes the value. -/
def integralKey (integral : Int64) (sign : UInt8) (fraction : F64) : List UInt8 :=
  tagIntegers :: (beBytes 8 (sortableInteger integral).toNat ++
    sign :: if sign ≠ fractionZero then beBytes 8 (sortableDouble fraction).toNat else [])

/-- The class of a fraction. -/
def fractionSign (fraction : F64) : UInt8 :=
  if fraction.lt F64.zero then fractionNegative
  else if F64.zero.lt fraction then fractionPositive
  else fractionZero

/-- `f64::INFINITY`. -/
def infinity : F64 := ⟨0x7FF0000000000000⟩

def doubleKey (value : F64) : List UInt8 :=
  if value.isNan then [tagNan]
  else if value.eq infinity.neg then [tagNegativeInfinity]
  else if value.eq infinity then [tagPositiveInfinity]
  else if value.lt twoPow63.neg then tagBelowIntegers :: beBytes 8 (sortableDouble value).toNat
  else if value.ge twoPow63 then tagAboveIntegers :: beBytes 8 (sortableDouble value).toNat
  else
    integralKey value.trunc.toI64 (fractionSign (value.sub value.trunc)) (value.sub value.trunc)

section

variable (sha : Sha256)

/-- Up to `inline` bytes exactly; longer strings as that prefix, a group end and a digest. -/
def bytesKey (tag : UInt8) (value : List UInt8) (inline : Nat) : List UInt8 :=
  tag :: if value.length ≤ inline then escape value ++ endExact
    else escape (value.take inline) ++ endGroup ++ (sha value).toList.take digestBytes

def comparedBytesKey (tag : UInt8) (value : List UInt8) : List UInt8 :=
  bytesKey sha tag (value.take comparedPrefixBytes) inlineBytes

/-- The canonical form of a reference: the ordered ids of its segments. -/
def canonicalReference (value : List UInt8) : List UInt8 :=
  (segments value).flatMap orderedResourceId

/-- The bytes `push_value_key` appends. -/
def indexedKey : Indexed → List UInt8
  | .array empty => [tagArray, emptyFlag empty]
  | .map empty => [tagMap, emptyFlag empty]
  | .value value =>
    match value with
    | .null => [tagNull]
    | .boolean b => [tagBoolean, if b then 1 else 0]
    | .integer i => integralKey i fractionZero F64.zero
    | .double d => doubleKey d
    | .timestamp t =>
      tagTimestamp :: (beBytes 8 (sortableInteger t.seconds).toNat ++ beBytes 4 t.nanos.toNat)
    | .string s => comparedBytesKey sha tagString s.bytes
    | .bytes b => comparedBytesKey sha tagBytes b
    | .reference s =>
      bytesKey sha tagReference (canonicalReference s.bytes) inlineReferenceBytes
    | .geoPoint a b =>
      tagGeoPoint :: (beBytes 8 (sortableDouble a).toNat ++ beBytes 8 (sortableDouble b).toNat)
    | .array vs => [tagArray, emptyFlag vs.isEmpty]
    | .map fs => [tagMap, emptyFlag fs.isEmpty]
    | .vector ds =>
      tagVector :: (beBytes 4 (min ds.length (2 ^ 32 - 1)) ++ [emptyFlag ds.isEmpty])

def valueKey (value : Value) : List UInt8 := indexedKey sha (Indexed.ofValue value)

end

/-! ### Reading a key back -/

/-- Where a value key ends, read back from an entry. -/
structure KeyExtent where
  /-- Bytes of the group the walk sorts by: the whole key when it is exact. -/
  group : Nat
  /-- Bytes of the whole value key. -/
  len : Nat
  /-- Whether equal keys imply equal values. -/
  exact : Bool
  deriving DecidableEq

/-- The extent of an exact key of `len` bytes, when there are as many. -/
def exactExtent (size len : Nat) : Option KeyExtent :=
  if len ≤ size then some ⟨len, len, true⟩ else none

/-- The loop over an escaped string, at `index` of a key of `size` bytes. -/
def escapedExtent (size : Nat) : List UInt8 → Nat → Option KeyExtent
  | [], _ => none
  | b :: rest, index =>
    if b ≠ 0 then escapedExtent size rest (index + 1)
    else
      match rest with
      | [] => none
      | c :: rest =>
        if c = 255 then escapedExtent size rest (index + 2)
        else if c = 0 then exactExtent size (index + 2)
        else if c = 1 then
          if index + 2 + digestBytes ≤ size then
            some ⟨index + 2, index + 2 + digestBytes, false⟩
          else none
        else none

/-- An array, map or vector key: `flagAt` bytes, then the emptiness flag. -/
def grouped (key : List UInt8) (flagAt : Nat) : Option KeyExtent :=
  match key[flagAt]? with
  | some 0 => some ⟨flagAt + 1, flagAt + 1, true⟩
  | some 1 => some ⟨flagAt + 1, flagAt + 1, false⟩
  | _ => none

/-- The extent of the value key that starts `key`. -/
def valueKeyExtent (key : List UInt8) : Option KeyExtent := do
  let tag ← key.head?
  if tag = tagNull ∨ tag = tagNan ∨ tag = tagNegativeInfinity ∨ tag = tagPositiveInfinity then
    exactExtent key.length 1
  else if tag = tagBoolean then exactExtent key.length 2
  else if tag = tagBelowIntegers ∨ tag = tagAboveIntegers then exactExtent key.length 9
  else if tag = tagIntegers then
    let sign ← key[9]?
    if sign = fractionZero then exactExtent key.length 10
    else if sign = fractionNegative ∨ sign = fractionPositive then exactExtent key.length 18
    else none
  else if tag = tagTimestamp then exactExtent key.length 13
  else if tag = tagGeoPoint then exactExtent key.length 17
  else if tag = tagString ∨ tag = tagBytes ∨ tag = tagReference then
    escapedExtent key.length key.tail 1
  else if tag = tagArray ∨ tag = tagMap then grouped key 1
  else if tag = tagVector then grouped key 5
  else none

/-! ### Doubles -/

/-- The unsigned value of a double's sortable bits. -/
theorem toNat_sortableDouble (h : x.isNan = false) : ((sortableDouble x).toNat : Int)
      = 2 ^ 63 + if x.scaled < 0 then -1 - (x.mag : Int) else x.mag := by
  have hbt := x.bits_toNat
  have hmag := x.mag_lt
  unfold sortableDouble
  rw [h, if_neg (by simp)]
  by_cases hz : x.eq F64.zero = true
  · rw [if_pos hz]
    rw [F64.eq_iff h F64.isNan_zero, F64.scaled_zero] at hz
    have hm : x.mag = 0 := by
      rw [← scaledMag_eq_zero, ← F64.natAbs_scaled, hz]
      rfl
    rw [Words.toNat_signBit, if_neg (by omega), hm]
    norm_num
  rw [if_neg hz]
  rw [F64.eq_iff h F64.isNan_zero] at hz
  have hneg := F64.negative_iff hz
  cases hs : x.negative with
  | false =>
    rw [hs, if_neg (by simp)] at hbt
    rw [if_neg (by simp), Words.toNat_or_signBit (by omega), hbt,
      if_neg (fun e => by rw [hneg.mpr e] at hs; cases hs)]
    rfl
  | true =>
    rw [hs, if_pos rfl] at hbt
    rw [if_pos rfl, Words.toNat_not, if_pos (hneg.mp hs)]
    omega

theorem sortableDouble_of_isNan (h : x.isNan = true) : (sortableDouble x).toNat = 0 := by
  rw [sortableDouble, if_pos h]
  rfl

theorem sortableDouble_pos (h : x.isNan = false) : 0 < (sortableDouble x).toNat := by
  have hval := toNat_sortableDouble h
  have hmag : x.mag ≤ infMag := by simpa [F64.isNan] using h
  unfold infMag at hmag
  split at hval <;> omega

/-- The sortable bits of doubles that are not NaNs are ordered as their values. -/
theorem sortableDouble_lt (hx : x.isNan = false) (hy : y.isNan = false) (h : x.scaled < y.scaled) :
    (sortableDouble x).toNat < (sortableDouble y).toNat := by
  have hxv := toNat_sortableDouble hx
  have hyv := toNat_sortableDouble hy
  have hxm := F64.natAbs_scaled x
  have hym := F64.natAbs_scaled y
  have hmn := scaledMag_strictMono.lt_iff_lt (a := x.mag) (b := y.mag)
  have hmn' := scaledMag_strictMono.lt_iff_lt (a := y.mag) (b := x.mag)
  split at hxv <;> split at hyv <;> omega

/-- The sortable bits of a double compare as the double does. -/
theorem compare_sortableDouble (x y : F64) :
    compare (sortableDouble x).toNat (sortableDouble y).toNat = compareDoubles x y := by
  unfold compareDoubles
  cases hx : x.isNan <;> cases hy : y.isNan
  · rcases lt_trichotomy x.scaled y.scaled with h | h | h
    · rw [Int.compare_eq_lt.mpr h, Nat.compare_eq_lt.mpr (sortableDouble_lt hx hy h)]
    · have hxv := toNat_sortableDouble hx
      have hyv := toNat_sortableDouble hy
      have hmag : x.mag = y.mag := scaledMag_strictMono.injective (by
        rw [← F64.natAbs_scaled, ← F64.natAbs_scaled, h])
      rw [Int.compare_eq_eq.mpr h, Nat.compare_eq_eq]
      omega
    · rw [Int.compare_eq_gt.mpr h, Nat.compare_eq_gt.mpr (sortableDouble_lt hy hx h)]
  · exact Nat.compare_eq_gt.mpr (by rw [sortableDouble_of_isNan hy]; exact sortableDouble_pos hx)
  · exact Nat.compare_eq_lt.mpr (by rw [sortableDouble_of_isNan hx]; exact sortableDouble_pos hy)
  · exact Nat.compare_eq_eq.mpr (by rw [sortableDouble_of_isNan hx, sortableDouble_of_isNan hy])

theorem sortableDouble_bound (x : F64) : (sortableDouble x).toNat < 256 ^ 8 := by
  have := (sortableDouble x).toNat_lt
  omega

/-- Keys that end in sortable doubles compare by the double first. -/
theorem compare_sortableDouble_append (x y : F64) (s t : List UInt8) :
    compare (beBytes 8 (sortableDouble x).toNat ++ s) (beBytes 8 (sortableDouble y).toNat ++ t)
      = (compareDoubles x y).then (compare s t) := by
  rw [beBytes_compare (sortableDouble_bound x) (sortableDouble_bound y), compare_sortableDouble]

/-! ### Numbers -/

/-- The range of the integers, in units. -/
def integerBound : Int := 2 ^ 63 * (unit : Int)

/-- `NumberKey n k`: a number whose exact value is `n` units is keyed by `k`. One constructor for
each class of the numeric domain. -/
inductive NumberKey (n : Int) : List UInt8 → Prop where
  | negativeInfinity (hn : n = -infinity.scaled) : NumberKey n [tagNegativeInfinity]
  | below (d : F64) (hnan : d.isNan = false) (hn : d.scaled = n) (hlo : -infinity.scaled < n)
      (hhi : n < -integerBound) :
      NumberKey n (tagBelowIntegers :: beBytes 8 (sortableDouble d).toNat)
  | integral (q : Int64) (f : F64) (hlo : -integerBound ≤ n) (hhi : n < integerBound)
      (hq : q.toInt = n.tdiv unit) (hnan : f.isNan = false) (hf : f.scaled = n.tmod unit) :
      NumberKey n (integralKey q (fractionSign f) f)
  | above (d : F64) (hnan : d.isNan = false) (hn : d.scaled = n) (hlo : integerBound ≤ n)
      (hhi : n < infinity.scaled) :
      NumberKey n (tagAboveIntegers :: beBytes 8 (sortableDouble d).toNat)
  | positiveInfinity (hn : n = infinity.scaled) : NumberKey n [tagPositiveInfinity]

theorem integerBound_lt_infinity : integerBound < infinity.scaled := by decide +kernel

theorem integerBound_pos : 0 < integerBound := by decide +kernel

/-- The class of a fraction by its value. -/
theorem fractionSign_eq {f : F64} (h : f.isNan = false) :
    fractionSign f = if f.scaled < 0 then fractionNegative
      else if 0 < f.scaled then fractionPositive else fractionZero := by
  have hlt := F64.lt_iff h F64.isNan_zero
  have hgt := F64.lt_iff F64.isNan_zero h
  simp [fractionSign, hlt, hgt]

theorem numberKey_integer (i : Int64) :
    NumberKey (i.toInt * (unit : Int)) (integralKey i fractionZero F64.zero) := by
  have hpos := unit_pos
  have hlo := i.le_toInt
  have hhi := i.toInt_lt
  refine .integral i F64.zero ?_ ?_ ?_ F64.isNan_zero ?_
  · have := mul_le_mul_of_nonneg_right hlo hpos.le
    unfold integerBound
    linarith
  · exact mul_lt_mul_of_pos_right hhi hpos
  · exact (mul_tdiv_cancel _ hpos.ne').symm
  · rw [mul_tmod_left, F64.scaled_zero]

/-- A double's magnitude is at most infinity's. -/
theorem abs_scaled_le_infinity {d : F64} (h : d.isNan = false) :
    -infinity.scaled ≤ d.scaled ∧ d.scaled ≤ infinity.scaled := by
  have hmag : d.mag ≤ infMag := by simpa [F64.isNan] using h
  have hle := scaledMag_strictMono.monotone hmag
  have hinf : infinity.scaled = (scaledMag infMag : Int) := by decide +kernel
  have habs := F64.natAbs_scaled d
  omega

theorem numberKey_double {d : F64} (hnan : d.isNan = false) : NumberKey d.scaled (doubleKey d) := by
  obtain ⟨hlo, hhi⟩ := abs_scaled_le_infinity hnan
  unfold doubleKey
  rw [hnan, if_neg (by simp)]
  simp only [F64.eq_iff hnan (show infinity.neg.isNan = false by decide),
    F64.eq_iff hnan (show infinity.isNan = false by decide),
    F64.lt_iff hnan isNan_neg_twoPow63, F64.ge_iff hnan isNan_twoPow63, F64.scaled_neg,
    scaled_twoPow63]
  rw [show (2 ^ 63 * (unit)) = integerBound from rfl]
  split
  · next h => exact .negativeInfinity h
  split
  · next h => exact .positiveInfinity h
  split
  · next h => exact .below d hnan rfl (by omega) h
  split
  · next h => exact .above d hnan rfl h (by omega)
  next hge =>
  have hfin : d.isFinite = true := isFinite_of_natAbs_scaled_le (by unfold integerBound at *; omega)
  obtain ⟨hfn, hfr⟩ := F64.scaled_fract hfin
  refine .integral _ _ (by omega) (by omega) ?_ hfn hfr
  exact toInt_toI64_trunc (by unfold integerBound at *; omega) (by unfold integerBound at *; omega)

theorem sortableDouble_congr (hx : x.isNan = false) (hy : y.isNan = false)
    (h : x.scaled = y.scaled) :
    (sortableDouble x).toNat = (sortableDouble y).toNat := by
  have key := compare_sortableDouble x y
  simp only [compareDoubles, hx, hy, h, Std.ReflCmp.compare_self] at key
  exact Nat.compare_eq_eq.mp key

theorem NumberKey.unique (hk : NumberKey n k) (hl : NumberKey n l) : k = l := by
  have hbd := integerBound_lt_infinity
  have hpos := integerBound_pos
  cases hk <;> cases hl
  case negativeInfinity.negativeInfinity => rfl
  case below.below d hnan hn _ _ e hea hen _ _ =>
    rw [sortableDouble_congr hnan hea (hn.trans hen.symm)]
  case integral.integral q f _ _ hq hnan hf r g _ _ hr hgn hg =>
    have hqr : q = r := Int64.toInt_inj.mp (hq.trans hr.symm)
    have hfg : f.scaled = g.scaled := hf.trans hg.symm
    rw [integralKey, integralKey, fractionSign_eq hnan, fractionSign_eq hgn, hqr, hfg,
      sortableDouble_congr hnan hgn hfg]
  case above.above d hnan hn _ _ e hea hen _ _ =>
    rw [sortableDouble_congr hnan hea (hn.trans hen.symm)]
  case positiveInfinity.positiveInfinity => rfl
  all_goals omega

/-- Doubles of one class diverge by their sortable bits. -/
theorem sortableDouble_below (hx : x.isNan = false) (hy : y.isNan = false)
    (h : x.scaled < y.scaled) :
    Below (beBytes 8 (sortableDouble x).toNat) (beBytes 8 (sortableDouble y).toNat) :=
  beBytes_below (sortableDouble_bound y) (sortableDouble_lt hx hy h)

/-- Fractions of one integer part diverge by their class, then by their bits. -/
theorem fraction_below {f g : F64} (hf : f.isNan = false) (hg : g.isNan = false)
    (h : f.scaled < g.scaled) :
    Below (fractionSign f :: if fractionSign f ≠ fractionZero
        then beBytes 8 (sortableDouble f).toNat else [])
      (fractionSign g :: if fractionSign g ≠ fractionZero
        then beBytes 8 (sortableDouble g).toNat else []) := by
  have hbel := sortableDouble_below hf hg h
  rw [fractionSign_eq hf, fractionSign_eq hg]
  rcases lt_trichotomy f.scaled 0 with h1 | h1 | h1 <;>
    rcases lt_trichotomy g.scaled 0 with h2 | h2 | h2
  · simpa [h1, h2, fractionNegative, fractionZero] using hbel.cons 0
  · simpa [h1, h2, fractionZero] using Below.of_lt (by decide) _ _
  · simpa [h1, h2, not_lt.mpr h2.le, fractionNegative, fractionZero, fractionPositive] using
      Below.of_lt (by decide) _ _
  · omega
  · omega
  · simpa [h1, h2, not_lt.mpr h2.le, fractionZero, fractionPositive] using
      Below.of_lt (by decide) _ _
  · omega
  · omega
  · simpa [h1, h2, not_lt.mpr h1.le, not_lt.mpr h2.le, fractionZero, fractionPositive] using
      hbel.cons 2

/-- **A smaller number's key diverges below a greater one's.** -/
theorem NumberKey.below_of_lt {m : Int} (hk : NumberKey m k) (hl : NumberKey n l) (h : m < n) :
    Below k l := by
  have hbd := integerBound_lt_infinity
  have hpos := integerBound_pos
  cases hk <;> cases hl
  case below.below d hnan hn _ _ e hea hen _ _ =>
    exact (sortableDouble_below hnan hea (by omega)).cons _
  case integral.integral q f _ _ hq hnan hf r g _ _ hr hgn hg =>
    -- The integer parts are ordered; where they agree the fractions decide.
    have hm := tmod_add_mul_tdiv m unit
    have hn := tmod_add_mul_tdiv n unit
    rcases lt_trichotomy q.toInt r.toInt with hqr | hqr | hqr
    · have hlt := compare_sortableInteger q r
      rw [Std.compare_eq_lt.mpr (Int64.lt_iff_toInt_lt.mpr hqr), Nat.compare_eq_lt] at hlt
      exact ((beBytes_below (sortableInteger_lt r) hlt).append _ _).cons _
    · obtain rfl := Int64.toInt_inj.mp hqr
      have hfg : f.scaled < g.scaled := by
        have : m.tdiv unit = n.tdiv unit := hq.symm.trans hr
        rw [this] at hm
        omega
      exact ((fraction_below hnan hgn hfg).append_left _).cons _
    · have := Int.tdiv_le_tdiv unit_pos h.le
      omega
  case above.above d hnan hn _ _ e hea hen _ _ =>
    exact (sortableDouble_below hnan hea (by omega)).cons _
  all_goals first
    | (exact Below.of_lt (by decide) _ _)
    | omega

/-! ### Groups -/

/-- The group of a string, bytes or reference key. -/
def bytesGroup (tag : UInt8) (value : List UInt8) (inline : Nat) : List UInt8 :=
  tag :: if value.length ≤ inline then escape value ++ endExact
    else escape (value.take inline) ++ endGroup

/-- A smaller string's group diverges below a greater one's, unless both are long and begin
alike. -/
theorem bytesGroup_below (h : compare a b = .lt) (tag : UInt8) (inline : Nat) :
    Below (bytesGroup tag a inline) (bytesGroup tag b inline)
      ∨ (bytesGroup tag a inline = bytesGroup tag b inline ∧ inline < a.length
        ∧ inline < b.length) := by
  unfold bytesGroup
  have hza : a.length ≤ inline → a.take inline = a := take_of_length_le
  have hzb : b.length ≤ inline → b.take inline = b := take_of_length_le
  rcases compare_take h inline with hlt | heq
  · left
    by_cases ha : a.length ≤ inline <;> by_cases hb : b.length ≤ inline <;>
      simp only [ha, hb, if_true, if_false, hza, hzb] at hlt ⊢
    · exact (escape_below hlt (by decide) [] endExact).cons tag
    · exact (escape_below hlt (by decide) [] endGroup).cons tag
    · exact (escape_below hlt (by decide) [] endExact).cons tag
    · exact (escape_below hlt (by decide) [] endGroup).cons tag
  · by_cases ha : a.length ≤ inline <;> by_cases hb : b.length ≤ inline <;>
      simp only [ha, hb, if_true, if_false, hza, hzb] at heq ⊢
    · have hrf : compare b b = .eq := Std.ReflCmp.compare_self
      rw [heq, hrf] at h
      cases h
    · left
      rw [heq]
      exact ((Below.of_lt (by decide) [] []).cons 0 |>.append_left _).cons tag
    · -- A long string is no smaller than its prefix.
      exfalso
      have hne : a.drop inline ≠ [] := by simpa using Nat.lt_of_not_le ha
      have hgt := compare_append_right_lt (s := b) hne
      rw [← heq, take_append_drop] at hgt
      rw [heq] at hgt
      rw [Std.OrientedCmp.gt_of_lt hgt] at h
      cases h
    · exact .inr ⟨by rw [heq], by omega, by omega⟩

/-- Whether the key of a value determines it. -/
def exactKey : Value → Bool
  | .string s => (s.bytes.take comparedPrefixBytes).length ≤ inlineBytes
  | .bytes b => (b.take comparedPrefixBytes).length ≤ inlineBytes
  | .reference s => (canonicalReference s.bytes).length ≤ inlineReferenceBytes
  | .array vs => vs.isEmpty
  | .map fs => fs.isEmpty
  | .vector ds => ds.isEmpty
  | _ => true

section

variable (sha : Sha256)

/-- The digest after the group of a long string. -/
def digestTail (value : List UInt8) (inline : Nat) : List UInt8 :=
  if value.length ≤ inline then [] else (sha value).toList.take digestBytes

/-- The group of a value's key: the bytes the walk sorts by. -/
def groupKey : Value → List UInt8
  | .string s => bytesGroup tagString (s.bytes.take comparedPrefixBytes) inlineBytes
  | .bytes b => bytesGroup tagBytes (b.take comparedPrefixBytes) inlineBytes
  | .reference s => bytesGroup tagReference (canonicalReference s.bytes) inlineReferenceBytes
  | v => valueKey sha v

/-- What follows the group of a value's key. -/
def tailKey : Value → List UInt8
  | .string s => digestTail sha (s.bytes.take comparedPrefixBytes) inlineBytes
  | .bytes b => digestTail sha (b.take comparedPrefixBytes) inlineBytes
  | .reference s => digestTail sha (canonicalReference s.bytes) inlineReferenceBytes
  | _ => []

theorem bytesKey_eq (tag : UInt8) (value : List UInt8) (inline : Nat) :
    bytesKey sha tag value inline = bytesGroup tag value inline ++ digestTail sha value inline := by
  unfold bytesKey bytesGroup digestTail
  split <;> simp

theorem valueKey_eq (v : Value) : valueKey sha v = groupKey sha v ++ tailKey sha v := by
  cases v <;> simp only [groupKey, tailKey, append_nil] <;> exact bytesKey_eq sha _ _ _

theorem length_digestTail (value : List UInt8) (inline : Nat) :
    (digestTail sha value inline).length = if value.length ≤ inline then 0 else digestBytes := by
  unfold digestTail
  split
  · rfl
  · simp [digestBytes]

/-- How two keys relate when their values compare `Less`: the groups diverge, or both keys are
inexact and share the group. -/
def GroupsBelow (v w : Value) : Prop :=
  Below (groupKey sha v) (groupKey sha w)
    ∨ (groupKey sha v = groupKey sha w ∧ exactKey v = false ∧ exactKey w = false)

/-- The tag of a key gives the rank of the value's type. -/
theorem groupKey_eq_cons (v : Value) :
    ∃ tag rest, groupKey sha v = tag :: rest ∧ tag.toNat / 16 = typeRank v + 1 := by
  cases v with
  | double d =>
    simp only [groupKey, valueKey, Indexed.ofValue, indexedKey, doubleKey, typeRank]
    split
    · exact ⟨_, _, rfl, rfl⟩
    repeat (split; · exact ⟨_, _, rfl, rfl⟩)
    exact ⟨_, _, rfl, rfl⟩
  | _ => exact ⟨_, _, rfl, by simp only [typeRank]; decide⟩

theorem groupsBelow_of_rank_lt (h : typeRank v < typeRank w) : GroupsBelow sha v w := by
  obtain ⟨s, ps, hs, hsr⟩ := groupKey_eq_cons sha v
  obtain ⟨t, pt, ht, htr⟩ := groupKey_eq_cons sha w
  left
  rw [hs, ht]
  refine .of_lt ?_ _ _
  rw [Std.compare_eq_lt, UInt8.lt_iff_toNat_lt]
  omega

/-- Strings and bytes of different order. -/
theorem comparedGroup_below (h : compareIndexedBytes a b ed = .lt) (tag : UInt8) :
    Below (bytesGroup tag (a.take comparedPrefixBytes) inlineBytes)
        (bytesGroup tag (b.take comparedPrefixBytes) inlineBytes)
      ∨ (bytesGroup tag (a.take comparedPrefixBytes) inlineBytes
          = bytesGroup tag (b.take comparedPrefixBytes) inlineBytes
        ∧ inlineBytes < (a.take comparedPrefixBytes).length
        ∧ inlineBytes < (b.take comparedPrefixBytes).length) := by
  cases ed with
  | standard => exact bytesGroup_below h tag inlineBytes
  | enterprise =>
    rcases compare_take h comparedPrefixBytes with hlt | heq
    · exact bytesGroup_below hlt tag inlineBytes
    -- The strings first differ past what the key compares, so both are that long.
    right
    have hlen : comparedPrefixBytes ≤ a.length := by
      by_contra hsh
      have ha := take_of_length_le (Nat.le_of_not_le hsh)
      have hb : b.length ≤ comparedPrefixBytes := by
        have := congrArg length heq
        rw [ha, length_take] at this
        omega
      rw [ha, take_of_length_le hb] at heq
      have hrf : compare b b = .eq := Std.ReflCmp.compare_self
      rw [compareIndexedBytes, heq, hrf] at h
      cases h
    have hcut : inlineBytes < (a.take comparedPrefixBytes).length := by
      rw [length_take, Nat.min_eq_left hlen]
      decide
    exact ⟨by rw [heq], hcut, heq ▸ hcut⟩

/-- A number by its order word: a NaN, or an exact value and its key. -/
theorem number_cases (ed : DatabaseEdition) (h : typeRank v = 2) :
    (orderWord ed v = [2, 0] ∧ groupKey sha v = [tagNan])
      ∨ ∃ n, orderWord ed v = [2, 1, n] ∧ NumberKey n (groupKey sha v) := by
  cases v with
  | integer i => exact .inr ⟨_, rfl, numberKey_integer i⟩
  | double d =>
    cases hd : d.isNan with
    | false =>
      refine .inr ⟨d.scaled, ?_, numberKey_double hd⟩
      simp [orderWord, doubleWord, hd]
    | true =>
      refine .inl ⟨by simp [orderWord, doubleWord, hd], ?_⟩
      simp [groupKey, valueKey, Indexed.ofValue, indexedKey, doubleKey, hd]
  | _ => simp [typeRank] at h

theorem tagNan_below (h : NumberKey n k) : Below [tagNan] k := by
  cases h <;> exact .of_lt (by decide) _ _

/-- A smaller number's group diverges below a greater one's, and equal numbers have one. -/
theorem number_groups (ed : DatabaseEdition) (hv : typeRank v = 2) (hw : typeRank w = 2) :
    (compareValues ed v w = .lt → Below (groupKey sha v) (groupKey sha w))
      ∧ (compareValues ed v w = .eq → groupKey sha v = groupKey sha w) := by
  rw [compareValues_eq_compare]
  rcases number_cases sha ed hv with ⟨ho, hk⟩ | ⟨m, ho, hk⟩ <;>
    rcases number_cases sha ed hw with ⟨ho', hk'⟩ | ⟨n, ho', hk'⟩ <;>
    rw [ho, ho']
  · exact ⟨fun h => by simp at h, fun _ => hk.trans hk'.symm⟩
  · exact ⟨fun _ => hk ▸ tagNan_below hk', fun h => by simp at h⟩
  · exact ⟨nofun, nofun⟩
  · have hmn : compare [2, 1, m] [2, 1, n] = compare m n := by
      simp [List.compare_cons_cons]
    rw [hmn]
    refine ⟨fun h => hk.below_of_lt hk' (Int.compare_eq_lt.mp h), fun h => ?_⟩
    obtain rfl := Int.compare_eq_eq.mp h
    exact hk.unique hk'

/-- Groups of one length that compare as the values do. -/
theorem groupsBelow_of_compare (hlen : (groupKey sha v).length = (groupKey sha w).length)
    (h : compare (groupKey sha v) (groupKey sha w) = .lt) : GroupsBelow sha v w :=
  .inl (below_of_length_eq hlen h)

theorem compare_timestampKey (a b : Timestamp) :
    compare (groupKey sha (.timestamp a)) (groupKey sha (.timestamp b)) = compare a b := by
  have hnan : ∀ t : Timestamp, t.nanos.toNat < 256 ^ 4 := fun t => by
    have := t.nanos.toNat_lt
    omega
  have key := beBytes_compare (hnan a) (hnan b) [] []
  rw [List.append_nil, List.append_nil] at key
  simp only [groupKey, valueKey, Indexed.ofValue, indexedKey, List.compare_cons_cons,
    beBytes_compare (sortableInteger_lt _) (sortableInteger_lt _), compare_sortableInteger, key,
    compare_toNat, Std.ReflCmp.compare_self]
  have hdef : compare a b = (compare a.seconds b.seconds).then (compare a.nanos b.nanos) := rfl
  rw [hdef]
  simp

theorem compare_geoPointKey (a b c d : F64) :
    compare (groupKey sha (.geoPoint a b)) (groupKey sha (.geoPoint c d))
      = (compareDoubles a c).then (compareDoubles b d) := by
  have key := compare_sortableDouble_append b d [] []
  rw [List.append_nil, List.append_nil] at key
  simp [groupKey, valueKey, Indexed.ofValue, indexedKey, compare_sortableDouble_append, key]

/-- Shorter vectors have smaller groups; past the largest length written there is one group. -/
theorem groupsBelow_vector {a b : List F64} (h : compareVectors a b = .lt) :
    GroupsBelow sha (.vector a) (.vector b) := by
  have hle : a.length ≤ b.length := by
    by_contra hgt
    rw [compareVectors, Nat.compare_eq_gt.mpr (Nat.lt_of_not_le hgt)] at h
    cases h
  have hbd : ∀ ds : List F64, min ds.length (2 ^ 32 - 1) < 256 ^ 4 := fun ds =>
    lt_of_le_of_lt (Nat.min_le_right _ _) (by norm_num)
  rcases Nat.lt_or_ge (min a.length (2 ^ 32 - 1)) (min b.length (2 ^ 32 - 1)) with hlt | hge
  · exact .inl (((beBytes_below (hbd b) hlt).append _ _).cons _)
  have hmin : min a.length (2 ^ 32 - 1) = min b.length (2 ^ 32 - 1) := by omega
  cases a with
  | nil =>
    cases b with
    | nil => cases h
    | cons y b => rw [length_nil, length_cons] at hmin; omega
  | cons x a =>
    cases b with
    | nil => simp at hle
    | cons y b =>
      refine .inr ⟨?_, rfl, rfl⟩
      simp only [groupKey, valueKey, Indexed.ofValue, indexedKey, hmin, isEmpty_cons]

/-- **The groups of two values compared `Less`** diverge, or are one group of two inexact keys. -/
theorem groupsBelow_of_lt (h : compareValues ed v w = .lt) : GroupsBelow sha v w := by
  by_cases hr : typeRank v = typeRank w
  swap
  · rw [compareValues_of_rank_ne hr, Nat.compare_eq_lt] at h
    exact groupsBelow_of_rank_lt sha h
  by_cases hnum : typeRank v = 2
  · exact .inl ((number_groups sha ed hnum (hr ▸ hnum)).1 h)
  cases v <;> cases w <;> simp only [typeRank] at hr hnum <;>
    first
      | contradiction
      | simp only [compareValues, typeRank, ne_eq, not_true, if_false] at h
  case boolean.boolean a b =>
    refine groupsBelow_of_compare sha rfl ?_
    cases a <;> cases b <;> first | rfl | cases h
  case timestamp.timestamp a b =>
    exact groupsBelow_of_compare sha (by simp [groupKey, valueKey, Indexed.ofValue, indexedKey])
      (compare_timestampKey sha a b ▸ h)
  case string.string a b | bytes.bytes a b =>
    rcases comparedGroup_below h _ with hb | ⟨heq, ha, hb⟩
    · exact .inl hb
    · exact .inr ⟨heq, decide_eq_false (by omega), decide_eq_false (by omega)⟩
  case reference.reference a b =>
    rw [← compare_orderedPath] at h
    rcases bytesGroup_below h tagReference inlineReferenceBytes with hb | ⟨heq, ha, hb⟩
    · exact .inl hb
    · exact .inr ⟨heq, decide_eq_false (Nat.not_le_of_lt ha), decide_eq_false (Nat.not_le_of_lt hb)⟩
  case geoPoint.geoPoint a c b d =>
    exact groupsBelow_of_compare sha (by simp [groupKey, valueKey, Indexed.ofValue, indexedKey])
      (compare_geoPointKey sha a c b d ▸ h)
  case array.array a b =>
    cases a <;> cases b <;> first
      | exact .inl (Below.cons tagArray (Below.of_lt (x := 0) (y := 1) (by decide) [] []))
      | exact .inr ⟨rfl, rfl, rfl⟩
      | cases h
  case map.map a b =>
    cases a <;> cases b <;> first
      | exact .inl (Below.cons tagMap (Below.of_lt (x := 0) (y := 1) (by decide) [] []))
      | exact .inr ⟨rfl, rfl, rfl⟩
      | cases h
  case vector.vector a b => exact groupsBelow_vector sha h

theorem take_eq_of_compareIndexedBytes (h : compareIndexedBytes a b ed = .eq) :
    a.take comparedPrefixBytes = b.take comparedPrefixBytes := by
  cases ed with
  | standard => exact Std.LawfulEqCmp.eq_of_compare h
  | enterprise =>
    have heq : compare a b = .eq := h
    rw [Std.LawfulEqCmp.eq_of_compare heq]

/-- Numbers have no digest, and their keys are exact. -/
theorem number_exact (h : typeRank v = 2) : tailKey sha v = [] ∧ exactKey v = true := by
  cases v <;> first | exact ⟨rfl, rfl⟩ | (simp [typeRank] at h)

/-- **Equal values have one key**, and it is exact for both or for neither. -/
theorem valueKey_eq_of_eq (h : compareValues ed v w = .eq) :
    valueKey sha v = valueKey sha w ∧ exactKey v = exactKey w := by
  by_cases hr : typeRank v = typeRank w
  swap
  · rw [compareValues_of_rank_ne hr, Nat.compare_eq_eq] at h
    exact absurd h hr
  by_cases hnum : typeRank v = 2
  · have hnum' := hr ▸ hnum
    rw [valueKey_eq, valueKey_eq, (number_exact sha hnum).1, (number_exact sha hnum').1,
      (number_groups sha ed hnum hnum').2 h, (number_exact sha hnum).2,
      (number_exact sha hnum').2]
    exact ⟨rfl, rfl⟩
  cases v <;> cases w <;> simp only [typeRank] at hr hnum <;>
    first
      | contradiction
      | simp only [compareValues, typeRank, ne_eq, not_true, if_false] at h
  case null.null => exact ⟨rfl, rfl⟩
  case boolean.boolean a b => exact ⟨by rw [Std.LawfulEqCmp.eq_of_compare h], rfl⟩
  case timestamp.timestamp a b => exact ⟨by rw [Std.LawfulEqCmp.eq_of_compare h], rfl⟩
  case string.string a b | bytes.bytes a b =>
    have heq := take_eq_of_compareIndexedBytes h
    simp only [valueKey, Indexed.ofValue, indexedKey, comparedBytesKey, exactKey, heq]
    exact ⟨trivial, trivial⟩
  case reference.reference a b =>
    rw [← compare_orderedPath] at h
    have heq : canonicalReference a.bytes = canonicalReference b.bytes :=
      Std.LawfulEqCmp.eq_of_compare h
    simp only [valueKey, Indexed.ofValue, indexedKey, exactKey, heq]
    exact ⟨trivial, trivial⟩
  case geoPoint.geoPoint a c b d =>
    rw [← compare_geoPointKey sha] at h
    exact ⟨Std.LawfulEqCmp.eq_of_compare h, rfl⟩
  case array.array a b => cases a <;> cases b <;> first | exact ⟨rfl, rfl⟩ | cases h
  case map.map a b => cases a <;> cases b <;> first | exact ⟨rfl, rfl⟩ | cases h
  case vector.vector a b =>
    have hlen : a.length = b.length := Nat.compare_eq_eq.mp (Ordering.then_eq_eq.mp h).1
    have hemp : a.isEmpty = b.isEmpty := by
      cases a <;> cases b <;> simp_all
    simp only [valueKey, Indexed.ofValue, indexedKey, exactKey, hlen, hemp]
    exact ⟨trivial, trivial⟩

/-! ### Extents -/

theorem escapedExtent_cons {b : UInt8} (hb : b ≠ 0) (size : Nat) (rest : List UInt8)
    (index : Nat) : escapedExtent size (b :: rest) index = escapedExtent size rest (index + 1) := by
  cases rest <;> simp [escapedExtent, hb]

/-- The loop over an escaped string stops at its end marker. -/
theorem escapedExtent_escape (size : Nat) (s : List UInt8) (c : UInt8) (rest : List UInt8)
    (hc : c ≠ 255) (index : Nat) :
    escapedExtent size (escape s ++ 0 :: c :: rest) index
      = if c = 0 then exactExtent size (index + (escape s).length + 2)
        else if c = 1 then
          if index + (escape s).length + 2 + digestBytes ≤ size then
            some ⟨index + (escape s).length + 2, index + (escape s).length + 2 + digestBytes, false⟩
          else none
        else none := by
  induction s generalizing index with
  | nil => simp [escape, escapedExtent, hc]
  | cons b s ih =>
    by_cases hb : b = 0
    · subst hb
      simp only [escape, if_true, cons_append, escapedExtent, ne_eq, not_true, if_false, ih,
        length_cons]
      rw [show index + 2 + (escape s).length = index + ((escape s).length + 1 + 1) by omega]
    · simp only [escape, hb, if_false, cons_append, escapedExtent_cons hb, ih, length_cons]
      rw [show index + 1 + (escape s).length = index + ((escape s).length + 1) by omega]

/-- What the extent of a string, bytes or reference key says. -/
theorem escapedExtent_bytesKey (tag : UInt8) (value : List UInt8) (inline : Nat)
    (rest : List UInt8) :
    escapedExtent (bytesKey sha tag value inline ++ rest).length
        (bytesKey sha tag value inline ++ rest).tail 1
      = some ⟨(bytesGroup tag value inline).length, (bytesKey sha tag value inline).length,
          value.length ≤ inline⟩ := by
  unfold bytesKey bytesGroup endExact endGroup
  by_cases h : value.length ≤ inline
  · simp only [h, if_true, cons_append, tail_cons, append_assoc, nil_append]
    rw [escapedExtent_escape _ _ _ _ (by decide)]
    simp only [exactExtent, if_true, length_cons, length_append, length_nil, decide_true]
    rw [if_pos (by omega)]
    simp only [some.injEq, KeyExtent.mk.injEq, and_true]
    omega
  · simp only [h, if_false, cons_append, tail_cons, append_assoc, nil_append]
    rw [escapedExtent_escape _ _ _ _ (by decide)]
    have hdig : ((sha value).toList.take digestBytes).length = digestBytes := by
      simp [digestBytes]
    simp only [length_cons, length_append, length_nil, hdig, decide_false]
    rw [if_neg (by decide), if_pos trivial, if_pos (by omega)]
    simp only [some.injEq, KeyExtent.mk.injEq, and_true]
    omega

theorem exactExtent_append (key : List UInt8) (n : Nat) (h : key.length = n) (rest : List UInt8) :
    exactExtent (key ++ rest).length n = some ⟨key.length, key.length, true⟩ := by
  rw [exactExtent, if_pos (by simp [h]), h]

theorem valueKeyExtent_integralKey (q : Int64) (f : F64) {sign : UInt8} (rest : List UInt8)
    (hsg : sign = fractionNegative ∨ sign = fractionZero ∨ sign = fractionPositive) :
    valueKeyExtent (integralKey q sign f ++ rest)
      = some ⟨(integralKey q sign f).length, (integralKey q sign f).length, true⟩ := by
  rcases hsg with rfl | rfl | rfl
  · exact exactExtent_append (integralKey q fractionNegative f) 18
      (by simp [integralKey, fractionNegative, fractionZero]) rest
  · exact exactExtent_append (integralKey q fractionZero f) 10 (by simp [integralKey]) rest
  · exact exactExtent_append (integralKey q fractionPositive f) 18
      (by simp [integralKey, fractionPositive, fractionZero]) rest

theorem fractionSign_cases (f : F64) :
    fractionSign f = fractionNegative ∨ fractionSign f = fractionZero
      ∨ fractionSign f = fractionPositive := by
  unfold fractionSign
  split
  · exact .inl rfl
  split
  · exact .inr (.inr rfl)
  · exact .inr (.inl rfl)

/-- **The extent of a key followed by any bytes is the key's own.** -/
theorem valueKeyExtent_valueKey (v : Value) (rest : List UInt8) :
    valueKeyExtent (valueKey sha v ++ rest)
      = some ⟨(groupKey sha v).length, (valueKey sha v).length, exactKey v⟩ := by
  cases v with
  | null => exact exactExtent_append [tagNull] 1 rfl rest
  | boolean b => exact exactExtent_append [tagBoolean, if b then 1 else 0] 2 rfl rest
  | integer i => exact valueKeyExtent_integralKey i F64.zero rest (.inr (.inl rfl))
  | double d =>
    simp only [groupKey, valueKey, Indexed.ofValue, indexedKey, doubleKey, exactKey]
    split
    · exact exactExtent_append [tagNan] 1 rfl rest
    split
    · exact exactExtent_append [tagNegativeInfinity] 1 rfl rest
    split
    · exact exactExtent_append [tagPositiveInfinity] 1 rfl rest
    split
    · exact exactExtent_append (tagBelowIntegers :: beBytes 8 (sortableDouble d).toNat) 9 (by simp)
        rest
    split
    · exact exactExtent_append (tagAboveIntegers :: beBytes 8 (sortableDouble d).toNat) 9 (by simp)
        rest
    · exact valueKeyExtent_integralKey _ _ rest (fractionSign_cases _)
  | timestamp t =>
    exact exactExtent_append (valueKey sha (.timestamp t)) 13
      (by simp [valueKey, Indexed.ofValue, indexedKey]) rest
  | geoPoint a b =>
    exact exactExtent_append (valueKey sha (.geoPoint a b)) 17
      (by simp [valueKey, Indexed.ofValue, indexedKey]) rest
  | string s =>
    exact escapedExtent_bytesKey sha tagString (s.bytes.take comparedPrefixBytes) inlineBytes rest
  | bytes b =>
    exact escapedExtent_bytesKey sha tagBytes (b.take comparedPrefixBytes) inlineBytes rest
  | reference s =>
    exact escapedExtent_bytesKey sha tagReference (canonicalReference s.bytes)
      inlineReferenceBytes rest
  | array vs => cases vs <;> rfl
  | map fs => cases fs <;> rfl
  | vector ds =>
    -- The flag is the sixth byte, after the tag and the length.
    have hgr : valueKeyExtent (valueKey sha (.vector ds) ++ rest)
        = grouped (valueKey sha (.vector ds) ++ rest) 5 := rfl
    rw [hgr, grouped]
    cases ds <;> simp [emptyFlag, groupKey, valueKey, Indexed.ofValue, indexedKey, exactKey]

/-! ### The laws -/

theorem valueKey_of_exact (h : exactKey v = true) : valueKey sha v = groupKey sha v := by
  have htl : tailKey sha v = [] := by
    cases v <;> first
      | rfl
      | (simp only [exactKey, decide_eq_true_eq] at h
         simp only [tailKey, digestTail, if_pos h])
  rw [valueKey_eq, htl, append_nil]

/-- Inexact keys of one type have digests of one length. -/
theorem length_tailKey (hv : exactKey v = false) (hw : exactKey w = false)
    (h : typeRank v = typeRank w) : (tailKey sha v).length = (tailKey sha w).length := by
  cases v <;> cases w <;> simp only [typeRank] at h <;> first
    | contradiction
    | rfl
    | (simp only [exactKey, decide_eq_false_iff_not] at hv hw
       simp only [tailKey, length_digestTail, if_neg hv, if_neg hw])

variable {sha}

/-- Diverging groups make diverging keys. -/
theorem valueKey_below (h : Below (groupKey sha v) (groupKey sha w)) :
    Below (valueKey sha v) (valueKey sha w) := by
  rw [valueKey_eq, valueKey_eq]
  exact h.append _ _

/-- One key does not begin another of values that do not compare equal, unless it is that key. -/
theorem GroupsBelow.eq_of_begins (h : GroupsBelow sha v w) :
    (valueKey sha v <+: valueKey sha w → valueKey sha v = valueKey sha w)
      ∧ (valueKey sha w <+: valueKey sha v → valueKey sha w = valueKey sha v) := by
  rcases h with hb | ⟨heq, hv, hw⟩
  · exact ⟨fun h => absurd h (valueKey_below hb).diverge.1,
      fun h => absurd h (valueKey_below hb).diverge.2⟩
  have hrn : typeRank v = typeRank w := by
    obtain ⟨s, ps, hs, hsr⟩ := groupKey_eq_cons sha v
    obtain ⟨t, pt, ht, htr⟩ := groupKey_eq_cons sha w
    rw [hs, ht] at heq
    obtain ⟨rfl, -⟩ := cons.inj heq
    omega
  have hlen : (valueKey sha v).length = (valueKey sha w).length := by
    rw [valueKey_eq, valueKey_eq, length_append, length_append, heq, length_tailKey sha hv hw hrn]
  exact ⟨fun h => h.eq_of_length hlen, fun h => h.eq_of_length hlen.symm⟩

theorem GroupsBelow.eq_false_of_eq (h : GroupsBelow sha v w)
    (heq : valueKey sha v = valueKey sha w) : exactKey v = false ∧ exactKey w = false := by
  rcases h with hb | ⟨-, hv, hw⟩
  · exact absurd (heq ▸ prefix_rfl) (valueKey_below hb).diverge.1
  · exact ⟨hv, hw⟩

variable (sha)

/-- **The value key respects the query order.** For any values, in either edition: equal values
have one key; a smaller value's key is smaller unless both keys are inexact and share a group;
one exact key means equal values; no key begins another; no exact key starts with the group of an
inexact one; and the extent of a key, whatever follows it, is its own group, length and
exactness. -/
theorem valueKey_respects_order (v w : Value) :
    (∀ ed, compareValues ed v w = .eq → valueKey sha v = valueKey sha w)
      ∧ (∀ ed, compareValues ed v w = .lt → compare (valueKey sha v) (valueKey sha w) = .lt
            ∨ (exactKey v = false ∧ exactKey w = false ∧ groupKey sha v = groupKey sha w))
      ∧ (valueKey sha v = valueKey sha w → exactKey v = true →
          exactKey w = true ∧ ∀ ed, compareValues ed v w = .eq)
      ∧ (valueKey sha v <+: valueKey sha w → valueKey sha v = valueKey sha w)
      ∧ (exactKey v = true → exactKey w = false → ¬ groupKey sha w <+: valueKey sha v)
      ∧ groupKey sha v <+: valueKey sha v
      ∧ ∀ rest, valueKeyExtent (valueKey sha v ++ rest)
          = some ⟨(groupKey sha v).length, (valueKey sha v).length, exactKey v⟩ := by
  refine ⟨fun _ h => (valueKey_eq_of_eq sha h).1, fun _ h => ?_, fun heq hex => ?_,
    fun hbg => ?_, fun hv hw hbg => ?_, ⟨tailKey sha v, (valueKey_eq sha v).symm⟩,
    valueKeyExtent_valueKey sha v⟩
  · rcases groupsBelow_of_lt sha h with hb | ⟨heq, hv, hw⟩
    · exact .inl (valueKey_below hb).compare
    · exact .inr ⟨hv, hw, heq⟩
  · have hcmp : ∀ ed, compareValues ed v w = .eq := fun ed => by
      cases hc : compareValues ed v w with
      | eq => rfl
      | lt =>
        have := (groupsBelow_of_lt sha hc).eq_false_of_eq heq
        rw [hex] at this
        exact absurd this.1 (by simp)
      | gt =>
        have := (groupsBelow_of_lt sha (Std.OrientedCmp.lt_of_gt hc)).eq_false_of_eq heq.symm
        rw [hex] at this
        exact absurd this.2 (by simp)
    exact ⟨(valueKey_eq_of_eq sha (hcmp .standard)).2 ▸ hex, hcmp⟩
  · cases hc : compareValues .standard v w with
    | eq => exact (valueKey_eq_of_eq sha hc).1
    | lt => exact (groupsBelow_of_lt sha hc).eq_of_begins.1 hbg
    | gt => exact (groupsBelow_of_lt sha (Std.OrientedCmp.lt_of_gt hc)).eq_of_begins.2 hbg
  · rw [valueKey_of_exact sha hv] at hbg
    cases hc : compareValues .standard v w with
    | eq =>
      have := (valueKey_eq_of_eq sha hc).2
      rw [hv, hw] at this
      cases this
    | lt =>
      rcases groupsBelow_of_lt sha hc with hb | ⟨-, hv', -⟩
      · exact hb.diverge.2 hbg
      · rw [hv] at hv'
        cases hv'
    | gt =>
      rcases groupsBelow_of_lt sha (Std.OrientedCmp.lt_of_gt hc) with hb | ⟨-, -, hv'⟩
      · exact hb.diverge.1 hbg
      · rw [hv] at hv'
        cases hv'

end

end Firenook.Disk
