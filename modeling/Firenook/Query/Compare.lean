import Firenook.Disk.Keys

/-!
# Value order — `compare_values`

The query engine's order on values: by type first, then within the type. Integers and doubles
share one numeric domain and compare exactly, NaNs equal each other and come first among the
numbers, the Standard edition compares only the first 1,500 bytes of strings and bytes, and
references compare as resource paths.

The order is a total preorder. Each value has an *order word* (`orderWord`), a string of
integers, and values compare as their order words do (**`compare_orderWord`**): a number is one
symbol, its exact value, and a nested value is delimited by symbols of its own.
-/

namespace Firenook

variable {d : F64}

open List Ordering Int Nat

open Binary64 (F64)
open Binary64 LexOrder

/-- Database edition behaviours that affect query evaluation. -/
inductive DatabaseEdition where
  | standard
  | enterprise
  deriving DecidableEq

def standardIndexedValueBytes : Nat := 1500

def typeRank : Value → Nat
  | .null => 0
  | .boolean _ => 1
  | .integer _ => 2
  | .double _ => 2
  | .timestamp _ => 3
  | .string _ => 4
  | .bytes _ => 5
  | .reference _ => 6
  | .geoPoint _ _ => 7
  | .array _ => 8
  | .vector _ => 9
  | .map _ => 10

/-- All NaNs are one value, before every other double. -/
def compareDoubles (left right : F64) : Ordering :=
  match left.isNan, right.isNan with
  | true, true => .eq
  | true, false => .lt
  | false, true => .gt
  | false, false => compare left.scaled right.scaled

/-- Compares an integer with a double without rounding either. -/
def compareIntegerDouble (integer : Int64) (double : F64) : Ordering :=
  if double.isNan then .gt
  else if double.ge twoPow63 then .lt
  else if double.lt twoPow63.neg then .gt
  else
    match compare integer double.trunc.toI64 with
    | .eq =>
      if !double.fract.negative && !double.fract.eq (F64.zero) then .lt
      else if double.fract.negative && !double.fract.eq (F64.zero) then .gt
      else .eq
    | ordering => ordering

def compareIndexedBytes (left right : List UInt8) : DatabaseEdition → Ordering
  | .standard =>
    compare (left.take standardIndexedValueBytes) (right.take standardIndexedValueBytes)
  | .enterprise => compare left right

/-- Vectors order by length first. -/
def compareVectors (left right : List F64) : Ordering :=
  (compare left.length right.length).then (List.compareLex compareDoubles left right)

mutual

/-- The production query order. -/
def compareValues (edition : DatabaseEdition) (left right : Value) : Ordering :=
  if typeRank left ≠ typeRank right then compare (typeRank left) (typeRank right)
  else
    match left, right with
    | .null, .null => .eq
    | .boolean l, .boolean r => compare l r
    | .integer l, .integer r => compare l r
    | .double l, .double r => compareDoubles l r
    | .integer l, .double r => compareIntegerDouble l r
    | .double l, .integer r => (compareIntegerDouble r l).swap
    | .timestamp l, .timestamp r => compare l r
    | .string l, .string r => compareIndexedBytes l.bytes r.bytes edition
    | .bytes l, .bytes r => compareIndexedBytes l r edition
    | .reference l, .reference r => compareResourcePaths l.bytes r.bytes
    | .geoPoint l m, .geoPoint r s => (compareDoubles l r).then (compareDoubles m s)
    | .array l, .array r => compareArrays edition l r
    | .vector l, .vector r => compareVectors l r
    | .map l, .map r => compareMaps edition l r
    | l, r => compare (typeRank l) (typeRank r)

/-- Element by element, then by length. -/
def compareArrays (edition : DatabaseEdition) : List Value → List Value → Ordering
  | [], [] => .eq
  | [], _ :: _ => .lt
  | _ :: _, [] => .gt
  | l :: s, r :: t => (compareValues edition l r).then (compareArrays edition s t)

/-- Entry by entry in key order, key before value, then by length. -/
def compareMaps (edition : DatabaseEdition) :
    List (Str × Value) → List (Str × Value) → Ordering
  | [], [] => .eq
  | [], _ :: _ => .lt
  | _ :: _, [] => .gt
  | (j, l) :: s, (k, r) :: t =>
    ((compare j.bytes k.bytes).then (compareValues edition l r)).then (compareMaps edition s t)

end

/-! ### Numbers compare exactly -/

theorem scaled_twoPow63 : twoPow63.scaled = 2 ^ 63 * (unit : Int) := by decide +kernel

theorem isNan_twoPow63 : twoPow63.isNan = false := by decide

theorem isNan_neg_twoPow63 : twoPow63.neg.isNan = false := by decide

/-- A double within the range of the integers is finite. -/
theorem isFinite_of_natAbs_scaled_le (h : d.scaled.natAbs ≤ 2 ^ 63 * unit) : d.isFinite = true := by
  have hinf : 2 ^ 63 * unit < scaledMag infMag := by decide +kernel
  rw [F64.isFinite, decide_eq_true_eq, ← scaledMag_strictMono.lt_iff_lt, ← F64.natAbs_scaled]
  exact lt_of_le_of_lt h hinf

theorem unit_pos : 0 < (unit : Int) := by decide +kernel

/-- The remainder of a truncating division is short of the divisor on both sides. -/
theorem abs_tmod_unit_lt (n : Int) : -(unit : Int) < n.tmod unit ∧ n.tmod unit < unit := by
  have hpos := unit_pos
  have habs := natAbs_tmod n unit
  have hlt : n.natAbs % unit < unit := mod_lt _ (by omega)
  rw [natAbs_natCast] at habs
  omega

/-- A value within the range of the integers has its integer part there. -/
theorem tdiv_unit_range {n : Int} (hlo : -(2 ^ 63 * (unit : Int)) ≤ n)
    (hhi : n < 2 ^ 63 * (unit : Int)) : -2 ^ 63 ≤ n.tdiv unit ∧ n.tdiv unit < 2 ^ 63 := by
  have hpos := unit_pos
  have hsum := tmod_add_mul_tdiv n unit
  obtain ⟨hl, hr⟩ := abs_tmod_unit_lt n
  refine ⟨?_, ?_⟩
  · by_contra hlt
    have hle : n.tdiv unit ≤ -2 ^ 63 - 1 := by omega
    have := mul_le_mul_of_nonneg_left hle hpos.le
    linarith
  · by_cases hn : 0 ≤ n
    · rw [tdiv_eq_ediv_of_nonneg hn]
      exact (Int.ediv_lt_iff_lt_mul hpos).mpr hhi
    by_contra hlt
    have hle : 1 ≤ n.tdiv unit := by omega
    have := mul_le_mul_of_nonneg_left hle hpos.le
    linarith

/-- The integer part of a double within the range of the integers. -/
theorem toInt_toI64_trunc (hlo : -(2 ^ 63 * (unit : Int)) ≤ d.scaled)
    (hhi : d.scaled < 2 ^ 63 * (unit : Int)) : d.trunc.toI64.toInt = d.scaled.tdiv unit := by
  have hpos := unit_pos
  have hfin : d.isFinite = true := isFinite_of_natAbs_scaled_le (by omega)
  have hqt : d.trunc.scaled.tdiv unit = d.scaled.tdiv unit := by
    rw [F64.scaled_trunc hfin, mul_tdiv_cancel _ hpos.ne']
  obtain ⟨hl, hr⟩ := tdiv_unit_range hlo hhi
  rw [F64.toI64, F64.not_isNan_of_isFinite (F64.isFinite_trunc hfin), if_neg (by simp), hqt,
    max_eq_right (by omega), min_eq_right (by omega), Int64.toInt_ofInt_of_le hl hr]

/-- **An integer and a double compare as the numbers they are.** -/
theorem compareIntegerDouble_eq (i : Int64) (hnan : d.isNan = false) :
    compareIntegerDouble i d = compare (i.toInt * (unit : Int)) d.scaled := by
  have hpos := unit_pos
  have hilo := i.le_toInt
  have hihi := i.toInt_lt
  unfold compareIntegerDouble
  rw [hnan]
  by_cases hge : d.ge twoPow63 = true
  · rw [if_pos hge]
    rw [F64.ge_iff hnan isNan_twoPow63, scaled_twoPow63] at hge
    refine (Int.compare_eq_lt.mpr (lt_of_lt_of_le ?_ hge)).symm
    exact mul_lt_mul_of_pos_right hihi hpos
  rw [if_neg hge]
  rw [F64.ge_iff hnan isNan_twoPow63, scaled_twoPow63, not_le] at hge
  by_cases hlt : d.lt twoPow63.neg = true
  · rw [if_pos hlt]
    rw [F64.lt_iff hnan isNan_neg_twoPow63, F64.scaled_neg, scaled_twoPow63] at hlt
    refine (Int.compare_eq_gt.mpr (lt_of_lt_of_le hlt ?_)).symm
    have := mul_le_mul_of_nonneg_right hilo hpos.le
    linarith
  rw [if_neg hlt]
  rw [F64.lt_iff hnan isNan_neg_twoPow63, F64.scaled_neg, scaled_twoPow63, not_lt] at hlt
  -- Inside the range: the integer part decides, and the fraction decides a tie.
  have hfin : d.isFinite = true := isFinite_of_natAbs_scaled_le (by omega)
  have hsum := Int.tmod_add_mul_tdiv d.scaled unit
  obtain ⟨hl, hr⟩ := abs_tmod_unit_lt d.scaled
  obtain ⟨hfn, hfr⟩ := F64.scaled_fract hfin
  have htrc := toInt_toI64_trunc hlt hge
  have hzr : d.fract.eq F64.zero = true ↔ d.scaled.tmod unit = 0 := by
    rw [F64.eq_iff hfn F64.isNan_zero, hfr, F64.scaled_zero]
  rcases Int.lt_trichotomy i.toInt d.trunc.toI64.toInt with h | h | h
  · rw [Std.compare_eq_lt.mpr (Int64.lt_iff_toInt_lt.mpr h)]
    refine (Int.compare_eq_lt.mpr ?_).symm
    have hle : i.toInt + 1 ≤ d.scaled.tdiv unit := by omega
    have := mul_le_mul_of_nonneg_left hle hpos.le
    linarith
  · have hrf : compare d.trunc.toI64 d.trunc.toI64 = .eq := Std.ReflCmp.compare_self
    rw [Int64.toInt_inj.mp h, hrf]
    have hval : d.trunc.toI64.toInt * (unit) = d.scaled - d.scaled.tmod unit := by
      rw [htrc]
      linarith [mul_comm (d.scaled.tdiv unit) (unit : Int)]
    rw [hval]
    by_cases hz : d.scaled.tmod unit = 0
    · simp [hzr.mpr hz, hz]
    have hne : d.fract.eq F64.zero = false := by
      rw [Bool.eq_false_iff]
      exact fun e => hz (hzr.mp e)
    have hneg := F64.negative_iff (x := d.fract) (by rw [hfr]; exact hz)
    cases hs : d.fract.negative with
    | false =>
      have hpos' : 0 < d.scaled.tmod unit := by
        rw [hs] at hneg
        simp only [Bool.false_eq_true, false_iff] at hneg
        omega
      simp only [hne, Bool.not_false, Bool.and_self, if_true]
      exact (Int.compare_eq_lt.mpr (by omega)).symm
    | true =>
      have hneg' := hneg.mp hs
      simp only [hne, Bool.not_true, Bool.not_false, Bool.false_and, Bool.and_self,
        Bool.false_eq_true, if_false, if_true]
      exact (Int.compare_eq_gt.mpr (by omega)).symm
  · rw [Std.compare_eq_gt.mpr (Int64.lt_iff_toInt_lt.mpr h)]
    refine (Int.compare_eq_gt.mpr ?_).symm
    have hle : d.scaled.tdiv unit + 1 ≤ i.toInt := by omega
    have := mul_le_mul_of_nonneg_left hle hpos.le
    linarith

/-! ### Order words -/

/-- A byte string as a string of symbols, ended by the least symbol. -/
def textWord (bs : List UInt8) : List Int := bs.map (fun b => (b.toNat : Int) + 1) ++ [0]

/-- A double as symbols: a NaN is one, any other double its exact value. -/
def doubleWord (d : F64) : List Int := if d.isNan then [0] else [1, d.scaled]

/-- The bytes of a string or bytes value that an edition compares. -/
def indexedPrefix (edition : DatabaseEdition) (bs : List UInt8) : List UInt8 :=
  match edition with
  | .standard => bs.take standardIndexedValueBytes
  | .enterprise => bs

mutual

/-- A value as a string of symbols that compares as the value does. -/
def orderWord (edition : DatabaseEdition) : Value → List Int
  | .null => [0]
  | .boolean b => [1, if b then 1 else 0]
  | .integer i => [2, 1, i.toInt * (unit : Int)]
  | .double d => 2 :: doubleWord d
  | .timestamp t => [3, t.seconds.toInt, (t.nanos.toNat : Int)]
  | .string s => 4 :: textWord (indexedPrefix edition s.bytes)
  | .bytes b => 5 :: textWord (indexedPrefix edition b)
  | .reference s => 6 :: textWord ((segments s.bytes).flatMap Disk.orderedResourceId)
  | .geoPoint a b => 7 :: (doubleWord a ++ doubleWord b)
  | .array vs => 8 :: arrayWord edition vs
  | .vector ds => 9 :: (ds.length : Int) :: ds.flatMap doubleWord
  | .map fs => 10 :: mapWord edition fs

def arrayWord (edition : DatabaseEdition) : List Value → List Int
  | [] => [0]
  | v :: vs => 1 :: (orderWord edition v ++ arrayWord edition vs)

def mapWord (edition : DatabaseEdition) : List (Str × Value) → List Int
  | [] => [0]
  | (k, v) :: fs => 1 :: (textWord k.bytes ++ (orderWord edition v ++ mapWord edition fs))

end

theorem orderCode_textWord : OrderCode (compare : List UInt8 → List UInt8 → Ordering) textWord where
  eq_of_eq a b h := by rw [Std.LawfulEqCmp.eq_of_compare h]
  below_of_lt a b h := by
    rcases below_or_prefix_of_lt h with ⟨p, x, y, s, t, rfl, rfl, hxy⟩ | ⟨t, ht, rfl⟩
    · refine ⟨p.map (fun b => (b.toNat) + 1), (x.toNat) + 1, (y.toNat : Int) + 1,
        s.map (fun b => (b.toNat : Int) + 1) ++ [0], t.map (fun b => (b.toNat : Int) + 1) ++ [0],
        by simp [textWord], by simp [textWord], ?_⟩
      have := UInt8.lt_iff_toNat_lt.mp (Std.compare_eq_lt.mp hxy)
      exact Int.compare_eq_lt.mpr (by omega)
    · cases t with
      | nil => exact absurd rfl ht
      | cons y t =>
        refine ⟨a.map (fun b => (b.toNat : Int) + 1), 0, (y.toNat : Int) + 1, [],
          t.map (fun b => (b.toNat : Int) + 1) ++ [0], by simp [textWord], by simp [textWord], ?_⟩
        exact Int.compare_eq_lt.mpr (by omega)

/-- Concatenations that begin with a text compare by the text first. -/
theorem compare_textWord (a b : List UInt8) (s t : List Int) :
    compare (textWord a ++ s) (textWord b ++ t) = (compare a b).then (compare s t) :=
  orderCode_textWord.compare_append a b s t

/-- Concatenations that begin with a double compare by the double first. -/
theorem compare_doubleWord (a b : F64) (s t : List Int) :
    compare (doubleWord a ++ s) (doubleWord b ++ t) = (compareDoubles a b).then (compare s t) := by
  unfold doubleWord compareDoubles
  cases a.isNan <;> cases b.isNan
  · simp
  · rfl
  · rfl
  · simp [List.compare_cons_cons]

theorem compare_flatMap_doubleWord : ∀ a b, a.length = b.length → ∀ s t : List Int,
    compare (a.flatMap doubleWord ++ s) (b.flatMap doubleWord ++ t)
      = (List.compareLex compareDoubles a b).then (compare s t)
  | [], [], _, s, t => rfl
  | x :: a, y :: b, h, s, t => by
    rw [List.flatMap_cons, List.flatMap_cons, List.append_assoc, List.append_assoc,
      compare_doubleWord, compare_flatMap_doubleWord a b (by simpa using h) s t,
      List.compareLex_cons_cons, then_assoc]

theorem compare_indexedPrefix (ed : DatabaseEdition) (a b : List UInt8) :
    compare (indexedPrefix ed a) (indexedPrefix ed b) = compareIndexedBytes a b ed := by
  cases ed <;> rfl

theorem compare_natCast (m n : Nat) : compare (m : Int) (n : Int) = compare m n := by
  rcases lt_trichotomy m n with h | rfl | h
  · rw [Int.compare_eq_lt.mpr (by omega), Nat.compare_eq_lt.mpr h]
  · simp
  · rw [Int.compare_eq_gt.mpr (by omega), Nat.compare_eq_gt.mpr h]

theorem compare_toInt (i j : Int64) : compare i.toInt j.toInt = compare i j := by
  rcases Int.lt_trichotomy i.toInt j.toInt with h | h | h
  · rw [Int.compare_eq_lt.mpr h, Std.compare_eq_lt.mpr (Int64.lt_iff_toInt_lt.mpr h)]
  · rw [Int64.toInt_inj.mp h]
    simp
  · rw [Int.compare_eq_gt.mpr h, Std.compare_eq_gt.mpr (Int64.lt_iff_toInt_lt.mpr h)]

theorem compare_toNat (m n : UInt32) : compare m.toNat n.toNat = compare m n := by
  rcases lt_trichotomy m.toNat n.toNat with h | h | h
  · rw [Nat.compare_eq_lt.mpr h, Std.compare_eq_lt.mpr (UInt32.lt_iff_toNat_lt.mpr h)]
  · rw [UInt32.toNat_inj.mp h]
    simp
  · rw [Nat.compare_eq_gt.mpr h, Std.compare_eq_gt.mpr (UInt32.lt_iff_toNat_lt.mpr h)]

theorem compare_mul_unit (i j : Int) :
    compare (i * (unit : Int)) (j * (unit : Int)) = compare i j := by
  have hpos := unit_pos
  rcases lt_trichotomy i j with h | rfl | h
  · rw [Int.compare_eq_lt.mpr h, Int.compare_eq_lt.mpr (mul_lt_mul_of_pos_right h hpos)]
  · simp
  · rw [Int.compare_eq_gt.mpr h, Int.compare_eq_gt.mpr (mul_lt_mul_of_pos_right h hpos)]

/-- The first symbol of an order word is the type's rank. -/
theorem orderWord_eq_cons (ed : DatabaseEdition) (v : Value) :
    ∃ w, orderWord ed v = (typeRank v : Int) :: w := by
  cases v <;> exact ⟨_, rfl⟩

section

variable {ed : DatabaseEdition} {v w : Value} (h : typeRank v ≠ typeRank w)

include h

theorem compareValues_of_rank_ne :
    compareValues ed v w = compare (typeRank v) (typeRank w) := by
  cases v <;> unfold compareValues <;> rw [if_pos h]

/-- Values of different types compare by rank, and so do their order words. -/
theorem compare_of_rank_ne {s t : List Int} : compare (orderWord ed v ++ s) (orderWord ed w ++ t)
      = (compareValues ed v w).then (compare s t) := by
  obtain ⟨x, hx⟩ := orderWord_eq_cons ed v
  obtain ⟨y, hy⟩ := orderWord_eq_cons ed w
  rw [hx, hy, List.cons_append, List.cons_append, List.compare_cons_cons, compare_natCast,
    compareValues_of_rank_ne h]
  rcases lt_or_gt_of_ne h with hlt | hgt
  · rw [Nat.compare_eq_lt.mpr hlt]
    rfl
  · rw [Nat.compare_eq_gt.mpr hgt]
    rfl

end

mutual

/-- **Values compare as their order words do**, whatever follows the words. -/
theorem compare_orderWord (ed : DatabaseEdition) : ∀ (v w : Value) (s t : List Int),
    compare (orderWord ed v ++ s) (orderWord ed w ++ t) = (compareValues ed v w).then (compare s t)
  | .null, w, s, t => by
    cases w with
    | null => simp [orderWord, compareValues]
    | _ => exact compare_of_rank_ne (by simp [typeRank])
  | .boolean a, w, s, t => by
    cases w with
    | boolean b =>
      simp only [orderWord, compareValues, List.cons_append,
        List.compare_cons_cons, List.nil_append]
      cases a <;> cases b <;> simp <;> rfl
    | _ => exact compare_of_rank_ne (by simp [typeRank])
  | .integer i, w, s, t => by
    cases w with
    | integer j =>
      simp [orderWord, compareValues, typeRank, List.compare_cons_cons, compare_mul_unit,
        compare_toInt]
    | double d =>
      simp only [orderWord, compareValues, typeRank, doubleWord, ne_eq, not_true, if_false]
      cases hd : d.isNan with
      | false => simp [List.compare_cons_cons, compareIntegerDouble_eq i hd]
      | true =>
        rw [compareIntegerDouble, if_pos hd]
        rfl
    | _ => exact compare_of_rank_ne (by simp [typeRank])
  | .double d, w, s, t => by
    cases w with
    | integer j =>
      simp only [orderWord, compareValues, typeRank, doubleWord, ne_eq, not_true, if_false]
      cases hd : d.isNan with
      | false =>
        have hsw : compare d.scaled (j.toInt * (unit : Int)) = (compareIntegerDouble j d).swap := by
          rw [compareIntegerDouble_eq j hd]
          exact Std.OrientedCmp.eq_swap
        simp [List.compare_cons_cons, hsw]
      | true =>
        rw [compareIntegerDouble, if_pos hd]
        rfl
    | double e =>
      simp [orderWord, compareValues, compare_doubleWord, typeRank]
    | _ => exact compare_of_rank_ne (by simp [typeRank])
  | .timestamp a, w, s, t => by
    cases w with
    | timestamp b =>
      have hdef : compare a b = (compare a.seconds b.seconds).then (compare a.nanos b.nanos) := rfl
      simp [orderWord, compareValues, typeRank, List.compare_cons_cons, compare_toInt,
        compare_natCast, compare_toNat, hdef, then_assoc]
    | _ => exact compare_of_rank_ne (by simp [typeRank])
  | .string a, w, s, t => by
    cases w with
    | string b =>
      simp [orderWord, compareValues, compare_textWord, compare_indexedPrefix, typeRank]
    | _ => exact compare_of_rank_ne (by simp [typeRank])
  | .bytes a, w, s, t => by
    cases w with
    | bytes b =>
      simp [orderWord, compareValues, compare_textWord, compare_indexedPrefix, typeRank]
    | _ => exact compare_of_rank_ne (by simp [typeRank])
  | .reference a, w, s, t => by
    cases w with
    | reference b =>
      simp [orderWord, compareValues, compare_textWord, Disk.compare_orderedPath, typeRank]
    | _ => exact compare_of_rank_ne (by simp [typeRank])
  | .geoPoint a c, w, s, t => by
    cases w with
    | geoPoint b d =>
      simp [orderWord, compareValues, compare_doubleWord, typeRank, then_assoc]
    | _ => exact compare_of_rank_ne (by simp [typeRank])
  | .array a, w, s, t => by
    cases w with
    | array b =>
      simp [orderWord, compareValues, compare_arrayWord ed a b, typeRank]
    | _ => exact compare_of_rank_ne (by simp [typeRank])
  | .map a, w, s, t => by
    cases w with
    | map b =>
      simp [orderWord, compareValues, compare_mapWord ed a b, typeRank]
    | _ => exact compare_of_rank_ne (by simp [typeRank])
  | .vector a, w, s, t => by
    cases w with
    | vector b =>
      by_cases hlen : a.length = b.length
      · simp [orderWord, compareValues, typeRank, compareVectors, hlen,
          compare_flatMap_doubleWord a b hlen]
      have hne : compare a.length b.length ≠ .eq := fun h => hlen (Nat.compare_eq_eq.mp h)
      simp only [orderWord, compareValues, typeRank, compareVectors, ne_eq, not_true, if_false,
        List.cons_append, List.compare_cons_cons, Std.ReflCmp.compare_self, compare_natCast]
      cases hc : compare a.length b.length with
      | eq => exact absurd hc hne
      | lt => rfl
      | gt => rfl
    | _ => exact compare_of_rank_ne (by simp [typeRank])

theorem compare_arrayWord (ed : DatabaseEdition) : ∀ (v w : List Value) (s t : List Int),
    compare (arrayWord ed v ++ s) (arrayWord ed w ++ t) = (compareArrays ed v w).then (compare s t)
  | [], w, s, t => by
    cases w with
    | nil => simp [arrayWord, compareArrays]
    | cons b w => rfl
  | a :: v, w, s, t => by
    cases w with
    | nil => rfl
    | cons b w =>
      simp [arrayWord, compareArrays, compare_orderWord ed a b,
        compare_arrayWord ed v w, then_assoc]

theorem compare_mapWord (ed : DatabaseEdition) : ∀ (v w : List (Str × Value)) (s t : List Int),
      compare (mapWord ed v ++ s) (mapWord ed w ++ t) = (compareMaps ed v w).then (compare s t)
  | [], w, s, t => by
    cases w with
    | nil => simp [mapWord, compareMaps]
    | cons b w => rfl
  | (j, a) :: v, w, s, t => by
    cases w with
    | nil => rfl
    | cons p w =>
      obtain ⟨k, b⟩ := p
      simp [mapWord, compareMaps, compare_textWord,
        compare_orderWord ed a b, compare_mapWord ed v w, then_assoc]

end

theorem compareValues_eq_compare (ed : DatabaseEdition) (v w : Value) :
    compareValues ed v w = compare (orderWord ed v) (orderWord ed w) := by
  have key := compare_orderWord ed v w [] []
  rw [append_nil, append_nil] at key
  rw [key]
  cases compareValues ed v w <;> rfl

/-- The query order is a total preorder. -/
instance (edition : DatabaseEdition) : Std.TransCmp (compareValues edition) where
  eq_swap {v w} := by
    rw [compareValues_eq_compare, compareValues_eq_compare]
    exact Std.OrientedCmp.eq_swap
  isLE_trans {u v w} := by
    rw [compareValues_eq_compare, compareValues_eq_compare, compareValues_eq_compare]
    exact Std.TransCmp.isLE_trans

/-! ### Equal values -/

/-- Arrays are equal when they are so element by element. -/
theorem compareArrays_eq_eq_iff (ed : DatabaseEdition) : ∀ l r,
    compareArrays ed l r = .eq ↔ List.Forall₂ (fun a b => compareValues ed a b = .eq) l r
  | [], [] | [], _ :: _ | _ :: _, [] => by simp [compareArrays]
  | a :: l, b :: r => by
    rw [compareArrays, then_eq_eq, compareArrays_eq_eq_iff ed l r, forall₂_cons]

/-- Maps are equal when they have the same keys and equal values under them. -/
theorem compareMaps_eq_eq_iff (ed : DatabaseEdition) : ∀ l r, compareMaps ed l r = .eq ↔
      List.Forall₂ (fun f g => f.1 = g.1 ∧ compareValues ed f.2 g.2 = .eq) l r
  | [], [] | [], _ :: _ | _ :: _, [] => by simp [compareMaps]
  | (j, a) :: l, (k, b) :: r => by
    have hkey : compare j.bytes k.bytes = .eq ↔ j = k := by
      rw [← Str.compare_def, Std.LawfulEqCmp.compare_eq_iff_eq]
    rw [compareMaps, then_eq_eq, then_eq_eq, hkey, compareMaps_eq_eq_iff ed l r, forall₂_cons]

/-- **The query order is a total preorder whose equality is a congruence.** In both editions every
value equals itself, comparing the other way round reverses the order, and the order is transitive;
arrays are equal exactly when their elements are, and maps exactly when their entries are. -/
theorem compareValues_preorder (ed : DatabaseEdition) : (∀ a, compareValues ed a a = .eq) ∧
    (∀ a b, compareValues ed b a = (compareValues ed a b).swap) ∧
    (∀ a b c, (compareValues ed a b).isLE → (compareValues ed b c).isLE →
      (compareValues ed a c).isLE) ∧
    (∀ a b c, compareValues ed a b = .lt → compareValues ed b c = .lt →
      compareValues ed a c = .lt) ∧
    (∀ l r, compareValues ed (.array l) (.array r) = .eq ↔
      List.Forall₂ (fun a b => compareValues ed a b = .eq) l r) ∧
    ∀ l r, compareValues ed (.map l) (.map r) = .eq ↔
      List.Forall₂ (fun f g => f.1 = g.1 ∧ compareValues ed f.2 g.2 = .eq) l r := by
  refine ⟨fun a => Std.ReflCmp.compare_self, fun a b => Std.OrientedCmp.eq_swap,
    fun a b c => Std.TransCmp.isLE_trans, fun a b c => Std.TransCmp.lt_trans, fun l r => ?_,
    fun l r => ?_⟩
  · rw [compareValues, if_neg (by simp [typeRank]), compareArrays_eq_eq_iff]
  · rw [compareValues, if_neg (by simp [typeRank]), compareMaps_eq_eq_iff]

end Firenook
