import Firenook.Query.Compare
import Firenook.Store.Paths

/-!
# Arrays — union and removal by value

Array transforms compare elements with `values_equal`, which reads integers and doubles as the
numbers they are and takes all NaNs for one. Each double is a number or a NaN (`number`), and
equality of numbers is equality of those (`doublesEqual_iff`, `integerDoubleEqual_iff`), so the
relation is an equivalence at every depth (`valuesEqual_self`, `valuesEqual_comm`,
`valuesEqual_trans`). A union is then idempotent and a removal leaves no equal element
(**`array_transforms`**).
-/

namespace Firenook

open Option List Value

open Binary64 (F64)
open Binary64 Transform

/-! ### Numbers -/

/-- The exact value of a double, none for a NaN. -/
def number (d : F64) : Option Int := if d.isNan then none else some d.scaled

theorem doublesEqual_iff (a b : F64) : doublesEqual a b = true ↔ number a = number b := by
  unfold doublesEqual number
  cases ha : a.isNan <;> cases hb : b.isNan
  · simp [F64.eq_iff ha hb]
  all_goals simp [F64.eq, F64.partialCmp, ha, hb]

theorem toInt_toI64 {d : F64} (hnan : d.isNan = false) (hlo : -(2 ^ 63 * (unit : Int)) ≤ d.scaled)
    (hhi : d.scaled < 2 ^ 63 * (unit : Int)) : d.toI64.toInt = d.scaled.tdiv unit := by
  obtain ⟨hl, hr⟩ := tdiv_unit_range hlo hhi
  rw [F64.toI64, hnan, if_neg (by simp), max_eq_right (by omega), min_eq_right (by omega),
    Int64.toInt_ofInt_of_le hl hr]

theorem integerDoubleEqual_iff (i : Int64) (d : F64) :
    integerDoubleEqual i d = true ↔ number d = some (i.toInt * (unit : Int)) := by
  have hpos := unit_pos
  unfold number
  cases hnan : d.isNan with
  | true =>
    have hfin : d.isFinite = false := Bool.eq_false_iff.mpr fun h =>
      Bool.noConfusion (hnan.symm.trans (F64.not_isNan_of_isFinite h))
    simp [integerDoubleEqual, hfin]
  | false =>
    have hlt : d.lt twoPow63.neg = true ↔ d.scaled < -(2 ^ 63 * (unit : Int)) := by
      rw [F64.lt_iff hnan (by decide)]
      exact Iff.of_eq (congrArg (d.scaled < -·) scaled_twoPow63)
    have hge : d.ge twoPow63 = true ↔ 2 ^ 63 * (unit : Int) ≤ d.scaled := by
      rw [F64.ge_iff hnan (by decide)]
      exact Iff.of_eq (congrArg (· ≤ d.scaled) scaled_twoPow63)
    by_cases hrng : -(2 ^ 63 * (unit : Int)) ≤ d.scaled ∧ d.scaled < 2 ^ 63 * (unit : Int)
    · have hfin : d.isFinite = true := isFinite_of_natAbs_scaled_le (by omega)
      obtain ⟨hfn, hfr⟩ := F64.scaled_fract hfin
      have hsum := Int.tmod_add_mul_tdiv d.scaled unit
      have hint := toInt_toI64 hnan hrng.1 hrng.2
      have hcn : (!d.isFinite || d.lt twoPow63.neg || d.ge twoPow63) = false := by
        rw [hfin, Bool.eq_false_iff.mpr (mt hlt.mp (by omega)), Bool.eq_false_iff.mpr (mt hge.mp (by omega))]
        rfl
      rw [integerDoubleEqual, hcn, if_neg (by simp), Bool.and_eq_true, beq_iff_eq,
        F64.eq_iff hfn F64.isNan_zero, hfr, F64.scaled_zero, ← Int64.toInt_inj, hint]
      simp only [Bool.false_eq_true, if_false, some.injEq]
      constructor
      · rintro ⟨hz, hi⟩
        rw [hi, mul_comm]
        omega
      · intro heq
        rw [heq, Int.mul_tmod_left, Int.mul_tdiv_cancel _ hpos.ne']
        exact ⟨rfl, rfl⟩
    · have hout : integerDoubleEqual i d = false := by
        rw [integerDoubleEqual, if_pos]
        simp only [Bool.or_eq_true, hlt, hge]
        omega
      rw [hout]
      simp only [Bool.false_eq_true, if_false, some.injEq, false_iff]
      intro heq
      refine hrng ⟨?_, ?_⟩ <;> rw [heq]
      · have := mul_le_mul_of_nonneg_right i.le_toInt hpos.le
        linarith
      · exact mul_lt_mul_of_pos_right i.toInt_lt hpos

theorem valuesEqual_vector (a b : List F64) :
    valuesEqual (.vector a) (.vector b) = true ↔ a.map number = b.map number := by
  simp only [valuesEqual, Bool.and_eq_true, decide_eq_true_eq, List.all_eq_true]
  induction a generalizing b with
  | nil => cases b <;> simp
  | cons x a ih =>
    cases b with
    | nil => simp
    | cons y b => simp [← ih, doublesEqual_iff, and_left_comm]

theorem mul_unit_inj (i j : Int64) : i.toInt * (unit : Int) = j.toInt * (unit : Int) ↔ i = j := by
  rw [mul_left_inj' unit_pos.ne', Int64.toInt_inj]

/-! ### Equality of values -/

/-- What a value is to `values_equal`: the numbers are exact. -/
inductive Image where
  | null
  | boolean (value : Bool)
  | number (value : Option Int)
  | timestamp (value : Timestamp)
  | string (value : Str)
  | bytes (value : List UInt8)
  | reference (value : Str)
  | geoPoint (latitude longitude : Option Int)
  | array (values : List Image)
  | map (fields : List (Str × Image))
  | vector (values : List (Option Int))

mutual

def Value.image : Value → Image
  | .null => .null
  | .boolean b => .boolean b
  | .integer i => .number (some (i.toInt * (unit : Int)))
  | .double d => .number (Firenook.number d)
  | .timestamp t => .timestamp t
  | .string s => .string s
  | .bytes b => .bytes b
  | .reference s => .reference s
  | .geoPoint a b => .geoPoint (Firenook.number a) (Firenook.number b)
  | .array vs => .array (imageList vs)
  | .map fs => .map (imageFields fs)
  | .vector ds => .vector (ds.map Firenook.number)

def imageList : List Value → List Image
  | [] => []
  | v :: vs => v.image :: imageList vs

def imageFields : List (Str × Value) → List (Str × Image)
  | [] => []
  | (k, v) :: fs => (k, v.image) :: imageFields fs

end

mutual

/-- **Values are equal when their images are.** -/
theorem valuesEqual_iff : ∀ v w : Value, valuesEqual v w = true ↔ v.image = w.image
  | .array vs, w => by cases w <;> simp [valuesEqual, image, listsEqual_iff vs]
  | .map fs, w => by cases w <;> simp [valuesEqual, image, mapsEqual_iff fs]
  | .vector a, w => by
    cases w with
    | vector b => simpa [image] using valuesEqual_vector a b
    | _ => simp [valuesEqual, image]
  | .integer i, w => by
    cases w with
    | double d => simpa [valuesEqual, image, integerDoubleEqual_iff] using eq_comm
    | integer j => simpa [valuesEqual, image, -mul_eq_mul_right_iff] using (mul_unit_inj i j).symm
    | _ => simp [valuesEqual, image]
  | .null, w | .boolean _, w | .double _, w | .timestamp _, w | .string _, w | .bytes _, w
  | .reference _, w | .geoPoint _ _, w => by
    cases w <;> simp [valuesEqual, image, doublesEqual_iff, integerDoubleEqual_iff]

theorem listsEqual_iff : ∀ vs ws : List Value, listsEqual vs ws = true ↔ imageList vs = imageList ws
  | [], ws => by cases ws <;> simp [listsEqual, imageList]
  | v :: vs, ws => by
    cases ws <;> simp [listsEqual, imageList, valuesEqual_iff v, listsEqual_iff vs]

theorem mapsEqual_iff : ∀ fs gs : List (Str × Value),
    mapsEqual fs gs = true ↔ imageFields fs = imageFields gs
  | [], gs => by cases gs <;> simp [mapsEqual, imageFields]
  | (k, v) :: fs, gs => by
    cases gs with
    | nil => simp [mapsEqual, imageFields]
    | cons g gs => simp [mapsEqual, imageFields, valuesEqual_iff v, mapsEqual_iff fs]

end

/-! ### Unions and removals -/

/-- The loop of a union, from the elements found. -/
def unite (found xs : List OrderedValue) : List OrderedValue :=
  xs.foldl (fun result element =>
    if result.any fun existing => valuesEqual existing.val element.val then result
    else result ++ [element]) found

theorem unite_cons (found : List OrderedValue) (x : OrderedValue) (xs : List OrderedValue) :
    unite found (x :: xs) = unite
      (if found.any fun existing => valuesEqual existing.val x.val then found else found ++ [x]) xs :=
  rfl

/-- A union keeps what it finds, adds to its end and holds an equal of every element. -/
theorem unite_spec (found xs : List OrderedValue) : ∃ added, unite found xs = found ++ added ∧
    ∀ x ∈ xs, ∃ e ∈ found ++ added, valuesEqual e.val x.val = true := by
  induction xs generalizing found with
  | nil => exact ⟨[], (append_nil _).symm, nofun⟩
  | cons x xs ih =>
    rw [unite_cons]
    split
    · next hany =>
      obtain ⟨added, hadd, hall⟩ := ih found
      obtain ⟨e, he, heql⟩ := any_eq_true.mp hany
      exact ⟨added, hadd, forall_mem_cons.mpr ⟨⟨e, mem_append_left added he, heql⟩, hall⟩⟩
    · obtain ⟨added, hadd, hall⟩ := ih (found ++ [x])
      rw [append_assoc] at hadd hall
      exact ⟨x :: added, hadd, forall_mem_cons.mpr
        ⟨⟨x, by simp, (valuesEqual_iff _ _).mpr rfl⟩, hall⟩⟩

/-- A union that finds an equal of every element adds nothing. -/
theorem unite_of_held {found xs : List OrderedValue}
    (h : ∀ x ∈ xs, ∃ e ∈ found, valuesEqual e.val x.val = true) : unite found xs = found := by
  induction xs with
  | nil => rfl
  | cons x xs ih =>
    rw [unite_cons, if_pos (any_eq_true.mpr (h x mem_cons_self))]
    exact ih fun y hy => h y (mem_cons_of_mem _ hy)

theorem elementsOf_arrayOf (es : List OrderedValue) : elementsOf (some (arrayOf es)) = es := by
  refine map_injective_iff.mpr Subtype.val_injective ?_
  simp [elementsOf, arrayOf]

/-- What a path is assigned is read back. -/
theorem Fields.atPath_setPath (f : Fields) (path : FieldPath) (v : OrderedValue) :
    (f.setPath path v).atPath path = some v := by
  have hlk := look_edit_append (v := some v.val) f.ordered_cell path.segments []
  rw [append_nil, ← f.cell_setPath, ← Fields.val_atPath] at hlk
  obtain ⟨w, hw, hval⟩ := map_eq_some_iff.mp hlk
  rw [hw, Subtype.ext hval]

/-- Assigning what is there changes nothing. -/
theorem Fields.setPath_of_atPath {f : Fields} {path : FieldPath} {v : OrderedValue}
    (h : f.atPath path = some v) : f.setPath path v = f := by
  have hval := f.val_atPath path
  rw [h, map_some] at hval
  refine Fields.cell_inj ?_
  rw [f.cell_setPath, hval, edit_look f.ordered_cell]

/-- **Array transforms are set-like.** Values are equal when they are the same but for how their
numbers are written, an equivalence; a union made twice is made once, keeps the elements found as a
prefix and holds an equal of every element it is given; a removal keeps, in their order, exactly the
elements that equal none it is given. -/
theorem array_transforms : (∀ v w, valuesEqual v w = true ↔ v.image = w.image) ∧
    (∀ v, valuesEqual v v = true) ∧
    (∀ v w, valuesEqual v w = true → valuesEqual w v = true) ∧
    (∀ u v w, valuesEqual u v = true → valuesEqual v w = true → valuesEqual u w = true) ∧
    ∀ (time : Timestamp) (key : DocumentKey) (fields : Fields) (path : FieldPath)
      (xs : List OrderedValue),
      (∃ next added, applyTransform time key fields ⟨path, .arrayUnion xs⟩ = .ok next ∧
        applyTransform time key next ⟨path, .arrayUnion xs⟩ = .ok next ∧
        next.atPath path = some (arrayOf (elementsOf (fields.atPath path) ++ added)) ∧
        ∀ x ∈ xs, ∃ e ∈ elementsOf (fields.atPath path) ++ added, valuesEqual e.val x.val = true) ∧
      ∃ next, applyTransform time key fields ⟨path, .arrayRemove xs⟩ = .ok next ∧
        next.atPath path = some (arrayOf ((elementsOf (fields.atPath path)).filter fun e =>
          xs.all fun x => !valuesEqual e.val x.val)) := by
  refine ⟨valuesEqual_iff, fun v => (valuesEqual_iff v v).mpr rfl, fun v w h => ?_,
    fun u v w h h' => ?_, fun time key fields path xs => ⟨?_, _, rfl, ?_⟩⟩
  · exact (valuesEqual_iff w v).mpr ((valuesEqual_iff v w).mp h).symm
  · exact (valuesEqual_iff u w).mpr (((valuesEqual_iff u v).mp h).trans ((valuesEqual_iff v w).mp h'))
  · obtain ⟨added, hadd, hhl⟩ := unite_spec (elementsOf (fields.atPath path)) xs
    have hpt := fields.atPath_setPath path (arrayUnion (fields.atPath path) xs)
    have hun : arrayUnion (fields.atPath path) xs
        = arrayOf (elementsOf (fields.atPath path) ++ added) := congrArg arrayOf hadd
    refine ⟨_, added, rfl, ?_, hpt.trans (congrArg some hun), hhl⟩
    have haga : arrayUnion (some (arrayUnion (fields.atPath path) xs)) xs
        = arrayUnion (fields.atPath path) xs := by
      rw [hun]
      exact congrArg arrayOf ((congrArg (unite · xs) (elementsOf_arrayOf _)).trans
        (unite_of_held hhl))
    have hkp := Fields.setPath_of_atPath hpt
    simp only [applyTransform, transformValue, Fallible.ok_bind, hpt, haga, hkp]
    rfl
  · rw [Fields.atPath_setPath, Transform.arrayRemove]
    simp only [not_any_eq_all_not]

end Firenook
