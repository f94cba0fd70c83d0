import Mathlib.Tactic.Ring
import Firenook.Support.LexOrder

/-!
# Byte strings — two order codes

Fixed-width big-endian integers (`beBytes`) and zero-escaped strings (`escape`). In an escaped
string a zero byte is written `00 FF`, so a zero followed by any other byte ends it: whatever
comes after two such ends, escaped strings compare as the strings do (**`escape_below`**).
-/

namespace Bytes

open List Ordering UInt8 Nat LexOrder

variable {m k n : Nat} {a : List UInt8}

/-! ### Big-endian integers -/

/-- The `k` low bytes of `n`, most significant first. -/
def beBytes : Nat → Nat → List UInt8
  | 0, _ => []
  | k + 1, n => UInt8.ofNat (n / 256 ^ k) :: beBytes k (n % 256 ^ k)

/-- The integer a big-endian string spells. -/
def ofBytes (bs : List UInt8) : Nat := bs.foldl (fun acc b => acc * 256 + b.toNat) 0

@[simp] theorem length_beBytes (k n : Nat) : (beBytes k n).length = k := by
  induction k generalizing n with
  | zero => rfl
  | succ k ih => simp [beBytes, ih]

theorem div_lt_of_lt_pow (h : n < 256 ^ (k + 1)) : n / 256 ^ k < 256 := by
  rw [div_lt_iff_lt_mul (by positivity)]
  rwa [pow_succ, mul_comm] at h

/-- Big-endian strings of one width diverge as their integers compare. -/
theorem beBytes_below (hn : n < 256 ^ k) (h : m < n) : Below (beBytes k m) (beBytes k n) := by
  induction k generalizing m n with
  | zero => simp at hn; omega
  | succ k ih =>
    have hdn := div_lt_of_lt_pow hn
    have hdm := div_lt_of_lt_pow (lt_trans h hn)
    have hle : m / 256 ^ k ≤ n / 256 ^ k := Nat.div_le_div_right h.le
    rcases hle.lt_or_eq with hlt | heq
    · refine .of_lt ?_ _ _
      rwa [Std.compare_eq_lt, lt_iff_toNat_lt, toNat_ofNat', toNat_ofNat',
        mod_eq_of_lt hdm, mod_eq_of_lt hdn]
    · have hmod : m % 256 ^ k < n % 256 ^ k := by
        have hm := div_add_mod m (256 ^ k)
        have hn := div_add_mod n (256 ^ k)
        rw [heq] at hm
        omega
      have key := (ih (mod_lt _ (by positivity)) hmod).cons (UInt8.ofNat (n / 256 ^ k))
      rw [beBytes, beBytes, heq]
      exact key

theorem ofBytes_foldl (bs : List UInt8) (acc : Nat) :
    bs.foldl (fun acc b => acc * 256 + b.toNat) acc = acc * 256 ^ bs.length + ofBytes bs := by
  induction bs generalizing acc with
  | nil => simp [ofBytes]
  | cons b bs ih =>
    have h0 := ih (0 * 256 + b.toNat)
    rw [ofBytes, foldl_cons, foldl_cons, ih, h0, length_cons, pow_succ]
    ring

/-- Reading back a big-endian string. -/
@[simp] theorem ofBytes_beBytes (h : n < 256 ^ k) : ofBytes (beBytes k n) = n := by
  induction k generalizing n with
  | zero => simp at h; simp [beBytes, ofBytes, h]
  | succ k ih =>
    have hd := div_lt_of_lt_pow h
    have hm := div_add_mod n (256 ^ k)
    rw [ofBytes, beBytes, foldl_cons, ofBytes_foldl, length_beBytes,
      ih (mod_lt _ (by positivity)), toNat_ofNat', mod_eq_of_lt hd]
    rw [Nat.zero_mul, Nat.zero_add, Nat.mul_comm]
    exact hm

theorem beBytes_injective (hm : m < 256 ^ k) (hn : n < 256 ^ k) (h : beBytes k m = beBytes k n) :
    m = n := by
  rw [← ofBytes_beBytes hm, h, ofBytes_beBytes hn]

/-- The integers below `256 ^ k` at width `k` form an order code. -/
theorem beBytes_compare (hm : m < 256 ^ k) (hn : n < 256 ^ k) (s t : List UInt8) :
    compare (beBytes k m ++ s) (beBytes k n ++ t) = (compare m n).then (compare s t) := by
  rcases lt_trichotomy m n with h | rfl | h
  · rw [((beBytes_below hn h).append s t).compare, Nat.compare_eq_lt.mpr h]
    rfl
  · simp [Std.ReflCmp.compare_self]
  · rw [Std.OrientedCmp.gt_of_lt ((beBytes_below hm h).append t s).compare, Nat.compare_eq_gt.mpr h]
    rfl

/-! ### Escaped strings -/

/-- A string with each zero byte written `00 FF`. -/
def escape : List UInt8 → List UInt8
  | [] => []
  | b :: bs => if b = 0 then 0 :: 255 :: escape bs else b :: escape bs

/-- **Escaped strings compare as the strings do.** The smaller string must be ended by a zero
and a byte other than the escape; nothing is asked of what follows the greater one. -/
theorem escape_below {b : List UInt8} (h : compare a b = .lt) {x : UInt8} (hx : x < 255)
    (s t : List UInt8) : Below (escape a ++ 0 :: x :: s) (escape b ++ t) := by
  induction a generalizing b with
  | nil =>
    cases b with
    | nil => simp at h
    | cons y b =>
      by_cases hy : y = 0
      · simpa [escape, hy] using Below.cons 0 (.of_lt (Std.compare_eq_lt.mpr hx) s (escape b ++ t))
      have : (0 : UInt8) < y := by
        rw [lt_iff_toNat_lt]
        have : y.toNat ≠ 0 := fun e => hy (UInt8.toNat_inj.mp e)
        simp; omega
      simpa [escape, hy] using Below.of_lt (Std.compare_eq_lt.mpr this) (x :: s) (escape b ++ t)
  | cons z a ih =>
    cases b with
    | nil => simp at h
    | cons y b =>
      rw [List.compare_cons_cons, then_eq_lt] at h
      rcases h with h | ⟨h, hab⟩
      · have hzy := Std.compare_eq_lt.mp h
        have hy : y ≠ 0 := fun e => by subst e; simp [lt_iff_toNat_lt] at hzy
        by_cases hz : z = 0
        · subst hz
          simpa [escape, hy] using Below.of_lt h _ (escape b ++ t)
        · simpa [escape, hz, hy] using Below.of_lt h _ (escape b ++ t)
      · obtain rfl := Std.LawfulEqCmp.eq_of_compare h
        by_cases hz : z = 0
        · simpa [escape, hz] using ((ih hab).cons 255).cons 0
        · simpa [escape, hz] using (ih hab).cons z

/-! ### Successors -/

/-- The least string above every extension of the given one: its last byte that is not the largest
is raised and what follows is cut. There is none above a string of largest bytes. -/
def successor : List UInt8 → Option (List UInt8)
  | [] => none
  | b :: bs =>
    match successor bs with
    | some above => some (b :: above)
    | none => if b ≠ 255 then some [b + 1] else none

theorem successor_eq_none_iff : successor a = none ↔ ∀ b ∈ a, b = 255 := by
  induction a with
  | nil => exact ⟨fun _ => nofun, fun _ => rfl⟩
  | cons b bs ih =>
    rw [successor, forall_mem_cons, ← ih]
    cases successor bs with
    | some above => simp
    | none =>
      by_cases hb : b = 255
      · simp [hb]
      · simp [hb]

/-- A string of largest bytes is at most its extensions only. -/
theorem isLE_iff_isPrefix_of_successor_eq_none (h : successor a = none) (x : List UInt8) :
    (compare a x).isLE ↔ a <+: x := by
  refine ⟨fun hle => ?_, isLE_of_isPrefix⟩
  induction a generalizing x with
  | nil => exact nil_prefix
  | cons b bs ih =>
    rw [successor] at h
    cases hbs : successor bs with
    | some above =>
      rw [hbs] at h
      cases h
    | none =>
      rw [hbs] at h
      have hb : b = 255 := by
        by_contra hne
        simp [hne] at h
      cases x with
      | nil => cases hle
      | cons c x =>
        rw [List.compare_cons_cons, isLE_then_iff_or] at hle
        rcases hle with hlt | ⟨heq, hle⟩
        · rw [Std.compare_eq_lt, hb, lt_iff_toNat_lt] at hlt
          have hc := c.toNat_lt
          change 255 < c.toNat at hlt
          omega
        · rw [Std.LawfulEqCmp.compare_eq_iff_eq] at heq
          exact cons_prefix_cons.mpr ⟨heq, ih hbs x hle⟩

/-- **The strings from one up to its successor are its extensions.** -/
theorem between_successor_iff {above : List UInt8} (h : successor a = some above) (x : List UInt8) :
    ((compare a x).isLE ∧ compare x above = .lt) ↔ a <+: x := by
  induction a generalizing above x with
  | nil => cases h
  | cons b bs ih =>
    rw [successor] at h
    cases x with
    | nil => simp
    | cons c x =>
      have hsl : ∀ d : UInt8, compare d d = .eq := fun d => Std.ReflCmp.compare_self
      rw [List.compare_cons_cons, isLE_then_iff_or, List.cons_prefix_cons]
      cases hbs : successor bs with
      | some above' =>
        rw [hbs] at h
        obtain rfl := Option.some.inj h
        rw [List.compare_cons_cons, then_eq_lt, ← ih hbs]
        constructor
        · rintro ⟨hlt | ⟨heq, hle⟩, hup⟩
          · rcases hup with hcb | ⟨hcb, -⟩
            · rw [Std.OrientedCmp.gt_of_lt hcb] at hlt
              cases hlt
            · rw [Std.LawfulEqCmp.compare_eq_iff_eq] at hcb
              rw [hcb, hsl] at hlt
              cases hlt
          · rw [Std.LawfulEqCmp.compare_eq_iff_eq] at heq
            subst heq
            refine ⟨rfl, hle, ?_⟩
            rcases hup with hcb | ⟨-, hup⟩
            · rw [hsl] at hcb
              cases hcb
            · exact hup
        · rintro ⟨rfl, hle, hup⟩
          exact ⟨.inr ⟨hsl b, hle⟩, .inr ⟨hsl b, hup⟩⟩
      | none =>
        rw [hbs] at h
        by_cases hb : b = 255
        · simp [hb] at h
        simp only [ne_eq, hb, not_false_iff, if_true, Option.some.injEq] at h
        subst h
        have hsc : (b + 1).toNat = b.toNat + 1 := by
          have hlt : b.toNat ≠ 255 := fun hn => hb (UInt8.toNat_inj.mp hn)
          have := b.toNat_lt
          change (b.toNat + 1) % 2 ^ 8 = _
          omega
        rw [List.compare_cons_cons, then_eq_lt, ← isLE_iff_isPrefix_of_successor_eq_none hbs]
        constructor
        · rintro ⟨hlt | ⟨heq, hle⟩, hup⟩
          · rw [Std.compare_eq_lt, lt_iff_toNat_lt] at hlt
            rcases hup with hup | ⟨-, hup⟩
            · rw [Std.compare_eq_lt, lt_iff_toNat_lt] at hup
              omega
            · cases x <;> cases hup
          · exact ⟨Std.LawfulEqCmp.compare_eq_iff_eq.mp heq, hle⟩
        · rintro ⟨rfl, hle⟩
          refine ⟨.inr ⟨hsl b, hle⟩, .inl ?_⟩
          rw [Std.compare_eq_lt, lt_iff_toNat_lt]
          omega

end Bytes
