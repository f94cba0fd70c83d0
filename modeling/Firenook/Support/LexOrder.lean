import Mathlib.Data.List.Sort
import Mathlib.Tactic.Linarith

/-!
# Lexicographic order — divergence and order codes

Strings over an ordered alphabet are compared symbol by symbol with a proper prefix first; the order
is `compare` on lists. A string `a` *diverges below* `b` (`Below a b`) when the two first differ at
a position both have, and `a` holds the smaller symbol there. Divergence is the part of `<` that
survives appending anything to either side (`Below.append`).

An encoding is an *order code* for a comparator (`OrderCode cmp e`) when equal values have one code
word and a smaller value's code word diverges below a greater one's. Order codes compose by
concatenation: **`OrderCode.compare_append`** compares two concatenations by their heads first, and
`OrderCode.compare_flatMap` compares two lists of code words as the lists. No code word is a proper
prefix of another (`OrderCode.prefix_free`), and a comparator that has an order code is a total
preorder (`OrderCode.transCmp`).
-/

namespace LexOrder

open Std List Ordering OrientedCmp LawfulEqCmp

set_option linter.unusedSectionVars false

variable {σ : Type} [Ord σ] [TransOrd σ] [LawfulEqOrd σ]

/-- A type ordered by two keys that determine its values. -/
theorem lawfulEqCmp_compareLex {α β γ : Type} [Ord β] [LawfulEqOrd β] [Ord γ] [LawfulEqOrd γ]
    {f : α → β} {g : α → γ} (ext : ∀ {a b}, f a = f b → g a = g b → a = b) :
    LawfulEqCmp (compareLex (compareOn f) (compareOn g)) where
  compare_self := ReflCmp.compare_self
  eq_of_compare h := by
    have h := then_eq_eq.mp h
    exact ext (eq_of_compare h.1) (eq_of_compare h.2)

/-! ### The order on strings -/

/-- A common prefix does not take part in the comparison. -/
@[simp] theorem compare_append_left (p s t : List σ) : compare (p ++ s) (p ++ t) = compare s t := by
  induction p with
  | nil => rfl
  | cons b p ih => simp [ih, ReflCmp.compare_self]

/-- A proper prefix is smaller. -/
theorem compare_append_right_lt {s t : List σ} (h : t ≠ []) : compare s (s ++ t) = .lt := by
  have key := compare_append_left s [] t
  rw [append_nil] at key
  rw [key]
  cases t with
  | nil => exact absurd rfl h
  | cons b t => rfl

/-! ### Divergence -/

/-- `a` and `b` first differ at a position both have, and `a` holds the smaller symbol there. -/
def Below (a b : List σ) : Prop :=
  ∃ p x y s t, a = p ++ x :: s ∧ b = p ++ y :: t ∧ compare x y = .lt

theorem Below.of_lt {x y : σ} (h : compare x y = .lt) (s t : List σ) : Below (x :: s) (y :: t) :=
  ⟨[], x, y, s, t, rfl, rfl, h⟩

/-- Divergence survives appending anything to either side. -/
theorem Below.append {a b : List σ} (h : Below a b) (c d : List σ) : Below (a ++ c) (b ++ d) := by
  obtain ⟨p, x, y, s, t, rfl, rfl, hxy⟩ := h
  exact ⟨p, x, y, s ++ c, t ++ d, by simp, by simp, hxy⟩

theorem Below.append_left {a b : List σ} (p : List σ) (h : Below a b) :
    Below (p ++ a) (p ++ b) := by
  obtain ⟨q, x, y, s, t, rfl, rfl, hxy⟩ := h
  exact ⟨p ++ q, x, y, s, t, by simp, by simp, hxy⟩

theorem Below.cons {a b : List σ} (x : σ) (h : Below a b) : Below (x :: a) (x :: b) :=
  h.append_left [x]

theorem Below.compare {a b : List σ} (h : Below a b) : compare a b = .lt := by
  obtain ⟨p, x, y, s, t, rfl, rfl, hxy⟩ := h
  rw [compare_append_left, List.compare_cons_cons, hxy]
  rfl

/-- A smaller string diverges below the greater one or is a proper prefix of it. -/
theorem below_or_prefix_of_lt {a b : List σ} (h : Ord.compare a b = .lt) :
    Below a b ∨ ∃ t, t ≠ [] ∧ b = a ++ t := by
  induction a generalizing b with
  | nil =>
    cases b with
    | nil => simp at h
    | cons y t => exact .inr ⟨y :: t, by simp, rfl⟩
  | cons x s ih =>
    cases b with
    | nil => simp at h
    | cons y t =>
      rw [List.compare_cons_cons, then_eq_lt] at h
      rcases h with h | ⟨h, hst⟩
      · exact .inl (.of_lt h s t)
      obtain rfl := eq_of_compare h
      rcases ih hst with hb | ⟨r, hr, rfl⟩
      · exact .inl (hb.cons x)
      · exact .inr ⟨r, hr, rfl⟩

/-- Strings of one length differ where both have a symbol. -/
theorem below_of_length_eq {a b : List σ} (hlen : a.length = b.length)
    (h : Ord.compare a b = .lt) : Below a b := by
  rcases below_or_prefix_of_lt h with hb | ⟨t, ht, rfl⟩
  · exact hb
  · have : t.length = 0 := by simpa using hlen
    exact absurd (eq_nil_of_length_eq_zero this) ht

/-- Cutting both strings to one length keeps their order, or makes them equal. -/
theorem compare_take {a b : List σ} (h : Ord.compare a b = .lt) (n : Nat) :
    Ord.compare (a.take n) (b.take n) = .lt ∨ a.take n = b.take n := by
  induction n generalizing a b with
  | zero => exact .inr rfl
  | succ n ih =>
    cases a with
    | nil =>
      cases b with
      | nil => simp at h
      | cons y t => exact .inl rfl
    | cons x s =>
      cases b with
      | nil => simp at h
      | cons y t =>
        rw [List.compare_cons_cons, then_eq_lt] at h
        rw [List.take_succ_cons, List.take_succ_cons, List.compare_cons_cons]
        rcases h with h | ⟨h, hst⟩
        · exact .inl (by rw [h]; rfl)
        · rcases ih hst with hlt | heq
          · exact .inl (by rw [h, hlt]; rfl)
          · exact .inr (by rw [eq_of_compare h, heq])

/-- A larger string that does not extend a string lies past all its extensions. -/
theorem below_of_lt_of_not_isPrefix {a x : List σ} (h : Ord.compare a x = .lt) (hx : ¬a <+: x) :
    Below a x := by
  rcases below_or_prefix_of_lt h with hbel | ⟨t, -, rfl⟩
  · exact hbel
  · exact absurd (prefix_append _ _) hx

/-- What lies between a string and one of its extensions extends it. -/
theorem prefix_of_between {a x y : List σ} (hax : (Ord.compare a x).isLE)
    (hxy : Ord.compare x y = .lt) (hay : a <+: y) : a <+: x := by
  by_contra hx
  obtain ⟨r, rfl⟩ := hay
  have hne : Ord.compare a x ≠ .eq := fun he =>
    hx (eq_of_compare he ▸ prefix_refl _)
  have hlt : Ord.compare a x = .lt := by
    cases hcmp : Ord.compare a x with
    | lt => rfl
    | eq => exact absurd hcmp hne
    | gt => simp [hcmp] at hax
  have hps := ((below_of_lt_of_not_isPrefix hlt hx).append r []).compare
  exact absurd (gt_of_lt hps) (by simp [hxy])

theorem isLE_of_isPrefix {a x : List σ} (h : a <+: x) : (Ord.compare a x).isLE := by
  obtain ⟨t, rfl⟩ := h
  by_cases ht : t = []
  · rw [ht, append_nil]
    exact isLE_of_eq_eq ReflCmp.compare_self
  · exact isLE_of_eq_lt (compare_append_right_lt ht)

/-- Neither of two diverging strings is a prefix of the other. -/
theorem Below.diverge {a b : List σ} (h : Below a b) : ¬ a <+: b ∧ ¬ b <+: a := by
  obtain ⟨p, x, y, s, t, rfl, rfl, hxy⟩ := h
  have hne : x ≠ y := fun e => by
    subst e
    have : Ord.compare x x = .eq := ReflCmp.compare_self
    rw [this] at hxy
    cases hxy
  refine ⟨?_, ?_⟩
  · rintro ⟨r, hr⟩
    rw [append_assoc] at hr
    exact hne (cons.inj (append_cancel_left hr)).1
  · rintro ⟨r, hr⟩
    rw [append_assoc] at hr
    exact hne (cons.inj (append_cancel_left hr)).1.symm

/-! ### Lists in order -/

/-- Lists in order are determined by their members. -/
theorem eq_of_pairwise_lt {α : Type} {f : α → σ} {xs ys : List α}
    (hxs : xs.Pairwise fun a b => compare (f a) (f b) = .lt)
    (hys : ys.Pairwise fun a b => compare (f a) (f b) = .lt) (hmem : ∀ x, x ∈ xs ↔ x ∈ ys) :
    xs = ys := by
  have : Irrefl fun a b => compare (f a) (f b) = .lt := ⟨fun a h => by simp at h⟩
  have : Antisymm fun a b => compare (f a) (f b) = .lt :=
    ⟨fun a b hab hba => absurd (gt_of_lt hab) (by simp [hba])⟩
  exact hxs.eq_of_mem_iff hys hmem

/-- Dropping up to a bound keeps what is past it. -/
theorem dropWhile_eq_filter {α : Type} {p : α → Bool} {l : List α}
    (hup : l.Pairwise fun x y => p x = true → p y = true) :
    l.dropWhile (fun x => !p x) = l.filter p := by
  induction l with
  | nil => rfl
  | cons x l ih =>
    obtain ⟨hx, hl⟩ := pairwise_cons.mp hup
    cases hp : p x with
    | false =>
      rw [dropWhile_cons_of_pos (by simp [hp]), filter_cons_of_neg (by simp [hp]), ih hl]
    | true =>
      rw [dropWhile_cons_of_neg (by simp [hp]), filter_cons_of_pos hp,
        filter_eq_self.mpr fun y hy => hx y hy hp]

/-- Taking up to the end of a scope keeps the scope. -/
theorem takeWhile_eq_filter {α : Type} {q : α → Bool} {l : List α}
    (hdw : l.Pairwise fun x y => q y = true → q x = true) :
    l.takeWhile q = l.filter q := by
  induction l with
  | nil => rfl
  | cons x l ih =>
    obtain ⟨hx, hl⟩ := pairwise_cons.mp hdw
    cases hq : q x with
    | true => rw [takeWhile_cons_of_pos hq, filter_cons_of_pos hq, ih hl]
    | false =>
      have hnn : l.filter q = [] := by
        refine filter_eq_nil_iff.mpr fun y hy hqy => ?_
        rw [hx y hy hqy] at hq
        cases hq
      rw [takeWhile_cons_of_neg (by simp [hq]), filter_cons_of_neg (by simp [hq]), hnn]

/-! ### Order codes -/

/-- `e` encodes the order `cmp`: equal values have one code word, and the code word of a smaller
value diverges below the code word of a greater one. -/
structure OrderCode {α : Type*} (cmp : α → α → Ordering) (e : α → List σ) : Prop where
  eq_of_eq : ∀ a b, cmp a b = .eq → e a = e b
  below_of_lt : ∀ a b, cmp a b = .lt → Below (e a) (e b)

namespace OrderCode

variable {α : Type*} {cmp : α → α → Ordering} {e : α → List σ}

section

variable [OrientedCmp cmp] (h : OrderCode cmp e)

include h

/-- **Concatenations compare head first.** Whatever follows two code words is compared only
when the values are equal. -/
theorem compare_append (a b : α) (s t : List σ) :
    compare (e a ++ s) (e b ++ t) = (cmp a b).then (compare s t) := by
  cases hc : cmp a b with
  | lt => exact ((h.below_of_lt a b hc).append s t).compare
  | eq =>
    rw [h.eq_of_eq a b hc, compare_append_left]
    rfl
  | gt =>
    have hba : cmp b a = .lt := lt_of_gt hc
    have key := ((h.below_of_lt b a hba).append t s).compare
    exact gt_of_lt key

theorem compare_encode (a b : α) : compare (e a) (e b) = cmp a b := by
  have key := h.compare_append a b [] []
  rw [append_nil, append_nil] at key
  rw [key]
  cases cmp a b <;> rfl

/-- Two lists of nonempty code words compare as the lists of values do. -/
theorem compare_flatMap (hne : ∀ a, e a ≠ []) (as bs : List α) :
    compare (as.flatMap e) (bs.flatMap e) = List.compareLex cmp as bs := by
  induction as generalizing bs with
  | nil =>
    cases bs with
    | nil => rfl
    | cons b bs =>
      have hb : e b ++ bs.flatMap e ≠ [] := by simp [hne b]
      exact compare_append_right_lt (s := []) hb
  | cons a as ih =>
    cases bs with
    | nil =>
      have ha : e a ++ as.flatMap e ≠ [] := by simp [hne a]
      exact gt_of_lt (compare_append_right_lt (s := []) ha)
    | cons b bs =>
      rw [List.flatMap_cons, List.flatMap_cons, h.compare_append, ih, List.compareLex_cons_cons]

/-- No code word is a proper prefix of another. -/
theorem prefix_free {a b : α} (hab : e a <+: e b) : e a = e b := by
  obtain ⟨rest, hrs⟩ := hab
  have key : (cmp a b).then (compare rest []) = .eq := by
    rw [← h.compare_append, hrs, append_nil]
    exact ReflCmp.compare_self
  exact h.eq_of_eq a b (then_eq_eq.mp key).1

/-- A comparator that has an order code is a total preorder. -/
theorem transCmp : TransCmp cmp where
  isLE_trans {a b c} := by
    rw [← h.compare_encode, ← h.compare_encode, ← h.compare_encode]
    exact TransCmp.isLE_trans

end

end OrderCode

end LexOrder
