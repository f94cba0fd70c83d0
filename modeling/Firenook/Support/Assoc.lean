import Mathlib.Data.List.Sort
import Mathlib.Tactic.Linarith

/-!
# Association lists in key order

An ordered map nested inside a recursive type is a list of bindings with strictly increasing keys
(`Sorted`). Lookup, insertion and removal are those of an ordered map, and the last two keep
the order (`sorted_insert`, `sorted_erase`).
-/

namespace Assoc

open List Std Option Ordering LawfulEqCmp OrientedCmp TransCmp

variable {κ ν : Type*} [Ord κ] {l : List (κ × ν)} {k : κ}

/-- Keys strictly increase. -/
def Sorted (l : List (κ × ν)) : Prop := l.Pairwise fun a b => compare a.1 b.1 = .lt

instance (l : List (κ × ν)) : Decidable (Sorted l) :=
  inferInstanceAs (Decidable (l.Pairwise fun a b => compare a.1 b.1 = .lt))

/-- The value bound to `k`. -/
def get (k : κ) : List (κ × ν) → Option ν
  | [] => none
  | (x, v) :: l => if compare k x = .eq then some v else get k l

/-- Binds `k` to `v`, replacing a value it was bound to. -/
def insert (k : κ) (v : ν) : List (κ × ν) → List (κ × ν)
  | [] => [(k, v)]
  | (x, w) :: l =>
    match compare k x with
    | .lt => (k, v) :: (x, w) :: l
    | .eq => (k, v) :: l
    | .gt => (x, w) :: insert k v l

/-- Unbinds `k`. -/
def erase (k : κ) : List (κ × ν) → List (κ × ν)
  | [] => []
  | (x, w) :: l => if compare k x = .eq then l else (x, w) :: erase k l

/-- Every binding after an insertion is the inserted one or was there before. -/
theorem mem_insert {v : ν} {b : κ × ν} (h : b ∈ insert k v l) : b = (k, v) ∨ b ∈ l := by
  induction l with
  | nil => exact .inl (mem_singleton.mp h)
  | cons a l ih =>
    unfold insert at h
    split at h
    · rcases mem_cons.mp h with rfl | h
      · exact .inl rfl
      · exact .inr h
    · rcases mem_cons.mp h with rfl | h
      · exact .inl rfl
      · exact .inr (mem_cons_of_mem _ h)
    · rcases mem_cons.mp h with rfl | h
      · exact .inr mem_cons_self
      · exact (ih h).imp id (mem_cons_of_mem _)

theorem mem_erase {b : κ × ν} (h : b ∈ erase k l) : b ∈ l := by
  induction l with
  | nil => exact h
  | cons a l ih =>
    unfold erase at h
    split at h
    · exact mem_cons_of_mem _ h
    · rcases mem_cons.mp h with rfl | h
      · exact mem_cons_self
      · exact mem_cons_of_mem _ (ih h)

theorem mem_of_get {v : ν} (h : get k l = some v) : ∃ x, (x, v) ∈ l ∧ compare k x = .eq := by
  induction l with
  | nil => cases h
  | cons a l ih =>
    obtain ⟨x, w⟩ := a
    unfold get at h
    split at h
    · next hk => cases h; exact ⟨x, mem_cons_self, hk⟩
    · obtain ⟨y, hy, hk⟩ := ih h
      exact ⟨y, mem_cons_of_mem _ hy, hk⟩

theorem Sorted.tail {a : κ × ν} (h : Sorted (a :: l)) : Sorted l :=
  (pairwise_cons.mp h).2

theorem Sorted.head {a b : κ × ν} (h : Sorted (a :: l)) (hb : b ∈ l) : compare a.1 b.1 = .lt :=
  (pairwise_cons.mp h).1 b hb

theorem sorted_erase (h : Sorted l) (k : κ) : Sorted (erase k l) := by
  induction l with
  | nil => exact h
  | cons a l ih =>
    unfold erase
    split
    · exact h.tail
    · exact pairwise_cons.mpr ⟨fun b hb => h.head (mem_erase hb), ih h.tail⟩

theorem sorted_insert [TransOrd κ] (h : Sorted l) (k : κ) (v : ν) : Sorted (insert k v l) := by
  induction l with
  | nil => exact pairwise_singleton _ _
  | cons a l ih =>
    unfold insert
    split
    · next hk =>
      refine pairwise_cons.mpr ⟨fun b hb => ?_, h⟩
      rcases mem_cons.mp hb with rfl | hb
      · exact hk
      · exact lt_trans hk (h.head hb)
    · next hk =>
      refine pairwise_cons.mpr ⟨fun b hb => ?_, h.tail⟩
      exact lt_of_eq_of_lt hk (h.head hb)
    · next hk =>
      refine pairwise_cons.mpr ⟨fun b hb => ?_, ih h.tail⟩
      rcases mem_insert hb with rfl | hb
      · exact lt_of_gt hk
      · exact h.head hb

/-- A key below every key of an ordered map is unbound. -/
theorem get_below [TransOrd κ] {a : κ × ν} (h : Sorted (a :: l))
    (hk : (compare k a.1).isLE) : get k l = none := by
  cases hg : get k l with
  | none => rfl
  | some v =>
    obtain ⟨x, hx, hkx⟩ := mem_of_get hg
    have hlt : compare k x = .lt := lt_of_isLE_of_lt hk (h.head hx)
    rw [hlt] at hkx
    cases hkx

/-- A binding above every key goes last. -/
theorem insert_above [OrientedOrd κ] (v : ν)
    (h : ∀ b ∈ l, compare b.1 k = .lt) : insert k v l = l ++ [(k, v)] := by
  induction l with
  | nil => rfl
  | cons a l ih =>
    obtain ⟨x, w⟩ := a
    have hk : compare k x = .gt := gt_of_lt (h (x, w) mem_cons_self)
    rw [insert, hk, ih fun b hb => h b (mem_cons_of_mem _ hb), cons_append]

/-- Inserting the bindings of an ordered map one by one rebuilds it. -/
theorem foldl_insert_of_sorted [OrientedOrd κ] {s t : List (κ × ν)} (h : Sorted (s ++ t)) :
    t.foldl (fun m b => insert b.1 b.2 m) s = s ++ t := by
  induction t generalizing s with
  | nil => simp
  | cons b t ih =>
    have hbel : ∀ a ∈ s, compare a.1 b.1 = .lt := fun a ha =>
      (pairwise_append.mp h).2.2 a ha b mem_cons_self
    rw [foldl_cons, insert_above b.2 hbel]
    have happ : s ++ b :: t = (s ++ [b]) ++ t := by simp
    rw [happ] at h ⊢
    exact ih h

/-! ### Lookup after a change -/

section Lookup

variable [LawfulEqOrd κ]

@[simp] theorem get_insert_self (k : κ) (v : ν) (l : List (κ × ν)) :
    get k (insert k v l) = some v := by
  induction l with
  | nil => simp [insert, get]
  | cons a l ih =>
    unfold insert
    split
    · simp [get]
    · simp [get]
    · next hk => simp [get, hk, ih]

theorem get_insert_of_ne {j : κ} (h : j ≠ k) (v : ν) (l : List (κ × ν)) :
    get j (insert k v l) = get j l := by
  have hne : compare j k ≠ .eq := fun he => h (eq_of_compare he)
  induction l with
  | nil => simp [insert, get, hne]
  | cons a l ih =>
    unfold insert
    split
    · rw [get, if_neg hne]
    · next hk =>
      obtain rfl := eq_of_compare hk
      rw [get, get, if_neg hne, if_neg hne]
    · rw [get, get, ih]

/-- What is found after an insertion: the new value, or what was there under another key. -/
theorem forall_get_insert {P : κ → ν → Prop} {v : ν} (hsl : P k v)
    (hoth : ∀ j w, j ≠ k → get j l = some w → P j w) :
    ∀ j w, get j (insert k v l) = some w → P j w := by
  intro j w hw
  by_cases hj : j = k
  · subst hj
    rw [get_insert_self] at hw
    exact some.inj hw ▸ hsl
  · rw [get_insert_of_ne hj] at hw
    exact hoth j w hj hw

theorem get_erase_of_ne {j : κ} (h : j ≠ k) (l : List (κ × ν)) : get j (erase k l) = get j l := by
  have hne : compare j k ≠ .eq := fun he => h (eq_of_compare he)
  induction l with
  | nil => rfl
  | cons a l ih =>
    unfold erase
    split
    · next hk =>
      obtain rfl := eq_of_compare hk
      rw [get, if_neg hne]
    · rw [get, get, ih]

end Lookup

theorem get_erase_self [TransOrd κ] (h : Sorted l) (k : κ) : get k (erase k l) = none := by
  induction l with
  | nil => rfl
  | cons a l ih =>
    unfold erase
    split
    · next hk => exact get_below h (isLE_of_eq_eq hk)
    · next hk => rw [get, if_neg hk, ih h.tail]

/-- Ordered maps that bind the same are the same. -/
theorem ext_get [TransOrd κ] [LawfulEqOrd κ] {l' : List (κ × ν)} (hl : Sorted l)
    (hl' : Sorted l') (h : ∀ k, get k l = get k l') : l = l' := by
  induction l generalizing l' with
  | nil =>
    cases l' with
    | nil => rfl
    | cons b l' => simpa [get] using h b.1
  | cons a l ih =>
    cases l' with
    | nil => simpa [get] using h a.1
    | cons b l' =>
      have hab := h a.1
      have hba := h b.1
      simp only [get, ReflCmp.compare_self, if_true] at hab hba
      -- the smaller of the two first keys would be unbound on the other side
      have hkey : a.1 = b.1 := by
        cases hcmp : compare a.1 b.1 with
        | eq => exact eq_of_compare hcmp
        | lt =>
          rw [hcmp, get_below hl' (isLE_of_eq_lt hcmp)] at hab
          cases hab
        | gt =>
          have hlt := lt_of_gt hcmp
          rw [hlt, if_neg (by decide), get_below hl (isLE_of_eq_lt hlt)] at hba
          cases hba
      rw [hkey, (ReflCmp.compare_self : compare b.1 b.1 = .eq), if_pos rfl] at hab
      have htl : l = l' := by
        refine ih hl.tail hl'.tail fun k => ?_
        by_cases hk : compare k a.1 = .eq
        · rw [get_below hl (isLE_of_eq_eq hk), get_below hl' (isLE_of_eq_eq (hkey ▸ hk))]
        · have hrs := h k
          rwa [get, get, if_neg hk, if_neg (hkey ▸ hk)] at hrs
      rw [htl, Prod.ext hkey (some.inj hab)]

/-! ### Totals -/

/-- The sum of a measure of the values. -/
def total (f : ν → Nat) (l : List (κ × ν)) : Nat := (l.map fun b => f b.2).sum

theorem total_insert_of_none (h : get k l = none) (f : ν → Nat) (v : ν) :
    total f (insert k v l) = f v + total f l := by
  induction l with
  | nil => rfl
  | cons a l ih =>
    rw [get] at h
    split at h
    · cases h
    next hk =>
    have ih := ih h
    unfold insert
    split
    · rfl
    · next he => exact absurd he hk
    · simp only [total, map_cons, sum_cons] at ih ⊢
      rw [ih]
      exact Nat.add_left_comm _ _ _

theorem total_insert_of_some [TransOrd κ] {w : ν} (hl : Sorted l)
    (h : get k l = some w) (f : ν → Nat) (v : ν) :
    total f (insert k v l) + f w = total f l + f v := by
  induction l with
  | nil => cases h
  | cons a l ih =>
    rw [get] at h
    unfold insert
    split
    · next hk =>
      -- a key below the first is unbound
      rw [if_neg (by rw [hk]; decide), get_below hl (isLE_of_eq_lt hk)] at h
      cases h
    · next hk =>
      rw [if_pos hk] at h
      obtain rfl := some.inj h
      simp only [total, map_cons, sum_cons]
      omega
    · next hk =>
      rw [if_neg (by rw [hk]; decide)] at h
      have ih := ih hl.tail h
      simp only [total, map_cons, sum_cons] at ih ⊢
      omega

theorem total_erase {w : ν} (h : get k l = some w) (f : ν → Nat) :
    total f (erase k l) + f w = total f l := by
  induction l with
  | nil => cases h
  | cons a l ih =>
    rw [get] at h
    unfold erase
    split
    · next hk =>
      rw [if_pos hk] at h
      obtain rfl := some.inj h
      simp only [total, map_cons, sum_cons]
      omega
    · next hk =>
      rw [if_neg hk] at h
      have ih := ih h
      simp only [total, map_cons, sum_cons] at ih ⊢
      omega

end Assoc
