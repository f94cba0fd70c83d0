import Mathlib.Data.List.Sort

/-!
# Group indexes — the keys of a map, grouped

An index files each live key under its group and holds no empty group (`Indexes`). The live keys
determine the index (`Indexes.unique`), so an index that follows the keys one by one
(`Indexes.update`) is the index of the keys it ends with, whichever way they were reached.
-/

namespace GroupIndex

open Std Option ExtTreeSet

set_option linter.unusedSectionVars false

variable {κ γ : Type} [Ord κ] [TransOrd κ] [Ord γ] [TransOrd γ]

/-- Each group's keys. -/
abbrev Index (γ κ : Type) [Ord γ] [Ord κ] :=
  ExtTreeMap γ (ExtTreeSet κ compare) compare

/-- The keys filed under a group. -/
def keysOf (index : Index γ κ) (g : γ) : ExtTreeSet κ compare := index[g]?.getD ∅

/-- Binds a group to its keys. A group left empty is removed. -/
def rebind (index : Index γ κ) (g : γ) (keys : ExtTreeSet κ compare) : Index γ κ :=
  if keys.isEmpty then index.erase g else index.insert g keys

/-- Files or removes a key. -/
def update (group : κ → γ) (index : Index γ κ) (k : κ) (present : Bool) : Index γ κ :=
  let keys := keysOf index (group k)
  rebind index (group k) (if present then keys.insert k else keys.erase k)

/-- The index files exactly the live keys, each under its group. -/
structure Indexes (group : κ → γ) (index : Index γ κ) (live : κ → Prop) : Prop where
  members : ∀ g k, k ∈ keysOf index g ↔ live k ∧ group k = g
  nonempty : ∀ (g : γ) (keys : ExtTreeSet κ compare), index[g]? = some keys → keys ≠ ∅

variable [LawfulEqOrd κ] [LawfulEqOrd γ] {group : κ → γ} {index : Index γ κ}

theorem getElem?_rebind_self (g : γ) (keys : ExtTreeSet κ compare) :
    (rebind index g keys)[g]? = if keys.isEmpty then none else some keys := by
  unfold rebind
  split <;> simp

theorem getElem?_rebind_of_ne {g g' : γ} (h : g ≠ g') (keys : ExtTreeSet κ compare) :
    (rebind index g keys)[g']? = index[g']? := by
  have hne : compare g g' ≠ .eq := fun he => h (LawfulEqCmp.eq_of_compare he)
  unfold rebind
  split
  · simp [ExtTreeMap.getElem?_erase, hne]
  · simp [ExtTreeMap.getElem?_insert, hne]

theorem ne_empty_of_rebind {g : γ} {keys keys' : ExtTreeSet κ compare}
    (h : (rebind index g keys)[g]? = some keys') : keys' ≠ ∅ := by
  rw [getElem?_rebind_self] at h
  split at h
  · cases h
  · rename_i hemp
    obtain rfl := some.inj h
    exact fun he => hemp (isEmpty_iff.mpr he)

theorem keysOf_rebind_self (g : γ) (keys : ExtTreeSet κ compare) :
    keysOf (rebind index g keys) g = keys := by
  rw [keysOf, getElem?_rebind_self]
  split
  · rename_i hemp
    exact (isEmpty_iff.mp hemp).symm
  · rfl

namespace Indexes

variable {live live' : κ → Prop}

theorem empty : Indexes group (∅ : Index γ κ) fun _ => False where
  members g k := by simp [keysOf]
  nonempty g keys h := by simp at h

theorem congr (h : Indexes group index live) (hiff : ∀ k, live k ↔ live' k) :
    Indexes group index live' where
  members g k := by rw [h.members, hiff]
  nonempty := h.nonempty

/-- Following one key. -/
theorem update {k : κ} {present : Bool} (h : Indexes group index live)
    (hsl : live' k ↔ present = true) (hoth : ∀ j, k ≠ j → (live' j ↔ live j)) :
    Indexes group (update group index k present) live' where
  members g j := by
    unfold GroupIndex.update
    by_cases hg : group k = g
    · subst hg
      rw [keysOf_rebind_self]
      by_cases hj : k = j
      · subst hj
        rw [hsl]
        cases present <;> simp
      · have hne : compare k j ≠ .eq := fun he => hj (LawfulEqCmp.eq_of_compare he)
        rw [hoth j hj, ← h.members]
        cases present <;> simp [mem_insert, mem_erase, hne]
    · rw [keysOf, getElem?_rebind_of_ne hg, ← keysOf, h.members]
      by_cases hj : k = j
      · subst hj
        simp [hg]
      · rw [hoth j hj]
  nonempty g keys hky := by
    unfold GroupIndex.update at hky
    by_cases hg : group k = g
    · subst hg
      exact ne_empty_of_rebind hky
    · rw [getElem?_rebind_of_ne hg] at hky
      exact h.nonempty g keys hky

/-- **The live keys determine the index.** -/
theorem unique {other : Index γ κ} (h : Indexes group index live)
    (h' : Indexes group other live) : index = other := by
  apply ExtTreeMap.ext_getElem?
  intro g
  have hky : keysOf index g = keysOf other g := by
    apply ext_mem
    intro k
    rw [h.members, h'.members]
  -- equal sets of keys are equal bindings, since neither index binds the empty set
  cases hi : index[g]? with
  | none =>
    cases ho : other[g]? with
    | none => rfl
    | some keys =>
      simp only [keysOf, hi, ho, getD_none, getD_some] at hky
      exact absurd hky.symm (h'.nonempty g keys ho)
  | some keys =>
    cases ho : other[g]? with
    | none =>
      simp only [keysOf, hi, ho, getD_none, getD_some] at hky
      exact absurd hky (h.nonempty g keys hi)
    | some keys' =>
      simp only [keysOf, hi, ho, getD_some] at hky
      rw [hky]

end Indexes

end GroupIndex
