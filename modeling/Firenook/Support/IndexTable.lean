import Mathlib.Data.List.Sort
import Mathlib.Tactic.Linarith

/-!
# Index tables — a table described by a relation

A table is *described* by a relation (`Describes`) when it holds exactly the entries the relation
names. Insertions and removals are followed on the relation, entry by entry and list by list
(`Describes.insertAll`, `Describes.eraseAll`), under the one condition an index needs: an inserted
entry must not carry another value in the relation, or that value would be lost.
-/

namespace IndexTable

open Std List

set_option linter.unusedSectionVars false

variable {κ ν : Type} [Ord κ] [TransOrd κ] [LawfulEqOrd κ]

/-- The table holds exactly the entries the relation names. -/
def Describes (table : ExtTreeMap κ ν) (holds : κ → ν → Prop) : Prop :=
  ∀ e v, table[e]? = some v ↔ holds e v

namespace Describes

variable {table : ExtTreeMap κ ν} {holds other : κ → ν → Prop}

section

variable (h : Describes table holds)

include h

theorem congr (hiff : ∀ e v, holds e v ↔ other e v) : Describes table other := by
  intro e v
  rw [h e v, hiff e v]

theorem insert {e : κ} {v : ν} (hsm : ∀ w, holds e w → w = v) :
    Describes (table.insert e v) fun x w => holds x w ∨ (x = e ∧ w = v) := by
  intro x w
  rw [ExtTreeMap.getElem?_insert]
  split
  · next hx =>
    obtain rfl := LawfulEqCmp.eq_of_compare hx
    rw [Option.some.injEq]
    refine ⟨?_, ?_⟩
    · intro hv
      exact .inr ⟨rfl, hv.symm⟩
    · rintro (hold | ⟨-, rfl⟩)
      · exact (hsm w hold).symm
      · rfl
  · next hx =>
    rw [h x w]
    refine ⟨.inl, ?_⟩
    rintro (hold | ⟨rfl, -⟩)
    · exact hold
    · exact absurd ReflCmp.compare_self hx

theorem erase (e : κ) : Describes (table.erase e) fun x w => holds x w ∧ x ≠ e := by
  intro x w
  rw [ExtTreeMap.getElem?_erase]
  split
  · next hx =>
    obtain rfl := LawfulEqCmp.eq_of_compare hx
    exact ⟨nofun, fun ⟨_, hne⟩ => absurd rfl hne⟩
  · next hx =>
    rw [h x w]
    refine ⟨fun hold => ⟨hold, ?_⟩, And.left⟩
    rintro rfl
    exact hx ReflCmp.compare_self

theorem eraseAll (entries : List (κ × ν)) : Describes (entries.foldl (fun t e => t.erase e.1) table)
      fun x w => holds x w ∧ ∀ e ∈ entries, x ≠ e.1 := by
  induction entries generalizing table holds with
  | nil => exact h.congr fun e v => by simp
  | cons e entries ih =>
    refine (ih (h.erase e.1)).congr fun x w => ?_
    simp [and_assoc]

/-- Inserting the entries of a list, none of which the relation gives another value. -/
theorem insertAll (entries : List (κ × ν)) (hsm : ∀ e ∈ entries, ∀ w, holds e.1 w → w = e.2)
    (hfun : ∀ e ∈ entries, ∀ e' ∈ entries, e.1 = e'.1 → e.2 = e'.2) :
    Describes (entries.foldl (fun t e => t.insert e.1 e.2) table)
      fun x w => holds x w ∨ (x, w) ∈ entries := by
  induction entries generalizing table holds with
  | nil => exact h.congr fun e v => by simp
  | cons e entries ih =>
    have hhd := h.insert (hsm e mem_cons_self)
    have htl := ih hhd (by
        rintro e' he' w (hold | ⟨heq, rfl⟩)
        · exact hsm e' (mem_cons_of_mem _ he') w hold
        · exact hfun e mem_cons_self e' (mem_cons_of_mem _ he') heq.symm)
      (fun a ha b hb => hfun a (mem_cons_of_mem _ ha) b (mem_cons_of_mem _ hb))
    refine htl.congr fun x w => ?_
    obtain ⟨y, u⟩ := e
    simp [or_assoc]

end

end Describes

end IndexTable
