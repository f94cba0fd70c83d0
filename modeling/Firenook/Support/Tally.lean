import Mathlib.Algebra.BigOperators.Group.List.Basic
import Mathlib.Tactic.Linarith
import Firenook.Support.ChangeLog

/-!
# Tallies — the sum of a measure over a map

A tally adds a measure of every entry of an ordered map. Writing one key changes it by the measure
of what the key held and of what it holds (`tally_put`).
-/

namespace Tally

open ChangeLog Std List ExtTreeMap

variable {κ ν : Type} [Ord κ] [TransOrd κ] [LawfulEqOrd κ]

def tally (f : κ → ν → Nat) (m : Map κ ν) : Nat := (m.toList.map fun e => f e.1 e.2).sum

/-- The measure of what a key holds. -/
def held (f : κ → ν → Nat) (k : κ) : Option ν → Nat
  | none => 0
  | some v => f k v

variable (f : κ → ν → Nat) (m : Map κ ν) (k : κ)

theorem nodup_toList : m.toList.Nodup :=
  distinct_keys_toList.imp fun {a b} hne (heq : a = b) =>
    hne (heq ▸ ReflCmp.compare_self)

theorem toList_insert_perm (v : ν) :
    List.Perm (m.insert k v).toList ((k, v) :: (m.erase k).toList) := by
  have hfrs : (k, v) ∉ (m.erase k).toList := by
    simp
  refine (perm_ext_iff_of_nodup (nodup_toList _)
    (nodup_cons.mpr ⟨hfrs, nodup_toList _⟩)).mpr fun ⟨j, w⟩ => ?_
  simp only [mem_cons, Prod.mk.injEq, ExtTreeMap.mem_toList_iff_getElem?_eq_some,
    ExtTreeMap.getElem?_insert, ExtTreeMap.getElem?_erase, LawfulEqCmp.compare_eq_iff_eq]
  by_cases hj : k = j
  · subst hj
    simp [eq_comm]
  · simp [hj, Ne.symm hj]

theorem tally_insert (v : ν) : tally f (m.insert k v) = f k v + tally f (m.erase k) := by
  rw [tally, ((toList_insert_perm m k v).map _).sum_eq, map_cons, sum_cons, tally]

theorem tally_erase : tally f (m.erase k) + held f k m[k]? = tally f m := by
  have hsm := put_getElem? m k
  cases hk : m[k]? with
  | none =>
    rw [hk, put] at hsm
    rw [hsm, held, Nat.add_zero]
  | some v =>
    have hins := tally_insert f m k v
    rw [hk, put] at hsm
    rw [hsm] at hins
    rw [hins, held, Nat.add_comm]

/-- **Writing one key** exchanges what it held for what it holds. -/
theorem tally_put (next : Option ν) :
    tally f (put m k next) + held f k m[k]? = tally f m + held f k next := by
  have hers := tally_erase f m k
  cases next with
  | none => exact hers.trans (Nat.add_zero _).symm
  | some v =>
    rw [put, tally_insert, Nat.add_assoc, hers, Nat.add_comm]
    rfl

theorem held_le_tally : held f k m[k]? ≤ tally f m :=
  tally_erase f m k ▸ Nat.le_add_left _ _

end Tally
