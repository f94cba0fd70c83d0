import Mathlib.Data.List.Sort

/-!
# Change logs — a map, and the changes that lead to it

A change records, under a revision, what a key held before and what it holds after. `redo` applies a
list of changes to a map in order, `undo` takes them back from the newest to the oldest. Taking
changes back forgets what the map holds at every key they name (`undo_put_of_mem`), so a log that
records the first write of every key it touches restores the old map whatever later writes it left
out.

A log is trimmed from its oldest end. While the floor bounds the revisions of the changes that were
dropped, the changes newer than any revision at or above the floor are all retained
(`newer_of_forall_le`).
-/

namespace ChangeLog

open List Std

structure Change (κ ν : Type) where
  revision : Nat
  key : κ
  before : Option ν
  after : Option ν
  deriving DecidableEq

abbrev Map (κ ν : Type) [Ord κ] := ExtTreeMap κ ν compare

variable {κ ν : Type} {log : List (Change κ ν)}

/-! ### Revisions -/

/-- The changes newer than a revision. -/
def newer (r : Nat) (log : List (Change κ ν)) : List (Change κ ν) :=
  log.filter fun c => r < c.revision

@[simp] theorem newer_nil (r : Nat) : newer r ([] : List (Change κ ν)) = [] := rfl

theorem newer_append (r : Nat) (s t : List (Change κ ν)) :
    newer r (s ++ t) = newer r s ++ newer r t := filter_append ..

theorem newer_of_forall_le {r : Nat} (h : ∀ c ∈ log, c.revision ≤ r) : newer r log = [] := by
  refine filter_eq_nil_iff.mpr fun c hc => ?_
  simpa using h c hc

/-! ### Applying and taking back -/

variable [Ord κ] [TransOrd κ]

/-- Inserts or removes. -/
def put (m : Map κ ν) (k : κ) : Option ν → Map κ ν
  | some v => m.insert k v
  | none => m.erase k

def redo (m : Map κ ν) (log : List (Change κ ν)) : Map κ ν :=
  log.foldl (fun m c => put m c.key c.after) m

/-- The map before the changes, taken back newest first. -/
def undo (m : Map κ ν) (log : List (Change κ ν)) : Map κ ν :=
  log.foldr (fun c m => put m c.key c.before) m

section

variable (m : Map κ ν)

include m

@[simp] theorem redo_nil : redo m [] = m := rfl

@[simp] theorem undo_nil : undo m [] = m := rfl

theorem undo_append (s t : List (Change κ ν)) : undo m (s ++ t) = undo (undo m t) s := foldr_append

end

/-! ### Writing one key -/

variable [LawfulEqOrd κ] {k : κ}

@[simp] theorem getElem?_put_self (m : Map κ ν) (k : κ) (v : Option ν) : (put m k v)[k]? = v := by
  cases v with
  | some v => simp [put]
  | none => simp [put]

theorem getElem?_put_of_ne (m : Map κ ν) {j : κ} (h : k ≠ j) (v : Option ν) :
    (put m k v)[j]? = m[j]? := by
  have hne : compare k j ≠ .eq := fun he => h (LawfulEqCmp.eq_of_compare he)
  cases v with
  | some v => simp [put, ExtTreeMap.getElem?_insert, hne]
  | none => simp [put, ExtTreeMap.getElem?_erase, hne]

/-- Two maps that agree outside a key become one when the key is written in both. -/
theorem put_congr {m m' : Map κ ν} (v : Option ν) (h : ∀ j, k ≠ j → m[j]? = m'[j]?) :
    put m k v = put m' k v := by
  apply ExtTreeMap.ext_getElem?
  intro j
  by_cases hj : k = j
  · subst hj
    rw [getElem?_put_self, getElem?_put_self]
  · rw [getElem?_put_of_ne _ hj, getElem?_put_of_ne _ hj, h j hj]

@[simp] theorem put_put (m : Map κ ν) (k : κ) (v w : Option ν) : put (put m k v) k w = put m k w :=
  put_congr w fun _ hj => getElem?_put_of_ne m hj v

@[simp] theorem put_getElem? (m : Map κ ν) (k : κ) : put m k m[k]? = m := by
  apply ExtTreeMap.ext_getElem?
  intro j
  by_cases hj : k = j
  · subst hj
    exact getElem?_put_self m k _
  · exact getElem?_put_of_ne m hj _

theorem put_comm (m : Map κ ν) {j : κ} (h : j ≠ k) (v w : Option ν) :
    put (put m j v) k w = put (put m k w) j v := by
  apply ExtTreeMap.ext_getElem?
  intro i
  by_cases hj : j = i
  · subst hj
    rw [getElem?_put_of_ne _ (Ne.symm h), getElem?_put_self, getElem?_put_self]
  by_cases hk : k = i
  · subst hk
    rw [getElem?_put_self, getElem?_put_of_ne _ h, getElem?_put_self]
  · rw [getElem?_put_of_ne _ hk, getElem?_put_of_ne _ hj, getElem?_put_of_ne _ hj,
      getElem?_put_of_ne _ hk]

/-! ### What a log restores -/

theorem getElem?_undo_of_notMem (m : Map κ ν) :
    ∀ {log : List (Change κ ν)}, k ∉ log.map Change.key → (undo m log)[k]? = m[k]?
  | [], _ => rfl
  | c :: log, h => by
    simp only [map_cons, mem_cons, not_or] at h
    exact (getElem?_put_of_ne _ (Ne.symm h.1) _).trans (getElem?_undo_of_notMem m h.2)

theorem getElem?_redo_of_notMem :
    ∀ {log : List (Change κ ν)} (m : Map κ ν), k ∉ log.map Change.key → (redo m log)[k]? = m[k]?
  | [], _, _ => rfl
  | c :: log, m, h => by
    simp only [map_cons, mem_cons, not_or] at h
    exact (getElem?_redo_of_notMem _ h.2).trans (getElem?_put_of_ne _ (Ne.symm h.1) _)

/-- What the map holds at a key of the log is forgotten. -/
theorem undo_put_of_mem (m : Map κ ν) (v : Option ν) :
    ∀ {log : List (Change κ ν)}, k ∈ log.map Change.key → undo (put m k v) log = undo m log
  | c :: log, h => by
    by_cases hlog : k ∈ log.map Change.key
    · exact congrArg (put · c.key c.before) (undo_put_of_mem m v hlog)
    have hk : c.key = k := by
      simp only [map_cons, mem_cons] at h
      exact (h.resolve_right hlog).symm
    -- the oldest change is the only one of this key: the rest leaves the written value in place
    have hcm : ∀ {log : List (Change κ ν)}, k ∉ log.map Change.key →
        undo (put m k v) log = put (undo m log) k v := by
      intro log hn
      induction log with
      | nil => rfl
      | cons d log ih =>
        simp only [map_cons, mem_cons, not_or] at hn
        change put (undo (put m k v) log) d.key d.before = _
        rw [ih hn.2, put_comm _ hn.1]
        rfl
    change put (undo (put m k v) log) c.key c.before = put (undo m log) c.key c.before
    rw [hcm hlog, hk, put_put]

/-! ### A log as an overlay -/

/-- What the keys of a log held before it. -/
def overlay (log : List (Change κ ν)) : Map κ (Option ν) :=
  log.foldr (fun c o => o.insert c.key c.before) ∅

/-- Reading through the overlay is reading the map the log is taken back from. -/
theorem getElem?_undo (m : Map κ ν) (k : κ) :
    ∀ log : List (Change κ ν), (undo m log)[k]? = (overlay log)[k]?.getD m[k]?
  | [] => by simp [overlay]
  | c :: log => by
    have ih := getElem?_undo m k log
    by_cases hk : c.key = k
    · subst hk
      exact (getElem?_put_self _ _ _).trans (by simp [overlay])
    have hne : compare c.key k ≠ .eq := fun he => hk (LawfulEqCmp.eq_of_compare he)
    have hsm : (overlay (c :: log))[k]? = (overlay log)[k]? := by
      rw [overlay, foldr_cons, ExtTreeMap.getElem?_insert, if_neg hne]
      rfl
    rw [hsm, ← ih]
    exact getElem?_put_of_ne _ hk _

theorem overlay_eq_none (k : κ) :
    ∀ log : List (Change κ ν), (overlay log)[k]? = none → k ∉ log.map Change.key
  | [], _ => not_mem_nil
  | c :: log, h => by
    rw [overlay, foldr_cons, ExtTreeMap.getElem?_insert] at h
    split at h
    · cases h
    next hne =>
    rw [map_cons, mem_cons, not_or]
    refine ⟨?_, overlay_eq_none k log h⟩
    rintro rfl
    exact hne ReflCmp.compare_self

/-- Taking a log back does not look at what the map holds at its keys. -/
theorem undo_congr {m m' : Map κ ν}
    (h : ∀ k, k ∉ log.map Change.key → m[k]? = m'[k]?) : undo m log = undo m' log := by
  apply ExtTreeMap.ext_getElem?
  intro k
  rw [getElem?_undo, getElem?_undo]
  cases ho : (overlay log)[k]? with
  | some before => rfl
  | none => exact h k (overlay_eq_none k log ho)

/-- A log that leads back from some map leads back from its own result. -/
theorem undo_redo {m final : Map κ ν} (h : undo final log = m) : undo (redo m log) log = m := by
  refine (undo_congr fun k hk => ?_).trans h
  rw [getElem?_redo_of_notMem m hk, ← h, getElem?_undo_of_notMem final hk]

/-- What the map holds after a log, it held before or the log wrote. -/
theorem getElem?_redo_eq_some {v : ν} :
    ∀ {log : List (Change κ ν)} {m : Map κ ν}, (redo m log)[k]? = some v →
      m[k]? = some v ∨ ∃ c ∈ log, c.after = some v
  | [], _, h => .inl h
  | c :: log, m, h => by
    have hrs : (redo (put m c.key c.after) log)[k]? = some v := h
    rcases getElem?_redo_eq_some hrs with hput | ⟨d, hd, hv⟩
    · by_cases hk : c.key = k
      · subst hk
        exact .inr ⟨c, mem_cons_self, (getElem?_put_self _ _ _).symm.trans hput⟩
      · exact .inl ((getElem?_put_of_ne _ hk _).symm.trans hput)
    · exact .inr ⟨d, mem_cons_of_mem _ hd, hv⟩

end ChangeLog
