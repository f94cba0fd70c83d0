import Firenook.Store.Write

/-!
# Usage — logical bytes, and the versions the change log retains

Logical bytes count the user's key and value bytes and fixed widths for scalars. Every sum
saturates at the largest 64-bit value.

The change log pays for each document version it names once, however many changes name it: a
table counts the references of each version (`ReplayVersions`). `ReplayVersions.Accounts` relates
the table to the versions the log names. A log that names no version has an empty table and pays
for nothing (`Accounts.bytes_of_nil`), whether or not a count has ever saturated.
-/

namespace Firenook

open Option Assoc List Std

/-! ### Logical bytes -/

def maxU64 : Nat := 2 ^ 64 - 1

/-- `u64::saturating_add`. -/
def saturatingAdd (a b : Nat) : Nat := min (a + b) maxU64

mutual

def valueLogicalBytes : Value → Nat
  | .null => 0
  | .boolean _ => 1
  | .integer _ => 8
  | .double _ => 8
  | .timestamp _ => 12
  | .string value => value.bytes.length
  | .reference value => value.bytes.length
  | .bytes value => value.length
  | .geoPoint _ _ => 16
  | .array values => listLogicalBytes 0 values
  | .map fields => entriesLogicalBytes 0 fields
  | .vector values => min (values.length * 8) maxU64

def listLogicalBytes (total : Nat) : List Value → Nat
  | [] => total
  | v :: vs => listLogicalBytes (saturatingAdd total (valueLogicalBytes v)) vs

def entriesLogicalBytes (total : Nat) : List (Str × Value) → Nat
  | [] => total
  | (k, v) :: fs =>
    entriesLogicalBytes
      (saturatingAdd (saturatingAdd total k.bytes.length) (valueLogicalBytes v)) fs

end

def fieldsLogicalBytes (fields : Fields) : Nat := entriesLogicalBytes 0 fields.entries

def databaseNameLogicalBytes (database : DatabaseName) : Nat :=
  saturatingAdd database.projectId.bytes.length database.databaseId.bytes.length

def documentKeyLogicalBytes (key : DocumentKey) : Nat :=
  saturatingAdd (databaseNameLogicalBytes key.database) key.path.bytes.length

def documentLogicalBytes (document : Document) : Nat :=
  saturatingAdd (fieldsLogicalBytes document.fields) 24

def documentEntryLogicalBytes (key : DocumentKey) (document : Document) : Nat :=
  saturatingAdd (documentKeyLogicalBytes key) (documentLogicalBytes document)

def changeMetadataLogicalBytes (change : Change) : Nat :=
  saturatingAdd (documentKeyLogicalBytes change.key) 10

/-- A logical-size measurement. -/
@[ext] structure LogicalMemoryUsage where
  entries : Nat
  logicalBytes : Nat
  deriving DecidableEq

namespace LogicalMemoryUsage

def zero : LogicalMemoryUsage := ⟨0, 0⟩

def addEntry (usage : LogicalMemoryUsage) (key : DocumentKey) :
    Option Document → LogicalMemoryUsage
  | none => usage
  | some d => ⟨saturatingAdd usage.entries 1,
      saturatingAdd usage.logicalBytes (documentEntryLogicalBytes key d)⟩

def subEntry (usage : LogicalMemoryUsage) (key : DocumentKey) :
    Option Document → LogicalMemoryUsage
  | none => usage
  | some d => ⟨usage.entries - 1, usage.logicalBytes - documentEntryLogicalBytes key d⟩

end LogicalMemoryUsage

def applyDocumentTransition (usage : LogicalMemoryUsage) (change : Change) : LogicalMemoryUsage :=
  (usage.subEntry change.key change.before).addEntry change.key change.after

def applyReverseDocumentTransition (usage : LogicalMemoryUsage) (change : Change) :
    LogicalMemoryUsage :=
  (usage.subEntry change.key change.after).addEntry change.key change.before

/-! ### Versions retained for replay -/

@[ext] structure DocumentVersion where
  key : DocumentKey
  updateTime : Timestamp
  deriving DecidableEq

instance : Ord DocumentVersion :=
  ⟨compareLex (compareOn DocumentVersion.key) (compareOn DocumentVersion.updateTime)⟩

instance : TransOrd DocumentVersion :=
  inferInstanceAs (TransCmp
    (compareLex (compareOn DocumentVersion.key) (compareOn DocumentVersion.updateTime)))

instance : LawfulEqOrd DocumentVersion := LexOrder.lawfulEqCmp_compareLex DocumentVersion.ext

structure RetainedVersion where
  references : Nat
  logicalBytes : Nat
  deriving DecidableEq

/-- The reference table and what it charges. -/
structure ReplayVersions where
  table : List (DocumentVersion × RetainedVersion)
  logicalBytes : Nat
  deriving DecidableEq

namespace ReplayVersions

def empty : ReplayVersions := ⟨[], 0⟩

def versionOf (key : DocumentKey) (document : Document) : DocumentVersion :=
  ⟨key, document.updateTime⟩

/-- `add_replay_version`. -/
def add (r : ReplayVersions) (key : DocumentKey) : Option Document → ReplayVersions
  | none => r
  | some d =>
    let version := versionOf key d
    match get version r.table with
    | some retained =>
      let retained := { retained with references := saturatingAdd retained.references 1 }
      { r with table := insert version retained r.table }
    | none =>
      let bytes := documentEntryLogicalBytes key d
      { table := insert version ⟨1, bytes⟩ r.table,
        logicalBytes := saturatingAdd r.logicalBytes bytes }

/-- `remove_replay_version`. -/
def remove (r : ReplayVersions) (key : DocumentKey) : Option Document → ReplayVersions
  | none => r
  | some d =>
    let version := versionOf key d
    match get version r.table with
    | none => r
    | some retained =>
      let retained := { retained with references := retained.references - 1 }
      if retained.references = 0 then
        { table := erase version r.table,
          logicalBytes := r.logicalBytes - retained.logicalBytes }
      else { r with table := insert version retained r.table }

def named (change : Change) : List DocumentVersion :=
  (change.before.map (versionOf change.key)).toList ++
    (change.after.map (versionOf change.key)).toList

/-- The table's counts and charge against the versions the log names, in log order. -/
structure Accounts (r : ReplayVersions) (occurrences : List DocumentVersion) : Prop where
  sorted : Sorted r.table
  counted : ∀ v m, get v r.table = some m →
    1 ≤ m.references ∧ m.references ≤ occurrences.count v
  charged : r.logicalBytes ≤ total RetainedVersion.logicalBytes r.table

namespace Accounts

variable {r : ReplayVersions} {occurrences : List DocumentVersion}

theorem empty : Accounts empty [] where
  sorted := List.Pairwise.nil
  counted := by
    intro v m h
    cases h
  charged := Nat.le_refl 0

/-- Without occurrences there is nothing to pay for. -/
theorem bytes_of_nil (h : Accounts r []) : r.logicalBytes = 0 := by
  have htab : r.table = [] := by
    cases ht : r.table with
    | nil => rfl
    | cons a l =>
      obtain ⟨v, m⟩ := a
      have hget : Assoc.get v r.table = some m := by
        rw [ht, Assoc.get, if_pos ReflCmp.compare_self]
      have hcnt := h.counted v m hget
      rw [count_nil] at hcnt
      omega
  have hchd := h.charged
  rw [htab] at hchd
  exact Nat.le_zero.mp hchd

theorem add (h : Accounts r occurrences) (key : DocumentKey) (doc : Option Document) :
    Accounts (r.add key doc) (occurrences ++ (doc.map (versionOf key)).toList) := by
  cases doc with
  | none => simpa [ReplayVersions.add] using h
  | some d =>
    simp only [ReplayVersions.add, map_some, toList_some]
    split
    · next retained hget =>
      refine ⟨sorted_insert h.sorted _ _, ?_, ?_⟩
      · refine forall_get_insert ?_ fun v m _ hm => ?_
        · have hcnt := h.counted _ _ hget
          simp only [count_append, count_singleton_self, saturatingAdd, maxU64]
          omega
        · have hcnt := h.counted v m hm
          rw [count_append]
          omega
      · have htot := total_insert_of_some h.sorted hget RetainedVersion.logicalBytes
          { retained with references := saturatingAdd retained.references 1 }
        have hchd := h.charged
        dsimp only at htot ⊢
        omega
    · next hget =>
      refine ⟨sorted_insert h.sorted _ _, ?_, ?_⟩
      · refine forall_get_insert (by simp) fun v m _ hm => ?_
        have hcnt := h.counted v m hm
        rw [count_append]
        omega
      · have htot := total_insert_of_none hget RetainedVersion.logicalBytes
          ⟨1, documentEntryLogicalBytes key d⟩
        have hchd := h.charged
        simp only [saturatingAdd] at htot ⊢
        omega

theorem remove {key : DocumentKey} {doc : Option Document}
    (h : Accounts r ((doc.map (versionOf key)).toList ++ occurrences)) :
    Accounts (r.remove key doc) occurrences := by
  cases doc with
  | none => exact h
  | some d =>
    simp only [map_some, toList_some, singleton_append] at h
    simp only [ReplayVersions.remove]
    split
    · next hget =>
      refine ⟨h.sorted, ?_, h.charged⟩
      intro v m hm
      have hcnt := h.counted v m hm
      have hv : versionOf key d ≠ v := by
        rintro rfl
        rw [hget] at hm
        cases hm
      rwa [count_cons_of_ne hv] at hcnt
    · next retained hget =>
      have hcnt := h.counted _ _ hget
      rw [count_cons_self] at hcnt
      have hoth : ∀ v m, v ≠ versionOf key d → get v r.table = some m →
          1 ≤ m.references ∧ m.references ≤ occurrences.count v := by
        intro v m hv hm
        have hcnt := h.counted v m hm
        rwa [count_cons_of_ne (Ne.symm hv)] at hcnt
      split
      · refine ⟨sorted_erase h.sorted _, ?_, ?_⟩
        · intro v m hm
          by_cases hv : v = versionOf key d
          · subst hv
            rw [get_erase_self h.sorted] at hm
            cases hm
          · rw [get_erase_of_ne hv] at hm
            exact hoth v m hv hm
        · have htot := total_erase hget RetainedVersion.logicalBytes
          have hchd := h.charged
          dsimp only
          omega
      · next hmr =>
        refine ⟨sorted_insert h.sorted _ _, ?_, ?_⟩
        · exact forall_get_insert (by dsimp only; omega) hoth
        have htot := total_insert_of_some h.sorted hget RetainedVersion.logicalBytes
          { retained with references := retained.references - 1 }
        have hchd := h.charged
        dsimp only at htot ⊢
        omega

end Accounts

end ReplayVersions

end Firenook
