import Mathlib.Algebra.Order.BigOperators.Group.Finset
import Firenook.Store.Transitions

/-!
# Retention — what the change log keeps for replay, against its byte limit

The log charges its limit for versions, and a version is a key and an update time. Two documents
one commit leaves under one key have the same version, and only the first is charged: a log can
keep more bytes than its limit (`window_overrun`).

Where versions tell the referenced documents apart, the charge is the size of the documents
(`ReplayVersions.Exact`), for every order of additions and evictions. They do in every run whose
commits name each document at most once (`State.Commits.versioned`), so there the log stays
within both limits (`replay_window`). Every run counts its references (`eviction_counted`).
-/

namespace Firenook

open ReplayVersions List Assoc

variable {key : DocumentKey} {log : List Change} {plan : CommitPlan} {doc : Option Document}
  {s' : State} {rev : Nat} {m : RetainedVersion} {changes : List Change} {time : Timestamp}
  {writes : List Write} {final : Documents}

/-! ### Referenced documents -/

abbrev Referenced := DocumentKey × Document

def Referenced.version (p : Referenced) : DocumentVersion := ReplayVersions.versionOf p.1 p.2

def Referenced.bytes (p : Referenced) : Nat := documentEntryLogicalBytes p.1 p.2

/-- The documents a change has before and after it. -/
def sides (change : Change) : List Referenced :=
  change.before.toList.map (Prod.mk change.key) ++ change.after.toList.map (Prod.mk change.key)

/-- The documents a log refers to, in log order, with repetitions. -/
def references (log : List Change) : List Referenced := log.flatMap sides

/-- The total size of the pairwise distinct documents of a list. -/
def distinctBytes (refs : List Referenced) : Nat := (refs.dedup.map Referenced.bytes).sum

theorem distinctBytes_eq_sum (refs : List Referenced) :
    distinctBytes refs = ∑ p ∈ refs.toFinset, p.bytes := by
  have hsm : refs.dedup.toFinset = refs.toFinset := by
    ext p
    rw [mem_toFinset, mem_toFinset, mem_dedup]
  rw [distinctBytes, ← sum_toFinset _ refs.nodup_dedup, hsm]

variable {p : Referenced} {all refs : List Referenced} {s : State}

theorem distinctBytes_cons_of_mem (h : p ∈ refs) :
    distinctBytes (p :: refs) = distinctBytes refs := by
  rw [distinctBytes, dedup_cons_of_mem h, distinctBytes]

theorem distinctBytes_cons_of_not_mem (h : p ∉ refs) :
    distinctBytes (p :: refs) = p.bytes + distinctBytes refs := by
  rw [distinctBytes, dedup_cons_of_notMem h, map_cons, sum_cons, distinctBytes]

theorem distinctBytes_concat (refs : List Referenced) (p : Referenced) :
    distinctBytes (refs ++ [p]) = distinctBytes (p :: refs) := by
  rw [distinctBytes_eq_sum, distinctBytes_eq_sum, toFinset_append, toFinset_cons,
    toFinset_cons, toFinset_nil, insert_empty_eq, Finset.union_comm, Finset.insert_eq]

theorem references_cons (change : Change) (log : List Change) :
    references (change :: log) = sides change ++ references log := rfl

theorem references_append (log later : List Change) :
    references (log ++ later) = references log ++ references later := flatMap_append

theorem length_references_le (log : List Change) : (references log).length ≤ 2 * log.length := by
  induction log with
  | nil => exact Nat.le_refl 0
  | cons change log ih =>
    have hsds : (sides change).length ≤ 2 := by
      rcases change with ⟨-, -, _ | _, _ | _⟩ <;> simp [sides]
    rw [references_cons, length_append, length_cons]
    omega

/-- The version of a document tells it from every other one of the list. -/
def Identified (refs : List Referenced) : Prop :=
  ∀ p ∈ refs, ∀ q ∈ refs, p.version = q.version → p = q

theorem Identified.mono (h : Identified all) (hsub : refs ⊆ all) : Identified refs :=
  fun p hp q hq => h p (hsub hp) q (hsub hq)

/-! ### The charge is the size -/

namespace ReplayVersions

section

variable {r : ReplayVersions}

theorem add_of_some (h : get p.version r.table = some m) :
    r.add p.1 (some p.2) = ⟨insert p.version ⟨saturatingAdd m.references 1, m.logicalBytes⟩ r.table,
        r.logicalBytes⟩ := by
  simp only [Referenced.version] at h
  simp [add, h, Referenced.version]

theorem add_of_none (h : get p.version r.table = none) : r.add p.1 (some p.2) =
      ⟨insert p.version ⟨1, p.bytes⟩ r.table, saturatingAdd r.logicalBytes p.bytes⟩ := by
  simp only [Referenced.version] at h
  simp [add, h, Referenced.version, Referenced.bytes]

theorem remove_of_more (h : get p.version r.table = some m) (hmr : m.references - 1 ≠ 0) :
    r.remove p.1 (some p.2) =
      ⟨insert p.version ⟨m.references - 1, m.logicalBytes⟩ r.table, r.logicalBytes⟩ := by
  simp only [Referenced.version] at h
  simp [remove, h, hmr, Referenced.version]

theorem remove_of_last (h : get p.version r.table = some m) (hlast : m.references - 1 = 0) :
    r.remove p.1 (some p.2) = ⟨erase p.version r.table, r.logicalBytes - m.logicalBytes⟩ := by
  simp only [Referenced.version] at h
  simp [remove, h, hlast, Referenced.version]

end

/-- The table has the versions of a list, each with the number of its occurrences. -/
structure Counts (r : ReplayVersions) (versions : List DocumentVersion) : Prop where
  sorted : Sorted r.table
  counted : ∀ v, (get v r.table).map RetainedVersion.references =
    if versions.count v = 0 then none else some (versions.count v)

namespace Counts

variable {r : ReplayVersions} {versions : List DocumentVersion} {v : DocumentVersion}

theorem empty : Counts empty [] := ⟨List.Pairwise.nil, fun _ => rfl⟩

theorem of_none (h : Counts r versions) (hget : get v r.table = none) : versions.count v = 0 := by
  simpa [hget] using h.counted v

theorem of_some (h : Counts r versions) (hget : get v r.table = some m) :
    1 ≤ m.references ∧ m.references = versions.count v := by
  have hcnt := h.counted v
  rw [hget] at hcnt
  split at hcnt
  · cases hcnt
  · have hcnt := Option.some.inj hcnt
    omega

/-- The table after binding one version anew, for a list that differs in it alone. -/
theorem insert (h : Counts r versions) {versions' : List DocumentVersion} {charge : Nat}
    (hpos : 1 ≤ m.references) (hcnt : m.references = versions'.count v)
    (hoth : ∀ w, w ≠ v → versions'.count w = versions.count w) :
    Counts ⟨insert v m r.table, charge⟩ versions' := by
  refine ⟨sorted_insert h.sorted _ _, fun w => ?_⟩
  by_cases hw : w = v
  · rw [hw, get_insert_self, ← hcnt, if_neg (by omega), Option.map_some]
  · rw [get_insert_of_ne hw, hoth w hw, h.counted w]

theorem add (h : Counts r versions) (hlen : versions.length < maxU64) :
    Counts (r.add p.1 (some p.2)) (versions ++ [p.version]) := by
  have hoth : ∀ w, w ≠ p.version → (versions ++ [p.version]).count w = versions.count w := by
    intro w hw
    have hzr : [p.version].count w = 0 := count_eq_zero.mpr (by simpa using hw)
    rw [count_append, hzr, Nat.add_zero]
  cases hget : get p.version r.table with
  | some m =>
    have hcnt := h.of_some hget
    have hle := count_le_length (a := p.version) (l := versions)
    have hsat : saturatingAdd m.references 1 = m.references + 1 := by
      rw [saturatingAdd]
      omega
    rw [add_of_some hget, hsat]
    exact h.insert (Nat.succ_pos _) (by simp [hcnt.2]) hoth
  | none =>
    rw [add_of_none hget]
    exact h.insert (Nat.le_refl 1) (by simp [h.of_none hget]) hoth

theorem remove (h : Counts r (p.version :: versions)) :
    Counts (r.remove p.1 (some p.2)) versions := by
  cases hget : get p.version r.table with
  | none => simpa using h.of_none hget
  | some m =>
    have hcnt := h.of_some hget
    rw [count_cons_self] at hcnt
    have hoth : ∀ w, w ≠ p.version → versions.count w = (p.version :: versions).count w :=
      fun w hw => (count_cons_of_ne hw.symm).symm
    by_cases hlast : m.references - 1 = 0
    · rw [remove_of_last hget hlast]
      refine ⟨sorted_erase h.sorted _, fun w => ?_⟩
      by_cases hw : w = p.version
      · rw [hw, get_erase_self h.sorted, if_pos (by omega), Option.map_none]
      · rw [get_erase_of_ne hw, hoth w hw, h.counted w]
    · rw [remove_of_more hget hlast]
      exact h.insert (by dsimp only; omega) (by dsimp only; omega) hoth

end Counts

/-- The table counts the referenced documents by version, and its charge is their size. -/
structure Exact (r : ReplayVersions) (refs : List Referenced) : Prop where
  sorted : Sorted r.table
  counted : ∀ v m, get v r.table = some m →
    1 ≤ m.references ∧ m.references = (refs.map Referenced.version).count v
  listed : ∀ p ∈ refs, ∃ m, get p.version r.table = some m ∧ m.logicalBytes = p.bytes
  charged : r.logicalBytes = distinctBytes refs

namespace Exact

variable {r : ReplayVersions} {refs : List Referenced}

theorem empty : Exact empty [] where
  sorted := List.Pairwise.nil
  counted := by
    intro v m h
    cases h
  listed := nofun
  charged := rfl

theorem counts (h : Exact r refs) : Counts r (refs.map Referenced.version) := by
  refine ⟨h.sorted, fun v => ?_⟩
  cases hget : get v r.table with
  | some m =>
    have hcnt := h.counted v m hget
    rw [if_neg (by omega), ← hcnt.2, Option.map_some]
  | none =>
    rw [if_pos, Option.map_none]
    refine count_eq_zero.mpr fun hv => ?_
    obtain ⟨p, hp, rfl⟩ := mem_map.mp hv
    obtain ⟨m, hm, -⟩ := h.listed p hp
    cases hget.symm.trans hm

/-- A version the table has is that of a referenced document. -/
theorem mem_of_get (h : Exact r refs) (hid : Identified (p :: refs))
    (hget : get p.version r.table = some m) : p ∈ refs := by
  obtain ⟨hpos, hcnt⟩ := h.counted _ _ hget
  rw [hcnt] at hpos
  obtain ⟨q, hq, hver⟩ := mem_map.mp (count_pos_iff.mp hpos)
  rwa [hid p mem_cons_self q (mem_cons_of_mem _ hq) hver.symm]

/-- The sizes after binding the version of `p` anew, for a list that differs in `p` alone. -/
theorem listed_insert (h : Exact r refs) {refs' : List Referenced}
    (hid : ∀ q ∈ refs', q.version = p.version → q = p) (hmem : ∀ q ∈ refs', q = p ∨ q ∈ refs)
    (hsz : m.logicalBytes = p.bytes) :
    ∀ q ∈ refs', ∃ m', get q.version (Assoc.insert p.version m r.table) = some m' ∧
      m'.logicalBytes = q.bytes := by
  intro q hq
  by_cases hv : q.version = p.version
  · obtain rfl := hid q hq hv
    exact ⟨m, get_insert_self .., hsz⟩
  rw [get_insert_of_ne hv]
  rcases hmem q hq with rfl | hq
  · exact absurd rfl hv
  · exact h.listed q hq

theorem add (h : Exact r refs) (hid : Identified (refs ++ [p])) (hlen : refs.length < maxU64)
    (hbyt : distinctBytes (refs ++ [p]) ≤ maxU64) :
    Exact (r.add p.1 (some p.2)) (refs ++ [p]) := by
  have hsm : ∀ q ∈ refs ++ [p], q.version = p.version → q = p :=
    fun q hq => hid q hq p (by simp)
  have hmem : ∀ q ∈ refs ++ [p], q = p ∨ q ∈ refs := by
    simp [or_comm]
  have hcn := h.counts.add (p := p) (by simpa using hlen)
  rw [← map_singleton, ← map_append] at hcn
  cases hget : get p.version r.table with
  | some m =>
    have hp := h.mem_of_get (hid.mono (by simp)) hget
    obtain ⟨m', hm', hsz⟩ := h.listed p hp
    rw [hget] at hm'
    obtain rfl := Option.some.inj hm'
    rw [add_of_some hget] at hcn ⊢
    refine ⟨hcn.sorted, fun _ _ => hcn.of_some, h.listed_insert hsm hmem hsz, ?_⟩
    rw [distinctBytes_concat, distinctBytes_cons_of_mem hp]
    exact h.charged
  | none =>
    have hp : p ∉ refs := by
      intro hp
      obtain ⟨m, hm, -⟩ := h.listed p hp
      rw [hget] at hm
      cases hm
    rw [add_of_none hget] at hcn ⊢
    refine ⟨hcn.sorted, fun _ _ => hcn.of_some, h.listed_insert hsm hmem rfl, ?_⟩
    rw [distinctBytes_concat, distinctBytes_cons_of_not_mem hp] at hbyt ⊢
    have hchd := h.charged
    simp only [saturatingAdd]
    omega

theorem remove (h : Exact r (p :: refs)) (hid : Identified (p :: refs)) :
    Exact (r.remove p.1 (some p.2)) refs := by
  obtain ⟨m, hget, hsz⟩ := h.listed p mem_cons_self
  obtain ⟨-, href⟩ := h.counted _ _ hget
  rw [map_cons, count_cons_self] at href
  have hsm : ∀ q ∈ refs, q.version = p.version → q = p :=
    fun q hq => hid q (mem_cons_of_mem _ hq) p mem_cons_self
  have hcn := h.counts.remove
  by_cases hp : p ∈ refs
  · have hmr := count_pos_iff.mpr (mem_map_of_mem (f := Referenced.version) hp)
    rw [remove_of_more hget (by omega)] at hcn ⊢
    refine ⟨hcn.sorted, fun _ _ => hcn.of_some,
      h.listed_insert hsm (fun q hq => .inr (mem_cons_of_mem _ hq)) hsz, ?_⟩
    rw [← distinctBytes_cons_of_mem hp]
    exact h.charged
  · have hlast : (refs.map Referenced.version).count p.version = 0 := by
      refine count_eq_zero.mpr fun hver => ?_
      obtain ⟨q, hq, hqp⟩ := mem_map.mp hver
      exact hp (hsm q hq hqp ▸ hq)
    rw [remove_of_last hget (by omega)] at hcn ⊢
    refine ⟨hcn.sorted, fun _ _ => hcn.of_some, fun q hq => ?_, ?_⟩
    · have hv : q.version ≠ p.version := fun hv => hp (hsm q hq hv ▸ hq)
      rw [get_erase_of_ne hv]
      exact h.listed q (mem_cons_of_mem _ hq)
    · have hchd := h.charged
      rw [distinctBytes_cons_of_not_mem hp] at hchd
      dsimp only
      omega

end Exact

end ReplayVersions

/-! ### Installing changes -/

/-- A relation of the table to the referenced documents that additions and removals keep, for the
lists that meet a condition. -/
structure Kept (P : ReplayVersions → List Referenced → Prop) (Q : List Referenced → Prop) :
    Prop where
  sub {refs all : List Referenced} : refs <+ all → Q all → Q refs
  add {r : ReplayVersions} {refs : List Referenced} {p : Referenced} :
    P r refs → Q (refs ++ [p]) → P (r.add p.1 (some p.2)) (refs ++ [p])
  remove {r : ReplayVersions} {refs : List Referenced} {p : Referenced} :
    P r (p :: refs) → Q (p :: refs) → P (r.remove p.1 (some p.2)) refs

theorem kept_counts : Kept (fun r refs => Counts r (refs.map Referenced.version))
    (fun refs => refs.length ≤ maxU64) where
  sub hsub h := hsub.length_le.trans h
  add {r refs p} h hlen := by
    rw [length_append, length_singleton] at hlen
    simpa using h.add (p := p) (by rwa [length_map])
  remove h _ := h.remove

/-- Versions tell the documents apart, and their figures do not reach the ends of the counters. -/
structure Measured (refs : List Referenced) : Prop where
  identified : Identified refs
  length : refs.length ≤ maxU64
  bytes : distinctBytes refs ≤ maxU64

theorem kept_exact : Kept Exact Measured where
  sub hsub h := ⟨h.identified.mono hsub.subset, hsub.length_le.trans h.length,
    (Finset.sum_le_sum_of_subset fun _ hp => mem_toFinset.mpr
      (hsub.subset (mem_toFinset.mp hp))).trans h.bytes⟩
  add h hq := by
    have hlen := hq.length
    rw [length_append, length_singleton] at hlen
    exact h.add hq.identified hlen hq.bytes
  remove h hq := h.remove hq.identified

namespace State

/-- Both limits of `push_change` are met. -/
structure Within (s : State) : Prop where
  entries : s.changeLog.length ≤ s.options.maxChangeLogEntries
  bytes : s.replayVersions.logicalBytes ≤ s.options.maxChangeLogLogicalBytes

theorem within_of_overLimit (log : List Change)
    (h : ¬s.overLimit log.length = true) : Within { s with changeLog := log } := by
  simp only [overLimit, Bool.or_eq_true, decide_eq_true_eq, not_or, not_lt] at h
  exact ⟨h.1, h.2⟩

/-- What trimming leaves is within the limits. -/
theorem trimChangeLog_within {s' : State} (h : s.trimChangeLog log = some s') : Within s' := by
  induction log generalizing s with
  | nil =>
    simp only [trimChangeLog] at h
    split at h
    · cases h
    · next hund =>
      obtain rfl := Option.some.inj h
      exact within_of_overLimit [] hund
  | cons removed rest ih =>
    simp only [trimChangeLog] at h
    split at h
    · exact ih h
    · next hund =>
      obtain rfl := Option.some.inj h
      exact within_of_overLimit (removed :: rest) hund

theorem foldlM_installChange_within {s' : State} (h : changes.foldlM installChange s = some s')
    (hs : Within s) : Within s' := by
  induction changes generalizing s with
  | nil => exact Option.some.inj h ▸ hs
  | cons change changes ih =>
    obtain ⟨mid, hmid, h⟩ := Option.bind_eq_some_iff.mp h
    exact ih h (trimChangeLog_within hmid)

/-- The changes do not reach the ends of the counters. -/
structure Countable (log : List Change) : Prop where
  changes : log.length < 2 ^ 63
  bytes : distinctBytes (references log) ≤ maxU64

theorem length_references_le_maxU64 (h : log.length < 2 ^ 63) :
    (references log).length ≤ maxU64 := by
  have hlen := length_references_le log
  rw [maxU64]
  omega

end State

namespace Kept

variable {P : ReplayVersions → List Referenced → Prop} {Q : List Referenced → Prop} (hk : Kept P Q)

include hk

/-- The referenced documents of an optional one. -/
theorem addOption {r : ReplayVersions} (h : P r refs)
    (hq : Q (refs ++ doc.toList.map (Prod.mk key))) :
    P (r.add key doc) (refs ++ doc.toList.map (Prod.mk key)) := by
  cases doc with
  | none => simpa [ReplayVersions.add] using h
  | some d => exact hk.add (p := (key, d)) h hq

theorem removeOption {r : ReplayVersions} (h : P r (doc.toList.map (Prod.mk key) ++ refs))
    (hq : Q (doc.toList.map (Prod.mk key) ++ refs)) : P (r.remove key doc) refs := by
  cases doc with
  | none => exact h
  | some d => exact hk.remove (p := (key, d)) h hq

theorem trimChangeLog (h : s.trimChangeLog log = some s') (hp : P s.replayVersions (references log))
    (hq : Q (references log)) : P s'.replayVersions (references s'.changeLog) := by
  induction log generalizing s with
  | nil =>
    simp only [State.trimChangeLog] at h
    split at h
    · cases h
    · exact Option.some.inj h ▸ hp
  | cons removed rest ih =>
    simp only [State.trimChangeLog] at h
    split at h
    · rw [references_cons, sides, append_assoc] at hp hq
      have hq' := hk.sub (sublist_append_right _ _) hq
      exact ih h (hk.removeOption (hk.removeOption hp hq) hq') (hk.sub (sublist_append_right _ _) hq')
    · exact Option.some.inj h ▸ hp

theorem installChange {change : Change} (h : s.installChange change = some s')
    (hp : P s.replayVersions (references s.changeLog))
    (hq : Q (references (s.changeLog ++ [change]))) :
    P s'.replayVersions (references s'.changeLog) := by
  refine hk.trimChangeLog h ?_ hq
  have hrf : references (s.changeLog ++ [change]) = references s.changeLog ++
      change.before.toList.map (Prod.mk change.key) ++
        change.after.toList.map (Prod.mk change.key) := by
    simp [references, sides]
  rw [hrf] at hq ⊢
  exact hk.addOption (hk.addOption hp (hk.sub (sublist_append_left _ _) hq)) hq

theorem foldlM_installChange (h : changes.foldlM State.installChange s = some s')
    (hp : P s.replayVersions (references s.changeLog))
    (hq : Q (references (s.changeLog ++ changes))) :
    P s'.replayVersions (references s'.changeLog) := by
  induction changes generalizing s with
  | nil => exact Option.some.inj h ▸ hp
  | cons change changes ih =>
    obtain ⟨mid, hmid, h⟩ := Option.bind_eq_some_iff.mp h
    obtain ⟨gone, hgn, -⟩ := (State.installChange_logged hmid).kept
    have hfst : s.changeLog ++ change :: changes = s.changeLog ++ [change] ++ changes := by
      rw [append_assoc, singleton_append]
    rw [hfst] at hq
    have hrs := hq
    rw [hgn, append_assoc, references_append gone] at hrs
    rw [references_append (s.changeLog ++ [change])] at hq
    exact ih h (hk.installChange hmid hp (hk.sub (sublist_append_left _ _) hq))
      (hk.sub (sublist_append_right _ _) hrs)

/-- **What an install keeps.** -/
theorem installMetadata {result : CommitPoint} (h : s.installMetadata result changes = some s')
    (hp : P s.replayVersions (references s.changeLog))
    (hq : Q (references (s.changeLog ++ changes))) :
    P s'.replayVersions (references s'.changeLog) := by
  obtain ⟨mid, hmid, h⟩ := Option.bind_eq_some_iff.mp h
  obtain rfl := Option.some.inj h
  have hkp := hk.foldlM_installChange hmid hp hq
  exact hkp

end Kept

/-! ### Commits that name each document once -/

theorem writeKey_round (w : Write) : writeKey w.round = writeKey w := by
  cases w <;> rfl

theorem map_writeKey_storedPrecision (writes : List Write) :
    (storedPrecision writes).map writeKey = writes.map writeKey := by
  simp [storedPrecision, writeKey_round]

/-! ### Runs -/

namespace State

/-- Successful, permitted commits of a store, from an empty one or from one opened from disk, with
the documents it holds. Both backends plan against what the writes name and then install; a disk
store keeps no documents in its state. -/
inductive Commits (permitted : State → Documents → Elapsed → List Write → Prop)
    (options : StoreOptions) : State → Documents → Prop
  | new : Commits permitted options (State.new options) ∅
  | opened (revision : Nat) (time : Timestamp) (stored : Documents) (usage : LogicalMemoryUsage)
      (hstored : ∀ (k : DocumentKey) d, stored[k]? = some d → (compare d.updateTime time).isLE) :
      Commits permitted options (fromPersisted options revision time ∅ usage) stored
  | commit {s s' : State} {documents : Documents} {now : Elapsed} {writes : List Write}
      {plan : CommitPlan} (run : Commits permitted options s documents)
      (ok : permitted s documents now writes)
      (hplan : s.planWithDocuments now (storedPrecision writes) documents = .ok plan)
      (h : s.install plan = some s' ∨ s.installDisk plan = some s') :
      Commits permitted options s' plan.documents

def AnyCommit (_ : State) (_ : Documents) (_ : Elapsed) (_ : List Write) : Prop := True

/-- The commit names each document at most once, before the clock's range is exhausted, and the log
with its changes does not reach the ends of the counters. -/
structure NamesOnce (s : State) (documents : Documents) (now : Elapsed) (writes : List Write) :
    Prop where
  inRange : ¬s.lastCommitTime.Exhausted
  once : (writes.map writeKey).Nodup
  countable : ∀ plan, s.planWithDocuments now (storedPrecision writes) documents = .ok plan →
    Countable (s.changeLog ++ plan.changes)

/-- The log with the commit's changes fits in memory: a deque has at most `isize::MAX` bytes. -/
def InMemory (s : State) (documents : Documents) (now : Elapsed) (writes : List Write) : Prop :=
  ∀ plan, s.planWithDocuments now (storedPrecision writes) documents = .ok plan →
    (s.changeLog ++ plan.changes).length < 2 ^ 63

/-- A document the log refers to or the store holds. -/
def Known (s : State) (documents : Documents) (p : Referenced) : Prop :=
  p ∈ references s.changeLog ∨ documents[p.1]? = some p.2

/-- Versions tell known documents apart, and none is newer than the last commit. -/
structure Versioned (s : State) (documents : Documents) : Prop where
  identified : ∀ p q, Known s documents p → Known s documents q → p.version = q.version → p = q
  dated : ∀ p, Known s documents p → (compare p.2.updateTime s.lastCommitTime).isLE

/-- A document of a commit's log is an old one, or one the commit leaves with its own time. -/
def KnownAfter (s : State) (documents final : Documents) (time : Timestamp) (p : Referenced) :
    Prop :=
  Known s documents p ∨ (final[p.1]? = some p.2 ∧ p.2.updateTime = time)

section

variable {s : State} {docs : Documents}

section

variable (h : Versioned s docs) (htime : compare s.lastCommitTime time = .lt)

include h htime

theorem Versioned.identifiedAfter {q : Referenced} (hp : KnownAfter s docs final time p)
    (hq : KnownAfter s docs final time q) (hv : p.version = q.version) : p = q := by
  obtain ⟨hkey, hupd⟩ := DocumentVersion.ext_iff.mp hv
  -- a document of the commit's own time is newer than every known one
  have hnew : ∀ x y : Referenced, Known s docs x → y.2.updateTime = time →
      x.2.updateTime ≠ y.2.updateTime := by
    intro x y hx hy hxy
    have hle := h.dated x hx
    rw [hxy, hy, Ordering.isLE_iff_ne_gt] at hle
    exact hle (Std.OrientedCmp.gt_of_lt htime)
  rcases hp with hp | ⟨hp, hpt⟩ <;> rcases hq with hq | ⟨hq, hqt⟩
  · exact h.identified p q hp hq hv
  · exact absurd hupd (hnew p q hp hqt)
  · exact absurd hupd.symm (hnew q p hq hpt)
  refine Prod.ext hkey ?_
  have hsm : p.1 = q.1 := hkey
  rw [← hsm, hp] at hq
  exact Option.some.inj hq

theorem Versioned.datedAfter (hp : KnownAfter s docs final time p) :
    (compare p.2.updateTime time).isLE := by
  rcases hp with hp | ⟨-, hp⟩
  · exact Std.TransCmp.isLE_trans (h.dated p hp) (Ordering.isLE_of_eq_lt htime)
  · rw [hp]
    exact Ordering.isLE_of_eq_eq Std.ReflCmp.compare_self

end

theorem knownAfter_of_reference (hnd : (writes.map writeKey).Nodup)
    (hpl : planWrites rev time docs writes = .ok (final, changes))
    (hp : p ∈ references (s.changeLog ++ changes)) : KnownAfter s docs final time p := by
  rw [references_append] at hp
  rcases mem_append.mp hp with hp | hp
  · exact .inl (.inl hp)
  obtain ⟨c, hc, hp⟩ := mem_flatMap.mp hp
  obtain ⟨-, hbef, haft⟩ := ((plans hpl).once hnd).2 c hc
  rcases mem_append.mp hp with hp | hp
  · obtain ⟨d, hd, rfl⟩ := mem_map.mp hp
    exact .inl (.inr (hbef ▸ Option.mem_toList.mp hd))
  obtain ⟨d, hd, rfl⟩ := mem_map.mp hp
  have hfin : final[c.key]? = some d := haft ▸ Option.mem_toList.mp hd
  rcases (plans hpl).updateTime _ _ hfin with hold | hnew
  · exact .inl (.inr hold)
  · exact .inr ⟨hfin, hnew⟩

end

namespace Commits

variable {permitted : State → Documents → Elapsed → List Write → Prop} {options : StoreOptions}
  {s : State} {docs : Documents}

/-- An install as one of metadata. -/
theorem install_cases (h : s.install plan = some s' ∨ s.installDisk plan = some s') :
    ∃ kept, { s with documents := kept }.installMetadata plan.result plan.changes = some s' :=
  h.elim (⟨_, ·⟩) (⟨_, ·⟩)

theorem options_eq (run : Commits permitted options s docs) : s.options = options.clamp := by
  induction run with
  | new | opened => rfl
  | commit run ok hpl h ih =>
    obtain ⟨kept, hins⟩ := install_cases h
    obtain ⟨mid, hlog, rfl⟩ := installMetadata_eq_some hins
    exact hlog.options.trans ih

/-- The log of every run is within what it charges. -/
theorem within (run : Commits permitted options s docs) : Within s := by
  induction run with
  | new | opened => exact ⟨Nat.zero_le _, Nat.zero_le _⟩
  | commit run ok hpl h ih =>
    obtain ⟨kept, hins⟩ := install_cases h
    obtain ⟨mid, hmid, hins⟩ := Option.bind_eq_some_iff.mp hins
    obtain ⟨hen, hbyt⟩ := foldlM_installChange_within hmid ⟨ih.entries, ih.bytes⟩
    exact Option.some.inj hins ▸ ⟨hen, hbyt⟩

/-- Versions identify the documents of a run whose commits name each document once. -/
theorem versioned (run : Commits NamesOnce options s docs) : Versioned s docs := by
  induction run with
  | new => exact ⟨by simp [Known, State.new, references], by simp [Known, State.new, references]⟩
  | opened rev time stored usage hstd =>
    have hkn : ∀ p, Known (fromPersisted options rev time ∅ usage) stored p →
        stored[p.1]? = some p.2 := fun p hp => hp.resolve_left fun h => by cases h
    refine ⟨fun p q hp hq hv => ?_, fun p hp => hstd p.1 p.2 (hkn p hp)⟩
    obtain ⟨hkey, -⟩ := DocumentVersion.ext_iff.mp hv
    have hsm : p.1 = q.1 := hkey
    have hstd := hkn p hp
    rw [hsm, hkn q hq] at hstd
    exact Prod.ext hsm (Option.some.inj hstd).symm
  | @commit s s' docs now writes plan run ok hpl h ih =>
    obtain ⟨kept, hins⟩ := install_cases h
    obtain ⟨mid, hlog, rfl⟩ := installMetadata_eq_some hins
    obtain ⟨hres, -, hwrs⟩ := planWithDocuments_eq_ok hpl
    have htime := lt_nextCommitTime ok.inRange now
    have hon : ((storedPrecision writes).map writeKey).Nodup := by
      rw [map_writeKey_storedPrecision]
      exact ok.once
    have haft : ∀ p, Known (mid.pushCommitPoint plan.result) plan.documents p →
        KnownAfter s docs plan.documents (s.nextCommitTime now) p := by
      rintro p (hp | hp)
      · obtain ⟨gone, hgn, -⟩ := hlog.kept
        refine knownAfter_of_reference hon hwrs ?_
        rw [hgn, references_append]
        exact mem_append_right _ hp
      · rcases (plans hwrs).updateTime _ _ hp with hold | hnew
        · exact .inl (.inr hold)
        · exact .inr ⟨hp, hnew⟩
    have hlast : (mid.pushCommitPoint plan.result).lastCommitTime = s.nextCommitTime now := by
      change mid.lastCommitTime = _
      rw [hlog.lastCommitTime, hres]
    refine ⟨fun p q hp hq => ih.identifiedAfter htime (haft p hp) (haft q hq), fun p hp => ?_⟩
    rw [hlast]
    exact ih.datedAfter htime (haft p hp)

/-- In such a run the charge is the size of the referenced documents. -/
theorem exact (run : Commits NamesOnce options s docs) :
    s.replayVersions.Exact (references s.changeLog) := by
  induction run with
  | new | opened => exact .empty
  | @commit s s' docs now writes plan run ok hpl h ih =>
    obtain ⟨kept, hins⟩ := install_cases h
    obtain ⟨-, -, hwrs⟩ := planWithDocuments_eq_ok hpl
    have hon : ((storedPrecision writes).map writeKey).Nodup := by
      rw [map_writeKey_storedPrecision]
      exact ok.once
    have hcnb := ok.countable plan hpl
    refine kept_exact.installMetadata hins ih ⟨fun p hp q hq => ?_,
      length_references_le_maxU64 hcnb.changes, hcnb.bytes⟩
    exact run.versioned.identifiedAfter (lt_nextCommitTime ok.inRange now)
      (knownAfter_of_reference hon hwrs hp) (knownAfter_of_reference hon hwrs hq)

/-- The table counts the versions of every run. -/
theorem counts (run : Commits InMemory options s docs) :
    Counts s.replayVersions ((references s.changeLog).map Referenced.version) := by
  induction run with
  | new | opened => exact .empty
  | commit run ok hpl h ih =>
    obtain ⟨kept, hins⟩ := install_cases h
    exact kept_counts.installMetadata hins ih (length_references_le_maxU64 (ok _ hpl))

theorem charged (run : Commits permitted options s docs) : s.Accounted := by
  induction run with
  | new => exact accounted_new options
  | opened => exact accounted_fromPersisted ..
  | @commit s s' docs now writes plan run ok hpl h ih =>
    obtain ⟨kept, hins⟩ := install_cases h
    have hkp : Accounted { s with documents := kept } := ⟨ih.limit, ih.accounts⟩
    obtain ⟨mid, hmid, hacc⟩ := installMetadata_returns hkp plan.result plan.changes
    obtain rfl := Option.some.inj (hins.symm.trans hmid)
    exact hacc

end Commits

end State

/-- **The eviction of the change log.** In every run nothing is charged for an empty log, and
pushing any change returns. The table counts the references of each version. -/
theorem eviction_counted (options : StoreOptions) :
    (∀ s docs, State.Commits State.AnyCommit options s docs →
      (s.changeLog = [] → s.replayVersions.logicalBytes = 0) ∧
        ∀ change, ∃ s', s.pushChange change = some s') ∧
    ∀ s docs, State.Commits State.InMemory options s docs →
      Counts s.replayVersions ((references s.changeLog).map Referenced.version) := by
  refine ⟨fun s docs run => ⟨fun hemp => ?_, fun change => ?_⟩, fun s docs run =>
    run.counts⟩
  · have hac := run.charged.accounts
    rw [hemp] at hac
    exact hac.bytes_of_nil
  · obtain ⟨s', hs', -⟩ := State.pushChange_returns run.charged change
    exact ⟨s', hs'⟩

/-- **The replay window.** In every run the log has at most its limit of changes. In every run
whose commits name each document at most once, the pairwise distinct documents it refers to take
at most its limit of bytes. -/
theorem replay_window (options : StoreOptions) :
    (∀ s docs, State.Commits State.AnyCommit options s docs →
      s.changeLog.length ≤ options.clamp.maxChangeLogEntries) ∧
    ∀ s docs, State.Commits State.NamesOnce options s docs →
      distinctBytes (references s.changeLog) ≤ options.clamp.maxChangeLogLogicalBytes := by
  refine ⟨fun s docs run => ?_, fun s docs run => ?_⟩
  · rw [← run.options_eq]
    exact run.within.entries
  · rw [← run.options_eq, ← run.exact.charged]
    exact run.within.bytes

def noteKey : DocumentKey :=
  ⟨exampleDatabase, ⟨ascii "c/n", rfl⟩, by decide⟩

/-- Sets the note to one field of that many bytes. -/
def setNote (size : Nat) : Write :=
  .set noteKey ⟨[(exampleField, .bytes (replicate size 0))], rfl⟩ [] .none

/-- The state after one commit to an empty store, if it succeeds. -/
def afterCommit (options : StoreOptions) (writes : List Write) : Option (CommitPlan × State) := do
  let plan ← ((State.new options).planWithDocuments firstReading (storedPrecision writes)
    ∅).toOption
  let s ← (State.new options).install plan
  pure (plan, s)

theorem afterCommit_eq_some {options : StoreOptions}
    (h : afterCommit options writes = some (plan, s)) :
    (State.new options).planWithDocuments firstReading (storedPrecision writes) ∅ = .ok plan ∧
      (State.new options).install plan = some s := by
  obtain ⟨plan', hpl, h⟩ := Option.bind_eq_some_iff.mp h
  obtain ⟨s', hins, h⟩ := Option.bind_eq_some_iff.mp h
  cases h
  exact ⟨Fallible.toOption_eq_some.mp hpl, hins⟩

/-- One commit of one note, within a limit of a hundred bytes. -/
theorem note_committed : ∃ plan s,
    (State.new ⟨10, 100⟩).planWithDocuments firstReading (storedPrecision [setNote 20]) ∅ = .ok plan ∧
      (State.new ⟨10, 100⟩).install plan = some s ∧ s.changeLog ≠ [] ∧
        State.Countable plan.changes := by
  have hrun : (afterCommit ⟨10, 100⟩ [setNote 20]).any (fun (plan, s) =>
      decide (s.changeLog ≠ [] ∧ plan.changes.length < 2 ^ 63 ∧
        distinctBytes (references plan.changes) ≤ maxU64)) = true := by
    decide +kernel
  obtain ⟨⟨plan, s⟩, haft, hfac⟩ := (Option.any_eq_true _ _).mp hrun
  obtain ⟨hlog, hlen, hbyt⟩ := of_decide_eq_true hfac
  obtain ⟨hpl, hins⟩ := afterCommit_eq_some haft
  exact ⟨plan, s, hpl, hins, hlog, hlen, hbyt⟩

theorem replay_window_note : ∃ s docs,
    State.Commits State.NamesOnce ⟨10, 100⟩ s docs ∧ s.changeLog ≠ [] ∧
      distinctBytes (references s.changeLog) ≤ 100 := by
  obtain ⟨plan, s, hpl, hins, hlog, hcnb⟩ := note_committed
  have hprm : State.NamesOnce (State.new ⟨10, 100⟩) ∅ firstReading [setNote 20] :=
    ⟨by decide, by decide, fun plan' hpl' => Except.ok.inj (hpl.symm.trans hpl') ▸ hcnb⟩
  have run := State.Commits.new.commit hprm hpl (.inl hins)
  exact ⟨s, plan.documents, run, hlog, (replay_window ⟨10, 100⟩).2 s plan.documents run⟩

theorem eviction_counted_note : ∃ s docs,
    State.Commits State.InMemory ⟨10, 100⟩ s docs ∧ s.changeLog ≠ [] ∧
      Counts s.replayVersions ((references s.changeLog).map Referenced.version) := by
  obtain ⟨plan, s, hpl, hins, hlog, hcnb⟩ := note_committed
  have hprm : State.InMemory (State.new ⟨10, 100⟩) ∅ firstReading [setNote 20] :=
    fun plan' hpl' => Except.ok.inj (hpl.symm.trans hpl') ▸ hcnb.changes
  have run := State.Commits.new.commit hprm hpl (.inl hins)
  exact ⟨s, plan.documents, run, hlog, (eviction_counted ⟨10, 100⟩).2 s plan.documents run⟩

/-- **A log over its byte limit**: one commit sets a note to one byte and then to a hundred, and
pays for the first alone. -/
theorem window_overrun : ∃ s docs, State.Commits State.AnyCommit ⟨10, 100⟩ s docs ∧
      100 < distinctBytes (references s.changeLog) := by
  have hrun : (afterCommit ⟨10, 100⟩ [setNote 1, setNote 100]).any (fun (_, s) =>
      decide (100 < distinctBytes (references s.changeLog))) = true := by
    decide +kernel
  obtain ⟨⟨plan, s⟩, haft, hfac⟩ := (Option.any_eq_true _ _).mp hrun
  obtain ⟨hpl, hins⟩ := afterCommit_eq_some haft
  exact ⟨s, plan.documents, State.Commits.new.commit trivial hpl (.inl hins),
    of_decide_eq_true hfac⟩

end Firenook
