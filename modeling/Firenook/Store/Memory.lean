import Firenook.Store.History

/-!
# Memory — runs of the memory backend

A run is a sequence of successful commits from the empty store; a refused commit leaves the state
as it was (`commit_refused`) and adds nothing. The steps of a run may be restricted to those a
predicate permits.

Two restrictions matter. A run without silent writes keeps a two-way delta (`Run.delta`). A run
in which no commit is made with the clock's range exhausted has increasing commit times
(`Run.increasing`); there every log restores the past, silent writes or not (`Run.undoes`).
-/

namespace Firenook

open List Option Std Ordering ChangeLog GroupIndex

variable {now : Elapsed} {writes : List Write} {result : CommitPoint} {s : State}

/-! ### The clock's range -/

namespace Timestamp

/-- There is no later microsecond. -/
def Exhausted (t : Timestamp) : Prop := t.seconds.toInt = 2 ^ 63 - 1 ∧ 999999 ≤ t.nanos.toNat / 1000

instance (t : Timestamp) : Decidable t.Exhausted :=
  inferInstanceAs (Decidable (_ ∧ _))

theorem compare_def (a b : Timestamp) :
    compare a b = (compare a.seconds b.seconds).then (compare a.nanos b.nanos) := rfl

theorem lt_saturatingNextMicrosecond {t : Timestamp} (h : ¬t.Exhausted) :
    compare t t.saturatingNextMicrosecond = .lt := by
  rw [compare_def, then_eq_lt]
  unfold saturatingNextMicrosecond
  by_cases hmic : t.nanos.toNat / 1000 < 999999
  · refine .inr ?_
    simp only [hmic, dif_pos]
    refine ⟨ReflCmp.compare_self, ?_⟩
    rw [compare_eq_lt, UInt32.lt_iff_toNat_lt, UInt32.toNat_ofNat']
    omega
  · refine .inl ?_
    have hsc : t.seconds.toInt ≠ 2 ^ 63 - 1 := fun hs => h ⟨hs, by omega⟩
    simp only [hmic, dif_neg, not_false_iff, saturatingSucc, hsc, if_neg]
    have hrng := Int64.toInt_lt t.seconds
    have hlow := Int64.le_toInt t.seconds
    rw [compare_eq_lt, Int64.lt_iff_toInt_lt, Int64.toInt_add]
    rw [Int.bmod_eq_of_le] <;> simp only [Int64.toInt_one] <;> omega

end Timestamp

namespace State

/-- A commit made before the clock's range is exhausted is later than the last one. -/
theorem lt_nextCommitTime (h : ¬s.lastCommitTime.Exhausted) (now : Elapsed) :
    compare s.lastCommitTime (s.nextCommitTime now) = .lt := by
  unfold nextCommitTime
  split
  · next hlat => exact OrientedCmp.lt_of_gt hlat
  · exact Timestamp.lt_saturatingNextMicrosecond h

/-! ### One commit -/

theorem planWithDocuments_eq_ok {docs : Documents} {plan : CommitPlan}
    (h : s.planWithDocuments now writes docs = .ok plan) :
    plan.result = ⟨s.revision + 1, s.nextCommitTime now⟩ ∧ s.revision + 1 < 2 ^ 64 ∧
      planWrites (s.revision + 1) (s.nextCommitTime now) docs writes =
        .ok (plan.documents, plan.changes) := by
  simp only [planWithDocuments] at h
  split at h
  · next hrev =>
    obtain ⟨⟨final, changes⟩, hpl, h⟩ := Fallible.bind_eq_ok.mp h
    obtain rfl := Fallible.pure_eq_ok.mp h
    exact ⟨rfl, hrev, hpl⟩
  · cases h

/-- **What a successful commit does.** -/
theorem commit_eq_ok {s' : State} (h : s.commit now writes = some (.ok (result, s'))) :
    result = ⟨s.revision + 1, s.nextCommitTime now⟩ ∧
    ∃ changes, planWrites (s.revision + 1) (s.nextCommitTime now) s.documents
        (storedPrecision writes) = .ok (s'.documents, changes) ∧
      Installs s result changes s' ∧
      s'.collections = s.collections.map (indexAll updateCollectionIndex changes) ∧
      s'.collectionGroups = s.collectionGroups.map (indexAll updateCollectionGroupIndex changes) ∧
      s'.options = s.options := by
  unfold commit at h
  split at h
  · cases h
  next plan hpl =>
  obtain ⟨s'', hins, h⟩ := map_eq_some_iff.mp h
  obtain ⟨rfl, rfl⟩ := Prod.mk.inj (Except.ok.inj h)
  obtain ⟨hres, -, hwrs⟩ := planWithDocuments_eq_ok hpl
  obtain ⟨mid, hlog, hs'⟩ := installMetadata_eq_some hins
  have hdc : s''.documents = plan.documents := by
    rw [hs']
    exact hlog.documents
  refine ⟨hres, plan.changes, hdc ▸ hwrs, ⟨?_, ?_, plan.documents, hins⟩, ?_, ?_, ?_⟩
  · rw [hres]
  · rw [hres]
    exact (plans hwrs).revisions
  · rw [hs']
    exact hlog.collections
  · rw [hs']
    exact hlog.collectionGroups
  · rw [hs']
    exact hlog.options

/-- A commit on an accounted state returns, and a successful one leaves an accounted state. -/
theorem commit_returns (h : s.Accounted) (now : Elapsed) (writes : List Write) :
    (∃ e, s.commit now writes = some (.error e)) ∨
      ∃ result s', s.commit now writes = some (.ok (result, s')) ∧ s'.Accounted := by
  unfold commit
  split
  · next e _ => exact .inl ⟨e, rfl⟩
  next plan _ =>
  have hbs : State.Accounted { s with documents := plan.documents } := ⟨h.limit, h.accounts⟩
  obtain ⟨s', hs', hacc⟩ := installMetadata_returns hbs plan.result plan.changes
  refine .inr ⟨plan.result, s', ?_, hacc⟩
  rw [install, hs']
  rfl

/-! ### Indexes of the documents -/

def Live (documents : Documents) (k : DocumentKey) : Prop := documents[k]?.isSome = true

section Indexes

variable {group : DocumentKey → ScopeKey} {index : ScopeIndex} {docs : Documents}

theorem indexes_put (h : Indexes group index (Live docs)) (k : DocumentKey)
    (next : Option Document) :
    Indexes group (update group index k next.isSome) (Live (put docs k next)) := by
  refine h.update ?_ ?_
  · rw [Live, getElem?_put_self]
  · intro j hj
    rw [Live, Live, getElem?_put_of_ne _ hj]

theorem indexes_redo (changes : List Change) :
    ∀ {index : ScopeIndex} {docs : Documents}, Indexes group index (Live docs) →
      Indexes group (indexAll (update group) changes index) (Live (redo docs changes)) := by
  induction changes with
  | nil => exact id
  | cons change changes ih =>
    intro index docs h
    exact ih (indexes_put h change.key change.after)

theorem indexes_undo (h : Indexes group index (Live docs)) (changes : List Change) : Indexes group
      (changes.foldr (fun change index => update group index change.key change.before.isSome) index)
      (Live (undo docs changes)) := by
  induction changes with
  | nil => exact h
  | cons change changes ih => exact indexes_put ih change.key change.before

end Indexes

/-- Both indexes file exactly the documents' keys. -/
structure Indexed (s : State) : Prop where
  collections : ∃ index, s.collections = some index ∧
    Indexes collectionKey index (Live s.documents)
  collectionGroups : ∃ index, s.collectionGroups = some index ∧
    Indexes collectionGroupKey index (Live s.documents)

/-! ### Runs -/

/-- The commit a memory state stands at. -/
def moment (s : State) : Moment := ⟨⟨s.revision, s.lastCommitTime⟩, s.documents⟩

/-- Successful, permitted commits from the empty store: the states passed through, oldest first,
and the state reached. -/
inductive Run (permitted : State → Elapsed → List Write → Prop) (options : StoreOptions) :
    List State → State → Prop
  | start : Run permitted options [] (new options)
  | commit {past : List State} {s s' : State} {now : Elapsed} {writes : List Write}
      {result : CommitPoint} (run : Run permitted options past s) (ok : permitted s now writes)
      (h : s.commit now writes = some (.ok (result, s'))) :
      Run permitted options (past ++ [s]) s'

/-- A refused commit is not a step: there is no state after it but the one before. -/
theorem commit_refused {e : CommitError} (h : s.commit now writes = some (.error e)) :
    s.plan now (storedPrecision writes) = .error e := by
  unfold commit at h
  split at h
  · next hpl =>
    rw [hpl]
    exact congrArg _ (Except.error.inj (some.inj h))
  · obtain ⟨s', -, h⟩ := map_eq_some_iff.mp h
    cases h

namespace Run

variable {permitted : State → Elapsed → List Write → Prop} {options : StoreOptions}
  {past : List State} {s : State}

/-- What every run keeps. -/
structure Sound (past : List State) (s : State) : Prop where
  numbered : Numbered s (past.map moment) s.moment
  bounded : s.Bounded
  timeline : Timeline s (past.map moment) s.moment
  accounted : s.Accounted
  indexed : ∀ m ∈ past ++ [s], m.Indexed

theorem indexed_commit {s' : State} (hs : s.Indexed)
    (h : s.commit now writes = some (.ok (result, s'))) : s'.Indexed := by
  obtain ⟨-, changes, hpl, -, hcl, hgr, -⟩ := commit_eq_ok h
  -- a silent write changes no key, so the logged changes give the keys of the final documents
  have hlv : ∀ k, Live (redo s.documents changes) k ↔ Live s'.documents k := by
    intro k
    rw [Live, Live, (plans hpl).live (fun _ => rfl) k]
  obtain ⟨c, hc, hidx⟩ := hs.collections
  obtain ⟨g, hg, hidx'⟩ := hs.collectionGroups
  refine ⟨⟨_, by rw [hcl, hc]; rfl, (indexes_redo changes hidx).congr hlv⟩,
    ⟨_, by rw [hgr, hg]; rfl, (indexes_redo changes hidx').congr hlv⟩⟩

theorem moment_commit {s' : State} (h : s.commit now writes = some (.ok (result, s'))) :
    s'.moment = ⟨result, s'.documents⟩ := by
  obtain ⟨-, changes, -, hst, -⟩ := commit_eq_ok h
  rw [moment, hst.revision, hst.lastCommitTime]

theorem sound (run : Run permitted options past s) : Sound past s := by
  induction run with
  | start =>
    refine ⟨Numbered.start _ rfl _, ⟨nofun, Nat.le_refl _⟩, Timeline.start _ rfl rfl rfl _,
      accounted_new options, ?_⟩
    intro m hm
    obtain rfl := mem_singleton.mp hm
    have hemp : Indexes collectionKey ∅ (Live ∅) := Indexes.empty.congr fun k => by simp [Live]
    have hemp' : Indexes collectionGroupKey ∅ (Live ∅) :=
      Indexes.empty.congr fun k => by simp [Live]
    exact ⟨⟨∅, rfl, hemp⟩, ⟨∅, rfl, hemp'⟩⟩
  | commit run ok h ih =>
    obtain ⟨-, changes, hpl, hst, -⟩ := commit_eq_ok h
    refine ⟨?_, ih.bounded.installs hst, ?_, ?_, ?_⟩
    · rw [map_append, moment_commit h]
      exact ih.numbered.installs hst _
    · rw [map_append, map_singleton, moment_commit h]
      exact ih.timeline.installs ih.numbered ih.bounded hst _
    · rcases commit_returns ih.accounted _ _ with ⟨e, he⟩ | ⟨result, s'', hs'', hacc⟩
      · rw [h] at he
        cases he
      · rw [h] at hs''
        cases hs''
        exact hacc
    · intro m hm
      rcases mem_append.mp hm with hm | hm
      · exact ih.indexed m hm
      · rw [mem_singleton.mp hm]
        exact indexed_commit (ih.indexed _ (mem_append_right _ (mem_singleton_self _))) h

/-! ### Runs without silent writes -/

/-- No write of the commit is silent. -/
def Heard (s : State) (now : Elapsed) (writes : List Write) : Prop :=
  NoneSilent s.documents (s.nextCommitTime now) (storedPrecision writes)

theorem delta (run : Run Heard options past s) :
    Undoes s (past.map moment) s.moment ∧ Redoes s (past.map moment) s.moment := by
  induction run with
  | start => exact ⟨undoes_start rfl, redoes_start rfl⟩
  | commit run ok h ih =>
    obtain ⟨-, changes, hpl, hst, -⟩ := commit_eq_ok h
    obtain ⟨hun, hrd⟩ := (plans hpl).delta ok
    have hsnd := run.sound
    rw [map_append, moment_commit h]
    exact ⟨ih.1.installs hsnd.numbered hsnd.bounded hst hun,
      ih.2.installs hsnd.numbered hsnd.bounded hst hrd⟩

/-! ### Runs within the clock's range -/

/-- The commit is made before the clock's range is exhausted. -/
def InRange (s : State) (_ : Elapsed) (_ : List Write) : Prop := ¬s.lastCommitTime.Exhausted

section

variable (run : Run InRange options past s)

include run

theorem increasing : Increasing (past.map moment) s.moment := by
  induction run with
  | start => exact pairwise_singleton _ _
  | commit run ok h ih =>
    obtain ⟨hres, -⟩ := commit_eq_ok h
    rw [map_append, moment_commit h]
    refine ih.installs ?_ _
    rw [hres]
    exact lt_nextCommitTime ok _

/-- No document is newer than the last commit. -/
theorem dated : ∀ (k : DocumentKey) d, s.documents[k]? = some d →
      (compare d.updateTime s.lastCommitTime).isLE := by
  induction run with
  | start =>
    intro k d hd
    simp [new] at hd
  | commit run ok h ih =>
    obtain ⟨hres, changes, hpl, hst, -⟩ := commit_eq_ok h
    rw [hst.lastCommitTime, hres]
    refine ((plans hpl).property (fun _ d hd => ?_) fun k d hd => ?_).1
    · rw [hd]
      exact isLE_of_eq_eq ReflCmp.compare_self
    · exact TransCmp.isLE_trans (ih k d hd) (isLE_of_eq_lt (lt_nextCommitTime ok _))

theorem undoes : Undoes s (past.map moment) s.moment := by
  induction run with
  | start => exact undoes_start rfl
  | @commit past s s' now writes result run ok h ih =>
    obtain ⟨-, changes, hpl, hst, -⟩ := commit_eq_ok h
    have hsnd := run.sound
    -- the commit's time is later than every stored document's
    have hfrs : ∀ k d, s.documents[k]? = some d →
        d.updateTime = s.nextCommitTime now → k ∈ ([] : List Change).map Change.key := by
      intro k d hd ht
      have hle := run.dated k d hd
      rw [ht, isLE_iff_ne_gt] at hle
      exact absurd (OrientedCmp.gt_of_lt (lt_nextCommitTime ok now)) hle
    have hun := (plans hpl).undo hfrs
    rw [map_append, map_singleton, moment_commit h]
    exact ih.installs hsnd.numbered hsnd.bounded hst hun

end

/-! ### Snapshots of the past -/

theorem checkRevision_eq_ok {r : Nat} (hflr : s.changeFloor ≤ r)
    (hr : r ≤ s.revision) : s.checkRevision r = .ok () := by
  rw [checkRevision, if_neg (Nat.not_lt.mpr hr), if_neg (Nat.not_lt.mpr hflr)]

/-- **A snapshot at a revision the log reaches back to is the state right after that commit**:
its documents and both its indexes. -/
theorem snapshotAtRevision (hsnd : Sound past s)
    (huds : Undoes s (past.map moment) s.moment) {m : State} (hm : m ∈ past ++ [s])
    (hflr : s.changeFloor ≤ m.revision) :
    ∃ snap, s.snapshotAtRevision m.revision = .ok snap ∧ snap.revision = m.revision ∧
      snap.documents = m.documents ∧ m.collections = some snap.collections ∧
      m.collectionGroups = some snap.collectionGroups := by
  have hmom : m.moment ∈ past.map moment ++ [s.moment] := by
    rw [← map_singleton, ← map_append]
    exact mem_map_of_mem hm
  have hdc : undo s.documents (newer m.revision s.changeLog) = m.documents :=
    huds m.moment hmom hflr
  have hsl := hsnd.indexed s (mem_append_right _ (mem_singleton_self _))
  have hps := hsnd.indexed m hm
  obtain ⟨c, hc, hidx⟩ := hsl.collections
  obtain ⟨g, hg, hidx'⟩ := hsl.collectionGroups
  obtain ⟨c', hc', hpix⟩ := hps.collections
  obtain ⟨g', hg', hpix'⟩ := hps.collectionGroups
  refine ⟨_, by
    rw [State.snapshotAtRevision, checkRevision_eq_ok hflr (hsnd.numbered.revision_le hmom)]
    rfl, rfl, hdc, ?_, ?_⟩
  · have hudn := indexes_undo hidx (newer m.revision s.changeLog)
    rw [hdc] at hudn
    rw [hc', hpix.unique hudn, hc]
    rfl
  · have hudn := indexes_undo hidx' (newer m.revision s.changeLog)
    rw [hdc] at hudn
    rw [hg', hpix'.unique hudn, hg]
    rfl

end Run

end State

end Firenook
