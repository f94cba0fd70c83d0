import Mathlib.Data.List.Chain
import Firenook.Store.State

/-!
# History — what the log and the commit times still say about earlier commits

A run of commits leaves a trail of moments: the point of each commit and the documents right after
it. The state retains a bounded part of it. Three invariants relate the two.

* `Numbered`: the trail's revisions are consecutive and end at the state's.
* `Undoes`: from the floor on, taking the newer changes back from the current documents gives the
  documents of a moment.
* `Timeline`: the retained commit times, behind the history floor, are the newest points of the
  trail, and the change log reaches back to the history floor.

Each holds when the store is opened and is kept by every install (`Installs`), whichever backend
makes it. On a timeline whose times increase, a read time resolves to the newest commit at or
before it (`Timeline.revisionAtTime`).
-/

namespace Firenook

open ChangeLog List Option Std

namespace State

/-! ### One install -/

/-- The state after a commit's changes and point are installed, whatever documents are kept in
memory. -/
structure Installs (s : State) (result : CommitPoint) (changes : List Change) (s' : State) :
    Prop where
  next : result.revision = s.revision + 1
  stamped : ∀ c ∈ changes, c.revision = result.revision
  installed : ∃ docs, { s with documents := docs }.installMetadata result changes = some s'

namespace Installs

variable {s s' : State} {result : CommitPoint} {changes : List Change}

section

variable (h : Installs s result changes s')

include h

/-- The state between the changes and the commit's point. -/
theorem logged : ∃ docs mid, Logged { s with
      documents := docs, revision := result.revision, lastCommitTime := result.commitTime } mid changes ∧
      s' = mid.pushCommitPoint result := by
  obtain ⟨docs, h⟩ := h.installed
  obtain ⟨mid, hlog, hs'⟩ := installMetadata_eq_some h
  exact ⟨docs, mid, hlog, hs'⟩

theorem revision : s'.revision = result.revision := by
  obtain ⟨docs, mid, hlog, rfl⟩ := h.logged
  exact hlog.revision

theorem lastCommitTime : s'.lastCommitTime = result.commitTime := by
  obtain ⟨docs, mid, hlog, rfl⟩ := h.logged
  exact hlog.lastCommitTime

theorem floor_le : s.changeFloor ≤ s'.changeFloor := by
  obtain ⟨docs, mid, hlog, rfl⟩ := h.logged
  exact hlog.floor_le

/-- From the new floor on, the changes newer than an earlier revision are those that were there
and the commit's own. -/
theorem newer_eq {r : Nat} (hr : s'.changeFloor ≤ r) (hle : r ≤ s.revision) :
    newer r s'.changeLog = newer r s.changeLog ++ changes := by
  obtain ⟨docs, mid, hlog, rfl⟩ := h.logged
  obtain ⟨gone, hgn, hflr⟩ := hlog.kept
  have hnew : newer r changes = changes := filter_eq_self.mpr fun c hc => by
    rw [h.stamped c hc, h.next]
    exact decide_eq_true (Nat.lt_succ_of_le hle)
  calc newer r mid.changeLog = newer r (s.changeLog ++ changes) := by
        rw [show s.changeLog ++ changes = _ from hgn, newer_append,
          newer_of_forall_le fun c hc => (hflr c hc).trans hr, nil_append]
    _ = newer r s.changeLog ++ changes := by rw [newer_append, hnew]

theorem mem_changeLog {c : Change} (hc : c ∈ s'.changeLog) : c ∈ s.changeLog ∨ c ∈ changes := by
  obtain ⟨docs, mid, hlog, rfl⟩ := h.logged
  obtain ⟨gone, hgn, -⟩ := hlog.kept
  exact mem_append.mp (hgn ▸ mem_append_right gone hc)

end

end Installs

/-! ### The log's revisions -/

/-- The log and the floor stay at or below the revision. -/
structure Bounded (s : State) : Prop where
  log : ∀ c ∈ s.changeLog, c.revision ≤ s.revision
  floor : s.changeFloor ≤ s.revision

theorem Bounded.installs {s s' : State} {result : CommitPoint} {changes : List Change}
    (h : s.Bounded) (hst : Installs s result changes s') : s'.Bounded where
  log := by
    intro c hc
    rw [hst.revision]
    rcases hst.mem_changeLog hc with hc | hc
    · exact (h.log c hc).trans (hst.next ▸ Nat.le_succ _)
    · exact (hst.stamped c hc).le
  floor := by
    rw [hst.revision]
    obtain ⟨docs, mid, hlog, rfl⟩ := hst.logged
    rcases hlog.floor_from with hf | ⟨c, hc, hf⟩
    · exact hf.le.trans (h.floor.trans (hst.next ▸ Nat.le_succ _))
    · rcases mem_append.mp hc with hc | hc
      · exact hf.le.trans ((h.log c hc).trans (hst.next ▸ Nat.le_succ _))
      · exact hf.le.trans (hst.stamped c hc).le

/-! ### The trail -/

/-- A commit and the documents right after it. -/
structure Moment where
  point : CommitPoint
  documents : Documents

/-- Consecutive revisions, from at or below the floor to the state's revision and time. -/
structure Numbered (s : State) (past : List Moment) (current : Moment) : Prop where
  consecutive : (past ++ [current]).IsChain fun a b => b.point.revision = a.point.revision + 1
  first : ∀ m ∈ (past ++ [current]).head?, m.point.revision ≤ s.changeFloor
  last : current.point = ⟨s.revision, s.lastCommitTime⟩

theorem increasing_of_consecutive {trail : List Moment}
    (h : trail.IsChain fun a b => b.point.revision = a.point.revision + 1) :
    trail.Pairwise fun a b => a.point.revision < b.point.revision := by
  refine isChain_iff_pairwise.mp (h.imp ?_)
  intro a b hab
  rw [hab]
  exact Nat.lt_succ_self _

/-- Consecutive revisions skip none. -/
theorem exists_of_consecutive {r : Nat} {last : Moment} : ∀ {trail : List Moment} {first : Moment},
      (first :: trail).IsChain (fun a b => b.point.revision = a.point.revision + 1) →
      (first :: trail).getLast? = some last →
      first.point.revision ≤ r → r ≤ last.point.revision →
      ∃ m ∈ first :: trail, m.point.revision = r
  | [], first, _, hlast, hle, hge => by
    obtain rfl := some.inj hlast
    exact ⟨first, mem_cons_self, Nat.le_antisymm hle hge⟩
  | second :: trail, first, h, hlast, hle, hge => by
    rcases hle.eq_or_lt with heq | hlt
    · exact ⟨first, mem_cons_self, heq⟩
    obtain ⟨hnx, hrs⟩ := isChain_cons_cons.mp h
    obtain ⟨m, hm, hr⟩ := exists_of_consecutive hrs hlast (hnx ▸ hlt) hge
    exact ⟨m, mem_cons_of_mem _ hm, hr⟩

namespace Numbered

variable {s s' : State} {past : List Moment} {current : Moment}

theorem start (s : State) (h : s.changeFloor = s.revision) (docs : Documents) :
    Numbered s [] ⟨⟨s.revision, s.lastCommitTime⟩, docs⟩ where
  consecutive := isChain_singleton _
  first := by
    intro m hm
    obtain rfl : (⟨⟨s.revision, s.lastCommitTime⟩, docs⟩) = m := by simpa using hm
    exact h.ge
  last := rfl

theorem installs {result : CommitPoint} {changes : List Change} (h : Numbered s past current)
    (hst : Installs s result changes s') (docs : Documents) :
    Numbered s' (past ++ [current]) ⟨result, docs⟩ where
  consecutive := by
    refine isChain_append.mpr ⟨h.consecutive, isChain_singleton _, ?_⟩
    intro a ha b hb
    obtain rfl : current = a := by simpa using ha
    obtain rfl : (⟨result, docs⟩) = b := by simpa using hb
    rw [h.last]
    exact hst.next
  first := by
    intro m hm
    rw [head?_append_of_ne_nil _ (by simp)] at hm
    exact (h.first m hm).trans hst.floor_le
  last := by
    rw [hst.revision, hst.lastCommitTime]

theorem revision_le (h : Numbered s past current) {m : Moment} (hm : m ∈ past ++ [current]) :
    m.point.revision ≤ s.revision := by
  have hlast : current.point.revision = s.revision := by rw [h.last]
  rcases mem_append.mp hm with hm | hm
  · have hlt := (pairwise_append.mp (increasing_of_consecutive h.consecutive)).2.2 m hm
      current (mem_singleton_self _)
    exact hlt.le.trans hlast.le
  · rw [mem_singleton.mp hm, hlast]

/-- Every revision the log reaches back to is that of a commit. -/
theorem exists_moment (h : Numbered s past current) {r : Nat} (hflr : s.changeFloor ≤ r)
    (hr : r ≤ s.revision) : ∃ m ∈ past ++ [current], m.point.revision = r := by
  have hlast : current.point.revision = s.revision := by rw [h.last]
  cases htrl : past ++ [current] with
  | nil => simp at htrl
  | cons first trail =>
    have hchn := h.consecutive
    have hfst := h.first first (by rw [htrl]; rfl)
    rw [htrl] at hchn
    refine exists_of_consecutive hchn ?_ (hfst.trans hflr) (hr.trans hlast.ge)
    rw [← htrl, getLast?_concat]

end Numbered

/-! ### Taking back, and going forward -/

/-- From the floor on, taking the newer changes back gives the documents of a moment. -/
def Undoes (s : State) (past : List Moment) (current : Moment) : Prop :=
  ∀ m ∈ past ++ [current], s.changeFloor ≤ m.point.revision →
    undo current.documents (newer m.point.revision s.changeLog) = m.documents

/-- From the floor on, the newer changes lead from a moment to the current documents. -/
def Redoes (s : State) (past : List Moment) (current : Moment) : Prop :=
  ∀ m ∈ past ++ [current], s.changeFloor ≤ m.point.revision →
    redo m.documents (newer m.point.revision s.changeLog) = current.documents

section Delta

variable {s s' : State} {past : List Moment} {current : Moment} {result : CommitPoint}
  {changes : List Change} {docs : Documents}

theorem undoes_start (h : s.changeLog = []) : Undoes s [] current := by
  intro m hm _
  obtain rfl : m = current := by simpa using hm
  rw [h]
  rfl

theorem redoes_start (h : s.changeLog = []) : Redoes s [] current := by
  intro m hm _
  obtain rfl : m = current := by simpa using hm
  rw [h]
  rfl

/-- No change is newer than the commit just installed. -/
theorem newer_installed (hbd : s.Bounded) (hst : Installs s result changes s') :
    newer result.revision s'.changeLog = [] :=
  newer_of_forall_le fun c hc => hst.revision ▸ (hbd.installs hst).log c hc

theorem Undoes.installs (h : Undoes s past current) (hnum : Numbered s past current)
    (hbd : s.Bounded) (hst : Installs s result changes s')
    (hun : undo docs changes = current.documents) :
    Undoes s' (past ++ [current]) ⟨result, docs⟩ := by
  intro m hm hflr
  rcases mem_append.mp hm with hm | hm
  · rw [hst.newer_eq hflr (hnum.revision_le hm), undo_append, hun]
    exact h m hm (hst.floor_le.trans hflr)
  · obtain rfl := mem_singleton.mp hm
    rw [newer_installed hbd hst]
    rfl

theorem Redoes.installs (h : Redoes s past current) (hnum : Numbered s past current)
    (hbd : s.Bounded) (hst : Installs s result changes s')
    (hrd : redo current.documents changes = docs) :
    Redoes s' (past ++ [current]) ⟨result, docs⟩ := by
  intro m hm hflr
  rcases mem_append.mp hm with hm | hm
  · rw [hst.newer_eq hflr (hnum.revision_le hm), redo, foldl_append, ← redo, ← redo,
      h m hm (hst.floor_le.trans hflr)]
    exact hrd
  · obtain rfl := mem_singleton.mp hm
    rw [newer_installed hbd hst]
    rfl

end Delta

/-! ### Commit times -/

theorem dropPoints_eq (exceeds : List CommitPoint → Bool) :
    ∀ (floor : CommitPoint) (points : List CommitPoint), ∃ gone, floor :: points =
        gone ++ (dropPoints exceeds floor points).1 :: (dropPoints exceeds floor points).2
  | floor, [] => ⟨[], rfl⟩
  | floor, point :: points => by
    rw [dropPoints]
    split
    · obtain ⟨gone, hgn⟩ := dropPoints_eq exceeds point points
      exact ⟨floor :: gone, by rw [cons_append, ← hgn]⟩
    · exact ⟨[], rfl⟩

theorem dropPoints_stops (exceeds : List CommitPoint → Bool) :
    ∀ (floor : CommitPoint) (points : List CommitPoint),
      (dropPoints exceeds floor points).2 = [] ∨ exceeds (dropPoints exceeds floor points).2 = false
  | floor, [] => .inl rfl
  | floor, point :: points => by
    rw [dropPoints]
    split
    · exact dropPoints_stops exceeds point points
    · next hov => exact .inr (Bool.eq_false_iff.mpr hov)

/-- Behind the floor, the points that are kept are the newest ones, all above the change floor. -/
theorem pushCommitPoint_eq (s : State) (point : CommitPoint) :
    (∃ gone, s.historyFloor :: (s.commitTimes ++ [point]) =
      gone ++ (s.pushCommitPoint point).historyFloor :: (s.pushCommitPoint point).commitTimes) ∧
    ∀ p ∈ (s.pushCommitPoint point).commitTimes.head?, s.changeFloor < p.revision := by
  simp only [pushCommitPoint]
  generalize hfst : dropPoints (fun points => s.options.maxChangeLogEntries < points.length)
    s.historyFloor (s.commitTimes ++ [point]) = first
  obtain ⟨gone, hgn⟩ := dropPoints_eq
    (fun points => s.options.maxChangeLogEntries < points.length) s.historyFloor
    (s.commitTimes ++ [point])
  rw [hfst] at hgn
  obtain ⟨gone', hgn'⟩ := dropPoints_eq
    (fun points => points.head?.any fun p => p.revision ≤ s.changeFloor) first.1 first.2
  refine ⟨⟨gone ++ gone', ?_⟩, ?_⟩
  · rw [hgn, hgn', append_assoc]
  intro p hp
  rcases dropPoints_stops (fun points => points.head?.any fun p => p.revision ≤ s.changeFloor)
    first.1 first.2 with h | h
  · rw [h] at hp
    cases hp
  · rw [mem_def] at hp
    simpa [hp] using h

/-- The retained commit times, behind the history floor, are the newest points of the trail, and
the change log reaches back to the history floor. -/
structure Timeline (s : State) (past : List Moment) (current : Moment) : Prop where
  retained : ∃ older, (past ++ [current]).map Moment.point =
    older ++ s.historyFloor :: s.commitTimes
  reach : s.changeFloor ≤ s.historyFloor.revision

/-- The trail's commit times increase. -/
def Increasing (past : List Moment) (current : Moment) : Prop :=
  (past ++ [current]).Pairwise fun a b => compare a.point.commitTime b.point.commitTime = .lt

theorem Increasing.installs {past : List Moment} {current : Moment} (h : Increasing past current)
    {result : CommitPoint} (hlt : compare current.point.commitTime result.commitTime = .lt)
    (docs : Documents) : Increasing (past ++ [current]) ⟨result, docs⟩ := by
  refine pairwise_append.mpr ⟨h, pairwise_singleton _ _, ?_⟩
  intro a ha b hb
  obtain rfl := mem_singleton.mp hb
  rcases mem_append.mp ha with ha | ha
  · have hcur := (pairwise_append.mp h).2.2 a ha current (mem_singleton_self _)
    exact TransCmp.lt_trans hcur hlt
  · rw [mem_singleton.mp ha]
    exact hlt

/-- The last point before the read time, among points in order behind a floor. -/
theorem newest_takeWhile {read : Timestamp} : ∀ {times : List CommitPoint} {floor : CommitPoint},
      (floor :: times).Pairwise (fun a b => compare a.commitTime b.commitTime = .lt) →
      (floor :: times).Pairwise (fun a b => a.revision < b.revision) →
      (compare floor.commitTime read).isLE →
      ∃ p ∈ floor :: times, (compare p.commitTime read).isLE ∧
        (((times.takeWhile fun q => (compare q.commitTime read).isLE).getLast?.map
          CommitPoint.revision).getD floor.revision) = p.revision ∧
        ∀ q ∈ floor :: times, (compare q.commitTime read).isLE → q.revision ≤ p.revision
  | [], floor, _, _, hle =>
    ⟨floor, mem_cons_self, hle, rfl, fun q hq _ => by rw [mem_singleton.mp hq]⟩
  | t :: times, floor, htms, hrv, hle => by
    rw [takeWhile_cons]
    by_cases ht : (compare t.commitTime read).isLE = true
    · obtain ⟨p, hp, hpr, hlast, hmax⟩ := newest_takeWhile (pairwise_cons.mp htms).2
        (pairwise_cons.mp hrv).2 ht
      refine ⟨p, mem_cons_of_mem _ hp, hpr, ?_, ?_⟩
      · rw [if_pos ht, ← hlast, getLast?_cons]
        cases (times.takeWhile fun q => (compare q.commitTime read).isLE).getLast? <;> rfl
      intro q hq hqr
      rcases mem_cons.mp hq with rfl | hq
      · exact ((pairwise_cons.mp hrv).1 t mem_cons_self).le.trans (hmax t mem_cons_self ht)
      · exact hmax q hq hqr
    · -- the first point is past the read time, and so is every later one
      rw [if_neg ht]
      refine ⟨floor, mem_cons_self, hle, rfl, ?_⟩
      intro q hq hqr
      rcases mem_cons.mp hq with rfl | hq
      · exact Nat.le_refl _
      refine absurd ?_ ht
      rcases mem_cons.mp hq with rfl | hq
      · exact hqr
      · have hlt := (pairwise_cons.mp (pairwise_cons.mp htms).2).1 q hq
        exact TransCmp.isLE_trans (Ordering.isLE_of_eq_lt hlt) hqr

namespace Timeline

variable {s s' : State} {past : List Moment} {current : Moment} {result : CommitPoint}
  {changes : List Change}

theorem start (s : State) (hflr : s.historyFloor = ⟨s.revision, s.lastCommitTime⟩)
    (htms : s.commitTimes = []) (hchg : s.changeFloor = s.revision) (docs : Documents) :
    Timeline s [] ⟨⟨s.revision, s.lastCommitTime⟩, docs⟩ where
  retained := ⟨[], by rw [hflr, htms]; rfl⟩
  reach := by rw [hflr, hchg]

theorem installs (h : Timeline s past current) (hnum : Numbered s past current)
    (hbd : s.Bounded) (hst : Installs s result changes s') (docs : Documents) :
    Timeline s' (past ++ [current]) ⟨result, docs⟩ := by
  have hnum' := hnum.installs hst docs
  have hflr' := (hbd.installs hst).floor
  have hret : ∃ older, ((past ++ [current]) ++ [(⟨result, docs⟩ : Moment)]).map Moment.point =
        older ++ s'.historyFloor :: s'.commitTimes := by
    obtain ⟨older, holder⟩ := h.retained
    obtain ⟨_, mid, hlog, rfl⟩ := hst.logged
    obtain ⟨⟨gone, hgn⟩, -⟩ := pushCommitPoint_eq mid result
    refine ⟨older ++ gone, ?_⟩
    rw [hlog.historyFloor, hlog.commitTimes] at hgn
    rw [map_append, holder, map_singleton, append_assoc, append_assoc, ← hgn, cons_append]
  refine ⟨hret, ?_⟩
  obtain ⟨older, holder⟩ := hret
  cases htms : s'.commitTimes with
  | nil =>
    -- every point is gone: the floor is the commit just installed
    rw [htms, map_append, map_singleton] at holder
    have hlast := congrArg getLast? holder
    rw [getLast?_concat, getLast?_concat] at hlast
    rw [← some.inj hlast, ← hst.revision]
    exact hflr'
  | cons p points =>
    -- the first point kept follows the floor and is above the change floor
    have hchn : (((past ++ [current]) ++ [(⟨result, docs⟩ : Moment)]).map
        Moment.point).IsChain fun a b => b.revision = a.revision + 1 :=
      (isChain_map Moment.point).mpr hnum'.consecutive
    rw [holder, htms] at hchn
    have hnx : p.revision = s'.historyFloor.revision + 1 :=
      (isChain_append_cons_cons.mp hchn).2.1
    have hab : s'.changeFloor < p.revision := by
      obtain ⟨_, mid, hlog, rfl⟩ := hst.logged
      exact (pushCommitPoint_eq mid result).2 p (by rw [htms]; rfl)
    omega

/-- **A read time at or after the history floor resolves to the newest commit at or before it**,
and the change log reaches back to that commit. -/
theorem revisionAtTime (h : Timeline s past current) (hnum : Numbered s past current)
    (htms : Increasing past current) {read : Timestamp}
    (hrd : compare read s.historyFloor.commitTime ≠ .lt) :
    ∃ m ∈ past ++ [current], s.revisionAtTime read = .ok m.point.revision ∧
      (compare m.point.commitTime read).isLE ∧ s.changeFloor ≤ m.point.revision ∧
      ∀ m' ∈ past ++ [current], (compare m'.point.commitTime read).isLE →
        m'.point.revision ≤ m.point.revision := by
  obtain ⟨older, holder⟩ := h.retained
  have htms' : ((past ++ [current]).map Moment.point).Pairwise
      fun a b => compare a.commitTime b.commitTime = .lt := pairwise_map.mpr htms
  have hrv : ((past ++ [current]).map Moment.point).Pairwise
      fun a b => a.revision < b.revision :=
    pairwise_map.mpr (increasing_of_consecutive hnum.consecutive)
  rw [holder] at htms' hrv
  have hflr : (compare s.historyFloor.commitTime read).isLE := by
    rw [Ordering.isLE_iff_ne_gt]
    exact fun hgt => hrd (OrientedCmp.lt_of_gt hgt)
  obtain ⟨p, hp, hpr, hlast, hmax⟩ := newest_takeWhile (pairwise_append.mp htms').2.1
    (pairwise_append.mp hrv).2.1 hflr
  obtain ⟨m, hm, rfl⟩ := mem_map.mp (holder ▸ mem_append_right older hp)
  refine ⟨m, hm, ?_, hpr, ?_, ?_⟩
  · rw [State.revisionAtTime, if_neg hrd, hlast]
  · refine h.reach.trans ?_
    exact hmax s.historyFloor mem_cons_self hflr
  intro m' hm' hrd'
  have hpt : m'.point ∈ older ++ s.historyFloor :: s.commitTimes :=
    holder ▸ mem_map_of_mem hm'
  rcases mem_append.mp hpt with hold | hkp
  · exact ((pairwise_append.mp hrv).2.2 _ hold _ hp).le
  · exact hmax _ hkp hrd'

end Timeline

end State

end Firenook
