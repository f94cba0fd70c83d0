import Firenook.Support.GroupIndex
import Firenook.Store.Usage

/-!
# State — the store's metadata and the memory backend

The state is what both backends keep in memory: the revision and time of the last commit, a
bounded log of changes, a bounded list of commit times, and the accounting that bounds them. The
memory backend keeps the documents and two group indexes there as well.

Installing a commit appends its changes to the log and trims the log from its oldest end until it
fits its limits. Trimming is a loop that does not stop by itself on an empty log, so it has an
optional result here; on a state that accounts for what it retains it always stops
(`State.installMetadata_returns`). What it can do to the log is said once, by `State.Logged`.
-/

namespace Firenook

open List Option Std ChangeLog GroupIndex

variable {changes : List Change}

/-! ### The state -/

/-- Store resource limits. -/
structure StoreOptions where
  maxChangeLogEntries : Nat
  maxChangeLogLogicalBytes : Nat
  deriving DecidableEq

/-- Both limits are at least one. -/
def StoreOptions.clamp (o : StoreOptions) : StoreOptions :=
  ⟨max o.maxChangeLogEntries 1, max o.maxChangeLogLogicalBytes 1⟩

/-- A collection, by path, or a collection group, by collection id, of one database. -/
@[ext] structure ScopeKey where
  database : DatabaseName
  scope : List UInt8
  deriving DecidableEq

namespace ScopeKey

instance : Ord ScopeKey := ⟨compareLex (compareOn database) (compareOn scope)⟩

instance : TransOrd ScopeKey :=
  inferInstanceAs (TransCmp (compareLex (compareOn database) (compareOn scope)))

instance : LawfulEqOrd ScopeKey := LexOrder.lawfulEqCmp_compareLex ScopeKey.ext

end ScopeKey

def collectionKey (key : DocumentKey) : ScopeKey := ⟨key.database, key.collectionPath⟩

def collectionGroupKey (key : DocumentKey) : ScopeKey := ⟨key.database, key.collectionId⟩

abbrev ScopeIndex := GroupIndex.Index ScopeKey DocumentKey

def updateCollectionIndex : ScopeIndex → DocumentKey → Bool → ScopeIndex := update collectionKey

def updateCollectionGroupIndex : ScopeIndex → DocumentKey → Bool → ScopeIndex :=
  update collectionGroupKey

/-- The revision and time of a commit. -/
@[ext] structure CommitPoint where
  revision : Nat
  commitTime : Timestamp
  deriving DecidableEq

structure State where
  options : StoreOptions
  revision : Nat
  lastCommitTime : Timestamp
  documents : Documents
  collections : Option ScopeIndex
  collectionGroups : Option ScopeIndex
  changeLog : List Change
  changeFloor : Nat
  commitTimes : List CommitPoint
  historyFloor : CommitPoint
  currentDocuments : LogicalMemoryUsage
  replayVersions : ReplayVersions
  changeLogLogicalBytes : Nat

/-- What the system clock says: the time since the epoch, in whole microseconds. -/
structure Elapsed where
  seconds : UInt64
  subsecMicros : UInt32
  valid : subsecMicros < 1000000

/-- A reading on a full second. -/
def Elapsed.ofSeconds (seconds : UInt64) : Elapsed := ⟨seconds, 0, by decide⟩

theorem Elapsed.lastMicro : (999999 : UInt32) < 1000000 := by decide

/-- The reading as a commit time, in the last second when the seconds do not fit. -/
def Elapsed.observed (e : Elapsed) : Timestamp :=
  ⟨Int64.ofNat (min e.seconds.toNat (2 ^ 63 - 1)), e.subsecMicros * 1000, by
    have h := UInt32.lt_iff_toNat_lt.mp e.valid
    rw [show (1000000 : UInt32).toNat = 1000000 from rfl] at h
    rw [UInt32.lt_iff_toNat_lt, UInt32.toNat_mul, show (1000 : UInt32).toNat = 1000 from rfl,
      show (1000000000 : UInt32).toNat = 1000000000 from rfl, Nat.mod_eq_of_lt (by omega)]
    omega⟩

/-- Why a snapshot is refused. -/
inductive SnapshotError where
  | resetRequired (requested oldestAvailable : Nat)
  | futureRevision (requested current : Nat)
  | readTimeExpired (requested oldestAvailable : Timestamp)
  deriving DecidableEq

/-- An immutable snapshot of the memory backend. -/
structure MemorySnapshot where
  revision : Nat
  documents : Documents
  collections : ScopeIndex
  collectionGroups : ScopeIndex
  logicalUsage : LogicalMemoryUsage

/-- A validated commit, not yet installed. -/
structure CommitPlan where
  result : CommitPoint
  documents : Documents
  changes : List Change

namespace State

variable {s' s : State}

/-- An empty memory store. -/
def new (options : StoreOptions) : State where
  options := options.clamp
  revision := 0
  lastCommitTime := .zero
  documents := ∅
  collections := some ∅
  collectionGroups := some ∅
  changeLog := []
  changeFloor := 0
  commitTimes := []
  historyFloor := ⟨0, .zero⟩
  currentDocuments := .zero
  replayVersions := .empty
  changeLogLogicalBytes := 0

/-- The state of a store opened from disk: nothing before the open can be replayed. -/
def fromPersisted (options : StoreOptions) (revision : Nat) (lastCommitTime : Timestamp)
    (documents : Documents) (currentDocuments : LogicalMemoryUsage) : State where
  options := options.clamp
  revision := revision
  lastCommitTime := lastCommitTime
  documents := documents
  collections := none
  collectionGroups := none
  changeLog := []
  changeFloor := revision
  commitTimes := []
  historyFloor := ⟨revision, lastCommitTime⟩
  currentDocuments := currentDocuments
  replayVersions := .empty
  changeLogLogicalBytes := 0

/-! ### Planning -/

/-- The clock's reading if it is past the last commit, and the next microsecond otherwise. -/
def nextCommitTime (s : State) (now : Elapsed) : Timestamp :=
  if compare now.observed s.lastCommitTime = .gt then now.observed
  else s.lastCommitTime.saturatingNextMicrosecond

def planWithDocuments (s : State) (now : Elapsed) (writes : List Write) (documents : Documents) :
    Except CommitError CommitPlan :=
  let commitTime := s.nextCommitTime now
  let revision := s.revision + 1
  if revision < 2 ^ 64 then do
    let (documents, changes) ← planWrites revision commitTime documents writes
    pure ⟨⟨revision, commitTime⟩, documents, changes⟩
  else .error .revisionExhausted

def plan (s : State) (now : Elapsed) (writes : List Write) : Except CommitError CommitPlan :=
  s.planWithDocuments now writes s.documents

/-! ### Installing -/

/-- The loop condition of `push_change`, at a log of the given length. -/
def overLimit (s : State) (entries : Nat) : Bool :=
  s.options.maxChangeLogEntries < entries ||
    s.options.maxChangeLogLogicalBytes < s.replayVersions.logicalBytes

/-- Accounts for a change that enters the log. -/
def charge (s : State) (change : Change) : State :=
  { s with
    changeLogLogicalBytes :=
      saturatingAdd s.changeLogLogicalBytes (changeMetadataLogicalBytes change)
    replayVersions :=
      (s.replayVersions.add change.key change.before).add change.key change.after }

/-- Accounts for a change that leaves the log, and raises the floor to it. -/
def forget (s : State) (removed : Change) : State :=
  { s with
    changeLogLogicalBytes := s.changeLogLogicalBytes - changeMetadataLogicalBytes removed
    replayVersions :=
      (s.replayVersions.remove removed.key removed.before).remove removed.key removed.after
    changeFloor := max s.changeFloor removed.revision }

/-- The loop of `push_change`. `none` is a loop that never ends: the log is empty and the limit
is still exceeded. -/
def trimChangeLog (s : State) : List Change → Option State
  | [] => if s.overLimit 0 then none else some { s with changeLog := [] }
  | removed :: rest =>
    if s.overLimit (rest.length + 1) then (s.forget removed).trimChangeLog rest
    else some { s with changeLog := removed :: rest }

def pushChange (s : State) (change : Change) : Option State :=
  (s.charge change).trimChangeLog (s.changeLog ++ [change])

/-- Removes points from the front while `exceeds` holds; the last one removed is the new floor. -/
def dropPoints (exceeds : List CommitPoint → Bool) (floor : CommitPoint) :
    List CommitPoint → CommitPoint × List CommitPoint
  | [] => (floor, [])
  | point :: points =>
    if exceeds (point :: points) then dropPoints exceeds point points else (floor, point :: points)

def pushCommitPoint (s : State) (point : CommitPoint) : State :=
  let (floor, points) :=
    dropPoints (fun points => s.options.maxChangeLogEntries < points.length)
      s.historyFloor (s.commitTimes ++ [point])
  let (floor, points) :=
    dropPoints (fun points => points.head?.any fun point => point.revision ≤ s.changeFloor)
      floor points
  { s with commitTimes := points, historyFloor := floor }

def installChange (s : State) (change : Change) : Option State :=
  let present := change.after.isSome
  pushChange
    { s with
      collections := s.collections.map fun index => updateCollectionIndex index change.key present
      collectionGroups :=
        s.collectionGroups.map fun index => updateCollectionGroupIndex index change.key present
      currentDocuments := applyDocumentTransition s.currentDocuments change } change

def installMetadata (s : State) (result : CommitPoint) (changes : List Change) : Option State := do
  let s := { s with revision := result.revision, lastCommitTime := result.commitTime }
  let s ← changes.foldlM installChange s
  pure (s.pushCommitPoint result)

def install (s : State) (plan : CommitPlan) : Option State :=
  { s with documents := plan.documents }.installMetadata plan.result plan.changes

/-- A disk store keeps no documents in memory. -/
def installDisk (s : State) (plan : CommitPlan) : Option State :=
  { s with documents := ∅ }.installMetadata plan.result plan.changes

/-- A commit of the memory backend. `none` is a commit that never returns. -/
def commit (s : State) (now : Elapsed) (writes : List Write) :
    Option (Except CommitError (CommitPoint × State)) :=
  match s.plan now (storedPrecision writes) with
  | .error e => some (.error e)
  | .ok plan => (s.install plan).map fun s' => .ok (plan.result, s')

/-! ### Reading back -/

def documentUsageAtRevision (s : State) (revision : Nat) : LogicalMemoryUsage :=
  (newer revision s.changeLog).foldr (fun change usage =>
    applyReverseDocumentTransition usage change) s.currentDocuments

/-- Whether the log reaches back to a revision. -/
def checkRevision (s : State) (revision : Nat) : Except SnapshotError Unit :=
  if s.revision < revision then .error (.futureRevision revision s.revision)
  else if revision < s.changeFloor then .error (.resetRequired revision s.changeFloor)
  else .ok ()

/-- The memory backend's snapshot, which has both indexes. -/
def snapshotAtRevision (s : State) (revision : Nat) : Except SnapshotError MemorySnapshot := do
  s.checkRevision revision
  let undone := newer revision s.changeLog
  let unindex := fun (update : ScopeIndex → DocumentKey → Bool → ScopeIndex) =>
    undone.foldr fun change index => update index change.key change.before.isSome
  pure
    { revision
      documents := undo s.documents undone
      collections := unindex updateCollectionIndex (s.collections.getD ∅)
      collectionGroups := unindex updateCollectionGroupIndex (s.collectionGroups.getD ∅)
      logicalUsage := s.documentUsageAtRevision revision }

def revisionAtTime (s : State) (readTime : Timestamp) : Except SnapshotError Nat :=
  if compare readTime s.historyFloor.commitTime = .lt then
    .error (.readTimeExpired readTime s.historyFloor.commitTime)
  else
    .ok (((s.commitTimes.takeWhile fun p => (compare p.commitTime readTime).isLE).getLast?.map
      CommitPoint.revision).getD s.historyFloor.revision)

def snapshotAtTime (s : State) (readTime : Timestamp) : Except SnapshotError MemorySnapshot := do
  let revision ← s.revisionAtTime readTime
  s.snapshotAtRevision revision

/-- The changes newer than a revision, or a request to start over. -/
def changesSince (s : State) (after : Nat) : Except SnapshotError (List Change) :=
  if after < s.changeFloor then .error (.resetRequired after s.changeFloor)
  else .ok (newer after s.changeLog)

/-! ### The log after an install -/

def indexAll (update : ScopeIndex → DocumentKey → Bool → ScopeIndex) (changes : List Change)
    (index : ScopeIndex) : ScopeIndex :=
  changes.foldl (fun index change => update index change.key change.after.isSome) index

theorem indexAll_nil (update : ScopeIndex → DocumentKey → Bool → ScopeIndex) :
    indexAll update [] = id := rfl

theorem indexAll_append (update : ScopeIndex → DocumentKey → Bool → ScopeIndex)
    (a b : List Change) : indexAll update (a ++ b) = indexAll update b ∘ indexAll update a := by
  funext index
  exact foldl_append

/-- **What installing changes does to a state.** The log gains them and loses changes at its
oldest end; the floor rises to the newest one lost, if to anything; the indexes follow the
changes; the rest of the state stays. -/
structure Logged (s s' : State) (added : List Change) : Prop where
  kept : ∃ gone, s.changeLog ++ added = gone ++ s'.changeLog ∧
    ∀ c ∈ gone, c.revision ≤ s'.changeFloor
  floor_le : s.changeFloor ≤ s'.changeFloor
  floor_from : s'.changeFloor = s.changeFloor ∨
    ∃ c ∈ s.changeLog ++ added, s'.changeFloor = c.revision
  collections : s'.collections = s.collections.map (indexAll updateCollectionIndex added)
  collectionGroups :
    s'.collectionGroups = s.collectionGroups.map (indexAll updateCollectionGroupIndex added)
  options : s'.options = s.options
  revision : s'.revision = s.revision
  lastCommitTime : s'.lastCommitTime = s.lastCommitTime
  documents : s'.documents = s.documents
  commitTimes : s'.commitTimes = s.commitTimes
  historyFloor : s'.historyFloor = s.historyFloor

theorem Logged.refl (s : State) : Logged s s [] where
  kept := ⟨[], by simp, by simp⟩
  floor_le := Nat.le_refl _
  floor_from := .inl rfl
  collections := by rw [indexAll_nil, Option.map_id, id]
  collectionGroups := by rw [indexAll_nil, Option.map_id, id]
  options := rfl
  revision := rfl
  lastCommitTime := rfl
  documents := rfl
  commitTimes := rfl
  historyFloor := rfl

theorem Logged.trans {s'' : State} {a b : List Change} (h : Logged s s' a) (h' : Logged s' s'' b) :
    Logged s s'' (a ++ b) where
  kept := by
    obtain ⟨gone, hgn, hle⟩ := h.kept
    obtain ⟨gone', hgn', hle'⟩ := h'.kept
    refine ⟨gone ++ gone', ?_, ?_⟩
    · rw [← append_assoc, hgn, append_assoc, hgn', append_assoc]
    intro c hc
    rcases mem_append.mp hc with hc | hc
    · exact (hle c hc).trans h'.floor_le
    · exact hle' c hc
  floor_le := h.floor_le.trans h'.floor_le
  floor_from := by
    obtain ⟨gone, hgn, -⟩ := h.kept
    have hlog : s.changeLog ++ (a ++ b) = gone ++ (s'.changeLog ++ b) := by
      rw [← append_assoc, hgn, append_assoc]
    rcases h'.floor_from with hf | ⟨c, hc, hf⟩
    · rcases h.floor_from with hf' | ⟨c, hc, hf'⟩
      · exact .inl (hf.trans hf')
      · refine .inr ⟨c, ?_, hf.trans hf'⟩
        rw [← append_assoc]
        exact mem_append_left _ hc
    · refine .inr ⟨c, ?_, hf⟩
      rw [hlog]
      exact mem_append_right _ hc
  collections := by
    rw [h'.collections, h.collections, Option.map_map, indexAll_append]
  collectionGroups := by
    rw [h'.collectionGroups, h.collectionGroups, Option.map_map, indexAll_append]
  options := h'.options.trans h.options
  revision := h'.revision.trans h.revision
  lastCommitTime := h'.lastCommitTime.trans h.lastCommitTime
  documents := h'.documents.trans h.documents
  commitTimes := h'.commitTimes.trans h.commitTimes
  historyFloor := h'.historyFloor.trans h.historyFloor

/-- The trimming loop, on a log that may differ from the state's own. -/
theorem trimChangeLog_eq_some {log : List Change} {s : State} (h : s.trimChangeLog log = some s') :
    ∃ gone floor versions bytes, log = gone ++ s'.changeLog ∧
      (∀ c ∈ gone, c.revision ≤ floor) ∧ s.changeFloor ≤ floor ∧
      (floor = s.changeFloor ∨ ∃ c ∈ gone, floor = c.revision) ∧
      s' = { s with changeLog := s'.changeLog, changeFloor := floor, replayVersions := versions,
                    changeLogLogicalBytes := bytes } := by
  induction log generalizing s with
  | nil =>
    simp only [trimChangeLog] at h
    split at h
    · cases h
    · obtain rfl := some.inj h
      exact ⟨[], s.changeFloor, s.replayVersions, s.changeLogLogicalBytes, rfl, by simp,
        Nat.le_refl _, .inl rfl, rfl⟩
  | cons removed rest ih =>
    simp only [trimChangeLog] at h
    split at h
    · obtain ⟨gone, floor, versions, bytes, hlog, hle, hflr, hfr, hs'⟩ := ih h
      have hrm : removed.revision ≤ floor := (Nat.le_max_right _ _).trans hflr
      refine ⟨removed :: gone, floor, versions, bytes, ?_, ?_, (Nat.le_max_left _ _).trans hflr,
        ?_, hs'⟩
      · rw [hlog, cons_append]
      · intro c hc
        rcases mem_cons.mp hc with rfl | hc
        · exact hrm
        · exact hle c hc
      · rcases hfr with hf | ⟨c, hc, hf⟩
        · rcases Nat.le_total removed.revision s.changeFloor with hmax | hmax
          · exact .inl (hf.trans (Nat.max_eq_left hmax))
          · exact .inr ⟨removed, mem_cons_self, hf.trans (Nat.max_eq_right hmax)⟩
        · exact .inr ⟨c, mem_cons_of_mem _ hc, hf⟩
    · obtain rfl := some.inj h
      exact ⟨[], s.changeFloor, s.replayVersions, s.changeLogLogicalBytes, rfl, by simp,
        Nat.le_refl _, .inl rfl, rfl⟩

theorem installChange_logged {change : Change} (h : s.installChange change = some s') :
    Logged s s' [change] := by
  obtain ⟨gone, floor, versions, bytes, hlog, hle, hflr, hfr, hs'⟩ := trimChangeLog_eq_some h
  rw [hs']
  refine ⟨⟨gone, hlog, hle⟩, hflr, ?_, rfl, rfl, rfl, rfl, rfl, rfl, rfl, rfl⟩
  rcases hfr with hf | ⟨c, hc, hf⟩
  · exact .inl hf
  · refine .inr ⟨c, ?_, hf⟩
    exact hlog ▸ mem_append_left _ hc

theorem foldlM_installChange_logged {s s' : State}
    (h : changes.foldlM installChange s = some s') : Logged s s' changes := by
  induction changes generalizing s with
  | nil =>
    obtain rfl := some.inj h
    exact Logged.refl s
  | cons change changes ih =>
    obtain ⟨mid, hmid, h⟩ := bind_eq_some_iff.mp h
    exact (installChange_logged hmid).trans (ih h)

/-- **What an install can do**: log the changes under the new revision and time, then push the
commit's point. -/
theorem installMetadata_eq_some {result : CommitPoint}
    (h : s.installMetadata result changes = some s') :
    ∃ mid, Logged { s with revision := result.revision, lastCommitTime := result.commitTime } mid
      changes ∧ s' = mid.pushCommitPoint result := by
  obtain ⟨mid, hmid, h⟩ := bind_eq_some_iff.mp h
  exact ⟨mid, foldlM_installChange_logged hmid, (some.inj h).symm⟩

/-! ### Trimming stops -/

/-- The state accounts for the versions its log names, under a limit it can meet. -/
structure Accounted (s : State) : Prop where
  limit : 1 ≤ s.options.maxChangeLogLogicalBytes
  accounts : s.replayVersions.Accounts (s.changeLog.flatMap ReplayVersions.named)

theorem accounted_new (options : StoreOptions) : (new options).Accounted :=
  ⟨Nat.le_max_right _ _, .empty⟩

theorem accounted_fromPersisted (options : StoreOptions) (rev : Nat) (time : Timestamp)
    (docs : Documents) (usage : LogicalMemoryUsage) :
    (fromPersisted options rev time docs usage).Accounted :=
  ⟨Nat.le_max_right _ _, .empty⟩

theorem trimChangeLog_returns {log : List Change} {s : State}
    (hlim : 1 ≤ s.options.maxChangeLogLogicalBytes)
    (hac : s.replayVersions.Accounts (log.flatMap ReplayVersions.named)) :
    ∃ s', s.trimChangeLog log = some s' ∧ s'.Accounted := by
  induction log generalizing s with
  | nil =>
    have hbyt := hac.bytes_of_nil
    have hund : s.overLimit 0 = false := by
      simp only [overLimit, hbyt, Bool.or_eq_false_iff, decide_eq_false_iff_not]
      omega
    refine ⟨{ s with changeLog := [] }, ?_, hlim, hac⟩
    rw [trimChangeLog, hund, if_neg (by decide)]
  | cons removed rest ih =>
    rw [trimChangeLog]
    split
    · refine ih hlim ?_
      rw [flatMap_cons, ReplayVersions.named, append_assoc] at hac
      exact hac.remove.remove
    · exact ⟨_, rfl, hlim, hac⟩

theorem pushChange_returns (h : s.Accounted) (change : Change) :
    ∃ s', s.pushChange change = some s' ∧ s'.Accounted := by
  refine trimChangeLog_returns h.limit ?_
  rw [flatMap_append, flatMap_singleton, ReplayVersions.named, ← append_assoc]
  exact (h.accounts.add change.key change.before).add change.key change.after

theorem foldlM_installChange_returns :
    ∀ {s : State}, s.Accounted → ∃ s', changes.foldlM installChange s = some s' ∧ s'.Accounted := by
  induction changes with
  | nil => exact fun h => ⟨_, rfl, h⟩
  | cons change changes ih =>
    intro s h
    obtain ⟨mid, hmid, hacc⟩ : ∃ mid, s.installChange change = some mid ∧ mid.Accounted := by
      refine pushChange_returns ?_ change
      exact ⟨h.limit, h.accounts⟩
    obtain ⟨s', hs', h'⟩ := ih hacc
    refine ⟨s', ?_, h'⟩
    exact bind_eq_some_iff.mpr ⟨mid, hmid, hs'⟩

/-- **Installing a commit always returns.** -/
theorem installMetadata_returns (h : s.Accounted) (result : CommitPoint) (changes : List Change) :
    ∃ s', s.installMetadata result changes = some s' ∧ s'.Accounted := by
  have hs : State.Accounted
      { s with revision := result.revision, lastCommitTime := result.commitTime } :=
    ⟨h.limit, h.accounts⟩
  obtain ⟨mid, hmid, hacc⟩ := foldlM_installChange_returns hs
  refine ⟨mid.pushCommitPoint result, ?_, hacc.limit, hacc.accounts⟩
  exact bind_eq_some_iff.mpr ⟨mid, hmid, rfl⟩

end State

end Firenook
