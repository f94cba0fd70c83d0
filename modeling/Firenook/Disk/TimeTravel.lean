import Firenook.Disk.Past

/-!
# TimeTravel — reads of the past by time

A read time resolves to the newest commit at or before it, in the memory backend and on disk
(`time_travel`), as long as no commit is made with the clock's range exhausted. A snapshot on disk
is the current transaction behind an overlay of what the later changes replaced, and reads as the
documents of the commit (`Process.snapshotAt_eq_ok`).

Past the clock's range `saturating_next_microsecond` returns to the start of the last second, and
commit times go backwards: `clock_turns_back` is a store whose clock stands still just below it.
-/

namespace Firenook

open List Option Std Ordering ChangeLog

variable {memory : State} {now : Elapsed} {writes : List Write} {plan : CommitPlan}
  {docs : Documents} {s : State} {read : Timestamp} {h : List WalRecord}

namespace State

/-- The newest commit of a trail at or before a read time. -/
structure Newest (trail : List Moment) (read : Timestamp) (m : Moment) : Prop where
  mem : m ∈ trail
  le : (compare m.point.commitTime read).isLE
  newer : ∀ m' ∈ trail, (compare m'.point.commitTime read).isLE →
    m'.point.revision ≤ m.point.revision

/-! ### The memory backend -/

theorem revisionAtTime_expired (h : compare read s.historyFloor.commitTime = .lt) :
    s.revisionAtTime read = .error (.readTimeExpired read s.historyFloor.commitTime) := if_pos h

/-- A read time the history reaches back to gets the state right after the newest commit. -/
theorem Run.snapshotAtTime {options : StoreOptions} {past : List State}
    (run : Run Run.InRange options past s) (hrd : compare read s.historyFloor.commitTime ≠ .lt) :
    ∃ m ∈ past ++ [s], Newest ((past ++ [s]).map moment) read m.moment ∧
      ∃ snap, s.snapshotAtTime read = .ok snap ∧ snap.revision = m.revision ∧
        snap.documents = m.documents ∧ m.collections = some snap.collections ∧
        m.collectionGroups = some snap.collectionGroups := by
  have hsnd := run.sound
  obtain ⟨m', hm', hrev, hle, hflr, hnew⟩ :=
    hsnd.timeline.revisionAtTime hsnd.numbered run.increasing hrd
  have htrl : past.map moment ++ [s.moment] = (past ++ [s]).map moment := by
    rw [map_append, map_singleton]
  rw [htrl] at hm' hnew
  obtain ⟨m, hm, rfl⟩ := mem_map.mp hm'
  obtain ⟨snap, hsnp, hrs⟩ := Run.snapshotAtRevision hsnd run.undoes hm hflr
  refine ⟨m, hm, ⟨hm', hle, hnew⟩, snap, ?_, hrs⟩
  rw [State.snapshotAtTime, hrev]
  exact hsnp

end State

namespace Disk

open State

/-! ### Snapshots on disk -/

/-- A read transaction behind what the changes newer than a revision replaced. -/
structure DiskSnapshot where
  revision : Nat
  tables : Tables
  overlay : Map DocumentKey (Option Document)
  logicalUsage : LogicalMemoryUsage

def DiskSnapshot.get (s : DiskSnapshot) (key : DocumentKey) : Option Document :=
  match s.overlay[key]? with
  | some document => document
  | none => do
    let encodedKey ← (encodeDocumentKey key).toOption
    let value ← s.tables.documents[encodedKey]?
    (decodeStoredDocument value).toOption

def historicalOverlay (memory : State) (revision : Nat) :
    Except SnapshotError (Map DocumentKey (Option Document)) := do
  memory.checkRevision revision
  pure (overlay (newer revision memory.changeLog))

namespace Process

def snapshotAt (p : Process) (m : Media) (revision : Nat) : Except SnapshotError DiskSnapshot := do
  let overlay ← historicalOverlay p.memory revision
  pure
    { revision
      tables := m.tables
      overlay
      logicalUsage := p.memory.documentUsageAtRevision revision }

def snapshotAtTime (p : Process) (m : Media) (readTime : Timestamp) :
    Except SnapshotError DiskSnapshot := do
  let revision ← p.memory.revisionAtTime readTime
  p.snapshotAt m revision

end Process

/-- Behind the overlay are the stored documents. -/
theorem DiskSnapshot.get_of_overlay_eq_none {s : DiskSnapshot}
    (hrep : Represents s.tables docs) {key : DocumentKey} (h : s.overlay[key]? = none) :
    s.get key = docs[key]? := by
  rw [DiskSnapshot.get, h]
  cases hkey : docs[key]? with
  | none =>
    cases he : encodeDocumentKey key with
    | error _ => rfl
    | ok e => simp [Except.toOption, hrep.lookup_none he hkey]
  | some d =>
    obtain ⟨e, v, he, hv⟩ := hrep.encodable key d hkey
    obtain ⟨v, hv, hd⟩ := hrep.lookup_some he hkey
    simp [Except.toOption, he, hv, decodeStoredDocument_encode hd]

/-- Reading through the overlay is reading the documents with the changes taken back. -/
theorem DiskSnapshot.get_eq {s : DiskSnapshot} {changes : List Change}
    (hrep : Represents s.tables docs) (hovl : s.overlay = ChangeLog.overlay changes)
    (key : DocumentKey) : s.get key = (undo docs changes)[key]? := by
  rw [getElem?_undo, ← hovl]
  cases hkey : s.overlay[key]? with
  | some before => rw [DiskSnapshot.get, hkey, getD_some]
  | none => rw [s.get_of_overlay_eq_none hrep hkey, getD_none]

/-- **A snapshot at a commit the log reaches back to reads as the documents right after it.** -/
theorem Process.snapshotAt_eq_ok {p : Process} {m : Media} {opened : Nat}
    (hrep : Represents m.tables (documentsOf h)) (hs : Session opened h p.memory) {n : Nat}
    (hflr : p.memory.changeFloor ≤ n) (hn : opened ≤ n) (hlen : n ≤ h.length) :
    ∃ snap, p.snapshotAt m n = .ok snap ∧ snap.revision = n ∧
      ∀ key, snap.get key = (documentsOf (h.take n))[key]? := by
  have hmom := (mem_pastFrom hs.le).mpr ⟨n, hn, hlen, rfl⟩
  have hrev := revision_momentOf_take hlen
  have hle := hs.numbered.revision_le hmom
  have hun := hs.undoes _ hmom
  rw [hrev] at hle hun
  refine ⟨⟨n, m.tables, overlay (newer n p.memory.changeLog), p.memory.documentUsageAtRevision n⟩,
    ?_, rfl, fun key => ?_⟩
  · rw [Process.snapshotAt, historicalOverlay, Run.checkRevision_eq_ok hflr hle]
    rfl
  · refine (DiskSnapshot.get_eq hrep rfl key).trans ?_
    exact congrArg (·[key]?) (hun hflr)

/-! ### Histories within the clock's range -/

/-- Commit times increase, and no document is newer than the last commit of its time. -/
structure Ordered (h : List WalRecord) : Prop where
  increasing : ∀ g r, g ++ [r] <+: h → compare (lastTime g) r.commitTime = .lt
  dated : ∀ g, g <+: h → ∀ (k : DocumentKey) d, (documentsOf g)[k]? = some d →
    (compare d.updateTime (lastTime g)).isLE

theorem Planned.later (hpl : Planned memory h now writes plan)
    (ok : Run.InRange (logicalAt memory h) now writes) :
    compare (lastTime h) plan.result.commitTime = .lt := by
  rw [hpl.result, ← hpl.time]
  exact lt_nextCommitTime (s := memory) ok now

theorem Ordered.concat (ho : Ordered h) (hpl : Planned memory h now writes plan)
    (ok : Run.InRange (logicalAt memory h) now writes) :
    Ordered (h ++ [WalRecord.fromPlan plan]) where
  increasing g r hg := by
    rcases prefix_concat_iff.mp hg with heq | hsub
    · obtain ⟨rfl, hr⟩ := append_inj' heq rfl
      obtain rfl := singleton_inj.mp hr
      exact hpl.later ok
    · exact ho.increasing g r hsub
  dated g hg k d hd := by
    rcases prefix_concat_iff.mp hg with rfl | hsub
    · rw [documentsOf_concat] at hd
      rw [lastTime_concat]
      have hlat := hpl.later ok
      obtain ⟨final, hwrs⟩ := hpl.writes
      have hnew : ∀ c ∈ plan.changes, ∀ d, c.after = some d →
          (compare d.updateTime plan.result.commitTime).isLE := by
        refine ((plans hwrs).property (p := fun _ d => (compare d.updateTime _).isLE)
          (fun _ d hd => ?_) fun k d hd => ?_).2
        · rw [hd, hpl.result]
          exact isLE_of_eq_eq ReflCmp.compare_self
        · exact TransCmp.isLE_trans (ho.dated h (prefix_refl h) k d hd) (isLE_of_eq_lt hlat)
      rcases getElem?_redo_eq_some hd with hold | ⟨c, hc, haft⟩
      · exact TransCmp.isLE_trans (ho.dated h (prefix_refl h) k d hold) (isLE_of_eq_lt hlat)
      · exact hnew c hc d haft
    · exact ho.dated g hsub k d hd

/-- Within the clock's range every commit can be taken back. -/
theorem reversible_inRange : Reversible Run.InRange fun _ => Ordered where
  nil := by
    refine ⟨fun g r hg => ?_, fun g hg k d hd => ?_⟩
    · exact absurd (prefix_nil.mp hg) (by simp)
    · rw [prefix_nil.mp hg] at hd
      exact absurd hd (by simp [documentsOf, mutationsOf, mutate])
  sub hg ho := ⟨fun g' r hg' => ho.increasing g' r (hg'.trans hg),
    fun g' hg' => ho.dated g' (hg'.trans hg)⟩
  concat ho hpl ok := ho.concat hpl ok
  undo {_ memory h now writes plan} ho hpl ok := by
    obtain ⟨final, hwrs⟩ := hpl.writes
    -- the commit's time is later than every stored document's
    have hfrs : ∀ k d, (documentsOf h)[k]? = some d →
        d.updateTime = memory.nextCommitTime now → k ∈ ([] : List Change).map Change.key := by
      intro k d hd ht
      have hle := ho.dated h (prefix_refl h) k d hd
      have hlat := hpl.later ok
      rw [hpl.result] at hlat
      rw [ht, isLE_iff_ne_gt] at hle
      exact absurd (OrientedCmp.gt_of_lt hlat) hle
    exact undo_redo ((plans hwrs).undo hfrs)

theorem Ordered.increasing_moments (ho : Ordered h) : Increasing (pastFrom 0 h) (momentOf h) := by
  induction h using reverseRecOn with
  | nil => exact pairwise_singleton _ _
  | append_singleton h r ih =>
    have hsub := @reversible_inRange.sub [] _ _ (prefix_append h [r]) ho
    rw [pastFrom_concat (Nat.zero_le _)]
    refine Increasing.installs (ih hsub) ?_ (documentsOf (h ++ [r]))
    rw [lastTime_concat]
    exact ho.increasing h r (prefix_refl _)

/-! ### Runs -/

namespace World

variable {sha : Sha256} {crc : List UInt8 → UInt32} {journaled : Bool} {w : World} {p : Process}

section

variable (run : Run sha crc journaled Run.InRange w) (hp : w.process = some p)
  (hserving : p.requiresRestart = false)

include run hp hserving

theorem Run.ordered : Ordered w.acked :=
  ((run.recorded reversible_inRange).serving p hp hserving).settled

/-- A read time the history reaches back to gets the documents right after the newest commit. -/
theorem Run.snapshotAtTime (idle : p.bulk = none)
    (hrd : compare read p.memory.historyFloor.commitTime ≠ .lt) :
    ∃ n, Newest (pastFrom 0 w.acked ++ [momentOf w.acked]) read (momentOf (w.acked.take n)) ∧
      ∃ snap, p.snapshotAtTime w.media read = .ok snap ∧ snap.revision = n ∧
        ∀ key, snap.get key = (documentsOf (w.acked.take n))[key]? := by
  have hrc := (run.recorded reversible_inRange).serving p hp hserving
  have htms := (run.ordered hp hserving).increasing_moments
  have hsto := (run.inv.serving p hp hserving).stores
  obtain ⟨opened, hs⟩ := hrc.session
  rw [loading_of_idle idle, append_nil] at hs
  rw [Increasing, pastFrom_split hs.le, append_assoc] at htms
  have hsnc := (pairwise_append.mp htms).2.1
  obtain ⟨m, hm, hrev, hle, hflr, hnew⟩ :=
    hs.timeline.revisionAtTime hs.numbered hsnc hrd
  obtain ⟨n, hn, hlen, rfl⟩ := (mem_pastFrom hs.le).mp hm
  have hpt := revision_momentOf_take hlen
  rw [hpt] at hrev hflr hnew
  obtain ⟨snap, hsnp, hrs⟩ :=
    Process.snapshotAt_eq_ok hsto.contents.represents hs hflr hn hlen
  refine ⟨n, ⟨?_, hle, fun m' hm' hrd' => ?_⟩, snap, ?_, hrs⟩
  · exact (mem_pastFrom (Nat.zero_le _)).mpr ⟨n, Nat.zero_le _, hlen, rfl⟩
  · obtain ⟨n', -, hlen', rfl⟩ := (mem_pastFrom (Nat.zero_le _)).mp hm'
    by_cases hn' : opened ≤ n'
    · rw [hpt]
      exact hnew _ ((mem_pastFrom hs.le).mpr ⟨n', hn', hlen', rfl⟩) hrd'
    · rw [revision_momentOf_take hlen']
      omega
  · rw [Process.snapshotAtTime, hrev]
    exact hsnp

end

end World

/-- A microsecond before the last second. -/
def lastReading : Elapsed := ⟨0x7FFFFFFFFFFFFFFE, 999999, Elapsed.lastMicro⟩

/-- **Commit times increase and a read time gets the newest commit at or before it**, along every
run whose commits are made within the clock's range: in memory, and on disk while the store serves. -/
theorem time_travel (options : StoreOptions) (sha : Sha256) (crc : List UInt8 → UInt32)
    (journaled : Bool) :
    (∀ past s, State.Run State.Run.InRange options past s → Increasing (past.map moment) s.moment ∧
      ∀ read, if compare read s.historyFloor.commitTime = .lt then
          s.snapshotAtTime read = .error (.readTimeExpired read s.historyFloor.commitTime)
        else ∃ m ∈ past ++ [s], Newest ((past ++ [s]).map moment) read m.moment ∧
          ∃ snap, s.snapshotAtTime read = .ok snap ∧ snap.revision = m.revision ∧
            snap.documents = m.documents ∧ m.collections = some snap.collections ∧
            m.collectionGroups = some snap.collectionGroups) ∧
    (∀ w p, World.Run sha crc journaled State.Run.InRange w →
      w.process = some p → p.requiresRestart = false → p.bulk = none →
      Increasing (pastFrom 0 w.acked) (momentOf w.acked) ∧
      ∀ read, if compare read p.memory.historyFloor.commitTime = .lt then
          p.snapshotAtTime w.media read =
            .error (.readTimeExpired read p.memory.historyFloor.commitTime)
        else ∃ n, Newest (pastFrom 0 w.acked ++ [momentOf w.acked]) read
            (momentOf (w.acked.take n)) ∧
          ∃ snap, p.snapshotAtTime w.media read = .ok snap ∧ snap.revision = n ∧
            ∀ key, snap.get key = (documentsOf (w.acked.take n))[key]?) := by
  constructor
  · intro past s run
    refine ⟨run.increasing, fun read => ?_⟩
    split
    · next hrd =>
      rw [snapshotAtTime, revisionAtTime_expired hrd]
      rfl
    · next hrd => exact run.snapshotAtTime hrd
  · intro w p run hp hserving idle
    refine ⟨(run.ordered hp hserving).increasing_moments, fun read => ?_⟩
    split
    · next hrd =>
      rw [Process.snapshotAtTime, revisionAtTime_expired hrd]
      rfl
    · next hrd => exact run.snapshotAtTime hp hserving idle hrd

/-- Two documents are created a second apart; a read at the time of the first sees just it. -/
theorem time_travel_between :
    (∃ past s, State.Run State.Run.InRange ⟨1000, 1000000⟩ past s ∧ s.revision = 2 ∧
      ∃ m ∈ past ++ [s], m.revision = 1 ∧
        Newest ((past ++ [s]).map moment) (Elapsed.ofSeconds 1).observed m.moment ∧
        ∃ snap, s.snapshotAtTime (Elapsed.ofSeconds 1).observed = .ok snap ∧
          snap.documents = m.documents) ∧
    ∃ w p, World.Run World.noDigest World.noChecksum true State.Run.InRange w ∧
      w.process = some p ∧ w.acked.length = 2 ∧
      Newest (pastFrom 0 w.acked ++ [momentOf w.acked]) (Elapsed.ofSeconds 1).observed
        (momentOf (w.acked.take 1)) ∧
      ∃ snap, p.snapshotAtTime w.media (Elapsed.ofSeconds 1).observed = .ok snap ∧
        ∀ key, snap.get key = (documentsOf (w.acked.take 1))[key]? := by
  constructor
  · have htwo : ((new ⟨1000, 1000000⟩).commit (.ofSeconds 1) [.create exampleKey .sample]).any
        (fun reply => reply.toOption.any fun r => decide (¬r.2.lastCommitTime.Exhausted) &&
          (r.2.commit (.ofSeconds 2) [.create otherKey .sample]).any fun reply =>
            reply.toOption.any fun r => decide (r.2.revision = 2) &&
              compare (Elapsed.ofSeconds 1).observed r.2.historyFloor.commitTime != .lt &&
              (r.2.snapshotAtTime (Elapsed.ofSeconds 1).observed).toOption.any (·.revision == 1)) =
        true := by decide +kernel
    simp only [Option.any_eq_true, Fallible.toOption_eq_some, Bool.and_eq_true, decide_eq_true_eq,
      beq_iff_eq, bne_iff_ne] at htwo
    obtain ⟨_, hs, ⟨_, s⟩, rfl, hrng, _, hs', ⟨_, s'⟩, rfl, ⟨hrev, hrd⟩, snap, hsnp, hone⟩ := htwo
    have hzr : State.Run.InRange (new ⟨1000, 1000000⟩) (.ofSeconds 1) [.create exampleKey .sample] := by
      change ¬Timestamp.zero.Exhausted
      decide
    have run := (State.Run.start.commit hzr hs).commit hrng hs'
    have hnew := ((time_travel _ World.noDigest World.noChecksum true).1 _ _ run).2
      (Elapsed.ofSeconds 1).observed
    rw [if_neg hrd] at hnew
    obtain ⟨m, hm, hnew, snap', hsnp', hm', hdc, -⟩ := hnew
    obtain rfl := Except.ok.inj (hsnp.symm.trans hsnp')
    exact ⟨_, s', run, hrev, m, hm, hm'.symm.trans hone, hnew, _, hsnp, hdc⟩
  · have htwo : (World.initial.opening World.noDigest World.noChecksum World.writeBehind).any
        (fun w => w.process.all (fun p => decide (¬p.memory.lastCommitTime.Exhausted)) &&
          (w.committing World.noDigest World.noChecksum (.ofSeconds 1)
            [.create exampleKey .sample]).any fun w =>
          w.process.all (fun p => decide (¬p.memory.lastCommitTime.Exhausted)) &&
          (w.committing World.noDigest World.noChecksum (.ofSeconds 2)
            [.create otherKey .sample]).any fun w => w.process.any fun p =>
          !p.requiresRestart && p.bulk.isNone && decide (w.acked.length = 2) &&
          compare (Elapsed.ofSeconds 1).observed p.memory.historyFloor.commitTime != .lt &&
          (p.snapshotAtTime w.media (Elapsed.ofSeconds 1).observed).toOption.any
            (·.revision == 1)) = true := by decide +kernel
    simp only [Option.any_eq_true, Option.all_eq_true, Fallible.toOption_eq_some, Bool.and_eq_true,
      Bool.not_eq_true', isNone_iff_eq_none, decide_eq_true_eq, beq_iff_eq, bne_iff_ne] at htwo
    obtain ⟨_, hw, hrng, _, hw', hrng', w, hw'', p, hp, ⟨⟨⟨hserving, hid⟩, hlen⟩, hrd⟩,
      snap, hsnp, hone⟩ := htwo
    have run : World.Run World.noDigest World.noChecksum true State.Run.InRange w :=
      ((World.Run.start.opening rfl hw).committing hrng hw').committing hrng' hw''
    have hnew := ((time_travel ⟨1000, 1000000⟩ _ _ _).2 _ _ run hp hserving hid).2
      (Elapsed.ofSeconds 1).observed
    rw [if_neg hrd] at hnew
    obtain ⟨n, hnew, snap', hsnp', hn, hget⟩ := hnew
    obtain rfl := Except.ok.inj (hsnp.symm.trans hsnp')
    obtain rfl := hn.symm.trans hone
    exact ⟨w, p, run, hp, hlen, hnew, _, hsnp, hget⟩

/-! ### Past the clock's range -/

def lastSecond (micros : Nat) (h : micros < 1000000) : Timestamp :=
  ⟨Int64.ofNat (2 ^ 63 - 1), UInt32.ofNat (micros * 1000), by
    rw [UInt32.lt_iff_toNat_lt, UInt32.toNat_ofNat', Nat.mod_eq_of_lt (by omega)]
    change micros * 1000 < 1000000000
    omega⟩

theorem lastSecond_next {micros : Nat} (h : micros + 1 < 1000000) :
    (lastSecond micros (by omega)).saturatingNextMicrosecond = lastSecond (micros + 1) h := by
  have hmic : (UInt32.ofNat (micros * 1000)).toNat / 1000 = micros := by
    rw [UInt32.toNat_ofNat', Nat.mod_eq_of_lt (by omega), Nat.mul_div_cancel _ (by omega)]
  simp only [Timestamp.saturatingNextMicrosecond, lastSecond, hmic]
  rw [dif_pos (by omega)]

theorem nextCommitTime_lastSecond {micros : Nat} {h : micros < 1000000}
    (htm : s.lastCommitTime = lastSecond micros h) :
    s.nextCommitTime lastReading = (lastSecond micros h).saturatingNextMicrosecond := by
  have hsc : compare lastReading.observed.seconds (lastSecond micros h).seconds = .lt := by
    change compare lastReading.observed.seconds (Int64.ofNat (2 ^ 63 - 1)) = .lt
    decide +kernel
  have hle : compare lastReading.observed (lastSecond micros h) ≠ .gt := by
    rw [Timestamp.compare_def, hsc]
    exact noConfusion
  rw [nextCommitTime, htm, if_neg hle]

/-- A commit without writes. -/
theorem commit_nil (hacc : s.Accounted) (hrev : s.revision + 1 < 2 ^ 64) (now : Elapsed) :
    ∃ result s', s.commit now [] = some (.ok (result, s')) ∧
      s'.revision = s.revision + 1 ∧ s'.lastCommitTime = s.nextCommitTime now := by
  rcases commit_returns hacc now [] with ⟨e, he⟩ | ⟨result, s', h, -⟩
  · have hpl := commit_refused he
    rw [State.plan, planWithDocuments] at hpl
    simp only [hrev, if_true] at hpl
    cases hpl
  · obtain ⟨hres, changes, -, hst, -⟩ := commit_eq_ok h
    refine ⟨result, s', h, ?_, ?_⟩
    · rw [hst.revision, hres]
    · rw [hst.lastCommitTime, hres]

/-- The clock's reading is before the last second. -/
def BelowLastSecond (_ : State) (now : Elapsed) (_ : List Write) : Prop :=
  now.seconds.toNat < 2 ^ 63 - 1

theorem below_lastReading (s : State) : BelowLastSecond s lastReading [] := by
  change lastReading.seconds.toNat < 2 ^ 63 - 1
  decide +kernel

/-- A clock that stands still carries the commit times through the last second. -/
theorem stands_still (options : StoreOptions) : ∀ (n : Nat) (h : n < 1000000), ∃ past s,
    State.Run BelowLastSecond options past s ∧ s.revision = n + 2 ∧
      s.lastCommitTime = lastSecond n h := by
  intro n
  induction n with
  | zero =>
    intro h
    obtain ⟨r, s, hs, hrev, htm⟩ := commit_nil (accounted_new options)
      (by change 0 + 1 < 2 ^ 64; decide) lastReading
    have run : State.Run BelowLastSecond options _ s :=
      .commit .start (below_lastReading _) hs
    have hfst : (new options).nextCommitTime lastReading = lastReading.observed := by
      refine if_pos ?_
      change compare lastReading.observed .zero = .gt
      decide +kernel
    have hsec : s.nextCommitTime lastReading = lastSecond 0 h := by
      rw [nextCommitTime, htm, hfst]
      change _ = lastSecond 0 (by decide)
      decide +kernel
    have hbd : s.revision + 1 < 2 ^ 64 := by
      rw [hrev]
      change 0 + 1 + 1 < 2 ^ 64
      decide
    obtain ⟨r', s', hs', hrev', htm'⟩ := commit_nil run.sound.accounted hbd lastReading
    refine ⟨_, s', run.commit (below_lastReading _) hs', ?_, htm'.trans hsec⟩
    rw [hrev', hrev]
    rfl
  | succ n ih =>
    intro h
    obtain ⟨past, s, run, hrev, htm⟩ := ih (by omega)
    have hbd : s.revision + 1 < 2 ^ 64 := by omega
    obtain ⟨r', s', hs', hrev', htm'⟩ := commit_nil run.sound.accounted hbd lastReading
    refine ⟨_, s', run.commit (below_lastReading _) hs', by omega, ?_⟩
    rw [htm', nextCommitTime_lastSecond htm, lastSecond_next h]

/-- **A clock that stands still below its last second makes commit times go backwards** after a
million and two commits. -/
theorem clock_turns_back : ∃ past s, State.Run BelowLastSecond ⟨1000, 1000000⟩ past s ∧
    ¬Increasing (past.map moment) s.moment := by
  obtain ⟨past, s, run, hrev, htm⟩ := stands_still ⟨1000, 1000000⟩ 999999 (by decide)
  have hbd : s.revision + 1 < 2 ^ 64 := by omega
  obtain ⟨r', s', hs', -, htm'⟩ := commit_nil run.sound.accounted hbd lastReading
  refine ⟨_, s', run.commit (below_lastReading _) hs', fun hinc => ?_⟩
  rw [nextCommitTime_lastSecond htm] at htm'
  have hlt := (pairwise_append.mp hinc).2.2 s.moment
    (mem_map_of_mem (mem_append_right past (mem_singleton_self s))) s'.moment
    (mem_singleton_self _)
  have hwrp : compare (lastSecond 999999 (by decide))
      (lastSecond 999999 (by decide)).saturatingNextMicrosecond ≠ .lt := by decide +kernel
  rw [moment, moment, htm, htm'] at hlt
  exact hwrp hlt

end Disk

end Firenook
