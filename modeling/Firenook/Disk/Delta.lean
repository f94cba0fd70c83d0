import Firenook.Disk.TimeTravel

/-!
# Delta — the change log as a two-way delta

From the change floor on, taking the newer changes back gives the documents and the indexes right
after any commit, and applying them again gives the current documents (`two_way_delta`), in memory
and on disk, along every run without a silent write. A silent write replaces a document of its own
commit by one the derived equality takes for the same, so that it is stored and not logged: after
`zeroThenNegativeZero` the log leads to zero and the store holds minus zero (`delta_lost`).
-/

namespace Firenook

open Option List ChangeLog

variable {s : State} {r : Nat}

namespace State

/-! ### The memory backend -/

theorem checkRevision_reset (hbd : s.Bounded) (h : r < s.changeFloor) :
    s.checkRevision r = .error (.resetRequired r s.changeFloor) := by
  rw [checkRevision, if_neg (Nat.not_lt.mpr (h.le.trans hbd.floor)), if_pos h]

theorem checkRevision_future (h : s.revision < r) :
    s.checkRevision r = .error (.futureRevision r s.revision) := if_pos h

/-- The changes since a revision the log reaches back to. -/
theorem changesSince_eq_ok (h : s.changeFloor ≤ r) :
    s.changesSince r = .ok (newer r s.changeLog) := if_neg (Nat.not_lt.mpr h)

theorem changesSince_reset (h : r < s.changeFloor) :
    s.changesSince r = .error (.resetRequired r s.changeFloor) := if_pos h

/-- Every revision the log reaches back to is a commit the log leads to and from. -/
theorem Run.retained {options : StoreOptions} {past : List State}
    (run : Run Run.Heard options past s) (hflr : s.changeFloor ≤ r) (hr : r ≤ s.revision) :
    ∃ m ∈ past ++ [s], m.revision = r ∧ ∃ snap changes,
      s.snapshotAtRevision r = .ok snap ∧ snap.documents = m.documents ∧
      m.collections = some snap.collections ∧
      m.collectionGroups = some snap.collectionGroups ∧
      s.changesSince r = .ok changes ∧ redo snap.documents changes = s.documents := by
  have hsnd := run.sound
  obtain ⟨huds, hrdo⟩ := run.delta
  obtain ⟨m', hm', rfl⟩ := hsnd.numbered.exists_moment hflr hr
  have hrd := hrdo m' hm' hflr
  rw [← map_singleton, ← map_append] at hm'
  obtain ⟨m, hm, rfl⟩ := mem_map.mp hm'
  obtain ⟨snap, hsnp, -, hdc, hixs⟩ :=
    Run.snapshotAtRevision hsnd huds hm hflr
  refine ⟨m, hm, rfl, snap, _, hsnp, hdc, hixs.1, hixs.2, changesSince_eq_ok hflr, ?_⟩
  rw [hdc]
  exact hrd

end State

namespace Disk

open Fallible State

/-! ### On disk -/

/-- No write of the commit is silent; the writes have the stored precision already. -/
def Heard (s : State) (now : Elapsed) (writes : List Write) : Prop :=
  NoneSilent s.documents (s.nextCommitTime now) writes

/-- A create refuses a document that is there. -/
theorem heard_create (s : State) (now : Elapsed) (key : DocumentKey) (fields : Fields) :
    Heard s now [.create key fields] := by
  refine ⟨?_, fun _ _ => trivial⟩
  rintro ⟨prev, next, hpr, hwr, -⟩
  have hmem : key ∈ s.documents :=
    Std.ExtTreeMap.mem_iff_isSome_getElem?.mpr (isSome_of_eq_some hpr)
  simp [applyWrite, hmem] at hwr

theorem heard_twoCreated : ∀ c ∈ World.twoCreated, ∀ s, Heard s c.1 c.2 := by
  simp only [World.twoCreated, forall_mem_cons]
  exact ⟨fun s => heard_create .., fun s => heard_create .., nofun⟩

theorem reversible_heard : Reversible Heard fun _ _ => True where
  nil := trivial
  sub _ _ := trivial
  concat _ _ _ := trivial
  undo {_ memory h now writes plan} _ hpl ok := by
    obtain ⟨final, hwrs⟩ := hpl.writes
    exact undo_redo ((plans hwrs).delta ok).1

/-- Every revision the log reaches back to is a commit the log leads to and from. -/
theorem World.Run.retained {sha : Sha256} {crc : List UInt8 → UInt32} {journaled : Bool}
    {w : World} {p : Process} (run : World.Run sha crc journaled Heard w)
    (hp : w.process = some p) (hsrv : p.requiresRestart = false) (idle : p.bulk = none)
    (hflr : p.memory.changeFloor ≤ r) (hr : r ≤ p.memory.revision) :
    r ≤ w.acked.length ∧ ∃ snap changes, p.snapshotAt w.media r = .ok snap ∧
      (∀ key, snap.get key = (documentsOf (w.acked.take r))[key]?) ∧
      p.memory.changesSince r = .ok changes ∧
      redo (documentsOf (w.acked.take r)) changes = documentsOf w.acked := by
  obtain ⟨opened, hs⟩ := ((run.recorded reversible_heard).serving p hp hsrv).session
  rw [World.loading_of_idle idle, append_nil] at hs
  have hsto := (run.inv.serving p hp hsrv).stores
  obtain ⟨m, hm, hrev⟩ := hs.numbered.exists_moment hflr hr
  have hrd := hs.redoes m hm
  obtain ⟨n, hn, hlen, rfl⟩ := (mem_pastFrom hs.le).mp hm
  rw [revision_momentOf_take hlen] at hrev hrd
  subst hrev
  obtain ⟨snap, hsnp, -, hget⟩ :=
    Process.snapshotAt_eq_ok hsto.contents.represents hs hflr hn hlen
  exact ⟨hlen, snap, _, hsnp, hget, changesSince_eq_ok hflr, hrd hflr⟩

/-- **From the change floor on the log is a two-way delta**, along every run without a silent
write; below the floor reads are asked to start over, and past the last commit they are refused. -/
theorem two_way_delta (options : StoreOptions) (sha : Sha256) (crc : List UInt8 → UInt32)
    (journaled : Bool) :
    (∀ past s, State.Run State.Run.Heard options past s →
      (∀ r, s.changeFloor ≤ r → r ≤ s.revision → ∃ m ∈ past ++ [s], m.revision = r ∧
        ∃ snap changes, s.snapshotAtRevision r = .ok snap ∧
          snap.documents = m.documents ∧ m.collections = some snap.collections ∧
          m.collectionGroups = some snap.collectionGroups ∧
          s.changesSince r = .ok changes ∧ redo snap.documents changes = s.documents) ∧
      (∀ r < s.changeFloor, s.snapshotAtRevision r = .error (.resetRequired r s.changeFloor) ∧
        s.changesSince r = .error (.resetRequired r s.changeFloor)) ∧
      ∀ r, s.revision < r → s.snapshotAtRevision r = .error (.futureRevision r s.revision)) ∧
    (∀ w p, World.Run sha crc journaled Heard w →
      w.process = some p → p.requiresRestart = false → p.bulk = none →
      (∀ r, p.memory.changeFloor ≤ r → r ≤ p.memory.revision → r ≤ w.acked.length ∧
        ∃ snap changes, p.snapshotAt w.media r = .ok snap ∧
          (∀ key, snap.get key = (documentsOf (w.acked.take r))[key]?) ∧
          p.memory.changesSince r = .ok changes ∧
          redo (documentsOf (w.acked.take r)) changes = documentsOf w.acked) ∧
      (∀ r < p.memory.changeFloor,
        p.snapshotAt w.media r = .error (.resetRequired r p.memory.changeFloor) ∧
          p.memory.changesSince r = .error (.resetRequired r p.memory.changeFloor)) ∧
      ∀ r, p.memory.revision < r →
        p.snapshotAt w.media r = .error (.futureRevision r p.memory.revision)) := by
  constructor
  · intro past s run
    refine ⟨fun r hflr hr => run.retained hflr hr, fun r hr => ⟨?_, changesSince_reset hr⟩,
      fun r hr => ?_⟩
    · rw [State.snapshotAtRevision, checkRevision_reset run.sound.bounded hr]
      rfl
    · rw [State.snapshotAtRevision, checkRevision_future hr]
      rfl
  · intro w p run hp hsrv idle
    obtain ⟨opened, hs⟩ := ((run.recorded reversible_heard).serving p hp hsrv).session
    refine ⟨fun r hflr hr => run.retained hp hsrv idle hflr hr,
      fun r hr => ⟨?_, changesSince_reset hr⟩, fun r hr => ?_⟩
    · rw [Process.snapshotAt, historicalOverlay, checkRevision_reset hs.bounded hr]
      rfl
    · rw [Process.snapshotAt, historicalOverlay, checkRevision_future hr]
      rfl

/-- A document is created; its change leads from revision zero to the store and back. -/
theorem two_way_delta_created :
    (∃ past s, State.Run State.Run.Heard ⟨1000, 1000000⟩ past s ∧ ∃ snap c,
      s.snapshotAtRevision 0 = .ok snap ∧ s.changesSince 0 = .ok [c] ∧
      redo snap.documents [c] = s.documents) ∧
    ∃ w p, World.Run World.noDigest World.noChecksum true Heard w ∧ w.process = some p ∧
      ∃ snap c d, p.snapshotAt w.media 0 = .ok snap ∧
        (∀ key, snap.get key = (∅ : Documents)[key]?) ∧
        p.memory.changesSince 0 = .ok [c, d] ∧ redo ∅ [c, d] = documentsOf w.acked := by
  constructor
  · have hone : ((new ⟨1000, 1000000⟩).commit (.ofSeconds 1) [.create exampleKey .sample]).any
        (fun reply => reply.toOption.any fun r => decide (r.2.changeFloor = 0) &&
          (r.2.changesSince 0).toOption.any (·.length == 1)) = true := by decide +kernel
    simp only [Option.any_eq_true, toOption_eq_some, Bool.and_eq_true, decide_eq_true_eq,
      beq_iff_eq] at hone
    obtain ⟨_, hs, ⟨result, s⟩, rfl, hfl, changes, hch, hlen⟩ := hone
    obtain ⟨c, rfl⟩ := length_eq_one_iff.mp hlen
    have hhr : State.Run.Heard (new ⟨1000, 1000000⟩) (.ofSeconds 1) [.create exampleKey .sample] :=
      heard_create ..
    have run := State.Run.start.commit hhr hs
    obtain ⟨m, -, -, snap, changes, hsnp, -, -, -, hsn, hrd⟩ :=
      ((two_way_delta _ World.noDigest World.noChecksum true).1 _ _ run).1 0 hfl.le (Nat.zero_le _)
    obtain rfl := Except.ok.inj (hch.symm.trans hsn)
    exact ⟨_, s, run, snap, c, hsnp, hch, hrd⟩
  · have htwo : (World.served World.writeBehind World.twoCreated).any (fun w => w.process.any
        fun p => !p.requiresRestart && p.bulk.isNone && decide (p.memory.changeFloor = 0) &&
          (p.memory.changesSince 0).toOption.any (·.length == 2)) = true := by decide +kernel
    simp only [Option.any_eq_true, toOption_eq_some, Bool.and_eq_true, Bool.not_eq_true',
      isNone_iff_eq_none, decide_eq_true_eq, beq_iff_eq] at htwo
    obtain ⟨w, hw, p, hp, ⟨⟨hsr, hid⟩, hfl⟩, changes, hch, hlen⟩ := htwo
    obtain ⟨c, d, rfl⟩ := length_eq_two.mp hlen
    have run := World.run_served heard_twoCreated hw
    obtain ⟨-, snap, changes, hsnp, hget, hsn, hrd⟩ :=
      ((two_way_delta ⟨1000, 1000000⟩ _ _ _).2 _ _ run hp hsr hid).1 0 hfl.le (Nat.zero_le _)
    obtain rfl := Except.ok.inj (hch.symm.trans hsn)
    exact ⟨w, p, run, hp, snap, c, d, hsnp, hget, hch, hrd⟩

/-! ### A silent write -/

def patchDouble (bits : UInt64) : Write :=
  .patch otherKey (.ofBits bits) [⟨[exampleField], by decide⟩] [] .none

/-- One commit writes zero and then minus zero. -/
def zeroThenNegativeZero : List Write := [patchDouble 0, patchDouble 0x8000000000000000]

/-- **The log of a commit with a silent write does not lead to the documents it left.** -/
theorem delta_lost : ∃ result s,
    (new ⟨1000, 1000000⟩).commit lastReading zeroThenNegativeZero = some (.ok (result, s)) ∧
    ∃ snap changes, s.snapshotAtRevision 0 = .ok snap ∧ s.changesSince 0 = .ok changes ∧
      redo snap.documents changes ≠ s.documents := by
  have hls : ((new ⟨1000, 1000000⟩).commit lastReading zeroThenNegativeZero).any
      (fun reply => reply.toOption.any fun r =>
        (r.2.snapshotAtRevision 0).toOption.any fun snap =>
          (r.2.changesSince 0).toOption.any fun changes =>
            decide ((redo snap.documents changes)[otherKey]? ≠ r.2.documents[otherKey]?)) =
      true := by decide +kernel
  obtain ⟨reply, hrep, h⟩ := (any_eq_true _ _).mp hls
  obtain ⟨⟨result, s⟩, hs, h⟩ := (any_eq_true _ _).mp h
  obtain ⟨snap, hsnp, h⟩ := (any_eq_true _ _).mp h
  obtain ⟨changes, hch, hne⟩ := (any_eq_true _ _).mp h
  rw [toOption_eq_some] at hs hsnp hch
  subst hs
  refine ⟨result, s, hrep, snap, changes, hsnp, hch, fun heq => ?_⟩
  exact of_decide_eq_true hne (congrArg (·[otherKey]?) heq)

end Disk

end Firenook
