import Firenook.Disk.Delta

/-!
# Recovery — reopening a store after a crash

Whatever a run did before the process went down, an open that returns stands at the acknowledged
records, or at those and the ones that were in flight (`openStore_meets`). The records are those of
the requests in the ledger, and lead to what the requests write unless a write is silent
(`reversible_requested`). Whether the open returns is another question: replay refuses a journal
whose commit times do not increase, and writing the field index fails when its 32-bit prefix ids run
out.

* **`reopen_recovers`**: if no write is silent, no commit was made with the clock's range exhausted,
  and the records write fewer field names than there are prefix ids, the open returns what the
  acknowledged requests lead to.
* `reopen_refused`: with two commits in the last microsecond of the clock's range, both
  acknowledged, it does not return.
-/

namespace Firenook.Disk

open List Option Fallible Crash ChangeLog
open State (Moment)

variable {fieldIndexes : Bool} {t : Tables} {docs : Documents} {r : WalRecord}
  {options : DiskOptions}

section

variable {sha : Sha256} {crc : List UInt8 → UInt32}
  {h acked inFlight : List WalRecord} {media : Media}

/-- No record was committed with the clock's range exhausted. -/
def InRange (h : List WalRecord) : Prop :=
  ∀ past r, past ++ [r] <+: h → ¬(lastTime past).Exhausted

theorem InRange.of_isPrefix {h' : List WalRecord} (hr : InRange h') (hpre : h <+: h') : InRange h :=
  fun past r hps => hr past r (hps.trans hpre)

theorem inRange_iff : InRange h ↔ ∀ n < h.length, ¬(lastTime (h.take n)).Exhausted := by
  constructor
  · intro hr n hn
    refine hr (h.take n) (h.get ⟨n, hn⟩) ?_
    rw [get_eq_getElem, take_append_getElem hn]
    exact take_prefix _ _
  · intro hr past r hpre
    have hlen := hpre.length_le
    rw [length_append] at hlen
    have hps := hr past.length hlen
    rwa [← prefix_iff_eq_take.mp ((prefix_append past [r]).trans hpre)] at hps

instance (h : List WalRecord) : Decidable (InRange h) := decidable_of_iff _ inRange_iff.symm

instance (ms : List Mutation) : Decidable (FewNames ms) := inferInstanceAs (Decidable (_ < _))

/-! ### Replay returns -/

theorem usageAfterRecord_returns (hrep : Represents t docs)
    (hstb : ∀ m ∈ r.mutations, Storable m) (usage : LogicalMemoryUsage) :
    ∃ after, usageAfterRecord t usage r = .ok after := by
  unfold usageAfterRecord
  generalize r.mutations = ms at hstb
  induction ms generalizing usage with
  | nil => exact ⟨_, rfl⟩
  | cons m ms ih =>
    obtain ⟨key, hkey⟩ := (hstb m mem_cons_self).key
    have hone : ∃ after, usageAfterMutation t usage m = .ok after := by
      rw [usageAfterMutation, hkey, ok_bind]
      cases hd : docs[m.key]? with
      | none =>
        rw [hrep.lookup_none hkey hd]
        exact ⟨_, rfl⟩
      | some d =>
        obtain ⟨v, hv, hstd⟩ := hrep.lookup_some hkey hd
        rw [hv]
        exact ⟨_, bind_eq_ok.mpr ⟨d, coded_eq_ok.mpr (decodeStoredDocument_encode hstd), rfl⟩⟩
    obtain ⟨after, haft⟩ := hone
    rw [foldlM_cons, haft]
    exact ih after fun x hx => hstb x (mem_cons_of_mem _ hx)

section

variable (hh : Chronicle h) (hrange : InRange h)

include hh hrange

/-- The checks replay makes on the next record of a chronicle within the clock's range. -/
theorem checkRecord_returns {k : Nat} (hk : h[k]? = some r) :
    checkRecord ⟨k, lastTime (h.take k)⟩ r = .ok () := by
  obtain ⟨hlt, -⟩ := List.getElem?_eq_some_iff.mp hk
  have hbd := hh.bounded
  have hpre : h.take k ++ [r] <+: h := by
    have htk : h.take (k + 1) = h.take k ++ [r] := by rw [take_add_one, hk]; rfl
    exact htk ▸ take_prefix (k + 1) h
  have hlat := hh.ticking _ _ hpre (hrange _ _ hpre)
  have hgt : ¬(compare r.commitTime (lastTime (h.take k))).isLE = true := by
    rw [Std.OrientedCmp.gt_of_lt hlat]
    decide
  have hrm : k + 1 < 2 ^ 64 := by omega
  rw [checkRecord, if_neg (not_not.mpr hrm), if_neg (not_not.mpr (hh.numbered k r hk)), if_neg hgt]

theorem replayRecord_returns (hnms : FewNames (mutationsOf h)) {k : Nat}
    (hr : Replaying sha crc h k fieldIndexes t media) (hk : h[k]? = some r)
    (hstb : ∀ m ∈ r.mutations, Storable m) (usage : Option LogicalMemoryUsage) :
    ∃ p, replayRecord sha fieldIndexes t usage r = .ok p := by
  have hste : loadPersistedState t = ⟨k, lastTime (h.take k)⟩ := by
    rw [hr.stores.state, length_take_of_le hr.reached]
  have husg : ∃ usage', replayUsage t usage r = .ok usage' := by
    cases usage with
    | none => exact ⟨none, rfl⟩
    | some before =>
      obtain ⟨after, haft⟩ :=
        usageAfterRecord_returns hr.stores.represents hstb before
      exact ⟨some after, bind_eq_ok.mpr ⟨after, haft, rfl⟩⟩
  obtain ⟨usage', husg⟩ := husg
  have hmb : r ∈ h := mem_of_getElem? hk
  have hfew : FewNames (mutationsOf (h.take k) ++ r.mutations) := by
    refine hnms.of_subset fun m hm => ?_
    rcases mem_append.mp hm with hm | hm
    · exact (mutationsOf_isPrefix <| take_prefix k h).subset hm
    · exact mem_flatMap.mpr ⟨r, hmb, hm⟩
  obtain ⟨mid, hmid⟩ := Contents.mutations_returns fieldIndexes hr.stores.contents hstb hfew
  refine ⟨_, bind_eq_ok.mpr ⟨(), ?_, bind_eq_ok.mpr ⟨usage', husg, bind_eq_ok.mpr
    ⟨_, bind_eq_ok.mpr ⟨mid, hmid, rfl⟩, rfl⟩⟩⟩⟩
  rw [hste]
  exact checkRecord_returns hh hrange hk

theorem replayLoop_returns (hnms : FewNames (mutationsOf h)) {records old : List WalRecord} {k : Nat}
    {t : Tables} {usage : Option LogicalMemoryUsage} {media : Media}
    (hrc : records = old ++ h.drop k) (hold : ∀ r ∈ old, r.revision ≤ k)
    (hstb : ∀ r ∈ h.drop k, ∀ m ∈ r.mutations, Storable m)
    (hr : Replaying sha crc h k fieldIndexes t media) :
    ∃ t', (replayLoop sha fieldIndexes t usage records).result = .ok t' := by
  induction records generalizing old k t usage media with
  | nil => exact ⟨_, rfl⟩
  | cons r records ih =>
    rw [replayLoop, hr.revision]
    cases old with
    | cons first old =>
      obtain ⟨rfl, hrs⟩ := cons.inj hrc
      rw [if_pos (hold r mem_cons_self)]
      exact ih hrs (fun q hq => hold q (mem_cons_of_mem _ hq)) hstb hr
    | nil =>
      have hdr : h.drop k = r :: records := hrc.symm
      have hk : h[k]? = some r := by rw [← head?_drop, hdr, head?_cons]
      have htl : records = [] ++ h.drop (k + 1) := by
        rw [nil_append, ← tail_drop, hdr, tail_cons]
      obtain ⟨⟨t', usage'⟩, hp⟩ := replayRecord_returns hh hrange hnms hr hk
        (hstb r (hdr ▸ mem_cons_self)) usage
      rw [if_neg (by rw [hh.numbered k r hk]; omega), Script.result_bind hp]
      refine ih htl (by simp) (fun q hq => hstb q ?_) (hr.record hh hk hp)
      rw [hdr, htl]
      exact mem_cons_of_mem _ hq

end

/-! ### An open returns -/

theorem recoverJournal_returns (hjr : options.journal = true)
    (hh : Chronicle (acked ++ inFlight)) (hrange : InRange (acked ++ inFlight))
    (hnms : FewNames (mutationsOf (acked ++ inFlight)))
    (hr : Recovers sha crc true acked inFlight media) (hdw : media.tables = media.durable) :
    ∃ t, (recoverJournal sha crc options media).result = .ok t := by
  obtain ⟨h, torn, hfd, m, hm, hs, hj⟩ := hr
  have hchr := hh.of_isPrefix hfd.sub
  obtain ⟨old, n, hrd, hold, hstb, htrm⟩ := (hj rfl).read hm hchr
  have hrc : (openJournal crc media.journal).result = .ok (old ++ h.drop m) := by
    rw [openJournal, Script.result_bind hrd, Script.result_bind rfl]
    rfl
  have hbeg : Replaying sha crc h m
      (options.fieldIndexes && fieldIndexValid media.tables) media.tables
      { media with journal := media.journal.take n } :=
    ⟨rfl, hdw.symm, hm, hdw ▸ hs, htrm, fun hfi => (Bool.and_eq_true_iff.mp hfi).2⟩
  obtain ⟨t, ht⟩ : ∃ t, (replayRecords sha (options.fieldIndexes && fieldIndexValid media.tables)
      media.tables (old ++ h.drop m)).result = .ok t :=
    replayLoop_returns hchr (hrange.of_isPrefix hfd.sub)
      (hnms.of_subset (mutationsOf_isPrefix hfd.sub).subset) rfl hold hstb hbeg
  refine ⟨t, ?_⟩
  rw [recoverJournal, if_pos hjr, Script.result_bind hrc, Script.result_bind ht]
  rfl

theorem recoverIndex_returns (options : DiskOptions) (indexValid : Bool) (hs : Stores sha t h)
    (hnms : FewNames (mutationsOf h)) :
    ∃ p, (recoverIndex sha options indexValid t).result = .ok p := by
  unfold recoverIndex
  split
  · obtain ⟨p, hp⟩ := hs.contents.rebuild_returns hnms
    rw [Script.result_bind hp]
    exact ⟨_, rfl⟩
  · exact ⟨_, rfl⟩

theorem foldlM_countEntry_returns {rest : List (List UInt8 × List UInt8)}
    (hstd : ∀ x ∈ rest, ∃ (k : DocumentKey) (d : Document), docs[k]? = some d ∧
      encodeDocumentKey k = .ok x.1 ∧ encodeStoredDocument d = .ok x.2) :
    ∀ usage, ∃ counted, rest.foldlM countEntry usage = .ok counted := by
  induction rest with
  | nil => exact fun usage => ⟨usage, rfl⟩
  | cons x rest ih =>
    intro usage
    obtain ⟨k, d, -, hkey, hval⟩ := hstd x mem_cons_self
    have hone : countEntry usage x = .ok (usage.addEntry k (some d)) :=
      bind_eq_ok.mpr ⟨_, decodeStored_encode hkey hval, rfl⟩
    rw [foldlM_cons, hone]
    exact ih (fun y hy => hstd y (mem_cons_of_mem _ hy)) _

theorem loadDatabase_returns (hs : Stores sha t h) {counted : Option LogicalMemoryUsage}
    (hcn : h = [] → ∀ c, counted = some c → c.entries = 0) :
    ∃ p, loadDatabase t counted = .ok p := by
  have hfig : ∃ usage recounted, documentFigures t counted = .ok (usage, recounted) ∧
      (t.state = none → usage.entries = 0) := by
    unfold documentFigures
    split
    · next c => exact ⟨c, true, rfl, fun hnn => hcn (hs.fresh hnn) c rfl⟩
    · next saved hsav =>
      refine ⟨saved, false, rfl, fun hnn => ?_⟩
      rw [hnn] at hsav
      cases hsav
    · obtain ⟨usage, husg⟩ := foldlM_countEntry_returns hs.represents.unread.stored .zero
      refine ⟨usage, true, bind_eq_ok.mpr ⟨usage, husg, rfl⟩, fun hnn => ?_⟩
      obtain rfl := hs.fresh hnn
      rw [hs.toList_of_nil] at husg
      obtain rfl := Except.ok.inj husg
      rfl
  obtain ⟨usage, recounted, hfig, hzr⟩ := hfig
  rw [loadDatabase, hfig]
  cases hste : t.state with
  | some state => exact ⟨_, rfl⟩
  | none => exact ⟨_, if_pos (hzr hste)⟩

/-- **An open returns** when replay and the field index cannot fail. -/
theorem openStore_returns (hjr : options.journal = true) (hh : Chronicle (acked ++ inFlight))
    (hrange : InRange (acked ++ inFlight)) (hnms : FewNames (mutationsOf (acked ++ inFlight)))
    (hr : Recovers sha crc true acked inFlight media) (hdw : media.tables = media.durable) :
    ∃ p, (openStore sha crc options media).result = .ok p := by
  obtain ⟨t, ht⟩ := recoverJournal_returns hjr hh hrange hnms hr hdw
  obtain ⟨h, hfd, ho, hvld⟩ :=
    (recoverJournal_meets hjr hh hr hdw).post t ht
  have hfew := hnms.of_subset (mutationsOf_isPrefix hfd.sub).subset
  obtain ⟨⟨t', counted⟩, hidx⟩ := recoverIndex_returns options
    (fieldIndexValid media.tables) ho.stores hfew
  obtain ⟨ho', -, hcn⟩ := (recoverIndex_meets ho hvld).post _ hidx
  obtain ⟨⟨state, usage, recounted⟩, hld⟩ := loadDatabase_returns ho'.stores hcn
  rw [openStore, Script.result_bind rfl, Script.result_bind ht, Script.result_bind hidx,
    Script.result_bind hld]
  exact ⟨_, rfl⟩

/-! ### What was asked for -/

def writeAll (time : Timestamp) (documents : Documents) (writes : List Write) :
    Except CommitError Documents :=
  writes.foldlM (fun documents write => do
    let (key, next) ← applyWrite documents time write
    return put documents key next) documents

/-- A request is applied whole, at the clock's reading or right after the request before it. -/
def applyRequest (m : Moment) (request : Request) : Except CommitError Moment := do
  let time := if compare request.1.observed m.point.commitTime = .gt then request.1.observed
    else m.point.commitTime.saturatingNextMicrosecond
  let docs ← writeAll time m.documents request.2
  return ⟨⟨m.point.revision + 1, time⟩, docs⟩

/-- **What requests lead to**, applied one after another from nothing. -/
def requested (requests : List Request) : Except CommitError Moment :=
  requests.foldlM applyRequest ⟨⟨0, .zero⟩, ∅⟩

theorem writeAll_of_plans {rev : Nat} {time : Timestamp} {final : Documents}
    {writes : List Write} {changes : List Change}
    (h : Plans rev time final docs writes changes) :
    writeAll time docs writes = .ok final := by
  induction h with
  | nil => rfl
  | cons hwr _ ih =>
    rw [writeAll, foldlM_cons, hwr]
    exact ih

/-- Without a silent write a record leads to what its request writes. -/
theorem applyRequest_planned {memory : State} {now : Elapsed} {writes : List Write}
    {plan : CommitPlan} (hpn : Planned memory h now writes plan)
    (hhr : Heard (logicalAt memory h) now writes) :
    applyRequest (momentOf h) (now, writes) = .ok (momentOf (h ++ [.fromPlan plan])) := by
  obtain ⟨final, hwrs⟩ := hpn.writes
  have hpl := plans hwrs
  have hnx : memory.nextCommitTime now =
      if compare now.observed (lastTime h) = .gt then now.observed
      else (lastTime h).saturatingNextMicrosecond := by rw [← hpn.time]; rfl
  have hwr := writeAll_of_plans hpl
  rw [hnx] at hwr
  rw [applyRequest, momentOf, hwr]
  refine congrArg Except.ok ?_
  rw [momentOf, documentsOf_concat, (hpl.delta hhr).2, lastTime_concat, length_append,
    WalRecord.fromPlan, hpn.result, ← hnx]
  rfl

/-- The requests lead, one by one, to what the records lead to. -/
def Follows (requests : List Request) (h : List WalRecord) : Prop :=
  requests.length = h.length ∧ ∀ n, requested (requests.take n) = .ok (momentOf (h.take n))

theorem Follows.requested {requests : List Request} (hf : Follows requests h) :
    requested requests = .ok (momentOf h) := by
  have hall := hf.2 h.length
  rwa [take_length, ← hf.1, take_length] at hall

theorem reversible_requested : Reversible Heard Follows where
  nil := ⟨rfl, fun n => by rw [take_nil, take_nil]; rfl⟩
  sub {requests g h} hg hf := by
    refine ⟨by rw [length_take, hf.1, Nat.min_eq_left hg.length_le], fun n => ?_⟩
    rw [take_take, hf.2, prefix_iff_eq_take.mp hg, take_take, length_take,
      Nat.min_eq_left hg.length_le]
  concat {requests memory h now writes plan} hf hpl ok := by
    refine ⟨by rw [length_append, length_append, hf.1]; rfl, fun n => ?_⟩
    by_cases hn : n ≤ h.length
    · rw [take_append_of_le_length (hf.1 ▸ hn), take_append_of_le_length hn, hf.2]
    · have hlen : h.length + 1 ≤ n := by omega
      rw [take_of_length_le (by simpa [hf.1] using hlen), take_of_length_le (by simpa using hlen),
        Disk.requested, foldlM_append, ← Disk.requested, hf.requested]
      exact (bind_pure _).trans (applyRequest_planned hpl ok)
  undo _ hpl ok := @reversible_heard.undo [] _ _ _ _ _ trivial hpl ok

/-! ### Reopening -/

namespace World

variable {w : World}

/-- **Reopening after any run** yields exactly the documents, revision and time that the acknowledged
requests lead to, or those and the ones of the operation that was in flight. -/
theorem reopen_recovers (run : Run sha crc true Heard w) (hdown : w.process = none)
    (hrange : InRange w.history) (hnames : FewNames (mutationsOf w.history)) (options : DiskOptions)
    (hjournal : options.journal = true) :
    ∃ requests m p, (requests = w.ledger.acked ∨ requests = w.ledger.acked ++ w.ledger.inFlight) ∧
      requested requests = .ok m ∧
      (openStore sha crc options w.media).result = .ok p ∧
      p.memory.revision = m.point.revision ∧ p.memory.lastCommitTime = m.point.commitTime ∧
      Represents (disk.perform (openStore sha crc options w.media).effects w.media).tables
        m.documents := by
  have hi := run.inv
  obtain ⟨p, hp⟩ := openStore_returns hjournal hi.chronicle hrange hnames hi.recovers (hi.down hdown)
  obtain ⟨h, t, hfd, ho, -, usage, rfl⟩ :=
    (openStore_meets hjournal hi.chronicle hi.recovers (hi.down hdown)).post p hp
  have hm := run.recorded reversible_requested
  obtain rfl | rfl := hfd.full rfl
  · exact ⟨_, _, _, .inl rfl, hm.settled.requested, hp, rfl, rfl, ho.tables ▸ ho.stores.represents⟩
  · exact ⟨_, _, _, .inr rfl, hm.history.requested, hp, rfl, rfl, ho.tables ▸ ho.stores.represents⟩

end World

end

/-! ### Two runs -/

namespace World

theorem reopen_recovers_sample : ∃ w, Run noDigest noChecksum true Heard w ∧
    w.ledger.acked.length = 2 ∧ ∃ requests m p,
      (requests = w.ledger.acked ∨ requests = w.ledger.acked ++ w.ledger.inFlight) ∧
      requested requests = .ok m ∧
      (openStore noDigest noChecksum writeBehind w.media).result = .ok p ∧
      p.memory.revision = m.point.revision ∧ p.memory.lastCommitTime = m.point.commitTime ∧
      Represents
        (disk.perform (openStore noDigest noChecksum writeBehind w.media).effects w.media).tables
        m.documents := by
  have hsmp : ((crashedAfter writeBehind twoCreated).any fun w => w.process.isNone &&
      w.ledger.acked.length == 2 && decide (InRange w.history) &&
      decide (FewNames (mutationsOf w.history))) = true := by decide +kernel
  obtain ⟨w, hw, h⟩ := (any_eq_true _ _).mp hsmp
  simp only [Bool.and_eq_true, isNone_iff_eq_none, beq_iff_eq, decide_eq_true_eq] at h
  obtain ⟨⟨⟨hdw, hack⟩, hrange⟩, hnms⟩ := h
  have run := run_crashedAfter heard_twoCreated hw
  exact ⟨w, run, hack, reopen_recovers run hdw hrange hnms writeBehind rfl⟩

/-- The last reading of a clock that counts seconds in 64 signed bits. -/
def finalReading : Elapsed := ⟨0x7FFFFFFFFFFFFFFF, 999999, Elapsed.lastMicro⟩

def lateCommits : List (Elapsed × List Write) := [(finalReading, []), (finalReading, [])]

/-- **A store can refuse to open.** At the end of the clock's range the microseconds start over, so
the second commit is dated before the first one, and the replay takes the journal for damaged. -/
theorem reopen_refused : ∃ w, Run noDigest noChecksum true (fun _ _ _ => True) w ∧
    w.process = none ∧ w.inFlight = [] ∧ w.acked.length = 2 ∧
      (openStore noDigest noChecksum writeBehind w.media).result.map (fun _ => ())
        = .error (.corrupt "journal commit timestamps are not strictly increasing") := by
  have hlt : ((crashedAfter writeBehind lateCommits).any fun w => w.process.isNone &&
      w.inFlight.isEmpty && w.acked.length == 2 &&
      decide ((openStore noDigest noChecksum writeBehind w.media).result.map (fun _ => ())
        = .error (.corrupt "journal commit timestamps are not strictly increasing"))) = true := by
    decide +kernel
  obtain ⟨w, hw, h⟩ := (any_eq_true _ _).mp hlt
  simp only [Bool.and_eq_true, isNone_iff_eq_none, List.isEmpty_iff, beq_iff_eq,
    decide_eq_true_eq] at h
  obtain ⟨⟨⟨hdw, hfl⟩, hack⟩, hrfs⟩ := h
  exact ⟨w, run_crashedAfter (fun _ _ _ => trivial) hw, hdw, hfl, hack, hrfs⟩

end World

end Firenook.Disk
