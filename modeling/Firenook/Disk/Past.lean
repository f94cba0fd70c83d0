import Firenook.Disk.Opening

/-!
# Past — what a disk store remembers of its history

While a process serves, its memory holds the changes and commit times since the open, or the newest
of them. Along every run the memory and the history of records fit together (`World.Run.recorded`):
the commits since the open are those of the history, numbered and timed as it says, and taking the
retained changes back from the documents on disk gives the documents of an earlier record. The
argument is shared by two restrictions on runs, and asks of each what `Reversible` says.
-/

namespace Firenook.Disk

open List Process ChangeLog State

variable {opened : Nat} {h : List WalRecord} {writes : List Write} {s : BulkCommit}
  {o : Outcome Unit} {now : Elapsed} {l : Ledger} {call : Call}

/-! ### Moments of a history -/

/-- The commit a history stands at. -/
def momentOf (h : List WalRecord) : Moment := ⟨⟨h.length, lastTime h⟩, documentsOf h⟩

/-- The moments of a history from the one with `opened` records on, without the last. -/
def pastFrom (opened : Nat) (h : List WalRecord) : List Moment :=
  (range' opened (h.length - opened)).map fun n => momentOf (h.take n)

theorem pastFrom_self (h : List WalRecord) : pastFrom h.length h = [] := by simp [pastFrom]

theorem pastFrom_concat (hle : opened ≤ h.length) (r : WalRecord) :
    pastFrom opened (h ++ [r]) = pastFrom opened h ++ [momentOf h] := by
  have hlen : (h ++ [r]).length - opened = (h.length - opened) + 1 := by
    rw [length_append, length_singleton]
    omega
  rw [pastFrom, hlen, range'_concat, map_append, map_singleton]
  congr 1
  · refine map_congr_left fun n hn => ?_
    rw [mem_range'_1] at hn
    rw [take_append_of_le_length (by omega)]
  · have hlast : opened + 1 * (h.length - opened) = h.length := by omega
    rw [hlast, take_left]

/-- A moment of the past is that of some shorter history. -/
theorem mem_pastFrom (hle : opened ≤ h.length) {m : Moment} :
    m ∈ pastFrom opened h ++ [momentOf h] ↔
      ∃ n, opened ≤ n ∧ n ≤ h.length ∧ m = momentOf (h.take n) := by
  rw [mem_append, mem_singleton, pastFrom, mem_map]
  constructor
  · rintro (⟨n, hn, rfl⟩ | rfl)
    · rw [mem_range'_1] at hn
      exact ⟨n, hn.1, by omega, rfl⟩
    · exact ⟨h.length, hle, Nat.le_refl _, by rw [take_length]⟩
  · rintro ⟨n, hn, hn', rfl⟩
    rcases hn'.eq_or_lt with rfl | hlt
    · exact .inr (by rw [take_length])
    · exact .inl ⟨n, mem_range'_1.mpr ⟨hn, by omega⟩, rfl⟩

theorem revision_momentOf_take {n : Nat} (hn : n ≤ h.length) :
    (momentOf (h.take n)).point.revision = n :=
  (length_take).trans (Nat.min_eq_left hn)

/-- The moments since an open are the newest of all. -/
theorem pastFrom_split (hle : opened ≤ h.length) :
    pastFrom 0 h = ((range' 0 opened).map fun n => momentOf (h.take n)) ++ pastFrom opened h := by
  rw [pastFrom, pastFrom, ← map_append]
  congr 1
  have happ := @List.range'_append_1 0 opened (h.length - opened)
  rw [Nat.zero_add, Nat.add_sub_cancel' hle] at happ
  exact happ.symm

theorem documentsOf_concat (h : List WalRecord) (plan : CommitPlan) :
    documentsOf (h ++ [WalRecord.fromPlan plan]) = redo (documentsOf h) plan.changes := by
  rw [documentsOf, mutationsOf_append, mutationsOf_singleton, mutate, foldl_append]
  exact mutate_fromPlan (documentsOf h) plan

/-! ### Planned commits -/

/-- The commit was planned on the documents of the history. -/
structure Planned (memory : State) (h : List WalRecord) (now : Elapsed) (writes : List Write)
    (plan : CommitPlan) : Prop where
  revision : memory.revision = h.length
  time : memory.lastCommitTime = lastTime h
  result : plan.result = ⟨memory.revision + 1, memory.nextCommitTime now⟩
  writes : ∃ final, planWrites (memory.revision + 1) (memory.nextCommitTime now) (documentsOf h)
    writes = .ok (final, plan.changes)

theorem planned {memory : State} {t : Tables} {loaded : Documents}
    {plan : CommitPlan} (hrep : Represents t (documentsOf h))
    (hrvs : memory.revision = h.length) (htm : memory.lastCommitTime = lastTime h)
    (hld : loadWriteDocuments t writes = .ok loaded)
    (hpl : memory.planWithDocuments now writes loaded = .ok plan) :
    Planned memory h now writes plan := by
  obtain ⟨hres, -, hwrs⟩ := planWithDocuments_eq_ok hpl
  refine ⟨hrvs, htm, hres, ?_⟩
  exact planWrites_congr (loadWriteDocuments_eq_ok hrep hld) hwrs

/-- The state a commit is planned on. -/
def logicalAt (memory : State) (h : List WalRecord) : State :=
  { memory with documents := documentsOf h }

/-- A restriction on commits under which every commit can be taken back. `holds` is what it
guarantees of the histories it lets grow, and of the requests they come from. -/
structure Reversible (permitted : State → Elapsed → List Write → Prop)
    (holds : List Request → List WalRecord → Prop) : Prop where
  nil : holds [] []
  sub : ∀ {requests g h}, g <+: h → holds requests h → holds (requests.take g.length) g
  concat : ∀ {requests memory h now writes plan}, holds requests h →
    Planned memory h now writes plan → permitted (logicalAt memory h) now writes →
    holds (requests ++ [(now, writes)]) (h ++ [WalRecord.fromPlan plan])
  undo : ∀ {requests memory h now writes plan}, holds requests h →
    Planned memory h now writes plan → permitted (logicalAt memory h) now writes →
    undo (redo (documentsOf h) plan.changes) plan.changes = documentsOf h

/-! ### The memory of a session -/

/-- The memory of a process, and the history since it was opened. -/
structure Session (opened : Nat) (h : List WalRecord) (memory : State) : Prop where
  le : opened ≤ h.length
  numbered : Numbered memory (pastFrom opened h) (momentOf h)
  bounded : memory.Bounded
  timeline : Timeline memory (pastFrom opened h) (momentOf h)
  undoes : Undoes memory (pastFrom opened h) (momentOf h)
  redoes : Redoes memory (pastFrom opened h) (momentOf h)

theorem Session.start (options : StoreOptions) (h : List WalRecord) (usage : LogicalMemoryUsage) :
    Session h.length h (.fromPersisted options h.length (lastTime h) ∅ usage) where
  le := Nat.le_refl _
  numbered := by
    rw [pastFrom_self]
    exact Numbered.start (fromPersisted options h.length (lastTime h) ∅ usage) rfl (documentsOf h)
  bounded := ⟨nofun, Nat.le_refl _⟩
  timeline := by
    rw [pastFrom_self]
    exact Timeline.start (fromPersisted options h.length (lastTime h) ∅ usage) rfl rfl rfl
      (documentsOf h)
  undoes := by
    rw [pastFrom_self]
    exact undoes_start rfl
  redoes := by
    rw [pastFrom_self]
    exact redoes_start rfl

/-- A commit that can be taken back continues the session. -/
theorem Session.commit {memory memory' : State} {plan : CommitPlan} (hs : Session opened h memory)
    (hst : Installs memory plan.result plan.changes memory')
    (hun : undo (redo (documentsOf h) plan.changes) plan.changes = documentsOf h) :
    Session opened (h ++ [WalRecord.fromPlan plan]) memory' := by
  have hlen : plan.result.revision = h.length + 1 := by
    have hlast : h.length = memory.revision := congrArg CommitPoint.revision hs.numbered.last
    rw [hst.next, hlast]
  have hmom : momentOf (h ++ [WalRecord.fromPlan plan]) =
      ⟨plan.result, redo (documentsOf h) plan.changes⟩ := by
    rw [momentOf, documentsOf_concat, lastTime_concat, length_append, length_singleton, ← hlen]
    rfl
  constructor
  · rw [length_append]
    exact hs.le.trans (Nat.le_add_right _ _)
  · rw [pastFrom_concat hs.le, hmom]
    exact hs.numbered.installs hst _
  · exact hs.bounded.installs hst
  · rw [pastFrom_concat hs.le, hmom]
    exact hs.timeline.installs hs.numbered hs.bounded hst _
  · rw [pastFrom_concat hs.le, hmom]
    exact hs.undoes.installs hs.numbered hs.bounded hst hun
  · rw [pastFrom_concat hs.le, hmom]
    exact hs.redoes.installs hs.numbered hs.bounded hst rfl

/-! ### Runs -/

/-- What a serving process remembers of the acknowledged records and the load it is in. -/
structure Recorded (holds : List Request → List WalRecord → Prop) (l : Ledger)
    (acked : List WalRecord) (p : Process) : Prop where
  landed : l.inFlight = []
  settled : holds l.acked acked
  length : l.loading.length = p.loading.length
  holds : holds (l.acked ++ l.loading) (acked ++ p.loading)
  session : ∃ opened, Session opened (acked ++ p.loading) p.memory

/-- What an operation of a serving process leaves. -/
structure Continues (holds : List Request → List WalRecord → Prop) (l : Ledger)
    (acked : List WalRecord) (call : Call) (o : Outcome Unit) : Prop where
  records : (o.records = [] ∧ ∃ e, o.reply = .error e) ∨
    holds (l.acked ++ l.made call) (acked ++ o.records)
  process : o.process.requiresRestart = false →
    Recorded holds (l.settle call o) (match o.reply with
      | .ok _ => acked ++ o.records
      | .error _ => acked) o.process

section Same
variable {holds : List Request → List WalRecord → Prop} {acked : List WalRecord} {p p' : Process}
  {α : Type}

theorem Recorded.same (hr : Recorded holds l acked p) (hmry : p'.memory = p.memory)
    (hld : p'.loading = p.loading) : Recorded holds l acked p' :=
  ⟨hr.landed, hr.settled, hld ▸ hr.length, hld ▸ hr.holds, by rw [hmry, hld]; exact hr.session⟩

theorem Recorded.loading_nil (hr : Recorded holds l acked p) (hld : p.loading = []) :
    l.loading = [] :=
  eq_nil_of_length_eq_zero (hr.length.trans (congrArg List.length hld))

theorem Recorded.of_idle (idle : p.bulk = none) (hlnd : l.inFlight = []) (hlo : l.loading = [])
    (hhol : holds l.acked acked) (hses : Session opened acked p.memory) :
    Recorded holds l acked p := by
  have hld := World.loading_of_idle idle
  refine ⟨hlnd, hhol, by rw [hlo, hld]; rfl, ?_, opened, ?_⟩
  · rwa [hlo, hld, append_nil, append_nil]
  · rwa [hld, append_nil]

/-- An operation that is refused. -/
theorem Recorded.refused (hr : Recorded holds l acked p') (e : DiskError) :
    Continues holds l acked call (p'.answer (.error e : Except DiskError α)).ack :=
  ⟨.inl ⟨rfl, e, rfl⟩, fun _ => hr⟩

/-- An operation that only replies, and adds nothing for good. -/
theorem Recorded.answered (hmd : l.made call = [])
    (hr : Recorded holds ⟨l.acked, l.load call, l.inFlight⟩ acked p') (r : α) :
    Continues holds l acked call (p'.answer (.ok r)).ack where
  records := .inr (by rw [hmd]; exact (append_nil _).symm ▸ (append_nil _).symm ▸ hr.settled)
  process _ := by
    change Recorded holds ⟨l.acked ++ l.made call, _, _⟩ (acked ++ []) p'
    rwa [hmd, append_nil, append_nil]

/-- An operation that fences the process. -/
theorem continues_fenced (hrc : (o.records = [] ∧ ∃ e, o.reply = .error e) ∨
      holds (l.acked ++ l.made call) (acked ++ o.records))
    (hfn : o.process.requiresRestart = true) : Continues holds l acked call o :=
  ⟨hrc, fun h => absurd (hfn.symm.trans h) (by simp)⟩

theorem Ledger.acked_cut (l : Ledger) (call : Call) (records : List WalRecord) :
    (l.cut call records).acked = l.acked := by
  cases records <;> rfl

/-- The records of an operation without a reply or with an error, and what was asked for. -/
theorem Continues.cut (hr : Recorded holds l h p) (hc : Continues holds l h call o) :
    holds ((l.cut call o.records).acked ++ (l.cut call o.records).inFlight) (h ++ o.records) := by
  have hrc := hc.records
  cases heq : o.records with
  | nil =>
    change holds (l.acked ++ l.inFlight) _
    rw [hr.landed, append_nil, append_nil]
    exact hr.settled
  | cons r records =>
    rw [heq] at hrc
    exact hrc.resolve_left nofun

end Same

namespace World

variable {sha : Sha256} {crc : List UInt8 → UInt32} {journaled : Bool}
  {permitted : State → Elapsed → List Write → Prop}
  {holds : List Request → List WalRecord → Prop}
  {w w' : World} {p : Process}

theorem Serving.continues_commit (hrev : Reversible permitted holds)
    (hs : Serving sha crc journaled w p) (hacc : p.memory.Accounted)
    (hr : Recorded holds l w.acked p) (idle : p.bulk = none)
    {o : Outcome (CommitPoint × List Change)} (ok : permitted (p.logical w.acked) now writes)
    (h : p.commit sha crc w.media now writes = some o) :
    Continues holds l w.acked (.commit (now, writes)) o.ack := by
  have hld := loading_of_idle idle
  have hlgc : p.logical w.acked = logicalAt p.memory w.acked := by
    rw [logical, hld, append_nil]
    rfl
  have hrvs := hs.revision
  have htm := hs.time
  obtain ⟨opened, hses⟩ := hr.session
  rw [hld, append_nil] at hrvs htm hses
  rw [hlgc] at ok
  rcases commit_eq_some h with ⟨e, rfl⟩ | ⟨e, rfl⟩ | ⟨-, documents, plan, append, hlo, hpl, -, hrs⟩
  · exact hr.refused e
  · exact continues_fenced (.inl ⟨rfl, e, rfl⟩) rfl
  · have hpn := planned hs.stores.contents.represents hrvs htm hlo hpl
    have hnx := hrev.concat hr.settled hpn ok
    rcases hrs with ⟨e, rfl⟩ | ⟨tables, usage, memory, -, hins, rfl⟩
    · exact continues_fenced (.inr hnx) rfl
    · obtain ⟨hst, -⟩ := installs_plan hacc hpl hins
      exact ⟨.inr hnx, fun _ => Recorded.of_idle idle hr.landed rfl hnx
        (hses.commit hst (hrev.undo hr.settled hpn ok))⟩

/-- A load that was empty leaves nothing behind. -/
theorem Serving.loading_empty (hs : Serving sha crc journaled w p) {t : Tables}
    (hbl : p.bulk = some s) (ht : s.transaction = some t) (hemp : s.batches = 0) :
    p.loading = [] := by
  obtain ⟨hbat, -⟩ := hs.session s hbl t ht
  rw [loading_of_open hbl ht]
  exact eq_nil_of_length_eq_zero (hbat ▸ hemp)

/-- The end of a load that holds nothing. -/
theorem continues_closed (hr : Recorded holds l w.acked p) (hld : p.loading = []) {p' : Process}
    (hmry : p'.memory = p.memory) (hcl : p'.loading = []) (hmd : l.made call = [])
    (hlo : l.load call = []) (r : α) : Continues holds l w.acked call (p'.answer (.ok r)).ack := by
  have hemp := hr.loading_nil hld
  refine Recorded.answered hmd ?_ r
  rw [hlo, ← hemp]
  exact hr.same hmry (hcl.trans hld.symm)

section

variable (hrev : Reversible permitted holds) (hs : Serving sha crc journaled w p)

include hrev hs

theorem Serving.continues_batch (hacc : p.memory.Accounted) (hr : Recorded holds l w.acked p)
    (hbl : p.bulk = some s) {o : Outcome (CommitPoint × List Change)}
    (ok : permitted (p.logical w.acked) now writes)
    (h : p.bulkCommit sha s now writes = some o) :
    Continues holds l w.acked (.batch (now, writes)) o.ack := by
  rcases bulkCommit_eq_some h with ⟨e, rfl⟩ |
    ⟨tables, documents, plan, ht, hlo, hpl, ⟨e, rfl⟩ | ⟨tables', memory, -, hins, rfl⟩⟩
  · exact hr.refused e
  · -- an abandoned load fences the process, unless it was empty
    refine ⟨.inl ⟨rfl, e, rfl⟩, fun hsrv => hr.same rfl (Eq.symm ?_)⟩
    have hnn : ¬0 < s.batches := of_decide_eq_false (Bool.or_eq_false_iff.mp hsrv).2
    exact hs.loading_empty hbl ht (by omega)
  have hld := loading_of_open hbl ht
  obtain ⟨-, -, hcts⟩ := hs.session s hbl tables ht
  have hrvs := hs.revision
  have htm := hs.time
  have hhol := hr.holds
  have hlen := hr.length
  obtain ⟨opened, hses⟩ := hr.session
  have hlgc : p.logical w.acked = logicalAt p.memory (w.acked ++ s.records) := by
    rw [logical, hld]
    rfl
  rw [hld] at hrvs htm hhol hses hlen
  rw [hlgc] at ok
  have hpn := planned hcts.represents hrvs htm hlo hpl
  obtain ⟨hst, -⟩ := installs_plan hacc hpl hins
  have hnx := hrev.concat hhol hpn ok
  have hrc := hses.commit hst (hrev.undo hhol hpn ok)
  rw [append_assoc, append_assoc] at hnx
  rw [append_assoc] at hrc
  refine Recorded.answered rfl (Recorded.mk hr.landed hr.settled ?_ ?_ ⟨opened, ?_⟩) _
  · change (l.loading ++ _).length = (s.records ++ _).length
    rw [length_append, length_append, hlen]
    rfl
  · exact hnx
  · exact hrc

omit hrev in
theorem Serving.continues_finish (hr : Recorded holds l w.acked p) (hbl : p.bulk = some s) :
    Continues holds l w.acked .finish (p.bulkFinish s).ack := by
  unfold Process.bulkFinish
  cases ht : s.transaction with
  | none =>
    refine Recorded.refused ?_ _
    exact hr.same rfl (loading_of_closed hbl ht).symm
  | some t =>
    by_cases hemp : s.batches = 0
    · have hld := hs.loading_empty hbl ht hemp
      simp only [hemp, if_true]
      refine continues_closed hr hld ?_ ?_ ?_ ?_ _
      exacts [rfl, rfl, hr.loading_nil hld, rfl]
    · simp only [hemp, if_false]
      have hhol := hr.holds
      obtain ⟨opened, hses⟩ := hr.session
      rw [loading_of_open hbl ht] at hhol hses
      exact ⟨.inr hhol, fun _ => Recorded.of_idle rfl hr.landed rfl hhol hses⟩

omit hrev in
theorem Serving.continues_drop (hr : Recorded holds l w.acked p) (hbl : p.bulk = some s) :
    Continues holds l w.acked .other ((p.bulkDrop s).answer (.ok () : Except DiskError Unit)).ack := by
  unfold Process.bulkDrop
  cases ht : s.transaction with
  | none => refine continues_closed hr (loading_of_closed hbl ht) ?_ ?_ ?_ ?_ _ <;> rfl
  | some t =>
    by_cases hemp : s.batches = 0
    · refine continues_closed hr (hs.loading_empty hbl ht hemp) ?_ ?_ ?_ ?_ _ <;> rfl
    · refine continues_fenced (.inr ?_) ?_
      · exact (append_nil _).symm ▸ (append_nil _).symm ▸ hr.settled
      · change (p.requiresRestart || decide (0 < s.batches)) = true
        simp [Nat.pos_of_ne_zero hemp]

/-- An operation of a serving process. -/
theorem Serving.continues (hacc : p.memory.Accounted) (hrst : p.requiresRestart = false)
    (hr : Recorded holds l w.acked p)
    (h : Operates sha crc permitted w.acked p w.media call o) :
    Continues holds l w.acked call o := by
  cases h with
  | commit idle ok h => exact hs.continues_commit hrev hacc hr idle ok h
  | flush idle =>
    have hqt : ∀ unflushed, Continues holds l w.acked .other
        (answer { p with unflushed } (.ok ())).ack := by
      intro unflushed
      refine continues_closed hr (loading_of_idle idle) ?_ ?_ ?_ ?_ _
      exacts [rfl, loading_of_idle idle, rfl, rfl]
    unfold Process.flush
    split
    · exact hqt p.unflushed
    split
    · exact hr.refused _
    exact ⟨(hqt false).records, (hqt false).process⟩
  | begin idle =>
    rw [Process.beginBulkCommit, if_neg (Bool.eq_false_iff.mp hrst)]
    refine continues_closed hr (loading_of_idle idle) ?_ ?_ ?_ ?_ _ <;> rfl
  | batch hbl ok h => exact hs.continues_batch hrev hacc hr hbl ok h
  | finish hbl => exact hs.continues_finish hr hbl
  | drop hbl => exact hs.continues_drop hr hbl

end

/-- What every world of a run remembers. -/
structure Remembers (holds : List Request → List WalRecord → Prop) (w : World) : Prop where
  settled : holds w.ledger.acked w.acked
  history : holds (w.ledger.acked ++ w.ledger.inFlight) w.history
  serving : ∀ p, w.process = some p → p.requiresRestart = false →
    Recorded holds w.ledger w.acked p

theorem Remembers.of_down (hack : holds w.ledger.acked w.acked)
    (hhis : holds (w.ledger.acked ++ w.ledger.inFlight) w.history) (hp : w.process = none) :
    Remembers holds w :=
  ⟨hack, hhis, fun p h => absurd (hp.symm.trans h) (Option.some_ne_none p).symm⟩

theorem Remembers.settle (hlnd : w.inFlight = []) (hr : Recorded holds w.ledger w.acked p)
    (hc : Continues holds w.ledger w.acked call o) : Remembers holds (w.settle call o) := by
  have hprc := hc.process
  have hcut := hc.cut hr
  unfold World.settle
  cases hrep : o.reply with
  | ok _ =>
    rw [hrep] at hprc
    have hrc := hc.records.resolve_left fun ⟨_, e, he⟩ => by simp [hrep] at he
    refine ⟨?_, ?_, ?_⟩
    · simpa only [Ledger.settle, hrep] using hrc
    · simpa only [World.history, Ledger.settle, hrep, hlnd, hr.landed, append_nil] using hrc
    · intro p hp hrst
      obtain rfl := Option.some.inj hp
      exact hprc hrst
  | error _ =>
    rw [hrep] at hprc
    refine ⟨?_, ?_, ?_⟩
    · simp only [Ledger.settle, hrep, Ledger.acked_cut]
      exact hr.settled
    · simp only [World.history, Ledger.settle, hrep, hlnd, nil_append]
      exact hcut
    · intro p hp hrst
      obtain rfl := Option.some.inj hp
      exact hprc hrst

/-- A fenced process only replies. -/
theorem Remembers.settle_fenced (hi : Inv sha crc journaled w) (hm : Remembers holds w)
    (hp : w.process = some p) (hrst : p.requiresRestart = true)
    (h : Operates sha crc permitted w.acked p w.media call o) :
    Remembers holds (w.settle call o) := by
  obtain ⟨-, hrc, hfn, hack, hfl, -⟩ := hi.fenced_keeps hp hrst h
  have hset : w.settle call o = ⟨disk.perform o.effects w.media, some o.process, w.acked, w.inFlight,
      w.ledger.settle call o⟩ := by
    unfold World.settle
    split <;> simp [hrc]
  rw [hset]
  refine ⟨hack.symm ▸ hm.settled, ?_, fun q hq hsrv => ?_⟩
  · change holds ((w.ledger.settle call o).acked ++ (w.ledger.settle call o).inFlight) _
    rw [hack, hfl]
    exact hm.history
  obtain rfl := Option.some.inj hq
  exact absurd (hfn.symm.trans hsrv) (by simp)

theorem Remembers.step (hrev : Reversible permitted holds) (hi : Inv sha crc journaled w)
    (hm : Remembers holds w) (h : Step sha crc journaled permitted w w') :
    Remembers holds w' := by
  have hint : ∀ media call, Remembers holds (w.interrupt media call []) := fun media call =>
    Remembers.of_down hm.settled (by rw [World.history, World.interrupt, append_nil]; exact hm.history)
      rfl
  cases h with
  | @operate p call o hp h =>
    cases hrst : p.requiresRestart with
    | true => exact hm.settle_fenced hi hp hrst h
    | false =>
      have hs := hi.serving p hp hrst
      have hr := hm.serving p hp hrst
      exact .settle hs.landed hr (hs.continues hrev (hi.accounted p hp) hrst hr h)
  | @cut p call o m hp h hcut =>
    cases hrst : p.requiresRestart with
    | true =>
      obtain ⟨-, hrc, -⟩ := hi.fenced_keeps hp hrst h
      rw [hrc]
      exact hint m call
    | false =>
      have hs := hi.serving p hp hrst
      have hr := hm.serving p hp hrst
      refine Remembers.of_down ?_ ?_ rfl
      · exact (w.ledger.acked_cut call o.records).symm ▸ hr.settled
      rw [World.history, World.interrupt, hs.landed]
      exact (hs.continues hrev (hi.accounted p hp) hrst hr h).cut hr
  | crash => exact hint w.media .other
  | @opened options p hp hjr h =>
    have hop := openStore_meets hjr hi.chronicle hi.recovers (hi.down hp)
    obtain ⟨g, t, hfd, -, -, usage, rfl⟩ := hop.post p h
    have hhol := hrev.sub hfd.sub hm.history
    have htk : w.history.take g.length = g := (prefix_iff_eq_take.mp hfd.sub).symm
    refine ⟨?_, ?_, fun q hq _ => ?_⟩
    · change holds _ (w.history.take g.length)
      rwa [htk]
    · change holds (_ ++ []) (w.history.take g.length ++ [])
      rwa [htk, append_nil, append_nil]
    obtain rfl := Option.some.inj hq
    change Recorded holds _ (w.history.take g.length) _
    rw [htk]
    exact Recorded.of_idle rfl rfl rfl hhol (Session.start _ _ _)
  | @failed options m hp hjr hcut => exact hint m .other

/-- **Along every run the memory of a serving process fits the history.** -/
theorem Run.recorded (hrev : Reversible permitted holds)
    (run : Run sha crc journaled permitted w) : Remembers holds w := by
  induction run with
  | start => exact .of_down hrev.nil hrev.nil rfl
  | step run h ih => exact ih.step hrev run.inv h

end World

end Firenook.Disk
