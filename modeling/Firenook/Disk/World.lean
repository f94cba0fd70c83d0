import Firenook.Disk.Durable

/-!
# World — runs of a disk store through crashes and restarts

A world is the media, the process if one is up, and what exists only in the argument: the records of
the commits and bulk loads that were acknowledged, those of the one operation that was cut short
since the last open, and a ledger of what callers asked for, kept by the replies alone. Steps are
the operations of the store, a crash at any point of one, a crash between them, and opens that
succeed, fail or are cut short.

`World.Inv` is the invariant of every run. While a process serves, the tables hold exactly the
acknowledged records and the media back them (`World.Serving`); whatever happens, the media recover
the acknowledged records and at most those in flight on top (`Recovers`).
-/

namespace Firenook.Disk

open List Option Process WalRecord Fallible Crash

variable {α : Type} {plan : CommitPlan} {docs : Documents} {media : Media}
  {commits : List (Elapsed × List Write)} {s : BulkCommit}

/-! ### Worlds -/

/-- A commit or a batch, as it was asked for. -/
abbrev Request := Elapsed × List Write

inductive Call
  | commit (request : Request)
  | batch (request : Request)
  | finish
  | other

/-- The requests of acknowledged commits and finished loads, of the open load, and of the one
operation that was cut short. -/
structure Ledger where
  acked : List Request := []
  loading : List Request := []
  inFlight : List Request := []

namespace Ledger

/-- What a call is to add for good. -/
def made (l : Ledger) : Call → List Request
  | .commit request => [request]
  | .finish => l.loading
  | _ => []

def load (l : Ledger) : Call → List Request
  | .batch request => l.loading ++ [request]
  | _ => []

/-- A call without a reply, or with an error; it may have landed if it had written its records. -/
def cut (l : Ledger) (call : Call) : List WalRecord → Ledger
  | [] => l
  | _ => { l with inFlight := l.made call }

def settle (l : Ledger) (call : Call) (o : Outcome Unit) : Ledger :=
  match o.reply with
  | .ok _ => ⟨l.acked ++ l.made call, l.load call, l.inFlight⟩
  | .error _ => l.cut call o.records

end Ledger

structure World where
  media : Media
  process : Option Process
  /-- Acknowledged commits and finished bulk loads. -/
  acked : List WalRecord
  /-- The commit or the bulk load that was cut short. -/
  inFlight : List WalRecord
  ledger : Ledger := {}

/-- The records applied in an open bulk load. -/
def Process.loading (p : Process) : List WalRecord :=
  match p.bulk with
  | some ⟨some _, _, records⟩ => records
  | _ => []

/-- The state a commit is planned on: the memory's, with the documents on disk. -/
def Process.logical (p : Process) (acked : List WalRecord) : State :=
  { p.memory with documents := documentsOf (acked ++ p.loading) }

/-- Whether an operation was acknowledged is all that matters about its reply. -/
def Outcome.ack {α : Type} (o : Outcome α) : Outcome Unit :=
  ⟨o.effects, o.records, o.process, o.reply.map fun _ => ()⟩

namespace World

/-- A new directory. -/
def initial : World := ⟨.empty, none, [], [], {}⟩

def history (w : World) : List WalRecord := w.acked ++ w.inFlight

/-- An operation that replied. -/
def settle (w : World) (call : Call) (o : Outcome Unit) : World :=
  let media := disk.perform o.effects w.media
  let ledger := w.ledger.settle call o
  match o.reply with
  | .ok _ => ⟨media, some o.process, w.acked ++ o.records, w.inFlight, ledger⟩
  | .error _ => ⟨media, some o.process, w.acked, w.inFlight ++ o.records, ledger⟩

/-- The process is gone, with these records in flight. -/
def interrupt (w : World) (media : Media) (call : Call) (records : List WalRecord) : World :=
  ⟨media.crash, none, w.acked, w.inFlight ++ records, w.ledger.cut call records⟩

/-- A new process serves what it found. -/
def reopen (w : World) (media : Media) (p : Process) : World :=
  ⟨media, some p, w.history.take p.memory.revision, [],
    { acked := (w.ledger.acked ++ w.ledger.inFlight).take p.memory.revision }⟩

end World

section

variable (sha : Sha256) (crc : List UInt8 → UInt32) (journaled : Bool)
  (permitted : State → Elapsed → List Write → Prop)

/-- What an operation of the store can do. A bulk load keeps every other operation out. -/
inductive Operates (acked : List WalRecord) (p : Process) (media : Media) :
    Call → Outcome Unit → Prop
  | commit {now : Elapsed} {writes : List Write} {o : Outcome (CommitPoint × List Change)}
      (idle : p.bulk = none) (ok : permitted (p.logical acked) now writes)
      (h : p.commit sha crc media now writes = some o) :
      Operates acked p media (.commit (now, writes)) o.ack
  | flush (idle : p.bulk = none) : Operates acked p media .other (p.flush media).ack
  | begin (idle : p.bulk = none) : Operates acked p media .other (p.beginBulkCommit media).ack
  | batch {session : BulkCommit} {now : Elapsed} {writes : List Write}
      {o : Outcome (CommitPoint × List Change)} (hs : p.bulk = some session)
      (ok : permitted (p.logical acked) now writes)
      (h : p.bulkCommit sha session now writes = some o) :
      Operates acked p media (.batch (now, writes)) o.ack
  | finish {session : BulkCommit} (hs : p.bulk = some session) :
      Operates acked p media .finish (p.bulkFinish session).ack
  | drop {session : BulkCommit} (hs : p.bulk = some session) :
      Operates acked p media .other ((p.bulkDrop session).answer (.ok () : Except DiskError Unit)).ack

namespace World

inductive Step : World → World → Prop
  | operate {w : World} {p : Process} {call : Call} {o : Outcome Unit} (hp : w.process = some p)
      (h : Operates sha crc permitted w.acked p w.media call o) : Step w (w.settle call o)
  | cut {w : World} {p : Process} {call : Call} {o : Outcome Unit} {m : Media}
      (hp : w.process = some p) (h : Operates sha crc permitted w.acked p w.media call o)
      (hcut : disk.Cut o.effects w.media m) : Step w (w.interrupt m call o.records)
  | crash {w : World} : Step w (w.interrupt w.media .other [])
  | opened {w : World} {options : DiskOptions} {p : Process} (hp : w.process = none)
      (hjournal : options.journal = journaled)
      (h : (openStore sha crc options w.media).result = .ok p) :
      Step w (w.reopen (disk.perform (openStore sha crc options w.media).effects w.media) p)
  | failed {w : World} {options : DiskOptions} {m : Media} (hp : w.process = none)
      (hjournal : options.journal = journaled)
      (hcut : disk.Cut (openStore sha crc options w.media).effects w.media m) :
      Step w (w.interrupt m .other [])

/-- The worlds reached from a new directory. -/
inductive Run : World → Prop
  | start : Run initial
  | step {w w' : World} (run : Run w) (h : Step sha crc journaled permitted w w') : Run w'

/-! ### Steps to run -/

/-- The world after an open, if it returns. -/
def opening (options : DiskOptions) (w : World) : Option World :=
  let script := openStore sha crc options w.media
  match w.process, script.result with
  | none, .ok p => some (w.reopen (disk.perform script.effects w.media) p)
  | _, _ => none

/-- The world after a commit, whatever its reply. -/
def committing (now : Elapsed) (writes : List Write) (w : World) : Option World :=
  w.process.bind fun p =>
    if p.bulk.isNone then
      (p.commit sha crc w.media now writes).map fun o => w.settle (.commit (now, writes)) o.ack
    else none

def crashing (w : World) : World := w.interrupt w.media .other []

variable {sha crc journaled permitted} in
theorem Run.opening {w w' : World} (run : Run sha crc journaled permitted w)
    {options : DiskOptions} (hjournal : options.journal = journaled)
    (h : w.opening sha crc options = some w') : Run sha crc journaled permitted w' := by
  simp only [World.opening] at h
  split at h
  · next hp hres =>
    obtain rfl := some.inj h
    exact run.step (.opened hp hjournal hres)
  · cases h

variable {sha crc journaled permitted} in
theorem Run.committing {w w' : World} (run : Run sha crc journaled permitted w)
    {now : Elapsed} {writes : List Write}
    (ok : ∀ p, w.process = some p → permitted (p.logical w.acked) now writes)
    (h : w.committing sha crc now writes = some w') :
    Run sha crc journaled permitted w' := by
  obtain ⟨p, hp, h⟩ := bind_eq_some_iff.mp h
  split at h
  · next idle =>
    obtain ⟨o, ho, rfl⟩ := map_eq_some_iff.mp h
    exact run.step (.operate hp (.commit (isNone_iff_eq_none.mp idle) (ok p hp) ho))
  · cases h

variable {sha crc journaled permitted} in
theorem Run.crashing {w : World} (run : Run sha crc journaled permitted w) :
    Run sha crc journaled permitted w.crashing := run.step .crash

/-- A digest and a checksum that see nothing. -/
def noDigest : Sha256 := fun _ => Vector.replicate 32 0

@[inherit_doc noDigest] def noChecksum : List UInt8 → UInt32 := fun _ => 0

def commitAll (commits : List (Elapsed × List Write)) (w : World) : Option World :=
  commits.foldlM (fun w c => w.committing noDigest noChecksum c.1 c.2) w

/-- A new directory, and some commits. -/
def served (options : DiskOptions) (commits : List (Elapsed × List Write)) : Option World :=
  (initial.opening noDigest noChecksum options).bind (commitAll commits)

/-- A new directory, some commits, a crash. -/
def crashedAfter (options : DiskOptions) (commits : List (Elapsed × List Write)) : Option World :=
  (served options commits).map crashing

section

variable {permitted : State → Elapsed → List Write → Prop}
  (ok : ∀ c ∈ commits, ∀ s, permitted s c.1 c.2)

include ok

theorem Run.commitAll {journaled : Bool} {w w' : World}
    (run : Run noDigest noChecksum journaled permitted w) (h : w.commitAll commits = some w') :
    Run noDigest noChecksum journaled permitted w' := by
  induction commits generalizing w with
  | nil =>
    cases h
    exact run
  | cons c commits ih =>
    obtain ⟨mid, hmid, h⟩ := bind_eq_some_iff.mp h
    exact ih (fun c hc => ok c (mem_cons_of_mem _ hc))
      (run.committing (fun _ _ => ok c mem_cons_self _) hmid) h

theorem run_served {options : DiskOptions} {w : World} (h : served options commits = some w) :
    Run noDigest noChecksum options.journal permitted w := by
  obtain ⟨fresh, hfrs, h⟩ := bind_eq_some_iff.mp h
  exact (Run.start.opening rfl hfrs).commitAll ok h

theorem run_crashedAfter {options : DiskOptions} {w : World}
    (h : crashedAfter options commits = some w) :
    Run noDigest noChecksum options.journal permitted w := by
  obtain ⟨up, hup, rfl⟩ := map_eq_some_iff.mp h
  exact (run_served ok hup).crashing

end

def writeBehind : DiskOptions := ⟨⟨1000, 1000000⟩, true, .writeBehind, true⟩

/-- Two documents are created, one after the other. -/
def twoCreated : List (Elapsed × List Write) :=
  [(.ofSeconds 1, [.create exampleKey .sample]), (.ofSeconds 2, [.create otherKey .sample])]

/-! ### The invariant -/

/-- What holds while the process is not fenced. -/
structure Serving (w : World) (p : Process) : Prop where
  landed : w.inFlight = []
  backs : Backs sha crc journaled [] w.acked w.media
  stores : Stores sha w.media.tables w.acked
  indexed : p.fieldIndexes = true → fieldIndexValid w.media.tables = true
  chronicle : Chronicle (w.acked ++ p.loading)
  revision : p.memory.revision = (w.acked ++ p.loading).length
  time : p.memory.lastCommitTime = lastTime (w.acked ++ p.loading)
  session : ∀ s, p.bulk = some s → ∀ t, s.transaction = some t →
    s.batches = s.records.length ∧ t.fieldIndexRevision = w.media.tables.fieldIndexRevision ∧
      Contents sha (p.fieldIndexes = true) t (mutationsOf (w.acked ++ s.records))

/-- What every world of a run satisfies. -/
structure Inv (w : World) : Prop where
  chronicle : Chronicle w.history
  recovers : Recovers sha crc journaled w.acked w.inFlight w.media
  tables : ∃ h, h <+: w.history ∧ Stores sha w.media.tables h
  down : w.process = none → w.media.tables = w.media.durable
  journal : ∀ p, w.process = some p → p.journal = journaled
  accounted : ∀ p, w.process = some p → p.memory.Accounted
  fenced : ∀ p, w.process = some p → p.requiresRestart = true →
    ∀ s, p.bulk = some s → s.transaction = none
  serving : ∀ p, w.process = some p → p.requiresRestart = false →
    Serving sha crc journaled w p

variable {sha crc journaled permitted} {w : World} {p : Process} {call : Call}

theorem settle_answer (w : World) (p : Process) (reply : Except DiskError α) :
    w.settle call (p.answer reply).ack =
      { w with process := some p, ledger := w.ledger.settle call (p.answer reply).ack } := by
  cases reply <;> simp [settle, Outcome.ack, answer, Except.map, Device.perform]

/-- The ledger is no part of the invariant. -/
theorem Inv.ledger (hi : Inv sha crc journaled w) (ledger : Ledger) :
    Inv sha crc journaled { w with ledger } :=
  { hi with serving := fun p hp hs => { hi.serving p hp hs with } }

/-- Without a process, only the media matter. -/
theorem Inv.of_down (hp : w.process = none) (hchr : Chronicle w.history)
    (hrcv : Recovers sha crc journaled w.acked w.inFlight w.media)
    (hdw : w.media.tables = w.media.durable) : Inv sha crc journaled w where
  chronicle := hchr
  recovers := hrcv
  tables := by
    obtain ⟨h, torn, hh, n, hn, hsto, -⟩ := hrcv
    have hpre := take_prefix n h
    exact ⟨h.take n, hpre.trans hh.sub, hdw ▸ hsto⟩
  down _ := hdw
  journal p hup := absurd (hp.symm.trans hup) (some_ne_none p).symm
  accounted p hup := absurd (hp.symm.trans hup) (some_ne_none p).symm
  fenced p hup := absurd (hp.symm.trans hup) (some_ne_none p).symm
  serving p hup := absurd (hp.symm.trans hup) (some_ne_none p).symm

theorem inv_initial : Inv sha crc journaled initial :=
  Inv.of_down rfl Chronicle.nil
    ⟨[], [], Found.acked [] [], 0, Nat.le_refl _, stores_empty sha, fun _ => Journaled.empty []⟩ rfl

/-- A fenced process leaves the media as they are. -/
theorem Inv.of_fenced (hp : w.process = some p) (hrestart : p.requiresRestart = true)
    (hjournal : p.journal = journaled) (haccounted : p.memory.Accounted)
    (hcl : ∀ s, p.bulk = some s → s.transaction = none) (hchr : Chronicle w.history)
    (hrcv : Recovers sha crc journaled w.acked w.inFlight w.media)
    (htb : ∃ h, h <+: w.history ∧ Stores sha w.media.tables h) :
    Inv sha crc journaled w where
  chronicle := hchr
  recovers := hrcv
  tables := htb
  down hnn := absurd (hp.symm.trans hnn) (some_ne_none p)
  journal q hq := some.inj (hp.symm.trans hq) ▸ hjournal
  accounted q hq := some.inj (hp.symm.trans hq) ▸ haccounted
  fenced q hq _ := some.inj (hp.symm.trans hq) ▸ hcl
  serving q hq hsrv := by
    rw [← some.inj (hp.symm.trans hq), hrestart] at hsrv
    cases hsrv

/-- A process that serves keeps the invariant. -/
theorem Inv.of_serving (hs : Serving sha crc journaled w p) (hp : w.process = some p)
    (hjournal : p.journal = journaled) (haccounted : p.memory.Accounted)
    (hrestart : p.requiresRestart = false) : Inv sha crc journaled w where
  chronicle := by
    rw [history, hs.landed, append_nil]
    exact hs.chronicle.of_isPrefix (prefix_append _ _)
  recovers := hs.backs.recovers _
  tables := ⟨w.acked, prefix_append _ _, hs.stores⟩
  down hnn := absurd (hp.symm.trans hnn) (some_ne_none p)
  journal q hq := some.inj (hp.symm.trans hq) ▸ hjournal
  accounted q hq := some.inj (hp.symm.trans hq) ▸ haccounted
  fenced q hq hfen := by
    rw [← some.inj (hp.symm.trans hq), hrestart] at hfen
    cases hfen
  serving q hq _ := some.inj (hp.symm.trans hq) ▸ hs

theorem loading_of_idle (idle : p.bulk = none) : p.loading = [] := by
  rw [loading, idle]

/-- A process without a bulk load serves the records the tables hold. -/
theorem Serving.of_idle (idle : p.bulk = none) (hlnd : w.inFlight = [])
    (hbk : Backs sha crc journaled [] w.acked w.media)
    (hsto : Stores sha w.media.tables w.acked)
    (hixd : p.fieldIndexes = true → fieldIndexValid w.media.tables = true)
    (hchr : Chronicle w.acked) (hrev : p.memory.revision = w.acked.length)
    (htm : p.memory.lastCommitTime = lastTime w.acked) :
    Serving sha crc journaled w p := by
  refine ⟨hlnd, hbk, hsto, hixd, ?_, ?_, ?_, ?_⟩
  · rwa [loading_of_idle idle, append_nil]
  · rwa [loading_of_idle idle, append_nil]
  · rwa [loading_of_idle idle, append_nil]
  · exact fun s hses => absurd (idle.symm.trans hses) (some_ne_none s).symm

/-- The process is gone: the media recover what they did. -/
theorem inv_interrupt {m : Media} {records : List WalRecord}
    (hchr : Chronicle (w.history ++ records))
    (hrcv : Recovers sha crc journaled w.acked (w.inFlight ++ records) m) :
    Inv sha crc journaled (w.interrupt m call records) := by
  obtain ⟨h, torn, hh, hbk⟩ := hrcv
  refine Inv.of_down rfl ?_ ⟨h, torn, hh, hbk.congr rfl rfl⟩ rfl
  rw [history, World.interrupt, ← append_assoc]
  exact hchr

/-! ### Commits -/

section

variable {h : List WalRecord} {now : Elapsed} {writes : List Write}

/-- A planned commit continues the chronicle. -/
theorem chronicle_plan (hh : Chronicle h) {s : State}
    (hrev : s.revision = h.length) (htm : s.lastCommitTime = lastTime h)
    (hpl : s.planWithDocuments now writes docs = .ok plan) :
    Chronicle (h ++ [WalRecord.fromPlan plan]) := by
  obtain ⟨hres, hbd, -⟩ := State.planWithDocuments_eq_ok hpl
  refine hh.concat ?_ (hrev ▸ hbd) ?_
  · rw [fromPlan, hres, hrev]
  · intro hrng
    rw [fromPlan, hres, ← htm]
    exact State.lt_nextCommitTime (htm ▸ hrng) now

/-- The frame of a record: the media back the history with it, and until then without it. -/
theorem append_backs {r : WalRecord} {append : List Effect}
    (hb : Backs sha crc journaled [] h media) (hjournal : p.journal = journaled)
    (happ : p.journalRecord crc r = .ok append) :
    Backs sha crc journaled [] (h ++ [r]) (disk.perform append media) ∧
      (disk.perform append media).tables = media.tables ∧
      disk.Safe (Recovers sha crc journaled h [r]) append media := by
  obtain ⟨m, hm, hsto, hj⟩ := hb
  have hlng : m ≤ (h ++ [r]).length := by
    rw [length_append]
    exact hm.trans (Nat.le_add_right _ _)
  have hsto' : Stores sha media.durable ((h ++ [r]).take m) := by
    rwa [take_append_of_le_length hm]
  have hbef : Recovers sha crc journaled h [r] media :=
    ⟨h, [], Found.acked h [r], m, hm, hsto, hj⟩
  unfold journalRecord at happ
  split at happ
  · next hjrd =>
    obtain ⟨frame, hfrm, happ⟩ := bind_eq_ok.mp happ
    obtain rfl := pure_eq_ok.mp happ
    have hj := hj (hjournal ▸ hjrd)
    have haft : Backs sha crc journaled [] (h ++ [r])
        { media with journal := media.journal ++ frame } :=
      ⟨m, hlng, hsto', fun _ => hj.append hm hfrm⟩
    refine ⟨haft, rfl, Device.Safe.cons hbef ?_ (Device.Safe.nil ⟨_, _, Found.all h [r], haft⟩)⟩
    rintro m' ⟨n, hn, rfl⟩
    exact ⟨h, frame.take n, Found.acked h [r], m, hm, hsto, fun _ => hj.tear hfrm hn⟩
  · next hoff =>
    obtain rfl := Except.ok.inj happ
    have hoff : journaled = true → False := fun hon => hoff (hjournal.trans hon)
    exact ⟨⟨m, hlng, hsto', fun hon => (hoff hon).elim⟩, rfl, Device.Safe.nil hbef⟩

theorem checkpoint_backs (hb : Backs sha crc journaled [] h media)
    (hs : Stores sha media.durable h) :
    Backs sha crc journaled [] h (disk.perform p.checkpoint media) ∧
      (disk.perform p.checkpoint media).tables = media.tables ∧
      disk.Safe (Backs sha crc journaled [] h) p.checkpoint media := by
  unfold checkpoint
  split
  · have haft : Backs sha crc journaled [] h (disk.apply (.truncate 0) media) :=
      Backs.checkpoint hs
    exact ⟨haft, rfl, Device.Safe.cons hb nofun (Device.Safe.nil haft)⟩
  · exact ⟨hb, rfl, Device.Safe.nil hb⟩

/-- The transaction of a record whose frame is written, and the checkpoint after a durable one. -/
theorem commit_backs {tables : Tables} (hb : Backs sha crc journaled [] h media)
    (hh : Chronicle h) (hs : Stores sha tables h) :
    let effects := Effect.commit tables (p.durability = .perCommit) ::
      (if p.durability = .perCommit then p.checkpoint else [])
    Backs sha crc journaled [] h (disk.perform effects media) ∧
      (disk.perform effects media).tables = tables ∧
      disk.Safe (Backs sha crc journaled [] h) effects media := by
  intro effects
  cases hdur : p.durability with
  | perCommit =>
    have haft : Backs sha crc journaled [] h { media with tables, durable := tables } :=
      Backs.durable hs (hb.settled hh)
    obtain ⟨hchk, htb, hsf⟩ := checkpoint_backs (p := p) haft hs
    simp only [effects, hdur, decide_true, if_true]
    exact ⟨hchk, htb, Device.Safe.cons hb nofun hsf⟩
  | writeBehind =>
    have haft : Backs sha crc journaled [] h { media with tables } := hb.congr rfl rfl
    simp only [effects, hdur, reduceCtorEq, decide_false, if_false]
    exact ⟨haft, rfl, Device.Safe.cons hb nofun (Device.Safe.nil haft)⟩

end

/-- Installing a planned commit in a disk store's memory. -/
theorem installs_plan {s memory : State}
    (haccounted : s.Accounted) (hpl : s.planWithDocuments now writes docs = .ok plan)
    (hins : s.installDisk plan = some memory) :
    State.Installs s plan.result plan.changes memory ∧ memory.Accounted := by
  obtain ⟨hres, -, hwrs⟩ := State.planWithDocuments_eq_ok hpl
  refine ⟨⟨by rw [hres], ?_, ∅, hins⟩, ?_⟩
  · rw [hres]
    exact (plans hwrs).revisions
  have hbs : State.Accounted { s with documents := ∅ } := ⟨haccounted.limit, haccounted.accounts⟩
  obtain ⟨memory', hmry, hacc'⟩ :=
    State.installMetadata_returns hbs plan.result plan.changes
  obtain rfl : memory = memory' := some.inj (hins.symm.trans hmry)
  exact hacc'

variable (sha crc journaled) in
/-- What an operation of a serving process keeps, whatever the crash point. -/
structure Keeps (w : World) (o : Outcome Unit) : Prop where
  chronicle : Chronicle (w.acked ++ o.records)
  safe : disk.Safe (Recovers sha crc journaled w.acked o.records) o.effects w.media
  inv : ∀ call, Inv sha crc journaled (w.settle call o)

section

variable (hs : Serving sha crc journaled w p)

include hs

theorem Serving.acked : Chronicle w.acked :=
  hs.chronicle.of_isPrefix (prefix_append _ _)

/-- An operation that only replies and changes the process. -/
theorem Serving.keeps_answer (p' : Process) (reply : Except DiskError α)
    (hinv : Inv sha crc journaled { w with process := some p' }) :
    Keeps sha crc journaled w (p'.answer reply).ack where
  chronicle := (append_nil w.acked).symm ▸ hs.acked
  safe := Device.Safe.nil (hs.backs.recovers [])
  inv _ := settle_answer w p' reply ▸ hinv.ledger _

section

variable (hjournal : p.journal = journaled) (haccounted : p.memory.Accounted)
  (hrestart : p.requiresRestart = false)

include hjournal haccounted hrestart

theorem Serving.keeps_same (reply : Except DiskError α) :
    Keeps sha crc journaled w (p.answer reply).ack := by
  refine hs.keeps_answer _ reply (Inv.of_serving ?_ rfl hjournal haccounted hrestart)
  exact ⟨hs.landed, hs.backs, hs.stores, hs.indexed, hs.chronicle, hs.revision, hs.time, hs.session⟩

/-- **A commit.** -/
theorem Serving.commit (idle : p.bulk = none) {o : Outcome (CommitPoint × List Change)}
    (h : p.commit sha crc w.media now writes = some o) :
    Keeps sha crc journaled w o.ack := by
  have hcl : ∀ s, p.bulk = some s → s.transaction = none := fun s hses =>
    absurd (idle.symm.trans hses) (some_ne_none s).symm
  have hld := loading_of_idle idle
  have hrvs := hs.revision
  have htm := hs.time
  rw [hld, append_nil] at hrvs htm
  rcases commit_eq_some h with ⟨e, rfl⟩ | ⟨e, rfl⟩ | ⟨-, docs, plan, append, -, hpl, happ, hrs⟩
  · exact hs.keeps_same hjournal haccounted hrestart _
  · refine hs.keeps_answer { p with requiresRestart := true } (.error e) ?_
    refine Inv.of_fenced rfl rfl hjournal haccounted hcl ?_ (hs.backs.recovers _)
      ⟨w.acked, prefix_append _ _, hs.stores⟩
    rw [history, hs.landed, append_nil]
    exact hs.acked
  · have hchr := chronicle_plan hs.acked hrvs htm hpl
    obtain ⟨hbk, htb, hsf⟩ := append_backs hs.backs hjournal happ
    rcases hrs with ⟨e, rfl⟩ | ⟨tables, usage, memory, hper, hins, rfl⟩
    · -- the frame is written and the transaction is not
      refine ⟨hchr, hsf, fun call => ?_⟩
      have hhis : w.acked ++ (w.inFlight ++ [fromPlan plan]) =
          w.acked ++ [fromPlan plan] := by rw [hs.landed, nil_append]
      rw [← hhis] at hchr hbk
      exact Inv.of_fenced rfl rfl hjournal haccounted hcl hchr ⟨_, [], Found.all _ _, hbk⟩
        ⟨w.acked, prefix_append _ _, htb ▸ hs.stores⟩
    · obtain ⟨hst, hacc'⟩ := installs_plan haccounted hpl hins
      have hrev := hst.next
      rw [hrvs] at hrev
      have hsto := hs.stores.persistRecord hrev hs.indexed hper
      obtain ⟨hbk', htb', hsf'⟩ := commit_backs hbk hchr hsto
      refine ⟨hchr, hsf.append (hsf'.imp fun m hm => ⟨_, [], Found.all _ _, hm⟩), fun call => ?_⟩
      rw [← Device.perform_append] at hbk' htb'
      have hlen : memory.revision = (w.acked ++ [fromPlan plan]).length := by
        rw [hst.revision, hrev, length_append]
        rfl
      have hlast : memory.lastCommitTime = lastTime (w.acked ++ [fromPlan plan]) := by
        rw [hst.lastCommitTime, lastTime_concat]
        rfl
      refine Inv.of_serving (p := { p with
          memory, unflushed := p.unflushed || !decide (p.durability = .perCommit) })
        (Serving.of_idle idle hs.landed hbk' ?_ ?_ hchr hlen hlast) rfl hjournal hacc'
        hrestart
      · rw [← htb'] at hsto
        exact hsto
      intro hfi
      rw [hfi] at hper
      rw [← htb'] at hper
      exact Stores.fieldIndexValid_persistRecord hper

end

end

/-! ### Flushes -/

theorem Serving.stores_persistMemory (hs : Serving sha crc journaled w p)
    (idle : p.bulk = none) : Stores sha (p.persistMemory w.media.tables) w.acked := by
  have hrev := hs.revision
  have htm := hs.time
  rw [loading_of_idle idle, append_nil] at hrev htm
  rw [persistMemory, hrev, htm]
  exact hs.stores.restamp hs.indexed

/-- **A flush.** -/
theorem Serving.flush (hs : Serving sha crc journaled w p) (hjournal : p.journal = journaled)
    (haccounted : p.memory.Accounted) (hrestart : p.requiresRestart = false)
    (idle : p.bulk = none) :
    Keeps sha crc journaled w (p.flush w.media).ack := by
  unfold Process.flush
  split
  · exact hs.keeps_same hjournal haccounted hrestart _
  rw [if_neg (Bool.eq_false_iff.mp hrestart)]
  have hsto := hs.stores_persistMemory idle
  have haft : Backs sha crc journaled [] w.acked
      (disk.apply (.commit (p.persistMemory w.media.tables) true) w.media) :=
    Backs.durable hsto (hs.backs.settled hs.acked)
  obtain ⟨hbk, htb, hsf⟩ := checkpoint_backs (p := p) haft hsto
  have hrev := hs.revision
  have htm := hs.time
  rw [loading_of_idle idle, append_nil] at hrev htm
  have hall : disk.Safe (Backs sha crc journaled [] w.acked)
      (.commit (p.persistMemory w.media.tables) true :: p.checkpoint) w.media :=
    Device.Safe.cons hs.backs nofun hsf
  have hack := hs.acked
  rw [← append_nil w.acked] at hbk hsto hrev htm hack
  refine ⟨hack, hall.imp fun m hm => hm.recovers _, fun call => ?_⟩
  refine Inv.of_serving (p := { p with unflushed := false })
    (Serving.of_idle idle hs.landed hbk ?_ ?_ hack hrev htm) rfl hjournal
    haccounted hrestart
  · exact htb.symm ▸ hsto
  intro hfi
  have hvld : fieldIndexValid (p.persistMemory w.media.tables) = true := by
    rw [persistMemory, show p.fieldIndexes = true from hfi]
    exact Stores.fieldIndexValid_persistState _
  exact htb.symm ▸ hvld

/-! ### Bulk loads -/

theorem loading_of_open {t : Tables} (hbl : p.bulk = some s) (ht : s.transaction = some t) :
    p.loading = s.records := by
  obtain ⟨transaction, batches, records⟩ := s
  obtain rfl : transaction = some t := ht
  rw [loading, hbl]

theorem loading_of_closed (hbl : p.bulk = some s) (ht : s.transaction = none) : p.loading = [] := by
  obtain ⟨transaction, batches, records⟩ := s
  obtain rfl : transaction = none := ht
  rw [loading, hbl]

section

variable (hs : Serving sha crc journaled w p)

include hs

/-- A process that has nothing loaded serves on without a session. -/
theorem Serving.close (hld : p.loading = []) (p' : Process) (hmry : p'.memory = p.memory)
    (hfi : p'.fieldIndexes = p.fieldIndexes)
    (hcl : ∀ s, p'.bulk = some s → s.transaction = none) (q : Option Process) :
    Serving sha crc journaled { w with process := q } p' := by
  have hld' : p'.loading = p.loading := by
    rw [hld]
    cases hbl : p'.bulk with
    | none => exact loading_of_idle hbl
    | some s => exact loading_of_closed hbl (hcl s hbl)
  refine ⟨hs.landed, hs.backs, hs.stores, hfi ▸ hs.indexed, ?_, ?_, ?_, ?_⟩
  · rw [hld']
    exact hs.chronicle
  · rw [hld', hmry]
    exact hs.revision
  · rw [hld', hmry]
    exact hs.time
  · intro s hbl t ht
    rw [hcl s hbl] at ht
    cases ht

section

variable (hjournal : p.journal = journaled) (haccounted : p.memory.Accounted)
  (hrestart : p.requiresRestart = false)

include hjournal haccounted hrestart

theorem Serving.inv_close (hld : p.loading = []) :
    Inv sha crc journaled { w with process := some { p with bulk := none } } := by
  have hs' : Serving sha crc journaled { w with process := some { p with bulk := none } }
      { p with bulk := none } :=
    hs.close hld { p with bulk := none } rfl rfl nofun _
  exact Inv.of_serving hs' rfl hjournal haccounted hrestart

theorem Serving.beginBulkCommit (idle : p.bulk = none) :
    Keeps sha crc journaled w (p.beginBulkCommit w.media).ack := by
  rw [Process.beginBulkCommit, if_neg (Bool.eq_false_iff.mp hrestart)]
  refine hs.keeps_answer _ _ (Inv.of_serving ?_ rfl hjournal haccounted hrestart)
  have hld : loading { p with bulk := some ⟨some w.media.tables, 0, []⟩ } = p.loading :=
    (loading_of_open rfl rfl).trans (loading_of_idle idle).symm
  refine ⟨hs.landed, hs.backs, hs.stores, hs.indexed, ?_, ?_, ?_, ?_⟩
  · rw [hld]
    exact hs.chronicle
  · rw [hld]
    exact hs.revision
  · rw [hld]
    exact hs.time
  rintro _ ⟨⟩ _ ⟨⟩
  refine ⟨rfl, rfl, ?_⟩
  rw [append_nil]
  exact hs.stores.contents.weaken hs.indexed

/-- Abandoning a load fences the process, unless nothing was loaded. -/
theorem Serving.inv_abandon {t : Tables} (hbl : p.bulk = some s) (ht : s.transaction = some t)
    {p' : Process} (hmry : p'.memory = p.memory) (hfi : p'.fieldIndexes = p.fieldIndexes)
    (hjr' : p'.journal = p.journal)
    (hrst' : p'.requiresRestart = (p.abandon s).requiresRestart)
    (hcl : ∀ s, p'.bulk = some s → s.transaction = none) :
    Inv sha crc journaled { w with process := some p' } := by
  obtain ⟨hbat, -, -⟩ := hs.session s hbl t ht
  rw [abandon, hrestart] at hrst'
  by_cases hnn : s.batches = 0
  · have hld : p.loading = [] := by
      rw [loading_of_open hbl ht]
      exact eq_nil_of_length_eq_zero (hbat ▸ hnn)
    refine Inv.of_serving (hs.close hld _ hmry hfi hcl _) rfl (hjr'.trans hjournal)
      (hmry ▸ haccounted) ?_
    rw [hrst', hnn]
    rfl
  · refine Inv.of_fenced rfl ?_ (hjr'.trans hjournal) (hmry ▸ haccounted) hcl ?_
      (hs.backs.recovers _) ⟨w.acked, prefix_append _ _, hs.stores⟩
    · rw [hrst']
      exact decide_eq_true (Nat.pos_of_ne_zero hnn)
    · rw [history, hs.landed, append_nil]
      exact hs.acked

/-- **A batch of a bulk load.** -/
theorem Serving.bulkCommit (hbl : p.bulk = some s)
    {o : Outcome (CommitPoint × List Change)} (h : p.bulkCommit sha s now writes = some o) :
    Keeps sha crc journaled w o.ack := by
  rcases bulkCommit_eq_some h with ⟨e, rfl⟩ |
    ⟨tables, docs, plan, ht, -, hpl, ⟨e, rfl⟩ | ⟨tables', memory, hapd, hins, rfl⟩⟩
  · exact hs.keeps_same hjournal haccounted hrestart _
  · refine hs.keeps_answer _ _ (hs.inv_abandon hjournal haccounted hrestart hbl ht rfl rfl rfl rfl ?_)
    rintro _ ⟨⟩
    rfl
  · have hld := loading_of_open hbl ht
    obtain ⟨hbat, hstp, hcts⟩ := hs.session s hbl tables ht
    obtain ⟨hst, hacc'⟩ := installs_plan haccounted hpl hins
    have hchr := chronicle_plan hs.chronicle hs.revision hs.time hpl
    have hrev := hs.revision
    rw [hld] at hchr hrev
    rw [append_assoc] at hchr
    refine hs.keeps_answer _ _ (Inv.of_serving ?_ rfl hjournal hacc' hrestart)
    have hld' : loading { p with
        memory, bulk := some ⟨some tables', s.batches + 1, s.records ++ [.fromPlan plan]⟩ } =
        s.records ++ [.fromPlan plan] := rfl
    refine ⟨hs.landed, hs.backs, hs.stores, hs.indexed, ?_, ?_, ?_, ?_⟩
    · exact hchr
    · rw [hld', ← append_assoc, length_append]
      rw [hst.revision, hst.next, hrev]
      rfl
    · rw [hld', ← append_assoc, lastTime_concat]
      exact hst.lastCommitTime
    · rintro _ ⟨⟩ _ ⟨⟩
      refine ⟨?_, (applyMutations_metadata hapd).2.1.trans hstp, ?_⟩
      · rw [hbat, length_append]
        rfl
      · rw [← append_assoc, mutationsOf_append, mutationsOf_singleton]
        exact (hcts.mutations hapd).weaken fun hfi => ⟨hfi, hfi⟩

/-- **The end of a bulk load.** -/
theorem Serving.bulkFinish (hbl : p.bulk = some s) :
    Keeps sha crc journaled w (p.bulkFinish s).ack := by
  unfold Process.bulkFinish
  cases ht : s.transaction with
  | none =>
    have hld := loading_of_closed hbl ht
    exact hs.keeps_answer _ _ (hs.inv_close hjournal haccounted hrestart hld)
  | some t =>
    obtain ⟨hbat, hstp, hcts⟩ := hs.session s hbl t ht
    have hld := loading_of_open hbl ht
    by_cases hnn : s.batches = 0
    · simp only [hnn, if_true]
      have hemp : p.loading = [] := by
        rw [hld]
        exact eq_nil_of_length_eq_zero (hbat ▸ hnn)
      exact hs.keeps_answer _ _ (hs.inv_close hjournal haccounted hrestart hemp)
    · simp only [hnn, if_false]
      have hrc : s.records ≠ [] := by
        rintro heq
        rw [heq] at hbat
        exact hnn hbat
      have hchr := hs.chronicle
      have hrev := hs.revision
      have htm := hs.time
      rw [hld] at hchr hrev htm
      have hsto : Stores sha (persistMemory { p with bulk := none } t) (w.acked ++ s.records) := by
        rw [persistMemory, hrev, htm]
        exact hs.stores.advance _ hrc hcts hstp
      have hjrd : journaled = true → Journaled crc w.media.journal []
          (w.acked ++ s.records).length (w.acked ++ s.records) := by
        obtain ⟨m, hm, -, hj⟩ := hs.backs
        exact fun hon => (hj hon).bypass hm hchr
      have haft : Backs sha crc journaled [] (w.acked ++ s.records)
          (disk.apply (.commit (persistMemory { p with bulk := none } t) true) w.media) :=
        Backs.durable hsto hjrd
      refine ⟨hchr, Device.Safe.cons (hs.backs.recovers _) nofun
        (Device.Safe.nil ⟨_, [], Found.all _ _, haft⟩), fun call => ?_⟩
      refine Inv.of_serving (p := { p with bulk := none })
        (Serving.of_idle rfl hs.landed haft hsto ?_ hchr hrev htm) rfl hjournal
        haccounted hrestart
      intro hfi
      rw [show p.fieldIndexes = true from hfi]
      exact Stores.fieldIndexValid_persistState _

/-- **A bulk load that is dropped.** -/
theorem Serving.bulkDrop (hbl : p.bulk = some s) (reply : Except DiskError Unit) :
    Keeps sha crc journaled w ((p.bulkDrop s).answer reply).ack := by
  unfold Process.bulkDrop
  cases ht : s.transaction with
  | none =>
    have hld := loading_of_closed hbl ht
    exact hs.keeps_answer _ _ (hs.inv_close hjournal haccounted hrestart hld)
  | some t =>
    exact hs.keeps_answer _ _
      (hs.inv_abandon hjournal haccounted hrestart hbl ht rfl rfl rfl rfl nofun)

end

end

/-! ### Runs -/

/-- A fenced process only replies, and stays fenced. -/
theorem Inv.fenced_keeps (hi : Inv sha crc journaled w) (hp : w.process = some p)
    (hrestart : p.requiresRestart = true) {o : Outcome Unit}
    (h : Operates sha crc permitted w.acked p w.media call o) :
    o.effects = [] ∧ o.records = [] ∧ o.process.requiresRestart = true ∧
      (w.ledger.settle call o).acked = w.ledger.acked ∧
      (w.ledger.settle call o).inFlight = w.ledger.inFlight ∧
      Inv sha crc journaled (w.settle call o) := by
  have hcl := hi.fenced p hp hrestart
  have hsm : ∀ p' : Process, p'.memory = p.memory → p'.journal = p.journal →
      p'.requiresRestart = true → (∀ s, p'.bulk = some s → s.transaction = none) →
      ∀ {α : Type} (reply : Except DiskError α),
      Inv sha crc journaled (w.settle call (p'.answer reply).ack) :=
    fun p' hmry hjournal hfen hbl _ reply => settle_answer w p' reply ▸ Inv.of_fenced rfl hfen
      (hjournal.trans (hi.journal p hp)) (hmry ▸ hi.accounted p hp) hbl hi.chronicle hi.recovers
      hi.tables
  cases h with
  | commit idle ok h =>
    unfold commit at h
    rw [if_pos hrestart] at h
    obtain rfl := some.inj h
    exact ⟨rfl, rfl, hrestart, rfl, rfl, hsm p rfl rfl hrestart hcl _⟩
  | flush idle =>
    unfold flush
    split
    · exact ⟨rfl, rfl, hrestart, append_nil _, rfl, hsm p rfl rfl hrestart hcl _⟩
    · exact ⟨rfl, rfl, hrestart, rfl, rfl, hsm p rfl rfl hrestart hcl _⟩
  | begin idle =>
    rw [beginBulkCommit, if_pos hrestart]
    exact ⟨rfl, rfl, hrestart, rfl, rfl, hsm p rfl rfl hrestart hcl _⟩
  | batch hs ok h =>
    unfold bulkCommit at h
    rw [hcl _ hs] at h
    obtain rfl := some.inj h
    exact ⟨rfl, rfl, hrestart, rfl, rfl, hsm p rfl rfl hrestart hcl _⟩
  | finish hs =>
    rw [bulkFinish, hcl _ hs]
    exact ⟨rfl, rfl, hrestart, rfl, rfl, hsm { p with bulk := none } rfl rfl hrestart nofun _⟩
  | drop hs =>
    rw [bulkDrop, hcl _ hs]
    exact ⟨rfl, rfl, hrestart, append_nil _, rfl, hsm { p with bulk := none } rfl rfl hrestart nofun _⟩

/-- An operation of a serving process. -/
theorem Serving.keeps (hs : Serving sha crc journaled w p) (hjournal : p.journal = journaled)
    (haccounted : p.memory.Accounted) (hrestart : p.requiresRestart = false) {o : Outcome Unit}
    (h : Operates sha crc permitted w.acked p w.media call o) :
    Keeps sha crc journaled w o := by
  cases h with
  | commit idle ok h => exact hs.commit hjournal haccounted hrestart idle h
  | flush idle => exact hs.flush hjournal haccounted hrestart idle
  | begin idle => exact hs.beginBulkCommit hjournal haccounted hrestart idle
  | batch hbl ok h => exact hs.bulkCommit hjournal haccounted hrestart hbl h
  | finish hbl => exact hs.bulkFinish hjournal haccounted hrestart hbl
  | drop hbl => exact hs.bulkDrop hjournal haccounted hrestart hbl _

end World

end

end Firenook.Disk
