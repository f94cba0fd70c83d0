import Firenook.Support.Crash
import Firenook.Disk.Journal

/-!
# Store — the operations of a disk store, as effects on its media

The media are the redb file, with what its last transaction and its last durable transaction left,
and the journal. An operation of the store reads the media and the process's own state, emits
effects in the order the code performs them, and leaves a new process state and a reply. A crash
keeps the journal and the durable tables; a durable transaction makes every earlier one durable.

Syncing the journal is no effect here: its bytes are taken to survive the process.
-/

namespace Firenook.Disk

open Crash Option

/-! ### Media -/

structure Media where
  /-- What the last transaction left. -/
  tables : Tables
  /-- What the last durable transaction left. -/
  durable : Tables
  journal : List UInt8

inductive Effect where
  | append (frame : List UInt8)
  | commit (tables : Tables) (durable : Bool)
  | truncate (length : Nat)

def Effect.apply : Effect → Media → Media
  | .append frame, m => { m with journal := m.journal ++ frame }
  | .commit tables true, m => { m with tables, durable := tables }
  | .commit tables false, m => { m with tables }
  | .truncate length, m => { m with journal := m.journal.take length }

/-- Transactions are atomic; an append may be cut at any byte. -/
def Effect.Interrupted : Effect → Media → Media → Prop
  | .append frame, m, m' =>
    ∃ n, n < frame.length ∧ m' = { m with journal := m.journal ++ frame.take n }
  | _, _, _ => False

def disk : Device Effect Media := ⟨Effect.apply, Effect.Interrupted⟩

/-- What a crash of the process leaves. -/
def Media.crash (m : Media) : Media := { m with tables := m.durable }

def Media.empty : Media := ⟨.empty, .empty, []⟩

/-! ### The process -/

inductive DiskDurability where
  | perCommit
  | writeBehind
  deriving DecidableEq

structure DiskOptions where
  store : StoreOptions
  journal : Bool
  durability : DiskDurability
  fieldIndexes : Bool

/-- `DiskBulkCommit`: the open transaction, while it is not abandoned, and the records of its
batches. -/
structure BulkCommit where
  transaction : Option Tables
  batches : Nat
  records : List WalRecord

/-- `DiskState`; a bulk load holds its lock. -/
structure Process where
  memory : State
  journal : Bool
  requiresRestart : Bool
  durability : DiskDurability
  unflushed : Bool
  fieldIndexes : Bool
  bulk : Option BulkCommit

/-- The effects of an operation, the process after it, and its reply. `records` are those the
effects write. -/
structure Outcome (α : Type) where
  effects : List Effect
  records : List WalRecord
  process : Process
  reply : Except DiskError α

namespace Process

variable {o : Outcome (CommitPoint × List Change)}

/-- An operation that does nothing but reply. -/
def answer {α : Type} (p : Process) (reply : Except DiskError α) : Outcome α := ⟨[], [], p, reply⟩

/-- An ambiguous write fences the process until it is restarted. -/
def fence {α : Type} (p : Process) (effects : List Effect) (records : List WalRecord)
    (error : DiskError) : Outcome α :=
  ⟨effects, records, { p with requiresRestart := true }, .error error⟩

/-- `Journal::checkpoint`, where there is a journal. -/
def checkpoint (p : Process) : List Effect := if p.journal then [.truncate 0] else []

/-- `persist_state` at the state's own revision. -/
def persistMemory (p : Process) (t : Tables) : Tables :=
  persistState t ⟨p.memory.revision, p.memory.lastCommitTime⟩ p.fieldIndexes
    (some p.memory.currentDocuments)

section

variable (sha : Sha256) (crc : List UInt8 → UInt32)

/-- The journal's part of a commit. -/
def journalRecord (p : Process) (record : WalRecord) : Except DiskError (List Effect) :=
  if p.journal then do
    let frame ← appendFrame crc record
    pure [.append frame]
  else .ok []

/-- A planned commit: journal, transaction, install, checkpoint. -/
def commitPlan (p : Process) (media : Media) (plan : CommitPlan) :
    Option (Outcome (CommitPoint × List Change)) :=
  let record := WalRecord.fromPlan plan
  let usage := plan.changes.foldl applyDocumentTransition p.memory.currentDocuments
  match p.journalRecord crc record with
  | .error e => some (p.fence [] [] e)
  | .ok append =>
    match persistRecord sha media.tables record p.fieldIndexes (some usage) with
    | .error e => some (p.fence append [record] e)
    | .ok tables =>
      let perCommit : Bool := p.durability = .perCommit
      (p.memory.installDisk plan).map fun memory =>
        { effects := append ++ .commit tables perCommit ::
            (if perCommit then p.checkpoint else [])
          records := [record]
          process := { p with memory, unflushed := p.unflushed || !perCommit }
          reply := .ok (plan.result, plan.changes) }

/-- `DiskStore::commit_observed`. `none` is a commit that never returns. -/
def commit (p : Process) (media : Media) (now : Elapsed) (writes : List Write) :
    Option (Outcome (CommitPoint × List Change)) :=
  if p.requiresRestart then some (p.answer (.error .requiresRestart))
  else
    match loadWriteDocuments media.tables writes with
    | .error e => some (p.answer (.error e))
    | .ok documents =>
      match p.memory.planWithDocuments now writes documents with
      | .error e => some (p.answer (.error (.commit e)))
      | .ok plan => p.commitPlan sha crc media plan

/-- `flush_state`. -/
def flush (p : Process) (media : Media) : Outcome Unit :=
  if !p.unflushed then p.answer (.ok ())
  else if p.requiresRestart then p.answer (.error .requiresRestart)
  else
    { effects := .commit (p.persistMemory media.tables) true :: p.checkpoint
      records := []
      process := { p with unflushed := false }
      reply := .ok () }

/-! ### Bulk loads -/

def beginBulkCommit (p : Process) (media : Media) : Outcome Unit :=
  if p.requiresRestart then p.answer (.error .requiresRestart)
  else { p with bulk := some ⟨some media.tables, 0, []⟩ }.answer (.ok ())

/-- `DiskBulkCommit::abandon`: installed batches have advanced the memory past the disk. -/
def abandon (p : Process) (session : BulkCommit) : Process :=
  { p with
    bulk := some { session with transaction := none }
    requiresRestart := p.requiresRestart || 0 < session.batches }

/-- A planned batch: applied inside the open transaction, then installed. -/
def bulkPlan (p : Process) (session : BulkCommit) (tables : Tables) (plan : CommitPlan) :
    Option (Outcome (CommitPoint × List Change)) :=
  let record := WalRecord.fromPlan plan
  match applyMutations sha p.fieldIndexes tables record.mutations with
  | .error e => some ((p.abandon session).answer (.error e))
  | .ok tables =>
    (p.memory.installDisk plan).map fun memory =>
      let session := ⟨some tables, session.batches + 1, session.records ++ [record]⟩
      { p with memory, bulk := some session }.answer (.ok (plan.result, plan.changes))

/-- `DiskBulkCommit::commit`. -/
def bulkCommit (p : Process) (session : BulkCommit) (now : Elapsed) (writes : List Write) :
    Option (Outcome (CommitPoint × List Change)) :=
  match session.transaction with
  | none => some (p.answer (.error .requiresRestart))
  | some tables =>
    match loadWriteDocuments tables writes with
    | .error e => some (p.answer (.error e))
    | .ok documents =>
      match p.memory.planWithDocuments now writes documents with
      | .error e => some (p.answer (.error (.commit e)))
      | .ok plan => p.bulkPlan sha session tables plan

/-- `DiskBulkCommit::finish`. -/
def bulkFinish (p : Process) (session : BulkCommit) : Outcome Unit :=
  let p := { p with bulk := none }
  match session.transaction with
  | none => p.answer (.error .requiresRestart)
  | some tables =>
    if session.batches = 0 then p.answer (.ok ())
    else ⟨[.commit (p.persistMemory tables) true], session.records, p, .ok ()⟩

def bulkDrop (p : Process) (session : BulkCommit) : Process :=
  { (if session.transaction.isSome then p.abandon session else p) with bulk := none }

variable {sha crc} {p : Process} {media : Media} {now : Elapsed} {writes : List Write}

/-- **What a commit can do**: reply without touching anything, be fenced before or after its frame
is written, or go through. -/
theorem commit_eq_some (h : p.commit sha crc media now writes = some o) :
    (∃ e, o = p.answer (.error e)) ∨ (∃ e, o = p.fence [] [] e) ∨
    (p.requiresRestart = false ∧ ∃ docs plan append,
      loadWriteDocuments media.tables writes = .ok docs ∧
      p.memory.planWithDocuments now writes docs = .ok plan ∧
      p.journalRecord crc (.fromPlan plan) = .ok append ∧
      ((∃ e, o = p.fence append [.fromPlan plan] e) ∨ ∃ tables usage memory,
          persistRecord sha media.tables (.fromPlan plan) p.fieldIndexes usage = .ok tables ∧
          p.memory.installDisk plan = some memory ∧
          o = { effects := append ++ .commit tables (p.durability = .perCommit) ::
                  (if p.durability = .perCommit then p.checkpoint else [])
                records := [.fromPlan plan]
                process := { p with
                  memory, unflushed := p.unflushed || !decide (p.durability = .perCommit) }
                reply := .ok (plan.result, plan.changes) })) := by
  unfold commit at h
  split at h
  · exact .inl ⟨_, (some.inj h).symm⟩
  next hfen =>
  split at h
  · exact .inl ⟨_, (some.inj h).symm⟩
  next docs hld =>
  split at h
  · exact .inl ⟨_, (some.inj h).symm⟩
  next plan hpl =>
  simp only [commitPlan] at h
  split at h
  · exact .inr (.inl ⟨_, (some.inj h).symm⟩)
  next append happ =>
  refine .inr (.inr ⟨Bool.eq_false_iff.mpr hfen, docs, plan, append, hld, hpl, happ, ?_⟩)
  split at h
  · exact .inl ⟨_, (some.inj h).symm⟩
  next tables htb =>
  obtain ⟨memory, hmry, h⟩ := map_eq_some_iff.mp h
  refine .inr ⟨tables, _, memory, htb, hmry, ?_⟩
  simpa using h.symm

/-- **What a batch of a bulk load can do**: reply without touching anything, abandon the load, or be
applied inside its transaction. -/
theorem bulkCommit_eq_some {session : BulkCommit}
    (h : p.bulkCommit sha session now writes = some o) :
    (∃ e, o = p.answer (.error e)) ∨
    ∃ tables docs plan, session.transaction = some tables ∧
      loadWriteDocuments tables writes = .ok docs ∧
      p.memory.planWithDocuments now writes docs = .ok plan ∧
      ((∃ e, o = (p.abandon session).answer (.error e)) ∨ ∃ tables' memory,
          applyMutations sha p.fieldIndexes tables (WalRecord.fromPlan plan).mutations =
            .ok tables' ∧
          p.memory.installDisk plan = some memory ∧
          o = { p with
            memory
            bulk := some ⟨some tables', session.batches + 1,
              session.records ++ [WalRecord.fromPlan plan]⟩ }.answer (.ok (plan.result, plan.changes))) := by
  unfold bulkCommit at h
  split at h
  · exact .inl ⟨_, (some.inj h).symm⟩
  next tables htb =>
  split at h
  · exact .inl ⟨_, (some.inj h).symm⟩
  next docs hld =>
  split at h
  · exact .inl ⟨_, (some.inj h).symm⟩
  next plan hpl =>
  refine .inr ⟨tables, docs, plan, htb, hld, hpl, ?_⟩
  simp only [bulkPlan] at h
  split at h
  · exact .inl ⟨_, (some.inj h).symm⟩
  · next tables' hapd =>
    obtain ⟨memory, hmry, h⟩ := map_eq_some_iff.mp h
    exact .inr ⟨tables', memory, hapd, hmry, h.symm⟩

end

end Process

/-! ### Opening -/

section

variable (sha : Sha256) (crc : List UInt8 → UInt32)

/-- `Journal::open`: the records of the whole frames; what follows them is cut off. -/
def openJournal (journal : List UInt8) : Script Effect DiskError (List WalRecord) := do
  let (records, validLen) ← Script.lift (readRecords crc journal)
  Script.emit (if journal.length ≠ validLen then [.truncate validLen] else [])
  pure records

/-- The checks `replay_records` makes on a record past the persisted revision. -/
def checkRecord (state : PersistedState) (record : WalRecord) : Except DiskError Unit :=
  if ¬state.revision + 1 < 2 ^ 64 then .error (.corrupt "persisted revision is exhausted")
  else if record.revision ≠ state.revision + 1 then
    .error (.corrupt
      s!"journal revision {record.revision} does not follow persisted revision {state.revision}")
  else if (compare record.commitTime state.lastCommitTime).isLE then
    .error (.corrupt "journal commit timestamps are not strictly increasing")
  else .ok ()

/-- The figures of a replayed record, followed only from the revision they describe. -/
def replayUsage (t : Tables) (usage : Option LogicalMemoryUsage) (record : WalRecord) :
    Except DiskError (Option LogicalMemoryUsage) :=
  match usage with
  | none => .ok none
  | some before => do
    let after ← usageAfterRecord t before record
    pure (some after)

/-- One record of `replay_records`: a durable transaction. -/
def replayRecord (fieldIndexes : Bool) (t : Tables) (usage : Option LogicalMemoryUsage)
    (record : WalRecord) : Except DiskError (Tables × Option LogicalMemoryUsage) := do
  checkRecord (loadPersistedState t) record
  let usage ← replayUsage t usage record
  let t ← persistRecord sha t record fieldIndexes usage
  pure (t, usage)

/-- The loop of `replay_records`. -/
def replayLoop (fieldIndexes : Bool) (t : Tables) (usage : Option LogicalMemoryUsage) :
    List WalRecord → Script Effect DiskError Tables
  | [] => pure t
  | record :: records =>
    if record.revision ≤ (loadPersistedState t).revision then replayLoop fieldIndexes t usage records
    else do
      let (t, usage) ← Script.lift (replayRecord sha fieldIndexes t usage record)
      Script.emit [.commit t true]
      replayLoop fieldIndexes t usage records

def replayRecords (fieldIndexes : Bool) (t : Tables) (records : List WalRecord) :
    Script Effect DiskError Tables :=
  replayLoop sha fieldIndexes t (savedUsage t (loadPersistedState t).revision) records

/-- The journal's part of an open: read, replay, checkpoint. -/
def recoverJournal (options : DiskOptions) (media : Media) : Script Effect DiskError Tables :=
  if options.journal then do
    let records ← openJournal crc media.journal
    let t ← replayRecords sha (options.fieldIndexes && fieldIndexValid media.tables) media.tables
      records
    Script.emit [.truncate 0]
    pure t
  else pure media.tables

/-- The field index's part of an open: a rebuild if the index was stale before the replay. -/
def recoverIndex (options : DiskOptions) (indexValid : Bool) (t : Tables) :
    Script Effect DiskError (Tables × Option LogicalMemoryUsage) :=
  if options.fieldIndexes && !indexValid then do
    let (t, counted) ← Script.lift (rebuildFieldIndex sha t)
    Script.emit [.commit t true]
    pure (t, some counted)
  else pure (t, none)

/-- `save_document_usage`, if the figures were counted. -/
def saveDocumentUsage (t : Tables) (revision : Nat) (usage : LogicalMemoryUsage) (recounted : Bool) :
    List Effect :=
  if recounted then [.commit { t with documentUsage := some ⟨revision, usage⟩ } true] else []

/-- `DiskStore::open`. -/
def openStore (options : DiskOptions) (media : Media) : Script Effect DiskError Process := do
  Script.emit [.commit media.tables true]
  let indexValid := fieldIndexValid media.tables
  let t ← recoverJournal sha crc options media
  let (t, counted) ← recoverIndex sha options indexValid t
  let (state, usage, recounted) ← Script.lift (loadDatabase t counted)
  Script.emit (saveDocumentUsage t state.revision usage recounted)
  pure
    { memory := .fromPersisted options.store state.revision state.lastCommitTime ∅ usage
      journal := options.journal
      requiresRestart := false
      durability := options.durability
      unflushed := false
      fieldIndexes := options.fieldIndexes
      bulk := none }

end

end Firenook.Disk
