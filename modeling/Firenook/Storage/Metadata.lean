import Mathlib.Logic.Equiv.List
import Mathlib.Tactic.DeriveEncodable
import Firenook.Support.LineLog
import Firenook.Storage.Object

/-!
# Storage — Metadata

The metadata store under write-behind (`metadata.rs`), one step at a time. A change is a line of the
journal, then a commit of the database that a crash loses; a flush makes every commit durable with
the newest sequence and empties the journal; a replacement of the whole state empties the journal,
then commits durably. The flusher takes the journal's lock only, so that its steps fall between
those of a call. A crash keeps the durable commits and the journal's bytes, the line being written
cut anywhere; opening replays what the durable sequence does not cover.
-/

namespace Firenook.Metadata
open Storage (Text)
open LineLog (Codec)

/-- Sequences are 64-bit and saturate. -/
def maxSeq : Nat := 2 ^ 64 - 1

def nextSeq (seq : Nat) : Nat := min (seq + 1) maxSeq

instance encodableByte : Encodable UInt8 :=
  Encodable.ofLeftInjection UInt8.toNat (fun n => some (UInt8.ofNat n)) fun b => by simp

section Records
variable (Object Upload : Type)

/-- The two tables: objects and upload sessions, by key. -/
structure Tables where
  objects : Std.ExtTreeMap Text Object := ∅
  uploads : Std.ExtTreeMap Text Upload := ∅

/-- The persisted part of the service's data. -/
structure Data extends Tables Object Upload where
  nextId : Nat := 0

structure Contents extends Data Object Upload where
  appliedSeq : Nat := 0

/-- One record of a journal line; no value for a removal. -/
inductive JournalChange where
  | object (key : Text) (value : Option Object)
  | upload (key : Text) (value : Option Upload)
  deriving Encodable

/-- A journal line of either shape. -/
inductive JournalLine where
  | one (seq : Nat) (change : JournalChange Object Upload) (nextId : Nat)
  | batch (seq : Nat) (changes : List (JournalChange Object Upload)) (nextId : Nat)
  deriving Encodable

end Records

/-- The record a call persists. -/
inductive Change where
  | object (key : Text)
  | upload (key : Text)

variable {Object Upload : Type}

namespace JournalLine

def seq : JournalLine Object Upload → Nat
  | .one seq _ _ => seq
  | .batch seq _ _ => seq

def nextId : JournalLine Object Upload → Nat
  | .one _ _ nextId => nextId
  | .batch _ _ nextId => nextId

def changes : JournalLine Object Upload → List (JournalChange Object Upload)
  | .one _ change _ => [change]
  | .batch _ changes _ => changes

end JournalLine

/-- A record inserted or removed. -/
def Tables.set (t : Tables Object Upload) : JournalChange Object Upload → Tables Object Upload
  | .object key (some value) => { t with objects := t.objects.insert key value }
  | .object key none => { t with objects := t.objects.erase key }
  | .upload key (some value) => { t with uploads := t.uploads.insert key value }
  | .upload key none => { t with uploads := t.uploads.erase key }

/-- The current record of a key. -/
def Data.record (data : Data Object Upload) : Change → JournalChange Object Upload
  | .object key => .object key data.objects[key]?
  | .upload key => .upload key data.uploads[key]?

/-- The line of `update` and of `update_many`: a single change is written as `update` writes it. -/
def Data.journalLine (data : Data Object Upload) (seq : Nat) :
    List Change → JournalLine Object Upload
  | [change] => .one seq (data.record change) data.nextId
  | changes => .batch seq (changes.map data.record) data.nextId

/-! ### Opening -/

inductive ReplayError where
  | sequence (seq applied : Nat)

def ReplayError.message : ReplayError → String
  | .sequence seq applied =>
    s!"Storage metadata journal sequence {seq} does not follow {applied}"

/-- The loop of `replay_journal` over the entries newer than the durable sequence. -/
def replayLoop : List (JournalLine Object Upload) → Contents Object Upload →
    Except ReplayError (Contents Object Upload)
  | [], contents => .ok contents
  | line :: rest, contents =>
    if line.seq ≠ nextSeq contents.appliedSeq then
      .error (.sequence line.seq contents.appliedSeq)
    else replayLoop rest {
      toTables := line.changes.foldl Tables.set contents.toTables
      nextId := max contents.nextId line.nextId
      appliedSeq := line.seq }

def replayJournal (codec : Codec (JournalLine Object Upload)) (journal : List UInt8)
    (contents : Contents Object Upload) : Except ReplayError (Contents Object Upload) :=
  let pending := (LineLog.read codec journal).filter fun line => contents.appliedSeq < line.seq
  if pending.isEmpty then .ok contents else replayLoop pending contents

/-! ### Calls and flushes -/

/-- A call that changes the metadata, with the service's data at that moment. -/
inductive Call (Object Upload : Type) where
  | update (data : Data Object Upload) (changes : List Change)
  | replace (data : Data Object Upload)

def Call.apply (t : Tables Object Upload) : Call Object Upload → Tables Object Upload
  | .update data changes => (changes.map data.record).foldl Tables.set t
  | .replace data => data.toTables

/-- How far the call in flight has come: calls are serialised by the service's lock. -/
inductive Flight (Object Upload : Type) where
  | idle
  | started (call : Call Object Upload)
  -- `update`: the journal line is written, the database not yet committed.
  | logged (data : Data Object Upload) (changes : List Change)
  -- `replace`: the journal is empty, the database not yet committed.
  | truncated (data : Data Object Upload)

/-- How far the flush has come: it holds the journal's lock unless idle. -/
inductive Flusher where
  | idle
  | syncing
  | committed
  deriving DecidableEq

structure Store (Object Upload : Type) where
  durable : Contents Object Upload
  current : Contents Object Upload
  journal : List UInt8 := []
  seq : Nat
  durableSeq : Nat
  pendingFiles : List Text := []
  flight : Flight Object Upload := .idle
  flusher : Flusher := .idle
  -- The calls that have returned, in order.
  returned : List (Call Object Upload) := []

namespace Store

/-- The store that `open` returns over these contents. -/
def opened (contents : Contents Object Upload) : Store Object Upload :=
  { durable := contents, current := contents, seq := contents.appliedSeq,
    durableSeq := contents.appliedSeq }

/-- The call in flight returns. -/
def finish (s : Store Object Upload) (call : Call Object Upload) : Store Object Upload :=
  { s with flight := .idle, returned := s.returned ++ [call] }

end Store

/-- `open` after a crash: the durable contents and the journal it left. -/
def reopen (codec : Codec (JournalLine Object Upload)) (durable : Contents Object Upload)
    (journal : List UInt8) : Except ReplayError (Store Object Upload) :=
  (replayJournal codec journal durable).map Store.opened

/-- The steps of the calls and of the flusher. -/
inductive Event (Object Upload : Type) where
  | start (call : Call Object Upload)
  | skip
  | log
  | commit
  | truncate
  | restore
  | note (path : Text)
  | flushStart
  | flushCommit
  | flushTruncate

/-- One step, when it can be taken. -/
def step (codec : Codec (JournalLine Object Upload)) (s : Store Object Upload) :
    Event Object Upload → Option (Store Object Upload)
  | .start call =>
    match s.flight with
    | .idle => some { s with flight := .started call }
    | _ => none
  -- `update_many` of no change returns at once.
  | .skip =>
    match s.flight with
    | .started (.update data []) => some (s.finish (.update data []))
    | _ => none
  | .log =>
    match s.flight, s.flusher with
    | .started (.update data (change :: changes)), .idle => some { s with
        journal := s.journal ++
          LineLog.line codec (data.journalLine (nextSeq s.seq) (change :: changes))
        seq := nextSeq s.seq
        flight := .logged data (change :: changes) }
    | _, _ => none
  | .commit =>
    match s.flight with
    | .logged data changes => some (Store.finish { s with
        current := { s.current with
          toTables := (Call.update data changes).apply s.current.toTables
          nextId := data.nextId } } (.update data changes))
    | _ => none
  | .truncate =>
    match s.flight, s.flusher with
    | .started (.replace data), .idle => some { s with
        journal := [], pendingFiles := [], durableSeq := s.seq, flight := .truncated data }
    | _, _ => none
  | .restore =>
    match s.flight with
    | .truncated data =>
      let contents : Contents Object Upload := { toData := data, appliedSeq := s.seq }
      some (Store.finish { s with durable := contents, current := contents } (.replace data))
    | _ => none
  | .note path =>
    if s.flusher = .idle then some { s with pendingFiles := s.pendingFiles ++ [path] } else none
  | .flushStart =>
    if s.flusher = .idle ∧ ¬(s.seq = s.durableSeq ∧ s.pendingFiles.isEmpty) then
      some { s with flusher := .syncing, pendingFiles := [] }
    else none
  | .flushCommit =>
    if s.flusher = .syncing then
      let contents := { s.current with appliedSeq := s.seq }
      some { s with durable := contents, current := contents, flusher := .committed }
    else none
  | .flushTruncate =>
    if s.flusher = .committed then
      some { s with journal := [], durableSeq := s.seq, flusher := .idle }
    else none

/-- The journal's bytes after a crash: whole, or with the line being written cut anywhere. -/
inductive Torn (codec : Codec (JournalLine Object Upload)) (s : Store Object Upload) :
    List UInt8 → Prop where
  | whole : Torn codec s s.journal
  | cut {data : Data Object Upload} {changes : List Change} {text : List UInt8}
      (flight : s.flight = .started (.update data changes)) (changes_ne : changes ≠ [])
      (flusher : s.flusher = .idle)
      (text_cut : text <+: LineLog.line codec (data.journalLine (nextSeq s.seq) changes)) :
      Torn codec s (s.journal ++ text)

end Firenook.Metadata
