import Firenook.Storage.Metadata

/-!
# Storage — Metadata recovery

What opening finds after a crash. The journal's lines carry consecutive sequences up to the newest
one, and those the durable sequence does not cover, replayed over the durable tables, give the
tables of the calls that returned, with the call in flight once its line is written (`Inv`). Every
step keeps this, but for two windows that the source leaves open: a flush that commits between a
call's line and its commit (`flush_loses`), and a crash between the two steps of a replacement
(`replace_loses`). Outside them every acknowledged change survives (`acknowledged_survive`).
-/

namespace Firenook.Metadata

variable {journal : List UInt8}

open List Nat Store
open LineLog (Codec)

variable {changes : List Change} {base : Nat} {Object Upload : Type}
  {lines : List (JournalLine Object Upload)} {contents : Contents Object Upload}

/-! ### Replaying consecutive lines -/

/-- The lines carry the sequences after `base`. -/
def Follows : Nat → List (JournalLine Object Upload) → Prop
  | _, [] => True
  | base, line :: rest => line.seq = base + 1 ∧ Follows (base + 1) rest

def replayed (t : Tables Object Upload) (lines : List (JournalLine Object Upload)) :
    Tables Object Upload :=
  lines.foldl (fun t line => line.changes.foldl Tables.set t) t

theorem Follows.concat {line : JournalLine Object Upload}
    (h : Follows base lines) (hln : line.seq = base + lines.length + 1) :
    Follows base (lines ++ [line]) := by
  induction lines generalizing base with
  | nil => exact ⟨hln, trivial⟩
  | cons head rest ih =>
    rw [length_cons] at hln
    exact ⟨h.1, ih h.2 (by omega)⟩

section

variable {lines : List (JournalLine Object Upload)} (h : Follows base lines)

include h

theorem Follows.drop (n : Nat) : Follows (base + n) (lines.drop n) := by
  induction n generalizing base lines with
  | zero => exact h
  | succ n ih =>
    cases lines with
    | nil => trivial
    | cons line rest =>
      rw [drop_succ_cons, add_comm n 1, ← add_assoc]
      exact ih h.2

theorem Follows.newer : ∀ line ∈ lines, base < line.seq := by
  induction lines generalizing base with
  | nil => simp
  | cons head rest ih =>
    intro line hln
    rcases mem_cons.mp hln with rfl | hln
    · rw [h.1]
      exact lt_succ_self base
    · exact (lt_succ_self base).trans (ih h.2 line hln)

end

/-- Consecutive lines newer than an applied sequence are a tail of them. -/
theorem Follows.filter_newer {applied : Nat} (h : Follows base lines) (hle : base ≤ applied) :
    lines.filter (fun line => applied < line.seq) = lines.drop (applied - base) := by
  induction lines generalizing base with
  | nil => simp
  | cons line rest ih =>
    rcases eq_or_lt_of_le hle with rfl | hlt
    · rw [Nat.sub_self, drop_zero, filter_eq_self]
      exact fun line' hln' => decide_eq_true (h.newer line' hln')
    have hold : ¬applied < line.seq := by
      rw [h.1]
      exact not_lt.mpr hlt
    obtain ⟨n, rfl⟩ := Nat.exists_eq_add_of_lt hlt
    rw [filter_cons_of_neg (by simpa using hold), ih h.2 hlt,
      show base + n + 1 - base = n + 1 by omega, drop_succ_cons,
      show base + n + 1 - (base + 1) = n by omega]

/-- Consecutive lines replay without an error. -/
theorem replayLoop_follows (h : Follows contents.appliedSeq lines)
    (hmax : contents.appliedSeq + lines.length ≤ maxSeq) :
    ∃ after, replayLoop lines contents = .ok after ∧
      after.toTables = replayed contents.toTables lines := by
  induction lines generalizing contents with
  | nil => exact ⟨contents, rfl, rfl⟩
  | cons line rest ih =>
    rw [length_cons] at hmax
    have hseq : line.seq = nextSeq contents.appliedSeq := by
      rw [h.1, nextSeq]
      omega
    rw [replayLoop, if_neg (not_not.mpr hseq)]
    have hrs : Follows line.seq rest := by
      rw [h.1]
      exact h.2
    refine ih hrs ?_
    change line.seq + rest.length ≤ maxSeq
    rw [h.1]
    omega

/-- Replaying a journal of consecutive lines that reach back to the durable sequence. -/
theorem replayJournal_follows {codec : Codec (JournalLine Object Upload)}
    (hrd : LineLog.read codec journal = lines) (h : Follows base lines)
    (hbs : base ≤ contents.appliedSeq) (hapd : contents.appliedSeq ≤ base + lines.length)
    (hmax : base + lines.length ≤ maxSeq) :
    ∃ after, replayJournal codec journal contents = .ok after ∧
      after.toTables = replayed contents.toTables (lines.drop (contents.appliedSeq - base)) := by
  have hpen : (LineLog.read codec journal).filter (fun line => contents.appliedSeq < line.seq)
      = lines.drop (contents.appliedSeq - base) := by
    rw [hrd, h.filter_newer hbs]
  have hflw : Follows contents.appliedSeq (lines.drop (contents.appliedSeq - base)) := by
    simpa [Nat.add_sub_cancel' hbs] using h.drop (contents.appliedSeq - base)
  rw [replayJournal, hpen]
  split
  · next hemp =>
    refine ⟨contents, rfl, ?_⟩
    rw [isEmpty_iff.mp hemp]
    rfl
  · refine replayLoop_follows hflw ?_
    rw [length_drop]
    omega

/-! ### The invariant -/

/-- The tables a crash now would find: those of the calls that returned, with the call in flight
once its line is written. -/
def Store.expected (s : Store Object Upload) : Tables Object Upload :=
  match s.flight with
  | .logged data changes => (Call.update data changes).apply s.current.toTables
  | _ => s.current.toTables

/-- The call in flight has emptied the journal and not yet committed. -/
def Flight.Truncated : Flight Object Upload → Prop
  | .truncated _ => True
  | _ => False

def Flight.Logged : Flight Object Upload → Prop
  | .logged _ _ => True
  | _ => False

/-- What holds of the store between any two steps, over the tables it was opened with. -/
structure Inv (codec : Codec (JournalLine Object Upload)) (opened : Tables Object Upload)
    (s : Store Object Upload) (base : Nat) (lines : List (JournalLine Object Upload)) : Prop where
  current : s.current.toTables = s.returned.foldl Call.apply opened
  journal : s.journal = LineLog.render codec lines
  follows : Follows base lines
  seq : s.seq = base + lines.length
  seq_le : s.seq ≤ maxSeq
  started : ∀ call, s.flight = .started call → s.seq < maxSeq
  truncated : s.flight.Truncated → lines = []
  applied : s.durable.appliedSeq ≤ s.seq
  reaches : ¬s.flight.Truncated → base ≤ s.durable.appliedSeq
  pending : ¬s.flight.Truncated →
    replayed s.durable.toTables (lines.drop (s.durable.appliedSeq - base)) = s.expected
  committed : s.flusher = .committed → s.durable.appliedSeq = s.seq ∧ ¬s.flight.Logged

/-- What the source leaves to luck: a flush commits outside the window between a call's line and its
commit, and the sequence is not exhausted. -/
def Careful (s : Store Object Upload) : Event Object Upload → Prop
  | .flushCommit => ¬s.flight.Logged
  | .start _ => s.seq < maxSeq
  | _ => True

/-- The states reached from an opened store by steps that meet the condition. -/
inductive Run (codec : Codec (JournalLine Object Upload)) (contents : Contents Object Upload) :
    Store Object Upload → Prop where
  | opened : Run codec contents (.opened contents)
  | step {s s' : Store Object Upload} {e : Event Object Upload} (run : Run codec contents s)
      (careful : Careful s e) (taken : step codec s e = some s') : Run codec contents s'

theorem changes_journalLine (data : Data Object Upload) (seq : Nat) (changes : List Change) :
    (data.journalLine seq changes).changes = changes.map data.record := by
  unfold Data.journalLine
  split <;> rfl

theorem seq_journalLine (data : Data Object Upload) (seq : Nat) (changes : List Change) :
    (data.journalLine seq changes).seq = seq := by
  unfold Data.journalLine
  split <;> rfl

section Steps
variable {codec : Codec (JournalLine Object Upload)} {opened : Tables Object Upload}
  {s s' : Store Object Upload} {base : Nat} {lines : List (JournalLine Object Upload)}

section

variable {data : Data Object Upload} (inv : Inv codec opened s base lines)

include inv

theorem Inv.log (hfl : s.flight = .started (.update data changes)) (hflu : s.flusher = .idle) :
    Inv codec opened { s with
      journal := s.journal ++ LineLog.line codec (data.journalLine (nextSeq s.seq) changes)
      seq := nextSeq s.seq
      flight := .logged data changes } base (lines ++ [data.journalLine (nextSeq s.seq) changes]) := by
  have hseq : nextSeq s.seq = s.seq + 1 := min_eq_left (inv.started _ hfl)
  have hnot : ¬s.flight.Truncated := by simp [hfl, Flight.Truncated]
  have hlen : s.durable.appliedSeq - base ≤ lines.length := by
    have := inv.applied
    have := inv.seq
    omega
  refine {
    current := inv.current
    journal := by rw [LineLog.render_append, inv.journal]
    follows := inv.follows.concat (by rw [seq_journalLine, hseq, inv.seq])
    seq := by
      rw [hseq, inv.seq, length_append]
      rfl
    seq_le := min_le_right _ _
    started := fun _ h => nomatch h
    truncated := False.elim
    applied := inv.applied.trans (hseq ▸ le_succ s.seq)
    reaches := fun _ => inv.reaches hnot
    pending := fun _ => ?_
    committed := fun h => nomatch hflu.symm.trans h }
  have hexp : s.expected = s.current.toTables := by simp [expected, hfl]
  rw [drop_append_of_le_length hlen, replayed, foldl_append, foldl_cons, foldl_nil, ← replayed,
    changes_journalLine, inv.pending hnot, hexp]
  rfl

theorem Inv.commit (hfl : s.flight = .logged data changes) :
    Inv codec opened (Store.finish { s with
      current := { s.current with
        toTables := (Call.update data changes).apply s.current.toTables
        nextId := data.nextId } } (.update data changes)) base lines := by
  have hnot : ¬s.flight.Truncated := by simp [hfl, Flight.Truncated]
  have hpen := inv.pending hnot
  simp only [expected, hfl] at hpen
  exact {
    current := by simp [finish, inv.current]
    journal := inv.journal
    follows := inv.follows
    seq := inv.seq
    seq_le := inv.seq_le
    started := fun _ h => nomatch h
    truncated := False.elim
    applied := inv.applied
    reaches := fun _ => inv.reaches hnot
    pending := fun _ => hpen
    committed := fun h => absurd (by simp [hfl, Flight.Logged]) (inv.committed h).2 }

end

/-- Emptying the journal once the durable sequence is the newest loses nothing. -/
theorem Inv.flushTruncate (inv : Inv codec opened s base lines) (hflu : s.flusher = .committed) :
    Inv codec opened { s with journal := [], durableSeq := s.seq, flusher := .idle } s.seq [] := by
  obtain ⟨hapd, hlog⟩ := inv.committed hflu
  refine { inv with
    journal := rfl
    follows := trivial
    seq := rfl
    truncated := fun _ => rfl
    reaches := fun _ => hapd.ge
    pending := fun hnot => ?_
    committed := fun h => nomatch h }
  have hpen := inv.pending hnot
  rw [hapd, inv.seq, Nat.add_sub_cancel_left, drop_length] at hpen
  rw [drop_nil]
  exact hpen

/-- A durable commit of everything committed so far. -/
theorem Inv.flushCommit (inv : Inv codec opened s base lines) (hlog : ¬s.flight.Logged) :
    Inv codec opened { s with
      durable := { s.current with appliedSeq := s.seq }
      current := { s.current with appliedSeq := s.seq }
      flusher := .committed } base lines := by
  refine { inv with
    applied := le_refl _
    reaches := fun _ => inv.seq ▸ le_add_right base _
    pending := fun _ => ?_
    committed := fun _ => ⟨rfl, hlog⟩ }
  have hexp : s.expected = s.current.toTables := by
    unfold expected
    split
    · next hfl => exact absurd (by simp [hfl, Flight.Logged]) hlog
    · rfl
  rw [inv.seq, Nat.add_sub_cancel_left, drop_length]
  exact hexp.symm

/-- **Every step keeps the invariant.** -/
theorem Inv.step {event : Event Object Upload} (inv : Inv codec opened s base lines)
    (hcar : Careful s event) (h : step codec s event = some s') :
    ∃ base' lines', Inv codec opened s' base' lines' := by
  cases event <;> simp only [Metadata.step] at h <;> split at h <;> cases h
  -- A call starts.
  next call hfl =>
    have hnot : ¬s.flight.Truncated := by simp [hfl, Flight.Truncated]
    have hpen := inv.pending hnot
    simp only [expected, hfl] at hpen
    exact ⟨base, lines, { inv with
      started := fun _ _ => hcar
      truncated := False.elim
      reaches := fun _ => inv.reaches hnot
      pending := fun _ => hpen
      committed := fun hc => ⟨(inv.committed hc).1, id⟩ }⟩
  -- It has nothing to log.
  next data hfl =>
    have hnot : ¬s.flight.Truncated := by simp [hfl, Flight.Truncated]
    have hpen := inv.pending hnot
    simp only [expected, hfl] at hpen
    exact ⟨base, lines, { inv with
      current := by simp [finish, inv.current, Call.apply]
      started := fun _ h => by cases h
      truncated := False.elim
      reaches := fun _ => inv.reaches hnot
      pending := fun _ => hpen
      committed := fun hc => ⟨(inv.committed hc).1, id⟩ }⟩
  next data change changes hfl hflu =>
    exact ⟨base, _, inv.log hfl hflu⟩
  next data changes hfl => exact ⟨base, lines, inv.commit hfl⟩
  -- A restore truncates the journal first.
  next data hfl hflu =>
    exact ⟨s.seq, [], { inv with
      journal := rfl
      follows := trivial
      seq := rfl
      started := fun _ h => by cases h
      truncated := fun _ => rfl
      reaches := fun hnot => absurd trivial hnot
      pending := fun hnot => absurd trivial hnot
      committed := fun hc => by cases hflu.symm.trans hc }⟩
  next data hfl =>
    have hlin := inv.truncated (by simp [hfl, Flight.Truncated])
    subst hlin
    exact ⟨base, [], { inv with
      current := by simp [finish, Call.apply]
      started := fun _ h => by cases h
      truncated := fun _ => rfl
      applied := le_refl _
      reaches := fun _ => inv.seq ▸ le_add_right base _
      pending := fun _ => by simp [finish, expected, replayed]
      committed := fun _ => ⟨rfl, id⟩ }⟩
  case note.isTrue.refl path _ => exact ⟨base, lines, { inv with }⟩
  case flushStart.isTrue.refl =>
    exact ⟨base, lines, { inv with committed := fun hc => by cases hc }⟩
  case flushCommit.isTrue.refl => exact ⟨base, lines, inv.flushCommit hcar⟩
  case flushTruncate.isTrue.refl hflu => exact ⟨s.seq, [], inv.flushTruncate hflu⟩

theorem Run.inv (hmax : contents.appliedSeq ≤ maxSeq)
    (run : Run codec contents s) : ∃ base lines, Inv codec contents.toTables s base lines := by
  induction run with
  | opened => exact ⟨contents.appliedSeq, [], {
      current := rfl
      journal := rfl
      follows := trivial
      seq := rfl
      seq_le := hmax
      started := fun _ h => by cases h
      truncated := fun _ => rfl
      applied := le_refl _
      reaches := fun _ => le_refl _
      pending := fun _ => by simp [replayed, Store.expected, Store.opened]
      committed := fun h => by cases h }⟩
  | step _ hcar hst ih =>
    obtain ⟨base, lines, inv⟩ := ih
    exact inv.step hcar hst

end Steps

/-! ### After a crash -/

def Flight.call : Flight Object Upload → Option (Call Object Upload)
  | .idle => none
  | .started call => some call
  | .logged data changes => some (.update data changes)
  | .truncated data => some (.replace data)

/-- The tables of the calls that returned, or also of the call in flight. -/
def Acknowledged (opened : Tables Object Upload) (s : Store Object Upload)
    (t : Tables Object Upload) : Prop :=
  t = s.returned.foldl Call.apply opened ∨
    ∃ call, s.flight.call = some call ∧ t = (s.returned ++ [call]).foldl Call.apply opened

section

variable {codec : Codec (JournalLine Object Upload)} {opened : Tables Object Upload}
  {s : Store Object Upload} {lines : List (JournalLine Object Upload)}
  (inv : Inv codec opened s base lines)

include inv

theorem Inv.acknowledged_expected : Acknowledged opened s s.expected := by
  unfold expected
  split
  · next data changes hfl =>
    refine .inr ⟨.update data changes, by rw [hfl]; rfl, ?_⟩
    rw [foldl_append, inv.current]
    rfl
  · exact .inl inv.current

/-- The journal a crash leaves replays over the durable contents. -/
theorem Inv.replays (hrpl : s.flight.Truncated → s.durable.toTables = s.current.toTables)
    (htn : Torn codec s journal) :
    ∃ after, replayJournal codec journal s.durable = .ok after ∧
      Acknowledged opened s after.toTables := by
  by_cases htr : s.flight.Truncated
  · have hlin := inv.truncated htr
    subst hlin
    have hjr : journal = [] := by
      cases htn with
      | whole => exact inv.journal
      | cut hfl => simp [hfl, Flight.Truncated] at htr
    subst hjr
    exact ⟨s.durable, rfl, .inl ((hrpl htr).trans inv.current)⟩
  · have whole : LineLog.read codec journal = lines → ∃ after,
        replayJournal codec journal s.durable = .ok after ∧
          Acknowledged opened s after.toTables := fun hrd => by
      obtain ⟨after, hrpy, htb⟩ := replayJournal_follows hrd inv.follows
        (inv.reaches htr) (inv.seq ▸ inv.applied) (inv.seq ▸ inv.seq_le)
      refine ⟨after, hrpy, ?_⟩
      rw [htb, inv.pending htr]
      exact inv.acknowledged_expected
    cases htn with
    | whole => exact whole (by rw [inv.journal, LineLog.read_render])
    | @cut data changes text hfl hne hflu htx =>
      rcases LineLog.read_render_cut codec lines htx with hrd | hrd <;>
        rw [← inv.journal] at hrd
      · exact whole hrd
      -- The cut took the newline at most: the line counts, and its call is applied whole.
      have logged := inv.log hfl hflu
      obtain ⟨after, hrpy, htb⟩ := replayJournal_follows hrd logged.follows
        (inv.reaches htr) (logged.seq ▸ logged.applied) (logged.seq ▸ logged.seq_le)
      refine ⟨after, hrpy, .inr ⟨.update data changes, by rw [hfl]; rfl, ?_⟩⟩
      rw [htb]
      refine (logged.pending id).trans ?_
      rw [foldl_append, ← inv.current]
      rfl

end

/-- **Acknowledged changes survive a crash** at any point of a run whose flushes commit outside the
window between a call's line and its commit, unless the crash falls between the two steps of a
replacement with commits not yet durable. -/
theorem acknowledged_survive {codec : Codec (JournalLine Object Upload)}
    {contents : Contents Object Upload} (hmax : contents.appliedSeq ≤ maxSeq)
    {s : Store Object Upload} (run : Run codec contents s)
    (hreplace : s.flight.Truncated → s.durable.toTables = s.current.toTables)
    {journal : List UInt8} (htorn : Torn codec s journal) :
    ∃ after, reopen codec s.durable journal = .ok after ∧
      Acknowledged contents.toTables s after.current.toTables := by
  obtain ⟨base, lines, inv⟩ := run.inv hmax
  obtain ⟨after, hrpy, haft⟩ := inv.replays hreplace htorn
  refine ⟨.opened after, ?_, haft⟩
  rw [reopen, hrpy]
  rfl

/-! ### The two windows -/

def sampleKey : Storage.Text := [98, 0, 97]

/-- One object put. -/
def sampleCall : Call Nat Nat :=
  .update { objects := (∅ : Std.ExtTreeMap Storage.Text Nat).insert sampleKey 7 } [.object sampleKey]

def sampleCodec : Codec (JournalLine Nat Nat) := .unary _

/-- The object is removed. -/
def removal : Call Nat Nat := .update { objects := ∅ } [.object sampleKey]

/-- A put that a flush made durable, its removal that only the journal has, and a put whose line a
crash cuts. -/
theorem acknowledged_survive_torn : ∃ (s : Store Nat Nat) (text : List UInt8),
    s.returned = [sampleCall, removal] ∧ s.flight = .started sampleCall ∧ text.length = 1 ∧
      ∃ after, reopen sampleCodec s.durable (s.journal ++ text) = .ok after ∧
        Acknowledged {} s after.current.toTables := by
  have flushed := (Run.opened : Run sampleCodec {} _)
    |>.step (e := .start sampleCall) (show 0 < maxSeq by decide) rfl
    |>.step (e := .log) trivial rfl |>.step (e := .commit) trivial rfl
    |>.step (e := .flushStart) trivial rfl |>.step (e := .flushCommit) id rfl
    |>.step (e := .flushTruncate) trivial rfl
  have started := flushed
    |>.step (e := .start removal) (show 1 < maxSeq by decide) rfl
    |>.step (e := .log) trivial rfl |>.step (e := .commit) trivial rfl
    |>.step (e := .start sampleCall) (show 2 < maxSeq by decide) rfl
  exact ⟨_, _, rfl, rfl, by decide +kernel, acknowledged_survive (zero_le _) started False.elim
    (.cut rfl nofun rfl ⟨_, take_append_drop 1 _⟩)⟩

/-- The store after events from an empty one. -/
def played (events : List (Event Nat Nat)) : Option (Store Nat Nat) :=
  events.foldlM (step sampleCodec) (.opened {})

/-- **A flush between a call's line and its commit loses the call**: it records the line's sequence
as applied and empties the journal, and the commit that follows is not durable. -/
theorem flush_loses :
    ∃ s, played [.start sampleCall, .log, .flushStart, .flushCommit, .flushTruncate, .commit] =
      some s ∧
      s.returned = [sampleCall] ∧ s.flight = .idle ∧
      ∃ after, reopen sampleCodec s.durable s.journal = .ok after ∧
        after.current.objects[sampleKey]? = none ∧
        (s.returned.foldl Call.apply {}).objects[sampleKey]? = some 7 := by
  refine ⟨_, rfl, rfl, rfl, _, rfl, ?_, ?_⟩
  · decide +kernel
  · decide +kernel

/-- **A crash inside a replacement loses what it was to replace**: the journal is already empty. -/
theorem replace_loses :
    ∃ s, played [.start sampleCall, .log, .commit, .start (.replace { objects := ∅, nextId := 1 }),
        .truncate] = some s ∧
      s.returned = [sampleCall] ∧
      ∃ after, reopen sampleCodec s.durable s.journal = .ok after ∧
        after.current.objects[sampleKey]? = none ∧
        (s.returned.foldl Call.apply {}).objects[sampleKey]? = some 7 := by
  refine ⟨_, rfl, rfl, _, rfl, ?_, ?_⟩
  · decide +kernel
  · decide +kernel

end Firenook.Metadata
