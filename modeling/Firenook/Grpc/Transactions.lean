import Firenook.Store.Memory

/-!
# Grpc — Transactions

Transactions of the service (`service.rs`): each reads its own snapshot, every read path records the
update time it saw (`record_read`, the first record wins), and a commit compares the records with
the store before its writes. The comparison and the writes are two steps under the rules' write
lock, which every commit of this service takes and the two bulk deletions of the REST front do not.
What a transaction reported to its client still holds when its commit writes (`reads_hold`), unless
`get_document` answered that a document is missing, which is not recorded (`missing_unrecorded`), or
a bulk deletion fell between the two steps.
-/

namespace Firenook.Grpc
open ChangeLog Option List Std

variable {allowed : Bool} {now : Elapsed} {db : DatabaseName} {token : Nat}

/-- Existence and update time of a document. -/
def version (documents : Documents) (key : DocumentKey) : Option Timestamp :=
  documents[key]?.map Document.updateTime

inductive Status where
  | invalidArgument (message : String)
  | failedPrecondition (message : String)
  | aborted (message : String)
  -- ABORTED with "transaction document changed: " and the name.
  | documentChanged (key : DocumentKey)
  | notFound (key : DocumentKey)
  | permissionDenied
  | commitStatus (error : CommitError)
  | snapshotStatus (error : SnapshotError)

def transactionEnded : String := "The referenced transaction has expired or is no longer valid."

def invalidTransaction : String := "Invalid transaction."

def otherDatabase : String := "transaction belongs to a different database"

structure TransactionState where
  database : DatabaseName
  snapshot : Documents
  readOnly : Bool
  reads : Map DocumentKey (Option Timestamp) := ∅
  -- The documents whose presence or absence the client was told.
  reported : List DocumentKey := []

/-- A commit that has passed its checks and holds the write lock. -/
structure Committing where
  transaction : TransactionState
  writes : List Write

/-- A commit that succeeded, with the store's documents just before its writes. -/
structure Committed where
  transaction : TransactionState
  before : Documents

/-- The service: transactions by the sequence in their token. -/
structure Service where
  store : State
  transactions : Map Nat TransactionState := ∅
  nextId : Nat := 1
  committing : Option Committing := none
  committed : List Committed := []

/-! ### Reads -/

namespace TransactionState

/-- `record_read`: the first record of a document stays. -/
def recordRead (t : TransactionState) (key : DocumentKey) (document : Option Document) :
    TransactionState :=
  if t.reads.contains key then t
  else { t with reads := t.reads.insert key (document.map Document.updateTime) }

def report (t : TransactionState) (key : DocumentKey) : TransactionState :=
  { t with reported := key :: t.reported }

/-- Outcomes recorded, then told. -/
def answer (t : TransactionState) (reads : List (DocumentKey × Option Document)) :
    TransactionState :=
  reads.foldl (fun t read => (t.recordRead read.1 read.2).report read.1) t

end TransactionState

namespace Service

/-- Why a token names no open transaction. -/
def transactionGone (s : Service) (token : Nat) : Status :=
  if token < s.nextId then .aborted transactionEnded else .invalidArgument invalidTransaction

def snapshotForTransaction (s : Service) (database : DatabaseName) (token : Nat) :
    Except Status TransactionState :=
  match s.transactions[token]? with
  | none => .error (s.transactionGone token)
  | some t => if t.database ≠ database then .error (.invalidArgument otherDatabase) else .ok t

def setTransaction (s : Service) (token : Nat) (t : TransactionState) : Service :=
  { s with transactions := s.transactions.insert token t }

/-- The snapshot a transaction reads: only a read-only one may name a time. -/
def openSnapshot (s : Service) (readOnly : Bool) (readTime : Option Timestamp) :
    Except Status Documents :=
  match readOnly, readTime with
  | true, some time =>
    match s.store.snapshotAtTime time with
    | .error e => .error (.snapshotStatus e)
    | .ok snapshot => .ok snapshot.documents
  | _, _ => .ok s.store.documents

/-- `begin_transaction_inner`. -/
def beginTransaction (s : Service) (database : DatabaseName) (readOnly : Bool)
    (readTime : Option Timestamp) : Except Status (Nat × Service) := do
  let snapshot ← s.openSnapshot readOnly readTime
  .ok (s.nextId, { s.setTransaction s.nextId { database, snapshot, readOnly } with
    nextId := s.nextId + 1 })

/-- `get_document` with a transaction's token, under the rules' decision. -/
def getDocument (s : Service) (token : Nat) (key : DocumentKey) (allowed : Bool) :
    Except Status Document × Service :=
  match s.snapshotForTransaction key.database token with
  | .error e => (.error e, s)
  | .ok t =>
    if !allowed then (.error .permissionDenied, s)
    else match t.snapshot[key]? with
      -- The source returns here, before it records the read.
      | none => (.error (.notFound key), s.setTransaction token (t.report key))
      | some document => (.ok document, s.setTransaction token (t.answer [(key, some document)]))

/-- The read paths that record every outcome of their answer. -/
def readAll (s : Service) (database : DatabaseName) (token : Nat) (allowed : Bool)
    (outcomes : Documents → List (DocumentKey × Option Document)) :
    Except Status (List (DocumentKey × Option Document)) × Service :=
  match s.snapshotForTransaction database token with
  | .error e => (.error e, s)
  | .ok t =>
    if !allowed then (.error .permissionDenied, s)
    else (.ok (outcomes t.snapshot), s.setTransaction token (t.answer (outcomes t.snapshot)))

/-- `batch_get_documents`: each distinct name once, found or missing. -/
def batchGetDocuments (s : Service) (database : DatabaseName) (token : Nat)
    (keys : List DocumentKey) (allowed : Bool) :
    Except Status (List (DocumentKey × Option Document)) × Service :=
  if keys.any fun key => key.database ≠ database then
    (.error (.invalidArgument "batch document belongs to a different database"), s)
  else s.readAll database token allowed fun snapshot =>
    keys.reverse.dedup.reverse.map fun key => (key, snapshot[key]?)

/-- `list_documents`: the page's documents, the missing ones too when asked for. -/
def listDocuments (s : Service) (database : DatabaseName) (token : Nat) (page : List DocumentKey)
    (allowed : Bool) : Except Status (List (DocumentKey × Option Document)) × Service :=
  s.readAll database token allowed fun snapshot => page.map fun key => (key, snapshot[key]?)

/-- `run_query` and `run_aggregation_query`: the matching documents consumed. -/
def runQuery (s : Service) (database : DatabaseName) (token : Nat) (results : List DocumentKey)
    (allowed : Bool) : Except Status (List (DocumentKey × Option Document)) × Service :=
  s.readAll database token allowed fun snapshot =>
    results.filterMap fun key => snapshot[key]?.map fun document => (key, some document)

/-! ### Commits -/

/-- `commit` up to its writes: the token is spent, the reads are compared, the rules decide. -/
def startCommit (s : Service) (database : DatabaseName) (token : Nat) (writes : List Write)
    (allowed : Bool) : Except Status Unit × Service :=
  match s.transactions[token]? with
  | none => (.error (s.transactionGone token), s)
  | some t =>
    let spent := { s with transactions := s.transactions.erase token }
    if t.database ≠ database then (.error (.invalidArgument otherDatabase), spent)
    else if t.readOnly && !writes.isEmpty then
      (.error (.failedPrecondition "read-only transaction cannot contain writes"), spent)
    else match t.reads.toList.find? fun read => version s.store.documents read.1 ≠ read.2 with
      | some read => (.error (.documentChanged read.1), spent)
      | none =>
        if !allowed then (.error .permissionDenied, spent)
        else (.ok (), { spent with committing := some ⟨t, writes⟩ })

/-- The writes of the commit that holds the lock. `none` is a commit that never returns. -/
def finishCommit (s : Service) (now : Elapsed) (c : Committing) :
    Option (Except Status CommitPoint × Service) :=
  (s.store.commit now c.writes).map fun
    | .error e => (.error (.commitStatus e), { s with committing := none })
    | .ok (point, store) => (.ok point, { s with
        store := store
        committing := none
        committed := ⟨c.transaction, s.store.documents⟩ :: s.committed })

/-- A commit without a transaction, of any front. -/
def plainCommit (s : Service) (now : Elapsed) (writes : List Write) :
    Option (Except Status CommitPoint × Service) :=
  (s.store.commit now writes).map fun
    | .error e => (.error (.commitStatus e), s)
    | .ok (point, store) => (.ok point, { s with store := store })

def rollback (s : Service) (token : Nat) : Service :=
  { s with transactions := s.transactions.erase token }

end Service

inductive Event where
  | beginTransaction (database : DatabaseName) (readOnly : Bool) (readTime : Option Timestamp)
  | getDocument (token : Nat) (key : DocumentKey) (allowed : Bool)
  | batchGetDocuments (database : DatabaseName) (token : Nat) (keys : List DocumentKey)
      (allowed : Bool)
  | listDocuments (database : DatabaseName) (token : Nat) (page : List DocumentKey) (allowed : Bool)
  | runQuery (database : DatabaseName) (token : Nat) (results : List DocumentKey) (allowed : Bool)
  | rollback (token : Nat)
  | startCommit (database : DatabaseName) (token : Nat) (writes : List Write) (allowed : Bool)
  | finishCommit (now : Elapsed)
  -- A commit under the write lock, and one of the bulk deletions, which do not take it.
  | plainCommit (now : Elapsed) (writes : List Write)
  | bulkDelete (now : Elapsed) (keys : List DocumentKey)

/-- One step, when it can be taken. -/
def step (s : Service) : Event → Option Service
  | .beginTransaction db readOnly readTime =>
    match s.beginTransaction db readOnly readTime with
    | .error _ => some s
    | .ok (_, s') => some s'
  | .getDocument token key allowed => some (s.getDocument token key allowed).2
  | .batchGetDocuments db token keys allowed =>
    some (s.batchGetDocuments db token keys allowed).2
  | .listDocuments db token page allowed => some (s.listDocuments db token page allowed).2
  | .runQuery db token results allowed => some (s.runQuery db token results allowed).2
  | .rollback token => some (s.rollback token)
  | .startCommit db token writes allowed =>
    if s.committing.isSome then none else some (s.startCommit db token writes allowed).2
  | .finishCommit now => s.committing.bind fun c => (s.finishCommit now c).map Prod.snd
  | .plainCommit now writes =>
    if s.committing.isSome then none else (s.plainCommit now writes).map Prod.snd
  | .bulkDelete now keys =>
    (s.plainCommit now (keys.map fun key => .delete key .none)).map Prod.snd

/-! ### The invariant -/

/-- What the transaction reported of its snapshot is what these documents say. -/
def TransactionState.Holds (t : TransactionState) (documents : Documents) : Prop :=
  ∀ key ∈ t.reported, version documents key = version t.snapshot key

/-- Every report is recorded, and every record is the snapshot's. -/
structure TransactionState.Recorded (t : TransactionState) : Prop where
  reads : ∀ key time, t.reads[key]? = some time → time = version t.snapshot key
  reported : ∀ key ∈ t.reported, t.reads[key]?.isSome

namespace TransactionState

variable {t : TransactionState}

theorem Recorded.answerOne (h : t.Recorded) (key : DocumentKey) :
    ((t.recordRead key t.snapshot[key]?).report key).Recorded ∧
      ((t.recordRead key t.snapshot[key]?).report key).snapshot = t.snapshot := by
  unfold recordRead
  split
  · next hcon =>
    refine ⟨⟨h.reads, ?_⟩, rfl⟩
    intro k hk
    rcases mem_cons.mp hk with rfl | hk
    · simpa [report] using hcon
    · exact h.reported k hk
  · refine ⟨⟨?_, ?_⟩, rfl⟩
    · intro k time hk
      simp only [report, ExtTreeMap.getElem?_insert] at hk
      split at hk
      · next heq =>
        rw [← LawfulEqOrd.eq_of_compare heq, ← some.inj hk]
        rfl
      · exact h.reads k time hk
    · intro k hk
      simp only [report, ExtTreeMap.getElem?_insert]
      split
      · rfl
      next hne =>
      rcases mem_cons.mp hk with rfl | hk
      · simp at hne
      · exact h.reported k hk

/-- Recording what the snapshot says before telling it keeps the records. -/
theorem Recorded.answer {reads : List (DocumentKey × Option Document)} {t : TransactionState}
    (h : t.Recorded) (hrd : ∀ read ∈ reads, read.2 = t.snapshot[read.1]?) :
    (t.answer reads).Recorded := by
  induction reads generalizing t with
  | nil => exact h
  | cons read reads ih =>
    obtain ⟨hrc, hsnp⟩ := h.answerOne read.1
    rw [← hrd read mem_cons_self] at hrc hsnp
    refine ih hrc fun read' hrd' => ?_
    rw [hsnp]
    exact hrd read' (mem_cons_of_mem _ hrd')

/-- Documents that agree with every record agree with every report. -/
theorem Recorded.holds (h : t.Recorded) {docs : Documents}
    (hsm : ∀ key time, t.reads[key]? = some time → version docs key = time) :
    t.Holds docs := by
  intro key hkey
  obtain ⟨time, htm⟩ := isSome_iff_exists.mp (h.reported key hkey)
  rw [hsm key time htm, h.reads key time htm]

end TransactionState

/-- What holds of the service between any two steps. -/
structure Inv (s : Service) : Prop where
  recorded : ∀ (token : Nat) (t : TransactionState), s.transactions[token]? = some t → t.Recorded
  committing : ∀ c : Committing, s.committing = some c → c.transaction.Holds s.store.documents
  committed : ∀ c ∈ s.committed, c.transaction.Holds c.before

/-- What the source leaves to luck: a transaction's `get_document` finds its document, and no bulk
deletion falls between a commit's checks and its writes. -/
def Careful (s : Service) : Event → Prop
  | .getDocument token key _ =>
    ∀ t, s.transactions[token]? = some t → (t.snapshot[key]?).isSome
  | .bulkDelete _ _ => s.committing = none
  | _ => True

/-- The states reached by steps that meet the condition, over any store. -/
inductive Run : Service → Prop where
  | init (store : State) : Run { store }
  | step {s s' : Service} {e : Event} (run : Run s) (careful : Careful s e)
      (taken : step s e = some s') : Run s'

namespace Inv
variable {s : Service}

variable {result : Except Status CommitPoint × Service}

theorem setTransaction (h : Inv s) (token : Nat) (ht : t.Recorded) :
    Inv (s.setTransaction token t) := by
  refine { h with recorded := fun token' t' ht' => ?_ }
  simp only [Service.setTransaction, ExtTreeMap.getElem?_insert] at ht'
  split at ht'
  · exact some.inj ht' ▸ ht
  · exact h.recorded token' t' ht'

theorem erase (h : Inv s) (token : Nat) :
    Inv { s with transactions := s.transactions.erase token } := by
  refine { h with recorded := fun token' t' ht' => ?_ }
  simp only [ExtTreeMap.getElem?_erase] at ht'
  split at ht'
  · cases ht'
  · exact h.recorded token' t' ht'

theorem snapshotForTransaction (ht : s.snapshotForTransaction db token = .ok t) :
    s.transactions[token]? = some t := by
  unfold Service.snapshotForTransaction at ht
  split at ht
  · cases ht
  next hop =>
  split at ht
  · cases ht
  · rw [hop, Except.ok.inj ht]

section

variable (h : Inv s)

include h

theorem beginTransaction {readOnly : Bool} {readTime : Option Timestamp} {s' : Service}
    (hs : s.beginTransaction db readOnly readTime = .ok (token, s')) : Inv s' := by
  obtain ⟨snap, -, hs⟩ := Fallible.bind_eq_ok.mp hs
  obtain ⟨-, rfl⟩ := Prod.mk.inj (Except.ok.inj hs)
  have hnew : (⟨db, snap, readOnly, ∅, []⟩ : TransactionState).Recorded :=
    ⟨fun key time hk => by simp at hk, fun key hk => by cases hk⟩
  exact { (h.setTransaction s.nextId hnew) with }

theorem getDocument {key : DocumentKey}
    (hfd : ∀ t, s.transactions[token]? = some t → (t.snapshot[key]?).isSome) :
    Inv (s.getDocument token key allowed).2 := by
  unfold Service.getDocument
  split
  · exact h
  next t ht =>
  have hop := snapshotForTransaction ht
  split
  · exact h
  split
  · next hmis =>
    have hsm := hfd t hop
    rw [hmis] at hsm
    cases hsm
  · next doc hdoc =>
    refine h.setTransaction token ((h.recorded token t hop).answer ?_)
    intro read hrd
    rw [mem_singleton.mp hrd, hdoc]

theorem readAll {outcomes : Documents → List (DocumentKey × Option Document)}
    (hout : ∀ docs, ∀ read ∈ outcomes docs, read.2 = docs[read.1]?) :
    Inv (s.readAll db token allowed outcomes).2 := by
  unfold Service.readAll
  split
  · exact h
  next t ht =>
  split
  · exact h
  · exact h.setTransaction token
      ((h.recorded token t (snapshotForTransaction ht)).answer (hout t.snapshot))

/-- A commit whose records all match starts with its reports holding. -/
theorem startCommit (db : DatabaseName) (token : Nat) (writes : List Write) (allowed : Bool) :
    Inv (s.startCommit db token writes allowed).2 := by
  unfold Service.startCommit
  split
  · exact h
  next t hop =>
  have herd := h.erase token
  split
  · exact herd
  split
  · exact herd
  split
  · exact herd
  next hsm =>
  split
  · exact herd
  refine { herd with committing := fun c hc => ?_ }
  obtain rfl := some.inj hc
  refine (h.recorded token t hop).holds fun key time hk => ?_
  have hrd := find?_eq_none.mp hsm (key, time) (ExtTreeMap.mem_toList_iff_getElem?_eq_some.mpr hk)
  simpa using hrd

theorem plainCommit (hfr : s.committing = none) {writes : List Write}
    (hs : s.plainCommit now writes = some result) : Inv result.2 := by
  obtain ⟨outcome, -, rfl⟩ := map_eq_some_iff.mp hs
  cases outcome with
  | error e => exact h
  | ok done => exact { h with committing := fun c hc => nomatch hfr.symm.trans hc }

theorem finishCommit {c : Committing} (hc : s.committing = some c)
    (hs : s.finishCommit now c = some result) : Inv result.2 := by
  obtain ⟨outcome, -, rfl⟩ := map_eq_some_iff.mp hs
  cases outcome with
  | error e => exact { h with committing := fun _ hnn => nomatch hnn }
  | ok done =>
    refine { h with
      committing := fun _ hnn => nomatch hnn
      committed := fun c' hc' => ?_ }
    rcases mem_cons.mp hc' with rfl | hc'
    · exact h.committing c hc
    · exact h.committed c' hc'

end

/-- **Every step keeps the invariant.** -/
theorem step {s' : Service} {e : Event} (h : Inv s) (hcar : Careful s e)
    (hs : Grpc.step s e = some s') : Inv s' := by
  cases e with
  | beginTransaction db readOnly readTime =>
    simp only [Grpc.step] at hs
    split at hs
    · exact some.inj hs ▸ h
    · next hbeg => exact some.inj hs ▸ h.beginTransaction hbeg
  | getDocument token key allowed => exact some.inj hs ▸ h.getDocument hcar
  | batchGetDocuments db token keys allowed =>
    obtain rfl := some.inj hs
    unfold Service.batchGetDocuments
    split
    · exact h
    · refine h.readAll fun docs read hrd => ?_
      obtain ⟨key, -, rfl⟩ := mem_map.mp hrd
      rfl
  | listDocuments db token page allowed =>
    obtain rfl := some.inj hs
    refine h.readAll fun docs read hrd => ?_
    obtain ⟨key, -, rfl⟩ := mem_map.mp hrd
    rfl
  | runQuery db token results allowed =>
    obtain rfl := some.inj hs
    refine h.readAll fun docs read hrd => ?_
    obtain ⟨key, -, hrd⟩ := mem_filterMap.mp hrd
    obtain ⟨doc, hdoc, rfl⟩ := map_eq_some_iff.mp hrd
    exact hdoc.symm
  | rollback token => exact some.inj hs ▸ h.erase token
  | startCommit db token writes allowed =>
    simp only [Grpc.step] at hs
    split at hs
    · cases hs
    · exact some.inj hs ▸ h.startCommit db token writes allowed
  | finishCommit now =>
    obtain ⟨c, hc, hs⟩ := bind_eq_some_iff.mp hs
    obtain ⟨result, hres, rfl⟩ := map_eq_some_iff.mp hs
    exact h.finishCommit hc hres
  | plainCommit now writes =>
    simp only [Grpc.step] at hs
    split at hs
    · cases hs
    · next hfr =>
      obtain ⟨result, hres, rfl⟩ := map_eq_some_iff.mp hs
      exact h.plainCommit (not_isSome_iff_eq_none.mp hfr) hres
  | bulkDelete now keys =>
    obtain ⟨result, hres, rfl⟩ := map_eq_some_iff.mp hs
    exact h.plainCommit hcar hres

end Inv

theorem Run.inv {s : Service} (run : Run s) : Inv s := by
  induction run with
  | init store =>
    exact {
      recorded := fun token t ht => by simp at ht
      committing := fun c hc => nomatch hc
      committed := fun c hc => nomatch hc }
  | step _ hcar hs ih => exact ih.step hcar hs

def played (events : List Event) : Option Service :=
  events.foldlM step { store := .new ⟨100, 100000⟩ }

theorem run_played {events : List Event} (h : ∀ e ∈ events, ∀ s, Careful s e) {s : Service}
    (hs : played events = some s) : Run s := by
  suffices ∀ {s s' : Service}, Run s → events.foldlM step s = some s' → Run s' from
    this (.init _) hs
  clear hs
  induction events with
  | nil => exact fun run hs => some.inj hs ▸ run
  | cons e events ih =>
    intro s s' run hs
    obtain ⟨next, hnx, hs⟩ := bind_eq_some_iff.mp hs
    exact ih (fun e' he' => h e' (mem_cons_of_mem _ he')) (run.step (h e mem_cons_self s) hnx) hs

/-- A transaction reads a document and commits. -/
def readingEvents : List Event :=
  [.plainCommit (.ofSeconds 1) [.create exampleKey .sample],
    .beginTransaction exampleDatabase false none,
    .batchGetDocuments exampleDatabase 1 [exampleKey] true,
    .startCommit exampleDatabase 1 [] true, .finishCommit (.ofSeconds 2)]

end Firenook.Grpc
