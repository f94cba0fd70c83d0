import Firenook.Store.Name
import Firenook.Support.Tally

/-!
# Tasks — one queue and its dispatch slots

A task waits in the pending queue, which is in task-id order, or in the held map until its
schedule time; it then takes a dispatch slot, and leaves for the history as a `Finished` record.
The operations are those of `TaskQueue`, and the console's. Where the source reads a clock, the
operation is given what it read off it: the tokens there are (`dispatchTasks`), whether a backoff
has passed and whether retrying stops (`Clock`). The stack of free slots has its top first.
-/

namespace Firenook.Tasks

open Std

abbrev Text := List UInt8

abbrev Time := Nat

structure Task where
  id : Nat
  name : Text
  scheduled : Option Time
  deriving DecidableEq

inductive TaskOutcome where
  | succeeded
  | failed
  | cancelled
  | deleted
  | purged
  | replaced
  deriving DecidableEq

/-- A task that left for the history, with the occupancy it ended. -/
structure Finished where
  task : Task
  outcome : TaskOutcome
  dispatchId : Option Nat
  deriving DecidableEq

inductive Status where
  | notStarted
  | running
  | retry
  | failed
  | finished
  | cancelled
  deriving DecidableEq

/-- A task occupying a slot. `id` identifies the occupancy. -/
structure Dispatch where
  id : Nat
  task : Task
  status : Status := .notStarted
  attempt : Nat := 1
  lastRun : Option Time := none
  previousResponse : Option Nat := none
  executionCount : Nat := 0
  stopRequested : Bool := false
  runNow : Bool := false
  deriving DecidableEq

def Finished.pending (task : Task) (outcome : TaskOutcome) : Finished := ⟨task, outcome, none⟩

def Finished.slotted (dispatch : Dispatch) (outcome : TaskOutcome) : Finished :=
  ⟨dispatch.task, outcome, some dispatch.id⟩

/-- What a sent request came back with. -/
inductive Outcome where
  | status (code : Nat)
  | failed
  deriving DecidableEq

/-- The key of the held map: due time first. -/
@[ext] structure HeldKey where
  due : Time
  id : Nat
  deriving DecidableEq

instance : Ord HeldKey := ⟨compareLex (compareOn HeldKey.due) (compareOn HeldKey.id)⟩

instance : TransOrd HeldKey :=
  inferInstanceAs (TransCmp (compareLex (compareOn HeldKey.due) (compareOn HeldKey.id)))

instance : LawfulEqOrd HeldKey := LexOrder.lawfulEqCmp_compareLex HeldKey.ext

structure Queue where
  pending : List Task := []
  held : ExtTreeMap HeldKey Task compare := ∅
  heldDue : ExtTreeMap Nat Time compare := ∅
  count : Int := 0
  knownNames : List Text := []
  queuedIds : List Text := []
  slots : List (Option Dispatch)
  openSlots : List Nat

def queueCapacity : Int := 10000

/-- What a tick reads off the clock for a dispatch. -/
structure Clock where
  /-- The wall clock. -/
  wall : Time
  /-- The whole tokens of the bucket. -/
  tokens : Nat
  /-- The backoff since the last run has passed. -/
  elapsed : Dispatch → Bool
  /-- `should_stop_retrying`. -/
  stop : Dispatch → Bool

namespace Queue

def new (slots : Nat) : Queue where
  slots := List.replicate slots none
  openSlots := (List.range slots).reverse

/-! ### Waiting tasks -/

def nameReserved (queue : Queue) (name : Text) : Bool :=
  queue.queuedIds.contains name || queue.knownNames.contains name

def full (queue : Queue) : Bool := queueCapacity ≤ queue.count

def holdTask (queue : Queue) (due : Time) (task : Task) : Queue :=
  { queue with
    heldDue := queue.heldDue.insert task.id due
    held := queue.held.insert ⟨due, task.id⟩ task }

def unhold (queue : Queue) (key : HeldKey) : Queue :=
  { queue with heldDue := queue.heldDue.erase key.id, held := queue.held.erase key }

/-- The books of an accepted task: its name is kept and the count goes up. -/
def book (queue : Queue) (task : Task) : Queue :=
  { queue with
    knownNames := task.name :: queue.knownNames
    queuedIds := task.name :: queue.queuedIds
    count := queue.count + 1 }

/-- `none` for a reserved name or a full queue. -/
def enqueue (queue : Queue) (task : Task) (holdScheduled : Bool) (now : Time) : Option Queue :=
  if queue.nameReserved task.name || queue.full then none
  else
    match task.scheduled with
    | some due =>
      if holdScheduled && now < due then some ((queue.book task).holdTask due task)
      else some { queue.book task with pending := queue.pending ++ [task] }
    | none => some { queue.book task with pending := queue.pending ++ [task] }

/-- Takes the first pending or held task `picks` picks. -/
def takeWaiting (queue : Queue) (picks : Task → Bool) : Option (Task × Queue) :=
  match queue.pending.find? picks with
  | some task => some (task, { queue with pending := queue.pending.eraseP picks })
  | none =>
    match queue.held.toList.find? fun entry => picks entry.2 with
    | some entry => (queue.held[entry.1]?).map fun task => (task, queue.unhold entry.1)
    | none => none

/-- `Queue.remove`: `none` for an unknown name; a task in a slot keeps running. -/
def remove (queue : Queue) (name : Text) : Option (Option Finished × Queue) :=
  if queue.knownNames.contains name then
    let known := { queue with knownNames := queue.knownNames.erase name, count := queue.count - 1 }
    match known.takeWaiting fun task => task.name = name with
    | some (task, queue) => some (some (.pending task .deleted), queue)
    | none => some (none, known)
  else none

/-- The place by task id. -/
def insertPending (queue : Queue) (task : Task) : Queue :=
  { queue with
    pending := queue.pending.takeWhile (·.id < task.id)
      ++ task :: queue.pending.dropWhile (·.id < task.id) }

/-- A held task whose time came joins the pending queue. -/
def release (queue : Queue) (entry : HeldKey × Task) : Queue :=
  insertPending { queue with
    held := queue.held.erase entry.1, heldDue := queue.heldDue.erase entry.2.id } entry.2

/-- The held tasks that are due are the first ones. -/
def releaseDue (queue : Queue) (now : Time) : Queue :=
  (queue.held.toList.takeWhile fun entry => entry.1.due ≤ now).foldl release queue

/-- A pending task that is scheduled for later waits. -/
def holdLater (now : Time) (queue : Queue) (task : Task) : Queue :=
  match task.scheduled with
  | some due =>
    if now < due then queue.holdTask due task
    else { queue with pending := queue.pending ++ [task] }
  | none => { queue with pending := queue.pending ++ [task] }

def setHold (queue : Queue) (hold : Bool) (now : Time) : Queue :=
  if hold then queue.pending.foldl (holdLater now) { queue with pending := [] }
  else (queue.held.toList.map Prod.snd).foldl insertPending
    { queue with held := ∅, heldDue := ∅ }

/-- Takes every pending and held task. -/
def takeAllWaiting (queue : Queue) : List Task × Queue :=
  (queue.pending ++ queue.held.toList.map Prod.snd,
    { queue with pending := [], held := ∅, heldDue := ∅ })

/-- `pending_position` and `held_due`. -/
def waiting (queue : Queue) (id : Nat) : Bool :=
  (queue.pending.dropWhile (·.id < id)).head?.any (·.id = id) || queue.heldDue.contains id

/-! ### Slots -/

def occupy (queue : Queue) (slot : Nat) (dispatchId : Nat) (task : Task) : Queue :=
  { queue with
    count := queue.count - 1
    slots := queue.slots.set slot (some { id := dispatchId, task }) }

/-- The slot is free again. -/
def vacate (queue : Queue) (slot : Nat) : Queue :=
  { queue with slots := queue.slots.set slot none, openSlots := slot :: queue.openSlots }

def setDispatch (queue : Queue) (slot : Nat) (dispatch : Dispatch) : Queue :=
  { queue with slots := queue.slots.set slot (some dispatch) }

/-- Pending tasks move into free slots while tokens last. -/
def dispatchTasks : Queue → Nat → Nat → Queue × Nat
  | queue, nextId, 0 => (queue, nextId)
  | queue, nextId, tokens + 1 =>
    match queue.pending, queue.openSlots with
    | task :: pending, slot :: openSlots =>
      dispatchTasks (occupy { queue with pending, openSlots } slot (nextId + 1) task)
        (nextId + 1) tokens
    | _, _ => (queue, nextId)

/-- What `process` does to one slot: the queue, the finished task and the request to send. -/
def processSlot (clock : Clock) (queue : Queue) (slot : Nat) :
    Queue × Option Finished × Option Nat :=
  match queue.slots[slot]? with
  | some (some dispatch) =>
    match dispatch.status with
    | .failed => (queue.vacate slot, some (.slotted dispatch .failed), none)
    | .finished => (queue.vacate slot, some (.slotted dispatch .succeeded), none)
    | .cancelled => (queue.vacate slot, some (.slotted dispatch .cancelled), none)
    | .notStarted =>
      if !dispatch.runNow && dispatch.lastRun.isSome && !clock.elapsed dispatch then
        (queue, none, none)
      else
        (queue.setDispatch slot { dispatch with runNow := false, status := .running }, none,
          some dispatch.id)
    | .retry =>
      if clock.stop dispatch then
        (queue.setDispatch slot { dispatch with status := .failed }, none, none)
      else
        (queue.setDispatch slot
          { dispatch with attempt := dispatch.attempt + 1, status := .notStarted }, none, none)
    | .running => (queue, none, none)
  | _ => (queue, none, none)

/-- `isActive`, with the console's pause. -/
def isActive (queue : Queue) (paused : Bool) : Bool :=
  (!paused && !queue.pending.isEmpty) || queue.slots.any Option.isSome

/-- The first slot whose dispatch `picks` picks. -/
def findSlot (queue : Queue) (picks : Dispatch → Bool) : Option (Nat × Dispatch) :=
  match queue.slots.findIdx? fun slot => slot.any picks with
  | some index => (queue.slots[index]?.join).map fun dispatch => (index, dispatch)
  | none => none

end Queue

/-- How an outcome changes the dispatch it is for. -/
def Dispatch.completed (dispatch : Dispatch) (outcome : Outcome) (now : Time) : Dispatch :=
  let next :=
    match outcome with
    | .status code =>
      if 200 ≤ code ∧ code ≤ 299 then { dispatch with status := .finished }
      else
        { dispatch with
          executionCount := dispatch.executionCount + if 500 ≤ code ∧ code ≤ 599 then 0 else 1
          previousResponse := some code
          status := .retry
          lastRun := some now }
    | .failed => { dispatch with status := .retry, lastRun := some now }
  if next.stopRequested && next.status = .retry then { next with status := .cancelled } else next

inductive RunNowError where
  | notFound
  | busy
  | running
  deriving DecidableEq

namespace Queue

/-- `none` when no slot runs the dispatch. -/
def complete (queue : Queue) (dispatchId : Nat) (outcome : Outcome) (now : Time) : Option Queue :=
  (queue.findSlot fun dispatch => dispatch.id = dispatchId && dispatch.status = .running).map
    fun found => queue.setDispatch found.1 (found.2.completed outcome now)

/-! ### The console's controls -/

/-- A waiting task takes a free slot; a task in its backoff runs on the next tick. -/
def runNow (queue : Queue) (id nextId : Nat) : Except RunNowError (Queue × Nat) :=
  match queue.findSlot fun dispatch => dispatch.task.id = id with
  | some (slot, dispatch) =>
    match dispatch.status with
    | .running => .error .running
    | .notStarted =>
      if dispatch.lastRun.isNone then .ok (queue, nextId)
      else .ok (queue.setDispatch slot { dispatch with runNow := true }, nextId)
    | .retry => .ok (queue.setDispatch slot { dispatch with runNow := true }, nextId)
    | .failed | .finished | .cancelled => .ok (queue, nextId)
  | none =>
    if !queue.waiting id then .error .notFound
    else
      match queue.openSlots with
      | [] => .error .busy
      | slot :: openSlots =>
        match takeWaiting { queue with openSlots } fun task => task.id = id with
        | some (task, queue) => .ok (queue.occupy slot (nextId + 1) task, nextId + 1)
        | none => .error .notFound

/-- `none` when no slot holds the task, or its dispatch is over. -/
def stopRetrying (queue : Queue) (id : Nat) : Option (Option Finished × Queue) :=
  match queue.findSlot fun dispatch => dispatch.task.id = id with
  | none => none
  | some (slot, dispatch) =>
    match dispatch.status with
    | .running => some (none, queue.setDispatch slot { dispatch with stopRequested := true })
    | .failed | .finished | .cancelled => none
    | .notStarted | .retry => some (some (.slotted dispatch .cancelled), queue.vacate slot)

/-- The tasks of a queue, wherever they are. -/
def tasks (queue : Queue) : List Task :=
  queue.pending ++ queue.held.toList.map Prod.snd
    ++ (queue.slots.filterMap fun slot => slot.map Dispatch.task)

/-- `Queue.remove` for the task's name, and its retries stopped; `none` for an unknown id. -/
def removeById (queue : Queue) (id : Nat) : Option (List Finished × Queue) :=
  match queue.tasks.find? fun task => task.id = id with
  | none => none
  | some task =>
    let removed := (queue.remove task.name).getD (none, queue)
    let stopped := (removed.2.stopRetrying id).getD (none, removed.2)
    some (removed.1.toList ++ stopped.1.toList, stopped.2)

/-- The official bookkeeping of one purged task. -/
def forget (queue : Queue) (task : Task) : Queue :=
  if queue.knownNames.contains task.name then
    { queue with knownNames := queue.knownNames.erase task.name, count := queue.count - 1 }
  else queue

/-- Stops the tasks one after the other. -/
def stopAll : Queue → List Nat → List Finished × Queue
  | queue, [] => ([], queue)
  | queue, id :: ids =>
    let stopped := (queue.stopRetrying id).getD (none, queue)
    let rest := stopAll stopped.2 ids
    (stopped.1.toList ++ rest.1, rest.2)

def purge (queue : Queue) (stopRetrying : Bool) : List Finished × Queue :=
  let taken := queue.takeAllWaiting
  let purged := taken.1.map fun task => Finished.pending task .purged
  let queue := taken.1.foldl forget taken.2
  if stopRetrying then
    let stopped := queue.stopAll (queue.slots.filterMap fun slot => slot.map (·.task.id))
    (purged ++ stopped.1, stopped.2)
  else (purged, queue)

/-- Every task leaves as replaced when the queue is registered anew. -/
def drainReplaced (queue : Queue) : List Finished :=
  (queue.takeAllWaiting.1.map fun task => Finished.pending task .replaced)
    ++ queue.slots.filterMap fun slot => slot.map (Finished.slotted · .replaced)

end Queue

end Firenook.Tasks
