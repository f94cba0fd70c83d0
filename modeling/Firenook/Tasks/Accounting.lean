import Mathlib.Data.List.TakeWhile
import Firenook.Tasks.Queue

/-!
# Tasks — every task accounted for

A `World` is one queue under the runtime, with its controls, the runtime's two counters, the ids
of the tasks that were accepted, the records handed to the history, and a log of the requests
sent and of the completions that found their slot. Its events are the runtime's operations; other
queues only move the counters.

The invariant `Inv` counts each accepted task once over the pending queue, the held map, the slots,
the history and the tasks in hand, which an operation has taken from one place and not yet put in
another. `Kept` adds a rule for the tasks of each place. One lemma per way to take or put a task
(`Kept.takePending`, `Kept.putSlot`, …) then gives every operation, and **`World.accounted`** every
run.
-/

namespace Firenook.Tasks

open List Std Queue Tally

variable {slots : List (Option Dispatch)} {old : Option Dispatch}
  {held : ExtTreeMap HeldKey Task compare} {key : HeldKey} {picks : Task → Bool} {queue : Queue}
  {tasks : List Task} {k dispatchId : Nat} {d : Dispatch} {task : Task} (i : Nat)

/-! ### The world -/

/-- A request sent for a dispatch, and a completion that the dispatch took. -/
inductive Entry where
  | sent (dispatchId : Nat)
  | completed (dispatchId : Nat)
  deriving DecidableEq

def Entry.id : Entry → Nat
  | sent dispatchId => dispatchId
  | completed dispatchId => dispatchId

structure World where
  queue : Queue
  paused : Bool := false
  holdScheduled : Bool := false
  nextTask : Nat := 0
  nextDispatch : Nat := 0
  accepted : List Nat := []
  history : List Finished := []
  log : List Entry := []

inductive Event where
  | enqueue (name : Text) (scheduled : Option Time) (now : Time)
  | tick (clock : Clock)
  | complete (dispatchId : Nat) (outcome : Outcome) (now : Time)
  | runNow (id : Nat)
  | stopRetrying (id : Nat)
  | remove (name : Text)
  | removeById (id : Nat)
  | purge (stopRetrying : Bool)
  | setPaused (paused : Bool)
  /-- Holding on or off: the control first, the queue after it. -/
  | setHoldControl (hold : Bool)
  | setHold (hold : Bool) (now : Time)
  | registerQueue (slots : Nat)
  /-- Other queues take task and dispatch ids. -/
  | elsewhere (tasks dispatches : Nat)

namespace World

variable {log : List Entry}

def new (slots nextTask nextDispatch : Nat) : World where
  queue := .new slots
  nextTask := nextTask
  nextDispatch := nextDispatch

/-- The queue an operation left, and what it hands to the history. -/
def record (world : World) (result : List Finished × Queue) : World :=
  { world with queue := result.2, history := world.history ++ result.1 }

def enqueue (world : World) (name : Text) (scheduled : Option Time) (now : Time) : World :=
  let task : Task := ⟨world.nextTask + 1, name, scheduled⟩
  match world.queue.enqueue task world.holdScheduled now with
  | none => world
  | some queue =>
    { world with queue, nextTask := task.id, accepted := task.id :: world.accepted }

/-- One turn of the loop of `process`. -/
def processSlot (clock : Clock) (world : World) (slot : Nat) : World :=
  let result := world.queue.processSlot clock slot
  { world.record (result.2.1.toList, result.1) with
    log := world.log ++ (result.2.2.map Entry.sent).toList }

def dispatch (world : World) (tokens : Nat) : World :=
  if world.paused then world
  else
    let result := world.queue.dispatchTasks world.nextDispatch tokens
    { world with queue := result.1, nextDispatch := result.2 }

def tick (clock : Clock) (world : World) : World :=
  let released := { world with queue := world.queue.releaseDue clock.wall }
  if released.queue.isActive released.paused then
    let dispatched := released.dispatch clock.tokens
    (range dispatched.queue.slots.length).foldl (processSlot clock) dispatched
  else released

def complete (world : World) (dispatchId : Nat) (outcome : Outcome) (now : Time) : World :=
  match world.queue.complete dispatchId outcome now with
  | none => world
  | some queue => { world with queue, log := world.log ++ [.completed dispatchId] }

def runNow (world : World) (id : Nat) : World :=
  match world.queue.runNow id world.nextDispatch with
  | .error _ => world
  | .ok result => { world with queue := result.1, nextDispatch := result.2 }

def step (world : World) : Event → World
  | .enqueue name scheduled now => world.enqueue name scheduled now
  | .tick clock => world.tick clock
  | .complete dispatchId outcome now => world.complete dispatchId outcome now
  | .runNow id => world.runNow id
  | .stopRetrying id =>
    let result := (world.queue.stopRetrying id).getD (none, world.queue)
    world.record (result.1.toList, result.2)
  | .remove name =>
    let result := (world.queue.remove name).getD (none, world.queue)
    world.record (result.1.toList, result.2)
  | .removeById id => world.record ((world.queue.removeById id).getD ([], world.queue))
  | .purge stopRetrying => world.record (world.queue.purge stopRetrying)
  | .setPaused paused => { world with paused }
  | .setHoldControl hold => { world with holdScheduled := hold }
  | .setHold hold now => { world with queue := world.queue.setHold hold now }
  | .registerQueue slots => world.record (world.queue.drainReplaced, .new slots)
  | .elsewhere tasks dispatches =>
    { world with
      nextTask := world.nextTask + tasks, nextDispatch := world.nextDispatch + dispatches }

inductive Run : World → Prop
  | start (slots nextTask nextDispatch : Nat) : Run (new slots nextTask nextDispatch)
  | next {world : World} (event : Event) : Run world → Run (world.step event)

end World

/-! ### Counting -/

/-- Whether a task is the one with this id, as a number. -/
def mark (i : Nat) (task : Task) : Nat := if task.id = i then 1 else 0

def total (i : Nat) (tasks : List Task) : Nat := (tasks.map (mark i)).sum

def slotMark (i : Nat) : Option Dispatch → Nat
  | some dispatch => mark i dispatch.task
  | none => 0

def slotTotal (i : Nat) (slots : List (Option Dispatch)) : Nat := (slots.map (slotMark i)).sum

def heldTotal (i : Nat) (held : ExtTreeMap HeldKey Task compare) : Nat :=
  tally (fun _ task => mark i task) held

@[simp] theorem total_nil : total i [] = 0 := rfl

@[simp] theorem total_cons (task : Task) (tasks : List Task) :
    total i (task :: tasks) = mark i task + total i tasks := rfl

@[simp] theorem total_append (l l' : List Task) : total i (l ++ l') = total i l + total i l' := by
  simp [total]

theorem mark_le_total {i : Nat} (h : task ∈ tasks) : mark i task ≤ total i tasks := by
  obtain ⟨before, after, rfl⟩ := append_of_mem h
  rw [total_append, total_cons]
  omega

/-- A slot that changes trades what it held for what it holds. -/
theorem slotTotal_set (new : Option Dispatch) (h : slots[k]? = some old) :
    slotTotal i (slots.set k new) + slotMark i old = slotTotal i slots + slotMark i new := by
  obtain ⟨hlt, rfl⟩ := List.getElem?_eq_some_iff.mp h
  obtain ⟨before, after, hsl, -, hset⟩ := @exists_of_set _ k new _ hlt
  have hold := congrArg (slotTotal i) hsl
  have hnew := congrArg (slotTotal i) hset
  simp only [slotTotal, map_append, sum_append, map_cons, sum_cons] at hold hnew ⊢
  omega

theorem heldTotal_empty : heldTotal i ∅ = 0 := rfl

theorem heldTotal_insert (task : Task) (h : held[key]? = none) :
    heldTotal i (held.insert key task) = mark i task + heldTotal i held := by
  have hers := tally_erase (fun _ task => mark i task) held key
  rw [h, Tally.held, Nat.add_zero] at hers
  rw [heldTotal, tally_insert, hers]
  rfl

theorem heldTotal_erase (h : held[key]? = some task) :
    heldTotal i (held.erase key) + mark i task = heldTotal i held := by
  have hers := tally_erase (fun _ task => mark i task) held key
  rwa [h] at hers

theorem mark_self (task : Task) : mark task.id task = 1 := by simp [mark]

theorem heldTotal_eq (held : ExtTreeMap HeldKey Task compare) :
    heldTotal i held = total i (held.toList.map Prod.snd) := by
  rw [total, map_map]
  rfl

theorem slotTotal_eq (slots : List (Option Dispatch)) : slotTotal i slots
      = total i ((slots.filterMap fun slot => slot.map (Finished.slotted · .replaced)).map
          Finished.task) := by
  induction slots with
  | nil => rfl
  | cons slot slots ih =>
    rw [slotTotal, map_cons, sum_cons, ← slotTotal, ih]
    cases slot with
    | none => simp [slotMark]
    | some d => simp [slotMark, Finished.slotted]

/-! ### Places -/

theorem getElem?_set_slot (h : slots[k]? = some old) (new : Option Dispatch) (m : Nat) :
    (slots.set k new)[m]? = if m = k then some new else slots[m]? := by
  simp [List.getElem?_set, (List.getElem?_eq_some_iff.mp h).1, eq_comm]

/-- A slot that is filled after a change was filled by it, or is another. -/
theorem filled_set (h : slots[k]? = some old) {new : Option Dispatch} {m : Nat} {e : Dispatch}
    (he : (slots.set k new)[m]? = some (some e)) :
    m = k ∧ new = some e ∨ m ≠ k ∧ slots[m]? = some (some e) := by
  rw [getElem?_set_slot h] at he
  split at he
  · next hm => exact .inl ⟨hm, Option.some.inj he⟩
  · next hm => exact .inr ⟨hm, he⟩

theorem filled_vacate (h : slots[k]? = some old) {m : Nat} {e : Dispatch}
    (he : (slots.set k none)[m]? = some (some e)) : slots[m]? = some (some e) :=
  (filled_set h he).elim (fun hnew => nomatch hnew.2) And.right

theorem held_of_insert {k : HeldKey} {t : Task} (h : (held.insert key task)[k]? = some t) :
    key = k ∧ task = t ∨ held[k]? = some t := by
  rw [ExtTreeMap.getElem?_insert] at h
  split at h
  · next heq => exact .inl ⟨LawfulEqCmp.eq_of_compare heq, Option.some.inj h⟩
  · exact .inr h

theorem held_of_erase {k : HeldKey} (h : (held.erase key)[k]? = some task) :
    held[k]? = some task := by
  rw [ExtTreeMap.getElem?_erase] at h
  exact (Option.ite_none_left_eq_some.mp h).2

theorem insertPending_perm (queue : Queue) (task : Task) :
    (queue.insertPending task).pending ~ task :: queue.pending := by
  exact perm_middle.trans (by rw [takeWhile_append_dropWhile])

/-- The ids from a place on are not below it. -/
theorem le_of_mem_dropWhile {n : Nat} (hsrt : tasks.Pairwise fun a b => a.id < b.id)
    (h : task ∈ tasks.dropWhile fun t => t.id < n) : n ≤ task.id := by
  induction tasks with
  | nil => cases h
  | cons first tasks ih =>
    obtain ⟨hlt, hsrt⟩ := pairwise_cons.mp hsrt
    by_cases hfst : first.id < n
    · exact ih hsrt (by simpa [hfst] using h)
    rw [dropWhile_cons_of_neg (by simpa using hfst)] at h
    rcases mem_cons.mp h with rfl | h
    · exact Nat.le_of_not_lt hfst
    · exact (Nat.le_of_not_lt hfst).trans (hlt task h).le

/-- The free slots play no part in what waits. -/
theorem takeWaiting_openSlots {openSlots : List Nat} {rest : Queue}
    (h : takeWaiting { queue with openSlots } picks = some (task, rest)) :
    rest.openSlots = openSlots ∧
      queue.takeWaiting picks = some (task, { rest with openSlots := queue.openSlots }) := by
  unfold Queue.takeWaiting at h ⊢
  simp only at h
  split at h
  · cases h
    exact ⟨rfl, rfl⟩
  split at h
  · obtain ⟨found, hhl, heq⟩ := Option.map_eq_some_iff.mp h
    cases heq
    exact ⟨rfl, Option.map_eq_some_iff.mpr ⟨task, hhl, rfl⟩⟩
  · cases h

theorem findSlot_eq_some {picks : Dispatch → Bool} (h : queue.findSlot picks = some (k, d)) :
    queue.slots[k]? = some (some d) ∧ picks d = true := by
  unfold findSlot at h
  split at h
  · next index hidx =>
    obtain ⟨found, hjn, heq⟩ := Option.map_eq_some_iff.mp h
    cases heq
    have hsl : queue.slots[k]? = some (some d) := Option.join_eq_some_iff.mp hjn
    obtain ⟨hlt, hany, -⟩ := findIdx?_eq_some_iff_getElem.mp hidx
    rw [getElem?_eq_getElem hlt, Option.some.injEq] at hsl
    rw [hsl] at hany
    exact ⟨by rw [getElem?_eq_getElem hlt, hsl], hany⟩
  · cases h

theorem completed_spec (d : Dispatch) (outcome : Outcome) (now : Time) :
    (d.completed outcome now).id = d.id ∧ (d.completed outcome now).task = d.task ∧
      (d.completed outcome now).status ≠ .running := by
  unfold Dispatch.completed
  cases outcome with
  | status code =>
    by_cases hcd : 200 ≤ code ∧ code ≤ 299
    · simp [hcd]
    · simp only [hcd, if_false]
      split <;> simp
  | failed =>
    simp only
    split <;> simp

/-- Two results handed over one after the other. -/
theorem World.record_append (world : World) (a b : List Finished) (queue queue' : Queue) :
    world.record (a ++ b, queue') = (world.record (a, queue)).record (b, queue') := by
  simp [World.record]

/-! ### Requests in flight -/

/-- The last entry of a dispatch is a request. -/
def InFlight (log : List Entry) (dispatchId : Nat) : Prop :=
  (log.filter fun entry => entry.id = dispatchId).getLast? = some (.sent dispatchId)

/-- Between two requests of a dispatch there is a completion. -/
def Alternates (log : List Entry) (dispatchId : Nat) : Prop :=
  ∀ a b c, log = a ++ .sent dispatchId :: (b ++ .sent dispatchId :: c) →
    .completed dispatchId ∈ b

theorem not_inFlight_of_fresh (h : ∀ entry ∈ log, entry.id ≠ dispatchId) :
    ¬InFlight log dispatchId := by
  have hemp : log.filter (fun entry => entry.id = dispatchId) = [] := by
    simpa [filter_eq_nil_iff] using h
  simp [InFlight, hemp]

/-- A request that no completion followed is still in flight. -/
theorem inFlight_of_not_completed {a b : List Entry} (h : .completed dispatchId ∉ b) :
    InFlight (a ++ .sent dispatchId :: b) dispatchId := by
  have hsn : ∀ entry ∈ b.filter (fun entry => entry.id = dispatchId),
      entry = .sent dispatchId := by
    intro entry hent
    obtain ⟨hmem, hid⟩ := mem_filter.mp hent
    cases entry with
    | sent d => exact congrArg Entry.sent (of_decide_eq_true hid)
    | completed d =>
      have hd : d = dispatchId := of_decide_eq_true hid
      exact absurd (hd ▸ hmem) h
  rw [InFlight, filter_append, filter_cons_of_pos (by simp [Entry.id]), eq_replicate_of_mem hsn,
    ← replicate_succ, getLast?_append_of_ne_nil _ (by simp), getLast?_replicate]
  rfl

/-- A request may follow unless one is in flight. -/
theorem Alternates.append (h : Alternates log dispatchId) {entry : Entry}
    (hent : entry = .sent dispatchId → ¬InFlight log dispatchId) :
    Alternates (log ++ [entry]) dispatchId := by
  intro a b c heq
  rcases eq_nil_or_concat c with rfl | ⟨c, last, rfl⟩
  · have hspl : log ++ [entry] = (a ++ .sent dispatchId :: b) ++ [.sent dispatchId] := by
      simpa using heq
    obtain ⟨hlog, hlast⟩ := append_inj' hspl rfl
    by_contra hnot
    exact hent (singleton_inj.mp hlast) (hlog ▸ inFlight_of_not_completed hnot)
  · have hspl : log ++ [entry]
        = (a ++ .sent dispatchId :: (b ++ .sent dispatchId :: c)) ++ [last] := by
      simpa using heq
    exact h a b c (append_inj' hspl rfl).1

/-! ### The invariant -/

/-- What holds of a world while an operation has the tasks of `hand` in hand. -/
structure Inv (world : World) (hand : List Task) : Prop where
  places : ∀ i, total i world.queue.pending + heldTotal i world.queue.held
    + slotTotal i world.queue.slots + total i (world.history.map Finished.task) + total i hand
      = if i ∈ world.accepted then 1 else 0
  fresh : ∀ i ∈ world.accepted, i ≤ world.nextTask
  sorted : world.queue.pending.Pairwise fun a b => a.id < b.id
  heldId : ∀ (key : HeldKey) (task : Task), world.queue.held[key]? = some task →
    task.id = key.id
  heldDue : ∀ (i : Nat) (due : Time), world.queue.heldDue[i]? = some due
    ↔ (world.queue.held[HeldKey.mk due i]?).isSome = true
  openNodup : world.queue.openSlots.Nodup
  openIff : ∀ k, k ∈ world.queue.openSlots ↔ world.queue.slots[k]? = some none
  dispatched : ∀ (k : Nat) (d : Dispatch), world.queue.slots[k]? = some (some d) →
    d.id ≤ world.nextDispatch ∧ (InFlight world.log d.id ↔ d.status = .running)
  distinct : ∀ (k k' : Nat) (d d' : Dispatch), world.queue.slots[k]? = some (some d) →
    world.queue.slots[k']? = some (some d') → d.id = d'.id → k = k'
  logged : ∀ entry ∈ world.log, entry.id ≤ world.nextDispatch
  alternates : ∀ dispatchId, Alternates world.log dispatchId

/-- A task that is not scheduled for later. -/
def Task.Due (now : Time) (task : Task) : Prop := ∀ due ∈ task.scheduled, due ≤ now

/-- What the control and the tasks of each place keep to. -/
structure Rule where
  control : Bool → Prop := fun _ => True
  pending : Task → Prop := fun _ => True
  held : HeldKey → Task → Prop := fun _ _ => True
  slots : Task → Prop := fun _ => True

structure Kept (r : Rule) (world : World) (hand : List Task) : Prop extends Inv world hand where
  control : r.control world.holdScheduled
  pending : ∀ task ∈ world.queue.pending, r.pending task
  held : ∀ key task, world.queue.held[key]? = some task → r.held key task
  slots : ∀ (k : Nat) (d : Dispatch), world.queue.slots[k]? = some (some d) → r.slots d.task

variable {r : Rule} {world : World} {hand : List Task} {task : Task} {now : Time}

/-- The slots of a world in which one was filled keep their ids apart. -/
theorem Inv.distinct_set (h : Inv world hand) (hk : world.queue.slots[k]? = some old)
    (hnew : ∀ m e, m ≠ k → world.queue.slots[m]? = some (some e) → e.id ≠ d.id)
    {m m' : Nat} {e e' : Dispatch} (he : (world.queue.slots.set k (some d))[m]? = some (some e))
    (he' : (world.queue.slots.set k (some d))[m']? = some (some e')) (hid : e.id = e'.id) :
    m = m' := by
  rcases filled_set hk he with ⟨hm, heq⟩ | ⟨hm, he⟩ <;>
    rcases filled_set hk he' with ⟨hm', heq'⟩ | ⟨hm', he'⟩
  · exact hm.trans hm'.symm
  · cases heq
    exact absurd hid.symm (hnew _ _ hm' he')
  · cases heq'
    exact absurd hid (hnew _ _ hm he)
  · exact h.distinct m m' e e' he he' hid

namespace Kept

/-- A new queue, with its tasks elsewhere. -/
theorem ofNew (slots : Nat) (hctl : r.control world.holdScheduled)
    (hpls : ∀ i, total i (world.history.map Finished.task) + total i hand
      = if i ∈ world.accepted then 1 else 0)
    (hfrs : ∀ i ∈ world.accepted, i ≤ world.nextTask)
    (hlog : ∀ entry ∈ world.log, entry.id ≤ world.nextDispatch)
    (halt : ∀ dispatchId, Alternates world.log dispatchId) :
    Kept r { world with queue := .new slots } hand where
  places i := by simpa [new, slotTotal, slotMark, heldTotal_empty] using hpls i
  fresh := hfrs
  sorted := .nil
  heldId key task hget := by simp [new] at hget
  heldDue i due := by simp [new]
  openNodup := nodup_reverse.mpr nodup_range
  openIff k := by simp [new, getElem?_replicate]
  dispatched k d hd := by simp [new, getElem?_replicate] at hd
  distinct k k' d d' hd := by simp [new, getElem?_replicate] at hd
  logged := hlog
  alternates := halt
  control := hctl
  pending := nofun
  held key task hget := by simp [new] at hget
  slots k d hd := by simp [new, getElem?_replicate] at hd

section

variable (h : Kept r world (task :: hand))

include h

theorem ne_of_pending {other : Task} (hoth : other ∈ world.queue.pending) : other.id ≠ task.id := by
  intro heq
  have hpls := h.places task.id
  have hmr : mark task.id other ≤ total task.id world.queue.pending := mark_le_total hoth
  rw [total_cons, mark_self] at hpls
  rw [mark, if_pos heq] at hmr
  split at hpls <;> omega

theorem not_held (due : Time) : world.queue.held[HeldKey.mk due task.id]? = none := by
  cases hget : world.queue.held[HeldKey.mk due task.id]? with
  | none => rfl
  | some other =>
    have hpls := h.places task.id
    have hid := h.heldId _ _ hget
    have hers := heldTotal_erase task.id hget
    rw [total_cons, mark_self] at hpls
    rw [mark, if_pos hid] at hers
    split at hpls <;> omega

theorem putHistory (finished : Finished) (hfn : finished.task = task) :
    Kept r { world with history := world.history ++ [finished] } hand where
  __ := h
  places i := by
    have hpls := h.places i
    simp only [map_append, map_singleton, total_append, total_cons, total_nil, hfn] at hpls ⊢
    omega

theorem putHeld (due : Time) (hhl : r.held ⟨due, task.id⟩ task) :
    Kept r { world with queue := world.queue.holdTask due task } hand where
  __ := h
  places i := by
    have hpls := h.places i
    simp only [holdTask, heldTotal_insert i task (h.not_held due), total_cons] at hpls ⊢
    omega
  heldId k t ht := by
    rcases held_of_insert ht with ⟨rfl, rfl⟩ | ht
    · rfl
    · exact h.heldId k t ht
  heldDue i due' := by
    simp only [holdTask, ExtTreeMap.getElem?_insert, LawfulEqCmp.compare_eq_iff_eq]
    by_cases hi : task.id = i
    · subst hi
      by_cases hd : due = due'
      · simp [hd]
      · simp [hd, h.not_held due']
    · have hne : HeldKey.mk due task.id ≠ ⟨due', i⟩ := fun heq => hi (HeldKey.mk.inj heq).2
      rw [if_neg hi, if_neg hne]
      exact h.heldDue i due'
  held k t ht := by
    rcases held_of_insert ht with ⟨rfl, rfl⟩ | ht
    · exact hhl
    · exact h.held k t ht

/-- The pending queue takes a task at its place. -/
theorem putPending (hts : r.pending task) :
    Kept r { world with queue := world.queue.insertPending task } hand where
  __ := h
  places i := by
    have hpls := h.places i
    have hpr : total i (world.queue.insertPending task).pending
        = total i (task :: world.queue.pending) := ((insertPending_perm _ _).map _).sum_eq
    rw [total_cons] at hpr hpls
    rw [hpr]
    simp only [insertPending]
    omega
  sorted := by
    have hsrt := h.sorted
    rw [← takeWhile_append_dropWhile (p := fun t : Task => t.id < task.id)
      (l := world.queue.pending)] at hsrt
    obtain ⟨hbef, haft, hcrs⟩ := pairwise_append.mp hsrt
    have hlt : ∀ t ∈ world.queue.pending.takeWhile (fun t : Task => t.id < task.id),
        t.id < task.id := fun t ht =>
          of_decide_eq_true (all_eq_true.mp all_takeWhile t ht)
    have hgt : ∀ t ∈ world.queue.pending.dropWhile (fun t : Task => t.id < task.id),
        task.id < t.id := fun t ht => Nat.lt_of_le_of_ne (le_of_mem_dropWhile h.sorted ht)
          (h.ne_of_pending ((dropWhile_sublist _).subset ht)).symm
    exact pairwise_append.mpr ⟨hbef, pairwise_cons.mpr ⟨hgt, haft⟩,
      fun t ht t' ht' => (mem_cons.mp ht').elim (fun heq => heq ▸ hlt t ht)
        fun ht' => hcrs t ht t' ht'⟩
  pending t ht := by
    rcases mem_cons.mp ((insertPending_perm _ _).mem_iff.mp ht) with rfl | ht
    · exact hts
    · exact h.pending t ht

/-- A task with the highest id goes to the end. -/
theorem pushPending (hlast : ∀ t ∈ world.queue.pending, t.id < task.id) (hts : r.pending task) :
    Kept r { world with queue := { world.queue with pending := world.queue.pending ++ [task] } }
      hand := by
  have htk : world.queue.pending.takeWhile (fun t : Task => t.id < task.id)
      = world.queue.pending := takeWhile_eq_self_iff.mpr fun t ht => by simp [hlast t ht]
  have hdr : world.queue.pending.dropWhile (fun t : Task => t.id < task.id) = [] :=
    dropWhile_eq_nil_iff.mpr fun t ht => by simp [hlast t ht]
  have hput := h.putPending hts
  rwa [insertPending, htk, hdr] at hput

theorem putSlot {openSlots : List Nat} (hop : world.queue.openSlots = k :: openSlots)
    (hts : r.slots task) :
    Kept r { world with
        queue := ({ world.queue with openSlots }).occupy k (world.nextDispatch + 1) task
        nextDispatch := world.nextDispatch + 1 } hand := by
  have hk : world.queue.slots[k]? = some none :=
    (h.openIff k).mp (hop ▸ mem_cons_self)
  have hnd := hop ▸ h.openNodup
  refine { h with
    places := fun i => ?_
    openNodup := (nodup_cons.mp hnd).2
    openIff := fun m => ?_
    dispatched := fun m d hd => ?_
    distinct := fun _ _ _ _ => h.distinct_set hk fun _ e _ he heq => ?_
    logged := fun entry hent => Nat.le_succ_of_le (h.logged entry hent)
    slots := fun m d hd => ?_ }
  · have hpls := h.places i
    have htot := slotTotal_set i (some { id := world.nextDispatch + 1, task }) hk
    simp only [slotMark] at htot
    simp only [occupy, total_cons] at hpls ⊢
    omega
  · have hmem := h.openIff m
    simp only [occupy, getElem?_set_slot hk]
    rw [hop] at hmem
    by_cases hm : m = k
    · subst hm
      simp [(nodup_cons.mp hnd).1]
    · simpa [hm] using hmem
  · rcases filled_set hk hd with ⟨-, heq⟩ | ⟨-, hd⟩
    · cases heq
      refine ⟨Nat.le_refl _, ?_⟩
      have hfrs : ¬InFlight world.log (world.nextDispatch + 1) :=
        not_inFlight_of_fresh fun entry hent heq => by
          have := h.logged entry hent
          omega
      exact ⟨fun hin => absurd hin hfrs, nofun⟩
    · obtain ⟨hle, hfl⟩ := h.dispatched m d hd
      exact ⟨Nat.le_succ_of_le hle, hfl⟩
  · have := (h.dispatched _ _ he).1
    simp only at heq
    omega
  · rcases filled_set hk hd with ⟨-, heq⟩ | ⟨-, hd⟩
    · cases heq
      exact hts
    · exact h.slots m d hd

end

section

variable (h : Kept r world hand)

include h

theorem takePending {a b : List Task} (hpen : world.queue.pending = a ++ task :: b) :
    Kept r { world with queue := { world.queue with pending := a ++ b } } (task :: hand) := by
  have hsub : a ++ b <+ world.queue.pending :=
    hpen ▸ (List.Sublist.refl a).append (sublist_cons_self task b)
  refine { h with
    places := fun i => ?_
    sorted := h.sorted.sublist hsub
    pending := fun t ht => h.pending t (hsub.subset ht) }
  have hpls := h.places i
  rw [hpen] at hpls
  simp only [total_append, total_cons] at hpls ⊢
  omega

theorem takeHeld (hkey : world.queue.held[key]? = some task) :
    Kept r { world with queue := world.queue.unhold key } (task :: hand) where
  __ := h
  places i := by
    have hpls := h.places i
    have hers := heldTotal_erase i hkey
    simp only [unhold, total_cons]
    omega
  heldId k t ht := h.heldId k t (held_of_erase ht)
  heldDue i due := by
    simp only [unhold, ExtTreeMap.getElem?_erase, LawfulEqCmp.compare_eq_iff_eq]
    by_cases hi : key.id = i
    · subst hi
      -- Another due time of the id would be a second entry of the task.
      have hdue : world.queue.heldDue[key.id]? = some key.due :=
        (h.heldDue key.id key.due).mpr (by rw [hkey]; rfl)
      by_cases hd : key = ⟨due, key.id⟩
      · simp [hd.symm]
      have hoth : world.queue.heldDue[key.id]? ≠ some due := by
        rw [hdue]
        intro heq
        exact hd (HeldKey.ext (Option.some.inj heq) rfl)
      simp [hd, mt (h.heldDue key.id due).mpr hoth]
    · have hne : key ≠ ⟨due, i⟩ := fun heq => hi (by rw [heq])
      rw [if_neg hi, if_neg hne]
      exact h.heldDue i due
  held k t ht := h.held k t (held_of_erase ht)

theorem accept (task : Task) (hid : task.id = world.nextTask + 1) :
    Kept r { world with nextTask := task.id, accepted := task.id :: world.accepted }
      (task :: hand) where
  __ := h
  places i := by
    have hpls := h.places i
    simp only [total_cons, mem_cons]
    by_cases hi : task.id = i
    · have hnew : i ∉ world.accepted := fun hmem => by
        have := h.fresh i hmem
        omega
      rw [if_neg hnew] at hpls
      rw [if_pos (.inl hi.symm), mark, if_pos hi]
      omega
    · rw [mark, if_neg hi]
      simp only [Ne.symm hi, false_or]
      omega
  fresh i hi := by
    rcases mem_cons.mp hi with rfl | hi
    · exact Nat.le_refl _
    · have := h.fresh i hi
      show i ≤ task.id
      omega

/-- The books of the queue play no part. -/
theorem books (count : Int) (knownNames queuedIds : List Text) :
    Kept r { world with queue := { world.queue with count, knownNames, queuedIds } } hand :=
  { h with }

/-- Pending tasks were accepted. -/
theorem pending_le {t : Task} (ht : t ∈ world.queue.pending) : t.id ≤ world.nextTask := by
  refine h.fresh t.id ?_
  have hpls := h.places t.id
  have hmr : mark t.id t ≤ total t.id world.queue.pending := mark_le_total ht
  rw [mark_self] at hmr
  by_contra hnot
  rw [if_neg hnot] at hpls
  omega

/-! ### Waiting tasks move -/

theorem takeWaiting (htk : world.queue.takeWaiting picks = some (task, queue)) :
    Kept r { world with queue } (task :: hand) := by
  unfold Queue.takeWaiting at htk
  split at htk
  · next found hfn =>
    cases htk
    obtain ⟨hpck, a, b, hspl, hnot⟩ := find?_eq_some_iff_append.mp hfn
    have hers : world.queue.pending.eraseP picks = a ++ b := by
      rw [hspl, eraseP_append_right _ fun x hx => by simpa using hnot x hx, eraseP_cons_of_pos hpck]
    rw [hers]
    exact h.takePending hspl
  · split at htk
    · next entry _ =>
      obtain ⟨found, hhl, heq⟩ := Option.map_eq_some_iff.mp htk
      cases heq
      exact h.takeHeld hhl
    · cases htk

/-- Held tasks that are released join the pending queue. -/
theorem releaseAll {entries : List (HeldKey × Task)}
    (hhl : ∀ entry ∈ entries, world.queue.held[entry.1]? = some entry.2)
    (hdis : entries.Pairwise fun a b => a.1 ≠ b.1)
    (hpen : ∀ entry ∈ entries, r.pending entry.2) :
    Kept r { world with queue := entries.foldl release world.queue } hand := by
  induction entries generalizing world with
  | nil => exact h
  | cons entry entries ih =>
    have hent := hhl entry mem_cons_self
    obtain ⟨hne, hdis⟩ := pairwise_cons.mp hdis
    have hrl : world.queue.release entry = (world.queue.unhold entry.1).insertPending entry.2 := by
      rw [release, h.heldId _ _ hent]
      rfl
    have hnx := (h.takeHeld hent).putPending (hpen entry mem_cons_self)
    rw [foldl_cons, hrl]
    refine ih hnx (fun e he => ?_) hdis fun e he => hpen e (mem_cons_of_mem _ he)
    simp only [insertPending, unhold, ExtTreeMap.getElem?_erase, LawfulEqCmp.compare_eq_iff_eq]
    rw [if_neg (hne e he)]
    exact hhl e (mem_cons_of_mem _ he)

theorem releaseDue (hdue : ∀ key task, r.held key task → key.due ≤ now → r.pending task) :
    Kept r { world with queue := world.queue.releaseDue now } hand := by
  have hsub := takeWhile_sublist (fun entry : HeldKey × Task => decide (entry.1.due ≤ now))
    (l := world.queue.held.toList)
  have hhl := fun entry hent =>
    ExtTreeMap.mem_toList_iff_getElem?_eq_some.mp (hsub.subset (a := entry) hent)
  refine h.releaseAll hhl ?_ fun entry hent => hdue _ _ (h.held _ _ (hhl entry hent)) ?_
  · refine (ExtTreeMap.distinct_keys_toList.imp fun hne heq => hne ?_).sublist hsub
    rw [heq]
    exact ReflCmp.compare_self
  · exact of_decide_eq_true (all_eq_true.mp all_takeWhile entry hent)

theorem takeAllPending {P : Task → Prop} :
    Kept { r with pending := P } { world with queue := { world.queue with pending := [] } }
      (world.queue.pending ++ hand) where
  __ := h
  places i := by
    have hpls := h.places i
    simp only [total_append, total_nil] at ⊢
    omega
  sorted := .nil
  pending := nofun

theorem takeAllHeld {H : HeldKey → Task → Prop} :
    Kept { r with held := H } { world with queue := { world.queue with held := ∅, heldDue := ∅ } }
      (world.queue.held.toList.map Prod.snd ++ hand) where
  __ := h
  places i := by
    have hpls := h.places i
    rw [heldTotal_eq] at hpls
    simp only [total_append, heldTotal_empty] at ⊢
    omega
  heldId key task hget := by simp at hget
  heldDue i due := by simp
  held key task hget := by simp at hget

end

section

variable (h : Kept r world (tasks ++ hand))

include h

theorem putAllPending (hpen : ∀ task, r.pending task) :
    Kept r { world with queue := tasks.foldl insertPending world.queue } hand := by
  induction tasks generalizing world with
  | nil => exact h
  | cons t tasks ih => exact ih (putPending h (hpen t))

/-- Tasks in id order are held, or put back behind those before them. -/
theorem holdAllLater (hsrt : tasks.Pairwise fun a b => a.id < b.id)
    (hlast : ∀ t ∈ world.queue.pending, ∀ t' ∈ tasks, t.id < t'.id)
    (hpen : ∀ task, task.Due now → r.pending task)
    (hhl : ∀ task, ∀ due ∈ task.scheduled, r.held ⟨due, task.id⟩ task) :
    Kept r { world with queue := tasks.foldl (holdLater now) world.queue } hand := by
  induction tasks generalizing world with
  | nil => exact h
  | cons task tasks ih =>
    obtain ⟨hfst, hsrt⟩ := pairwise_cons.mp hsrt
    have hps := pushPending h fun t ht => hlast t ht task mem_cons_self
    have hpsh : ∀ t ∈ world.queue.pending ++ [task], ∀ t' ∈ tasks, t.id < t'.id := by
      intro t ht t' ht'
      rcases mem_append.mp ht with ht | ht
      · exact hlast t ht t' (mem_cons_of_mem _ ht')
      · exact mem_singleton.mp ht ▸ hfst t' ht'
    rw [foldl_cons]
    unfold holdLater
    split
    · next due hdue =>
      split
      · exact ih (putHeld h due (hhl task due hdue)) hsrt fun t ht t' ht' =>
          hlast t ht t' (mem_cons_of_mem _ ht')
      · next hle =>
        refine ih (hps (hpen task fun due' hdue' => ?_)) hsrt hpsh
        cases hdue.symm.trans hdue'
        exact Nat.le_of_not_lt hle
    · next hnn =>
      exact ih (hps (hpen task fun due hdue => nomatch hnn.symm.trans hdue)) hsrt hpsh

theorem putAllHistory (outcome : TaskOutcome) : Kept r { world with
        history := world.history ++ tasks.map fun task => .pending task outcome } hand := by
  induction tasks generalizing world with
  | nil => simpa using h
  | cons task tasks ih =>
    have hnx := ih (putHistory h (.pending task outcome) rfl)
    simpa using hnx

end

section

variable (h : Kept r world hand)

include h

theorem setHold_true {P : Task → Prop} (hpen : ∀ task, task.Due now → P task)
    (hhl : ∀ task, ∀ due ∈ task.scheduled, r.held ⟨due, task.id⟩ task) :
    Kept { r with pending := P } { world with queue := world.queue.setHold true now } hand :=
  holdAllLater h.takeAllPending h.sorted nofun hpen hhl

theorem setHold_false (now : Time) {H : HeldKey → Task → Prop} (hpen : ∀ task, r.pending task) :
    Kept { r with held := H } { world with queue := world.queue.setHold false now } hand :=
  putAllPending h.takeAllHeld hpen

/-! ### Slots turn -/

theorem takeSlot (hk : world.queue.slots[k]? = some (some d)) :
    Kept r { world with queue := world.queue.vacate k } (d.task :: hand) where
  __ := h
  places i := by
    have hpls := h.places i
    have hset := slotTotal_set i none hk
    simp only [slotMark] at hset
    simp only [vacate, total_cons]
    omega
  openNodup := by
    refine nodup_cons.mpr ⟨fun hmem => ?_, h.openNodup⟩
    rw [(h.openIff k).mp hmem] at hk
    cases hk
  openIff j := by
    simp only [vacate, mem_cons, getElem?_set_slot hk]
    by_cases hj : j = k
    · simp [hj]
    · simp [hj, h.openIff j]
  dispatched j d' hd' := h.dispatched j d' (filled_vacate hk hd')
  distinct j j' d' d'' hd' hd'' :=
    h.distinct j j' d' d'' (filled_vacate hk hd') (filled_vacate hk hd'')
  slots j d' hd' := h.slots j d' (filled_vacate hk hd')

/-- A slot is freed and its task leaves for the history. -/
theorem finishSlot (hk : world.queue.slots[k]? = some (some d)) (outcome : TaskOutcome) :
    Kept r (world.record ([.slotted d outcome], world.queue.vacate k)) hand :=
  (h.takeSlot hk).putHistory _ rfl

/-- A dispatch turns in its slot, with or without an entry of the log. -/
theorem turn (hk : world.queue.slots[k]? = some (some d)) (d' : Dispatch) (hid : d'.id = d.id)
    (hts : d'.task = d.task) (entry : Option Entry) (hent : ∀ e ∈ entry, e.id = d.id)
    (hsn : .sent d.id ∈ entry → d.status ≠ .running)
    (hfl : InFlight (world.log ++ entry.toList) d.id ↔ d'.status = .running) :
    Kept r { world with
        queue := world.queue.setDispatch k d', log := world.log ++ entry.toList } hand := by
  refine { h with
    places := fun i => ?_
    openIff := fun m => ?_
    dispatched := fun m e he => ?_
    distinct := fun _ _ _ _ => h.distinct_set hk fun m e hm he heq =>
      hm (h.distinct m k e d he hk (heq.trans hid))
    logged := fun e he => ?_
    alternates := fun dispatchId => ?_
    slots := fun m e he => ?_ }
  · have hpls := h.places i
    have htot := slotTotal_set i (some d') hk
    simp only [slotMark, hts] at htot
    simp only [Queue.setDispatch] at ⊢
    omega
  · simp only [Queue.setDispatch, getElem?_set_slot hk]
    by_cases hm : m = k
    · subst hm
      simp [h.openIff, hk]
    · simp [hm, h.openIff]
  · rcases filled_set hk he with ⟨-, heq⟩ | ⟨hm, hsl⟩
    · cases heq
      rw [hid]
      exact ⟨(h.dispatched k d hk).1, hfl⟩
    · obtain ⟨hle, hrn⟩ := h.dispatched m e hsl
      refine ⟨hle, ?_⟩
      cases entry with
      | none => simpa using hrn
      | some x =>
        have hx : x.id ≠ e.id := fun heq =>
          hm (h.distinct m k e d hsl hk (heq.symm.trans (hent x rfl)))
        simpa [InFlight, hx] using hrn
  · rcases mem_append.mp he with he | he
    · exact h.logged e he
    · rw [hent e (Option.mem_toList.mp he)]
      exact (h.dispatched k d hk).1
  · cases entry with
    | none => simpa using h.alternates dispatchId
    | some x =>
      refine (h.alternates dispatchId).append fun hx hin => ?_
      have hd : dispatchId = d.id := by
        have := hent x rfl
        rwa [hx] at this
      subst hd
      exact hsn (congrArg some hx) ((h.dispatched k d hk).2.mp hin)
  · rcases filled_set hk he with ⟨-, heq⟩ | ⟨-, he⟩
    · cases heq
      exact hts ▸ h.slots k d hk
    · exact h.slots m e he

/-- A dispatch changes in its slot and stays in flight, or out of it. -/
theorem setDispatch (hk : world.queue.slots[k]? = some (some d)) (d' : Dispatch)
    (hid : d'.id = d.id) (hts : d'.task = d.task)
    (hsts : d.status = .running ↔ d'.status = .running) :
    Kept r { world with queue := world.queue.setDispatch k d' } hand := by
  have htr := h.turn hk d' hid hts none nofun nofun
    (by simpa using ((h.dispatched k d hk).2.trans hsts))
  simpa using htr

theorem complete (dispatchId : Nat) (outcome : Outcome) (now : Time) :
    Kept r (world.complete dispatchId outcome now) hand := by
  unfold World.complete
  split
  · exact h
  next queue hque =>
  obtain ⟨⟨k, d⟩, hfn, rfl⟩ := Option.map_eq_some_iff.mp hque
  obtain ⟨hk, hpck⟩ := findSlot_eq_some hfn
  simp only [Bool.and_eq_true, decide_eq_true_eq] at hpck
  obtain ⟨rfl, -⟩ := hpck
  obtain ⟨hid, hts, hsts⟩ := completed_spec d outcome now
  refine h.turn hk _ hid hts (some (.completed d.id)) (fun e he => ?_) (fun he => ?_) ?_
  · cases he
    rfl
  · cases he
  · exact iff_of_false (by simp [InFlight, Entry.id]) hsts

theorem processSlot (clock : Clock) (slot : Nat) :
    Kept r (World.processSlot clock world slot) hand := by
  have hsm : world.record ([], world.queue) = world := by
    simp [World.record]
  have hfin : ∀ {d : Dispatch} (outcome), world.queue.slots[slot]? = some (some d) →
      Kept r { world.record ([.slotted d outcome], world.queue.vacate slot) with
        log := world.log ++ [] } hand := fun outcome hk => by
    have hfn := h.finishSlot hk outcome
    simpa [World.record] using hfn
  have hst : Kept r { world.record ([], world.queue) with log := world.log ++ [] } hand := by
    simpa [hsm] using h
  unfold World.processSlot Queue.processSlot
  split
  · next d hk =>
    cases hsts : d.status with
    | failed => exact hfin .failed hk
    | finished => exact hfin .succeeded hk
    | cancelled => exact hfin .cancelled hk
    | running => exact hst
    | retry =>
      simp only
      split
      · have hset := h.setDispatch hk { d with status := .failed } rfl rfl (by simp [hsts])
        simpa [World.record] using hset
      · have hset := h.setDispatch hk
          { d with attempt := d.attempt + 1, status := .notStarted } rfl rfl
          (by simp [hsts])
        simpa [World.record] using hset
    | notStarted =>
      simp only
      split
      · exact hst
      have hsn := h.turn hk { d with runNow := false, status := .running } rfl rfl
        (some (.sent d.id)) (fun e he => by cases he; rfl) (fun _ => by simp [hsts])
        (iff_of_true (by simp [InFlight, Entry.id]) rfl)
      simpa [World.record] using hsn
  · exact hst

theorem processAll (clock : Clock) (slots : List Nat) :
    Kept r (slots.foldl (World.processSlot clock) world) hand := by
  induction slots generalizing world with
  | nil => exact h
  | cons slot slots ih => exact ih (h.processSlot clock slot)

theorem dispatchTasks (tokens : Nat) (hsl : ∀ task, r.pending task → r.slots task) :
    Kept r { world with
        queue := (world.queue.dispatchTasks world.nextDispatch tokens).1
        nextDispatch := (world.queue.dispatchTasks world.nextDispatch tokens).2 } hand := by
  induction tokens generalizing world with
  | zero => exact h
  | succ tokens ih =>
    unfold dispatchTasks
    split
    · next task pending slot openSlots hpen hop =>
      have hst := hsl task (h.pending task (hpen ▸ mem_cons_self))
      exact ih ((h.takePending (a := []) hpen).putSlot hop hst)
    · exact h

theorem tick (clock : Clock)
    (hdue : ∀ key task, r.held key task → key.due ≤ clock.wall → r.pending task)
    (hsl : ∀ task, r.pending task → r.slots task) : Kept r (world.tick clock) hand := by
  have hrl := h.releaseDue hdue
  unfold World.tick
  simp only
  split
  · refine processAll ?_ clock _
    unfold World.dispatch
    split
    · exact hrl
    · exact hrl.dispatchTasks clock.tokens hsl
  · exact hrl

/-! ### The console's operations -/

theorem runNow (id : Nat) (hsl : ∀ task, r.slots task) : Kept r (world.runNow id) hand := by
  unfold World.runNow
  split
  · exact h
  next result hres =>
  unfold Queue.runNow at hres
  split at hres
  · next k d hfn =>
    obtain ⟨hk, -⟩ := findSlot_eq_some hfn
    have hrun := h.setDispatch hk { d with runNow := true } rfl rfl Iff.rfl
    split at hres
    · cases hres
    · split at hres
      · cases hres; exact h
      · cases hres; exact hrun
    · cases hres; exact hrun
    all_goals cases hres; exact h
  · split at hres
    · cases hres
    split at hres
    · cases hres
    next slot openSlots hop =>
    split at hres
    · next task rest htk =>
      cases hres
      obtain ⟨rfl, hwtg⟩ := takeWaiting_openSlots htk
      exact (h.takeWaiting hwtg).putSlot hop (hsl task)
    · cases hres

/-- The result of an operation that may refuse. -/
theorem stopRetrying (id : Nat) :
    Kept r (world.record (((world.queue.stopRetrying id).getD (none, world.queue)).1.toList,
      ((world.queue.stopRetrying id).getD (none, world.queue)).2)) hand := by
  have hst : Kept r (world.record ([], world.queue)) hand := by
    simpa [World.record] using h
  unfold Queue.stopRetrying
  split
  · exact hst
  next k d hfn =>
  obtain ⟨hk, -⟩ := findSlot_eq_some hfn
  cases hsts : d.status with
  | running =>
    have hset := h.setDispatch hk { d with stopRequested := true } rfl rfl Iff.rfl
    simpa [World.record, hsts] using hset
  | notStarted | retry => exact h.finishSlot hk .cancelled
  | failed | finished | cancelled => exact hst

theorem remove (name : Text) :
    Kept r (world.record (((world.queue.remove name).getD (none, world.queue)).1.toList,
      ((world.queue.remove name).getD (none, world.queue)).2)) hand := by
  unfold Queue.remove
  split
  · have hbks := h.books (world.queue.count - 1) (world.queue.knownNames.erase name)
      world.queue.queuedIds
    simp only
    split
    · next task queue htk => exact (hbks.takeWaiting htk).putHistory _ rfl
    · simpa [World.record] using hbks
  · simpa [World.record] using h

theorem removeById (id : Nat) :
    Kept r (world.record ((world.queue.removeById id).getD ([], world.queue))) hand := by
  unfold Queue.removeById
  split
  · simpa [World.record] using h
  next task _ =>
  simp only [Option.getD_some]
  rw [World.record_append world _ _ ((world.queue.remove task.name).getD (none, world.queue)).2]
  exact (h.remove task.name).stopRetrying id

theorem forgetAll (tasks : List Task) :
    Kept r { world with queue := tasks.foldl forget world.queue } hand := by
  induction tasks generalizing world with
  | nil => exact h
  | cons task tasks ih =>
    rw [foldl_cons]
    unfold forget
    split
    · exact ih (h.books _ _ _)
    · exact ih h

theorem stopAll {ids : List Nat} : Kept r (world.record (world.queue.stopAll ids)) hand := by
  induction ids generalizing world with
  | nil => simpa [World.record, Queue.stopAll] using h
  | cons id ids ih =>
    rw [Queue.stopAll, World.record_append world _ _ ((world.queue.stopRetrying id).getD (none, world.queue)).2]
    exact ih (h.stopRetrying id)

theorem purge (stop : Bool) : Kept r (world.record (world.queue.purge stop)) hand := by
  have htkn : Kept r { world with queue := world.queue.takeAllWaiting.2 }
      (world.queue.takeAllWaiting.1 ++ hand) := by
    have hbt := (h.takeAllHeld (H := r.held)).takeAllPending (P := r.pending)
    rwa [← append_assoc] at hbt
  have hpur := (putAllHistory htkn .purged).forgetAll world.queue.takeAllWaiting.1
  unfold Queue.purge
  split
  · rw [World.record_append world _ _ (world.queue.takeAllWaiting.1.foldl forget
      world.queue.takeAllWaiting.2)]
    exact hpur.stopAll
  · exact hpur

/-- A queue is registered anew: its tasks leave as replaced. -/
theorem registerQueue (slots : Nat) :
    Kept r (world.record (world.queue.drainReplaced, .new slots)) hand := by
  refine @ofNew _ (world.record (world.queue.drainReplaced, world.queue)) _ slots h.control
    (fun i => ?_) h.fresh h.logged h.alternates
  have hpls := h.places i
  rw [heldTotal_eq, slotTotal_eq] at hpls
  have hwtg : ((world.queue.takeAllWaiting.1.map fun task =>
      Finished.pending task .replaced).map Finished.task)
        = world.queue.pending ++ world.queue.held.toList.map Prod.snd := by
    simp [takeAllWaiting, Finished.pending, Function.comp_def]
  refine Eq.trans ?_ hpls
  simp only [World.record, drainReplaced, map_append, total_append, hwtg]
  omega

theorem elsewhere (tasks dispatches : Nat) : Kept r { world with
        nextTask := world.nextTask + tasks
        nextDispatch := world.nextDispatch + dispatches } hand where
  __ := h
  fresh i hi := Nat.le_add_right_of_le (h.fresh i hi)
  dispatched k d hd := ⟨Nat.le_add_right_of_le (h.dispatched k d hd).1, (h.dispatched k d hd).2⟩
  logged entry hent := Nat.le_add_right_of_le (h.logged entry hent)

theorem enqueue (name : Text) (scheduled : Option Time)
    (hpen : ∀ task, (world.holdScheduled = true → task.Due now) → r.pending task)
    (hhl : world.holdScheduled = true →
      ∀ task, ∀ due ∈ task.scheduled, r.held ⟨due, task.id⟩ task) :
    Kept r (world.enqueue name scheduled now) hand := by
  unfold World.enqueue
  simp only
  split
  · exact h
  next queue hque =>
  have hacc := h.accept ⟨world.nextTask + 1, name, scheduled⟩ rfl
  have hbok := hacc.books (world.queue.count + 1) (name :: world.queue.knownNames)
    (name :: world.queue.queuedIds)
  have hpsh := hbok.pushPending (fun t ht => Nat.lt_succ_of_le (h.pending_le ht))
  unfold Queue.enqueue at hque
  split at hque
  · cases hque
  split at hque
  · next due hdue =>
    split at hque
    · next hlat =>
      cases hque
      exact hbok.putHeld due (hhl (Bool.and_elim_left hlat) _ due hdue)
    · next hlat =>
      cases hque
      refine hpsh (hpen _ fun hhd due' hdue' => ?_)
      cases hdue.symm.trans hdue'
      simpa [hhd] using hlat
  · next hnn =>
    cases hque
    exact hpsh (hpen _ fun _ due hdue => nomatch hnn.symm.trans hdue)

end

end Kept

def Rule.Allows (r : Rule) : Event → Prop
  | .enqueue _ _ now => ∀ hold task, r.control hold →
      ((hold = true → task.Due now) → r.pending task) ∧
      (hold = true → ∀ due ∈ task.scheduled, r.held ⟨due, task.id⟩ task)
  | .tick clock => (∀ key task, r.held key task → key.due ≤ clock.wall → r.pending task) ∧
      ∀ task, r.pending task → r.slots task
  | .runNow _ => ∀ task, r.slots task
  | .setHoldControl hold => r.control hold
  | .setHold _ _ => (∀ task, r.pending task) ∧ ∀ key task, r.held key task
  | _ => True

theorem Kept.step (h : Kept r world []) (event : Event) (hr : r.Allows event) :
    Kept r (world.step event) [] := by
  cases event with
  | enqueue name scheduled now =>
    exact h.enqueue name scheduled (fun task => (hr _ task h.control).1)
      fun hhl task => (hr _ task h.control).2 hhl
  | tick clock => exact h.tick clock hr.1 hr.2
  | complete dispatchId outcome now => exact h.complete dispatchId outcome now
  | runNow id => exact h.runNow id hr
  | stopRetrying id => exact h.stopRetrying id
  | remove name => exact h.remove name
  | removeById id => exact h.removeById id
  | purge stop => exact h.purge stop
  | setPaused paused => exact { h with }
  | setHoldControl hold => exact { h with control := hr }
  | setHold hold now =>
    cases hold with
    | true => exact h.setHold_true (fun task _ => hr.1 task) fun task _ _ => hr.2 _ task
    | false => exact h.setHold_false now hr.1
  | registerQueue slots => exact h.registerQueue slots
  | elsewhere tasks dispatches => exact h.elsewhere tasks dispatches

namespace World

theorem kept_new (slots nextTask nextDispatch : Nat) (hctl : r.control false) :
    Kept r (new slots nextTask nextDispatch) [] :=
  @Kept.ofNew _ (new slots nextTask nextDispatch) _ slots hctl (fun _ => rfl) nofun nofun
    fun _ a b c heq => by simp [new] at heq

theorem inv_of_run {world : World} (run : Run world) : Inv world [] := by
  suffices Kept {} world [] from this.toInv
  induction run with
  | start slots nextTask nextDispatch => exact kept_new slots nextTask nextDispatch trivial
  | next event _ ih => exact ih.step event (by cases event <;> simp [Rule.Allows])

/-- **Every task is accounted for.** An accepted task is in exactly one place, once; the free
slots are the empty ones, each listed once; the pending queue is in id order; `held_due` is the due
times of the held tasks; and between two requests of an occupancy there is a completion. -/
theorem accounted {world : World} (run : Run world) :
    (∀ i, total i world.queue.pending + heldTotal i world.queue.held
        + slotTotal i world.queue.slots + total i (world.history.map Finished.task)
          = if i ∈ world.accepted then 1 else 0) ∧
    world.queue.openSlots.Nodup ∧
    (∀ k, k ∈ world.queue.openSlots ↔ world.queue.slots[k]? = some none) ∧
    (world.queue.pending.Pairwise fun a b => a.id < b.id) ∧
    (∀ (i : Nat) (due : Time), world.queue.heldDue[i]? = some due
      ↔ ∃ task, world.queue.held[HeldKey.mk due i]? = some task ∧ task.id = i) ∧
    ∀ (d : Nat) (a b c : List Entry), world.log = a ++ .sent d :: (b ++ .sent d :: c) →
      .completed d ∈ b := by
  have h := inv_of_run run
  refine ⟨fun i => by simpa using h.places i, h.openNodup, h.openIff, h.sorted, fun i due => ?_,
    h.alternates⟩
  rw [h.heldDue, Option.isSome_iff_exists]
  exact exists_congr fun task => ⟨fun hget => ⟨hget, h.heldId _ _ hget⟩, And.left⟩

/-- One task is enqueued and takes the only slot. -/
def firstDispatch : World :=
  ((new 1 0 0).step (.enqueue (ascii "t") none 0)).step
    (.tick ⟨0, 1, fun _ => true, fun _ => false⟩)

theorem accounted_firstDispatch : firstDispatch.queue.pending = [] ∧
    total 1 firstDispatch.queue.pending + heldTotal 1 firstDispatch.queue.held
      + slotTotal 1 firstDispatch.queue.slots + total 1 (firstDispatch.history.map Finished.task)
        = 1 :=
  ⟨by decide +kernel,
    ((accounted (.next _ (.next _ (.start 1 0 0)))).1 1).trans (if_pos (by decide +kernel))⟩

end World

end Firenook.Tasks
