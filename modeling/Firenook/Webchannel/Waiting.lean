import Firenook.Webchannel.Replay

/-!
# WebChannel — a backchannel that waits

A backchannel tests for termination, reads the arrays after its cursor and, when there are none,
starts to wait for the session's `notify` (`streaming_response`, `long_poll`). `Session::enqueue`
puts an array into the buffer under the session's lock and calls `notify_waiters` after it, which
wakes the waits that have started and stores nothing.

**No backchannel sleeps over an array** (`never_asleep`) as long as none is put in between a read that
found nothing and the wait after it. The notification of such an array wakes nobody, and the
backchannel waits for the next one or its timeout (`slept_over`).
-/

namespace Firenook.Webchannel

open Option

variable {J : Type}

/-- Where the loop of a backchannel is. -/
inductive Stage where
  | testing
  | reading
  /-- The read found nothing, the wait has not started. -/
  | idle
  | waiting (woken : Bool)
  | ended
  deriving DecidableEq

/-- A session and one backchannel of it, with the number of arrays that were put in and whose
`notify_waiters` is still to come. -/
structure Waiter (J : Type) where
  session : ReplayState J
  streaming : Bool
  cursor : Nat
  terminated : Bool := false
  stage : Stage := .testing
  unnotified : Nat := 0

/-- The atomic steps. -/
inductive Turn (J : Type) where
  /-- The locked part of an `enqueue`, and its notification. -/
  | push (payload : J)
  | notify
  | terminate
  | test
  | read
  | wait
  | wake
  /-- The keepalive or the poll's deadline; the noop is put in by an `enqueue` of its own. -/
  | timeout

namespace Waiter

variable {encodedBytes : J → Nat} {w w' : Waiter J} {turn : Turn J}

def notifyWaiters (w : Waiter J) : Waiter J :=
  match w.stage with
  | .waiting _ => { w with stage := .waiting true }
  | _ => w

/-- What a step does; `none` where it cannot happen. -/
def step (encodedBytes : J → Nat) (w : Waiter J) : Turn J → Option (Waiter J)
  | .push payload => (w.session.enqueue encodedBytes payload).toOption.map fun session =>
      { w with session, unnotified := w.unnotified + 1 }
  | .notify =>
    if 0 < w.unnotified then some { w.notifyWaiters with unnotified := w.unnotified - 1 } else none
  | .terminate => some { w.notifyWaiters with terminated := true }
  | .test =>
    if w.stage = .testing then some { w with stage := if w.terminated then .ended else .reading }
    else none
  | .read =>
    if w.stage = .reading then
      match (w.session.arraysAfter w.cursor).getLast? with
      | none => some { w with stage := .idle }
      | some last =>
        if w.streaming then some { w with cursor := last.id, stage := .testing }
        else some { w with stage := .ended }
    else none
  | .wait => if w.stage = .idle then some { w with stage := .waiting false } else none
  | .wake => if w.stage = .waiting true then some { w with stage := .testing } else none
  | .timeout =>
    match w.stage with
    | .waiting _ => some { w with stage := if w.streaming then .testing else .ended }
    | _ => none

/-- The states that permitted steps reach, in any order. -/
inductive Run (encodedBytes : J → Nat) (permitted : Waiter J → Turn J → Prop) : Waiter J → Prop where
  | start (session : ReplayState J) (streaming : Bool) (cursor : Nat) :
      Run encodedBytes permitted { session, streaming, cursor }
  | step {w w' : Waiter J} (run : Run encodedBytes permitted w) (turn : Turn J)
      (hpermitted : permitted w turn) (h : w.step encodedBytes turn = some w') :
      Run encodedBytes permitted w'

/-- The backchannel waits, nothing is going to wake it, and there is an array to send. -/
def Asleep (w : Waiter J) : Prop :=
  w.stage = .waiting false ∧ w.unnotified = 0 ∧ w.session.arraysAfter w.cursor ≠ []

/-- No array is put in between a read that found nothing and the wait. -/
def Unhurried (w : Waiter J) : Turn J → Prop
  | .push _ => w.stage ≠ .idle
  | _ => True

/-- What was not there to be read is not there, or its notification is to come. -/
structure Inv (w : Waiter J) : Prop where
  idle : w.stage = .idle → w.session.arraysAfter w.cursor = []
  waiting : w.stage = .waiting false → w.unnotified = 0 → w.session.arraysAfter w.cursor = []

/-- A stage about which the invariant says nothing. -/
theorem Inv.of_stage (hid : w.stage ≠ .idle) (hwtg : w.stage ≠ .waiting false) : Inv w :=
  ⟨fun h => absurd h hid, fun h => absurd h hwtg⟩

theorem Inv.notifyWaiters (h : Inv w) (unnotified : Nat) (terminated : Bool) :
    Inv { w.notifyWaiters with unnotified, terminated } := by
  unfold Waiter.notifyWaiters
  split
  · exact .of_stage nofun nofun
  next hstg => exact ⟨h.idle, fun hwtg => absurd hwtg (hstg false)⟩

theorem Inv.step (h : Inv w) (hunh : w.Unhurried turn)
    (hst : w.step encodedBytes turn = some w') : Inv w' := by
  cases turn with
  | push payload =>
    obtain ⟨session, -, rfl⟩ := map_eq_some_iff.mp hst
    exact ⟨fun hid => absurd hid hunh, fun _ => nofun⟩
  | notify =>
    obtain ⟨-, heq⟩ := ite_none_right_eq_some.mp hst
    obtain rfl := some.inj heq
    exact h.notifyWaiters _ _
  | terminate =>
    obtain rfl := some.inj hst
    exact h.notifyWaiters _ _
  | test =>
    obtain ⟨-, heq⟩ := ite_none_right_eq_some.mp hst
    obtain rfl := some.inj heq
    cases w.terminated <;> exact .of_stage nofun nofun
  | read =>
    obtain ⟨-, hrd⟩ := ite_none_right_eq_some.mp hst
    split at hrd
    · next hnn =>
      obtain rfl := some.inj hrd
      exact ⟨fun _ => List.getLast?_eq_none_iff.mp hnn, nofun⟩
    · split at hrd <;> obtain rfl := some.inj hrd <;> exact .of_stage nofun nofun
  | wait =>
    obtain ⟨hid, heq⟩ := ite_none_right_eq_some.mp hst
    obtain rfl := some.inj heq
    exact ⟨nofun, fun _ _ => h.idle hid⟩
  | wake =>
    obtain ⟨-, heq⟩ := ite_none_right_eq_some.mp hst
    obtain rfl := some.inj heq
    exact .of_stage nofun nofun
  | timeout =>
    simp only [Waiter.step] at hst
    split at hst
    · obtain rfl := some.inj hst
      cases w.streaming <;> exact .of_stage nofun nofun
    · cases hst

theorem Run.inv (run : Run encodedBytes Unhurried w) : Inv w := by
  induction run with
  | start => exact .of_stage nofun nofun
  | step _ _ hunh hst ih => exact ih.step hunh hst

/-- **No backchannel sleeps over an array** that was not put in between its read and its wait. -/
theorem never_asleep (run : Run encodedBytes Unhurried w) : ¬w.Asleep :=
  fun ⟨hwtg, hntf, har⟩ => har (run.inv.waiting hwtg hntf)

/-- An array is put in while the backchannel waits; it is sent, and the backchannel waits again. -/
theorem never_asleep_woken : ∃ w : Waiter Unit, Run (fun _ => 1) Unhurried w ∧ w.cursor = 1 ∧
    w.stage = .waiting false ∧ ¬w.Asleep := by
  have hwt : Run (fun _ => 1) Unhurried (Waiter.mk .new true 0 false (.waiting false) 0 : Waiter Unit) :=
    .step (.step (.step (.start .new true 0) .test trivial rfl) .read trivial rfl) .wait trivial rfl
  have hsn := ((((hwt.step (.push ()) nofun rfl).step .notify trivial rfl).step .wake trivial
    rfl).step .test trivial rfl).step .read trivial rfl
  have run := ((hsn.step .test trivial rfl).step .read trivial rfl).step .wait trivial rfl
  exact ⟨_, run, rfl, rfl, never_asleep run⟩

/-- **An array slept over**: it is put in, and notified, before the wait starts. -/
theorem slept_over : ∃ w : Waiter Unit, Run (fun _ => 1) (fun _ _ => True) w ∧ w.Asleep := by
  have hrd : Run (fun _ => 1) (fun _ _ => True) (Waiter.mk .new true 0 false .idle 0 : Waiter Unit) :=
    .step (.step (.start .new true 0) .test trivial rfl) .read trivial rfl
  have hwt := (hrd.step (.push ()) trivial rfl).step .notify trivial rfl
  exact ⟨_, hwt.step .wait trivial rfl, rfl, rfl, nofun⟩

end Waiter

end Firenook.Webchannel
