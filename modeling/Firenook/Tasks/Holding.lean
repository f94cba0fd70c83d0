import Firenook.Tasks.Accounting

/-!
# Tasks — holding and the held tasks

`set_hold_scheduled` switches the control in one locked section and the queue in a second one, with
the sections of other calls between them. An interleaving keeps the calls that are between the two,
by what they switch to, and the last reading of the clock.

When these calls do not overlap and the clock does not go back, **the control and the held tasks
agree** (`holding_agrees`). Two calls that overlap can leave tasks held with the control off
(`held_while_off`).
-/

namespace Firenook.Tasks

open List

/-- The calls in progress after a locked section. -/
def Event.calls (calls : List Bool) : Event → List Bool
  | setHoldControl hold => hold :: calls
  | setHold hold _ => calls.erase hold
  | _ => calls

/-- The clock after a locked section. -/
def Event.latest (latest : Time) : Event → Time
  | enqueue _ _ now | setHold _ now => now
  | tick clock => clock.wall
  | _ => latest

namespace World

variable {world : World} {calls : List Bool} {latest : Time}

/-- The locked sections in any order; in order, calls do not overlap and time passes. -/
inductive Interleaved (inOrder : Prop) : World → List Bool → Time → Prop
  | start (slots nextTask nextDispatch : Nat) :
      Interleaved inOrder (new slots nextTask nextDispatch) [] 0
  | next {world : World} {calls : List Bool} {latest : Time} (event : Event)
      (hcall : ∀ hold now, event = .setHold hold now → hold ∈ calls)
      (horder : inOrder → latest ≤ event.latest latest ∧
        ∀ hold, event = .setHoldControl hold → calls = []) :
      Interleaved inOrder world calls latest →
        Interleaved inOrder (world.step event) (event.calls calls) (event.latest latest)

/-- What holds with the control at `hold`, once no call is in progress. -/
def rule (hold : Bool) (calls : List Bool) (latest : Time) : Rule where
  control now := now = hold
  pending task := calls = [] → hold = true → task.Due latest
  held key task := task.scheduled = some key.due ∧ (calls = [] → hold = true)

theorem Interleaved.kept (run : Interleaved True world calls latest) :
    ∃ hold, Kept (rule hold calls latest) world [] ∧ (calls = [] ∨ calls = [hold]) := by
  induction run with
  | start slots nextTask nextDispatch =>
    exact ⟨false, kept_new slots nextTask nextDispatch rfl, .inl rfl⟩
  | @next world calls latest event hcl hord _ ih =>
    obtain ⟨hold, h, hcal⟩ := ih
    obtain ⟨htm, hctl⟩ := hord trivial
    have hlat : ∀ now, latest ≤ now → Kept (rule hold calls now) world [] := fun now hnow =>
      { h with
        pending := fun task ht hid hon due hdue => (h.pending task ht hid hon due hdue).trans hnow }
    cases event with
    | enqueue name scheduled now =>
      refine ⟨hold, (hlat now htm).step _ fun _ task hhl => ?_, hcal⟩
      obtain rfl := hhl
      exact ⟨fun hdue _ => hdue, fun hon due hdue => ⟨hdue, fun _ => hon⟩⟩
    | tick clock =>
      refine ⟨hold, (hlat _ htm).step _ ⟨fun key task hhd hdue _ _ due hs => ?_,
        fun _ _ => trivial⟩, hcal⟩
      cases hhd.1.symm.trans hs
      exact hdue
    | setHoldControl hold' =>
      obtain rfl := hctl hold' rfl
      exact ⟨hold', { h with
        control := rfl
        pending := fun _ _ => nofun
        held := fun key task hget => ⟨(h.held key task hget).1, nofun⟩ }, .inr rfl⟩
    | setHold hold' now =>
      have hmem := hcl hold' now rfl
      rcases hcal with rfl | rfl
      · cases hmem
      obtain rfl := mem_singleton.mp hmem
      refine ⟨hold', ?_, .inl (by simp [Event.calls])⟩
      cases hold' with
      | true =>
        have hset := h.setHold_true (P := Task.Due now) (fun _ => id)
          fun task due hdue => ⟨hdue, nofun⟩
        exact { hset with
          pending := fun task ht _ _ => hset.pending task ht
          held := fun key task hget => ⟨(hset.held key task hget).1, fun _ => rfl⟩ }
      | false =>
        have hset := h.setHold_false now (H := fun _ _ => False) fun _ => nofun
        exact { hset with
          pending := fun _ _ _ => nofun
          held := fun key task hget => (hset.held key task hget).elim }
    | runNow id => exact ⟨hold, h.step _ fun _ => trivial, hcal⟩
    | _ => exact ⟨hold, h.step _ trivial, hcal⟩

/-- **The control and the held tasks agree** while no call is in progress. With the control off no
task is held; with it on a tick puts no task into a slot before its time. -/
theorem holding_agrees (run : Interleaved True world [] latest) :
    (world.holdScheduled = false → world.queue.held = ∅) ∧
    (world.holdScheduled = true → ∀ clock : Clock, latest ≤ clock.wall → ∀ (k : Nat) (d : Dispatch),
      (world.tick clock).queue.slots[k]? = some (some d) →
        (∃ (k' : Nat) (d' : Dispatch), world.queue.slots[k']? = some (some d') ∧ d'.task = d.task) ∨
          d.task.Due clock.wall) := by
  obtain ⟨hold, h, -⟩ := run.kept
  obtain rfl := h.control
  refine ⟨fun hoff => ?_, fun hon clock hclk k d hd => ?_⟩
  · refine Std.ExtTreeMap.ext_getElem? fun key => ?_
    rw [Std.ExtTreeMap.getElem?_empty, Option.eq_none_iff_forall_ne_some]
    exact fun task hget => nomatch hoff.symm.trans ((h.held key task hget).2 rfl)
  · let before := fun task => ∃ (k : Nat) (d : Dispatch),
      world.queue.slots[k]? = some (some d) ∧ d.task = task
    have hbef : Kept { rule _ [] clock.wall with
        slots := fun task => before task ∨ task.Due clock.wall } world [] :=
      { h with
        pending := fun task ht _ _ due hdue => (h.pending task ht rfl hon due hdue).trans hclk
        slots := fun k d hd => .inl ⟨k, d, hd, rfl⟩ }
    refine (hbef.tick clock (fun key task hhl hdue _ _ due hs => ?_)
      fun task hdue => .inr (hdue rfl hon)).slots k d hd
    cases hhl.1.symm.trans hs
    exact hdue

/-- A task for later, with the control off and then on: no tick puts it into a slot before its
time. -/
theorem holding_agrees_switched :
    let off := (new 1 0 0).enqueue (ascii "t") (some 9) 1
    let on := (off.step (.setHoldControl true)).step (.setHold true 2)
    off.queue.held = ∅ ∧ on.queue.held.size = 1 ∧ ∀ clock : Clock, 2 ≤ clock.wall →
      ∀ (k : Nat) (d : Dispatch), (on.tick clock).queue.slots[k]? = some (some d) →
        d.task.Due clock.wall := by
  intro off on
  have hoff : Interleaved True off [] 1 := .next (.enqueue (ascii "t") (some 9) 1) nofun
    (fun _ => ⟨Nat.zero_le _, nofun⟩) (.start 1 0 0)
  have hon : Interleaved True on [] 2 :=
    hoff.next (.setHoldControl true) nofun (fun _ => ⟨le_rfl, fun _ _ => rfl⟩)
    |>.next (.setHold true 2) (by simp [Event.calls]) (fun _ => ⟨Nat.le_succ 1, nofun⟩)
  refine ⟨(holding_agrees hoff).1 rfl, by decide +kernel, fun clock hclk k d hd => ?_⟩
  rcases (holding_agrees hon).2 rfl clock hclk k d hd with ⟨k', d', hd', -⟩ | hdue
  · have hsl : on.queue.slots = [none] := rfl
    simp [hsl, getElem?_cons] at hd'
  · exact hdue

/-- **Tasks held with the control off**: the call that switches on ends after the one that switches
off, which began after it. -/
theorem held_while_off : ∃ world latest, Interleaved False world [] latest ∧
    world.holdScheduled = false ∧ world.queue.held ≠ ∅ := by
  have hbeg : Interleaved False _ _ _ := .start 1 0 0
  have hbt := hbeg.next (.enqueue (ascii "t") (some 9) 1) nofun nofun
    |>.next (.setHoldControl true) nofun nofun |>.next (.setHoldControl false) nofun nofun
  have hend := hbt.next (.setHold false 2) (by simp [Event.calls]) nofun
    |>.next (.setHold true 3) (by simp [Event.calls]) nofun
  exact ⟨_, _, hend, rfl, fun hemp =>
    absurd (congrArg Std.ExtTreeMap.size hemp) (by decide +kernel)⟩

end World

end Firenook.Tasks
