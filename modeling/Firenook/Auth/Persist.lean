import Mathlib.Data.List.Sort

/-!
# Auth — the writer of the state file

The Auth state lives in memory and is written to one file (`persist.rs`). Three locks are taken,
never two at once except that a write holds its own: `data` around a change or a snapshot, `signal`
around the dirty flag, and `write` from before the flag is cleared until after the file is
published. A changer changes the data and marks it dirty in two sections; a flush, the background
writer and the final stop each run `writeNow`, whose sections may interleave with everything else.

The data is the list of changes made to it, and a snapshot is that list at some moment. A step of
`Persister.Step` is one locked section, or the publishing of a file, which may fail.

**A flush covers what was marked before it** (`flush_covers`). If no write fails, the background
thread never sleeps over a marked change (**`never_asleep_marked`**); after a flush that failed it
may (`slept_over_marked`).
-/

namespace Firenook.Auth

open Option Std Bool List

variable {C : Type}

/-! ### The sections -/

/-- Where a call of `write_now` is. -/
inductive Phase (C : Type) where
  /-- Before the write lock. -/
  | waiting
  | locked
  /-- The flag is cleared, the snapshot not yet taken. -/
  | cleared
  | taken (snapshot : List C)
  | failed
  /-- The result stands, the write lock is still held. -/
  | done (ok : Bool)
  | returned (ok : Bool)
  | answered (ok : Bool)

namespace Phase

/-- The call holds the write lock. -/
def holds : Phase C → Bool
  | locked | cleared | taken _ | failed | done _ => true
  | _ => false

/-- The flag is cleared and the write not over. -/
def writing : Phase C → Bool
  | cleared | taken _ | failed => true
  | _ => false

def succeeded : Phase C → Bool
  | done ok | returned ok | answered ok => ok
  | _ => false

theorem holds_of_writing {phase : Phase C} (h : phase.writing = true) : phase.holds = true := by
  cases phase <;> first | rfl | cases h

end Phase

inductive Caller where
  | flush
  | writer
  | stop
  deriving DecidableEq

/-- A call of `write_now`. `asked` are the changes whose `mark_dirty` had returned when it began. -/
structure Call (C : Type) where
  caller : Caller
  force : Bool
  phase : Phase C
  asked : List Nat

/-- Where the background thread is in its loop. -/
inductive Writer where
  | waiting
  | gathering
  | writing
  | stopped
  deriving DecidableEq

/-- The shared state. Changes are named by their place in `data`; `marked` are those whose
`mark_dirty` has returned. -/
structure Persister (C : Type) where
  data : List C
  dirty : Bool
  stopping : Bool
  holder : Option Nat
  calls : ExtTreeMap Nat (Call C) compare
  writer : Writer
  failure : Bool
  published : List C
  marked : List Nat

namespace Persister

/-- A persister started on the file it loaded. -/
def start (loaded : List C) : Persister C where
  data := loaded
  dirty := false
  stopping := false
  holder := none
  calls := ∅
  writer := .waiting
  failure := false
  published := loaded
  marked := []

def change (p : Persister C) (c : C) : Persister C := { p with data := p.data ++ [c] }

/-- `mark_dirty` for the change at a place; the flag wakes the writer. -/
def markDirty (p : Persister C) (i : Nat) : Persister C :=
  { p with dirty := true, marked := i :: p.marked }

/-- A call of `write_now` begins. -/
def begin (p : Persister C) (id : Nat) (caller : Caller) (force : Bool) : Persister C :=
  { p with calls := p.calls.insert id ⟨caller, force, .waiting, p.marked⟩ }

def enter (p : Persister C) (id : Nat) (call : Call C) (phase : Phase C) : Persister C :=
  { p with calls := p.calls.insert id { call with phase } }

/-- What a caller does with the result: a flush that succeeds forgets an earlier failure, the
background thread keeps its own and goes back to waiting. -/
def answer (p : Persister C) (caller : Caller) (ok : Bool) : Persister C :=
  match caller with
  | .flush => { p with failure := p.failure && !ok }
  | .writer => { p with failure := p.failure || !ok, writer := .waiting }
  | .stop => p

/-- The next section of `write_now`. `wrote` says whether the file system lets a file be
published. -/
def writeNow (p : Persister C) (id : Nat) (call : Call C) (wrote : Bool) : Option (Persister C) :=
  match call.phase with
  | .waiting =>
    if p.holder.isNone then some ({ p with holder := some id }.enter id call .locked) else none
  | .locked =>
    if !p.dirty && !call.force then some (p.enter id call (.done true))
    else some ({ p with dirty := false }.enter id call .cleared)
  | .cleared => some (p.enter id call (.taken p.data))
  | .taken snapshot =>
    if wrote then some ({ p with published := snapshot }.enter id call (.done true))
    else some (p.enter id call .failed)
  | .failed => some ({ p with dirty := true }.enter id call (.done false))
  | .done ok => some ({ p with holder := none }.enter id call (.returned ok))
  | .returned ok => some ((p.answer call.caller ok).enter id call (.answered ok))
  | .answered _ => none

/-- One section of one thread. -/
inductive Step : Persister C → Persister C → Prop where
  | change (p : Persister C) (c : C) : Step p (p.change c)
  | markDirty (p : Persister C) {i : Nat} (h : i < p.data.length) : Step p (p.markDirty i)
  | flush (p : Persister C) {id : Nat} (force : Bool) (hid : p.calls[id]? = none) :
      Step p (p.begin id .flush force)
  | wake (p : Persister C) (hw : p.writer = .waiting) (h : p.dirty = true ∨ p.stopping = true) :
      Step p { p with writer := if p.stopping then .stopped else .gathering }
  /-- The deadline passed, or another call cleared the flag. -/
  | gathered (p : Persister C) {id : Nat} (hw : p.writer = .gathering) (hs : p.stopping = false)
      (hid : p.calls[id]? = none) :
      Step p { p.begin id .writer false with writer := .writing }
  | quit (p : Persister C) (hw : p.writer = .gathering) (hs : p.stopping = true) :
      Step p { p with writer := .stopped }
  | stop (p : Persister C) : Step p { p with stopping := true }
  | last (p : Persister C) {id : Nat} (hw : p.writer = .stopped) (hid : p.calls[id]? = none) :
      Step p (p.begin id .stop false)
  | writeNow {p p' : Persister C} {id : Nat} {call : Call C} (wrote : Bool)
      (hcall : p.calls[id]? = some call) (h : p.writeNow id call wrote = some p') : Step p p'

/-- The states some interleaving reaches. -/
inductive Run (loaded : List C) : Persister C → Prop where
  | start : Run loaded (start loaded)
  | step {p p' : Persister C} (run : Run loaded p) (h : Step p p') : Run loaded p'

/-! ### The invariant -/

/-- What holds of a call, by its phase. -/
structure CallOk (p : Persister C) (id : Nat) (call : Call C) : Prop where
  asked : ∀ i ∈ call.asked, i ∈ p.marked
  holder : call.phase.holds = true → p.holder = some id
  taken : ∀ s, call.phase = .taken s → s <+: p.data ∧ p.published <+: s ∧
    (∀ i ∈ call.asked, i < s.length) ∧ (p.dirty = false → ∀ i ∈ p.marked, i < s.length)
  covers : call.phase.succeeded = true → ∀ i ∈ call.asked, i < p.published.length

/-- No call is between the clearing of the flag and the end of its write. -/
def Quiet (p : Persister C) : Prop :=
  ∀ (id : Nat) call, p.calls[id]? = some call → call.phase.writing = false

structure Inv (p : Persister C) : Prop where
  published : p.published <+: p.data
  marked : ∀ i ∈ p.marked, i < p.data.length
  calls : ∀ (id : Nat) call, p.calls[id]? = some call → CallOk p id call
  clean : p.dirty = false → p.Quiet → ∀ i ∈ p.marked, i < p.published.length

theorem getElem?_enter (p : Persister C) (id : Nat) (call : Call C) (phase : Phase C) (j : Nat) :
    (p.enter id call phase).calls[j]? =
      if id = j then some { call with phase } else p.calls[j]? := by
  simp [enter, ExtTreeMap.getElem?_insert]

theorem getElem?_begin (p : Persister C) (id : Nat) (caller : Caller) (force : Bool) (j : Nat) :
    (p.begin id caller force).calls[j]? =
      if id = j then some ⟨caller, force, .waiting, p.marked⟩ else p.calls[j]? := by
  simp [begin, ExtTreeMap.getElem?_insert]

/-- An answer touches the failure and the background thread only. -/
theorem answer_eq (p : Persister C) (caller : Caller) (ok : Bool) : p.answer caller ok = { p with
      failure := (p.answer caller ok).failure
      writer := (p.answer caller ok).writer } := by
  cases caller <;> rfl

section

variable {p p' mid : Persister C} {id : Nat} {call : Call C}

/-- What a call knows outlives what the others do. -/
theorem CallOk.later (h : CallOk p id call) (hmrk : ∀ i ∈ p.marked, i ∈ p'.marked)
    (hhld : call.phase.holds = true → p'.holder = p.holder)
    (hpbl : p.published <+: p'.published)
    (htkn : call.phase.holds = true → p.data <+: p'.data ∧ p'.published = p.published ∧
      (p'.dirty = false → p.dirty = false ∧ p'.marked = p.marked)) : CallOk p' id call where
  asked i hi := hmrk i (h.asked i hi)
  holder hhol := (hhld hhol).trans (h.holder hhol)
  taken s hs := by
    obtain ⟨hdt, hsm, hcln⟩ := htkn (hs ▸ rfl)
    obtain ⟨hsnp, hpub, hask, hmr⟩ := h.taken s hs
    refine ⟨hsnp.trans hdt, hsm ▸ hpub, hask, fun hdrt => ?_⟩
    obtain ⟨hdrt, heq⟩ := hcln hdrt
    exact heq ▸ hmr hdrt
  covers hok i hi := (h.covers hok i hi).trans_le hpbl.length_le

section

variable (h : Inv p)

include h

/-- A step that leaves the shared data alone. -/
theorem Inv.frame (hdt : p'.data = p.data) (hdrt : p'.dirty = p.dirty)
    (hhol : p'.holder = p.holder) (hcal : p'.calls = p.calls)
    (hpub : p'.published = p.published) (hmrk : p'.marked = p.marked) : Inv p' where
  published := hdt ▸ hpub ▸ h.published
  marked := hdt ▸ hmrk ▸ h.marked
  calls id call hcl := by
    rw [hcal] at hcl
    refine (h.calls id call hcl).later (hmrk ▸ fun _ h => h) (fun _ => hhol)
      (hpub ▸ prefix_refl _) fun _ => ?_
    exact ⟨hdt ▸ prefix_refl _, hpub, fun hd => ⟨hdrt ▸ hd, hmrk⟩⟩
  clean hd hqt := by
    rw [hdrt] at hd
    rw [hmrk, hpub]
    exact h.clean hd fun id call hcl => hqt id call (hcal ▸ hcl)

theorem Inv.change (c : C) : Inv (p.change c) where
  published := h.published.trans (prefix_append _ _)
  marked i hi := (h.marked i hi).trans_le (prefix_append _ _).length_le
  calls id call hcl := (h.calls id call hcl).later (fun _ h => h) (fun _ => rfl)
    (prefix_refl _) fun _ => ⟨prefix_append _ _, rfl, fun hd => ⟨hd, rfl⟩⟩
  clean := h.clean

/-- A mark raises the flag, so the clauses for a clean state ask nothing. -/
theorem Inv.markDirty {i : Nat} (hi : i < p.data.length) : Inv (p.markDirty i) where
  published := h.published
  marked := forall_mem_cons.mpr ⟨hi, h.marked⟩
  calls id call hcl := (h.calls id call hcl).later (fun _ => mem_cons_of_mem _)
    (fun _ => rfl) (prefix_refl _) fun _ => ⟨prefix_refl _, rfl, nofun⟩
  clean := nofun

theorem Inv.begin (hid : p.calls[id]? = none) (caller : Caller) (force : Bool) :
    Inv (p.begin id caller force) where
  published := h.published
  marked := h.marked
  calls j other hoth := by
    rw [getElem?_begin] at hoth
    split at hoth
    · obtain rfl := some.inj hoth
      exact ⟨fun _ h => h, nofun, nofun, nofun⟩
    · exact (h.calls j other hoth).later (fun _ h => h) (fun _ => rfl) (prefix_refl _)
        fun _ => ⟨prefix_refl _, rfl, fun hd => ⟨hd, rfl⟩⟩
  clean hd hqt := by
    refine h.clean hd fun j other hoth => hqt j other ?_
    rw [getElem?_begin, if_neg]
    · exact hoth
    · rintro rfl
      rw [hid] at hoth
      cases hoth

/-- While one call holds the write lock, or none does, every other call is outside it. -/
theorem Inv.outside (hlc : p.holder = none ∨ p.holder = some id) {j : Nat} {other : Call C}
    (hoth : p.calls[j]? = some other) (hne : id ≠ j) : other.phase.holds = false := by
  refine eq_false_iff.mpr fun hhol => ?_
  have hj := (h.calls j other hoth).holder hhol
  rcases hlc with hnn | hid
  · rw [hnn] at hj
    cases hj
  · exact hne (some.inj (hid.symm.trans hj))

/-- The others keep what they know while the call holds the write lock, or nobody does. -/
theorem Inv.others (phase : Phase C)
    (hlc : p.holder = none ∨ p.holder = some id) (hmrk : mid.marked = p.marked)
    (hpub : p.published <+: mid.published) {j : Nat} {other : Call C}
    (hoth : p.calls[j]? = some other) (hne : id ≠ j) :
    CallOk (mid.enter id call phase) j other := by
  have hout := h.outside hlc hoth hne
  refine (h.calls j other hoth).later (fun i hi => ?_) (fun hh => ?_) hpub fun hh => ?_
  · exact (show i ∈ mid.marked from hmrk ▸ hi)
  all_goals
    rw [hout] at hh
    cases hh

theorem Inv.enter {phase : Phase C} (hcal : mid.calls = p.calls)
    (hdt : mid.data = p.data) (hmrk : mid.marked = p.marked)
    (hwi : mid.published <+: mid.data)
    (hot : ∀ {j : Nat} {other}, p.calls[j]? = some other → id ≠ j → CallOk (mid.enter id call phase) j other)
    (hen : CallOk (mid.enter id call phase) id { call with phase })
    (hcln : mid.dirty = false → (mid.enter id call phase).Quiet →
      ∀ i ∈ p.marked, i < mid.published.length) :
    Inv (mid.enter id call phase) where
  published := hwi
  marked i hi := by
    have hi : i ∈ p.marked := hmrk ▸ hi
    exact (show i < mid.data.length from hdt ▸ h.marked i hi)
  calls j other hoth := by
    rw [getElem?_enter] at hoth
    split at hoth
    · next heq =>
      obtain rfl := some.inj hoth
      exact heq ▸ hen
    · next hne => exact hot (hcal ▸ hoth) hne
  clean hd hqt i hi := hcln hd hqt i (hmrk ▸ hi)

/-- A section under the write lock, or one that takes it. -/
theorem Inv.locked {phase : Phase C}
    (hlc : p.holder = none ∨ p.holder = some id) (hcal : mid.calls = p.calls)
    (hdt : mid.data = p.data) (hmrk : mid.marked = p.marked)
    (hpub : p.published <+: mid.published) (hwi : mid.published <+: mid.data)
    (hen : CallOk (mid.enter id call phase) id { call with phase })
    (hcln : mid.dirty = false → (mid.enter id call phase).Quiet →
      ∀ i ∈ p.marked, i < mid.published.length) :
    Inv (mid.enter id call phase) ∧ p.published <+: (mid.enter id call phase).published :=
  ⟨h.enter hcal hdt hmrk hwi (h.others phase hlc hmrk hpub) hen hcln, hpub⟩

end

/-- Entering a phase hides no write but the call's own. -/
theorem quiet_of_enter {phase : Phase C} (hcal : mid.calls = p.calls)
    (hcl : p.calls[id]? = some call) (hid : call.phase.writing = false)
    (h : (mid.enter id call phase).Quiet) : p.Quiet := by
  intro j other hoth
  by_cases hj : id = j
  · subst hj
    rw [hcl] at hoth
    exact some.inj hoth ▸ hid
  · exact h j other (by rw [getElem?_enter, if_neg hj, hcal, hoth])

theorem enter_not_quiet {phase : Phase C} (hwrg : phase.writing = true) :
    ¬(mid.enter id call phase).Quiet := by
  intro h
  have hid := h id { call with phase } (by rw [getElem?_enter, if_pos rfl])
  exact Bool.noConfusion (hwrg.symm.trans hid)

/-- **A section of `write_now`** keeps the invariant, and no file drops a change. -/
theorem Inv.writeNow (h : Inv p) (hcl : p.calls[id]? = some call) {wrote : Bool}
    (hst : p.writeNow id call wrote = some p') : Inv p' ∧ p.published <+: p'.published := by
  have hsl := h.calls id call hcl
  rw [Persister.writeNow] at hst
  cases hph : call.phase with
  | waiting =>
    simp only [hph, ite_none_right_eq_some, some.injEq] at hst
    obtain ⟨hfr, rfl⟩ := hst
    have hlc : p.holder = none := isNone_iff_eq_none.mp hfr
    refine h.locked (.inl hlc) rfl rfl rfl (prefix_refl _) h.published
      ⟨hsl.asked, fun _ => rfl, nofun, nofun⟩ fun hd hqt => ?_
    exact h.clean hd (quiet_of_enter rfl hcl (by rw [hph]; rfl) hqt)
  | locked =>
    have hlc := hsl.holder (by rw [hph]; rfl)
    simp only [hph] at hst
    split at hst
    · next hsk =>
      obtain rfl := some.inj hst
      have hdrt : p.dirty = false := (not_eq_true' _).mp (and_eq_true _ _ ▸ hsk).1
      have hqt : p.Quiet := by
        intro j other hoth
        by_cases hj : id = j
        · subst hj
          rw [hcl] at hoth
          rw [← some.inj hoth, hph]
          rfl
        · have hout := h.outside (.inr hlc) hoth hj
          exact eq_false_iff.mpr fun hw => by
            rw [Phase.holds_of_writing hw] at hout
            cases hout
      have hall := h.clean hdrt hqt
      exact h.locked (.inr hlc) rfl rfl rfl (prefix_refl _) h.published
        ⟨hsl.asked, fun _ => hlc, nofun, fun _ i hi => hall i (hsl.asked i hi)⟩
        fun _ _ => hall
    · obtain rfl := some.inj hst
      exact h.locked (.inr hlc) rfl rfl rfl (prefix_refl _) h.published
        ⟨hsl.asked, fun _ => hlc, nofun, nofun⟩
        fun _ hqt => absurd hqt (enter_not_quiet rfl)
  | cleared =>
    have hlc := hsl.holder (by rw [hph]; rfl)
    simp only [hph] at hst
    obtain rfl := some.inj hst
    refine h.locked (.inr hlc) rfl rfl rfl (prefix_refl _) h.published
      ⟨hsl.asked, fun _ => hlc, fun s hs => ?_, nofun⟩
      fun _ hqt => absurd hqt (enter_not_quiet rfl)
    cases hs
    exact ⟨prefix_refl _, h.published, fun i hi => h.marked i (hsl.asked i hi), fun _ => h.marked⟩
  | taken s =>
    have hlc := hsl.holder (by rw [hph]; rfl)
    obtain ⟨hsnp, hgr, hask, hmr⟩ := hsl.taken s hph
    simp only [hph] at hst
    split at hst
    · obtain rfl := some.inj hst
      exact h.locked (.inr hlc) rfl rfl rfl hgr hsnp
        ⟨hsl.asked, fun _ => hlc, nofun, fun _ => hask⟩ fun hd _ => hmr hd
    · obtain rfl := some.inj hst
      exact h.locked (.inr hlc) rfl rfl rfl (prefix_refl _) h.published
        ⟨hsl.asked, fun _ => hlc, nofun, nofun⟩
        fun _ hqt => absurd hqt (enter_not_quiet rfl)
  | failed =>
    have hlc := hsl.holder (by rw [hph]; rfl)
    simp only [hph] at hst
    obtain rfl := some.inj hst
    exact h.locked (.inr hlc) rfl rfl rfl (prefix_refl _) h.published
      ⟨hsl.asked, fun _ => hlc, nofun, nofun⟩ nofun
  | done ok =>
    have hlc := hsl.holder (by rw [hph]; rfl)
    simp only [hph] at hst
    obtain rfl := some.inj hst
    refine h.locked (.inr hlc) rfl rfl rfl (prefix_refl _) h.published
      ⟨hsl.asked, nofun, nofun, fun hok => hsl.covers (by rw [hph]; exact hok)⟩
      fun hd hqt => ?_
    exact h.clean hd (quiet_of_enter rfl hcl (by rw [hph]; rfl) hqt)
  | returned ok =>
    simp only [hph] at hst
    obtain rfl := some.inj hst
    rw [answer_eq]
    refine ⟨h.enter rfl rfl rfl h.published (fun {j other} hoth _ => ?_)
      ⟨hsl.asked, nofun, nofun, fun hok => hsl.covers (by rw [hph]; exact hok)⟩
      fun hd hqt => ?_, prefix_refl _⟩
    · exact (h.calls j other hoth).later (fun _ h => h) (fun _ => rfl) (prefix_refl _)
        fun _ => ⟨prefix_refl _, rfl, fun hd => ⟨hd, rfl⟩⟩
    · exact h.clean hd (quiet_of_enter rfl hcl (by rw [hph]; rfl) hqt)
  | answered ok =>
    simp only [hph] at hst
    cases hst

theorem Inv.step (h : Inv p) (hst : Step p p') : Inv p' ∧ p.published <+: p'.published := by
  cases hst with
  | change c => exact ⟨h.change c, prefix_refl _⟩
  | markDirty hi => exact ⟨h.markDirty hi, prefix_refl _⟩
  | flush force hid => exact ⟨h.begin hid .flush force, prefix_refl _⟩
  | wake | quit | stop => exact ⟨h.frame rfl rfl rfl rfl rfl rfl, prefix_refl _⟩
  | gathered hw hs hid =>
    exact ⟨(h.begin hid .writer false).frame rfl rfl rfl rfl rfl rfl, prefix_refl _⟩
  | last hw hid => exact ⟨h.begin hid .stop false, prefix_refl _⟩
  | writeNow wrote hcl hsec => exact h.writeNow hcl hsec

end

theorem inv_start (loaded : List C) : Inv (start loaded) where
  published := prefix_refl _
  marked := nofun
  calls id call hcl := by
    cases hcl
  clean _ _ := nofun

theorem Run.inv {loaded : List C} {p : Persister C} (run : Run loaded p) : Inv p := by
  induction run with
  | start => exact inv_start loaded
  | step _ hst ih => exact (ih.step hst).1

/-! ### What a flush guarantees -/

/-- **A flush covers what was marked before it.** In every reachable state the published file is
the data at some moment. It has every change that was marked before a flush that succeeded began;
no later file drops a change of it; and while the flag is off and no call is writing, it has every
marked change. -/
theorem flush_covers {loaded : List C} {p : Persister C} (run : Run loaded p) :
    p.published <+: p.data ∧
    (∀ (id : Nat) call, p.calls[id]? = some call →
      call.phase = .returned true ∨ call.phase = .answered true →
      ∀ i ∈ call.asked, i < p.published.length) ∧
    (∀ p', Step p p' → p.published <+: p'.published) ∧
    (p.dirty = false → p.Quiet → ∀ i ∈ p.marked, i < p.published.length) := by
  have h := run.inv
  refine ⟨h.published, fun id call hcl hph => ?_, fun p' hst => (h.step hst).2, h.clean⟩
  refine (h.calls id call hcl).covers ?_
  rcases hph with hph | hph <;> rw [hph] <;> rfl

/-- The first sections of a call, while the file system lets it write. -/
def drive (id : Nat) : Nat → Persister C → Option (Persister C)
  | 0, p => some p
  | n + 1, p => p.calls[id]?.bind fun call => (p.writeNow id call true).bind (drive id n)

theorem Run.drive {loaded : List C} {id : Nat} :
    ∀ {n : Nat} {p p' : Persister C}, Run loaded p → p.drive id n = some p' → Run loaded p'
  | 0, _, _, run, h => some.inj h ▸ run
  | n + 1, _, _, run, h => by
    obtain ⟨call, hcl, h⟩ := bind_eq_some_iff.mp h
    obtain ⟨mid, hsec, h⟩ := bind_eq_some_iff.mp h
    exact (run.step (.writeNow true hcl hsec)).drive h

/-- A change that was marked, and a flush that waits for the write lock. -/
def flushing : Persister Bool := (((start []).change true).markDirty 0).begin 0 .flush false

theorem run_flushing : Run [] flushing := by
  refine .step (.step (.step .start (.change _ true)) (.markDirty _ Nat.one_pos)) ?_
  exact .flush _ false ExtTreeMap.getElem?_empty

/-- One change, marked and flushed. -/
theorem flush_covers_one : ∃ p : Persister Bool, flushing.drive 0 5 = some p ∧ p.data = [true] ∧
    0 < p.published.length := by
  have hdrv : (flushing.drive 0 5).any (fun p => p.data == [true] && p.calls[0]?.any fun call =>
      call.phase matches .returned true && call.asked == [0]) = true := by decide +kernel
  obtain ⟨p, hp, h⟩ := (any_eq_true _ _).mp hdrv
  obtain ⟨hdt, h⟩ := (and_eq_true _ _).mp h
  obtain ⟨call, hcl, h⟩ := (any_eq_true _ _).mp h
  obtain ⟨hph, hask⟩ := (and_eq_true _ _).mp h
  have hret : call.phase = .returned true := by
    cases hc : call.phase with
    | returned ok =>
      cases ok with
      | true => rfl
      | false => simp [hc] at hph
    | _ => simp [hc] at hph
  refine ⟨p, hp, eq_of_beq hdt, ?_⟩
  exact (flush_covers (run_flushing.drive hp)).2.1 0 call hcl (.inl hret) 0
    (by rw [eq_of_beq hask]; exact mem_singleton_self 0)

/-! ### The sleep of the background thread -/

section

variable {reliable : Prop} {loaded : List C} {p p' : Persister C} {asleep : Bool} {id : Nat}

def NoneFailed (p : Persister C) : Prop :=
  ∀ (id : Nat) call, p.calls[id]? = some call → call.phase ≠ .failed

/-- The runs before `stop`. `asleep` says that the thread is blocked in its untimed wait and no
notification is on its way to it; with `reliable` no write fails. -/
inductive Dozing (reliable : Prop) (loaded : List C) : Persister C → Bool → Prop where
  | start : Dozing reliable loaded (start loaded) false
  /-- The thread finds the flag off and waits. -/
  | sleep {p : Persister C} {asleep : Bool} (run : Dozing reliable loaded p asleep)
      (hw : p.writer = .waiting) (hd : p.dirty = false) : Dozing reliable loaded p true
  /-- The thread is notified if the flag was off. -/
  | markDirty {p : Persister C} {asleep : Bool} {i : Nat} (run : Dozing reliable loaded p asleep)
      (h : i < p.data.length) : Dozing reliable loaded (p.markDirty i) (asleep && p.dirty)
  /-- Any other section; nobody else wakes the thread. -/
  | step {p p' : Persister C} {asleep : Bool} (run : Dozing reliable loaded p asleep)
      (h : Step p p') (hmarked : p'.marked = p.marked) (hstop : p'.stopping = false)
      (hasleep : asleep = true → p'.writer = .waiting) (hok : reliable → p'.NoneFailed) :
      Dozing reliable loaded p' asleep

/-- Only `mark_dirty` and a write that failed turn the flag on. -/
theorem Step.dirty (h : Step p p') (hmrk : p'.marked = p.marked) (hok : p.NoneFailed)
    (hdrt : p'.dirty = true) : p.dirty = true := by
  cases h with
  | markDirty => exact absurd hmrk (cons_ne_self _ _)
  | @writeNow _ id call wrote hcl h =>
    rw [Persister.writeNow] at h
    cases hph : call.phase with
    | waiting | locked | taken s =>
      simp only [hph] at h
      split at h <;> cases h <;> first | exact hdrt | cases hdrt
    | cleared | done ok =>
      simp only [hph] at h
      cases h
      exact hdrt
    | failed => exact absurd hph (hok id call hcl)
    | returned ok =>
      simp only [hph] at h
      cases h
      rwa [answer_eq] at hdrt
    | answered ok => simp [hph] at h
  | _ => exact hdrt

/-- While no write fails, the flag is off under a thread that sleeps. -/
theorem Dozing.clean (run : Dozing True loaded p asleep) :
    Run loaded p ∧ p.NoneFailed ∧ (asleep = true → p.dirty = false) := by
  induction run with
  | start => exact ⟨.start, fun id call hcl => by simp [Persister.start] at hcl, nofun⟩
  | sleep _ hw hd ih => exact ⟨ih.1, ih.2.1, fun _ => hd⟩
  | markDirty _ hi ih =>
    refine ⟨ih.1.step (.markDirty _ hi), ih.2.1, fun hslp => ?_⟩
    -- the flag was on already, so the thread was awake
    obtain ⟨hslp, hdrt⟩ := (and_eq_true _ _).mp hslp
    rw [ih.2.2 hslp] at hdrt
    cases hdrt
  | step _ h hmrk _ _ hok ih =>
    obtain ⟨hrun, hnn, hcln⟩ := ih
    refine ⟨hrun.step h, hok trivial, fun hslp => eq_false_iff.mpr fun hdrt => ?_⟩
    exact eq_false_iff.mp (hcln hslp) (h.dirty hmrk hnn hdrt)

/-- A change is in the file, or a write that has it is under way. -/
def Covered (p : Persister C) (i : Nat) : Prop :=
  i < p.published.length ∨ ∃ (id : Nat) (call : Call C), p.calls[id]? = some call ∧
    (call.phase = .cleared ∨ ∃ s, call.phase = .taken s ∧ i < s.length)

/-- **The thread never sleeps over a marked change**, if no write fails. -/
theorem never_asleep_marked (run : Dozing True loaded p asleep) {i : Nat} (hi : i ∈ p.marked) :
    p.Covered i ∨ asleep = false := by
  obtain ⟨hrun, hnn, hcln⟩ := run.clean
  cases asleep with
  | false => exact .inr rfl
  | true =>
    have hcln := hcln rfl
    by_cases hqt : p.Quiet
    · exact .inl (.inl (hrun.inv.clean hcln hqt i hi))
    simp only [Quiet, not_forall, not_eq_false] at hqt
    obtain ⟨id, call, hcl, hwrg⟩ := hqt
    refine .inl (.inr ⟨id, call, hcl, ?_⟩)
    cases hph : call.phase with
    | cleared => exact .inl rfl
    | taken s =>
      exact .inr ⟨s, rfl, ((hrun.inv.calls id call hcl).taken s hph).2.2.2 hcln i hi⟩
    | failed => exact absurd hph (hnn id call hcl)
    | _ => simp [hph, Phase.writing] at hwrg

end

/-- A change marked while the thread sleeps. -/
theorem never_asleep_marked_one : ∃ p : Persister Bool, Dozing True [] p false ∧ 0 ∈ p.marked ∧
    (p.Covered 0 ∨ false = false) := by
  have run : Dozing True [] (((start []).change true).markDirty 0) false :=
    (Dozing.start.sleep rfl rfl).step (.change _ true) rfl rfl (fun _ => rfl)
      (fun _ id call hcl => by simp [Persister.start, Persister.change] at hcl)
      |>.markDirty Nat.one_pos
  exact ⟨_, run, mem_cons_self, never_asleep_marked run mem_cons_self⟩

/-- The next sections of a call, each with whether the file system lets it write. -/
def sections (id : Nat) : List Bool → Persister C → Option (Persister C)
  | [], p => some p
  | wrote :: rest, p => p.calls[id]?.bind fun call => (p.writeNow id call wrote).bind fun p' =>
    if p'.marked = p.marked ∧ p'.stopping = false ∧ p'.writer = .waiting then p'.sections id rest
    else none

theorem Dozing.sections {loaded : List C} {id : Nat} {asleep : Bool} :
    ∀ {script : List Bool} {p p' : Persister C}, Dozing False loaded p asleep →
      p.sections id script = some p' → Dozing False loaded p' asleep
  | [], _, _, run, h => some.inj h ▸ run
  | wrote :: _, _, _, run, h => by
    obtain ⟨call, hcl, h⟩ := bind_eq_some_iff.mp h
    obtain ⟨mid, hsec, h⟩ := bind_eq_some_iff.mp h
    obtain ⟨⟨hmrk, hst, hwrt⟩, h⟩ := ite_none_right_eq_some.mp h
    exact (run.step (.writeNow wrote hcl hsec) hmrk hst (fun _ => hwrt) nofun).sections h

/-- **The thread sleeps over a marked change.** A forced flush fails while it sleeps and turns the
flag on; the change is marked then, and nobody wakes it. -/
theorem slept_over_marked :
    ∃ p : Persister Bool, Dozing False [] p true ∧ 0 ∈ p.marked ∧ ¬p.Covered 0 := by
  have hpl : ((((start []).change true).begin 0 .flush true).sections 0
      [true, true, true, false, true]).any (fun p => p.dirty && p.data == [true] &&
        p.published == [] && p.calls.toList.all fun c => !c.2.phase.writing) = true := by
    decide +kernel
  obtain ⟨p, hp, h⟩ := (any_eq_true _ _).mp hpl
  simp only [and_eq_true, beq_iff_eq, List.all_eq_true, not_eq_true'] at h
  obtain ⟨⟨⟨hdrt, hdt⟩, hpub⟩, hqt⟩ := h
  have run : Dozing False [] (((start []).change true).begin 0 .flush true) true :=
    (Dozing.start.sleep rfl rfl).step (.change _ true) rfl rfl (fun _ => rfl) nofun
      |>.step (.flush _ true ExtTreeMap.getElem?_empty) rfl rfl (fun _ => rfl) nofun
  have hslp := (run.sections hp).markDirty (hdt ▸ Nat.one_pos : 0 < p.data.length)
  rw [hdrt] at hslp
  refine ⟨_, hslp, mem_cons_self, ?_⟩
  rintro (h | ⟨id, call, hcl, hph⟩)
  · rw [markDirty, hpub] at h
    cases h
  · have hwrg := hqt (id, call) (ExtTreeMap.mem_toList_iff_getElem?_eq_some.mpr hcl)
    rcases hph with hph | ⟨s, hph, -⟩ <;> simp [hph, Phase.writing] at hwrg

end Persister

end Firenook.Auth
