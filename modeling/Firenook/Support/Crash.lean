/-!
# Crash — effects on a medium, and what a crash in the middle leaves

A program acts on a medium by a list of effects. A crash stops it between two of them, or inside
one that is not atomic; `Cut` relates the medium before to every medium a crash can leave. A
*script* is a computation that emits effects and may fail on the way, keeping the effects it has
emitted.

`Script.Meets` is the triple for scripts: whatever the crash point the medium satisfies an
invariant, and if the script returns, its value and the medium satisfy a postcondition.
-/

namespace Crash

variable {ε μ : Type} {effects : List ε}

/-- How effects act, and what is left of one that is interrupted. -/
structure Device (ε μ : Type) where
  apply : ε → μ → μ
  torn : ε → μ → μ → Prop

namespace Device

variable (device : Device ε μ)

def perform (effects : List ε) (m : μ) : μ := effects.foldl (fun m e => device.apply e m) m

/-- The media a crash during the effects can leave. -/
inductive Cut : List ε → μ → μ → Prop
  | stop (effects : List ε) (m : μ) : Cut effects m m
  | torn {e : ε} {effects : List ε} {m m' : μ} (h : device.torn e m m') : Cut (e :: effects) m m'
  | next {e : ε} {effects : List ε} {m m' : μ} (h : Cut effects (device.apply e m) m') :
      Cut (e :: effects) m m'

/-- Every medium a crash can leave satisfies the invariant. -/
def Safe (inv : μ → Prop) (effects : List ε) (m : μ) : Prop :=
  ∀ m', device.Cut effects m m' → inv m'

variable {device} {inv : μ → Prop}

theorem perform_append (a b : List ε) (m : μ) :
    device.perform (a ++ b) m = device.perform b (device.perform a m) := List.foldl_append

theorem Safe.nil {m : μ} (h : inv m) : device.Safe inv [] m := by
  rintro m' ⟨⟩
  exact h

theorem Safe.imp {inv' : μ → Prop} {m : μ} (h : device.Safe inv effects m)
    (himp : ∀ m', inv m' → inv' m') : device.Safe inv' effects m :=
  fun m' hcut => himp m' (h m' hcut)

theorem Safe.cons {e : ε} {m : μ} (h : inv m) (htr : ∀ m', device.torn e m m' → inv m')
    (hrs : device.Safe inv effects (device.apply e m)) : device.Safe inv (e :: effects) m := by
  intro m' hcut
  cases hcut with
  | stop => exact h
  | torn h => exact htr m' h
  | next h => exact hrs m' h

theorem Safe.append {a b : List ε} {m : μ} (ha : device.Safe inv a m)
    (hb : device.Safe inv b (device.perform a m)) : device.Safe inv (a ++ b) m := by
  induction a generalizing m with
  | nil => exact hb
  | cons e a ih =>
    intro m' hcut
    cases hcut with
    | stop => exact ha m (.stop _ m)
    | torn h => exact ha m' (.torn h)
    | next h => exact ih (fun m'' h'' => ha m'' (.next h'')) hb m' h

end Device

/-! ### Scripts -/

/-- A computation that emits effects and may fail. -/
structure Script (ε δ α : Type) where
  effects : List ε
  result : Except δ α

namespace Script

variable {δ α β : Type}

def emit (effects : List ε) : Script ε δ Unit := ⟨effects, .ok ()⟩

def lift (result : Except δ α) : Script ε δ α := ⟨[], result⟩

def bind (x : Script ε δ α) (f : α → Script ε δ β) : Script ε δ β :=
  match x.result with
  | .error e => ⟨x.effects, .error e⟩
  | .ok a => ⟨x.effects ++ (f a).effects, (f a).result⟩

instance : Monad (Script ε δ) where
  pure a := ⟨[], .ok a⟩
  bind := bind

variable (device : Device ε μ)

/-- **The triple of a script**: the invariant at every crash point, and the postcondition if it
returns. -/
structure Meets (inv : μ → Prop) (m : μ) (x : Script ε δ α) (post : α → μ → Prop) : Prop where
  safe : device.Safe inv x.effects m
  post : ∀ a, x.result = .ok a → post a (device.perform x.effects m)

variable {device} {inv : μ → Prop} {m : μ} {x : Script ε δ α} {f : α → Script ε δ β}
  {post : α → μ → Prop}

theorem Meets.pure {a : α} (hinv : inv m) (h : post a m) :
    Meets device inv m (Pure.pure a : Script ε δ α) post where
  safe := Device.Safe.nil hinv
  post := by
    rintro _ ⟨⟩
    exact h

theorem Meets.lift {result : Except δ α} (hinv : inv m)
    (h : ∀ a, result = .ok a → post a m) : Meets device inv m (Script.lift result) post where
  safe := Device.Safe.nil hinv
  post := h

theorem Meets.emit {post : Unit → μ → Prop} (hsf : device.Safe inv effects m)
    (h : post () (device.perform effects m)) :
    Meets device inv m (Script.emit effects : Script ε δ Unit) post where
  safe := hsf
  post := fun _ _ => h

/-- Sequencing. -/
theorem Meets.bind (mid : α → μ → Prop) {post : β → μ → Prop}
    (hx : Meets device inv m x mid) (hf : ∀ a m', mid a m' → Meets device inv m' (f a) post) :
    Meets device inv m (x >>= f) post := by
  change Meets device inv m (x.bind f) post
  unfold Script.bind
  cases hres : x.result with
  | error e => exact ⟨hx.safe, nofun⟩
  | ok a =>
    have hrs := hf a _ (hx.post a hres)
    refine ⟨hx.safe.append hrs.safe, ?_⟩
    intro b hb
    rw [Device.perform_append]
    exact hrs.post b hb

theorem Meets.mono {inv' : μ → Prop} (hx : Meets device inv m x post)
    (h : ∀ m', inv m' → inv' m') : Meets device inv' m x post :=
  ⟨hx.safe.imp h, hx.post⟩

/-- Whether a sequence returns is decided by its last part. -/
theorem result_bind {a : α} (ha : x.result = .ok a) : (x >>= f).result = (f a).result := by
  change (x.bind f).result = _
  unfold Script.bind
  rw [ha]

end Script

end Crash
