import MipsVM.Panic
import MipsVM.Event

/-!
# Routines

A routine works on a state and ends with a value, with an error for its caller, or with a panic.
However it ends, what it did to the state until then stays, and so do the events it reported.

## Main definitions

- `Ending`: how a run of a routine ended: its outcome, the state it left, and its events
- `Routine`: a routine on states of a given type, with a given type of errors
- `Routine.attempt`: run a routine and go on with its error as a value; a panic is not caught
- `Routine.within`: run a routine on a part of the state

## Main statements

- `Routine` is a lawful monad.
- `Routine.bind_apply`: a sequence stops at the first routine that does not end with a value.
-/

namespace MipsVM

/-- How a run of a routine ended. -/
structure Ending (σ ε α : Type) where
  /-- The value, or why there is none. -/
  outcome : Except (Failure ε) α
  /-- The state that the run left. -/
  state : σ
  /-- What the run reported, in order. -/
  events : List Event

namespace Ending

variable {σ ε α β : Type}

/-- The run ended with a value. -/
@[match_pattern] def done (a : α) (s : σ) (events : List Event) : Ending σ ε α :=
  ⟨.ok a, s, events⟩

/-- The run ended with an error for its caller. -/
@[match_pattern] def error (e : ε) (s : σ) (events : List Event) : Ending σ ε α :=
  ⟨.error (.error e), s, events⟩

/-- The run ended with a panic. -/
@[match_pattern] def panic (p : Panic) (s : σ) (events : List Event) : Ending σ ε α :=
  ⟨.error (.panic p), s, events⟩

/-- The value of the run, if it has one. -/
def value? (r : Ending σ ε α) : Option α :=
  match r.outcome with
  | .ok a => some a
  | .error _ => none

end Ending

/-- A routine on states `σ` that ends with an `α` or with an error `ε`, unless it panics. -/
def Routine (σ ε α : Type) : Type :=
  σ → Ending σ ε α

namespace Routine

variable {σ τ ε ε' α β γ : Type}

/-- Run the routine on a state. -/
def run (r : Routine σ ε α) (s : σ) : Ending σ ε α :=
  r s

/-- End with a value and change nothing. -/
protected def pure (a : α) : Routine σ ε α :=
  fun s => ⟨.ok a, s, []⟩

/-- Run one routine and then, if it ends with a value, another. -/
protected def bind (r : Routine σ ε α) (f : α → Routine σ ε β) : Routine σ ε β := fun s =>
  match r s with
  | ⟨.ok a, s', events⟩ =>
    match f a s' with
    | ⟨outcome, s'', events'⟩ => ⟨outcome, s'', events ++ events'⟩
  | ⟨.error e, s', events⟩ => ⟨.error e, s', events⟩

instance : Monad (Routine σ ε) where
  pure := Routine.pure
  bind := Routine.bind

@[ext] protected theorem ext {r r' : Routine σ ε α} (h : ∀ s, r s = r' s) : r = r' :=
  funext h

theorem pure_apply (a : α) (s : σ) : (pure a : Routine σ ε α) s = ⟨.ok a, s, []⟩ := rfl

/-- A sequence stops at the first routine that does not end with a value. -/
theorem bind_apply (r : Routine σ ε α) (f : α → Routine σ ε β) (s : σ) :
    (r >>= f) s =
      match r s with
      | ⟨.ok a, s', events⟩ =>
        ⟨(f a s').outcome, (f a s').state, events ++ (f a s').events⟩
      | ⟨.error e, s', events⟩ => ⟨.error e, s', events⟩ := rfl

/-- A first routine that ends with a value hands over its state. -/
theorem bind_of_ok {r : Routine σ ε α} {f : α → Routine σ ε β} {s s' : σ} {a : α}
    {events : List Event} (h : r s = ⟨.ok a, s', events⟩) :
    (r >>= f) s = ⟨(f a s').outcome, (f a s').state, events ++ (f a s').events⟩ := by
  rw [bind_apply, h]

/-- A first routine that fails ends the sequence. -/
theorem bind_of_error {r : Routine σ ε α} {f : α → Routine σ ε β} {s s' : σ} {e : Failure ε}
    {events : List Event} (h : r s = ⟨.error e, s', events⟩) :
    (r >>= f) s = ⟨.error e, s', events⟩ := by
  rw [bind_apply, h]

instance : LawfulMonad (Routine σ ε) := LawfulMonad.mk' (Routine σ ε)
  (fun r => funext fun s => by
    show Routine.bind r (fun a => Routine.pure a) s = r s
    simp only [Routine.bind, Routine.pure]
    rcases h : r s with ⟨_ | _, _, _⟩ <;> simp)
  (fun a f => funext fun s => by
    show Routine.bind (Routine.pure a) f s = f a s
    simp only [Routine.bind, Routine.pure, List.nil_append])
  (fun r f g => funext fun s => by
    show Routine.bind (Routine.bind r f) g s = Routine.bind r (fun a => Routine.bind (f a) g) s
    simp only [Routine.bind]
    rcases r s with ⟨_ | a, s', events⟩
    · rfl
    · rcases h : f a s' with ⟨_ | b, s'', events'⟩ <;> simp [h, List.append_assoc])

/-- End with an error for the caller. -/
def fail (e : ε) : Routine σ ε α :=
  fun s => .error e s []

/-- End with a panic. -/
def panic (p : Panic) : Routine σ ε α :=
  fun s => .panic p s []

/-- Report an event. -/
def report (e : Event) : Routine σ ε Unit :=
  fun s => .done () s [e]

/-- The state. -/
def get : Routine σ ε σ :=
  fun s => .done s s []

/-- Leave another state. -/
def set (s' : σ) : Routine σ ε Unit :=
  fun _ => .done () s' []

/-- Change the state by a function. -/
def modify (f : σ → σ) : Routine σ ε Unit :=
  fun s => .done () (f s) []

/-- A function of the state. -/
def gets (f : σ → α) : Routine σ ε α :=
  fun s => .done (f s) s []

/-- A result with an error for the caller. -/
def ofExcept : Except ε α → Routine σ ε α
  | .ok a => pure a
  | .error e => fail e

/-- A result whose absence is a panic. -/
def orPanic : Except Panic α → Routine σ ε α
  | .ok a => pure a
  | .error p => panic p

/-- A result that may be missing with an error for the caller. -/
def orFail (e : ε) : Option α → Routine σ ε α
  | some a => pure a
  | none => fail e

/-- Run the routine and go on with its error as a value. -/
def attempt (r : Routine σ ε α) : Routine σ ε' (Except ε α) := fun s =>
  match r s with
  | ⟨.ok a, s', events⟩ => ⟨.ok (.ok a), s', events⟩
  | ⟨.error (.error e), s', events⟩ => ⟨.ok (.error e), s', events⟩
  | ⟨.error (.panic p), s', events⟩ => ⟨.error (.panic p), s', events⟩

/-- Restate the errors of a routine. -/
def mapError (f : ε → ε') (r : Routine σ ε α) : Routine σ ε' α := fun s =>
  match r s with
  | ⟨.ok a, s', events⟩ => ⟨.ok a, s', events⟩
  | ⟨.error e, s', events⟩ => ⟨.error (e.map f), s', events⟩

/-- Report further events if the routine panics. -/
def onPanic (events : List Event) (r : Routine σ ε α) : Routine σ ε α := fun s =>
  match r s with
  | ⟨.error (.panic p), s', events'⟩ => ⟨.error (.panic p), s', events' ++ events⟩
  | ending => ending

/-- Run a routine on a part of the state. -/
def within (part : σ → τ) (put : τ → σ → σ) (r : Routine τ ε α) : Routine σ ε α := fun s =>
  match r (part s) with
  | ⟨outcome, t, events⟩ => ⟨outcome, put t s, events⟩

/-- Run a routine for each element of a list, in order. -/
def forEach (f : α → Routine σ ε Unit) : List α → Routine σ ε Unit
  | [] => pure ()
  | a :: rest => do
    f a
    forEach f rest

end Routine

end MipsVM
