import MipsVM.Routine
import MipsVM.Tlb.Buffer

/-!
# A processor core

A core has a flag that lets interrupts in, and a translation buffer. Every change of the buffer is
to be made with interrupts off; the core counts those that are not.

## Main definitions

- `Core`: the flag, the count and the buffer
- `Core.guarded`: run a routine with interrupts off, and restore the flag afterwards
- `Core.write`, `Core.writeAnywhere`: change the buffer
- `Core.flush`: empty the buffer with interrupts off

## Main statements

- `interruptsEnabled_guarded`: however a guarded routine ends, the flag is not cleared by it
-/

namespace MipsVM

/-- The state of one core. -/
structure Core where
  interruptsEnabled : Bool
  /-- The number of changes of the buffer that were made with interrupts on. -/
  unguardedWrites : Nat
  tlb : TlbBuffer

namespace Core

variable {ε α : Type}

/-- A core with interrupts on and an unused buffer. -/
def new (slots : Nat) (source : RandomSource) : Except Panic Core := do
  let tlb ← TlbBuffer.new slots source
  pure ⟨true, 0, tlb⟩

/-- Let interrupts in. -/
def enableInterrupts : Routine Core ε Unit := fun c =>
  .done () { c with interruptsEnabled := true } []

/-- Keep interrupts out; the answer is whether they were let in before. -/
def disableInterrupts : Routine Core ε Bool := fun c =>
  .done c.interruptsEnabled { c with interruptsEnabled := false } []

/-- Let interrupts in again if a guard found them let in. -/
def restoreInterrupts (wereEnabled : Bool) : Routine Core ε Unit :=
  if wereEnabled then enableInterrupts else pure ()

/-- Run a routine with interrupts off. Afterwards they are on again if they were on before, however
the routine ended. -/
def guarded (r : Routine Core ε α) : Routine Core ε α := fun c =>
  match r { c with interruptsEnabled := false } with
  | ⟨outcome, left, events⟩ =>
    ⟨outcome,
      if c.interruptsEnabled then { left with interruptsEnabled := true } else left,
      events⟩

/-- Put an entry into a slot. -/
def write (slot : Nat) (entry : TlbEntry) : Routine Core ε Unit := fun c =>
  let counted :=
    { c with unguardedWrites := c.unguardedWrites + if c.interruptsEnabled then 1 else 0 }
  if slot < c.tlb.slots.size then
    .done ()
      { counted with tlb := { counted.tlb with slots := counted.tlb.slots.set! slot entry } } []
  else .panic (.indexOutOfBounds c.tlb.slots.size slot) counted []

/-- Put an entry into a random slot; the answer is the slot. -/
def writeAnywhere (entry : TlbEntry) : Routine Core ε Nat := fun c =>
  if c.tlb.slots.size = 0 then .panic .emptyChoice c []
  else
    match c.tlb.source.below c.tlb.slots.size with
    | (slot, source) =>
      (write slot entry >>= fun _ => pure slot)
        { c with tlb := { c.tlb with source := source } }

/-- Put the unused entries into `count` slots from `slot` on. -/
def flushFrom (slot : Nat) : (count : Nat) → Routine Core ε Unit
  | 0 => pure ()
  | count + 1 => do
    let entry ← Routine.orPanic (TlbEntry.unused slot)
    write slot entry
    flushFrom (slot + 1) count

/-- Put the unused entry into every slot, with interrupts off. -/
def flush : Routine Core ε Unit :=
  guarded fun c => flushFrom 0 c.tlb.slots.size c

/-- A guarded routine leaves the flag set if it was set. -/
theorem interruptsEnabled_guarded {r : Routine Core ε α} {c : Core} (h : c.interruptsEnabled) :
    ((guarded r) c).state.interruptsEnabled := by
  unfold guarded
  rcases r { c with interruptsEnabled := false } with ⟨_, _, _⟩
  simp [h]

end Core

end MipsVM
