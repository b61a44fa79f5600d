import MipsVM.Core
import MipsVM.Refill
import MipsVM.Tlb.Generator
import MipsVM.Frame.Allocator
import MipsVM.Space.Directory

/-!
# The whole machine

Physical memory with its allocator, one core, the interrupt guards that are held on it, and the
address spaces by name.

## Main definitions

- `Machine`: the state of everything
- `MachineError`: why a request to the machine is refused
- `Machine.onMemory`, `Machine.onCore`, `Machine.onSpace`: routines on one part
- `Machine.takeGuard`, `Machine.dropGuard`: interrupt guards that outlive a request
- `Machine.enroll`: give a name to a new address space
-/

namespace MipsVM

/-- The state of everything. -/
structure Machine where
  memory : Memory
  core : Core
  /-- For each interrupt guard that is held, whether it found interrupts on. -/
  guards : List Bool
  spaces : Directory

/-- Why a request to the machine is refused. -/
inductive MachineError
  /-- No address space has the name. -/
  | noSpace
  /-- There is no frame table yet. -/
  | noTable
  | frame (cause : FrameError)
  | space (cause : SpaceError)
  | copy (cause : CopyError)
  | fault (cause : FaultError)
  deriving DecidableEq

namespace Machine

variable {ε α : Type}

/-- A machine with `pages` frames of memory from `base` on, of which the allocator hands out those
in `range`, or all of them. -/
def new (base : PhysicalAddress) (pages : Nat) (range : Option PhysicalRange) (slots : Nat)
    (seed : UInt64) : Except Panic Machine := do
  let ram ← Ram.new base pages
  let core ← Core.new slots (.ofSeed seed)
  pure ⟨.new ram (range.getD ram.range), core, [], .empty⟩

/-- Run a routine on the memory. -/
def onMemory (wrap : ε → MachineError) (r : Routine Memory ε α) : Routine Machine MachineError α :=
  (Routine.within Machine.memory (fun memory s => { s with memory := memory }) r).mapError wrap

/-- Run a routine on the core. -/
def onCore (wrap : ε → MachineError) (r : Routine Core ε α) : Routine Machine MachineError α :=
  (Routine.within Machine.core (fun core s => { s with core := core }) r).mapError wrap

/-- The space of a name. -/
def getSpace (name : Nat) : Routine Machine MachineError AddressSpace := fun s =>
  match s.spaces.get? name with
  | some space => .done space s []
  | none => .error .noSpace s []

/-- Change what a name stands for. -/
def putSpace (name : Nat) (space : AddressSpace) : Routine Machine MachineError Unit :=
  Routine.modify fun s => { s with spaces := s.spaces.insert name space }

/-- Give a name to a new space. A space that had the name is lost. -/
def enroll (name : Nat) (space : AddressSpace) : Routine Machine MachineError Unit := fun s =>
  .done () { s with spaces := s.spaces.insert name space }
    (match s.spaces.get? name with
    | some old => old.leak
    | none => [])

/-- Take a name away from its space. -/
def removeSpace (name : Nat) : Routine Machine MachineError AddressSpace := fun s =>
  match s.spaces.get? name with
  | some space => .done space { s with spaces := s.spaces.erase name } []
  | none => .error .noSpace s []

/-- Run a routine on the descriptor of a space. -/
def onSpace (name : Nat) (r : Routine AddressSpace SpaceError α) : Routine Machine MachineError α :=
  fun s =>
    match s.spaces.get? name with
    | none => .error .noSpace s []
    | some space =>
      Routine.mapError .space
        (Routine.within (fun _ => space)
          (fun left s => { s with spaces := s.spaces.insert name left }) r) s

/-- Turn interrupts off and remember how they were found. -/
def takeGuard : Routine Machine MachineError Bool := do
  let wereEnabled ← onCore id Core.disableInterrupts
  Routine.modify fun s => { s with guards := s.guards ++ [wereEnabled] }
  pure wereEnabled

/-- Drop a guard that is held; the answer is whether interrupts are on then. -/
def dropGuard (index : Nat) : Routine Machine MachineError Bool := fun s =>
  match s.guards[index]? with
  | none => .panic (.removalOutOfBounds s.guards.length index) s []
  | some wereEnabled =>
    (onCore id (Core.restoreInterrupts wereEnabled) >>= fun _ =>
      Routine.gets fun s => s.core.interruptsEnabled) { s with guards := s.guards.eraseIdx index }

end Machine

end MipsVM
