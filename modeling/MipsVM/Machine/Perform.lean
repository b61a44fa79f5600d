import MipsVM.Machine.Reply
import MipsVM.Machine.Request
import MipsVM.Ram.Digest
import MipsVM.Space.Arguments
import MipsVM.Space.Backing

/-!
# Serving requests

Each request is one routine on the part of the machine that it concerns. A run serves requests one
after the other; one that is refused or panics does not end the run.

## Main definitions

- `TableRequest.perform`, `EarlyRequest.perform`, `AllocatorRequest.perform`, `RamRequest.perform`,
  `InterruptRequest.perform`, `TlbRequest.perform`, `SpaceRequest.perform`, `Request.perform`
- `serve`, `stateAfter`: serve requests one after the other
-/

namespace MipsVM

open Routine

variable {ε : Type}

/-- Serve a request to a frame table. -/
def TableRequest.perform : TableRequest → Routine FrameTable FrameError Reply
  | .alloc count => do
    let frame ← FrameTable.alloc count
    pure (.frame frame)
  | .free a => do
    let length ← FrameTable.free a.page
    pure (.count length)
  | .total => gets fun t => .count t.total
  | .firstFrame => gets fun t => .frame t.first
  | .range => fun t => (orPanic (Reply.range <$> t.range)) t
  | .position index => fun t => (orPanic ((fun s => .count s.position) <$> t.slot index)) t
  | .runLength index => fun t => (orPanic ((fun s => .count s.runLength) <$> t.slot index)) t
  | .slots first stop => fun t => (orPanic (Reply.slots <$> t.slotsFrom first (stop - first))) t
  | .addressOf index => gets fun t => .physicalAddress (t.addressOf? index)
  | .indexOf a => gets fun t => .index (t.indexOf? a)
  | .allocated => gets fun t => .numberedSlots t.allocated
  | .describe => gets fun t => .text t.describe

/-- Serve a request to the early memory. -/
def EarlyRequest.perform : EarlyRequest → Routine EarlyMemory FrameError Reply
  | .take pages => do
    let page ← EarlyMemory.take pages
    pure (.frame page)
  | .handOver => do
    let rest ← EarlyMemory.handOver
    pure (.range rest)

/-- Serve a request to the page allocator. -/
def AllocatorRequest.perform : AllocatorRequest → Routine Memory FrameError Reply
  | .buildTable => do
    Memory.buildTable
    pure .done
  | .readiness => gets fun m => .readiness m.allocator.hasTable m.allocator.total
  | .alloc count => do
    let frame ← Memory.alloc count
    pure (.frame frame)
  | .free a => do
    Memory.free a.page
    pure .done
  | .allocKernel count => do
    let a ← Memory.allocKernel count
    pure (.virtualAddress a)
  | .freeKernel a => do
    Memory.freeKernel a
    pure .done
  | .describe => gets fun m => .text m.allocator.describe

/-- Serve a request to physical memory. -/
def RamRequest.perform : RamRequest → Routine Memory ε Reply
  | .range => gets fun m => .range m.ram.range
  | .base => gets fun m => .physicalAddress m.ram.base
  | .read a length => do
    let bytes ← Memory.inspect (·.read a length)
    pure (.bytes bytes)
  | .write a bytes => do
    Memory.access (·.write a bytes)
    pure .done
  | .digest a => do
    let digest ← Memory.inspect (·.digest [a.page] Digest.start)
    pure (.digest digest)
  | .zero a => do
    Memory.access (·.blankFrame a.page)
    pure .done
  | .copy source target => do
    Memory.access (·.duplicateFrame target.page source.page)
    pure .done

/-- Serve a request to the interrupt flag. -/
def InterruptRequest.perform : InterruptRequest → Routine Machine MachineError Reply
  | .state => gets fun s => .interrupts s.core.interruptsEnabled s.core.unguardedWrites
  | .enable => do
    Machine.onCore id Core.enableInterrupts
    pure .done
  | .disable => do
    let before ← Machine.onCore id Core.disableInterrupts
    pure (.flag before)
  | .hold => do
    let before ← Machine.takeGuard
    pure (.flag before)
  | .release index => do
    let after ← Machine.dropGuard index
    pure (.flag after)

/-- Serve a request to the translation buffer. -/
def TlbRequest.perform : TlbRequest → Routine Core ε Reply
  | .read slot => fun c => (orPanic (Reply.entry <$> c.tlb.read slot)) c
  | .write slot entry => do
    Core.write slot entry
    pure .done
  | .writeAnywhere entry => do
    let slot ← Core.writeAnywhere entry
    pure (.count slot)
  | .probe hi => gets fun c => .index (c.tlb.probe hi.page)
  | .translate a => gets fun c => .physicalAddress (c.tlb.translate a)
  | .flush => do
    Core.flush
    pure .done
  | .valid => gets fun c => .texts (c.tlb.valid.map TlbEntry.describe)
  | .dump => gets fun c => .entries c.tlb.slots.toList

/-- Serve a request to the space of a name. -/
def SpaceRequest.perform (name : Nat) : SpaceRequest → Routine Machine MachineError Reply
  | .create => do
    Machine.enroll name .empty
    pure .done
  | .release => do
    let space ← Machine.removeSpace name
    Machine.onMemory id space.release
    pure .done
  | .abandon => do
    let space ← Machine.removeSpace name
    forEach report space.leak
    pure .done
  | .addRegion a size protection => do
    Machine.onSpace name (AddressSpace.addRegion a size protection)
    pure .done
  | .populate => do
    let space ← Machine.getSpace name
    let backed ← Machine.onMemory .space space.populate
    Machine.putSpace name backed
    pure .done
  | .finishLoading => do
    let space ← Machine.getSpace name
    Machine.putSpace name space.finishLoading
    pure .done
  | .forkTo child => do
    let space ← Machine.getSpace name
    let forked ← Machine.onMemory .space space.fork
    Machine.enroll child forked
    pure .done
  | .layOutArguments through arguments => do
    let space ← Machine.getSpace name
    let target ← Machine.getSpace (through.getD name)
    let sp ← Machine.onMemory .space (space.layOutArguments target arguments)
    pure (.virtualAddress sp)
  | .write a bytes => do
    let space ← Machine.getSpace name
    Machine.onMemory .copy (space.write bytes a)
    pure .done
  | .writeString a bytes greatest => do
    let space ← Machine.getSpace name
    let length ← Machine.onMemory .copy (space.writeString bytes a greatest)
    pure (.count length)
  | .peek a length => do
    let space ← Machine.getSpace name
    match space.translate a with
    | none => pure (.bytes none)
    | some pa =>
      let bytes ← Machine.onMemory id (Memory.inspect (·.read pa length))
      pure (.bytes bytes)
  | .digest => do
    let space ← Machine.getSpace name
    let digest ←
      Machine.onMemory id (Memory.inspect (·.digest space.frames Digest.start))
    pure (.digest digest)
  | .look => Reply.space <$> Machine.getSpace name
  | .regionOf a => (fun space => .region (space.regionOf a)) <$> Machine.getSpace name
  | .translate a => (fun space => .physicalAddress (space.translate a)) <$> Machine.getSpace name
  | .frameOf region a =>
    (fun space => .frame (space.frameOf? region a.page)) <$> Machine.getSpace name
  | .contains .first a =>
    (fun space => .membership (space.segment1.map (·.contains a))) <$> Machine.getSpace name
  | .contains .second a =>
    (fun space => .membership (space.segment2.map (·.contains a))) <$> Machine.getSpace name
  | .assertBacked => do
    let space ← Machine.getSpace name
    orPanic space.assertBacked
    pure .done
  | .switchTo => do
    let space ← Machine.getSpace name
    Machine.onCore id (Core.switchTo space)
    pure .done
  | .leave => do
    let _ ← Machine.getSpace name
    pure .done

/-- Serve a request to a machine. -/
def Request.perform : Request → Routine Machine MachineError Reply
  | .allocator r => Machine.onMemory .frame r.perform
  | .table r => fun s =>
    match s.memory.allocator.table with
    | none => .error .noTable s []
    | some t => Machine.onMemory .frame (Memory.onTable t r.perform) s
  | .ram r => Machine.onMemory id r.perform
  | .interrupts r => r.perform
  | .tlb r => Machine.onCore id r.perform
  | .space name r => r.perform name
  | .fault code a none => Reply.refilled <$> Machine.onCore .fault (Core.refillByCode code a none)
  | .fault code a (some name) => do
    let space ← Machine.getSpace name
    let refilled ← Machine.onCore .fault (Core.refillByCode code a (some space))
    pure (.refilled refilled)

/-- Serve requests one after the other, whatever they end with. The endings are those of the
requests, in order. -/
def serve {σ ρ α : Type} (perform : ρ → Routine σ ε α) : List ρ → σ → List (Ending σ ε α)
  | [], _ => []
  | request :: rest, s =>
    let ending := perform request s
    ending :: serve perform rest ending.state

/-- The state after requests were served. -/
def stateAfter {σ ρ α : Type} (perform : ρ → Routine σ ε α) : List ρ → σ → σ
  | [], s => s
  | request :: rest, s => stateAfter perform rest (perform request s).state

end MipsVM
