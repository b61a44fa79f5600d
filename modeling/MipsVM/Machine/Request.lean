import MipsVM.Address
import MipsVM.Layout
import MipsVM.Space.Protection
import MipsVM.Space
import MipsVM.Tlb.Entry

/-!
# What can be asked of a machine

## Main definitions

- `TableRequest`: to a frame table
- `EarlyRequest`: to the early memory
- `AllocatorRequest`, `RamRequest`, `InterruptRequest`, `TlbRequest`, `SpaceRequest`: to the parts
  of a machine
- `Request`: to a machine
-/

namespace MipsVM

/-- What can be asked of a frame table. -/
inductive TableRequest
  | alloc (count : Nat)
  /-- Take back the run that begins with the frame that contains an address. -/
  | free (a : PhysicalAddress)
  | total
  | firstFrame
  | range
  | position (index : Nat)
  | runLength (index : Nat)
  /-- The slots from a number up to, and without, another. -/
  | slots (first stop : Nat)
  | addressOf (index : Nat)
  | indexOf (a : PhysicalAddress)
  | allocated
  | describe

/-- What can be asked of the early memory. -/
inductive EarlyRequest
  | take (pages : Nat)
  | handOver

/-- What can be asked of the page allocator. -/
inductive AllocatorRequest
  | buildTable
  | readiness
  | alloc (count : Nat)
  /-- Take back the run that begins with the frame that contains an address. -/
  | free (a : PhysicalAddress)
  | allocKernel (count : Nat)
  | freeKernel (a : VirtualAddress)
  | describe

/-- What can be asked of physical memory. Frames are named by an address that they contain. -/
inductive RamRequest
  | range
  | base
  | read (a : PhysicalAddress) (length : Nat)
  | write (a : PhysicalAddress) (bytes : List UInt8)
  | digest (a : PhysicalAddress)
  | zero (a : PhysicalAddress)
  | copy (source target : PhysicalAddress)

/-- What can be asked of the interrupt flag. -/
inductive InterruptRequest
  | state
  | enable
  | disable
  /-- Hold a new guard. -/
  | hold
  /-- Drop a guard, given its place among those that are held. -/
  | release (index : Nat)

/-- What can be asked of the translation buffer. -/
inductive TlbRequest
  | read (slot : Nat)
  | write (slot : Nat) (entry : TlbEntry)
  | writeAnywhere (entry : TlbEntry)
  | probe (hi : EntryHi)
  | translate (a : VirtualAddress)
  | flush
  | valid
  | dump

/-- One of the two segments. -/
inductive SegmentName
  | first
  | second
  deriving DecidableEq

/-- What can be asked of the address space of a name. -/
inductive SpaceRequest
  | create
  /-- Give the frames back, and the name up. -/
  | release
  /-- Lose the space without giving its frames back. -/
  | abandon
  | addRegion (a : VirtualAddress) (size : Nat) (protection : Protection)
  | populate
  | finishLoading
  /-- Copy the space to another name. -/
  | forkTo (name : Nat)
  /-- Lay out arguments on the stack, writing through the space itself or another one. -/
  | layOutArguments (through : Option Nat) (arguments : List (List UInt8))
  | write (a : VirtualAddress) (bytes : List UInt8)
  | writeString (a : VirtualAddress) (bytes : List UInt8) (greatest : Nat)
  /-- Read physical memory from the translation of an address on. -/
  | peek (a : VirtualAddress) (length : Nat)
  | digest
  | look
  | regionOf (a : VirtualAddress)
  | translate (a : VirtualAddress)
  /-- The frame of the page that contains an address, looked up as a page of a region. -/
  | frameOf (region : Region) (a : VirtualAddress)
  | contains (segment : SegmentName) (a : VirtualAddress)
  | assertBacked
  | switchTo
  | leave

/-- What can be asked of a machine. -/
inductive Request
  | allocator (r : AllocatorRequest)
  | table (r : TableRequest)
  | ram (r : RamRequest)
  | interrupts (r : InterruptRequest)
  | tlb (r : TlbRequest)
  | space (name : Nat) (r : SpaceRequest)
  /-- Enter a missing translation of the space of a name, or of none. -/
  | fault (code : Nat) (a : VirtualAddress) (space : Option Nat)

end MipsVM
