import MipsVM.Console.Level
import MipsVM.Frame.Error

/-!
# What is worth a log line

Operations report what they notice as events, in the order in which it happens. An event is data;
its severity, its source and its text are functions of it.

## Main definitions

- `Event`: what an operation can notice
- `Event.level`, `Event.target`, `Event.message`: the parts of its log line
- `Event.line`: the log line
- `logLines`: the lines that a filter lets through
-/

namespace MipsVM

/-- What an operation notices on its way. -/
inductive Event
  /-- A frame table of `total` slots was built at `table` for the frames from `first` to `last`. -/
  | tableBuilt (table : PhysicalAddress) (total : Nat) (first last : PhysicalAddress)
  /-- A frame outside the table was to be freed. -/
  | freeOfUnmanaged (frame : PhysicalAddress)
  /-- A free frame was to be freed. -/
  | freeOfFree (frame : Nat)
  /-- A frame inside a run was to be freed. -/
  | freeInsideRun (frame position : Nat)
  /-- The positions of all slots after a run was freed. -/
  | runFreed (positions : List Nat)
  /-- Kernel pages outside the kernel window were to be freed. -/
  | kernelFreeOutside (address : VirtualAddress)
  /-- Kernel pages were to be freed by an address inside a page. -/
  | kernelFreeUnaligned (address : VirtualAddress)
  /-- A frame was to be freed before there was a table. -/
  | earlyFree (frame : PhysicalAddress)
  /-- A third region was to be defined. -/
  | tooManyRegions
  /-- A region was defined. -/
  | regionDefined (first : VirtualAddress) (stop : Nat) (pages : Nat)
  /-- Frames ran out after `got` of `wanted`. -/
  | outOfFrames (got wanted : Nat) (cause : FrameError)
  /-- A frame could not be given back. -/
  | releaseFailed (frame : PhysicalPage) (cause : FrameError)
  /-- An address space was lost while it owned frames. -/
  | framesLeaked (frames : Nat)
  /-- A page was missing from the translation buffer. -/
  | faultRaised (page : VirtualAddress)
  /-- A missing page was entered into the translation buffer. -/
  | faultServed (page : VirtualAddress) (frame : PhysicalAddress)
  deriving DecidableEq

namespace Event

open Console

/-- The severity of the event. -/
def level : Event → Level
  | .tableBuilt .. => .info
  | .freeOfUnmanaged _ | .freeOfFree _ | .freeInsideRun .. => .error
  | .runFreed _ => .trace
  | .kernelFreeOutside _ | .kernelFreeUnaligned _ | .earlyFree _ => .error
  | .tooManyRegions => .warn
  | .regionDefined .. | .outOfFrames .. => .debug
  | .releaseFailed .. | .framesLeaked _ => .error
  | .faultRaised _ | .faultServed .. => .debug

/-- The part of the kernel that reports the event. -/
def target : Event → String
  | .tableBuilt .. | .freeOfUnmanaged _ | .freeOfFree _ | .freeInsideRun .. | .runFreed _ =>
    "kernel_alloc::frame_table"
  | .kernelFreeOutside _ | .kernelFreeUnaligned _ | .earlyFree _ => "kernel_alloc::kpages"
  | .tooManyRegions | .regionDefined .. | .outOfFrames .. | .releaseFailed .. | .framesLeaked _ =>
    "kernel_vmem::address_space"
  | .faultRaised _ | .faultServed .. => "kernel_vmem::fault"

/-- The text of the event. -/
def message : Event → String
  | .tableBuilt table total first last =>
    s!"vm: frame table at {table.text}, {total} frames in {first.text}..{last.text}"
  | .freeOfUnmanaged frame => s!"vm: free of unmanaged frame {frame.text}"
  | .freeOfFree frame => s!"vm: free of free frame {frame}"
  | .freeInsideRun frame position => s!"vm: free of frame {frame} at position {position} of its run"
  | .runFreed positions =>
    let column := " ".intercalate (positions.map toString)
    s!"vm: coremap [{column}]"
  | .kernelFreeOutside address => s!"vm: free_kpages of {address.text} outside kseg0"
  | .kernelFreeUnaligned address => s!"vm: free_kpages of unaligned {address.text}"
  | .earlyFree frame => s!"vm: free of early frame {frame.text} before bootstrap"
  | .tooManyRegions => "vm: too many regions"
  | .regionDefined first stop pages =>
    s!"vm: region {first.text}..{Text.hexWord stop} ({pages} pages)"
  | .outOfFrames got wanted cause => s!"vm: out of frames after {got} of {wanted}: {cause.message}"
  | .releaseFailed frame cause => s!"vm: failed to release {frame.tagged}: {cause.message}"
  | .framesLeaked frames =>
    s!"vm: address space dropped without destroy, leaking {frames} frames"
  | .faultRaised page => s!"vm: fault: {page.text}"
  | .faultServed page frame => s!"vm: {page.text} -> {frame.text}"

/-- The log line of the event. -/
def line (e : Event) : String :=
  s!"[{e.level.name}] {e.target}: {e.message}"

end Event

/-- The lines of the events that a filter lets through, in order. -/
def logLines (filter : Console.LevelFilter) (events : List Event) : List String :=
  (events.filter fun e => filter.admits e.level).map Event.line

end MipsVM
