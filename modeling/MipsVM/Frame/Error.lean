import MipsVM.Address
import MipsVM.Errno

/-!
# Why a frame is not handed out or taken back

## Main definitions

- `FrameError`: the causes, with `FrameError.message` and `FrameError.errno`
-/

namespace MipsVM

/-- Why a request for frames, or the return of a run, is refused. -/
inductive FrameError
  /-- A request for no frames. -/
  | noFrames
  /-- No run of the requested number of frames is free. -/
  | noRun (requested : Nat)
  /-- The frame is inside an allocated run and not its first. -/
  | insideRun (frame position : Nat)
  /-- The frame is free. -/
  | alreadyFree (frame : Nat)
  /-- The address belongs to no managed frame. -/
  | unmanaged (address : PhysicalAddress)
  /-- Not one frame would be left beside the table. -/
  | nothingToManage
  deriving DecidableEq

namespace FrameError

/-- The text of the refusal. -/
def message : FrameError → String
  | .noFrames => "frame count must be at least one"
  | .noRun requested => s!"out of memory: no run of {requested} free frames"
  | .insideRun frame position =>
    s!"frame {frame} is at position {position} of its run, not its start"
  | .alreadyFree frame => s!"frame {frame} is not allocated"
  | .unmanaged address => s!"address {address.text} is outside the managed frame range"
  | .nothingToManage => "no usable memory left for the frame table"

/-- What user space is told. -/
def errno : FrameError → Errno
  | .noRun _ | .nothingToManage => .outOfMemory
  | .noFrames => .invalidArgument
  | .insideRun _ _ | .alreadyFree _ | .unmanaged _ => .badReference

end FrameError

end MipsVM
