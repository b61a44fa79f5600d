import MipsVM.Address
import MipsVM.Errno

/-!
# Why an address space refuses

## Main definitions

- `CopyError`: bytes cannot be copied to user memory
- `SpaceError`: an operation on an address space is refused
-/

namespace MipsVM

/-- Why bytes are not copied to user memory. -/
inductive CopyError
  /-- No frame backs the address. -/
  | unmapped (address : VirtualAddress)
  /-- The string is longer than the caller allows. -/
  | stringTooLong
  deriving DecidableEq

namespace CopyError

/-- The text of the refusal. -/
def message : CopyError → String
  | .unmapped address => s!"bad user address {address.text}"
  | .stringTooLong => "string longer than the allowed length"

/-- What user space is told. -/
def errno : CopyError → Errno
  | .unmapped _ => .badReference
  | .stringTooLong => .stringTooLong

end CopyError

/-- Why an operation on an address space is refused. -/
inductive SpaceError
  /-- Frames ran out. -/
  | outOfMemory
  /-- Both segments are defined already. -/
  | tooManyRegions
  /-- The region is empty, or touches page 0, the stack or the other segment. -/
  | invalidRegion (address : VirtualAddress)
  /-- A segment is not defined yet. -/
  | missingRegion
  /-- Frames are allocated already. -/
  | alreadyBacked
  /-- No frames are allocated yet. -/
  | notBacked
  /-- The arguments do not fit on the stack. -/
  | argumentsTooLarge
  /-- Bytes cannot be copied to user memory. -/
  | copy (cause : CopyError)
  deriving DecidableEq

namespace SpaceError

/-- The text of the refusal. -/
def message : SpaceError → String
  | .outOfMemory => "out of memory"
  | .tooManyRegions => "too many regions"
  | .invalidRegion address => s!"invalid region at {address.text}"
  | .missingRegion => "both segments must be defined first"
  | .alreadyBacked => "backing frames are already allocated"
  | .notBacked => "backing frames are not allocated"
  | .argumentsTooLarge => "arguments do not fit on the user stack"
  | .copy cause => cause.message

/-- What user space is told. -/
def errno : SpaceError → Errno
  | .outOfMemory => .outOfMemory
  | .tooManyRegions => .unsupported
  | .invalidRegion _ | .missingRegion | .alreadyBacked | .notBacked => .invalidArgument
  | .argumentsTooLarge => .argumentListTooLong
  | .copy cause => cause.errno

end SpaceError

end MipsVM
