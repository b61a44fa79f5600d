/-!
# Error numbers

The numbers that the system-call layer hands to user space. Every error of the library names one.
-/

namespace MipsVM

/-- A reason for failure as user space sees it. -/
inductive Errno
  | notImplemented
  | unsupported
  | outOfMemory
  | badReference
  | stringTooLong
  | invalidArgument
  | argumentListTooLong
  deriving DecidableEq

/-- The number handed to user space. -/
def Errno.code : Errno → Nat
  | .notImplemented => 1
  | .unsupported => 2
  | .outOfMemory => 3
  | .badReference => 6
  | .stringTooLong => 7
  | .invalidArgument => 8
  | .argumentListTooLong => 14

end MipsVM
