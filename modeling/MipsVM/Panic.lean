import MipsVM.Address

/-!
# Panics

A panic ends the operation that meets it. It is not an answer to the caller but the sign of an
earlier mistake: arithmetic that leaves its word, an index outside its table, an access outside
memory, a broken invariant.

## Main definitions

- `Panic`: the causes, with `Panic.message`
- `Failure`: an operation ends with an error for its caller or with a panic
-/

namespace MipsVM

/-- Why an operation cannot go on. -/
inductive Panic
  /-- A sum leaves the range of its word. -/
  | addOverflow
  /-- A difference falls below zero. -/
  | subtractOverflow
  /-- A product leaves the range of its word. -/
  | multiplyOverflow
  /-- An index is not below the length of its table. -/
  | indexOutOfBounds (length index : Nat)
  /-- A range ends beyond the length of its table. -/
  | rangeEndOutOfBounds (stop length : Nat)
  /-- A removal names an element that a list does not have. -/
  | removalOutOfBounds (length index : Nat)
  /-- A bit field is given a value above its greatest. -/
  | fieldOverflow (greatest : Nat)
  /-- A random choice is asked of no candidates. -/
  | emptyChoice
  /-- A page offset is not below the page size. -/
  | offsetBeyondPage
  /-- A physical address lies above the direct-mapped kernel window. -/
  | outsideKernelWindow
  /-- The memory does not start on a page. -/
  | ramUnaligned
  /-- The memory does not fit the 32-bit physical space. -/
  | ramTooLarge
  /-- An access lies below the memory. -/
  | belowRam (address : PhysicalAddress)
  /-- An access of `length` bytes ends beyond the memory. -/
  | beyondRam (address : PhysicalAddress) (length : Nat)
  /-- The slots of an allocated run contradict each other. -/
  | corruptRun (index : Nat)
  /-- A frame is copied onto itself. -/
  | copyOntoItself (frame : PhysicalPage)
  /-- Every translation is to be dropped on another core. -/
  | shootdownAll
  /-- One translation is to be dropped on another core. -/
  | shootdown (page : VirtualPage)
  /-- A segment is missing. -/
  | segmentUndefined (segment : Nat)
  /-- A segment starts at page 0. -/
  | segmentAtPageZero (segment : Nat)
  /-- A segment has no pages. -/
  | segmentEmpty (segment : Nat)
  /-- A segment of `pages` pages has `frames` frames. -/
  | segmentUnbacked (segment frames pages : Nat)
  /-- A stack of `pages` pages has `frames` frames. -/
  | stackUnbacked (frames pages : Nat)
  /-- The code run on behalf of a caller panics. -/
  | caller (text : String)
  deriving DecidableEq

/-- The text of a failed comparison: what was claimed, and the two values. -/
def comparisonText (relation claim left right : String) : String :=
  s!"assertion `left {relation} right` failed: {claim}\n  left: {left}\n right: {right}"

/-- The text of the panic. -/
def Panic.message : Panic → String
  | .addOverflow => "attempt to add with overflow"
  | .subtractOverflow => "attempt to subtract with overflow"
  | .multiplyOverflow => "attempt to multiply with overflow"
  | .indexOutOfBounds length index =>
    s!"index out of bounds: the len is {length} but the index is {index}"
  | .rangeEndOutOfBounds stop length =>
    s!"range end index {stop} out of range for slice of length {length}"
  | .removalOutOfBounds length index =>
    s!"removal index (is {index}) should be < len (is {length})"
  | .fieldOverflow greatest => s!"value out of bounds [0, {greatest}]"
  | .emptyChoice => "cannot sample empty range"
  | .offsetBeyondPage => "offset must be < page size"
  | .outsideKernelWindow => "physical address outside kseg0"
  | .ramUnaligned => "simulated RAM must start on a page"
  | .ramTooLarge => "simulated RAM exceeds the 32-bit physical space"
  | .belowRam address => s!"{address.tagged} below simulated RAM"
  | .beyondRam address length =>
    s!"{address.tagged}+0x{Text.hexLower length} beyond simulated RAM"
  | .corruptRun index => s!"vm: frame table run at {index} is corrupt"
  | .copyOntoItself frame =>
    comparisonText "!=" "copying a frame onto itself" frame.tagged frame.tagged
  | .shootdownAll => "vm: tried to do tlb shootdown?!"
  | .shootdown page => s!"vm: tried to do tlb shootdown of {page.tagged}?!"
  | .segmentUndefined segment => s!"vm: segment {segment} is not defined"
  | .segmentAtPageZero segment => s!"vm: segment {segment} is at page 0"
  | .segmentEmpty segment => s!"vm: segment {segment} is empty"
  | .segmentUnbacked segment frames pages =>
    comparisonText "==" s!"vm: segment {segment} has no backing frames" (toString frames)
      (toString pages)
  | .stackUnbacked frames pages =>
    comparisonText "==" "vm: stack has no backing frames" (toString frames) (toString pages)
  | .caller text => text

/-- How an operation ends without a value. -/
inductive Failure (ε : Type)
  /-- The caller is told, and can go on. -/
  | error (cause : ε)
  /-- The operation is abandoned. -/
  | panic (cause : Panic)

/-- The same failure with its error restated. -/
def Failure.map {ε ε' : Type} (f : ε → ε') : Failure ε → Failure ε'
  | .error e => .error (f e)
  | .panic p => .panic p

end MipsVM
