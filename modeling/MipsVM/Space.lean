import MipsVM.Routine
import MipsVM.Layout
import MipsVM.Address.Rounding
import MipsVM.Space.Error
import MipsVM.Space.Segment

/-!
# Address spaces

The user memory of a process: two segments, defined one after the other, and a stack at a fixed
place below `0x80000000`.

## Main definitions

- `AddressSpace`: the two segments, the frames of the stack, and whether loading is complete
- `AddressSpace.regionOf`, `AddressSpace.frameOf?`, `AddressSpace.translate`: from an address to
  the byte of physical memory behind it
- `AddressSpace.addRegion`: add a segment
- `AddressSpace.assertBacked`: panic unless every page has a frame

## Main statements

- `translate_eq_none_of_unmapped`: an address outside all regions is not translated
-/

namespace MipsVM

/-- The part of an address space to which an address belongs. -/
inductive Region
  | segment1
  | segment2
  | stack
  | unmapped
  deriving DecidableEq

/-- The user memory of a process. -/
structure AddressSpace where
  segment1 : Option Segment
  segment2 : Option Segment
  /-- The frames of the stack, lowest page first, or none before the space has frames. -/
  stack : List PhysicalPage
  loaded : Bool
  deriving DecidableEq

namespace AddressSpace

/-- An address space without regions. -/
def empty : AddressSpace :=
  ⟨none, none, [], false⟩

/-- The defined segments. -/
def segments (s : AddressSpace) : List Segment :=
  s.segment1.toList ++ s.segment2.toList

/-- All frames of the space: those of the first segment, the second and the stack. -/
def frames (s : AddressSpace) : List PhysicalPage :=
  s.segments.flatMap Segment.frames ++ s.stack

/-- The number of frames of the space. -/
def frameCount (s : AddressSpace) : Nat :=
  s.frames.length

/-- Whether the pages have frames. -/
def isBacked (s : AddressSpace) : Bool :=
  !s.stack.isEmpty

/-- Mark the end of program loading. -/
def finishLoading (s : AddressSpace) : AddressSpace :=
  { s with loaded := true }

/-- What is noticed when the space is lost without its frames being released. -/
def leak (s : AddressSpace) : List Event :=
  if s.frameCount = 0 then [] else [.framesLeaked s.frameCount]

/-- Whether an address belongs to the stack. -/
def isStack (a : VirtualAddress) : Bool :=
  userStackBase ≤ a.toNat ∧ a.toNat < userStackTop

/-- The region to which an address belongs. -/
def regionOf (s : AddressSpace) (a : VirtualAddress) : Region :=
  if s.segment1.any (·.contains a) then .segment1
  else if s.segment2.any (·.contains a) then .segment2
  else if isStack a then .stack
  else .unmapped

/-- The frame of a page of a region. -/
def frameOf? (s : AddressSpace) (region : Region) (page : VirtualPage) : Option PhysicalPage :=
  match region with
  | .segment1 => s.segment1.bind (·.frameOf? page)
  | .segment2 => s.segment2.bind (·.frameOf? page)
  | .stack => (page.distanceFrom stackBasePage).bind fun index => s.stack[index]?
  | .unmapped => none

/-- The physical address behind a user address. -/
def translate (s : AddressSpace) (a : VirtualAddress) : Option PhysicalAddress :=
  (s.frameOf? (s.regionOf a) a.page).map (·.join a.offset)

/-- The first page and the end of the region of `size` bytes from an address on, rounded to whole
pages, if it is one that can be defined beside the segments of the space. -/
def legalRegion? (s : AddressSpace) (a : VirtualAddress) (size : Nat) :
    Option (VirtualPage × Nat) := do
  guard (size ≠ 0)
  let stop ← word? (a.toNat + size)
  let stop ← roundUp? stop pageSize
  guard (a.page.number ≠ 0 ∧ stop ≤ userStackBase)
  guard (s.segments.all fun segment => !segment.overlaps a.page.base.toNat stop)
  pure (a.page, stop)

/-- Define the region of `size` bytes from an address on. The first region is segment 1 and the
second is segment 2. -/
def addRegion (a : VirtualAddress) (size : Nat) (protection : Protection) :
    Routine AddressSpace SpaceError Unit := fun s =>
  if s.segment1.isSome ∧ s.segment2.isSome then .error .tooManyRegions s [.tooManyRegions]
  else if s.isBacked then .error .alreadyBacked s []
  else
    match s.legalRegion? a size with
    | none => .error (.invalidRegion a) s []
    | some (base, stop) =>
      let segment : Segment := ⟨base, (stop - base.base.toNat) / pageSize, protection, []⟩
      let event : Event := .regionDefined base.base stop segment.pageCount
      if s.segment1.isNone then .done () { s with segment1 := some segment } [event]
      else .done () { s with segment2 := some segment } [event]

/-- Panic unless a segment is defined and each of its pages has a frame. -/
def assertSegmentBacked (number : Nat) : Option Segment → Except Panic Unit
  | none => .error (.segmentUndefined number)
  | some segment =>
    if segment.base.number = 0 then .error (.segmentAtPageZero number)
    else if segment.pageCount = 0 then .error (.segmentEmpty number)
    else if segment.frames.length ≠ segment.pageCount then
      .error (.segmentUnbacked number segment.frames.length segment.pageCount)
    else .ok ()

/-- Panic unless both segments and the stack have a frame for each page. -/
def assertBacked (s : AddressSpace) : Except Panic Unit := do
  assertSegmentBacked 1 s.segment1
  assertSegmentBacked 2 s.segment2
  if s.stack.length = stackPages then pure ()
  else .error (.stackUnbacked s.stack.length stackPages)

/-- An address outside all regions is not translated. -/
theorem translate_eq_none_of_unmapped {s : AddressSpace} {a : VirtualAddress}
    (h : s.regionOf a = .unmapped) : s.translate a = none := by
  rw [translate, h]
  rfl

end AddressSpace

end MipsVM
