import MipsVM.Address
import MipsVM.Space.Protection

/-!
# Segments

A segment is a stretch of pages of an address space. Once the space has frames, each page of
the segment has one.

## Main definitions

- `Segment`: the stretch, its protection and its frames
- `Segment.stop`: the address one past the last byte
- `Segment.contains`, `Segment.overlaps`: addresses and other stretches
- `Segment.frameOf?`: the frame of a page
-/

namespace MipsVM

/-- The pages `base`, …, `base + pageCount - 1` of an address space. -/
structure Segment where
  base : VirtualPage
  pageCount : Nat
  protection : Protection
  /-- The frames of the pages, in order, or none before the space has frames. -/
  frames : List PhysicalPage
  deriving DecidableEq

namespace Segment

/-- The same pages without frames. -/
def bare (s : Segment) : Segment :=
  { s with frames := [] }

/-- One past the address of the last byte. -/
def stop (s : Segment) : Nat :=
  s.base.base.toNat + s.pageCount * 4096

/-- Whether an address belongs to the segment. -/
def contains (s : Segment) (a : VirtualAddress) : Bool :=
  s.base.base.toNat ≤ a.toNat ∧ a.toNat < s.stop

/-- Whether the segment shares an address with the range from `first` up to `stop`. -/
def overlaps (s : Segment) (first stop : Nat) : Bool :=
  first < s.stop ∧ s.base.base.toNat < stop

/-- The frame of a page of the segment. -/
def frameOf? (s : Segment) (page : VirtualPage) : Option PhysicalPage := do
  let index ← page.distanceFrom s.base
  s.frames[index]?

/-- A segment contains exactly the addresses of its pages. -/
theorem contains_iff {s : Segment} {a : VirtualAddress} :
    s.contains a ↔ s.base.number ≤ a.page.number ∧ a.page.number < s.base.number + s.pageCount := by
  rw [contains, decide_eq_true_iff]
  simp only [stop, Page.base, Address.page]
  omega

end Segment

end MipsVM
