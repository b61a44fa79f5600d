import MipsVM.Address

/-!
# Memory layout

The fixed map of the 32-bit virtual address space: user memory below `0x80000000`, with a stack of
twelve pages at its top, and above it a window through which the kernel sees the low 512 MiB of
physical memory.

## Main definitions

- `userStackTop`, `userStackBase`, `stackBasePage`: the fixed user stack
- `kernelWindowBase`, `kernelWindowSize`: the direct-mapped kernel window
- `PhysicalRange`: the half-open range of physical memory reported at boot
-/

namespace MipsVM

/-- The size of a page and of a frame in bytes. -/
def pageSize : Nat := 4096

/-- The number of offset bits in an address. -/
def pageShift : Nat := 12

/-- The mask of the page-number bits of an address. -/
def pageMask : Nat := 0xFFFFF000

/-- The first address of the direct-mapped kernel window. -/
def kernelWindowBase : Nat := 0x80000000

/-- The size of the direct-mapped kernel window, 512 MiB. -/
def kernelWindowSize : Nat := 0x20000000

/-- One past the highest user address; the user stack grows down from here. -/
def userStackTop : Nat := 0x80000000

/-- The number of pages in the user stack. -/
def stackPages : Nat := 12

/-- The lowest address of the user stack. -/
def userStackBase : Nat := 0x7FFF4000

/-- The first page of the user stack. -/
def stackBasePage : VirtualPage := ⟨0x7FFF4, by decide⟩

/-- The number of slots in the hardware translation buffer. -/
def hardwareTlbSlots : Nat := 64

/-- The stack is exactly `stackPages` pages between its base and its top. -/
theorem userStackBase_add_size : userStackBase + stackPages * pageSize = userStackTop := by decide

theorem stackBasePage_base : stackBasePage.base.toNat = userStackBase := by decide

/-- The usable physical memory from `first` up to, and without, `last`. Neither bound need be
aligned, and an inverted range is empty. -/
structure PhysicalRange where
  first : PhysicalAddress
  last : PhysicalAddress
  deriving DecidableEq

namespace PhysicalRange

/-- The number of bytes in the range. -/
def length (r : PhysicalRange) : Nat :=
  r.last.toNat - r.first.toNat

/-- Whether the range holds no byte. -/
def isEmpty (r : PhysicalRange) : Bool :=
  r.length = 0

/-- Both bounds in their tagged form. -/
def tagged (r : PhysicalRange) : String :=
  s!"RamRange({r.first.tagged}..{r.last.tagged})"

end PhysicalRange

end MipsVM
