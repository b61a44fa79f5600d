import MipsVM.Layout
import MipsVM.Address.Rounding

/-!
# Where the frame table goes

The slots of the table lie at the bottom of the memory that the table manages, and the managed
frames follow from the next page on. The number of slots is at first overestimated, as if the table
took no room, and the managed frames begin where a table of that size would end.

## Main definitions

- `TablePlacement`: the place of the slots and the managed frames
- `TablePlacement.ofRange?`: the placement in a range of memory, if one frame is left to manage
-/

namespace MipsVM

/-- The place of a frame table and of the frames that it manages. -/
structure TablePlacement where
  /-- The address of the first slot. -/
  slotsAt : PhysicalAddress
  /-- The address of the first managed frame. -/
  managed : PhysicalAddress
  /-- The end of the last managed frame. -/
  last : PhysicalAddress
  deriving DecidableEq

namespace TablePlacement

/-- The number of managed frames. -/
def total (p : TablePlacement) : Nat :=
  (p.last.toNat - p.managed.toNat) / pageSize

/-- The number of bytes of the slots. -/
def slotBytes (p : TablePlacement) : Nat :=
  p.total * 4

/-- The placement of the table for a range of memory, if it leaves at least one frame. -/
def ofRange? (r : PhysicalRange) : Option TablePlacement := do
  let last := roundDown r.last.toNat pageSize
  let table ← roundUp? r.first.toNat 4
  guard (table < last)
  -- four bytes for each page, those of the table included
  let estimate ← word? ((last - table) / pageSize * 4)
  let stop ← word? (table + estimate)
  let managed ← roundUp? stop pageSize
  guard (managed < last)
  pure ⟨.ofNat table, .ofNat managed, .ofNat last⟩

end TablePlacement

end MipsVM
