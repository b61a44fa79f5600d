import MipsVM.Frame.Table
import MipsVM.Ram

/-!
# A frame table in memory

The slots of the frame table are stored in the memory that it manages, four bytes each. An
operation on the table reads them, and writes back what it left.

## Main definitions

- `ResidentTable`: the part of a table that is not its slots, and where these are
- `ResidentTable.load`: the table as its slots in memory say
- `ResidentTable.store`: the memory after the slots of a table were written
-/

namespace MipsVM

/-- A frame table whose slots lie in memory. -/
structure ResidentTable where
  first : PhysicalPage
  /-- The address of the first slot. -/
  slotsAt : PhysicalAddress
  /-- The number of slots. -/
  total : Nat
  freeCount : Nat

namespace ResidentTable

/-- The slot of a number. -/
def slotAt (t : ResidentTable) (ram : Ram) (index : Nat) : Slot :=
  let a := t.slotsAt.toNat + 4 * index
  .decode (ram.byteAt a) (ram.byteAt (a + 1)) (ram.byteAt (a + 2)) (ram.byteAt (a + 3))

/-- The table as its slots in memory say. -/
def load (t : ResidentTable) (ram : Ram) : FrameTable :=
  ⟨t.first, (List.range t.total).map (t.slotAt ram), t.freeCount⟩

/-- The memory after the slots were written. -/
def store (t : ResidentTable) (ram : Ram) (slots : List Slot) : Ram :=
  ram.setBytes t.slotsAt.toNat (slots.flatMap Slot.encode)

@[simp] theorem total_load (t : ResidentTable) (ram : Ram) : (t.load ram).total = t.total := by
  simp [load, FrameTable.total]

end ResidentTable

end MipsVM
