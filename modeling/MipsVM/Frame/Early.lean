import MipsVM.Routine
import MipsVM.Layout
import MipsVM.Address.Rounding

/-!
# Early memory

Before there is a frame table, pages are taken off the bottom of the usable memory and never given
back. The rest is handed over to the table once, and from then on nothing more is taken.

## Main definitions

- `EarlyMemory`: what is left, and whether it was handed over
- `EarlyMemory.take`: take pages off the bottom
- `EarlyMemory.handOver`: hand over the rest
-/

namespace MipsVM

/-- The memory from which pages are taken before there is a frame table. -/
structure EarlyMemory where
  /-- Nothing from this address on has been taken. -/
  next : PhysicalAddress
  last : PhysicalAddress
  handedOver : Bool
  deriving DecidableEq

namespace EarlyMemory

/-- All of a range is left. -/
def ofRange (r : PhysicalRange) : EarlyMemory :=
  ⟨r.first, r.last, false⟩

/-- What is left. -/
def rest (m : EarlyMemory) : PhysicalRange :=
  ⟨m.next, m.last⟩

/-- The page that begins at or above the first remaining address, and the end of `pages` pages from
there, if they end within the memory. Each step is one of 32-bit arithmetic. -/
def fit? (m : EarlyMemory) (pages : Nat) : Option (PhysicalPage × PhysicalAddress) := do
  let start ← roundUp? m.next.toNat pageSize
  let pages ← word? pages
  let bytes ← word? (pages * pageSize)
  let stop ← Address.ofNat? (start + bytes)
  guard (stop ≤ m.last)
  pure ((Address.ofNat start).page, stop)

/-- Take `pages` pages off the bottom. -/
def take (pages : Nat) : Routine EarlyMemory FrameError PhysicalPage := fun m =>
  if m.handedOver then .error .nothingToManage m []
  else if pages = 0 then .error .noFrames m []
  else
    match m.fit? pages with
    | some (page, stop) => .done page { m with next := stop } []
    | none => .error (.noRun pages) m []

/-- Hand over what is left. -/
def handOver {ε : Type} : Routine EarlyMemory ε PhysicalRange := fun m =>
  .done m.rest { m with next := m.last, handedOver := true } []

end EarlyMemory

end MipsVM
