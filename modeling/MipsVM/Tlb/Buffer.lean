import MipsVM.Tlb.Entry
import MipsVM.Tlb.RandomSource

/-!
# The translation buffer

The buffer has a fixed number of slots, each with one entry. A page is looked up by its tag in the
first slot that carries it, whether that slot is in use or not.

## Main definitions

- `TlbBuffer`: the slots, and the source for the random choice of one
- `TlbBuffer.probe`: the first slot with a given tag
- `TlbBuffer.translate`: what an access to an address finds
- `TlbBuffer.firstUnused?`: the first slot that is not in use
-/

namespace MipsVM

/-- A translation buffer. -/
structure TlbBuffer where
  slots : Array TlbEntry
  source : RandomSource

namespace TlbBuffer

/-- The entries of the slots from `slot` on in a buffer of unused slots. -/
def unusedFrom (slot : Nat) : (count : Nat) → Except Panic (List TlbEntry)
  | 0 => .ok []
  | count + 1 => do
    let entry ← TlbEntry.unused slot
    let rest ← unusedFrom (slot + 1) count
    pure (entry :: rest)

/-- A buffer of unused slots. -/
def new (slots : Nat) (source : RandomSource) : Except Panic TlbBuffer := do
  let entries ← unusedFrom 0 slots
  pure ⟨entries.toArray, source⟩

/-- The entry in a slot. -/
def read (b : TlbBuffer) (slot : Nat) : Except Panic TlbEntry :=
  match b.slots[slot]? with
  | some entry => .ok entry
  | none => .error (.indexOutOfBounds b.slots.size slot)

/-- The first slot whose tag is a given page. -/
def probe (b : TlbBuffer) (page : VirtualPage) : Option Nat :=
  b.slots.findIdx? fun entry => entry.hi.page = page

/-- The first entry whose tag is a given page. -/
def entryOf? (b : TlbBuffer) (page : VirtualPage) : Option TlbEntry :=
  b.slots.find? fun entry => entry.hi.page = page

/-- The physical address that an access to an address finds. -/
def translate (b : TlbBuffer) (a : VirtualAddress) : Option PhysicalAddress :=
  match b.entryOf? a.page with
  | some entry => if entry.isValid then some (entry.lo.frame.join a.offset) else none
  | none => none

/-- The first slot that is not in use. -/
def firstUnused? (b : TlbBuffer) : Option Nat :=
  b.slots.findIdx? fun entry => !entry.isValid

/-- The entries in use, in the order of their slots. -/
def valid (b : TlbBuffer) : List TlbEntry :=
  b.slots.toList.filter TlbEntry.isValid

end TlbBuffer

end MipsVM
