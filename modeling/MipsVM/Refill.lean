import MipsVM.Core
import MipsVM.Space

/-!
# Filling the translation buffer

When a user access finds no translation, the page is looked up in the current address space, and
its frame is entered into the first unused slot of the buffer, or into a random one if all are in
use. Once loading is complete the pages of the first segment are entered without the permission to
write.

## Main definitions

- `FaultKind`, `FaultError`: what the access was, and why no translation is entered
- `Refill`: the translation that was entered
- `Core.refill`: serve a missing translation
- `Core.switchTo`: make a space current

## Main statements

- `refill_readOnly`: a write to a page without permission is always refused
-/

namespace MipsVM

/-- What the access that found no translation was. -/
inductive FaultKind
  /-- A load. -/
  | read
  /-- A store. -/
  | write
  /-- A store to a page that was entered without permission to write. -/
  | readOnly
  deriving DecidableEq

/-- Why no translation is entered. -/
inductive FaultError
  /-- The fault code means nothing. -/
  | unknownCode (code : Nat)
  /-- There is no current address space. -/
  | noSpace
  /-- The address belongs to no region. -/
  | unmapped (address : VirtualAddress)
  /-- The page may not be written. -/
  | readOnly (address : VirtualAddress)
  deriving DecidableEq

namespace FaultKind

/-- The code of the kind. -/
def code : FaultKind → Nat
  | .read => 0
  | .write => 1
  | .readOnly => 2

/-- The kind of a code. -/
def ofCode : Nat → Except FaultError FaultKind
  | 0 => .ok .read
  | 1 => .ok .write
  | 2 => .ok .readOnly
  | code => .error (.unknownCode code)

@[simp] theorem ofCode_code (kind : FaultKind) : ofCode kind.code = .ok kind := by
  cases kind <;> rfl

end FaultKind

namespace FaultError

/-- The text of the refusal. -/
def message : FaultError → String
  | .unknownCode code => s!"unknown fault code {code}"
  | .noSpace => "no address space to fault into"
  | .unmapped address => s!"address {address.text} is outside every region"
  | .readOnly address => s!"write to read-only page at {address.text}"

/-- What user space is told. -/
def errno : FaultError → Errno
  | .unknownCode _ => .invalidArgument
  | .noSpace | .unmapped _ | .readOnly _ => .badReference

end FaultError

/-- The translation that was entered. -/
structure Refill where
  slot : Nat
  entry : TlbEntry
  region : Region
  deriving DecidableEq

/-- The entry for a page of a region of a space and its frame. -/
def AddressSpace.entryOf (s : AddressSpace) (region : Region) (page : VirtualPage)
    (frame : PhysicalPage) : TlbEntry :=
  let lo := EntryLo.ofFrame frame
  ⟨.ofPage page, if s.loaded ∧ region = .segment1 then { lo with dirty := false } else lo⟩

namespace Core

/-- Put an entry into the first unused slot, or into a random one. -/
def enter {ε : Type} (entry : TlbEntry) : Routine Core ε Nat := fun c =>
  match c.tlb.firstUnused? with
  | some slot => (write slot entry >>= fun _ => pure slot) c
  | none => writeAnywhere entry c

/-- Enter the translation of the page of an address in the current space. -/
def refill (kind : FaultKind) (a : VirtualAddress) (space : Option AddressSpace) :
    Routine Core FaultError Refill := do
  Routine.report (.faultRaised a.page.base)
  if kind = .readOnly then Routine.fail (.readOnly a)
  let space ← Routine.orFail .noSpace space
  Routine.orPanic space.assertBacked
  -- the page is in the region of its first byte, since regions consist of whole pages
  let region := space.regionOf a.page.base
  let frame ← Routine.orFail (.unmapped a) (space.frameOf? region a.page)
  let entry := space.entryOf region a.page frame
  guarded do
    let slot ← enter entry
    Routine.report (.faultServed a.page.base frame.base)
    pure ⟨slot, entry, region⟩

/-- Enter the translation of the page of an address, the kind of access being given by its code. -/
def refillByCode (code : Nat) (a : VirtualAddress) (space : Option AddressSpace) :
    Routine Core FaultError Refill := do
  let kind ← Routine.ofExcept (FaultKind.ofCode code)
  refill kind a space

/-- Make a space the current one: no translation of another space stays in the buffer. -/
def switchTo {ε : Type} (_space : AddressSpace) : Routine Core ε Unit :=
  flush

/-- A write to a page without permission is refused and changes nothing. -/
theorem refill_readOnly (a : VirtualAddress) (space : Option AddressSpace) (c : Core) :
    refill .readOnly a space c = .error (.readOnly a) c [.faultRaised a.page.base] := rfl

end Core

end MipsVM
