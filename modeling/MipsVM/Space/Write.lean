import MipsVM.Space
import MipsVM.Frame.Allocator

/-!
# Copying to user memory

Bytes are copied to a user address through the frames of the space that owns it, page by page. All
pages are looked up before the first byte is written.

## Main definitions

- `pieces`: a byte string cut at the page boundaries of its destination
- `AddressSpace.write`: copy a byte string
- `AddressSpace.writeString`: copy a byte string and a zero byte

## Main statements

- `flatMap_pieces`: the pieces joined are the byte string
-/

namespace MipsVM

/-- The bytes that are to be stored from an address on, cut at the page boundaries, each piece with
the address of its first byte. -/
def pieces (a : VirtualAddress) (bytes : List UInt8) : List (VirtualAddress × List UInt8) :=
  match bytes with
  | [] => []
  | b :: rest =>
    let room := a.offset.room
    (a, (b :: rest).take room) :: pieces (a.wrappingAdd room) ((b :: rest).drop room)
termination_by bytes.length
decreasing_by
  have := a.offset.room_pos
  simp only [List.length_drop, List.length_cons]
  omega

/-- The pieces joined are the byte string. -/
theorem flatMap_pieces (a : VirtualAddress) (bytes : List UInt8) :
    (pieces a bytes).flatMap Prod.snd = bytes := by
  fun_induction pieces a bytes with
  | case1 => rfl
  | case2 a b rest room ih =>
    rw [List.flatMap_cons, ih]
    exact List.take_append_drop _ _

namespace AddressSpace

/-- The physical address behind a user address, which must have one. -/
def resolve (s : AddressSpace) (a : VirtualAddress) : Except CopyError PhysicalAddress :=
  match s.translate a with
  | some pa => .ok pa
  | none => .error (.unmapped a)

/-- The physical address of each piece. -/
def resolvePieces (s : AddressSpace) :
    List (VirtualAddress × List UInt8) → Except CopyError (List (PhysicalAddress × List UInt8))
  | [] => .ok []
  | (a, bytes) :: rest => do
    let pa ← s.resolve a
    let resolved ← s.resolvePieces rest
    pure ((pa, bytes) :: resolved)

/-- Where the bytes of a string are to be stored in physical memory, if every page of the user
memory from an address on has a frame. -/
def placeBytes (s : AddressSpace) (a : VirtualAddress) (bytes : List UInt8) :
    Except CopyError (List (PhysicalAddress × List UInt8)) :=
  match a.add? (bytes.length - 1) with
  -- the string passes the end of the address space
  | none => .error (.unmapped a)
  | some last => do
    let resolved ← s.resolvePieces (pieces a bytes)
    let _ ← s.resolve last
    pure resolved

/-- Copy a byte string to a user address of a space. -/
def write (s : AddressSpace) (bytes : List UInt8) (a : VirtualAddress) :
    Routine Memory CopyError Unit :=
  if bytes = [] then pure ()
  else do
    let resolved ← Routine.ofExcept (s.placeBytes a bytes)
    Routine.forEach (fun (pa, piece) => Memory.access (·.write pa piece)) resolved

/-- Copy a byte string and a zero byte to a user address of a space, `greatest` bytes at most. The
answer is the number of bytes. -/
def writeString (s : AddressSpace) (bytes : List UInt8) (a : VirtualAddress) (greatest : Nat) :
    Routine Memory CopyError Nat :=
  let terminated := bytes ++ [0]
  if greatest < terminated.length then Routine.fail .stringTooLong
  else do
    s.write terminated a
    pure terminated.length

end AddressSpace

end MipsVM
