import MipsVM.Space.Write

/-!
# Arguments on the user stack

A new process finds its arguments at the top of its stack: the strings from the top down, each at a
multiple of eight, and below them the array of their addresses, which ends with a zero word. The
stack pointer is the address of the array.

## Main definitions

- `roomBelow?`: room on the stack below a stack pointer
- `wordBytes`: a 32-bit word in memory, low byte first
- `AddressSpace.layOutArguments`: lay out the arguments

## Main statements

- `roomBelow?_aligned`: what is placed lies inside the stack at a multiple of eight
-/

namespace MipsVM

/-- The stack pointer after `length` bytes and eight more were put below `sp`, moved up to a
multiple of eight, if it lies inside the stack. -/
def roomBelow? (sp : VirtualAddress) (length : Nat) : Option VirtualAddress := do
  let length ← word? length
  let sp ← sp.sub? length
  let sp ← sp.sub? 8
  let sp ← roundUp? sp.toNat 8
  guard (userStackBase ≤ sp)
  Address.ofNat? sp

/-- A 32-bit word in memory, low byte first. -/
def wordBytes (n : Nat) : List UInt8 :=
  [.ofNat n, .ofNat (n / 256), .ofNat (n / 65536), .ofNat (n / 16777216)]

namespace AddressSpace

/-- Room on the stack, which must suffice. -/
def reserve (sp : VirtualAddress) (length : Nat) : Routine Memory SpaceError VirtualAddress :=
  Routine.orFail .argumentsTooLarge (roomBelow? sp length)

/-- Place strings below a stack pointer, through the space `target`. The answer is the stack pointer
below them and their addresses. -/
def placeArguments (target : AddressSpace) (sp : VirtualAddress) :
    List (List UInt8) → Routine Memory SpaceError (VirtualAddress × List VirtualAddress)
  | [] => pure (sp, [])
  | argument :: rest => do
    let length := argument.length + 1
    let here ← reserve sp length
    let _ ← (target.writeString argument here length).mapError .copy
    let (sp, addresses) ← placeArguments target here rest
    pure (sp, here :: addresses)

/-- Lay out arguments at the top of the stack of a space that has frames. The bytes are written
through the space `target`. The answer is the stack pointer. -/
def layOutArguments (s target : AddressSpace) (arguments : List (List UInt8)) :
    Routine Memory SpaceError VirtualAddress :=
  if s.isBacked then do
    let (sp, addresses) ← placeArguments target (.ofNat userStackTop) arguments
    let table := (addresses.map Address.toNat ++ [0]).flatMap wordBytes
    let sp ← reserve sp table.length
    (target.write table sp).mapError .copy
    pure sp
  else Routine.fail .notBacked

end AddressSpace

/-- What is placed on the stack lies inside it at a multiple of eight, below the old pointer. -/
theorem roomBelow?_aligned {sp sp' : VirtualAddress} {length : Nat}
    (h : roomBelow? sp length = some sp') :
    userStackBase ≤ sp'.toNat ∧ sp'.toNat % 8 = 0 ∧ sp'.toNat + length < sp.toNat := by
  obtain ⟨n, hn, h⟩ := Option.bind_eq_some_iff.mp h
  obtain ⟨a, ha, h⟩ := Option.bind_eq_some_iff.mp h
  obtain ⟨b, hb, h⟩ := Option.bind_eq_some_iff.mp h
  obtain ⟨c, hc, h⟩ := Option.bind_eq_some_iff.mp h
  obtain ⟨_, hg, hsp⟩ := Option.bind_eq_some_iff.mp h
  have inside : userStackBase ≤ c :=
    Decidable.byContradiction fun hn => absurd (hg.symm.trans (if_neg hn)) (Option.some_ne_none _)
  have eight : roundUp? b.toNat 8 = if b.toNat + 7 < 0x100000000 then
      some ((b.toNat + 7) / 8 * 8) else none := roundUp?_two_pow (k := 3) (by decide)
  rw [eight] at hc
  simp only [word?_eq_some, Address.sub?, Address.ofNat?, Option.ite_none_right_eq_some,
    Option.dite_none_right_eq_some, Option.some.injEq] at hn ha hb hc hsp
  obtain ⟨rfl, -⟩ := hn
  obtain ⟨ha, rfl⟩ := ha
  obtain ⟨hb, rfl⟩ := hb
  obtain ⟨hlt, rfl⟩ := hsp
  simp only at ha hb hc ⊢
  omega

end MipsVM
