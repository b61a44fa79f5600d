import MipsVM.Machine

/-!
# What a machine answers

## Main definitions

- `Reply`: the values that requests are answered with
- `Answer`: a reply, or a refusal, or a panic
-/

namespace MipsVM

/-- The value with which a request is answered. -/
inductive Reply
  /-- It was done. -/
  | done
  | flag (b : Bool)
  | count (n : Nat)
  /-- The number of a slot or of a managed frame. -/
  | index (n : Option Nat)
  | virtualAddress (a : VirtualAddress)
  | physicalAddress (a : Option PhysicalAddress)
  | frame (f : Option PhysicalPage)
  | range (r : PhysicalRange)
  | bytes (b : Option (List UInt8))
  | digest (d : UInt64)
  | text (t : String)
  | texts (t : List String)
  /-- Slots of the frame table. -/
  | slots (s : List Slot)
  /-- Slots of the frame table with their numbers. -/
  | numberedSlots (s : List (Nat × Slot))
  /-- Whether the frame table serves requests, and the number of its frames. -/
  | readiness (ready : Bool) (total : Nat)
  /-- The interrupt flag, and the changes of the translation buffer made while it was set. -/
  | interrupts (enabled : Bool) (unguarded : Nat)
  | entry (e : TlbEntry)
  | entries (e : List TlbEntry)
  | space (s : AddressSpace)
  | region (r : Region)
  /-- Whether a segment contains an address, if the segment is defined. -/
  | membership (b : Option Bool)
  | refilled (i : Refill)

/-- How a request ended. -/
abbrev Answer (ε : Type) : Type :=
  Except (Failure ε) Reply

end MipsVM
