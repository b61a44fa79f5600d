import MipsVM.Proofs.Machine.System
import MipsVM.Proofs.Space.ArgumentLayout

/-!
# User memory as it is written by requests

A byte string is copied to the user memory of a space as if its bytes were stored one by one, or the
copy is refused and nothing is changed. The arguments of a space that has frames are laid out on its
stack, or refused because they do not fit.

## Main definitions

- `Machine.withRam`: the machine with another memory
- `Machine.Written`: bytes were stored in the user memory of a space

## Main statements

- `Reachable.writes_bytewise`: what becomes of a copy
- `Reachable.arranged`: what becomes of arguments
-/

namespace MipsVM

open Routine

namespace Machine

/-- The machine with other bytes in its memory. -/
def withRam (s : Machine) (ram : Ram) : Machine :=
  { s with memory := { s.memory with ram := ram } }

/-- The bytes were stored one by one from a user address of a space on, they are read there, and all
other bytes are as they were. -/
structure Written (s : Machine) (space : AddressSpace) (n : Nat) (bytes : List UInt8)
    (s' : Machine) : Prop where
  machine : s' = s.withRam (space.store s.memory.ram n bytes)
  stored : space.Shows s'.memory.ram n bytes
  kept : s.memory.ram.Keeps s'.memory.ram fun q =>
    ∀ k < bytes.length, space.locate? (n + k) ≠ some q

end Machine

namespace System

variable {range : PhysicalRange} {s : System} {name : Nat} {space : AddressSpace}

theorem Sound.nodup_frames (h : s.Sound range)
    (hspace : s.machine.spaces.get? name = some space) : space.frames.Nodup :=
  nodup_of_singles (h.books_of_get? hspace).apart

/-- How a request to copy bytes ends. -/
theorem Sound.write_ends (h : s.Sound range)
    (hspace : s.machine.spaces.get? name = some space) (a : VirtualAddress) (bytes : List UInt8) :
    (Request.space name (.write a bytes)).perform.Ends s.machine
      (fun reply machine => reply = .done ∧ space.Has a.toNat bytes.length ∧
        s.machine.Written space a.toNat bytes machine)
      (fun e machine => ¬ space.Has a.toNat bytes.length ∧ machine = s.machine ∧
        ∃ gap, e = .copy (.unmapped gap) ∧
          if 0x100000000 < a.toNat + bytes.length then gap = a
          else space.IsFirstGap a.toNat bytes.length gap.toNat)
      (fun _ _ => False) := by
  have hhas := h.has_frame hspace
  refine SpaceRequest.ends_write.mpr ((Directory.forall_get?_iff hspace).mpr ?_)
  rcases space.write_cases hhas with ⟨hall, hdone⟩ | ⟨hlacks, gap, herror, hgap⟩
  · rw [ends_of_done hdone]
    exact ⟨rfl, hall, rfl,
      AddressSpace.shows_store (h.nodup_frames hspace) hhas hall, space.keeps_store⟩
  · rw [ends_of_error herror]
    exact ⟨hlacks, rfl, gap, rfl, hgap⟩

/-- In every reachable system, a byte string is copied to the user memory of a space as if its bytes
were stored one by one, if the space has a byte at each of the addresses. If it does not, nothing is
changed. The address that is reported is then the first one of the string if this passes the end of
all addresses, and else the lowest one at which the space has no byte. -/
theorem Reachable.writes_bytewise (h : Reachable range s)
    (hspace : s.machine.spaces.get? name = some space) (a : VirtualAddress) (bytes : List UInt8) :
    (bytes = [] →
      ((Request.space name (.write a bytes)).perform s.machine).outcome = .ok .done ∧
      (s.after (.space name (.write a bytes))).machine = s.machine) ∧
    (space.Has a.toNat bytes.length →
      ((Request.space name (.write a bytes)).perform s.machine).outcome = .ok .done ∧
      s.machine.Written space a.toNat bytes (s.after (.space name (.write a bytes))).machine) ∧
    (¬ space.Has a.toNat bytes.length →
      (s.after (.space name (.write a bytes))).machine = s.machine ∧
      ∃ gap, ((Request.space name (.write a bytes)).perform s.machine).outcome =
          .error (.error (.copy (.unmapped gap))) ∧
        if 0x100000000 < a.toNat + bytes.length then gap = a
        else space.IsFirstGap a.toNat bytes.length gap.toNat) := by
  rcases (h.sound.write_ends hspace a bytes).cases with
    ⟨reply, hout, hends⟩ | ⟨e, hout, hends⟩ | ⟨p, hout, hno⟩
  · obtain ⟨rfl, hall, hwritten⟩ := hends
    refine ⟨fun hnil => ⟨hout, ?_⟩, fun _ => ⟨hout, hwritten⟩, fun hlacks => absurd hall hlacks⟩
    subst hnil
    exact hwritten.machine
  · obtain ⟨hlacks, hsame, gap, rfl, hgap⟩ := hends
    refine ⟨fun hnil => ?_, fun hall => absurd hall hlacks, fun _ => ⟨hsame, gap, hout, hgap⟩⟩
    subst hnil
    exact absurd (fun k hk => absurd hk (Nat.not_lt_zero k)) hlacks
  · exact hno.elim

/-- In the small system, bytes are copied across the end of a page of the stack, and are not copied
past the end of all addresses. -/
theorem writes_bytewise_populated :
    ∃ space, populated.machine.spaces.get? 0 = some space ∧
      populated.machine.Written space 0x7FFF4FFE [1, 2, 3]
        (populated.after (.space 0 (.write (.ofNat 0x7FFF4FFE) [1, 2, 3]))).machine ∧
      ((Request.space 0 (.write (.ofNat 0xFFFFFFFF) [1, 2])).perform populated.machine).outcome =
        .error (.error (.copy (.unmapped (.ofNat 0xFFFFFFFF)))) := by
  obtain ⟨space, -, hspace, hbacked, -⟩ := isBacked_populated
  have hwf := reachable_populated.sound.spaces.get? hspace
  have hlast : ¬ space.Has 0xFFFFFFFF 2 := fun hall =>
    hall.ne_none (i := 0x100000000) (by decide) (by decide)
      (AddressSpace.locate?_eq_none_of_le (Nat.le_refl _))
  refine ⟨space, hspace, ?_, ?_⟩
  · exact ((reachable_populated.writes_bytewise hspace (.ofNat 0x7FFF4FFE) [1, 2, 3]).2.1
      (hwf.has_stack hbacked (by decide) (by decide))).2
  · obtain ⟨-, gap, hout, hgap⟩ :=
      (reachable_populated.writes_bytewise hspace (.ofNat 0xFFFFFFFF) [1, 2]).2.2 hlast
    rw [if_pos (by decide)] at hgap
    rw [hout, hgap]

/-- How a request to lay out arguments ends. -/
theorem Sound.layOutArguments_ends (h : s.Sound range)
    (hspace : s.machine.spaces.get? name = some space) (hb : space.isBacked)
    (arguments : List (List UInt8)) :
    (Request.space name (.layOutArguments none arguments)).perform.Ends s.machine
      (fun reply machine =>
        (∀ p ∈ placesBelow userStackTop (argumentLengths arguments), userStackBase ≤ p) ∧
        ∃ sp pointers ram, reply = .virtualAddress sp ∧ machine = s.machine.withRam ram ∧
          space.Arranged arguments s.machine.memory.ram pointers sp.toNat ram)
      (fun e machine => e = .space .argumentsTooLarge ∧
        (∃ p ∈ placesBelow userStackTop (argumentLengths arguments), p < userStackBase) ∧
        ∃ ram, machine = s.machine.withRam ram ∧
          s.machine.memory.ram.Keeps ram fun q => ∀ frame ∈ space.stack, q / 4096 ≠ frame.number)
      (fun _ _ => False) := by
  have hwf := h.spaces.get? hspace
  have hhas := h.has_frame hspace
  refine SpaceRequest.ends_layOutArguments.mpr ((Directory.forall_get?_iff hspace).mpr
    ((Directory.forall_get?_iff hspace).mpr ?_))
  refine (hwf.layOutArguments_ends hb hhas).mono (fun sp m hm => ?_) (fun e m hm => ?_)
    (fun _ _ hno => hno)
  · obtain ⟨pointers, hplaces, hinside, rfl⟩ := hm
    exact ⟨hinside, sp, pointers, _, rfl, rfl,
      hwf.arranged_storeAll hb (h.nodup_frames hspace) hhas hplaces hinside⟩
  · obtain ⟨rfl, hlow, ram, rfl, hkeeps⟩ := hm
    exact ⟨rfl, hlow, ram, rfl, hkeeps⟩

/-- In every reachable system, the arguments of a space that has frames are laid out on its stack if
the places of all strings and of the table of their addresses lie in the stack. If one of them lies
below, the arguments are refused as too large, and nothing is changed but frames of this stack. -/
theorem Reachable.arranged (h : Reachable range s)
    (hspace : s.machine.spaces.get? name = some space) (hb : space.isBacked)
    (arguments : List (List UInt8)) :
    ((∀ p ∈ placesBelow userStackTop (argumentLengths arguments), userStackBase ≤ p) ∧
      ∃ sp pointers ram,
        ((Request.space name (.layOutArguments none arguments)).perform s.machine).outcome =
          .ok (.virtualAddress sp) ∧
        (s.after (.space name (.layOutArguments none arguments))).machine = s.machine.withRam ram ∧
        space.Arranged arguments s.machine.memory.ram pointers sp.toNat ram) ∨
    ((∃ p ∈ placesBelow userStackTop (argumentLengths arguments), p < userStackBase) ∧
      ((Request.space name (.layOutArguments none arguments)).perform s.machine).outcome =
        .error (.error (.space .argumentsTooLarge)) ∧
      ∃ ram,
        (s.after (.space name (.layOutArguments none arguments))).machine = s.machine.withRam ram ∧
        s.machine.memory.ram.Keeps ram fun q =>
          ∀ frame ∈ space.stack, q / 4096 ≠ frame.number) := by
  rcases (h.sound.layOutArguments_ends hspace hb arguments).cases with
    ⟨reply, hout, hends⟩ | ⟨e, hout, hends⟩ | ⟨p, hout, hno⟩
  · obtain ⟨hinside, sp, pointers, ram, rfl, hram, harranged⟩ := hends
    exact .inl ⟨hinside, sp, pointers, ram, hout, hram, harranged⟩
  · obtain ⟨rfl, hlow, hram⟩ := hends
    exact .inr ⟨hlow, hout, hram⟩
  · exact hno.elim

/-- In the small system, a string longer than a page and a short one are laid out. -/
theorem arranged_populated :
    ∃ space sp pointers ram, populated.machine.spaces.get? 0 = some space ∧
      ((Request.space 0 (.layOutArguments none [.replicate 5000 97, [98, 99]])).perform
        populated.machine).outcome = .ok (.virtualAddress sp) ∧
      pointers ++ [sp.toNat] = [0x7FFFEC70, 0x7FFFEC68, 0x7FFFEC58] ∧
      space.Arranged [.replicate 5000 97, [98, 99]] populated.machine.memory.ram pointers sp.toNat
        ram := by
  obtain ⟨space, -, hspace, hbacked, -⟩ := isBacked_populated
  have hplaces : placesBelow userStackTop (argumentLengths [.replicate 5000 97, [98, 99]]) =
      [0x7FFFEC70, 0x7FFFEC68, 0x7FFFEC58] := by
    have hlengths : argumentLengths [.replicate 5000 97, [98, 99]] = [5001, 3, 12] := by
      simp only [argumentLengths, List.map_cons, List.map_nil, List.length_replicate,
        List.length_cons, List.length_nil, List.cons_append, List.nil_append]
    rw [hlengths]
    decide
  rcases reachable_populated.arranged hspace hbacked [.replicate 5000 97, [98, 99]] with
    ⟨-, sp, pointers, ram, hout, -, harranged⟩ | ⟨hlow, -⟩
  · exact ⟨space, sp, pointers, ram, hspace, hout, harranged.places.trans hplaces, harranged⟩
  · rw [hplaces] at hlow
    exact absurd hlow (by decide)

end System

end MipsVM
