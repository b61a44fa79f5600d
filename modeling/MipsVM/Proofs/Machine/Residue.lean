import MipsVM.Proofs.Machine.Alike
import MipsVM.Proofs.Machine.System

/-!
# What was left in frames is never seen

Whatever was asked of a machine since boot, no request to a space and no fault can tell what a
released space, or the kernel, has left in the frames that belong to no space.

## Main definitions

- `Machine.Indistinct`: a request ended in the same way on two machines that differ in such frames
  only

## Main statements

- `Request.perform_tableBelow`: the slots of the table lie below the frames that it manages,
  whatever is asked of the machine
- `AtBoot.unseen`: no request sees what was left in frames
-/

namespace MipsVM

open Routine

section TableBelow

variable {ε : Type} {m : Memory} {s : Machine}

theorem Memory.endsIn_tableBelow {α : Type} {r : Routine Memory ε α} {t : Option ResidentTable}
    {frames : List PhysicalPage}
    (h : r.Agree m m (fun _ => Memory.Alike t frames) (Memory.Alike t frames)) :
    r.EndsIn m Memory.TableBelow :=
  h.endsIn (fun _ _ _ h => h.tableBelow) fun _ _ h => h.tableBelow

theorem Memory.buildTable_tableBelow (h : m.TableBelow) :
    buildTable.EndsIn m Memory.TableBelow := by
  rw [endsIn_iff]
  rcases buildTable_cases m with
    he | ⟨-, place, hplace, ⟨p, -, hp⟩ | ⟨-, ⟨-, hdone⟩ | ⟨-, he⟩⟩⟩
  · rwa [he]
  · rwa [hp]
  · rw [hdone]
    intro t ht
    obtain rfl : place.table = t := Option.some.inj ht
    exact (within_of_ofRange? hplace).slotsStop_le
  · -- the table that refuses the new one stays
    rw [he]
    exact h

theorem Memory.free_tableBelow (h : m.TableBelow) (frame : PhysicalPage) :
    (free frame).EndsIn m Memory.TableBelow :=
  endsIn_tableBelow (agree_free (alike_self h []) frame)

theorem AllocatorRequest.perform_tableBelow (h : m.TableBelow) (r : AllocatorRequest) :
    r.perform.EndsIn m Memory.TableBelow := by
  refine perform_keeps h (Memory.buildTable_tableBelow h) (fun count => ?_)
    (Memory.free_tableBelow h) r
  exact Memory.endsIn_tableBelow (Memory.agree_alloc (Memory.alike_self h []) count)

theorem RamRequest.perform_tableBelow (h : m.TableBelow) (r : RamRequest) :
    (r.perform : Routine Memory ε Reply).EndsIn m Memory.TableBelow := by
  have haccess (f : Ram → Except Panic Ram) :
      (Memory.access f : Routine Memory ε Unit).EndsIn m Memory.TableBelow :=
    Memory.endsIn_access h fun _ _ => h
  have hinspect {α : Type} (f : Ram → Except Panic α) :
      (Memory.inspect f : Routine Memory ε α).EndsIn m Memory.TableBelow :=
    Memory.endsIn_inspect h
  cases r with
  | range | base => exact h
  | read | digest => exact (hinspect _).bind fun _ _ h => h
  | write | zero | copy => exact (haccess _).bind fun _ _ h => h

/-- Whatever is asked of a machine, the slots of its table stay below the frames. -/
theorem Request.perform_tableBelow (h : s.memory.TableBelow) (request : Request) :
    request.perform.EndsIn s fun left => left.memory.TableBelow := by
  by_cases hcore : request.OnCore
  · refine (request.perform_onCore hcore).mono ?_
    rintro _ ⟨core, guards, rfl⟩
    exact h
  unfold EndsIn
  cases request with
  | allocator r => exact Machine.ends_onMemory.mpr (r.perform_tableBelow h)
  | table r =>
    refine Machine.ends_table.mpr ⟨fun t ht => Machine.ends_onMemory.mpr ?_, fun _ => h⟩
    exact Memory.endsIn_tableBelow (Memory.agree_onTable (Memory.alike_self h []) ht r.perform)
  | ram r => exact Machine.ends_onMemory.mpr (r.perform_tableBelow h)
  | space name r =>
    by_cases hr : (Request.space name r).OnSpaces
    · have halike := Memory.alike_self h s.spaces.frames
      exact (r.agree hr halike).endsIn (fun _ _ _ h => h.tableBelow) fun _ _ h => h.tableBelow
    · have hreads : r.Reads := by
        cases r with
        | peek => trivial
        | _ => exact absurd trivial hr
      refine (SpaceRequest.perform_reads hreads).mono ?_
      rintro _ ⟨core, rfl⟩
      exact h
  | interrupts | tlb | fault => exact absurd trivial hcore

theorem tableBelow_stateAfter (history : List Request) (h : s.memory.TableBelow) :
    (stateAfter Request.perform history s).memory.TableBelow := by
  induction history generalizing s with
  | nil => exact h
  | cons request rest ih => exact ih (endsIn_iff.mp (request.perform_tableBelow h))

end TableBelow

namespace Machine

variable {s s' : Machine} {t : Option ResidentTable}

/-- A request ended in the same way on two machines. The states that it left are the same but for
residual bytes, and no such byte is visible through a space. -/
structure Indistinct (ending ending' : Ending Machine MachineError Reply) : Prop where
  outcome : ending'.outcome = ending.outcome
  events : ending'.events = ending.events
  states : ending.state.Alike ending'.state
  seen : ∀ name space a pa, ending.state.spaces.get? name = some space →
    space.translate a = some pa →
      ending'.state.memory.ram.byteAt pa.toNat = ending.state.memory.ram.byteAt pa.toNat

theorem indistinct {ending ending' : Ending Machine MachineError Reply}
    (h : Ending.Agree (fun _ => Linked t) (Linked t) ending ending') :
    Indistinct ending ending' := by
  have hstates : ending.state.Alike ending'.state :=
    (h.state (R := Linked t) (fun _ _ _ h => h) fun _ _ h => h).alike
  have hseen : ∀ name space a pa, ending.state.spaces.get? name = some space →
      space.translate a = some pa →
        ending'.state.memory.ram.byteAt pa.toNat = ending.state.memory.ram.byteAt pa.toNat :=
    fun _ _ _ _ hspace hpa => hstates.ram.bytes _ (not_residual_of_translate hspace hpa)
  cases h with
  | value => exact ⟨rfl, rfl, hstates, hseen⟩
  | failure => exact ⟨rfl, rfl, hstates, hseen⟩

/-- From boot on, whatever was done before and whatever it has left in frames of no space: to
requests to spaces and to faults it makes no difference. -/
theorem AtBoot.unseen {boot : Machine} {range : PhysicalRange} (hboot : boot.AtBoot range)
    {history requests : List Request} (h : (stateAfter Request.perform history boot).Alike s')
    (hrequests : ∀ request ∈ requests, request.OnSpaces) :
    List.Forall₂ Indistinct
      (serve Request.perform requests (stateAfter Request.perform history boot))
      (serve Request.perform requests s') := by
  have hbelow : boot.memory.TableBelow := by
    obtain ⟨ram, -, hmemory, -⟩ := hboot
    rw [hmemory]
    intro t ht
    cases ht
  refine ((h.linked (tableBelow_stateAfter history hbelow)).serve hrequests).imp ?_
  exact fun _ _ => indistinct

section Small

/-- The machine with another byte at an address. -/
def withByte (s : Machine) (a : Nat) (b : UInt8) : Machine :=
  { s with memory := { s.memory with ram := s.memory.ram.setByte a b } }

theorem alike_withByte {a : Nat} (ha : s.Residual a) (b : UInt8) : s.Alike (s.withByte a b) := by
  refine ⟨rfl, rfl, rfl, rfl, Ram.first_modifyFrame .., Ram.size_frames_modifyFrame .., ?_⟩
  intro i hi
  exact Ram.byteAt_setByte_of_ne (fun heq : i = a => hi (heq ▸ ha)) b

theorem byteAt_withByte {a : Nat} (h : s.memory.ram.hasFrame (a / 4096)) (b : UInt8) :
    (s.withByte a b).memory.ram.byteAt a = b := by
  rw [withByte, Ram.byteAt_setByte h, if_pos rfl]

/-- A small machine with a frame table. -/
def managed : Machine :=
  stateAfter Request.perform [.allocator .buildTable]
    (.boot System.smallRam ⟨true, 0, ⟨#[], .ofSeed 0⟩⟩)

theorem residual_managed : managed.Residual 0x14000 := by
  have htable : managed.memory.allocator.table = some ⟨.ofNumber 17, .ofNat 0x10000, 63, 63⟩ := rfl
  have hframes : managed.spaces.frames = [] := rfl
  refine ⟨⟨_, htable, by decide, by decide⟩, ?_⟩
  rw [hframes]
  exact List.forall_mem_nil _

/-- What is asked of the spaces of the small machine. -/
def visits : List Request :=
  [.space 0 .create,
    .space 0 (.addRegion (.ofNat 0x400000) 4096 (.ofFlags true false true)),
    .space 0 (.addRegion (.ofNat 0x10000000) 5000 (.ofFlags true true false)),
    .space 0 .populate, .space 0 (.forkTo 1), .space 0 .switchTo,
    .fault 2 (.ofNat 0x400000) (some 0), .space 0 .release]

/-- Another byte in a free frame of the small machine is not noticed. -/
theorem unseen_withByte :
    ∃ b, (managed.withByte 0x14000 b).memory.ram.byteAt 0x14000 ≠
        managed.memory.ram.byteAt 0x14000 ∧
      List.Forall₂ Indistinct (serve Request.perform visits managed)
        (serve Request.perform visits (managed.withByte 0x14000 b)) := by
  have hreach : System.Reachable System.smallRam.range
      (System.small.after (.allocator .buildTable)) := .step (.boot (atBoot_boot _ _)) trivial
  have hframe : managed.memory.ram.hasFrame (0x14000 / 4096) :=
    hreach.sound.books.covers 0x14000 (by decide) (by decide)
  refine ⟨managed.memory.ram.byteAt 0x14000 + 1, ?_, ?_⟩
  · rw [byteAt_withByte hframe]
    simp
  · exact (atBoot_boot _ _).unseen (alike_withByte residual_managed _)
      (by simp [visits, Request.OnSpaces])

end Small

end Machine

end MipsVM
