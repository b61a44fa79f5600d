import MipsVM.Proofs.Machine.System

/-!
# What a request to one space leaves to the others

A request changes neither what another space translates nor the bytes behind it, and no bytes of the
runs of the kernel, however it ends. The same holds of a space itself if the request neither writes
to it nor gives it up.

## Main definitions

- `System.Spares`: the request is not one to write to a space or to give it up
- `System.Keeps`: a space and the bytes of its frames afterwards, and those of the kernel

## Main statements

- `Reachable.isolated`: a space is kept by each request that spares it
-/

namespace MipsVM

open Routine

namespace System

variable {range : PhysicalRange} {s : System} {b : Nat} {space : AddressSpace} {request : Request}

/-- The request is none that writes to the space of a name, or to memory as such, and none that
gives the space up. Any frame may be given to the allocator to take it back. -/
def Spares (s : System) (b : Nat) : Request → Prop
  | .allocator .buildTable | .allocator (.alloc _) | .allocator (.free _) | .fault .. => True
  | .space name r => r.Proper s.machine.spaces name ∧ r.written name ≠ some b
  | _ => False

/-- In a later machine the name stands for a space with the same translations, and the bytes of the
frames of the space and of the runs of the kernel are the same. -/
structure Keeps (s : System) (b : Nat) (space : AddressSpace) (machine : Machine) : Prop where
  continues : ∃ space', machine.spaces.get? b = some space' ∧ space.Continues space'
  leaves : s.machine.memory.Leaves machine.memory (singles space.frames ++ s.runs)

theorem keeps_of_leaves (hspace : s.machine.spaces.get? b = some space) {m : Memory}
    (hm : s.machine.memory.Leaves m s.inUse) : s.Keeps b space { s.machine with memory := m } := by
  refine ⟨⟨space, hspace, .refl⟩, hm.mono ?_⟩
  exact singles_append_subset (Directory.frames_subset hspace)

end System

/-- A request that is not to lose a space does not take its name. -/
theorem SpaceRequest.displaced_ne {d : Directory} {name b : Nat} {space : AddressSpace}
    {r : SpaceRequest} (hspace : d.get? b = some space) (hproper : r.Proper d name)
    (hwritten : r.written name ≠ some b) : r.displaced name ≠ some b := by
  cases r with
  | create | forkTo =>
    intro hb
    obtain rfl := Option.some.inj hb
    exact absurd (hspace.symm.trans hproper) (Option.some_ne_none _)
  | release => exact hwritten
  | abandon => exact hproper.elim
  | _ => exact (Option.some_ne_none b).symm

namespace System

variable {range : PhysicalRange} {s : System} {b : Nat} {space : AddressSpace} {request : Request}

/-- A space is kept by a request to a space that is not to write to it or give it up. -/
theorem Sound.keeps_space (h : s.Sound range) (hspace : s.machine.spaces.get? b = some space)
    {name : Nat} {r : SpaceRequest} (hproper : r.Proper s.machine.spaces name)
    (hwritten : r.written name ≠ some b) :
    (r.perform name).EndsIn s.machine (s.Keeps b space) := by
  have hdisplaced := SpaceRequest.displaced_ne hspace hproper hwritten
  have hframes : ∀ frame ∈ space.frames,
      frame ∈ (s.machine.spaces.without (r.written name)).frames := by
    cases hw : r.written name with
    | none => exact Directory.frames_subset hspace
    | some other => exact Directory.frames_subset_of_ne hspace fun hb => hwritten (hb ▸ hw)
  refine ((SpaceRequest.perform_carries h.spaces).and
    (SpaceRequest.perform_follows h hproper)).mono ?_
  exact fun machine hm => ⟨hm.1.kept b space hspace hdisplaced,
    hm.2.leaves.mono (singles_append_subset hframes)⟩

theorem Sound.keeps (h : s.Sound range) (hspace : s.machine.spaces.get? b = some space)
    (hspares : s.Spares b request) : s.Keeps b space (s.after request).machine := by
  refine (endsIn_iff (R := s.Keeps b space)).mp ?_
  cases request with
  | allocator r =>
    exact Machine.ends_onMemory.mpr ((AllocatorRequest.perform_leaves h.books r).mono
      fun _ hm => keeps_of_leaves hspace hm)
  | space name r => exact h.keeps_space hspace hspares.1 hspares.2
  | fault code a target =>
    refine ((Request.fault code a target).perform_onCore trivial).mono ?_
    rintro _ ⟨core, guards, rfl⟩
    exact ⟨⟨space, hspace, .refl⟩, .refl⟩
  | _ => exact hspares.elim

/-- In every reachable system a space that is spared by a request translates afterwards what it
translated before, to the same addresses, and the bytes there are the same. So are the bytes of all
runs of the kernel. -/
theorem Reachable.isolated (h : Reachable range s)
    (hspace : s.machine.spaces.get? b = some space) (hspares : s.Spares b request) :
    (∃ space', (s.after request).machine.spaces.get? b = some space' ∧
      ∀ a pa, space.translate a = some pa → space'.translate a = some pa ∧
        (s.after request).machine.memory.ram.byteAt pa.toNat =
          s.machine.memory.ram.byteAt pa.toNat) ∧
      ∀ r ∈ s.runs, ∀ a, r.Has (a / 4096) →
        (s.after request).machine.memory.ram.byteAt a = s.machine.memory.ram.byteAt a := by
  obtain ⟨⟨space', hspace', hcontinues⟩, hleaves⟩ := h.sound.keeps hspace hspares
  refine ⟨⟨space', hspace', fun a pa hpa => ⟨hcontinues a pa hpa, ?_⟩⟩, fun r hr a ha => ?_⟩
  · refine hleaves.ram.bytes _ ((AddressSpace.held_of_translate hpa).mono fun r hr => ?_)
    exact List.mem_append_left _ hr
  · exact hleaves.ram.bytes a ⟨r, List.mem_append_right _ hr, ha⟩

/-- In the small system the kernel is given a run beside the frames of the space 0. -/
theorem isolated_populated :
    ∃ space space', populated.machine.spaces.get? 0 = some space ∧ space.isBacked ∧
      (populated.after (.allocator (.alloc 3))).machine.spaces.get? 0 = some space' ∧
      ∀ a pa, space.translate a = some pa → space'.translate a = some pa ∧
        (populated.after (.allocator (.alloc 3))).machine.memory.ram.byteAt pa.toNat =
          populated.machine.memory.ram.byteAt pa.toNat := by
  obtain ⟨space, -, hspace, hbacked, -⟩ := isBacked_populated
  obtain ⟨⟨space', hspace', hsame⟩, -⟩ := reachable_populated.isolated hspace
    (show populated.Spares 0 (.allocator (.alloc 3)) from trivial)
  exact ⟨space, space', hspace, hbacked, hspace', hsame⟩

end System

end MipsVM
