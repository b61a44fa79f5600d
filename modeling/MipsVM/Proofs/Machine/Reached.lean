import MipsVM.Proofs.Frame.Orderly
import MipsVM.Proofs.Machine.Lifecycle

/-!
# Machines that are asked for anything

Nothing is expected of those who make requests to a machine: they give back frames that others use,
or lose spaces with their frames. Only the slots of the frame table are not written as raw memory.
Spaces may come to share frames that way, but no space has a frame twice, and the frame table always
records some runs.

## Main definitions

- `Machine.Reached`: the machines that are reached from one at boot by any requests
- `Machine.Orderly`: what all of them have in common

## Main statements

- `populate_orderly`, `fork_orderly`: the frames that a space is given are distinct
- `Orderly.perform`: what one request preserves
- `Reached.orderly`: what holds of every machine that is reached
- `System.Reachable.reached`: machines of which more is expected are among them
-/

namespace MipsVM

open Routine

namespace Memory

variable {range : PhysicalRange} {m m' : Memory} {frames : List PhysicalPage} {ε : Type}

/-- Whatever frames are given back. -/
theorem Orderly.giveBack (h : m.Orderly range frames) (given : List PhysicalPage) :
    (giveBack given : Routine Memory ε Unit).EndsIn m (Orderly range frames) := by
  induction given generalizing m with
  | nil => exact h
  | cons frame rest ih =>
    rw [Memory.giveBack, EndsIn, ends_bind, ends_attempt]
    refine Ends.mono (h.free frame) (fun _ m' hm => ih hm) (fun cause m' hm => ?_)
      (fun _ _ hm => hm)
    simp only [ends_bind, ends_report]
    exact ih hm

theorem Orderly.duplicateFrames (h : m.Orderly range frames)
    {pairs : List (PhysicalPage × PhysicalPage)} (hsub : ∀ p ∈ pairs, p.1 ∈ frames) :
    (duplicateFrames pairs : Routine Memory ε Unit).EndsIn m (Orderly range frames) := by
  refine ends_forEach (fun p hp m hm => endsIn_access hm fun ram hram => ?_) h
  obtain ⟨bytes, rfl⟩ := Ram.eq_setFrame_of_duplicateFrame hram
  exact hm.setFrame (hsub p hp) bytes

theorem Orderly.changes {s : AddressSpace} (h : m.Orderly range frames) (hsub : s.frames ⊆ frames)
    (hm : s.Changes m m') : m'.Orderly range frames := by
  obtain ⟨ram, rfl, hk⟩ := hm
  exact h.withRam (fun t ht a ha => hk.bytes a fun frame hf => h.not_hasByte ht (hsub hf) ha)
    hk.extent

end Memory

namespace AddressSpace

variable {range : PhysicalRange} {m : Memory} {frames : List PhysicalPage} {s : AddressSpace}

/-- The frames that a space is given are distinct, whoever else uses them. -/
theorem populate_orderly (h : s.WellFormed) (hm : m.Orderly range frames) :
    s.populate.Ends m
      (fun s' m' => s'.frames.Nodup ∧ m'.Orderly range (s'.frames ++ frames))
      (fun _ => Memory.Orderly range frames) (fun _ _ => False) := by
  obtain ⟨runs, hbooks, hclear⟩ := hm
  refine (populate_ends h hbooks).mono (fun s' m' hm' => ?_) (fun _ m' hm' => ?_)
    (fun _ _ hno => hno)
  · obtain ⟨-, hsupplied⟩ := hm'
    have hbooks' := hsupplied.books
    have hnew : m'.Clear (singles s'.frames ++ runs) s'.frames := hbooks'.clear fun frame hf =>
      ⟨_, List.mem_append_left _ (mem_singles hf), Run.has_single.mpr rfl⟩
    have hold := hclear.of_leaves hsupplied.leaves hbooks' fun _ => List.subset_append_right _ _
    exact ⟨nodup_of_singles hbooks'.apart, _, hbooks', hnew.append hold⟩
  · exact ⟨runs, hm'.1, hclear.of_leaves hm'.2 hm'.1 fun _ => List.Subset.refl _⟩

/-- The frames of a copy are distinct, whoever else uses them. A frame that both spaces have cannot be
copied to itself, which is a panic. -/
theorem fork_orderly (h : s.WellFormed) (hm : m.Orderly range frames) :
    s.fork.Ends m (fun s' m' => s'.frames.Nodup ∧ m'.Orderly range (s'.frames ++ frames))
      (fun _ => Memory.Orderly range frames) (fun _ => Memory.Orderly range frames) := by
  by_cases hb : s.isBacked
  · rw [fork_of_isBacked h hb]
    simp only [ends_bind, ends_onPanic, ends_pure]
    refine (populate_orderly h.bare hm).mono (fun child m₁ hchild => ?_) (fun _ _ hm' => hm')
      (fun _ _ hno => hno.elim)
    obtain ⟨hnodup, hm₁⟩ := hchild
    have hcopy : (Memory.duplicateFrames (child.frames.zip s.frames) :
        Routine Memory SpaceError Unit).EndsIn m₁
          (Memory.Orderly range (child.frames ++ frames)) :=
      hm₁.duplicateFrames fun p hp => List.mem_append_left _ (List.of_mem_zip hp).1
    exact Ends.mono hcopy (fun _ _ hm' => ⟨hnodup, hm'⟩)
      (fun _ _ hm' => hm'.mono (List.subset_append_right _ _))
      (fun _ _ hm' => hm'.mono (List.subset_append_right _ _))
  · obtain ⟨e, hfail⟩ := fork_of_not_isBacked hb
    rw [hfail]
    exact hm

end AddressSpace

namespace Directory

variable {d : Directory} {name : Nat} {space : AddressSpace}

/-- No space has a frame twice. -/
def Distinct (d : Directory) : Prop :=
  ∀ entry ∈ d.entries, entry.2.frames.Nodup

theorem Distinct.get? (h : d.Distinct) (hs : d.get? name = some space) : space.frames.Nodup :=
  h _ (mem_of_get? hs)

theorem Distinct.erase (h : d.Distinct) (name : Nat) : (d.erase name).Distinct :=
  fun entry he => h entry (List.mem_filter.mp he).1

theorem Distinct.insert (h : d.Distinct) (name : Nat) (hs : space.frames.Nodup) :
    (d.insert name space).Distinct :=
  List.forall_mem_cons.mpr ⟨hs, h.erase name⟩

end Directory

namespace Machine

variable {range : PhysicalRange} {s : Machine} {name : Nat} {space : AddressSpace}

/-- No space has a frame twice, and all frames of spaces are clear of the slots of the table, which
records some runs. -/
structure Lends (range : PhysicalRange) (s : Machine) : Prop where
  distinct : s.spaces.Distinct
  memory : s.memory.Orderly range s.spaces.frames

/-- What holds of a machine whatever it is asked for. -/
structure Orderly (range : PhysicalRange) (s : Machine) : Prop extends s.Lends range where
  spaces : s.spaces.WellFormed

theorem Lends.has_frame (h : s.Lends range) (hs : s.spaces.get? name = some space) :
    ∀ frame ∈ space.frames, s.memory.ram.hasFrame frame.number :=
  fun frame hf => h.memory.has_frame (Directory.frames_subset hs frame hf)

theorem Lends.erase (h : s.Lends range) (name : Nat) {m : Memory}
    (hm : m.Orderly range (s.spaces.erase name).frames) :
    ({ s with memory := m, spaces := s.spaces.erase name } : Machine).Lends range :=
  ⟨h.distinct.erase name, hm⟩

/-- A name is given to a space with other frames, or with some frames of the spaces before. -/
theorem Lends.insert (h : s.Lends range) (name : Nat) {m : Memory} (hs : space.frames.Nodup)
    (hm : m.Orderly range (space.frames ++ s.spaces.frames)) :
    ({ s with memory := m, spaces := s.spaces.insert name space } : Machine).Lends range := by
  refine ⟨h.distinct.insert name hs, hm.mono ?_⟩
  rw [Directory.frames_insert]
  exact List.append_subset.mpr ⟨List.subset_append_left _ _,
    List.Subset.trans (s.spaces.frames_erase_subset name) (List.subset_append_right _ _)⟩

/-- The name of a space is given to one with the same frames. -/
theorem Lends.insert_same (h : s.Lends range) (hs : s.spaces.get? name = some space)
    {left : AddressSpace} (hleft : left.frames = space.frames) :
    ({ s with spaces := s.spaces.insert name left } : Machine).Lends range := by
  refine h.insert name (hleft ▸ h.distinct.get? hs) (h.memory.mono ?_)
  rw [hleft]
  exact List.append_subset.mpr ⟨Directory.frames_subset hs, List.Subset.refl _⟩

theorem Lends.changes (h : s.Lends range) (hs : s.spaces.get? name = some space) {m : Memory}
    (hm : space.Changes s.memory m) : ({ s with memory := m } : Machine).Lends range :=
  ⟨h.distinct, h.memory.changes (Directory.frames_subset hs) hm⟩

end Machine

namespace SpaceRequest

section Lends

variable {range : PhysicalRange} {s : Machine} {name : Nat} {r : SpaceRequest}
  (h : s.Orderly range)
include h

theorem lends_reads (hr : r.Reads) : (r.perform name).EndsIn s (Machine.Lends range) := by
  refine (perform_reads hr).mono ?_
  rintro _ ⟨core, rfl⟩
  exact ⟨h.distinct, h.memory⟩

theorem lends_writes (hr : r.Writes) : (r.perform name).EndsIn s (Machine.Lends range) := by
  refine (perform_writes hr fun _ _ => h.toLends.has_frame).mono ?_
  rintro _ (rfl | ⟨b, space, m, -, hspace, hm, rfl⟩)
  · exact h.toLends
  · exact h.toLends.changes hspace hm

theorem lends_release : (release.perform name).EndsIn s (Machine.Lends range) := by
  refine ends_release.mpr ⟨fun space _ => ends_onPanic.mpr ?_, fun _ => h.toLends⟩
  have hrest := h.memory.mono (s.spaces.frames_erase_subset name)
  exact (hrest.giveBack space.frames).mono fun _ hm => h.toLends.erase name hm

theorem lends_abandon : (abandon.perform name).EndsIn s (Machine.Lends range) := by
  have hrest := h.memory.mono (s.spaces.frames_erase_subset name)
  exact ends_abandon.mpr ⟨fun _ _ => h.toLends.erase name hrest, fun _ => h.toLends⟩

theorem lends_addRegion (a : VirtualAddress) (size : Nat) (protection : Protection) :
    ((addRegion a size protection).perform name).EndsIn s (Machine.Lends range) := by
  refine ends_addRegion.mpr ⟨fun space hspace => ?_, fun _ => h.toLends⟩
  exact (AddressSpace.frames_addRegion space a size protection).mono
    fun _ hleft => h.toLends.insert_same hspace hleft

theorem lends_populate : (populate.perform name).EndsIn s (Machine.Lends range) := by
  refine ends_populate.mpr ⟨fun space hspace => ?_, fun _ => h.toLends⟩
  exact (AddressSpace.populate_orderly (h.spaces.get? hspace) h.memory).mono
    (fun _ _ hm => h.toLends.insert name hm.1 hm.2) (fun _ _ hm => ⟨h.distinct, hm⟩)
    (fun _ _ hno => hno.elim)

theorem lends_finishLoading : (finishLoading.perform name).EndsIn s (Machine.Lends range) :=
  ends_finishLoading.mpr ⟨fun _ hspace => h.toLends.insert_same hspace rfl, fun _ => h.toLends⟩

theorem lends_forkTo (child : Nat) :
    ((forkTo child).perform name).EndsIn s (Machine.Lends range) := by
  refine ends_forkTo.mpr ⟨fun space hspace => ?_, fun _ => h.toLends⟩
  exact (AddressSpace.fork_orderly (h.spaces.get? hspace) h.memory).mono
    (fun _ _ hm => h.toLends.insert child hm.1 hm.2) (fun _ _ hm => ⟨h.distinct, hm⟩)
    (fun _ _ hm => ⟨h.distinct, hm⟩)

/-- A request to a space leaves no space with a frame that it has twice. -/
theorem perform_lends : (r.perform name).EndsIn s (Machine.Lends range) := by
  cases r with
  | create => exact h.toLends.insert name List.nodup_nil h.memory
  | release => exact lends_release h
  | abandon => exact lends_abandon h
  | addRegion a size protection => exact lends_addRegion h a size protection
  | populate => exact lends_populate h
  | finishLoading => exact lends_finishLoading h
  | forkTo child => exact lends_forkTo h child
  | layOutArguments | write | writeString => exact lends_writes h trivial
  | _ => exact lends_reads h trivial

end Lends

end SpaceRequest

/-- The request does not write the slots of the frame table as raw memory. -/
def Request.SparesSlots (m : Memory) : Request → Prop
  | .ram r => ∀ t, m.allocator.table = some t → r.Spares t
  | _ => True

namespace Machine

variable {range : PhysicalRange} {s : Machine}

/-- What one request preserves, however it ends. -/
theorem Orderly.perform (h : s.Orderly range) {request : Request}
    (hspares : request.SparesSlots s.memory) : request.perform.EndsIn s (Orderly range) := by
  have hmemory {ε : Type} {wrap : ε → MachineError} {r : Routine Memory ε Reply}
      (hr : r.EndsIn s.memory (Memory.Orderly range s.spaces.frames)) :
      (onMemory wrap r).EndsIn s (Orderly range) :=
    ends_onMemory.mpr (hr.mono fun m hm => ⟨⟨h.distinct, hm⟩, h.spaces⟩)
  by_cases hcore : request.OnCore
  · refine (request.perform_onCore hcore).mono ?_
    rintro _ ⟨core, guards, rfl⟩
    exact ⟨⟨h.distinct, h.memory⟩, h.spaces⟩
  cases request with
  | allocator r => exact hmemory (h.memory.perform_allocator r)
  | table r =>
    exact ends_table.mpr ⟨fun t ht => hmemory (h.memory.perform_table ht r), fun _ => h⟩
  | ram r => exact hmemory (h.memory.perform_ram hspares)
  | space name r =>
    exact ((SpaceRequest.perform_carries h.spaces).and (SpaceRequest.perform_lends h)).mono
      fun _ hs => ⟨hs.2, hs.1.wellFormed⟩
  | interrupts | tlb | fault => exact absurd trivial hcore

theorem AtBoot.orderly (h : s.AtBoot range) : s.Orderly range := by
  obtain ⟨ram, hcovers, hmemory, hspaces⟩ := h
  refine ⟨⟨?_, ?_⟩, ?_⟩
  · rw [hspaces]
    exact List.forall_mem_nil _
  · rw [hmemory, hspaces]
    exact Memory.orderly_new hcovers
  · rw [hspaces]
    exact Directory.wellFormed_empty

/-- The machines that are reached from one at boot by any requests that do not write the slots of the
frame table. -/
inductive Reached (range : PhysicalRange) : Machine → Prop
  | boot {s : Machine} : s.AtBoot range → Reached range s
  | step {s : Machine} {request : Request} :
    Reached range s → request.SparesSlots s.memory → Reached range (request.perform s).state

theorem Reached.orderly (h : s.Reached range) : s.Orderly range := by
  induction h with
  | boot hboot => exact hboot.orderly
  | step _ hspares ih => exact endsIn_iff.mp (ih.perform hspares)

end Machine

/-- A machine whose requests keep to the ledger is reached. -/
theorem System.Reachable.reached {range : PhysicalRange} {s : System} (h : s.Reachable range) :
    s.machine.Reached range := by
  induction h with
  | boot hboot => exact .boot hboot
  | @step s request _ hadmits ih =>
    have hspares : request.SparesSlots s.machine.memory := by
      cases request with
      | ram => exact hadmits.elim
      | _ => trivial
    exact ih.step hspares

end MipsVM
