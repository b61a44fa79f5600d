import MipsVM.Proofs.Machine.Step

/-!
# Runs of a machine

A machine is run together with a ledger of the runs of frames that the kernel was given and has not
given back. The kernel gives back only what is in the ledger. In all states that are reached the
books hold of the frames of the spaces and the runs of the ledger.

## Main definitions

- `System`: a machine and the ledger
- `System.Admits`, `System.after`: what is asked of a machine, and what it does to the ledger
- `System.Reachable`: the systems that are reached from a machine at boot

## Main statements

- `Sound.leaves`: a table that is there stays
- `Reachable.sound`: the books hold in every reachable system

## Design notes

A name is given to a new space only if no space has it, since the frames of a space that loses its
name could no longer be given back. Raw accesses to memory, to the table and to the translation
buffer are not admitted.
-/

namespace MipsVM

open Routine

/-- The machine has a range of memory of which nothing was handed out, and no spaces. -/
def Machine.AtBoot (s : Machine) (range : PhysicalRange) : Prop :=
  ∃ ram : Ram, ram.Covers range ∧ s.memory = .new ram range ∧ s.spaces = .empty

/-- A machine that is about to hand out the whole of a memory. -/
def Machine.boot (ram : Ram) (core : Core) : Machine :=
  ⟨.new ram ram.range, core, [], .empty⟩

theorem Machine.atBoot_boot (ram : Ram) (core : Core) : (boot ram core).AtBoot ram.range :=
  ⟨ram, ram.covers_range, rfl, rfl⟩

/-- A machine, and the runs that the kernel was given and has not given back. -/
structure System where
  machine : Machine
  runs : List Run

namespace System

variable {range : PhysicalRange} {s : System} {request : Request}

/-- The requests that are made: a run is given back only if the kernel has it, and no space is lost
with its frames. -/
def Admits (s : System) : Request → Prop
  | .allocator .buildTable | .allocator (.alloc _) | .fault .. => True
  | .allocator (.free a) => ∃ r ∈ s.runs, r.first = a.page.number
  | .space name r => r.Proper s.machine.spaces name
  | _ => False

/-- The ledger after a request. A run that is refused when it is given back stays in it. -/
def ledger (runs : List Run) : Request → Except (Failure MachineError) Reply → List Run
  | .allocator (.alloc count), .ok (.frame (some frame)) => ⟨frame.number, count⟩ :: runs
  | .allocator (.free a), .ok _ => runs.eraseP (·.first = a.page.number)
  | _, _ => runs

/-- The system after a request, however it ends. -/
def after (s : System) (request : Request) : System :=
  ⟨(request.perform s.machine).state, ledger s.runs request (request.perform s.machine).outcome⟩

/-- The systems that are reached from a machine at boot by requests that are admitted. -/
inductive Reachable (range : PhysicalRange) : System → Prop
  | boot {machine : Machine} : machine.AtBoot range → Reachable range ⟨machine, []⟩
  | step {s : System} {request : Request} :
    Reachable range s → s.Admits request → Reachable range (s.after request)

/-- All runs in use: the frames of the spaces one by one, and the runs of the ledger. -/
def inUse (s : System) : List Run :=
  singles s.machine.spaces.frames ++ s.runs

/-- The books hold of what is in use. -/
def Sound (range : PhysicalRange) (s : System) : Prop :=
  s.machine.Sound range s.runs

theorem sound_of_atBoot {machine : Machine} (h : machine.AtBoot range) :
    Sound range ⟨machine, []⟩ := by
  obtain ⟨ram, hcovers, hmemory, hspaces⟩ := h
  refine ⟨by rw [hspaces]; exact Directory.wellFormed_empty, ?_⟩
  rw [hmemory, hspaces]
  refine ⟨hcovers, List.Pairwise.nil, List.forall_mem_nil _, fun _ => ?_, fun t ht => ?_⟩
  · exact ⟨rfl, Bool.false_ne_true, Nat.le_refl _, List.forall_mem_nil _⟩
  · cases ht

theorem sound_after
    (h : request.perform.Ends s.machine
      (fun reply machine => Sound range ⟨machine, ledger s.runs request (.ok reply)⟩)
      (fun e machine => Sound range ⟨machine, ledger s.runs request (.error (.error e))⟩)
      (fun p machine => Sound range ⟨machine, ledger s.runs request (.error (.panic p))⟩)) :
    Sound range (s.after request) := by
  rcases h.cases with ⟨a, hout, h⟩ | ⟨e, hout, h⟩ | ⟨p, hout, h⟩ <;> rwa [after, hout]

theorem Sound.withMemory (h : s.Sound range) {m : Memory} {runs : List Run}
    (hbooks : m.Books range (singles s.machine.spaces.frames ++ runs)) :
    Sound range ⟨{ s.machine with memory := m }, runs⟩ :=
  ⟨h.spaces, hbooks⟩

theorem Sound.after_buildTable (h : s.Sound range) :
    (s.after (.allocator .buildTable)).Sound range := by
  apply sound_after
  refine Machine.ends_onMemory.mpr (ends_bind.mpr ?_)
  refine (Memory.buildTable_ends h.books).mono (fun _ _ hm => h.withMemory hm.1) (fun _ m hm => ?_)
    (fun _ _ hno => hno.elim)
  rw [hm]
  exact h.withMemory h.books

theorem Sound.after_alloc (h : s.Sound range) (count : Nat) :
    (s.after (.allocator (.alloc count))).Sound range := by
  apply sound_after
  refine Machine.ends_onMemory.mpr (ends_bind.mpr ?_)
  exact (Memory.alloc_ends h.books count).mono
    (fun _ _ hm => h.withMemory (hm.1.perm List.perm_middle.symm))
    (fun _ _ hm => h.withMemory hm.1) (fun _ _ hno => hno.elim)

theorem Sound.after_free (h : s.Sound range) {a : PhysicalAddress}
    (hlent : ∃ r ∈ s.runs, r.first = a.page.number) :
    (s.after (.allocator (.free a))).Sound range := by
  -- what is erased from the ledger is the run that the allocator takes back
  obtain ⟨r, hr, hfirst⟩ := hlent
  obtain ⟨found, hfound, hperm⟩ := Run.exists_perm_eraseP hr hfirst
  have hperm : s.inUse.Perm (found :: (singles s.machine.spaces.frames ++
      s.runs.eraseP (·.first = a.page.number))) :=
    (hperm.append_left _).trans List.perm_middle
  apply sound_after
  refine Machine.ends_onMemory.mpr (ends_bind.mpr ?_)
  exact (Memory.free_ends (h.books.perm hperm) hfound.symm).mono
    (fun _ _ hm => h.withMemory hm.1) (fun _ _ hm => h.withMemory (hm.1.perm hperm.symm))
    (fun _ _ hm => h.withMemory (hm.1.perm hperm.symm))

theorem Sound.after_space (h : s.Sound range) {name : Nat} {r : SpaceRequest}
    (hproper : r.Proper s.machine.spaces name) : (s.after (.space name r)).Sound range := by
  apply sound_after
  show (r.perform name).EndsIn s.machine fun machine => Sound range ⟨machine, s.runs⟩
  refine ((SpaceRequest.perform_carries h.spaces).and
    (SpaceRequest.perform_follows h hproper)).mono ?_
  exact fun _ hs => ⟨hs.1.wellFormed, hs.2.books⟩

theorem Sound.after_fault (h : s.Sound range) (code : Nat) (a : VirtualAddress)
    (space : Option Nat) : (s.after (.fault code a space)).Sound range := by
  apply sound_after
  show (Request.fault code a space).perform.EndsIn s.machine fun machine =>
    Sound range ⟨machine, s.runs⟩
  refine ((Request.fault code a space).perform_onCore trivial).mono ?_
  rintro _ ⟨core, guards, rfl⟩
  exact ⟨h.spaces, h.books⟩

/-- One request keeps the books. -/
theorem Sound.step (h : s.Sound range) (hadmits : s.Admits request) :
    (s.after request).Sound range := by
  cases request with
  | allocator r =>
    cases r with
    | buildTable => exact h.after_buildTable
    | alloc count => exact h.after_alloc count
    | free a => exact h.after_free hadmits
    | _ => exact hadmits.elim
  | space name r => exact h.after_space hadmits
  | fault code a space => exact h.after_fault code a space
  | _ => exact hadmits.elim

/-- However a request ends, the table is the same but for its slots and its count of free frames. -/
theorem Sound.leaves (h : s.Sound range) (hadmits : s.Admits request) :
    s.machine.memory.Leaves (s.after request).machine.memory [] := by
  refine (endsIn_iff (R := fun machine : Machine =>
    s.machine.memory.Leaves machine.memory [])).mp ?_
  cases request with
  | allocator r =>
    exact Machine.ends_onMemory.mpr ((AllocatorRequest.perform_leaves h.books r).mono
      fun _ hm => hm.mono (by simp))
  | space name r =>
    exact (SpaceRequest.perform_follows h hadmits).mono fun _ hm => hm.leaves.mono (by simp)
  | fault code a target =>
    refine ((Request.fault code a target).perform_onCore trivial).mono ?_
    rintro _ ⟨core, guards, rfl⟩
    exact .refl
  | _ => exact hadmits.elim

theorem Reachable.sound (h : Reachable range s) : s.Sound range := by
  induction h with
  | boot hboot => exact sound_of_atBoot hboot
  | step _ hadmits ih => exact ih.step hadmits

/-- Once there is a table, a space with two segments is given frames if enough of them are free. -/
theorem Sound.populate_of_le (h : s.Sound range) {name : Nat} {space : AddressSpace}
    {first second : Segment} {t : ResidentTable} (hspace : s.machine.spaces.get? name = some space)
    (h₁ : space.segment1 = some first) (h₂ : space.segment2 = some second)
    (hb : ¬ space.isBacked) (ht : s.machine.memory.allocator.table = some t)
    (hfree : space.pageTotal ≤ t.freeCount) :
    ∃ backed free, backed.isBacked ∧ backed.frameCount = space.pageTotal ∧
      t.freeCount = free + space.pageTotal ∧
      (s.after (.space name .populate)).machine.spaces = s.machine.spaces.insert name backed ∧
      (s.after (.space name .populate)).machine.memory.allocator.table =
        some { t with freeCount := free } := by
  refine (endsIn_iff (R := fun machine : Machine => ∃ (backed : AddressSpace) (free : Nat),
    backed.isBacked ∧ backed.frameCount = space.pageTotal ∧ t.freeCount = free + space.pageTotal ∧
    machine.spaces = s.machine.spaces.insert name backed ∧
    machine.memory.allocator.table = some { t with freeCount := free })).mp ?_
  refine SpaceRequest.ends_populate.mpr ((Directory.forall_get?_iff hspace).mpr ?_)
  refine (AddressSpace.populate_ends_of_bare (h.spaces.get? hspace) h.books h₁ h₂ hb).mono
    (fun backed m hm => ?_) (fun _ _ hm => ?_) (fun _ _ hno => hno.elim)
  · obtain ⟨⟨hgrants, hfilled⟩, -⟩ := hm
    obtain ⟨free, ht'⟩ := hgrants.leaves.table t ht
    have hcount : backed.frameCount = space.pageTotal := by
      rw [hfilled.backed.frameCount_eq, hfilled.regions.pageTotal]
    have hbalance := hgrants.freeCount_eq h.books ht ht'
    exact ⟨backed, free, hfilled.backed.isBacked, hcount, by rw [hbalance, ← hcount]; rfl, rfl, ht'⟩
  · exact absurd (hm.2.few t ht) (Nat.not_lt.mpr hfree)

section Small

/-- Memory of 64 frames. -/
def smallRam : Ram :=
  ⟨16, Array.replicate 64 .zero, by decide⟩

/-- A system that has this memory and a core. -/
def small : System :=
  ⟨.boot smallRam ⟨true, 0, ⟨#[], .ofSeed 0⟩⟩, []⟩

/-- The same system when the kernel has a run of two early frames and the space 0 has two segments,
but no frames. -/
def segmented : System :=
  small.after (.allocator (.alloc 2))
    |>.after (.allocator .buildTable)
    |>.after (.space 0 .create)
    |>.after (.space 0 (.addRegion (.ofNat 0x400000) 4096 (.ofFlags true false true)))
    |>.after (.space 0 (.addRegion (.ofNat 0x10000000) 5000 (.ofFlags true true false)))

/-- The same system after the space was given its frames. -/
def populated : System :=
  segmented.after (.space 0 .populate)

theorem reachable_segmented : Reachable smallRam.range segmented := by
  have hcreate : ((small.after (.allocator (.alloc 2))).after (.allocator .buildTable)).Admits
      (.space 0 .create) := rfl
  exact .step (.step (.step (.step (.step (.boot (Machine.atBoot_boot _ _)) trivial) trivial)
    hcreate) trivial) trivial

theorem reachable_populated : Reachable smallRam.range populated :=
  reachable_segmented.step trivial

theorem table_segmented : segmented.machine.memory.allocator.table =
    some ⟨.ofNumber 19, .ofNat 0x12000, 61, 61⟩ := rfl

theorem get?_segmented : segmented.machine.spaces.get? 0 =
    some ⟨some ⟨.ofNumber 0x400, 1, .ofFlags true false true, []⟩,
      some ⟨.ofNumber 0x10000, 2, .ofFlags true true false, []⟩, [], false⟩ := rfl

/-- The space 0 of the small system has frames, as many are free, and there is no space 1. -/
theorem isBacked_populated :
    ∃ space t, populated.machine.spaces.get? 0 = some space ∧ space.isBacked ∧
      populated.machine.memory.allocator.table = some t ∧ space.frameCount ≤ t.freeCount ∧
      populated.machine.spaces.get? 1 = none := by
  have hnone : segmented.machine.spaces.get? 1 = none := rfl
  obtain ⟨space, free, hbacked, hcount, hfree, hspaces, ht⟩ :=
    reachable_segmented.sound.populate_of_le get?_segmented rfl rfl (by decide) table_segmented
      (by decide)
  unfold populated
  rw [hspaces]
  refine ⟨space, _, by simp [Directory.get?_insert], hbacked, ht, ?_, ?_⟩
  · have htotal : space.frameCount = 15 := hcount
    have hfree : 61 = free + 15 := hfree
    show space.frameCount ≤ free
    omega
  · rw [Directory.get?_insert, if_neg (by decide), hnone]

end Small

end System

end MipsVM
