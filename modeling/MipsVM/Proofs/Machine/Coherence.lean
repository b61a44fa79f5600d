import MipsVM.Proofs.Machine.System
import MipsVM.Proofs.Tlb.Refill

/-!
# The translation buffer and the current space

A kernel switches between spaces, serves the faults of the space that is current, and changes its
spaces in any way that does not take the current one away. At all times the buffer translates an
address only as the current space does, and after a fault was served it translates the whole page.

## Main definitions

- `Kernel`: a machine and the name of the space that is current
- `Kernel.Admits`, `Kernel.after`: what is asked of a machine, and which space is current then
- `Kernel.Reachable`: the kernels that are reached from a machine with a new core and no spaces
- `Kernel.Coherent`: the buffer agrees with the current space

## Main statements

- `Reachable.coherent`: the buffer is coherent in every reachable kernel

## Design notes

Nothing is asked of the memory: what the buffer translates depends on the descriptors of the spaces
only, and these are kept by whatever becomes of the frames. Nor is anything asked of the random
choices: the core is given any source of them.
-/

namespace MipsVM

open Routine

/-- A machine, and the name of the space that is current. -/
structure Kernel where
  machine : Machine
  current : Option Nat

namespace Kernel

variable {s : Kernel} {request : Request} {name : Nat}

/-- The requests that are made: faults are those of the current space, the name of the current
space is not taken from it, and the buffer is not accessed otherwise. -/
def Admits (s : Kernel) : Request → Prop
  | .space name r => ∀ b, s.current = some b → r.displaced name ≠ some b
  | .fault _ _ space => space = s.current
  | .tlb _ => False
  | _ => True

/-- The space that is current after a request: another one once a switch to it succeeds. -/
def currentAfter (current : Option Nat) : Request → Except (Failure MachineError) Reply → Option Nat
  | .space name .switchTo, .ok _ => some name
  | _, _ => current

/-- The kernel after a request, however it ends. -/
def after (s : Kernel) (request : Request) : Kernel :=
  ⟨(request.perform s.machine).state,
    currentAfter s.current request (request.perform s.machine).outcome⟩

/-- The kernels that are reached by requests that are admitted from a machine with a new core of at
most `2 ^ 19` slots and without spaces. -/
inductive Reachable : Kernel → Prop
  | boot {machine : Machine} {slots : Nat} {source : RandomSource} : slots ≤ 0x80000 →
    Core.new slots source = .ok machine.core → machine.spaces = .empty → Reachable ⟨machine, none⟩
  | step {s : Kernel} {request : Request} :
    Reachable s → s.Admits request → Reachable (s.after request)

/-- The buffer agrees with the current space. -/
structure Coherent (s : Kernel) : Prop where
  spaces : s.machine.spaces.WellFormed
  slots : s.machine.core.tlb.slots.size ≤ 0x80000
  current : ∀ name, s.current = some name → ∃ space, s.machine.spaces.get? name = some space ∧
    s.machine.core.tlb.Agrees space

theorem coherent_after
    (h : request.perform.Ends s.machine
      (fun reply machine => Coherent ⟨machine, currentAfter s.current request (.ok reply)⟩)
      (fun e machine => Coherent ⟨machine, currentAfter s.current request (.error (.error e))⟩)
      (fun p machine => Coherent ⟨machine, currentAfter s.current request (.error (.panic p))⟩)) :
    (s.after request).Coherent := by
  rcases h.cases with ⟨a, hout, h⟩ | ⟨e, hout, h⟩ | ⟨p, hout, h⟩ <;> rwa [after, hout]

theorem Coherent.congr (h : s.Coherent) {machine : Machine}
    (hslots : machine.core.tlb.slots = s.machine.core.tlb.slots)
    (hspaces : machine.spaces = s.machine.spaces) : Coherent ⟨machine, s.current⟩ := by
  refine ⟨by rw [hspaces]; exact h.spaces, by rw [hslots]; exact h.slots, fun b hb => ?_⟩
  obtain ⟨space, hspace, hagrees⟩ := h.current b hb
  refine ⟨space, by rw [hspaces]; exact hspace, fun e he => hagrees e ?_⟩
  rwa [hslots] at he

theorem Coherent.onMemory (h : s.Coherent) {ε α : Type} (wrap : ε → MachineError)
    (r : Routine Memory ε α) :
    (Machine.onMemory wrap r).EndsIn s.machine fun machine => Coherent ⟨machine, s.current⟩ := by
  rw [EndsIn, Machine.ends_onMemory]
  exact endsIn_of_forall fun _ => h.congr rfl rfl

/-- A request to a space that does not take the name of the current space, and is not to switch. -/
theorem Coherent.perform_space (h : s.Coherent) {r : SpaceRequest}
    (hadmits : s.Admits (.space name r)) (hr : r ≠ .switchTo) :
    (r.perform name).EndsIn s.machine fun machine => Coherent ⟨machine, s.current⟩ := by
  have hall (machine : Machine)
      (hcarries : s.machine.spaces.Carries (r.displaced name) machine.spaces)
      (hcore : machine.core = s.machine.core) : Coherent ⟨machine, s.current⟩ := by
    refine ⟨hcarries.wellFormed, ?_, fun b hb => ?_⟩
    · rw [hcore]
      exact h.slots
    · obtain ⟨space, hspace, hagrees⟩ := h.current b hb
      obtain ⟨space', hspace', hcontinues⟩ := hcarries.kept b space hspace (hadmits b hb)
      refine ⟨space', hspace', ?_⟩
      rw [hcore]
      exact hagrees.continues hcontinues
  exact ((SpaceRequest.perform_carries h.spaces).and
    (SpaceRequest.core_perform hr)).mono fun machine hm => hall machine hm.1 hm.2

/-- After a switch the buffer agrees with every space, so with the one that is current. -/
theorem Coherent.perform_switchTo (h : s.Coherent) :
    (SpaceRequest.switchTo.perform name).Ends s.machine
      (fun _ machine => Coherent ⟨machine, some name⟩)
      (fun _ machine => Coherent ⟨machine, s.current⟩)
      (fun _ machine => Coherent ⟨machine, s.current⟩) := by
  refine SpaceRequest.ends_switchTo.mpr ⟨fun space hspace => ?_, fun _ => h⟩
  refine (Core.flush_ends h.slots).mono (fun _ core hcore => ?_) (fun _ _ hno => hno.elim)
    (fun _ _ hno => hno.elim)
  obtain ⟨hsize, hunused⟩ := hcore
  have hslots := Nat.le_trans (Nat.le_of_eq hsize) h.slots
  refine ⟨h.spaces, hslots, fun b hb => ?_⟩
  obtain rfl := Option.some.inj hb
  exact ⟨space, hspace, hunused.agrees hslots⟩

/-- After a fault of the current space was served, the buffer has an entry for the page. -/
theorem Coherent.perform_fault (h : s.Coherent) (code : Nat) (a : VirtualAddress) :
    (Request.fault code a s.current).perform.Ends s.machine
      (fun _ machine => Coherent ⟨machine, s.current⟩ ∧ machine.spaces = s.machine.spaces ∧
        a.page.number < TlbEntry.firstUnusedPage ∧
          ∃ e ∈ machine.core.tlb.slots, e.hi.page = a.page)
      (fun _ machine => Coherent ⟨machine, s.current⟩)
      (fun _ machine => Coherent ⟨machine, s.current⟩) := by
  have hsame (core : Core) (hslots : core.tlb.slots = s.machine.core.tlb.slots) :
      Coherent ⟨{ s.machine with core := core }, s.current⟩ := h.congr hslots rfl
  cases hcurrent : s.current with
  | none =>
    rw [hcurrent] at hsame
    simp only [Request.perform, ends_map, Machine.ends_onCore]
    refine (Core.refillByCode_ends code a none).mono (fun _ core hcore => ?_)
      (fun _ core hcore => hsame core hcore) (fun _ core hcore => hsame core hcore)
    obtain ⟨_, _, _, hnone, -⟩ := hcore
    cases hnone
  | some name =>
    obtain ⟨space, hspace, hagrees⟩ := h.current name hcurrent
    rw [hcurrent] at hsame
    simp only [Request.perform, ends_bind, ends_pure, Machine.ends_getSpace_of_get? hspace,
      Machine.ends_onCore]
    refine (Core.refillByCode_ends code a (some space)).mono (fun _ core hcore => ?_)
      (fun _ core hcore => hsame core hcore) (fun _ core hcore => hsame core hcore)
    obtain ⟨_, frame, slot, hs, hframe, hslot, hslots⟩ := hcore
    -- only a page of the current space was entered
    obtain rfl := Option.some.inj hs
    refine ⟨⟨h.spaces, ?_, fun b hb => ?_⟩, trivial, (h.spaces.get? hspace).page_lt hframe, ?_⟩
    · rw [hslots, Array.set!_eq_setIfInBounds, Array.size_setIfInBounds]
      exact h.slots
    · obtain rfl := Option.some.inj hb
      exact ⟨space, hspace, hagrees.set (AddressSpace.agrees_entryOf hframe) hslots⟩
    · refine ⟨space.entryOf (space.regionOf a.page.base) a.page frame, ?_, rfl⟩
      rw [hslots, Array.set!_eq_setIfInBounds]
      exact Array.mem_setIfInBounds hslot

theorem Coherent.perform_interrupts (h : s.Coherent) (r : InterruptRequest) :
    r.perform.EndsIn s.machine fun machine => Coherent ⟨machine, s.current⟩ := by
  cases r with
  | state => exact h
  | enable | disable | hold => exact h.congr rfl rfl
  | release index =>
    exact ends_bind.mpr (Machine.ends_dropGuard.mpr ⟨fun _ _ => h.congr rfl rfl, fun _ => h⟩)

/-- One request keeps the buffer coherent. -/
theorem Coherent.step (h : s.Coherent) (hadmits : s.Admits request) :
    (s.after request).Coherent := by
  refine coherent_after ?_
  cases request with
  | space name r =>
    by_cases hr : r = .switchTo
    · subst hr
      exact h.perform_switchTo
    · have hcurrent (outcome : Except (Failure MachineError) Reply) :
          currentAfter s.current (.space name r) outcome = s.current := by
        cases r <;> first | rfl | exact absurd rfl hr
      simp only [hcurrent]
      exact h.perform_space hadmits hr
  | fault code a space =>
    obtain rfl : space = s.current := hadmits
    exact (h.perform_fault code a).mono (fun _ _ hm => hm.1) (fun _ _ hm => hm) (fun _ _ hm => hm)
  | interrupts r => exact h.perform_interrupts r
  | allocator r => exact h.onMemory .frame r.perform
  | ram r => exact h.onMemory id r.perform
  | table r => exact Machine.ends_table.mpr ⟨fun _ _ => h.onMemory .frame _, fun _ => h⟩
  | tlb r => exact hadmits.elim

theorem Reachable.invariant (h : Reachable s) : s.Coherent := by
  induction h with
  | boot hslots hcore hspaces =>
    refine ⟨by rw [hspaces]; exact Directory.wellFormed_empty, ?_, fun b hb => ?_⟩
    · rwa [(Core.new_eq_ok hcore).1]
    · cases hb
  | step _ hadmits ih => exact ih.step hadmits

/-- In every reachable kernel the buffer translates an address only as the current space does, and
after a fault was served it translates all addresses of the page. -/
theorem Reachable.coherent (h : Reachable s) (hcurrent : s.current = some name) :
    ∃ space, s.machine.spaces.get? name = some space ∧
      (∀ a pa, s.machine.core.tlb.translate a = some pa → space.translate a = some pa) ∧
      ∀ code a reply, ((Request.fault code a (some name)).perform s.machine).outcome = .ok reply →
        (s.after (.fault code a (some name))).machine.spaces.get? name = some space ∧
        ∀ a', a'.page = a.page → ∃ pa,
          (s.after (.fault code a (some name))).machine.core.tlb.translate a' = some pa ∧
            space.translate a' = some pa := by
  have hinv := h.invariant
  obtain ⟨space, hspace, hagrees⟩ := hinv.current name hcurrent
  refine ⟨space, hspace, fun a pa ha => hagrees.translate ha, fun code a reply hreply => ?_⟩
  have hfault := hinv.perform_fault code a
  rw [hcurrent] at hfault
  obtain ⟨hafter, hspaces, hlt, e, he, htag⟩ := hfault.value hreply
  obtain ⟨space', hspace', hagrees'⟩ := hafter.current name rfl
  have hspace'' := hspace'
  rw [hspaces, hspace, Option.some.injEq] at hspace''
  subst hspace''
  refine ⟨hspace', fun a' ha' => hagrees'.translate_eq he (htag.trans ha'.symm) ?_⟩
  rwa [ha']

/-- A kernel that has the small memory, a core with two slots and no spaces. -/
def small : Kernel :=
  let unused (number : Nat) : TlbEntry := ⟨.ofPage (.ofNumber number), .zero⟩
  ⟨.boot System.smallRam ⟨true, 0, ⟨#[unused 0x80000, unused 0x80001], .ofSeed 0⟩⟩, none⟩

/-- The same kernel after a space was given frames and made the current one. -/
def switched : Kernel :=
  small.after (.space 0 .create)
    |>.after (.space 0 (.addRegion (.ofNat 0x400000) 4096 (.ofFlags true false true)))
    |>.after (.space 0 (.addRegion (.ofNat 0x10000000) 5000 (.ofFlags true true false)))
    |>.after (.space 0 .populate)
    |>.after (.space 0 .switchTo)

theorem reachable_switched : Reachable switched := by
  have hboot : Reachable small := @Reachable.boot _ 2 (.ofSeed 0) (by decide) rfl rfl
  have hnone {b : Nat} : none ≠ some b := (Option.some_ne_none b).symm
  exact .step (.step (.step (.step (.step hboot fun _ h => absurd h hnone)
    fun _ h => absurd h hnone) fun _ h => absurd h hnone) fun _ h => absurd h hnone)
    fun _ h => absurd h hnone

/-- A load from the first segment is translated after its fault was served. -/
theorem coherent_switched :
    ∃ space pa, switched.machine.spaces.get? 0 = some space ∧
      space.translate (.ofNat 0x400123) = some pa ∧
      (switched.after (.fault 0 (.ofNat 0x400123) (some 0))).machine.core.tlb.translate
        (.ofNat 0x400123) = some pa := by
  have hcurrent : switched.current = some 0 := by decide +kernel
  obtain ⟨space, hspace, -, hfault⟩ := reachable_switched.coherent hcurrent
  have hserved : ((Request.fault 0 (.ofNat 0x400123) (some 0)).perform
      switched.machine).outcome.isOk := by decide +kernel
  cases hreply : ((Request.fault 0 (.ofNat 0x400123) (some 0)).perform
      switched.machine).outcome with
  | error e =>
    rw [hreply] at hserved
    cases hserved
  | ok reply =>
    obtain ⟨pa, htlb, hpa⟩ := (hfault _ _ reply hreply).2 (.ofNat 0x400123) rfl
    exact ⟨space, pa, hspace, hpa, htlb⟩

end Kernel

end MipsVM
