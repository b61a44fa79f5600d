import MipsVM.Proofs.Machine.System

/-!
# Copies of spaces

Once there is a table, a space that has frames is copied if as many frames are free. The copy reads
as the space does, in frames that were free before. A copy that is refused leaves no trace.

## Main definitions

- `System.Forked`: a space and its copy
- `System.Undone`: nothing has come of a request

## Main statements

- `undone_of_lacks`: nothing has come of a request for which frames were lacking
- `Reachable.forked`: a space is copied exactly if enough frames are free, and nothing is changed
  otherwise
-/

namespace MipsVM

open Routine

namespace System

variable {range : PhysicalRange} {s : System} {name child : Nat} {parent copy : AddressSpace}
  {t : ResidentTable}

/-- A space was copied, and the space and all else that was in use is as before. -/
structure Forked (s : System) (name : Nat) (parent : AddressSpace) (t : ResidentTable)
    (copy : AddressSpace) (machine : Machine) : Prop where
  /-- The copy has the same regions, and is loaded as far. -/
  regions : parent.SameRegions copy
  loaded : copy.loaded = parent.loaded
  /-- The copy reads as the space does. -/
  bytes : ∀ a pa, parent.translate a = some pa → ∃ pa', copy.translate a = some pa' ∧
    machine.memory.ram.byteAt pa'.toNat = machine.memory.ram.byteAt pa.toNat
  /-- The frames of the copy are distinct. -/
  distinct : copy.frames.Nodup
  /-- They were free frames of the table. -/
  fresh : ∀ frame ∈ copy.frames, t.first.number ≤ frame.number ∧
    frame.number < t.first.number + t.total ∧
      (t.slotAt s.machine.memory.ram (frame.number - t.first.number)).isFree
  /-- The space is as it was, and so are the bytes of all frames that were in use. -/
  parent : machine.spaces.get? name = some parent
  kept : ∀ a, Held s.inUse a → machine.memory.ram.byteAt a = s.machine.memory.ram.byteAt a

/-- The spaces and the table are as before, and so are the bytes of the slots and of all frames in
use. -/
structure Undone (s : System) (t : ResidentTable) (machine : Machine) : Prop where
  spaces : machine.spaces = s.machine.spaces
  table : machine.memory.allocator.table = some t
  slots : ∀ a, t.HasByte a → machine.memory.ram.byteAt a = s.machine.memory.ram.byteAt a
  kept : ∀ a, Held s.inUse a → machine.memory.ram.byteAt a = s.machine.memory.ram.byteAt a

/-- If frames were lacking and those that were handed out are given back, nothing has come of it. -/
theorem undone_of_lacks {runs : List Run} {wanted : Nat} {m : Memory}
    (hbooks : s.machine.memory.Books range runs) (hall : ∀ r ∈ s.inUse, r ∈ runs)
    (ht : s.machine.memory.allocator.table = some t)
    (h : s.machine.memory.Lacks range runs wanted m) :
    t.freeCount < wanted ∧ s.Undone t { s.machine with memory := m } := by
  obtain ⟨hbooks', hleaves, hfew⟩ := h
  obtain ⟨free, ht'⟩ := hleaves.table t ht
  obtain rfl := hbooks.freeCount_unique hbooks' ht ht'
  exact ⟨hfew t ht, rfl, ht', fun a ha => hbooks.slots_unique hbooks' ht ht' ha,
    fun a ha => hleaves.ram.bytes a (ha.mono hall)⟩

/-- How a request to copy a space ends. -/
theorem Sound.fork_ends (h : s.Sound range) (hspace : s.machine.spaces.get? name = some parent)
    (hb : parent.isBacked) (ht : s.machine.memory.allocator.table = some t)
    (hchild : s.machine.spaces.get? child = none) :
    (Request.space name (.forkTo child)).perform.Ends s.machine
      (fun reply machine => reply = .done ∧ parent.frameCount ≤ t.freeCount ∧
        ∃ copy, machine.spaces.get? child = some copy ∧ s.Forked name parent t copy machine)
      (fun e machine => e = .space .outOfMemory ∧ t.freeCount < parent.frameCount ∧
        s.Undone t machine)
      (fun _ _ => False) := by
  have hwf := h.spaces.get? hspace
  have hbacked := hwf.backed hb
  have hbooks := h.books_of_get? hspace
  have hall : ∀ r ∈ s.inUse, r ∈ singles parent.frames ++
      (singles (s.machine.spaces.erase name).frames ++ s.runs) :=
    fun r hr => (h.spaces.runs_perm hspace).mem_iff.mp hr
  have hne : name ≠ child := by
    rintro rfl
    exact absurd (hspace.symm.trans hchild) (Option.some_ne_none _)
  refine SpaceRequest.ends_forkTo.mpr ((Directory.forall_get?_iff hspace).mpr ?_)
  refine (AddressSpace.fork_ends_of_backed hwf hb hbooks).mono (fun copy m hm => ?_)
    (fun e m hm => ?_) (fun _ _ hno => hno)
  · obtain ⟨hsupplied, hcopied⟩ := hm
    obtain ⟨hgrants, -, hbacked', hregions, hloaded⟩ := id hsupplied
    obtain ⟨free, ht'⟩ := hgrants.leaves.table t ht
    have hcount := hgrants.freeCount_eq hbooks ht ht'
    have hframes : copy.frames.length = parent.frameCount := by
      rw [hbacked.frameCount_eq, ← hregions.pageTotal, ← hbacked'.frameCount_eq]
      rfl
    refine ⟨rfl, by omega, copy, by simp [Directory.get?_insert], hregions, hloaded, ?_, ?_, ?_,
      ?_, ?_⟩
    · intro a pa hpa
      -- the bytes were copied from what they were, and the space still has them
      obtain ⟨pa', hpa', hbyte⟩ := hregions.translate_copied hbacked hbacked' hcopied hpa
      refine ⟨pa', hpa', hbyte.trans (hgrants.leaves.ram.bytes _ ?_).symm⟩
      exact (AddressSpace.held_of_translate hpa).mono fun r hr => List.mem_append_left _ hr
    · exact nodup_of_singles hgrants.books.apart
    · exact fun frame hframe => hsupplied.isFree hbooks ht hframe
    · simp [Directory.get?_insert, hne, hspace]
    · exact fun a ha => hgrants.leaves.ram.bytes a (ha.mono hall)
  · exact ⟨congrArg _ hm.1, undone_of_lacks hbooks hall ht hm.2⟩

/-- In every reachable system with a table, a space that has frames is copied if as many frames are
free. If they are not, it is refused for want of memory and nothing is changed. -/
theorem Reachable.forked (h : Reachable range s)
    (hspace : s.machine.spaces.get? name = some parent) (hb : parent.isBacked)
    (ht : s.machine.memory.allocator.table = some t)
    (hchild : s.machine.spaces.get? child = none) :
    (parent.frameCount ≤ t.freeCount ∧
      ((Request.space name (.forkTo child)).perform s.machine).outcome = .ok .done ∧
      ∃ copy, (s.after (.space name (.forkTo child))).machine.spaces.get? child = some copy ∧
        s.Forked name parent t copy (s.after (.space name (.forkTo child))).machine) ∨
    (t.freeCount < parent.frameCount ∧
      ((Request.space name (.forkTo child)).perform s.machine).outcome =
        .error (.error (.space .outOfMemory)) ∧
      s.Undone t (s.after (.space name (.forkTo child))).machine) := by
  rcases (h.sound.fork_ends hspace hb ht hchild).cases with
    ⟨reply, hout, hends⟩ | ⟨e, hout, hends⟩ | ⟨p, hout, hno⟩
  · obtain ⟨rfl, hfree, hcopy⟩ := hends
    exact .inl ⟨hfree, hout, hcopy⟩
  · obtain ⟨rfl, hfew, hundone⟩ := hends
    exact .inr ⟨hfew, hout, hundone⟩
  · exact hno.elim

/-- In the small system the space 0 is copied to the name 1. -/
theorem forked_populated :
    ∃ parent copy t, populated.machine.spaces.get? 0 = some parent ∧
      (populated.after (.space 0 (.forkTo 1))).machine.spaces.get? 1 = some copy ∧
      populated.Forked 0 parent t copy (populated.after (.space 0 (.forkTo 1))).machine := by
  obtain ⟨parent, t, hspace, hbacked, ht, hfree, hnone⟩ := isBacked_populated
  rcases reachable_populated.forked hspace hbacked ht hnone with ⟨-, -, copy, hcopy, hforked⟩ | hfew
  · exact ⟨parent, copy, t, hspace, hcopy, hforked⟩
  · exact absurd hfew.1 (Nat.not_lt.mpr hfree)

end System

end MipsVM
