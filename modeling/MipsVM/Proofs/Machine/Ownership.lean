import MipsVM.Proofs.Machine.System

/-!
# Who owns the frames

Each frame in use has one owner, the kernel or one space, and lies in the memory that the machine
was given. Once the frame table was built it is there for good, and its slots say exactly which of
its frames are in use.

## Main definitions

- `System.framesInUse`: the frames of the spaces and of the runs of the kernel
- `System.Owned`: the frames in use have one owner each, and the table knows of them

## Main statements

- `Reachable.owned`: this holds in every reachable system
-/

namespace MipsVM

open Routine

namespace System

variable {range : PhysicalRange} {s : System}

/-- The numbers of the frames in use: those of the spaces, and those of the runs of the kernel. -/
def framesInUse (s : System) : List Nat :=
  s.inUse.flatMap Run.frames

/-- The frames in use have one owner each, and the table knows of them from when it was built. -/
structure Owned (range : PhysicalRange) (s : System) : Prop where
  /-- No frame is in use twice. -/
  distinct : s.framesInUse.Nodup
  /-- All frames in use lie in the range that was given at boot. -/
  inside : ∀ n ∈ s.framesInUse,
    range.first.toNat ≤ n * 4096 ∧ (n + 1) * 4096 ≤ range.last.toNat
  /-- No frame in use shares a byte with the slots of the table. -/
  apart : ∀ t, s.machine.memory.allocator.table = some t →
    ∀ n ∈ s.framesInUse, ∀ a, a / 4096 = n → ¬ t.HasByte a
  /-- The bytes of the slots encode what is in use: the frames of the spaces one by one, the runs of
  the kernel as wholes, and all other frames as free. -/
  encoded : ∀ t, s.machine.memory.allocator.table = some t → ∀ i < t.total,
    ∃ slot : Slot, slot.Tells s.inUse (t.first.number + i) ∧
      s.machine.memory.ram.bytesAt (t.slotsAt.toNat + 4 * i) 4 = slot.encode
  /-- The frames of the table that are not in use are those that are counted as free. -/
  counted : ∀ t, s.machine.memory.allocator.table = some t →
    t.freeCount + (s.framesInUse.filter fun n =>
      t.first.number ≤ n ∧ n < t.first.number + t.total).length = t.total
  /-- There is a table exactly when the early memory was handed over. -/
  ready : s.machine.memory.allocator.hasTable = s.machine.memory.allocator.early.handedOver
  /-- There is a table as soon as a request to build it succeeds. -/
  built : ∀ reply, ((Request.allocator .buildTable).perform s.machine).outcome = .ok reply →
    (s.after (.allocator .buildTable)).machine.memory.allocator.hasTable
  /-- The table is never lost. -/
  lasts : s.machine.memory.allocator.hasTable → ∀ request, s.Admits request →
    (s.after request).machine.memory.allocator.hasTable

theorem hasTable_after_buildTable {reply : Reply}
    (hout : ((Request.allocator .buildTable).perform s.machine).outcome = .ok reply) :
    (s.after (.allocator .buildTable)).machine.memory.allocator.hasTable := by
  have hbuild : (Request.allocator .buildTable).perform.Ends s.machine
      (fun _ machine => machine.memory.allocator.hasTable) (fun _ _ => True) fun _ _ => True :=
    Machine.ends_onMemory.mpr (ends_bind.mpr (Memory.buildTable_hasTable s.machine.memory))
  exact hbuild.value hout

theorem Sound.hasTable_after (h : s.Sound range) (ht : s.machine.memory.allocator.hasTable)
    {request : Request} (hadmits : s.Admits request) :
    (s.after request).machine.memory.allocator.hasTable := by
  obtain ⟨t, ht⟩ := Option.isSome_iff_exists.mp ht
  obtain ⟨free, ht'⟩ := (h.leaves hadmits).table t ht
  rw [PageAllocator.hasTable, ht']
  rfl

theorem mem_framesInUse {n : Nat} : n ∈ s.framesInUse ↔ ∃ r ∈ s.inUse, r.Has n := by
  simp [framesInUse]

/-- In every reachable system each frame in use has one owner, and the table says which are. -/
theorem Reachable.owned (h : Reachable range s) : s.Owned range := by
  have hbooks : s.machine.memory.Books range s.inUse := h.sound.books
  refine ⟨Run.nodup_frames hbooks.apart, fun n hn => ?_, fun t ht n hn a ha hbyte => ?_,
    fun t ht i hi => ?_, fun t ht => hbooks.freeCount_add ht, hbooks.hasTable_eq,
    fun _ => hasTable_after_buildTable, fun ht _ => h.sound.hasTable_after ht⟩
  · obtain ⟨r, hr, hlow, hhigh⟩ := mem_framesInUse.mp hn
    obtain ⟨-, hfirst, hlast⟩ := hbooks.inside r hr
    exact ⟨Nat.le_trans hfirst (Nat.mul_le_mul_right _ hlow),
      Nat.le_trans (Nat.mul_le_mul_right _ hhigh) hlast⟩
  · obtain ⟨r, hr, hhas⟩ := mem_framesInUse.mp hn
    exact hbooks.not_held_of_hasByte ht hbyte ⟨r, hr, ha ▸ hhas⟩
  · refine ⟨t.slotAt s.machine.memory.ram i, hbooks.tells ht hi, ?_⟩
    exact (Slot.encode_decode _ _ _ _).symm

/-- In the small system the kernel has a run, and the space 0 the frames that it was given. -/
theorem owned_populated : populated.runs = [⟨16, 2⟩] ∧ populated.Owned smallRam.range :=
  ⟨rfl, reachable_populated.owned⟩

end System

end MipsVM
