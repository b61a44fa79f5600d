import MipsVM.Proofs.Agreement
import MipsVM.Proofs.Frame.Resident
import MipsVM.Frame.Allocator

/-!
# Memories with the same known bytes

Two memories have the same allocator and the same bytes, but for the frames that the table manages
and that are not among some given ones. What the allocator does on both is the same, since it reads
no byte of a frame that it manages.

## Main definitions

- `Ram.Alike`: memories of the same extent with the same bytes at some addresses
- `Known`: an address outside the managed frames, or in one of the given frames
- `Memory.Alike`: the same allocator, and the same bytes at all known addresses

## Main statements

- `Ram.Alike.setFrame`: a frame is known once it was replaced
- `agree_alloc`, `agree_free`: the allocator does the same on both memories
-/

namespace MipsVM

namespace Ram

variable {ram ram' : Ram} {S S' : Nat → Prop}

/-- The other memory has the same frames, and the same bytes at the addresses in `S`. -/
structure Alike (ram ram' : Ram) (S : Nat → Prop) : Prop where
  first : ram'.first = ram.first
  size : ram'.frames.size = ram.frames.size
  bytes : ∀ a, S a → ram'.byteAt a = ram.byteAt a

theorem Alike.mono (h : ram.Alike ram' S) (hS : ∀ a, S' a → S a) : ram.Alike ram' S' :=
  ⟨h.first, h.size, fun a ha => h.bytes a (hS a ha)⟩

theorem Alike.hasFrame (h : ram.Alike ram' S) : ram'.hasFrame = ram.hasFrame :=
  hasFrame_congr h.first h.size

theorem Alike.check (h : ram.Alike ram' S) : ram'.check = ram.check := by
  funext a length
  have hbase : ram'.base = ram.base := by simp only [Ram.base, h.first]
  have hsize : ram'.size = ram.size := by rw [Ram.size, Ram.size, h.size]
  rw [Ram.check, Ram.check, hbase, hsize]

theorem hasFrame_of_check {frame : PhysicalPage} {offset : Nat}
    (h : ram.check frame.base pageSize = .ok offset) : ram.hasFrame frame.number := by
  have hbase : frame.base.toNat = frame.number * 4096 := rfl
  have hlow : ram.base.toNat = ram.first * 4096 := rfl
  have hsize : pageSize = 4096 := rfl
  unfold Ram.check Ram.size at h
  rw [hasFrame_iff]
  split at h
  · cases h
  · split at h
    · cases h
    · omega

theorem Alike.setByte (h : ram.Alike ram' S) (a : Nat) (b : UInt8) :
    (ram.setByte a b).Alike (ram'.setByte a b) S where
  first := by simp only [Ram.setByte, first_modifyFrame, h.first]
  size := by simp only [Ram.setByte, size_frames_modifyFrame, h.size]
  bytes i hi := by
    by_cases hia : i = a
    · subst hia
      by_cases hf : ram.hasFrame (i / 4096)
      · have hf' : ram'.hasFrame (i / 4096) := by rwa [h.hasFrame]
        rw [byteAt_setByte hf, byteAt_setByte hf', if_pos rfl, if_pos rfl]
      · have hf' : ¬ ram'.hasFrame (i / 4096) := by rwa [h.hasFrame]
        simp only [byteAt, Ram.setByte, frameAt_modifyFrame_of_not_hasFrame hf,
          frameAt_modifyFrame_of_not_hasFrame hf']
        exact h.bytes i hi
    · rw [byteAt_setByte_of_ne hia, byteAt_setByte_of_ne hia, h.bytes i hi]

theorem Alike.setBytes (h : ram.Alike ram' S) (a : Nat) (bytes : List UInt8) :
    (ram.setBytes a bytes).Alike (ram'.setBytes a bytes) S := by
  induction bytes generalizing ram ram' a with
  | nil => exact h
  | cons b rest ih => exact ih (h.setByte a b) (a + 1)

/-- A frame that was replaced has the same bytes in both memories. -/
theorem Alike.setFrame (h : ram.Alike ram' S) {number : Nat} (hf : ram.hasFrame number)
    (frame : Frame) :
    (ram.setFrame number frame).Alike (ram'.setFrame number frame)
      fun a => S a ∨ a / 4096 = number where
  first := by simp only [Ram.setFrame, first_modifyFrame, h.first]
  size := by simp only [Ram.setFrame, size_frames_modifyFrame, h.size]
  bytes a ha := by
    rw [byteAt_setFrame hf, byteAt_setFrame (by rw [h.hasFrame]; exact hf)]
    split
    · rfl
    · next hne => exact h.bytes a (ha.resolve_right hne)

theorem Alike.frameAt (h : ram.Alike ram' S) {number : Nat} (hS : ∀ a, a / 4096 = number → S a) :
    ram'.frameAt number = ram.frameAt number := by
  refine Vector.ext fun i hi => ?_
  have hnumber : (number * 4096 + i) / 4096 = number := by omega
  have hplace : (number * 4096 + i) % 4096 = i := by omega
  have hbyte := h.bytes (number * 4096 + i) (hS _ hnumber)
  simpa only [byteAt, hnumber, place, hplace, Fin.getElem_fin] using hbyte

theorem Alike.readFrame (h : ram.Alike ram' S) {frame : PhysicalPage}
    (hS : ∀ a, a / 4096 = frame.number → S a) : ram'.readFrame frame = ram.readFrame frame := by
  unfold Ram.readFrame
  rw [h.check, h.frameAt hS]

end Ram

/-- The byte at an address is in none of the frames that the table manages, if there is one, but the
given frames. -/
def Known (t : Option ResidentTable) (frames : List PhysicalPage) (a : Nat) : Prop :=
  ∀ t' ∈ t, t'.first.number ≤ a / 4096 → a / 4096 < t'.first.number + t'.total →
    ∃ frame ∈ frames, frame.number = a / 4096

section Known

variable {t : Option ResidentTable} {frames frames' : List PhysicalPage} {a : Nat}

theorem Known.mono (h : Known t frames a) (hsub : frames ⊆ frames') : Known t frames' a := by
  intro t' ht hlow hhigh
  obtain ⟨frame, hframe, hnumber⟩ := h t' ht hlow hhigh
  exact ⟨frame, hsub hframe, hnumber⟩

theorem known_of_mem {frame : PhysicalPage} (h : frame ∈ frames) (ha : a / 4096 = frame.number) :
    Known t frames a :=
  fun _ _ _ _ => ⟨frame, h, ha.symm⟩

theorem Known.of_cons {frame : PhysicalPage} (h : Known t (frame :: frames) a) :
    Known t frames a ∨ a / 4096 = frame.number := by
  by_cases ha : a / 4096 = frame.number
  · exact .inr ha
  · refine .inl fun t' ht hlow hhigh => ?_
    obtain ⟨other, hother, hnumber⟩ := h t' ht hlow hhigh
    rcases List.mem_cons.mp hother with rfl | hother
    · exact absurd hnumber.symm ha
    · exact ⟨other, hother, hnumber⟩

end Known

namespace Memory

open Routine

variable {ε α : Type} {t : Option ResidentTable} {frames frames' : List PhysicalPage}
  {m m' : Memory}

/-- The other memory has the same allocator. Its table is `t` but for the count of free frames, and
lies below the frames that it manages; or there is none. All bytes are the same but those of managed
frames that are not among the given ones. -/
structure Alike (t : Option ResidentTable) (frames : List PhysicalPage) (m m' : Memory) :
    Prop where
  ram : m.ram.Alike m'.ram (Known t frames)
  allocator : m'.allocator = m.allocator
  table : ∃ free, m.allocator.table = t.map fun t' => { t' with freeCount := free }
  below : ∀ t' ∈ t, t'.slotsStop ≤ t'.first.number * 4096

theorem Alike.mono (h : Alike t frames m m') (hsub : frames' ⊆ frames) : Alike t frames' m m' :=
  ⟨h.ram.mono fun _ ha => ha.mono hsub, h.allocator, h.table, h.below⟩

/-- The slots of the table, if there is one, lie below the frames that it manages. -/
def TableBelow (m : Memory) : Prop :=
  ∀ t ∈ m.allocator.table, t.slotsStop ≤ t.first.number * 4096

theorem Alike.tableBelow (h : Alike t frames m m') : m.TableBelow := by
  intro t' ht'
  obtain ⟨free, htable⟩ := h.table
  rw [htable, Option.mem_def, Option.map_eq_some_iff] at ht'
  obtain ⟨t₀, ht₀, rfl⟩ := ht'
  exact h.below t₀ ht₀

theorem alike_self (h : m.TableBelow) (frames : List PhysicalPage) :
    Alike m.allocator.table frames m m := by
  refine ⟨⟨rfl, rfl, fun _ _ => rfl⟩, rfl, ?_, h⟩
  cases m.allocator.table with
  | none => exact ⟨0, rfl⟩
  | some t => exact ⟨t.freeCount, rfl⟩

theorem agree_onTable {t' : ResidentTable} (h : Alike t frames m m')
    (ht : m.allocator.table = some t') (q : Routine FrameTable ε α) :
    (onTable t' q).Agree m m' (fun _ => Alike t frames) (Alike t frames) := by
  obtain ⟨free, htable⟩ := h.table
  obtain ⟨t, rfl, rfl⟩ := Option.map_eq_some_iff.mp (htable.symm.trans ht)
  have hload : ({ t with freeCount := free } : ResidentTable).load m'.ram =
      ({ t with freeCount := free } : ResidentTable).load m.ram := by
    refine ResidentTable.load_congr fun a ha => h.ram.bytes a fun t' ht' hlow _ => ?_
    -- the slots lie below the managed frames
    obtain rfl := Option.some.inj ht'
    have hbelow := h.below t rfl
    have hstop : a < t.slotsStop := ha.2
    omega
  have hstore (left : FrameTable) :
      Alike (some t) frames
        ⟨({ t with freeCount := free } : ResidentTable).store m.ram left.slots,
          { m.allocator with table := some { t with freeCount := left.freeCount } }⟩
        ⟨({ t with freeCount := free } : ResidentTable).store m'.ram left.slots,
          { m'.allocator with table := some { t with freeCount := left.freeCount } }⟩ :=
    ⟨h.ram.setBytes _ _, by rw [h.allocator], ⟨left.freeCount, rfl⟩, h.below⟩
  unfold Agree onTable
  rw [hload]
  rcases q (({ t with freeCount := free } : ResidentTable).load m.ram) with ⟨e | a, left, events⟩
  · exact .failure (hstore left)
  · exact .value (hstore left)

theorem agree_takeEarly (h : Alike t frames m m') (count : Nat) :
    (takeEarly count).Agree m m' (fun _ => Alike t frames) (Alike t frames) := by
  have htake (early : EarlyMemory) : Alike t frames
      { m with allocator := { m.allocator with early := early } }
      { m' with allocator := { m.allocator with early := early } } :=
    ⟨h.ram, rfl, h.table, h.below⟩
  rw [takeEarly, onEarly]
  refine Agree.within ?_
  rw [h.allocator]
  exact agree_self (ends_of_forall (fun _ => htake) (fun _ => htake) fun _ => htake)

theorem agree_alloc (h : Alike t frames m m') (count : Nat) :
    (alloc count).Agree m m' (fun _ => Alike t frames) (Alike t frames) := by
  cases ht : m.allocator.table with
  | none =>
    refine (agree_congr ?_ ?_).mpr (agree_takeEarly h count)
    · rw [alloc, ht]
    · rw [alloc, h.allocator, ht]
  | some t' =>
    refine (agree_congr ?_ ?_).mpr (agree_onTable h ht (FrameTable.alloc count))
    · rw [alloc, ht]
    · rw [alloc, h.allocator, ht]

theorem agree_free (h : Alike t frames m m') (frame : PhysicalPage) :
    (free frame).Agree m m' (fun _ => Alike t frames) (Alike t frames) := by
  unfold Agree Memory.free
  rw [h.allocator]
  cases ht : m.allocator.table with
  | none => exact .failure h
  | some t' => exact agree_onTable h ht (FrameTable.free frame >>= fun _ => pure ())

section Accesses

variable {Q : Unit → Memory → Memory → Prop} {E : Memory → Memory → Prop}

theorem agree_inspect {f : Ram → Except Panic α} (h : E m m') (hf : f m'.ram = f m.ram) :
    (inspect f : Routine Memory ε α).Agree m m' (fun _ => E) E := by
  unfold Agree inspect
  rw [hf]
  cases f m.ram with
  | ok a => exact .value h
  | error p => exact .failure h

/-- To blank a frame makes it known. -/
theorem agree_blankFrame (h : Alike t frames m m') (frame : PhysicalPage) :
    (access (·.blankFrame frame) : Routine Memory ε Unit).Agree m m'
      (fun _ => Alike t (frame :: frames)) (Alike t frames) := by
  unfold Agree access Ram.blankFrame
  simp only [h.ram.check]
  cases hcheck : m.ram.check frame.base pageSize with
  | error p => exact .failure h
  | ok offset =>
    refine .value ⟨?_, h.allocator, h.table, h.below⟩
    exact (h.ram.setFrame (Ram.hasFrame_of_check hcheck) .zero).mono fun _ => Known.of_cons

theorem agree_duplicateFrame (h : Alike t frames m m') {target source : PhysicalPage}
    (hsource : source ∈ frames) :
    (access (·.duplicateFrame target source) : Routine Memory ε Unit).Agree m m'
      (fun _ => Alike t frames) (Alike t frames) := by
  have hread := h.ram.readFrame fun a ha => known_of_mem hsource ha
  unfold Agree access Ram.duplicateFrame
  simp only [hread, h.ram.check]
  by_cases hne : target = source
  · rw [if_pos hne, if_pos hne]
    exact .failure h
  · rw [if_neg hne, if_neg hne]
    cases m.ram.readFrame source with
    | error p => exact .failure h
    | ok bytes =>
      cases hcheck : m.ram.check target.base pageSize with
      | error p => exact .failure h
      | ok offset =>
        refine .value ⟨?_, h.allocator, h.table, h.below⟩
        exact (h.ram.setFrame (Ram.hasFrame_of_check hcheck) bytes).mono fun _ => .inl

theorem agree_write (h : Alike t frames m m') (a : PhysicalAddress) (bytes : List UInt8) :
    (access (·.write a bytes) : Routine Memory ε Unit).Agree m m'
      (fun _ => Alike t frames) (Alike t frames) := by
  unfold Agree access Ram.write
  simp only [h.ram.check]
  cases m.ram.check a bytes.length with
  | error p => exact .failure h
  | ok offset => exact .value ⟨h.ram.setBytes _ _, h.allocator, h.table, h.below⟩

end Accesses

end Memory

end MipsVM
