import MipsVM.Proofs.Frame.Building
import MipsVM.Proofs.Frame.Requests

/-!
# A table in memory and a plain one

A frame table is built in memory, and asked the same things as a new table that is held elsewhere.
However memory is written to in between, as long as the slots are spared, both give the same
answers, and the bytes of the slots in memory are those of the slots of the plain table.

## Main definitions

- `Memory.Paired`: a memory whose table was asked the same as a plain table
- `Memory.Mirrors`: what the table in memory has in common with the plain one

## Main statements

- `Paired.ram`: a request to memory that spares the slots may come in between
- `Paired.load_eq`: the slots in memory are those of the plain table
- `Paired.mirrors`: all answers are those of the plain table
-/

namespace MipsVM

open Routine

/-- The bytes of a slot are those of its word, low byte first. -/
theorem Slot.encode_eq (s : Slot) : s.encode = wordBytes s.toBits := by
  have := s.position_lt
  have hbyte {n m : Nat} (h : n % 256 = m % 256) : UInt8.ofNat n = UInt8.ofNat m := by
    rw [← UInt8.toNat_inj, UInt8.toNat_ofNat', UInt8.toNat_ofNat']
    exact h
  simp only [Slot.encode, wordBytes, Slot.toBits, List.cons.injEq, and_true]
  exact ⟨hbyte (by omega), hbyte (by omega), hbyte (by omega), hbyte (by omega)⟩

namespace Memory

variable {m : Memory} {t : ResidentTable} {plain : FrameTable}

/-- A memory since its frame table was built, and a plain table that was asked the same things since
it was new. In between memory is written to, but not the bytes of the slots. -/
inductive Paired : Memory → FrameTable → Prop
  | built {m : Memory} {t : ResidentTable} :
    (buildTable m).outcome = .ok () → (buildTable m).state.allocator.table = some t →
      Paired (buildTable m).state (.new t.total t.first)
  | request {m : Memory} {t : ResidentTable} {plain : FrameTable} (request : TableRequest) :
    Paired m plain → m.allocator.table = some t →
      Paired (onTable t request.perform m).state (request.perform plain).state
  | write {m : Memory} {t : ResidentTable} {plain : FrameTable} (ram : Ram) :
    Paired m plain → m.allocator.table = some t → m.ram.Keeps ram t.HasByte →
      Paired { m with ram := ram } plain

/-- The table in memory is the plain one, but for the place of its slots, which is in memory. -/
def HasTable (m : Memory) (plain : FrameTable) : Prop :=
  ∃ t, m.allocator.table = some t ∧ t.load m.ram = plain ∧
    m.ram.Holds t.slotsAt.toNat t.slotsStop

theorem hasTable_handedTo {p : TablePlacement} {offset : Nat}
    (h : m.ram.check p.slotsAt p.slotBytes = .ok offset) :
    (m.handedTo p).HasTable (.new p.total p.managed.page) := by
  have hholds : m.ram.Holds p.table.slotsAt.toNat p.table.slotsStop := by
    have hholds := Ram.holds_of_check h
    rwa [TablePlacement.slotBytes, Nat.mul_comm] at hholds
  have hkeeps : m.ram.Keeps (m.handedTo p).ram _ :=
    ResidentTable.keeps_store (List.length_replicate : _ = p.table.total)
  exact ⟨p.table, rfl, load_handedTo hholds, hholds.of_keeps hkeeps⟩

theorem HasTable.request (h : m.HasTable plain) (ht : m.allocator.table = some t)
    (request : TableRequest) :
    (onTable t request.perform m).state.HasTable (request.perform plain).state := by
  obtain ⟨t', ht', rfl, hholds⟩ := h
  obtain rfl : t = t' := Option.some.inj (ht.symm.trans ht')
  obtain ⟨hfirst, htotal⟩ :=
    endsIn_iff.mp (TableRequest.perform_extent (t.load m.ram) request)
  rw [ResidentTable.total_load] at htotal
  have hkeeps : m.ram.Keeps (m.withTable t (request.perform (t.load m.ram)).state).ram _ :=
    ResidentTable.keeps_store htotal
  exact ⟨_, rfl, ResidentTable.load_store _ hfirst htotal hholds, hholds.of_keeps hkeeps⟩

theorem HasTable.write (h : m.HasTable plain) (ht : m.allocator.table = some t) {ram : Ram}
    (hk : m.ram.Keeps ram t.HasByte) : HasTable { m with ram := ram } plain := by
  obtain ⟨t', ht', rfl, hholds⟩ := h
  obtain rfl : t = t' := Option.some.inj (ht.symm.trans ht')
  exact ⟨t, ht, ResidentTable.load_congr hk.bytes, hholds.of_keeps hk⟩

theorem Paired.hasTable (h : Paired m plain) : m.HasTable plain := by
  induction h with
  | @built m t hout ht =>
    obtain ⟨place, -, ⟨offset, hcheck⟩, hstate⟩ := buildTable_of_ok hout
    rw [hstate] at ht ⊢
    obtain rfl : place.table = t := Option.some.inj ht
    exact hasTable_handedTo hcheck
  | request request _ ht ih => exact ih.request ht request
  | write ram _ ht hk ih => exact ih.write ht hk

/-- What is asked of memory, sparing the slots, may come in between. -/
theorem Paired.ram {ε : Type} (h : Paired m plain) (ht : m.allocator.table = some t)
    {request : RamRequest} (hr : request.Spares t) :
    Paired ((request.perform : Routine Memory ε Reply) m).state plain := by
  obtain ⟨hsame, hk⟩ := endsIn_iff.mp (RamRequest.perform_spares (ε := ε) (m := m) hr)
  generalize ((request.perform : Routine Memory ε Reply) m).state = left at hsame hk
  obtain ⟨ram, allocator⟩ := left
  obtain rfl : allocator = m.allocator := hsame
  exact h.write ram ht hk

/-- The table in memory has the bytes and the count of the plain table, gives the same answers to
whatever is asked next, and leaves the other bytes alone. -/
structure Mirrors (m : Memory) (t : ResidentTable) (plain : FrameTable) : Prop where
  first : t.first = plain.first
  total : t.total = plain.total
  freeCount : t.freeCount = plain.freeCount
  bytes : m.ram.bytesAt t.slotsAt.toNat (4 * t.total) =
    plain.slots.flatMap fun s => wordBytes s.toBits
  outcome : ∀ request : TableRequest,
    (onTable t request.perform m).outcome = (request.perform plain).outcome
  events : ∀ request : TableRequest,
    (onTable t request.perform m).events = (request.perform plain).events
  outside : ∀ request : TableRequest,
    m.ram.Keeps (onTable t request.perform m).state.ram fun a => ¬ t.HasByte a

theorem Paired.mirrors (h : Paired m plain) :
    ∃ t, m.allocator.table = some t ∧ m.Mirrors t plain := by
  obtain ⟨t, ht, rfl, -⟩ := h.hasTable
  refine ⟨t, ht, rfl, (ResidentTable.total_load t m.ram).symm, rfl, ?_, fun _ => rfl, fun _ => rfl,
    fun request => ?_⟩
  · rw [← ResidentTable.flatMap_encode_load]
    exact List.flatMap_congr fun s _ => s.encode_eq
  · have htotal := (endsIn_iff.mp (TableRequest.perform_extent (t.load m.ram) request)).2
    rw [ResidentTable.total_load] at htotal
    exact ResidentTable.keeps_store htotal

section Small

/-- The frame table of five frames of memory: its slots take up the first of them. -/
def smallTable : ResidentTable :=
  ⟨.ofNumber 17, .ofNat 0x10000, 4, 4⟩

/-- The five frames after the table was built. -/
def small : Memory :=
  (buildTable (.new ⟨16, Array.replicate 5 .zero, by decide⟩
    ⟨.ofNat 0x10000, .ofNat 0x15000⟩)).state

/-- The five frames after a run was handed out, and the byte next to the slots was written. -/
def visited : Memory :=
  ((RamRequest.write (.ofNat 0x10010) [7]).perform (ε := FrameError)
    (onTable smallTable (TableRequest.alloc 2).perform small).state).state

theorem mirrors_visited :
    visited.allocator.table = some { smallTable with freeCount := 2 } ∧
      visited.Mirrors { smallTable with freeCount := 2 }
        ((TableRequest.alloc 2).perform (.new 4 (.ofNumber 17))).state := by
  have hbuilt : Paired small (.new 4 (.ofNumber 17)) := .built (t := smallTable) rfl rfl
  have hasked := hbuilt.request (t := smallTable) (.alloc 2) rfl
  have hspares : (RamRequest.write (.ofNat 0x10010) [7]).Spares
      { smallTable with freeCount := 2 } := fun i hi => .inl hi.2
  have hpaired := hasked.ram (ε := FrameError) rfl hspares
  obtain ⟨t, ht, hmirrors⟩ := hpaired.mirrors
  have htable : visited.allocator.table = some { smallTable with freeCount := 2 } := rfl
  obtain rfl := Option.some.inj (htable.symm.trans ht)
  exact ⟨htable, hmirrors⟩

end Small

end Memory

end MipsVM
