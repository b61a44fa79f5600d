import MipsVM.Proofs.Frame.Building

/-!
# From the early memory to the frame table

Whatever the range of the allocator, and whatever is asked of it: the table is there exactly if the
early memory was handed over, it is built once, a table that was laid is put in charge, and nothing
that the early memory has handed out comes back to it.

## Main definitions

- `Startup`: a memory since boot, with what was handed out early, and `Startup.Reachable`
- `Startup.Waiting`, `Startup.Serving`: before there is a table, and from then on
- `Startup.Outside`: the pages that the table must leave alone
- `Startup.HandsOver`: what holds of the two sources of frames

## Main statements

- `Waiting.build`, `Waiting.alloc`, `Waiting.free` and those of `Serving`: one step
- `Reachable.handsOver`: what holds after any steps

## Design notes

Nothing is said of the range: it may be unaligned, inverted, or outside the memory. The books of the
allocator cannot be used here, since they are those of a range that memory covers.
-/

namespace MipsVM

open Routine

/-- A memory since boot, the runs that were taken off its early memory, and the number of times that
a table was built. -/
structure Startup where
  memory : Memory
  early : List Run
  built : Nat

namespace Startup

variable {s : Startup} {t : ResidentTable}

/-- The next state once the table was to be built. -/
def build (s : Startup) : Startup where
  memory := (Memory.buildTable s.memory).state
  early := s.early
  built :=
    match (Memory.buildTable s.memory).outcome with
    | .ok _ => s.built + 1
    | .error _ => s.built

/-- The next state once a run was asked for. -/
def alloc (s : Startup) (count : Nat) : Startup where
  memory := (Memory.alloc count s.memory).state
  early :=
    match s.memory.allocator.table, (Memory.alloc count s.memory).outcome with
    | none, .ok frame => ⟨frame.number, count⟩ :: s.early
    | _, _ => s.early
  built := s.built

/-- The next state once a run was to be taken back. -/
def free (s : Startup) (frame : PhysicalPage) : Startup where
  memory := (Memory.free frame s.memory).state
  early := s.early
  built := s.built

/-- What is reached from boot, on a memory and with a range. -/
inductive Reachable (ram : Ram) (range : PhysicalRange) : Startup → Prop
  | boot : Reachable ram range ⟨.new ram range, [], 0⟩
  | build {s : Startup} : Reachable ram range s → Reachable ram range s.build
  | alloc {s : Startup} (count : Nat) :
    Reachable ram range s → Reachable ram range (s.alloc count)
  | free {s : Startup} (frame : PhysicalPage) :
    Reachable ram range s → Reachable ram range (s.free frame)

/-- There is no table yet, and what was handed out lies below what is left. -/
structure Waiting (s : Startup) : Prop where
  table : s.memory.allocator.table = none
  early : s.memory.allocator.early.handedOver = false
  built : s.built = 0
  below : ∀ r ∈ s.early, r.stop * 4096 ≤ s.memory.allocator.early.next.toNat

/-- There is a table, and what was handed out before lies below its frames, as do its slots. -/
structure Serving (s : Startup) (t : ResidentTable) : Prop where
  table : s.memory.allocator.table = some t
  early : s.memory.allocator.early.handedOver = true
  built : s.built = 1
  slots : t.slotsStop ≤ t.first.number * 4096
  below : ∀ r ∈ s.early, r.stop ≤ t.first.number

section Steps

theorem Waiting.alloc (h : s.Waiting) (count : Nat) : (s.alloc count).Waiting := by
  obtain ⟨ht, hover, hbuilt, hbelow⟩ := h
  have halloc := (Memory.alloc_of_early ht count).trans (Memory.takeEarly_apply count s.memory)
  have htake := EarlyMemory.take_ends s.memory.allocator.early count
  simp only [Startup.alloc, ht, halloc]
  generalize hending : EarlyMemory.take count s.memory.allocator.early = ending
  rcases htake.cases with ⟨page, hout, hleft⟩ | ⟨e, hout, hleft⟩ | ⟨-, -, hno⟩
  · rw [hending] at hout hleft
    obtain ⟨-, hlow, hstop, -, -, hsame⟩ := hleft
    simp only [hout]
    refine ⟨rfl, hsame.trans hover, hbuilt, ?_⟩
    refine List.forall_mem_cons.mpr ⟨Nat.le_of_eq hstop, fun r hr => ?_⟩
    have hr := hbelow r hr
    dsimp only
    omega
  · rw [hending] at hout hleft
    simp only [hout, hleft]
    exact ⟨rfl, hover, hbuilt, hbelow⟩
  · exact hno.elim

theorem Waiting.free (h : s.Waiting) (frame : PhysicalPage) : (s.free frame).Waiting := by
  have hsame : s.free frame = s := by
    rw [Startup.free, Memory.free_of_early h.table]
    rfl
  rwa [hsame]

theorem build_of_error {e : Failure FrameError}
    (hready : s.memory.allocator.hasTable = s.memory.allocator.early.handedOver)
    (h : (Memory.buildTable s.memory).outcome = .error e) : s.build = s := by
  simp only [Startup.build, h, Memory.buildTable_of_error hready h]

theorem Waiting.ready (h : s.Waiting) :
    s.memory.allocator.hasTable = s.memory.allocator.early.handedOver := by
  rw [PageAllocator.hasTable, h.table, h.early]
  rfl

theorem Waiting.build (h : s.Waiting) : s.build.Waiting ∨ ∃ t, s.build.Serving t := by
  cases hout : (Memory.buildTable s.memory).outcome with
  | error e =>
    rw [build_of_error h.ready hout]
    exact .inl h
  | ok =>
    obtain ⟨-, -, hbuilt, hbelow⟩ := h
    obtain ⟨place, hplace, -, hstate⟩ := Memory.buildTable_of_ok hout
    have hwithin := within_of_ofRange? hplace
    have hslots := hwithin.slotsStop_le
    simp only [Startup.build, hout, hstate, hbuilt]
    refine .inr ⟨place.table, rfl, rfl, rfl, hslots, fun r hr => ?_⟩
    -- what was handed out, what is left, the slots and the frames follow one another
    have hlow : s.memory.allocator.early.next.toNat ≤ place.table.slotsAt.toNat := hwithin.first
    have hr := hbelow r hr
    unfold ResidentTable.slotsStop at hslots
    omega

theorem Serving.onTable {ε α : Type} (h : s.Serving t) (q : Routine FrameTable ε α) :
    ∃ t', Serving ⟨(Memory.onTable t q s.memory).state, s.early, s.built⟩ t' :=
  ⟨_, rfl, h.early, h.built, h.slots, h.below⟩

theorem Serving.alloc (h : s.Serving t) (count : Nat) : ∃ t', (s.alloc count).Serving t' := by
  have hnext : s.alloc count =
      ⟨(Memory.onTable t (FrameTable.alloc count) s.memory).state, s.early, s.built⟩ := by
    simp only [Startup.alloc, Memory.alloc_of_table h.table, h.table]
  rw [hnext]
  exact h.onTable _

theorem Serving.free (h : s.Serving t) (frame : PhysicalPage) :
    ∃ t', (s.free frame).Serving t' := by
  rw [Startup.free, Memory.free_of_table h.table]
  exact h.onTable _

theorem Serving.ready (h : s.Serving t) :
    s.memory.allocator.hasTable = s.memory.allocator.early.handedOver := by
  rw [PageAllocator.hasTable, h.table, h.early]
  rfl

theorem Serving.build (h : s.Serving t) : s.build.Serving t := by
  have hout : (Memory.buildTable s.memory).outcome = .error (.error .nothingToManage) := by
    rw [Memory.buildTable_of_handedOver h.early]
    rfl
  rwa [build_of_error h.ready hout]

theorem Reachable.cases {ram : Ram} {range : PhysicalRange} (h : Reachable ram range s) :
    s.Waiting ∨ ∃ t, s.Serving t := by
  induction h with
  | boot => exact .inl ⟨rfl, rfl, rfl, List.forall_mem_nil _⟩
  | build _ ih =>
    rcases ih with hw | ⟨t, hs⟩
    · exact hw.build
    · exact .inr ⟨t, hs.build⟩
  | alloc count _ ih =>
    rcases ih with hw | ⟨t, hs⟩
    · exact .inl (hw.alloc count)
    · exact .inr (hs.alloc count)
  | free frame _ ih =>
    rcases ih with hw | ⟨t, hs⟩
    · exact .inl (hw.free frame)
    · exact .inr (hs.free frame)

end Steps

/-- The pages that the table must leave alone: those of the runs that were handed out before, and
those with a byte of its slots. -/
def Outside (s : Startup) (t : ResidentTable) (n : Nat) : Prop :=
  (∃ r ∈ s.early, r.Has n) ∨ ∃ a, t.HasByte a ∧ a / 4096 = n

theorem Serving.lt_of_outside (h : s.Serving t) {n : Nat} (hn : s.Outside t n) :
    n < t.first.number := by
  have hslots := h.slots
  rcases hn with ⟨r, hr, hn⟩ | ⟨a, ha, rfl⟩
  · exact Nat.lt_of_lt_of_le hn.2 (h.below r hr)
  · have hlt := ha.2
    omega

theorem Serving.free_eq (h : s.Serving t) {page : PhysicalPage} (hn : s.Outside t page.number) :
    Memory.free page s.memory =
      .error (.unmanaged page.base) s.memory [.freeOfUnmanaged page.base] := by
  have hlt : page.number < (t.load s.memory.ram).first.number := h.lt_of_outside hn
  have hfree := FrameTable.free_of_lt hlt
  have hbind : (FrameTable.free page >>= fun _ => pure ()) (t.load s.memory.ram) =
      .error (.unmanaged page.base) (t.load s.memory.ram) [.freeOfUnmanaged page.base] :=
    bind_of_error hfree
  rw [Memory.free_of_table h.table, Memory.onTable_apply, hbind]
  -- the slots are written back as they were read
  exact congrArg (Ending.error _ · _) (Memory.withTable_load h.table)

theorem Serving.first_le (h : s.Serving t) {count : Nat} {frame : PhysicalPage}
    (ha : (Memory.alloc count s.memory).outcome = .ok frame) : t.first.number ≤ frame.number := by
  rw [Memory.alloc_of_table h.table, Memory.onTable_apply] at ha
  obtain ⟨start, -, -, -, -, hframe, -⟩ := FrameTable.alloc_of_ok ha
  rw [hframe]
  exact Nat.le_add_right _ _

/-- What holds of the two sources of frames. -/
structure HandsOver (s : Startup) : Prop where
  ready : s.memory.allocator.hasTable = s.memory.allocator.early.handedOver
  /-- A table that was laid is put in charge: there is no other one that it would find there. -/
  taken : s.memory.allocator.early.handedOver = false →
    ∀ t, (Memory.layTable s.memory.allocator.early.rest s.memory).outcome = .ok t →
      (Memory.buildTable s.memory).outcome = .ok ()
  found : ∀ count, (Memory.alloc count s.memory).outcome ≠ .error (.error .nothingToManage)
  once : s.built ≤ 1
  refused : ∀ e, (Memory.buildTable s.memory).outcome = .error e →
    (Memory.buildTable s.memory).state = s.memory
  outside : ∀ t, s.memory.allocator.table = some t →
    ∀ page : PhysicalPage, s.Outside t page.number →
      Memory.free page s.memory =
          .error (.unmanaged page.base) s.memory [.freeOfUnmanaged page.base] ∧
        ∀ count frame, (Memory.alloc count s.memory).outcome = .ok frame →
          ¬ (⟨frame.number, count⟩ : Run).Has page.number

theorem handsOver_of_waiting (h : s.Waiting) : s.HandsOver where
  ready := h.ready
  taken hover _ hlay :=
    Memory.buildTable_of_layTable h.ready (Bool.eq_false_iff.mp hover) hlay
  found count hno := by
    rw [Memory.alloc_of_early h.table] at hno
    rw [Memory.takeEarly_apply] at hno
    dsimp only [EarlyMemory.take] at hno
    rw [h.early, if_neg Bool.false_ne_true] at hno
    split at hno
    · cases hno
    · split at hno <;> cases hno
  once := by rw [h.built]; exact Nat.zero_le 1
  refused _ he := Memory.buildTable_of_error h.ready he
  outside t ht := absurd (h.table.symm.trans ht) (Option.some_ne_none t).symm

theorem handsOver_of_serving (h : s.Serving t) : s.HandsOver where
  ready := h.ready
  taken hover _ _ := by
    rw [h.early] at hover
    cases hover
  found count hno := by
    rw [Memory.alloc_of_table h.table, Memory.onTable_apply] at hno
    dsimp only at hno
    rcases FrameTable.alloc_cases (t.load s.memory.ram) count with
      ⟨-, he⟩ | ⟨-, -, he⟩ | ⟨start, hc, -, -, -, -, he⟩
    · rw [he] at hno
      cases hno
    · rw [he] at hno
      cases hno
    · rw [he] at hno
      split at hno <;> cases hno
  once := Nat.le_of_eq h.built
  refused _ he := Memory.buildTable_of_error h.ready he
  outside t' ht' page hpage := by
    obtain rfl : t = t' := Option.some.inj (h.table.symm.trans ht')
    refine ⟨h.free_eq hpage, fun count frame ha hhas => ?_⟩
    have hlow := h.first_le ha
    have hlt := h.lt_of_outside hpage
    exact Nat.not_lt.mpr (Nat.le_trans hlow hhas.1) hlt

/-- From boot on, whatever is asked for, whatever is given back and however often the table is to be
built, with any range. -/
theorem Reachable.handsOver {ram : Ram} {range : PhysicalRange} (h : Reachable ram range s) :
    s.HandsOver := by
  rcases h.cases with hw | ⟨t, hs⟩
  · exact handsOver_of_waiting hw
  · exact handsOver_of_serving hs

section Small

/-- Four frames of memory, in a range that begins beside a page. -/
def small : Startup :=
  ⟨.new ⟨16, Array.replicate 4 .zero, by decide⟩ ⟨.ofNat 0x10001, .ofNat 0x14000⟩, [], 0⟩

/-- One frame is handed out, then the table is built over the last one and is not built again. -/
theorem handsOver_small :
    let s := ((small.alloc 1).build).build
    s.memory.allocator.table = some ⟨.ofNumber 19, .ofNat 0x12000, 1, 1⟩ ∧
      s.early = [⟨17, 1⟩] ∧ s.built = 1 ∧ s.HandsOver :=
  ⟨rfl, rfl, rfl, Reachable.handsOver (.build (.build (.alloc 1 .boot)))⟩

end Small

end Startup

end MipsVM
