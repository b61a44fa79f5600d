import MipsVM.Proofs.Frame.Books

/-!
# The frame table is built

Building the frame table takes three steps: its slots are laid over what is left of the early
memory, the early memory is handed over, and the table is put in charge. It is refused before the
first step if the early memory was handed over, in the first if no frame would be left to manage,
and in the last if there is a table already. As long as there is a table exactly when the early
memory was handed over, the last refusal does not occur, so that a refusal changes nothing.

## Main definitions

- `Memory.laid`, `Memory.handedOver`, `Memory.handedTo`: the memory after the first step, the
  second, and all three

## Main statements

- `buildTable_cases`: all that building the table can do
- `buildTable_of_error`, `buildTable_of_layTable`: a refusal changes nothing, and a table that was
  laid is put in charge
- `buildTable_ends`: the books afterwards
-/

namespace MipsVM

theorem TablePlacement.Within.slotsStop_le {p : TablePlacement} {range : PhysicalRange}
    (h : p.Within range) : p.table.slotsStop ≤ p.table.first.number * 4096 := by
  have hslots := h.slots
  rwa [TablePlacement.slotBytes, Nat.mul_comm] at hslots

namespace Memory

variable {range : PhysicalRange} {m : Memory} {runs : List Run} {t : ResidentTable}

/-- The memory after the slots of the table in a place were laid. -/
def laid (m : Memory) (p : TablePlacement) : Memory :=
  { m with ram := p.table.store m.ram (List.replicate p.total .free) }

/-- The memory after what was left of the early memory was handed over. -/
def handedOver (m : Memory) : Memory where
  ram := m.ram
  allocator :=
    { m.allocator with
      early := { m.allocator.early with next := m.allocator.early.last, handedOver := true } }

/-- The memory after what was left of the early memory was handed to the table in a place. -/
def handedTo (m : Memory) (p : TablePlacement) : Memory :=
  ⟨p.table.store m.ram (List.replicate p.total .free),
    ⟨{ m.allocator.early with next := m.allocator.early.last, handedOver := true }, some p.table⟩⟩

section Steps

theorem layTable_of_none {r : PhysicalRange} (hplace : TablePlacement.ofRange? r = none) :
    layTable r m = .error .nothingToManage m [] := by
  rw [layTable, hplace]

theorem layTable_of_panic {r : PhysicalRange} {place : TablePlacement} {p : Panic}
    (hplace : TablePlacement.ofRange? r = some place)
    (hcheck : m.ram.check place.slotsAt place.slotBytes = .error p) :
    layTable r m = .panic p m [] := by
  simp only [layTable, hplace, hcheck]

theorem layTable_of_some {r : PhysicalRange} {place : TablePlacement} {offset : Nat}
    (hplace : TablePlacement.ofRange? r = some place)
    (hcheck : m.ram.check place.slotsAt place.slotBytes = .ok offset) :
    layTable r m = .done place.table (m.laid place)
      [.tableBuilt place.slotsAt place.total place.managed place.last] := by
  simp only [layTable, hplace, hcheck]
  rfl

theorem allocator_layTable (r : PhysicalRange) (m : Memory) :
    (layTable r m).state.allocator = m.allocator := by
  unfold layTable
  split
  · rfl
  · split <;> rfl

theorem putTable_of_none (ht : m.allocator.table = none) (t : ResidentTable) :
    putTable t m = .done () { m with allocator := { m.allocator with table := some t } } [] := by
  rw [putTable, ht]

theorem putTable_of_some (ht : m.allocator.table = some t) (t' : ResidentTable) :
    putTable t' m = .error .nothingToManage m [] := by
  rw [putTable, ht]

theorem buildTable_of_waiting (hover : ¬ m.allocator.early.handedOver) :
    buildTable m =
      (layTable m.allocator.early.rest >>= fun t =>
        onEarly EarlyMemory.handOver >>= fun _ => putTable t) m := by
  have hgets : (Routine.gets (·.allocator.early) : Routine Memory FrameError EarlyMemory) m =
      .done m.allocator.early m [] := rfl
  rw [buildTable, Routine.bind_of_ok hgets, if_neg hover]
  rfl

/-- Once a table is laid the early memory is handed over, and the table is put in charge. -/
theorem buildTable_of_laid {m' : Memory} {events : List Event}
    (hover : ¬ m.allocator.early.handedOver)
    (hlay : layTable m.allocator.early.rest m = .done t m' events) :
    buildTable m =
      ⟨(putTable t m'.handedOver).outcome, (putTable t m'.handedOver).state,
        events ++ (putTable t m'.handedOver).events⟩ := by
  have hhand : (onEarly EarlyMemory.handOver : Routine Memory FrameError PhysicalRange) m' =
      .done m'.allocator.early.rest m'.handedOver [] := rfl
  rw [buildTable_of_waiting hover, Routine.bind_of_ok hlay, Routine.bind_of_ok hhand]
  rfl

end Steps

section Whole

/-- All that building the frame table can do. A table that was laid is refused if there is one
already, and then the early memory was handed over in vain. -/
theorem buildTable_cases (m : Memory) :
    buildTable m = .error .nothingToManage m [] ∨
      ¬ m.allocator.early.handedOver ∧
        ∃ place, TablePlacement.ofRange? m.allocator.early.rest = some place ∧
          ((∃ p, m.ram.check place.slotsAt place.slotBytes = .error p ∧
            buildTable m = .panic p m []) ∨
          (∃ offset, m.ram.check place.slotsAt place.slotBytes = .ok offset) ∧
            (m.allocator.table = none ∧
              buildTable m = .done () (m.handedTo place)
                [.tableBuilt place.slotsAt place.total place.managed place.last] ∨
            m.allocator.hasTable ∧
              buildTable m = .error .nothingToManage (m.laid place).handedOver
                [.tableBuilt place.slotsAt place.total place.managed place.last])) := by
  by_cases hover : m.allocator.early.handedOver
  · exact .inl (buildTable_of_handedOver hover)
  cases hplace : TablePlacement.ofRange? m.allocator.early.rest with
  | none =>
    left
    rw [buildTable_of_waiting hover, Routine.bind_of_error (layTable_of_none hplace)]
    rfl
  | some place =>
    refine .inr ⟨hover, place, rfl, ?_⟩
    cases hcheck : m.ram.check place.slotsAt place.slotBytes with
    | error p =>
      refine .inl ⟨p, rfl, ?_⟩
      rw [buildTable_of_waiting hover, Routine.bind_of_error (layTable_of_panic hplace hcheck)]
      rfl
    | ok offset =>
      refine .inr ⟨⟨offset, rfl⟩, ?_⟩
      have hkept : (m.laid place).handedOver.allocator.table = m.allocator.table := rfl
      rw [buildTable_of_laid hover (layTable_of_some hplace hcheck)]
      cases ht : m.allocator.table with
      | none =>
        rw [putTable_of_none (hkept.trans ht)]
        exact .inl ⟨rfl, rfl⟩
      | some t =>
        rw [putTable_of_some (hkept.trans ht), PageAllocator.hasTable, ht]
        exact .inr ⟨rfl, rfl⟩

theorem buildTable_of_ok (h : (buildTable m).outcome = .ok ()) :
    ∃ place, TablePlacement.ofRange? m.allocator.early.rest = some place ∧
      (∃ offset, m.ram.check place.slotsAt place.slotBytes = .ok offset) ∧
        (buildTable m).state = m.handedTo place := by
  rcases buildTable_cases m with
    he | ⟨-, place, hplace, ⟨p, -, hp⟩ | ⟨hcheck, ⟨-, hdone⟩ | ⟨-, he⟩⟩⟩
  · rw [he] at h
    cases h
  · rw [hp] at h
    cases h
  · exact ⟨place, hplace, hcheck, by rw [hdone]; rfl⟩
  · rw [he] at h
    cases h

/-- A table that was built is there. -/
theorem buildTable_hasTable (m : Memory) :
    buildTable.Ends m (fun _ m' => m'.allocator.hasTable) (fun _ _ => True) fun _ _ => True := by
  rcases buildTable_cases m with
    he | ⟨-, place, -, ⟨p, -, hp⟩ | ⟨-, ⟨-, hdone⟩ | ⟨-, he⟩⟩⟩
  · exact (Routine.ends_of_error he).mpr trivial
  · exact (Routine.ends_of_panic hp).mpr trivial
  · exact (Routine.ends_of_done hdone).mpr rfl
  · exact (Routine.ends_of_error he).mpr trivial

theorem table_eq_none (hready : m.allocator.hasTable = m.allocator.early.handedOver)
    (hover : ¬ m.allocator.early.handedOver) : m.allocator.table = none := by
  rw [← Option.not_isSome_iff_eq_none, ← PageAllocator.hasTable, hready]
  exact hover

/-- If there is a table exactly when the early memory was handed over, a table that cannot be built
changes nothing. -/
theorem buildTable_of_error {e : Failure FrameError}
    (hready : m.allocator.hasTable = m.allocator.early.handedOver)
    (h : (buildTable m).outcome = .error e) : (buildTable m).state = m := by
  rcases buildTable_cases m with
    he | ⟨hover, place, -, ⟨p, -, hp⟩ | ⟨-, ⟨-, hdone⟩ | ⟨htable, -⟩⟩⟩
  · rw [he]
    rfl
  · rw [hp]
    rfl
  · rw [hdone] at h
    cases h
  · rw [hready] at htable
    exact absurd htable hover

/-- Then a table that was laid is put in charge as well. -/
theorem buildTable_of_layTable (hready : m.allocator.hasTable = m.allocator.early.handedOver)
    (hover : ¬ m.allocator.early.handedOver)
    (hlay : (layTable m.allocator.early.rest m).outcome = .ok t) :
    (buildTable m).outcome = .ok () := by
  have ht := table_eq_none hready hover
  have hkept : (layTable m.allocator.early.rest m).state.handedOver.allocator.table = none :=
    (congrArg PageAllocator.table (allocator_layTable _ m)).trans ht
  have hlaid : layTable m.allocator.early.rest m =
      .done t (layTable m.allocator.early.rest m).state
        (layTable m.allocator.early.rest m).events := by
    rw [Ending.done, ← hlay]
  rw [buildTable_of_laid hover hlaid, putTable_of_none hkept]
  rfl

theorem load_handedTo {p : TablePlacement}
    (h : m.ram.Holds p.table.slotsAt.toNat p.table.slotsStop) :
    p.table.load (m.handedTo p).ram = .new p.total p.managed.page :=
  ResidentTable.load_store (.new p.total p.managed.page) rfl (FrameTable.total_new ..) h

/-- A table that is placed in what is left of the early memory lies above all runs in use, so it is
in charge once its slots are stored. -/
theorem Books.handedTo (h : m.Books range runs) (ht : m.allocator.table = none)
    {p : TablePlacement} (hp : p.Within m.allocator.early.rest) :
    (m.handedTo p).Books range runs ∧ m.Leaves (m.handedTo p) runs := by
  obtain ⟨hlast, -, hlow, hbelow⟩ := h.early ht
  have hstop := hp.slotsStop_le
  obtain ⟨hfirst, -, hframes, -⟩ := hp
  simp only [EarlyMemory.rest, hlast] at hfirst hframes
  have hlength : (List.replicate p.total Slot.free).length = p.table.total :=
    List.length_replicate
  have hlow' : range.first.toNat ≤ p.table.slotsAt.toNat := Nat.le_trans hlow hfirst
  have hhigh : (p.table.first.number + p.table.total) * 4096 ≤ range.last.toNat := hframes
  have hkeeps : m.ram.Keeps (m.handedTo p).ram _ := ResidentTable.keeps_store hlength
  have hload := load_handedTo
    (h.covers.mono hlow' (by omega) : m.ram.Holds p.table.slotsAt.toNat p.table.slotsStop)
  -- every run in use lies below the slots
  have hout (r : Run) (hr : r ∈ runs) : r.stop * 4096 ≤ p.table.slotsAt.toNat :=
    Nat.le_trans (hbelow r hr) hfirst
  have hmanaged : p.table.managed runs = [] := by
    refine List.filter_eq_nil_iff.mpr fun r hr => ?_
    have := (h.inside r hr).1
    have := hout r hr
    unfold ResidentTable.slotsStop at hstop
    simp only [decide_eq_true_eq, Nat.not_le]
    unfold Run.stop at this
    omega
  have hbytes (a : Nat) (ha : p.table.HasByte a) : ¬ Held runs a := by
    rintro ⟨r, hr, -, hn⟩
    have := hout r hr
    have := ha.1
    omega
  refine ⟨⟨hkeeps.covers h.covers, h.apart, h.inside,
      fun hnone => absurd hnone (Option.some_ne_none _), fun t' ht' => ?_⟩,
    hkeeps.mono fun a ha hb => hbytes a hb ha, by simp [ht]⟩
  obtain rfl : p.table = t' := Option.some.inj ht'
  refine ⟨rfl, hlow', hstop, hhigh, fun r hr => .inl (hout r hr), ?_⟩
  rw [hmanaged, hload]
  exact FrameTable.records_new p.total p.managed.page

/-- The table is built beside the runs in use, and records none of them. -/
theorem buildTable_ends (h : m.Books range runs) :
    buildTable.Ends m (fun _ m' => m'.Books range runs ∧ m.Leaves m' runs)
      (fun _ m' => m' = m) (fun _ _ => False) := by
  rcases buildTable_cases m with he | ⟨hover, place, hplace, hrest⟩
  · exact (Routine.ends_of_error he).mpr rfl
  have ht := table_eq_none h.hasTable_eq hover
  have hwithin := within_of_ofRange? hplace
  rcases hrest with ⟨p, hcheck, -⟩ | ⟨-, ⟨-, hdone⟩ | ⟨htable, -⟩⟩
  · -- the slots lie in the range, which memory covers
    obtain ⟨hlast, -, hlow, -⟩ := h.early ht
    obtain ⟨hfirst, hslots, hframes, hpos⟩ := hwithin
    simp only [EarlyMemory.rest, hlast, TablePlacement.slotBytes] at hfirst hslots hframes
    have hholds : m.ram.Holds place.slotsAt.toNat (place.slotsAt.toNat + place.slotBytes) :=
      h.covers.mono (Nat.le_trans hlow hfirst) (by unfold TablePlacement.slotBytes; omega)
    have hpos' : 0 < place.slotBytes := by
      unfold TablePlacement.slotBytes
      omega
    rw [Ram.check_eq_ok hpos' hholds] at hcheck
    cases hcheck
  · exact (Routine.ends_of_done hdone).mpr (h.handedTo ht hwithin)
  · rw [PageAllocator.hasTable, ht] at htable
    cases htable

end Whole

end Memory

end MipsVM
