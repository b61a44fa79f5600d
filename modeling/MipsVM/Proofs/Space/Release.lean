import MipsVM.Proofs.Frame.Releases
import MipsVM.Proofs.Space.Backing

/-!
# The frames of a space are given back

The frames of a space are given back one by one, each as a run of its own. If all of them are frames
of the table, none is refused, and nothing but the table is changed: it is left without these frames,
whatever their order.

## Main definitions

- `Memory.withoutRuns`: memory after the slots of some runs were cleared
- `Memory.Manages`: some frames belong to the table

## Main statements

- `withoutRuns_perm`, `Books.withoutRuns_withoutRuns`: the order of the runs does not matter
- `Books.giveBack_eq`: what giving back frames of the table does
- `AddressSpace.release_eq`: a space whose frames belong to the table is released
-/

namespace MipsVM

namespace Memory

variable {range : PhysicalRange} {m : Memory} {runs runs' all : List Run}
  {frames : List PhysicalPage} {frame : PhysicalPage} {t : ResidentTable} {ε : Type}

section WithoutRuns

/-- The memory after the slots of some runs were cleared in the table, if there is one. -/
def withoutRuns (m : Memory) (runs : List Run) : Memory :=
  match m.allocator.table with
  | some t => m.withTable t ((t.load m.ram).clearAll runs)
  | none => m

theorem withoutRuns_of_table (ht : m.allocator.table = some t) :
    m.withoutRuns runs = m.withTable t ((t.load m.ram).clearAll runs) := by
  rw [withoutRuns, ht]

theorem withoutRuns_of_none (ht : m.allocator.table = none) : m.withoutRuns runs = m := by
  rw [withoutRuns, ht]

@[simp] theorem withoutRuns_nil : m.withoutRuns [] = m := by
  cases ht : m.allocator.table with
  | none => exact withoutRuns_of_none ht
  | some t => rw [withoutRuns_of_table ht, FrameTable.clearAll_nil, withTable_load ht]

theorem withoutRuns_perm (h : runs.Perm runs') : m.withoutRuns runs = m.withoutRuns runs' := by
  simp only [withoutRuns, FrameTable.clearAll_perm h]

theorem table_withoutRuns (runs : List Run) (ht : m.allocator.table = some t) :
    ∃ free, (m.withoutRuns runs).allocator.table = some { t with freeCount := free } := by
  rw [withoutRuns_of_table ht]
  exact ⟨_, rfl⟩

/-- To clear the slots of some runs and then those of others is to clear all of them. -/
theorem Books.withoutRuns_withoutRuns (h : m.Books range all) :
    (m.withoutRuns runs).withoutRuns runs' = m.withoutRuns (runs ++ runs') := by
  cases ht : m.allocator.table with
  | none => rw [withoutRuns_of_none ht, withoutRuns_of_none ht, withoutRuns_of_none ht]
  | some t =>
    have htotal (cleared : List Run) : ((t.load m.ram).clearAll cleared).total = t.total := by
      rw [FrameTable.total_clearAll, ResidentTable.total_load]
    have hfirst : ((t.load m.ram).clearAll runs).first = t.first := rfl
    have hload := h.load_withTable ht hfirst (htotal runs)
    rw [withoutRuns_of_table ht, withoutRuns_of_table ht, withoutRuns_of_table rfl, hload,
      FrameTable.clearAll_clearAll, h.withTable_withTable ht (htotal runs) (htotal _)]

end WithoutRuns

/-- There is a table, and the frames belong to it. -/
def Manages (m : Memory) (frames : List PhysicalPage) : Prop :=
  ∃ t, m.allocator.table = some t ∧ ∀ frame ∈ frames, t.first.number ≤ frame.number

theorem Manages.withoutRuns (h : m.Manages frames) : (m.withoutRuns runs).Manages frames := by
  obtain ⟨t, ht, hframes⟩ := h
  obtain ⟨free, ht'⟩ := table_withoutRuns runs ht
  exact ⟨_, ht', hframes⟩

/-- The events of giving back frames none of which is refused. -/
def Returned (events : List Event) : Prop :=
  ∀ event ∈ events, ∃ positions, event = .runFreed positions

/-- A frame in use that belongs to the table is given back. -/
theorem Books.free_eq (h : m.Books range (singles [frame] ++ runs)) (hm : m.Manages [frame]) :
    ∃ positions, free frame m =
      .done () (m.withoutRuns (singles [frame])) [.runFreed positions] := by
  obtain ⟨t, ht, hframe⟩ := hm
  have hrecords := (h.table t ht).2.records
  have hmem : Run.single frame.number ∈ t.managed (singles [frame] ++ runs) :=
    List.mem_filter.mpr
      ⟨List.mem_cons_self, decide_eq_true (hframe frame List.mem_cons_self)⟩
  have hfree := hrecords.free_eq hmem rfl
  have hshort : (Run.single frame.number).count < 65534 := show 1 < 65534 by decide
  rw [if_pos hshort, hrecords.clear_eq hmem] at hfree
  rw [free_of_table ht, onTable_apply, Routine.bind_of_ok hfree, Routine.pure_apply,
    withoutRuns_of_table ht]
  exact ⟨_, rfl⟩

/-- Frames in use that belong to the table are given back. -/
theorem Books.giveBack_eq (h : m.Books range (singles frames ++ runs)) (hm : m.Manages frames) :
    ∃ events, (giveBack frames : Routine Memory ε Unit) m =
      .done () (m.withoutRuns (singles frames)) events ∧ Returned events := by
  induction frames generalizing m with
  | nil => exact ⟨[], by rw [show singles [] = [] from rfl, withoutRuns_nil]; rfl, by simp [Returned]⟩
  | cons frame rest ih =>
    obtain ⟨t, ht, hframes⟩ := id hm
    have hfirst : m.Manages [frame] :=
      ⟨t, ht, List.forall_mem_singleton.mpr (hframes frame List.mem_cons_self)⟩
    have hrest : m.Manages rest := ⟨t, ht, fun f hf => hframes f (List.mem_cons_of_mem _ hf)⟩
    have hone : m.Books range (singles [frame] ++ (singles rest ++ runs)) := h
    obtain ⟨positions, hfree⟩ := hone.free_eq hfirst
    have hleft : (m.withoutRuns (singles [frame])).Books range (singles rest ++ runs) := by
      have hends := (free_ends hone rfl).value (by rw [hfree]; rfl)
      rw [hfree] at hends
      exact hends.1
    obtain ⟨events, hgive, hreturned⟩ := ih hleft hrest.withoutRuns
    rw [h.withoutRuns_withoutRuns] at hgive
    refine ⟨.runFreed positions :: events, ?_, ?_⟩
    · have hattempt : ((free frame).attempt : Routine Memory ε _) m =
          .done (.ok ()) (m.withoutRuns (singles [frame])) [.runFreed positions] := by
        rw [Routine.attempt, hfree]
        rfl
      rw [giveBack, Routine.bind_of_ok hattempt]
      dsimp only
      rw [hgive]
      rfl
    · exact List.forall_mem_cons.mpr ⟨⟨positions, rfl⟩, hreturned⟩

end Memory

/-- A space whose frames belong to the table is released. -/
theorem AddressSpace.release_eq {range : PhysicalRange} {m : Memory} {runs : List Run}
    {s : AddressSpace} {ε : Type} (h : m.Books range (singles s.frames ++ runs))
    (hm : m.Manages s.frames) :
    ∃ events, (s.release : Routine Memory ε Unit) m =
      .done () (m.withoutRuns (singles s.frames)) events ∧ Memory.Returned events := by
  obtain ⟨events, hgive, hreturned⟩ := h.giveBack_eq (ε := ε) hm
  refine ⟨events, ?_, hreturned⟩
  rw [release, Routine.onPanic, hgive]
  rfl

end MipsVM
