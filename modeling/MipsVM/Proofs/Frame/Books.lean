import MipsVM.Frame.Allocator
import MipsVM.Proofs.Frame.Placement
import MipsVM.Proofs.Frame.Resident
import MipsVM.Proofs.Frame.Table

/-!
# The books of the page allocator

The books say which runs of frames are in use: they lie in the range that the allocator was given,
no two have a frame in common, and none shares a byte with the slots of the frame table. Before
there is a table they all lie below what is left of the early memory; from then on the table records
those among its frames. Everything that the allocator does keeps the books, and the bytes of the
runs in use.

## Main definitions

- `Held`: an address in a frame of a run
- `Memory.Books`: the books
- `Memory.Leaves`: a later memory with the same bytes in the frames of some runs

## Main statements

- `alloc_ends`, `free_ends`: the books afterwards
- `Books.tells`, `Books.freeCount_add`: the slots and the count of free frames in terms of the runs
- `Books.slots_unique`: the runs in use determine the slots
-/

namespace MipsVM

/-- The byte at an address belongs to a frame of one of the runs. -/
def Held (runs : List Run) (a : Nat) : Prop :=
  ∃ r ∈ runs, r.Has (a / 4096)

theorem Held.mono {runs runs' : List Run} {a : Nat} (h : Held runs a)
    (hsub : ∀ r ∈ runs, r ∈ runs') : Held runs' a := by
  obtain ⟨r, hr, hn⟩ := h
  exact ⟨r, hsub r hr, hn⟩

/-- Those of the runs that the table manages. -/
def ResidentTable.managed (t : ResidentTable) (runs : List Run) : List Run :=
  runs.filter (t.first.number ≤ ·.first)

theorem ResidentTable.managed_cons_of_le {t : ResidentTable} {r : Run} {runs : List Run}
    (h : t.first.number ≤ r.first) : t.managed (r :: runs) = r :: t.managed runs :=
  List.filter_cons_of_pos (by simpa using h)

theorem ResidentTable.managed_cons_of_lt {t : ResidentTable} {r : Run} {runs : List Run}
    (h : r.first < t.first.number) : t.managed (r :: runs) = t.managed runs :=
  List.filter_cons_of_neg (by simpa using h)

/-- The early memory is in charge: all runs in use lie below what is left of it. -/
structure EarlyMemory.InCharge (m : EarlyMemory) (range : PhysicalRange) (runs : List Run) :
    Prop where
  last : m.last = range.last
  handedOver : ¬ m.handedOver
  low : range.first.toNat ≤ m.next.toNat
  below : ∀ r ∈ runs, r.stop * 4096 ≤ m.next.toNat

/-- The table is in charge: its slots and its frames follow one another in the range, the runs in
use lie on either side of the slots, and it records those among its frames. -/
structure ResidentTable.InCharge (t : ResidentTable) (range : PhysicalRange) (ram : Ram)
    (runs : List Run) : Prop where
  low : range.first.toNat ≤ t.slotsAt.toNat
  slots : t.slotsStop ≤ t.first.number * 4096
  high : (t.first.number + t.total) * 4096 ≤ range.last.toNat
  sides : ∀ r ∈ runs, r.stop * 4096 ≤ t.slotsAt.toNat ∨ t.first.number ≤ r.first
  records : (t.load ram).Records (t.managed runs)

namespace Memory

/-- The runs in use, of the frames in a range that memory covers. -/
structure Books (range : PhysicalRange) (m : Memory) (runs : List Run) : Prop where
  covers : m.ram.Covers range
  apart : runs.Pairwise Run.Apart
  inside : ∀ r ∈ runs, 0 < r.count ∧ range.first.toNat ≤ r.first * 4096 ∧
    r.stop * 4096 ≤ range.last.toNat
  early : m.allocator.table = none → m.allocator.early.InCharge range runs
  table : ∀ t, m.allocator.table = some t →
    m.allocator.early.handedOver ∧ t.InCharge range m.ram runs

/-- A later memory that has the same bytes in the frames of the runs, and the same table but for
its slots and its count of free frames. -/
structure Leaves (m m' : Memory) (runs : List Run) : Prop where
  ram : m.ram.Keeps m'.ram (Held runs)
  table : ∀ t, m.allocator.table = some t →
    ∃ free, m'.allocator.table = some { t with freeCount := free }

variable {range : PhysicalRange} {m m' m'' : Memory} {runs runs' : List Run} {r : Run}
  {t : ResidentTable} {left : FrameTable}

theorem Leaves.refl : m.Leaves m runs :=
  ⟨.refl, fun t ht => ⟨t.freeCount, ht⟩⟩

theorem Leaves.mono (h : m.Leaves m' runs) (hsub : ∀ r ∈ runs', r ∈ runs) : m.Leaves m' runs' :=
  ⟨h.ram.mono fun _ ha => ha.mono hsub, h.table⟩

theorem Leaves.trans (h : m.Leaves m' runs) (h' : m'.Leaves m'' runs) : m.Leaves m'' runs := by
  refine ⟨h.ram.trans h'.ram, fun t ht => ?_⟩
  obtain ⟨_, ht'⟩ := h.table t ht
  obtain ⟨free, ht''⟩ := h'.table _ ht'
  exact ⟨free, ht''⟩

section Books

theorem Books.perm (h : m.Books range runs) (hp : runs.Perm runs') : m.Books range runs' where
  covers := h.covers
  apart := Run.perm_pairwise hp h.apart
  inside r hr := h.inside r (hp.mem_iff.mpr hr)
  early hn := by
    obtain ⟨last, handed, low, below⟩ := h.early hn
    exact ⟨last, handed, low, fun r hr => below r (hp.mem_iff.mpr hr)⟩
  table t ht := by
    obtain ⟨handed, low, slots, high, sides, records⟩ := h.table t ht
    exact ⟨handed, low, slots, high, fun r hr => sides r (hp.mem_iff.mpr hr),
      records.perm (hp.filter _)⟩

theorem Books.has_frame (h : m.Books range runs) (hr : r ∈ runs) {n : Nat} (hn : r.Has n) :
    m.ram.hasFrame n := by
  obtain ⟨-, hlow, hhigh⟩ := h.inside r hr
  obtain ⟨h₁, h₂⟩ := hn
  have hfirst : range.first.toNat ≤ n * 4096 := Nat.le_trans hlow (Nat.mul_le_mul_right _ h₁)
  have hlast : n * 4096 < range.last.toNat := by omega
  have hbyte := h.covers _ hfirst hlast
  rwa [Nat.mul_div_cancel _ (by decide)] at hbyte

theorem Books.not_held_of_hasByte (h : m.Books range runs) (ht : m.allocator.table = some t)
    {a : Nat} (ha : t.HasByte a) : ¬ Held runs a := by
  rintro ⟨r, hr, h₁, h₂⟩
  obtain ⟨-, ht⟩ := h.table t ht
  have := ht.slots
  unfold ResidentTable.HasByte at ha
  rcases ht.sides r hr with hlow | hhigh <;> omega

theorem Books.holds_slots (h : m.Books range runs) (ht : m.allocator.table = some t) :
    m.ram.Holds t.slotsAt.toNat t.slotsStop := by
  obtain ⟨-, low, slots, high, -, -⟩ := h.table t ht
  exact h.covers.mono low (by omega)

/-- A change outside the slots keeps the books. -/
theorem Books.of_keeps (h : m.Books range runs) {ram : Ram}
    (hk : ∀ t, m.allocator.table = some t → ∀ a, t.HasByte a → ram.byteAt a = m.ram.byteAt a)
    (hext : ram.hasFrame = m.ram.hasFrame) : Books range { m with ram := ram } runs where
  covers a ha ha' := by
    rw [hext]
    exact h.covers a ha ha'
  apart := h.apart
  inside := h.inside
  early := h.early
  table t ht := by
    obtain ⟨handed, low, slots, high, sides, records⟩ := h.table t ht
    refine ⟨handed, low, slots, high, sides, ?_⟩
    rwa [ResidentTable.load_congr (hk t ht)]

/-- A run that the allocator has no record of may be forgotten. -/
theorem Books.forget (h : m.Books range (r :: runs))
    (hout : ∀ t, m.allocator.table = some t → r.first < t.first.number) : m.Books range runs where
  covers := h.covers
  apart := (List.pairwise_cons.mp h.apart).2
  inside r hr := h.inside r (List.mem_cons_of_mem _ hr)
  early hn := by
    obtain ⟨last, handed, low, below⟩ := h.early hn
    exact ⟨last, handed, low, fun r hr => below r (List.mem_cons_of_mem _ hr)⟩
  table t ht := by
    obtain ⟨handed, low, slots, high, sides, records⟩ := h.table t ht
    refine ⟨handed, low, slots, high, fun r hr => sides r (List.mem_cons_of_mem _ hr), ?_⟩
    rwa [ResidentTable.managed_cons_of_lt (hout t ht)] at records

/-- The free frames of the table and the frames of the runs that it manages are all its frames. -/
theorem Books.balance (h : m.Books range runs) (ht : m.allocator.table = some t) :
    t.freeCount + Run.frameCount (t.managed runs) = t.total := by
  have hbalance := (h.table t ht).2.records.balance
  rwa [ResidentTable.freeCount_load, ResidentTable.total_load] at hbalance

/-- There is a table exactly when the early memory was handed over. -/
theorem Books.hasTable_eq (h : m.Books range runs) :
    m.allocator.hasTable = m.allocator.early.handedOver := by
  rw [PageAllocator.hasTable]
  cases ht : m.allocator.table with
  | none => exact (Bool.eq_false_iff.mpr (h.early ht).handedOver).symm
  | some t => exact (h.table t ht).1.symm

end Books

section Table

/-- The memory after work on its table left another one. -/
def withTable (m : Memory) (t : ResidentTable) (left : FrameTable) : Memory :=
  ⟨t.store m.ram left.slots,
    { m.allocator with table := some { t with freeCount := left.freeCount } }⟩

theorem withTable_load (ht : m.allocator.table = some t) :
    m.withTable t (t.load m.ram) = m := by
  obtain ⟨ram, early, table⟩ := m
  obtain rfl : table = some t := ht
  simp only [Memory.withTable, ResidentTable.store_load, ResidentTable.freeCount_load]

theorem ends_onTable {ε α : Type} {q : Routine FrameTable ε α} {Q : α → Memory → Prop}
    {E : ε → Memory → Prop} {P : Panic → Memory → Prop} :
    (onTable t q).Ends m Q E P ↔
      q.Ends (t.load m.ram) (fun a left => Q a (m.withTable t left))
        (fun e left => E e (m.withTable t left)) (fun p left => P p (m.withTable t left)) := by
  unfold Routine.Ends onTable
  rcases q (t.load m.ram) with ⟨(e | p) | a, left, events⟩ <;> rfl

theorem Books.leaves_withTable (h : m.Books range runs) (ht : m.allocator.table = some t)
    (htotal : left.total = t.total) : m.Leaves (m.withTable t left) runs where
  ram := (ResidentTable.keeps_store htotal).mono fun _ ha hb => h.not_held_of_hasByte ht hb ha
  table t' ht' := by
    rw [ht, Option.some.injEq] at ht'
    subst ht'
    exact ⟨left.freeCount, rfl⟩

/-- The table that is left is the one that is loaded next. -/
theorem Books.load_withTable (h : m.Books range runs) (ht : m.allocator.table = some t)
    (hfirst : left.first = t.first) (htotal : left.total = t.total) :
    { t with freeCount := left.freeCount }.load (m.withTable t left).ram = left :=
  ResidentTable.load_store left hfirst htotal (h.holds_slots ht)

/-- The books after work on the table, if the table records what is in use then. -/
theorem Books.withTable (h : m.Books range runs) (ht : m.allocator.table = some t)
    (hfirst : left.first = t.first) (htotal : left.total = t.total)
    (hrecords : left.Records (t.managed runs')) (hapart : runs'.Pairwise Run.Apart)
    (hold : ∀ r ∈ runs', r.first < t.first.number → r ∈ runs) :
    (m.withTable t left).Books range runs' := by
  obtain ⟨handed, low, slots, high, sides, -⟩ := h.table t ht
  have hkeeps : m.ram.Keeps (t.store m.ram left.slots) _ := ResidentTable.keeps_store htotal
  have hmanaged (r : Run) (hr : r ∈ runs') (hm : t.first.number ≤ r.first) :
      0 < r.count ∧ r.stop ≤ t.first.number + t.total := by
    obtain ⟨hpos, -, hstop⟩ := hrecords.inside r (List.mem_filter.mpr ⟨hr, by simpa using hm⟩)
    rw [hfirst, htotal] at hstop
    exact ⟨hpos, hstop⟩
  refine ⟨hkeeps.covers h.covers, hapart, fun r hr => ?_,
    fun hnone => absurd hnone (Option.some_ne_none _), fun t' ht' => ?_⟩
  · -- runs below the table were in use before
    by_cases hm : t.first.number ≤ r.first
    · obtain ⟨hpos, hstop⟩ := hmanaged r hr hm
      have := Nat.mul_le_mul_right 4096 hm
      unfold ResidentTable.slotsStop at slots
      omega
    · exact h.inside r (hold r hr (by omega))
  · have ht' : { t with freeCount := left.freeCount } = t' := Option.some.inj ht'
    subst ht'
    refine ⟨handed, low, slots, high, fun r hr => ?_, ?_⟩
    · by_cases hm : t.first.number ≤ r.first
      · exact .inr hm
      · exact sides r (hold r hr (by omega))
    · exact (h.load_withTable ht hfirst htotal).symm ▸ hrecords

/-- The table that is left last is all that remains of work on it. -/
theorem Books.withTable_withTable (h : m.Books range runs) (ht : m.allocator.table = some t)
    {left' : FrameTable} (htotal : left.total = t.total) (htotal' : left'.total = t.total) :
    (m.withTable t left).withTable { t with freeCount := left.freeCount } left' =
      m.withTable t left' := by
  have hstore : t.store (t.store m.ram left.slots) left'.slots = t.store m.ram left'.slots :=
    ResidentTable.store_store htotal htotal' (h.holds_slots ht)
  exact congrArg (Memory.mk · { m.allocator with table := _ }) hstore

end Table

section Operations

/-- The table that is in charge has frames with page numbers only. -/
theorem Books.fits (h : m.Books range runs) (ht : m.allocator.table = some t) :
    (t.load m.ram).first.number + (t.load m.ram).total ≤ 0x100000 := by
  have hhigh := (h.table t ht).2.high
  have hlast := range.last.isLt
  rw [ResidentTable.first_load, ResidentTable.total_load]
  omega

theorem Books.apart_of_managed (h : m.Books range runs) (ht : m.allocator.table = some t)
    (hr : t.first.number ≤ r.first) (hmanaged : ∀ r' ∈ t.managed runs, r.Apart r') :
    ∀ r' ∈ runs, r.Apart r' := by
  intro r' hr'
  by_cases hm : t.first.number ≤ r'.first
  · exact hmanaged r' (List.mem_filter.mpr ⟨hr', by simpa using hm⟩)
  · obtain ⟨-, ht⟩ := h.table t ht
    have hslots := ht.slots
    unfold ResidentTable.slotsStop at hslots
    have hside := ht.sides r' hr'
    exact .inr (by omega)

/-- Handing out a run of the table keeps the books, and adds the run. A single frame is refused only
if none is free. -/
theorem onTable_alloc_ends (h : m.Books range runs) (ht : m.allocator.table = some t)
    (count : Nat) :
    (onTable t (FrameTable.alloc count)).Ends m
      (fun frame m' => m'.Books range (⟨frame.number, count⟩ :: runs) ∧ m.Leaves m' runs ∧
        t.first.number ≤ frame.number)
      (fun _ m' => m'.Books range runs ∧ m.Leaves m' runs ∧ (count = 1 → t.freeCount = 0))
      (fun _ _ => False) := by
  have hrecords := (h.table t ht).2.records
  rw [ends_onTable]
  refine (FrameTable.alloc_ends hrecords (h.fits ht) count).mono
    (fun frame left hleft => ?_) (fun _ left hleft => ?_) (fun _ _ hno => hno)
  · obtain ⟨hfirst, htotal, -, hrec⟩ := hleft
    rw [ResidentTable.total_load] at htotal
    have hlow : t.first.number ≤ frame.number := by
      have := (hrec.inside _ List.mem_cons_self).2.1
      rwa [hfirst] at this
    have hapart := h.apart_of_managed ht hlow (List.pairwise_cons.mp hrec.apart).1
    rw [← ResidentTable.managed_cons_of_le hlow] at hrec
    refine ⟨h.withTable ht hfirst htotal hrec (List.pairwise_cons.mpr ⟨hapart, h.apart⟩) ?_,
      h.leaves_withTable ht htotal, hlow⟩
    intro r hr hout
    rcases List.mem_cons.mp hr with rfl | hr
    · exact absurd hout (Nat.not_lt.mpr hlow)
    · exact hr
  · obtain ⟨rfl, hnone⟩ := hleft
    have htotal := ResidentTable.total_load t m.ram
    exact ⟨h.withTable ht rfl htotal hrecords h.apart fun _ hr _ => hr,
      h.leaves_withTable ht htotal, hnone⟩

/-- Before there is a table runs are taken off the bottom of what is left, above all runs in use. -/
theorem takeEarly_ends (h : m.Books range runs) (ht : m.allocator.table = none) (count : Nat) :
    (takeEarly count).Ends m
      (fun frame m' => m'.Books range (⟨frame.number, count⟩ :: runs) ∧ m.Leaves m' runs)
      (fun _ m' => m' = m) (fun _ _ => False) := by
  obtain ⟨hlast, hover, hlow, hbelow⟩ := h.early ht
  rw [takeEarly, onEarly, Routine.ends_within]
  refine (EarlyMemory.take_ends _ count).mono (fun page early hearly => ?_)
    (fun _ early hearly => ?_) (fun _ _ hno => hno)
  · obtain ⟨hpos, hpage, hstop, hend, hlast', hover'⟩ := hearly
    rw [hlast] at hend hlast'
    have hcharge : early.InCharge range (⟨page.number, count⟩ :: runs) := by
      refine ⟨hlast', by rwa [hover'], by omega, ?_⟩
      refine List.forall_mem_cons.mpr ⟨Nat.le_of_eq hstop, fun r hr => ?_⟩
      have := hbelow r hr
      omega
    refine ⟨⟨h.covers, ?_, ?_, fun _ => hcharge, ?_⟩, .refl, by simp [ht]⟩
    · refine List.pairwise_cons.mpr ⟨fun r hr => .inr ?_, h.apart⟩
      have := hbelow r hr
      dsimp only
      omega
    · refine List.forall_mem_cons.mpr ⟨⟨hpos, by dsimp only; omega, ?_⟩, h.inside⟩
      unfold Run.stop
      dsimp only
      omega
    · intro t ht'
      exact absurd (ht'.symm.trans ht) (Option.some_ne_none _)
  · subst hearly
    rfl

/-- Taking pages off the early memory, in terms of what happens to the early memory. -/
theorem takeEarly_apply (count : Nat) (m : Memory) :
    takeEarly count m =
      ⟨(EarlyMemory.take count m.allocator.early).outcome,
        { m with
          allocator :=
            { m.allocator with early := (EarlyMemory.take count m.allocator.early).state } },
        (EarlyMemory.take count m.allocator.early).events⟩ := by
  rw [takeEarly, onEarly]
  exact Routine.within_apply ..

/-- Work on the table, in terms of what happens to the table that is loaded. -/
theorem onTable_apply {ε α : Type} (t : ResidentTable) (q : Routine FrameTable ε α) (m : Memory) :
    onTable t q m =
      ⟨(q (t.load m.ram)).outcome, m.withTable t (q (t.load m.ram)).state,
        (q (t.load m.ram)).events⟩ := rfl

theorem alloc_of_early (ht : m.allocator.table = none) (count : Nat) :
    alloc count m = takeEarly count m := by
  unfold alloc
  rw [ht]

theorem alloc_of_table (ht : m.allocator.table = some t) (count : Nat) :
    alloc count m = onTable t (FrameTable.alloc count) m := by
  unfold alloc
  rw [ht]

/-- Handing out a run keeps the books, and adds the run. Once there is a table a single frame is
refused only if none is free. -/
theorem alloc_ends (h : m.Books range runs) (count : Nat) :
    (alloc count).Ends m
      (fun frame m' => m'.Books range (⟨frame.number, count⟩ :: runs) ∧ m.Leaves m' runs ∧
        ∀ t, m.allocator.table = some t → t.first.number ≤ frame.number)
      (fun _ m' => m'.Books range runs ∧ m.Leaves m' runs ∧
        (count = 1 → ∀ t, m.allocator.table = some t → t.freeCount = 0))
      (fun _ _ => False) := by
  cases ht : m.allocator.table with
  | some t =>
    rw [Routine.ends_congr (alloc_of_table ht count)]
    refine (onTable_alloc_ends h ht count).mono (fun _ _ h' => ⟨h'.1, h'.2.1, fun t' ht' => ?_⟩)
      (fun _ _ h' => ⟨h'.1, h'.2.1, fun hone t' ht' => ?_⟩) (fun _ _ hno => hno)
    · rw [← Option.some.inj ht']
      exact h'.2.2
    · rw [← Option.some.inj ht']
      exact h'.2.2 hone
  | none =>
    rw [Routine.ends_congr (alloc_of_early ht count)]
    refine (takeEarly_ends h ht count).mono (fun _ _ h' => ⟨h'.1, h'.2, by simp⟩)
      (fun _ m' h' => ?_) (fun _ _ hno => hno)
    rw [h']
    exact ⟨h, .refl, by simp⟩

theorem free_of_early {frame : PhysicalPage} (ht : m.allocator.table = none) :
    free frame m = .error (.unmanaged frame.base) m [.earlyFree frame.base] := by
  unfold free
  rw [ht]

theorem free_of_table {frame : PhysicalPage} (ht : m.allocator.table = some t) :
    free frame m = onTable t (FrameTable.free frame >>= fun _ => pure ()) m := by
  unfold free
  rw [ht]

/-- A run in use is taken back when its first frame is given, and the books are kept without it. If
it is refused it stays in the books: that is because the table does not manage it, or because it is
too long. -/
theorem free_ends (h : m.Books range (r :: runs)) {frame : PhysicalPage}
    (hframe : frame.number = r.first) :
    (free frame).Ends m
      (fun _ m' => m'.Books range runs ∧ m.Leaves m' (r :: runs))
      (fun _ m' => m'.Books range (r :: runs) ∧ m.Leaves m' (r :: runs) ∧
        ∀ t, m'.allocator.table = some t → r.first < t.first.number)
      (fun _ m' => m'.Books range (r :: runs) ∧ m.Leaves m' (r :: runs) ∧ 65534 ≤ r.count) := by
  cases ht : m.allocator.table with
  | none =>
    rw [Routine.ends_of_error (free_of_early ht)]
    refine ⟨h, .refl, fun t ht' => ?_⟩
    exact absurd (ht'.symm.trans ht) (Option.some_ne_none _)
  | some t =>
    have hrecords := (h.table t ht).2.records
    have htotal := ResidentTable.total_load t m.ram
    have hstay : (m.withTable t (t.load m.ram)).Books range (r :: runs) :=
      h.withTable ht rfl htotal hrecords h.apart fun _ hr _ => hr
    have hleaves := h.leaves_withTable ht htotal
    rw [Routine.ends_congr (free_of_table ht), ends_onTable, Routine.ends_bind]
    simp only [Routine.ends_pure]
    by_cases hm : t.first.number ≤ r.first
    · rw [ResidentTable.managed_cons_of_le hm] at hrecords
      refine (FrameTable.free_ends hrecords hframe).mono (fun _ left hleft => ?_)
        (fun _ _ hno => hno.elim) (fun _ left hleft => ?_)
      · obtain ⟨-, hfirst, htotal', hrec⟩ := hleft
        rw [ResidentTable.total_load] at htotal'
        exact ⟨h.withTable ht hfirst htotal' hrec (List.pairwise_cons.mp h.apart).2
          fun _ hr _ => List.mem_cons_of_mem _ hr, h.leaves_withTable ht htotal'⟩
      · obtain ⟨rfl, hlong⟩ := hleft
        exact ⟨hstay, hleaves, hlong⟩
    · have hlt : frame.number < (t.load m.ram).first.number := by
        rw [ResidentTable.first_load]
        omega
      rw [Routine.ends_of_error (FrameTable.free_of_lt hlt)]
      refine ⟨hstay, hleaves, fun t' ht' => ?_⟩
      rw [← Option.some.inj ht']
      exact Nat.lt_of_not_le hm

/-- Whatever frame is to be taken back, nothing but the slots is changed. -/
theorem free_leaves (h : m.Books range runs) (frame : PhysicalPage) :
    (free frame).EndsIn m fun m' => m.Leaves m' runs := by
  cases ht : m.allocator.table with
  | none =>
    rw [Routine.endsIn_iff, free_of_early ht]
    exact Leaves.refl
  | some t =>
    have htotal : (FrameTable.free frame (t.load m.ram)).state.total = t.total := by
      rw [FrameTable.total_free, ResidentTable.total_load]
    rw [Routine.EndsIn, Routine.ends_congr (free_of_table ht), ends_onTable, Routine.ends_bind]
    exact (Routine.endsIn_iff (R := fun left => m.Leaves (m.withTable t left) runs)).mpr
      (h.leaves_withTable ht htotal)

end Operations

section Slots

theorem Books.managed_of_has (h : m.Books range runs) (ht : m.allocator.table = some t)
    (hr : r ∈ runs) {n : Nat} (hn : r.Has n) (hlow : t.first.number ≤ n) :
    t.first.number ≤ r.first := by
  obtain ⟨-, ht⟩ := h.table t ht
  have hslots := ht.slots
  unfold ResidentTable.slotsStop at hslots
  have hside := ht.sides r hr
  unfold Run.Has at hn
  omega

/-- Each slot says what the runs in use say of its frame. -/
theorem Books.tells (h : m.Books range runs) (ht : m.allocator.table = some t) {i : Nat}
    (hi : i < t.total) : (t.slotAt m.ram i).Tells runs (t.first.number + i) := by
  have htells := (h.table t ht).2.records.tells i _ (ResidentTable.getElem?_slots_load hi)
  rcases htells with ⟨r, hr, htells⟩ | ⟨hno, hfree⟩
  · exact .inl ⟨r, (List.mem_filter.mp hr).1, htells⟩
  · refine .inr ⟨fun r hr hn => hno r (List.mem_filter.mpr ⟨hr, decide_eq_true ?_⟩) hn, hfree⟩
    exact h.managed_of_has ht hr hn (Nat.le_add_right _ _)

/-- The frames in use among those of the table are what is not counted as free. -/
theorem Books.freeCount_add (h : m.Books range runs) (ht : m.allocator.table = some t) :
    t.freeCount + ((runs.flatMap Run.frames).filter fun n =>
      t.first.number ≤ n ∧ n < t.first.number + t.total).length = t.total := by
  -- a run lies among the frames of the table as a whole or not at all
  have hframes (r : Run) (hr : r ∈ runs) :
      r.frames.filter (fun n => t.first.number ≤ n ∧ n < t.first.number + t.total) =
        if t.first.number ≤ r.first then r.frames else [] := by
    split
    · next hm =>
      have hin := (h.table t ht).2.records.inside r
        (List.mem_filter.mpr ⟨hr, decide_eq_true hm⟩)
      rw [ResidentTable.first_load, ResidentTable.total_load] at hin
      refine List.filter_eq_self.mpr fun n hn => decide_eq_true ?_
      have hn := Run.mem_frames.mp hn
      unfold Run.Has at hn
      omega
    · next hm =>
      refine List.filter_eq_nil_iff.mpr fun n hn hp => hm ?_
      exact h.managed_of_has ht hr (Run.mem_frames.mp hn) (of_decide_eq_true hp).1
  have hall : (runs.flatMap Run.frames).filter (fun n =>
      t.first.number ≤ n ∧ n < t.first.number + t.total) = (t.managed runs).flatMap Run.frames := by
    rw [List.filter_flatMap, List.flatMap_congr hframes]
    clear h hframes
    induction runs with
    | nil => rfl
    | cons r rest ih =>
      rw [List.flatMap_cons, ih]
      by_cases hm : t.first.number ≤ r.first
      · rw [if_pos hm, ResidentTable.managed_cons_of_le hm, List.flatMap_cons]
      · rw [if_neg hm, ResidentTable.managed_cons_of_lt (Nat.lt_of_not_le hm), List.nil_append]
  rw [hall]
  exact h.balance ht

end Slots

section Uniqueness

variable {free : Nat}

theorem Books.freeCount_unique (h : m.Books range runs) (h' : m'.Books range runs)
    (ht : m.allocator.table = some t)
    (ht' : m'.allocator.table = some { t with freeCount := free }) : free = t.freeCount := by
  have hb := h.balance ht
  have hb' : free + Run.frameCount (t.managed runs) = t.total := h'.balance ht'
  omega

/-- The runs in use determine the bytes of the slots. -/
theorem Books.slots_unique (h : m.Books range runs) (h' : m'.Books range runs)
    (ht : m.allocator.table = some t)
    (ht' : m'.allocator.table = some { t with freeCount := free }) {a : Nat} (ha : t.HasByte a) :
    m'.ram.byteAt a = m.ram.byteAt a :=
  ResidentTable.byteAt_of_slotAt (fun _ hi => (h'.tells ht' hi).unique (h.tells ht hi) h.apart) ha

end Uniqueness

end Memory

end MipsVM
