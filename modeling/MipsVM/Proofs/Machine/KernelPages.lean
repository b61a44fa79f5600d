import MipsVM.Proofs.Frame.HandOut
import MipsVM.Proofs.Machine.Reached

/-!
# Kernel pages

The kernel is given frames by their address in the direct-mapped window, which shows the low 512 MiB
of physical memory. The frame table may have frames beyond it. A run is handed out before its address
is formed, and the address is formed of its first frame alone. A run that lies in the window is seen
there page by page, and can be taken back. A run that only begins in the window is answered in the
same way, and one that begins beyond it is lost in a panic.

## Main definitions

- `SeenFrom`: the window shows a run of frames from an address on
- `Memory.ServesKernel`: what a request for kernel pages answers once a run was found

## Main statements

- `seenFrom_iff`: which runs the window shows from the address of their first frame on
- `Books.servesKernel`: what follows from the books
- `Reached.allocKernel_exact`: what a request for kernel pages does, whatever was asked of the machine
- `allocKernel_edge`: runs that leave the window
-/

namespace MipsVM

section Window

variable {a : VirtualAddress} {pa : PhysicalAddress} {first : PhysicalPage} {count : Nat}

theorem kernelAddress_eq_ok :
    kernelAddress pa = .ok a ↔
      pa.toNat < kernelWindowSize ∧ a.toNat = kernelWindowBase + pa.toNat := by
  have hsize : kernelWindowSize = 0x20000000 := rfl
  have hbase : kernelWindowBase = 0x80000000 := rfl
  unfold kernelAddress
  split
  · rw [Except.ok.injEq, Address.ext_iff]
    dsimp only
    omega
  · simp only [reduceCtorEq, false_iff]
    omega

theorem physicalAddress?_eq_some :
    physicalAddress? a = some pa ↔
      pa.toNat < kernelWindowSize ∧ a.toNat = kernelWindowBase + pa.toNat := by
  have hsize : kernelWindowSize = 0x20000000 := rfl
  have hbase : kernelWindowBase = 0x80000000 := rfl
  unfold physicalAddress?
  split
  · rw [Option.some.injEq, Address.ext_iff]
    dsimp only
    omega
  · simp only [reduceCtorEq, false_iff]
    omega

/-- The window shows `count` frames from `first` on, one page after the other from the address on. -/
def SeenFrom (first : PhysicalPage) (count : Nat) (a : VirtualAddress) : Prop :=
  ∀ i < count, ∃ page frame, a.add? (4096 * i) = some page ∧ first.add? i = some frame ∧
    physicalAddress? page = some frame.base

/-- The frames of a run are seen from the address of the first frame on if the run ends in the
window. -/
theorem seenFrom_iff (h : kernelAddress first.base = .ok a) :
    SeenFrom first count a ↔ (first.number + count) * 4096 ≤ kernelWindowSize := by
  have hsize : kernelWindowSize = 0x20000000 := rfl
  have hbase : kernelWindowBase = 0x80000000 := rfl
  obtain ⟨hin, ha⟩ := kernelAddress_eq_ok.mp h
  have hfirst : first.base.toNat = first.number * 4096 := rfl
  constructor
  · intro hseen
    by_contra hout
    -- the first frame beyond the window belongs to the run
    obtain ⟨page, frame, -, hframe, hpa⟩ := hseen (0x20000 - first.number) (by omega)
    have hnumber := Page.add?_eq_some.mp hframe
    have hlow : frame.number * 4096 < kernelWindowSize := (physicalAddress?_eq_some.mp hpa).1
    omega
  · intro hend i hi
    refine ⟨⟨a.toNat + 4096 * i, by omega⟩, ⟨first.number + i, by omega⟩, dif_pos (by omega),
      dif_pos (by omega), physicalAddress?_eq_some.mpr ⟨?_, ?_⟩⟩ <;>
      simp only [Page.base] <;> omega

end Window

namespace Memory

variable {range : PhysicalRange} {m : Memory} {runs : List Run} {t : ResidentTable}
  {left : FrameTable} {frame : PhysicalPage} {count : Nat}

/-- What a request for `count` kernel pages answers, if the run from `frame` on is handed out for it
and `left` is what is left of memory. -/
structure ServesKernel (m : Memory) (count : Nat) (frame : PhysicalPage) (left : Memory) : Prop where
  /-- The first page is seen at the address, and all pages are seen from it on if the run ends in the
  window. To give the run back restores memory, unless it is so long that the check of its slots
  cannot count its frames. -/
  answered : frame.number * 4096 < kernelWindowSize → ∃ a,
    allocKernel count m = .done a left [] ∧ physicalAddress? a = some frame.base ∧
      (SeenFrom frame count a ↔ (frame.number + count) * 4096 ≤ kernelWindowSize) ∧
      ∃ events, freeKernel a left =
        if count < 65534 then .done () m events else .panic .addOverflow left []
  /-- A run that begins beyond the window stays in use, although nobody is told of it. -/
  lost : kernelWindowSize ≤ frame.number * 4096 →
    allocKernel count m = .panic .outsideKernelWindow left []

theorem allocKernel_of_ok {m' : Memory} {a : VirtualAddress} {events : List Event}
    (h : alloc count m = .done frame m' events) (ha : kernelAddress frame.base = .ok a) :
    allocKernel count m = .done a m' events := by
  rw [allocKernel, Routine.bind_of_ok h, ha, Routine.orPanic_ok, Routine.pure_apply,
    List.append_nil]
  rfl

theorem allocKernel_of_panic {m' : Memory} {p : Panic} {events : List Event}
    (h : alloc count m = .done frame m' events) (hp : kernelAddress frame.base = .error p) :
    allocKernel count m = .panic p m' events := by
  rw [allocKernel, Routine.bind_of_ok h, hp]
  simp only [Routine.orPanic, Routine.panic, Ending.panic, List.append_nil]

theorem freeKernel_eq_free {a : VirtualAddress} (h : physicalAddress? a = some frame.base) :
    freeKernel a = free frame := by
  have haligned : frame.base.isAligned := by
    simp [Address.isAligned, Page.base]
  unfold freeKernel
  rw [h]
  exact (if_pos haligned).trans (by rw [Page.page_base])

theorem alloc_eq_done (ht : m.allocator.table = some t)
    (ha : FrameTable.alloc count (t.load m.ram) = .done frame left []) :
    alloc count m = .done frame (m.withTable t left) [] := by
  rw [alloc_of_table ht, onTable_apply, ha]
  rfl

/-- A run that was handed out by the table is taken back, which restores memory. -/
theorem Books.free_withTable (h : m.Books range runs) (ht : m.allocator.table = some t)
    (hfirst : left.first = t.first) (htotal : left.total = t.total) {events : List Event}
    (hfree : FrameTable.free frame left =
      if count < 65534 then .done count (t.load m.ram) events else .panic .addOverflow left []) :
    free frame (m.withTable t left) =
      if count < 65534 then .done () m events else .panic .addOverflow (m.withTable t left) [] := by
  have hload := h.load_withTable ht hfirst htotal
  have htable : (m.withTable t left).allocator.table = some { t with freeCount := left.freeCount } :=
    rfl
  rw [free_of_table htable, onTable_apply, hload]
  by_cases hcount : count < 65534
  · rw [if_pos hcount] at hfree ⊢
    rw [Routine.bind_of_ok hfree, Routine.pure_apply, List.append_nil]
    dsimp only
    rw [h.withTable_withTable ht htotal (ResidentTable.total_load t m.ram), withTable_load ht]
    rfl
  · rw [if_neg hcount] at hfree ⊢
    have hsame := withTable_load htable
    rw [hload] at hsame
    rw [Routine.bind_of_error hfree, hsame]
    rfl

theorem Books.servesKernel (h : m.Books range runs) (ht : m.allocator.table = some t)
    (ha : FrameTable.alloc count (t.load m.ram) = .done frame left []) :
    m.ServesKernel count frame (m.withTable t left) := by
  have hrecords := (h.table t ht).2.records
  have halloc := alloc_eq_done ht ha
  obtain ⟨hfirst, htotal⟩ : left.first = t.first ∧ left.total = t.total := by
    obtain ⟨start, hc, -, -, hrow, -, hclaim⟩ := FrameTable.alloc_of_ok (by rw [ha]; rfl)
    obtain rfl : left = (t.load m.ram).claim start count hc :=
      congrArg Ending.state (ha.symm.trans hclaim)
    exact ⟨rfl, (FrameTable.total_claim hc hrow.1).trans (ResidentTable.total_load t m.ram)⟩
  have hbase : frame.base.toNat = frame.number * 4096 := rfl
  have hsize : kernelWindowSize = 0x20000000 := rfl
  refine ⟨fun hin => ?_, fun hout => ?_⟩
  · obtain ⟨a, hva⟩ : ∃ a, kernelAddress frame.base = .ok a := ⟨_, dif_pos (by omega)⟩
    have hpa := physicalAddress?_kernelAddress hva
    refine ⟨a, allocKernel_of_ok halloc hva, hpa, seenFrom_iff hva,
      [.runFreed (t.load m.ram).positions], ?_⟩
    rw [freeKernel_eq_free hpa]
    exact h.free_withTable ht hfirst htotal (hrecords.free_of_alloc ha)
  · exact allocKernel_of_panic halloc (dif_neg (by omega))

end Memory

namespace Machine

variable {range : PhysicalRange} {s : Machine} {t : ResidentTable} {count : Nat}

/-- Whatever was asked of a machine since boot, once there is a frame table a request for kernel pages
is refused, which changes nothing, if no row of free slots is long enough. Otherwise the lowest such
row is handed out, and the answer depends on where it lies. -/
theorem Reached.allocKernel_exact (h : s.Reached range) (ht : s.memory.allocator.table = some t)
    (hpos : 1 ≤ count) (hle : count ≤ 65534) :
    ((¬ ∃ i, FreeRow (t.load s.memory.ram).slots i count) ∧
      Memory.allocKernel count s.memory = .error (.noRun count) s.memory []) ∨
    ∃ start frame left, IsLeast {i | FreeRow (t.load s.memory.ram).slots i count} start ∧
      (t.load s.memory.ram).HandsOut count start frame left ∧
      (frame.number + count) * 4096 ≤ range.last.toNat ∧
      s.memory.ServesKernel count frame (s.memory.withTable t left) := by
  obtain ⟨runs, hbooks, -⟩ := h.orderly.memory
  have htable := (hbooks.table t ht).2
  by_cases hrow : ∃ i, FreeRow (t.load s.memory.ram).slots i count
  · obtain ⟨start, frame, left, hlowest, ha, hands⟩ :=
      htable.records.alloc_of_freeRow (hbooks.fits ht) hpos (by omega) hrow
    refine .inr ⟨start, frame, left, hlowest, hands, ?_, hbooks.servesKernel ht ha⟩
    have hend : start + count ≤ (t.load s.memory.ram).total := hlowest.1.1
    have hframe : frame.number = t.first.number + start := hands.frame
    rw [ResidentTable.total_load] at hend
    refine Nat.le_trans (Nat.mul_le_mul_right 4096 ?_) htable.high
    omega
  · have ha : FrameTable.alloc count (t.load s.memory.ram) =
        .error (.noRun count) (t.load s.memory.ram) [] :=
      FrameTable.alloc_of_not_freeRow hpos fun hfit => hrow hfit.2
    refine .inl ⟨hrow, ?_⟩
    rw [Memory.allocKernel, Routine.bind_apply, Memory.alloc_of_table ht, Memory.onTable_apply, ha]
    simp only [Ending.error, Memory.withTable_load ht]

section Edge

/-- Three frames of memory; the last of them is the first one beyond the window. -/
def edgeRam : Ram :=
  ⟨0x1FFFE, Array.replicate 3 .zero, by decide⟩

/-- A machine with this memory, when the frame table has the last two frames. -/
def edge : Machine :=
  ((Request.allocator .buildTable).perform
    (.boot edgeRam ⟨true, 0, ⟨#[], .ofSeed 0⟩⟩)).state

theorem reached_edge : edge.Reached edgeRam.range :=
  .step (.boot (atBoot_boot _ _)) trivial

/-- The last frame in the window is seen in it, and given back. -/
theorem allocKernel_exact_edge :
    ∃ left, Memory.allocKernel 1 edge.memory = .done (.ofNat 0x9FFFF000) left [] ∧
      SeenFrom (.ofNumber 0x1FFFF) 1 (.ofNat 0x9FFFF000) ∧
      ∃ events, Memory.freeKernel (.ofNat 0x9FFFF000) left = .done () edge.memory events := by
  have ht : edge.memory.allocator.table = some ⟨.ofNumber 0x1FFFF, .ofNat 0x1FFFE000, 2, 2⟩ := rfl
  have hrow : FreeRow ((⟨.ofNumber 0x1FFFF, .ofNat 0x1FFFE000, 2, 2⟩ : ResidentTable).load
      edge.memory.ram).slots 0 1 :=
    freeRow_iff.mpr (by decide)
  rcases reached_edge.allocKernel_exact ht (Nat.le_refl 1) (by decide) with
    ⟨hno, -⟩ | ⟨start, frame, left, hlowest, hands, -, hserves⟩
  · exact absurd ⟨0, hrow⟩ hno
  · obtain rfl : start = 0 := Nat.le_zero.mp (hlowest.2 hrow)
    obtain rfl : frame = .ofNumber 0x1FFFF := Page.ext hands.frame
    obtain ⟨a, halloc, -, hseen, events, hfree⟩ := hserves.answered (by decide)
    obtain rfl : a = .ofNat 0x9FFFF000 :=
      (Except.ok.inj (congrArg Ending.outcome halloc)).symm
    exact ⟨_, halloc, hseen.mpr (by decide), events, hfree⟩

/-- A run of both frames of the table is given to the kernel, although its second page is not seen. If
they are asked for one by one, the second request is a panic, and the frame is in use all the same. -/
theorem allocKernel_edge :
    edge.Reached edgeRam.range ∧
      (Memory.allocKernel 2 edge.memory).outcome = .ok (.ofNat 0x9FFFF000) ∧
      ¬ SeenFrom (.ofNumber 0x1FFFF) 2 (.ofNat 0x9FFFF000) ∧
    let s := ((Request.allocator (.allocKernel 1)).perform edge).state
    s.Reached edgeRam.range ∧
      (Memory.allocKernel 1 s.memory).outcome = .error (.panic .outsideKernelWindow) ∧
      s.memory.allocator.freeCount = 1 ∧
      (Memory.allocKernel 1 s.memory).state.allocator.freeCount = 0 := by
  refine ⟨reached_edge, rfl, fun hseen => ?_, .step reached_edge trivial, rfl, rfl, rfl⟩
  exact absurd ((seenFrom_iff rfl).mp hseen) (by decide)

end Edge

end Machine

end MipsVM
