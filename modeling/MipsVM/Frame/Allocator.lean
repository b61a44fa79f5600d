import MipsVM.Frame.Early
import MipsVM.Frame.Placement
import MipsVM.Frame.Resident

/-!
# The page allocator

All frames come from one allocator. Until the frame table is built they are taken off the bottom
of the memory; from then on the table hands them out and takes them back. The kernel's own pages
are the same frames, seen through the direct-mapped window.

## Main definitions

- `PageAllocator`, `Memory`: the allocator, and the memory that it hands out
- `Memory.layTable`: lay the slots of a frame table
- `Memory.buildTable`: build the frame table and put it in charge
- `Memory.alloc`, `Memory.free`: hand out and take back a run of frames
- `Memory.allocKernel`, `Memory.freeKernel`: the same by addresses in the kernel window

## Main statements

- `buildTable_of_handedOver`: the table is built at most once
-/

namespace MipsVM

/-- The source of all frames. -/
structure PageAllocator where
  early : EarlyMemory
  /-- The frame table, once it is built. -/
  table : Option ResidentTable

/-- The frame table in its place, with all frames free. -/
def TablePlacement.table (p : TablePlacement) : ResidentTable :=
  ⟨p.managed.page, p.slotsAt, p.total, p.total⟩

namespace PageAllocator

/-- Whether the frame table serves requests. -/
def hasTable (a : PageAllocator) : Bool :=
  a.table.isSome

/-- The number of free frames in the table. -/
def freeCount (a : PageAllocator) : Nat :=
  match a.table with
  | some t => t.freeCount
  | none => 0

/-- The number of frames in the table. -/
def total (a : PageAllocator) : Nat :=
  match a.table with
  | some t => t.total
  | none => 0

/-- The allocator in words. -/
def describe (a : PageAllocator) : String :=
  s!"KernelPageAllocator \x7b ready: {a.hasTable}, free: {a.freeCount}, total: {a.total}, .. \x7d"

end PageAllocator

/-- Physical memory together with the allocator of its frames. -/
structure Memory where
  ram : Ram
  allocator : PageAllocator

namespace Memory

variable {ε α : Type}

/-- Memory of which nothing has been handed out; frames come from a range. -/
def new (ram : Ram) (range : PhysicalRange) : Memory :=
  ⟨ram, ⟨.ofRange range, none⟩⟩

/-- Change the memory's bytes by a checked access. -/
def access (f : Ram → Except Panic Ram) : Routine Memory ε Unit := fun m =>
  match f m.ram with
  | .ok ram => .done () { m with ram := ram } []
  | .error p => .panic p m []

/-- Look at the memory's bytes by a checked access. -/
def inspect (f : Ram → Except Panic α) : Routine Memory ε α := fun m =>
  match f m.ram with
  | .ok a => .done a m []
  | .error p => .panic p m []

/-- Work on the early memory. -/
def onEarly (r : Routine EarlyMemory ε α) : Routine Memory ε α :=
  Routine.within (·.allocator.early)
    (fun early m => { m with allocator := { m.allocator with early := early } }) r

/-- Take pages off the early memory. -/
def takeEarly (pages : Nat) : Routine Memory FrameError PhysicalPage :=
  onEarly (EarlyMemory.take pages)

/-- Work on the frame table and write back what is left of it. -/
def onTable (t : ResidentTable) (r : Routine FrameTable ε α) : Routine Memory ε α := fun m =>
  match r (t.load m.ram) with
  | ⟨outcome, left, events⟩ =>
    ⟨outcome,
      { ram := t.store m.ram left.slots
        allocator := { m.allocator with table := some { t with freeCount := left.freeCount } } },
      events⟩

/-- Lay the slots of a frame table at the bottom of a range; no frame is in use. -/
def layTable (range : PhysicalRange) : Routine Memory FrameError ResidentTable := fun m =>
  match TablePlacement.ofRange? range with
  | none => .error .nothingToManage m []
  | some place =>
    match m.ram.check place.slotsAt place.slotBytes with
    | .error p => .panic p m []
    | .ok _ =>
      .done place.table
        { m with ram := place.table.store m.ram (List.replicate place.total .free) }
        [.tableBuilt place.slotsAt place.total place.managed place.last]

/-- Put a frame table in charge, unless one is in charge already. -/
def putTable (t : ResidentTable) : Routine Memory FrameError Unit := fun m =>
  match m.allocator.table with
  | none => .done () { m with allocator := { m.allocator with table := some t } } []
  | some _ => .error .nothingToManage m []

/-- Build the frame table over what is left of the early memory. -/
def buildTable : Routine Memory FrameError Unit := do
  let early ← Routine.gets (·.allocator.early)
  if early.handedOver then Routine.fail .nothingToManage
  else
    let t ← layTable early.rest
    -- the early memory is handed over here and not before, so it stays in charge where no table
    -- can be laid
    let _ ← onEarly EarlyMemory.handOver
    putTable t

/-- Hand out `count` consecutive frames; the answer is the first. -/
def alloc (count : Nat) : Routine Memory FrameError PhysicalPage := fun m =>
  match m.allocator.table with
  | some t => onTable t (FrameTable.alloc count) m
  | none => takeEarly count m

/-- Hand out one frame. -/
def allocOne : Routine Memory FrameError PhysicalPage :=
  alloc 1

/-- Take back the run that begins with a frame. -/
def free (frame : PhysicalPage) : Routine Memory FrameError Unit := fun m =>
  match m.allocator.table with
  | some t => onTable t (FrameTable.free frame >>= fun _ => pure ()) m
  | none => .error (.unmanaged frame.base) m [.earlyFree frame.base]

/-- Hand out `count` consecutive frames as kernel pages; the answer is the kernel's address of the
first. -/
def allocKernel (count : Nat) : Routine Memory FrameError VirtualAddress := do
  let frame ← alloc count
  Routine.orPanic (kernelAddress frame.base)

/-- Take back the kernel pages that begin at an address. -/
def freeKernel (a : VirtualAddress) : Routine Memory FrameError Unit :=
  match physicalAddress? a with
  | none => fun m => .error (.unmanaged (.ofNat a.toNat)) m [.kernelFreeOutside a]
  | some pa =>
    if pa.isAligned then free pa.page
    else fun m => .error (.unmanaged pa) m [.kernelFreeUnaligned a]

/-- Once the early memory was handed over, the table is not built again. -/
theorem buildTable_of_handedOver {m : Memory} (h : m.allocator.early.handedOver) :
    buildTable m = .error .nothingToManage m [] := by
  have hgets : (Routine.gets (·.allocator.early) : Routine Memory FrameError EarlyMemory) m =
      .done m.allocator.early m [] := rfl
  rw [buildTable, Routine.bind_of_ok hgets, if_pos h]
  rfl

end Memory

end MipsVM
