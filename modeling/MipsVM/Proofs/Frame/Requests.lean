import MipsVM.Machine.Perform
import MipsVM.Proofs.Frame.Building

/-!
# What requests to a frame table, to the allocator and to memory leave alone

## Main definitions

- `TableRequest.Reads`: the request leaves the whole table as it is
- `RamRequest.Spares`: the request writes no byte of the slots of a table

## Main statements

- `TableRequest.perform_reads`: what held before such a request holds after it
- `TableRequest.perform_extent`, `FrameTable.extent_stateAfter`: the frames of the table stay the
  same, whatever is asked
- `AllocatorRequest.perform_keeps`: what the three operations of the allocator keep, each request
  keeps
- `AllocatorRequest.perform_leaves`: the bytes of the runs in use stay the same, whatever is asked
- `RamRequest.perform_spares`: such a request keeps the slots
-/

namespace MipsVM

namespace Memory

variable {ε α : Type} {m : Memory} {R : Memory → Prop}

theorem endsIn_access {f : Ram → Except Panic Ram} (h : R m)
    (hf : ∀ ram, f m.ram = .ok ram → R { m with ram := ram }) :
    (access f : Routine Memory ε Unit).EndsIn m R := by
  rw [Routine.endsIn_iff]
  unfold access
  cases hram : f m.ram with
  | error p => exact h
  | ok ram => exact hf ram hram

theorem endsIn_inspect {f : Ram → Except Panic α} (h : R m) :
    (inspect f : Routine Memory ε α).EndsIn m R := by
  rw [Routine.endsIn_iff]
  unfold inspect
  cases f m.ram <;> exact h

end Memory

namespace TableRequest

variable {t : FrameTable} {request : TableRequest}

/-- The request neither hands out a run nor takes one back. -/
def Reads : TableRequest → Prop
  | .alloc _ | .free _ => False
  | _ => True

theorem perform_reads {R : FrameTable → Prop} (hr : request.Reads) (h : R t) :
    request.perform.EndsIn t R := by
  have hlook (f : FrameTable → Except Panic Reply) :
      Routine.EndsIn (fun t => (Routine.orPanic (f t) : Routine _ FrameError _) t) t R := by
    have hrun : (Routine.orPanic (f t) : Routine _ FrameError _).EndsIn t R :=
      Routine.ends_orPanic.mpr ⟨fun _ _ => h, fun _ _ => h⟩
    exact (Routine.ends_congr rfl).mpr hrun
  cases request with
  | alloc | free => exact absurd hr id
  | range => exact hlook fun t => Reply.range <$> t.range
  | position index => exact hlook fun t => (fun s => .count s.position) <$> t.slot index
  | runLength index => exact hlook fun t => (fun s => .count s.runLength) <$> t.slot index
  | slots first stop => exact hlook fun t => Reply.slots <$> t.slotsFrom first (stop - first)
  | total | firstFrame | addressOf | indexOf | allocated | describe => exact h

/-- Whatever is asked of a table, it stays a table of the same frames. -/
theorem perform_extent (t : FrameTable) (request : TableRequest) :
    request.perform.EndsIn t fun left => left.first = t.first ∧ left.total = t.total := by
  cases request with
  | alloc count =>
    refine Routine.EndsIn.bind (Routine.endsIn_iff.mpr ?_) fun _ _ h => h
    rcases FrameTable.state_alloc t count with hstate | ⟨start, hc, -, -, hrow, hstate⟩
    · rw [hstate]
      exact ⟨rfl, rfl⟩
    · rw [hstate]
      exact ⟨rfl, FrameTable.total_claim hc hrow.1⟩
  | free a =>
    refine Routine.EndsIn.bind (Routine.endsIn_iff.mpr ?_) fun _ _ h => h
    rcases FrameTable.state_free t a.page with hstate | ⟨index, head, -, -, -, hle, hstate⟩
    · rw [hstate]
      exact ⟨rfl, rfl⟩
    · rw [hstate]
      exact ⟨rfl, FrameTable.total_clear hle⟩
  | total | firstFrame | range | position | runLength | slots | addressOf | indexOf | allocated
  | describe => exact perform_reads trivial ⟨rfl, rfl⟩

end TableRequest

theorem FrameTable.extent_stateAfter (requests : List TableRequest) (t : FrameTable) :
    (stateAfter TableRequest.perform requests t).first = t.first ∧
      (stateAfter TableRequest.perform requests t).total = t.total := by
  induction requests generalizing t with
  | nil => exact ⟨rfl, rfl⟩
  | cons request rest ih =>
    obtain ⟨hfirst, htotal⟩ := Routine.endsIn_iff.mp (TableRequest.perform_extent t request)
    obtain ⟨hfirst', htotal'⟩ := ih (request.perform t).state
    exact ⟨hfirst'.trans hfirst, htotal'.trans htotal⟩

namespace AllocatorRequest

variable {m : Memory}

/-- What is kept when the table is built, and whenever a run is handed out or taken back, is kept by
each request. -/
theorem perform_keeps {I : Memory → Prop} (h : I m) (hbuild : Memory.buildTable.EndsIn m I)
    (halloc : ∀ count, (Memory.alloc count).EndsIn m I)
    (hfree : ∀ frame, (Memory.free frame).EndsIn m I) (request : AllocatorRequest) :
    request.perform.EndsIn m I := by
  cases request with
  | buildTable => exact hbuild.bind fun _ _ hm => hm
  | alloc count => exact (halloc count).bind fun _ _ hm => hm
  | free a => exact (hfree a.page).bind fun _ _ hm => hm
  | allocKernel count =>
    refine ((halloc count).bind fun frame m' hm => ?_).bind fun _ _ hm => hm
    exact Routine.ends_orPanic.mpr ⟨fun _ _ => hm, fun _ _ => hm⟩
  | freeKernel a =>
    refine Routine.EndsIn.bind ?_ fun _ _ hm => hm
    unfold Memory.freeKernel
    split
    · exact h
    · exact Routine.endsIn_ite (fun _ => hfree _) fun _ => h
  | readiness | describe => exact h

/-- The bytes of the runs in use stay the same, and the table stays where it is. -/
theorem perform_leaves {range : PhysicalRange} {runs : List Run} (h : m.Books range runs)
    (request : AllocatorRequest) : request.perform.EndsIn m fun m' => m.Leaves m' runs := by
  refine perform_keeps .refl ?_ (fun count => ?_) (Memory.free_leaves h) request
  · refine (Memory.buildTable_ends h).mono (fun _ _ hm => hm.2) (fun _ m' hm => ?_)
      (fun _ _ hno => hno.elim)
    rw [hm]
    exact .refl
  · exact (Memory.alloc_ends h count).mono (fun _ _ hm => hm.2.1) (fun _ _ hm => hm.2.1)
      (fun _ _ hno => hno.elim)

end AllocatorRequest

namespace RamRequest

variable {ε : Type} {m : Memory} {t : ResidentTable} {request : RamRequest}

/-- The request writes no byte of the slots. -/
def Spares (t : ResidentTable) : RamRequest → Prop
  | .write a bytes => ∀ i, t.HasByte i → i < a.toNat ∨ a.toNat + bytes.length ≤ i
  | .zero a | .copy _ a => ∀ i, t.HasByte i → i / 4096 ≠ a.page.number
  | _ => True

theorem perform_spares (h : request.Spares t) :
    (request.perform : Routine Memory ε Reply).EndsIn m fun left =>
      left.allocator = m.allocator ∧ m.ram.Keeps left.ram t.HasByte := by
  have haccess {f : Ram → Except Panic Ram}
      (hf : ∀ ram, f m.ram = .ok ram → m.ram.Keeps ram t.HasByte) :
      (Memory.access f : Routine Memory ε Unit).EndsIn m fun left =>
        left.allocator = m.allocator ∧ m.ram.Keeps left.ram t.HasByte :=
    Memory.endsIn_access ⟨rfl, .refl⟩ fun ram hram => ⟨rfl, hf ram hram⟩
  cases request with
  | range | base => exact ⟨rfl, .refl⟩
  | read | digest => exact (Memory.endsIn_inspect ⟨rfl, .refl⟩).bind fun _ _ h => h
  | write a bytes =>
    refine (haccess fun ram hram => ?_).bind fun _ _ h => h
    rw [Ram.eq_setBytes_of_write hram]
    exact (Ram.keeps_setBytes _ _).mono h
  | zero a =>
    refine (haccess fun ram hram => ?_).bind fun _ _ h => h
    rw [Ram.eq_setFrame_of_blankFrame hram]
    exact (Ram.keeps_setFrame _ _).mono h
  | copy source target =>
    refine (haccess fun ram hram => ?_).bind fun _ _ h => h
    obtain ⟨bytes, rfl⟩ := Ram.eq_setFrame_of_duplicateFrame hram
    exact (Ram.keeps_setFrame _ _).mono h

end RamRequest

end MipsVM
