import MipsVM.Routine
import MipsVM.Frame.Slot
import MipsVM.Layout
import MipsVM.Address.Checked

/-!
# The frame table

The table has a slot for each of a stretch of consecutive frames. Runs of frames are handed out
first fit, and a run is taken back only as a whole: its slots are checked from the first to the
last before any of them is cleared.

## Main definitions

- `FrameTable`: the first frame, the slots and the count of free frames
- `FrameTable.indexOf?`, `FrameTable.addressOf?`: frames and slot numbers
- `FrameTable.alloc`, `FrameTable.free`: hand out and take back a run
- `firstFit`: the first stretch of free slots of a given length

## Main statements

- `length_overwrite`: the number of slots never changes

## Design notes

Positions in a run are counted in 16 bits, and the check of a run counts one step past its last
slot. A run that leaves no room for that step is refused with a panic.
-/

namespace MipsVM

/-- The slots of `slots` with those from `start` on replaced by `new`. -/
def overwrite (slots : List Slot) (start : Nat) (new : List Slot) : List Slot :=
  slots.take start ++ new ++ slots.drop (start + new.length)

theorem length_overwrite {slots new : List Slot} {start : Nat}
    (h : start + new.length ≤ slots.length) :
    (overwrite slots start new).length = slots.length := by
  simp only [overwrite, List.length_append, List.length_take, List.length_drop]
  omega

/-- The slots outside the overwritten stretch stay, and the stretch holds the new slots. -/
theorem getElem?_overwrite {slots new : List Slot} {start i : Nat}
    (h : start + new.length ≤ slots.length) :
    (overwrite slots start new)[i]? =
      if start ≤ i ∧ i < start + new.length then new[i - start]? else slots[i]? := by
  have hlen : (slots.take start).length = start := by
    simp only [List.length_take]
    omega
  unfold overwrite
  by_cases h₁ : i < start
  · rw [List.append_assoc, List.getElem?_append_left (by omega), if_neg (by omega),
      List.getElem?_take_of_lt h₁]
  · by_cases h₂ : i < start + new.length
    · rw [List.append_assoc, List.getElem?_append_right (by omega), hlen,
        List.getElem?_append_left (by omega), if_pos (by omega)]
    · rw [List.getElem?_append_right (by simp only [List.length_append]; omega),
        List.length_append, hlen, List.getElem?_drop, if_neg (by omega)]
      congr 1
      omega

/-- Go along the slots in search of `count` free ones in a row. So far a row of `row` free slots
began at `start`. -/
def firstFitFrom (count : Nat) : List Slot → (start row : Nat) → Option Nat
  | [], _, _ => none
  | slot :: rest, start, row =>
    if slot.isFree then
      if row + 1 = count then some start else firstFitFrom count rest start (row + 1)
    -- no row that begins before this slot can reach past it
    else firstFitFrom count rest (start + row + 1) 0

/-- The number of the first slot that begins a row of `count` free slots, for a positive count. -/
def firstFit (count : Nat) (slots : List Slot) : Option Nat :=
  firstFitFrom count slots 0 0

/-- Check that the slots are those of a run of `count` frames from position `k` on. The run begins
at slot `index`. -/
def checkRun (index count : Nat) : List Slot → (k : Nat) → Except Panic Unit
  -- the end is found only after one more step of the 16-bit count
  | [], k => if k < 65535 then .ok () else .error .addOverflow
  | slot :: rest, k =>
    if 65535 ≤ k then .error .addOverflow
    else if slot.position = k ∧ slot.runLength = count then checkRun index count rest (k + 1)
    else .error (.corruptRun index)

/-- A table of the frames from `first` on, one slot for each. -/
structure FrameTable where
  first : PhysicalPage
  slots : List Slot
  /-- The number of frames counted as free. -/
  freeCount : Nat

namespace FrameTable

/-- The table of `total` free frames from `first` on. -/
def new (total : Nat) (first : PhysicalPage) : FrameTable :=
  ⟨first, List.replicate total .free, total⟩

/-- The number of managed frames. -/
def total (t : FrameTable) : Nat :=
  t.slots.length

/-- The managed frames as a range of addresses. The length of the range is taken as a 32-bit
word. -/
def range (t : FrameTable) : Except Panic PhysicalRange := do
  let last ← t.first.base.plus (t.total * pageSize % 0x100000000)
  pure ⟨t.first.base, last⟩

/-- The slot of a number. -/
def slot (t : FrameTable) (index : Nat) : Except Panic Slot :=
  match t.slots[index]? with
  | some s => .ok s
  | none => .error (.indexOutOfBounds t.total index)

/-- The slots of `count` numbers from `index` on. If some of them do not exist, the complaint names
the first of these. -/
def slotsFrom (t : FrameTable) (index count : Nat) : Except Panic (List Slot) :=
  if count = 0 ∨ index + count ≤ t.total then .ok ((t.slots.drop index).take count)
  else .error (.indexOutOfBounds t.total (max index t.total))

/-- The address of a managed frame. -/
def addressOf? (t : FrameTable) (index : Nat) : Option PhysicalAddress :=
  if index < t.total then (t.first.add? index).map Page.base else none

/-- The number of the slot of the frame that contains an address, if the frame is managed. -/
def indexOf? (t : FrameTable) (a : PhysicalAddress) : Option Nat :=
  (a.page.distanceFrom t.first).filter (· < t.total)

/-- The slots in use, with their numbers. -/
def allocated (t : FrameTable) : List (Nat × Slot) :=
  (t.slots.zipIdx.filter fun (s, _) => !s.isFree).map fun (s, i) => (i, s)

/-- The positions of all slots. -/
def positions (t : FrameTable) : List Nat :=
  t.slots.map Slot.position

/-- The table in words. -/
def describe (t : FrameTable) : String :=
  s!"FrameTable \x7b first: {t.first.tagged}, total: {t.total}, free: {t.freeCount} \x7d"

/-- The table after the run of `count` frames at slot `start` was handed out. -/
def claim (t : FrameTable) (start count : Nat) (h : count < 65536) : FrameTable :=
  { t with slots := overwrite t.slots start (Slot.run count h), freeCount := t.freeCount - count }

/-- The table after the run of `count` frames at slot `start` was taken back. -/
def clear (t : FrameTable) (start count : Nat) : FrameTable :=
  { t with
    slots := overwrite t.slots start (List.replicate count .free)
    freeCount := t.freeCount + count }

/-- Hand out the first `count` consecutive free frames. A run whose first frame has no page number
is lost. -/
def alloc (count : Nat) : Routine FrameTable FrameError PhysicalPage := fun t =>
  if count = 0 then .error .noFrames t []
  else if h : 65535 < count ∨ t.freeCount < count then .error (.noRun count) t []
  else
    match firstFit count t.slots with
    | none => .error (.noRun count) t []
    | some start =>
      let claimed := t.claim start count (by omega)
      -- the slots may reach beyond the last page number, so that the first page does not exist
      match t.first.add? start with
      | some frame => .done frame claimed []
      | none => .error (.noRun count) claimed []

/-- Take back the run that begins with a frame; the answer is its length. -/
def free (frame : PhysicalPage) : Routine FrameTable FrameError Nat := fun t =>
  match t.indexOf? frame.base with
  | none => .error (.unmanaged frame.base) t [.freeOfUnmanaged frame.base]
  | some index =>
    match t.slot index with
    | .error p => .panic p t []
    | .ok head =>
      if head.position = 0 then .error (.alreadyFree index) t [.freeOfFree index]
      else if head.position ≠ 1 then
        .error (.insideRun index head.position) t [.freeInsideRun index head.position]
      else if t.total < index + head.runLength then
        .panic (.rangeEndOutOfBounds (index + head.runLength) t.total) t []
      else
        match checkRun index head.runLength ((t.slots.drop index).take head.runLength) 1 with
        | .error p => .panic p t []
        | .ok () =>
          let cleared := t.clear index head.runLength
          .done head.runLength cleared [.runFreed cleared.positions]

@[simp] theorem total_new (total : Nat) (first : PhysicalPage) : (new total first).total = total :=
  List.length_replicate

theorem indexOf?_eq_some {t : FrameTable} {a : PhysicalAddress} {index : Nat} :
    t.indexOf? a = some index ↔
      t.first.number ≤ a.page.number ∧ index = a.page.number - t.first.number ∧
        index < t.total := by
  simp only [indexOf?, Page.distanceFrom, Option.filter_eq_some_iff, decide_eq_true_eq]
  split
  · simp_all [eq_comm]
  · simp only [reduceCtorEq, false_and, false_iff]
    omega

end FrameTable

end MipsVM
