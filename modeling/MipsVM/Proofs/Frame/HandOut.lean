import Mathlib.Order.Bounds.Basic
import MipsVM.Proofs.Frame.Stretch

/-!
# Which run is handed out

A table hands out the lowest of all runs of free frames that are long enough, and refuses only if
there is none. That it compares the count of free frames first, and leaps over places in its search,
does not show in the answer.

## Main definitions

- `firstFitByWindows`: the search that looks at windows of slots and leaps over those in use
- `FrameTable.HandsOut`: what handing out a run does

## Main statements

- `firstFit_eq_firstFitByWindows`: both searches find the same place
- `Records.le_freeCount`: a row of free slots is no longer than the count of free frames
- `alloc_lowest`: whatever was asked of a table before, it hands out the lowest run or refuses
-/

namespace MipsVM

variable {slots : List Slot} {count start : Nat}

theorem freeRow_iff : FreeRow slots start count ↔
    start + count ≤ slots.length ∧ ∀ s ∈ (slots.drop start).take count, s.isFree := by
  refine and_congr_right fun hle => ⟨fun h s hs => ?_, fun h i h₁ h₂ => ?_⟩
  · obtain ⟨k, hk, rfl⟩ := List.getElem_of_mem hs
    have hlt : k < count := by
      rw [List.length_take] at hk
      omega
    obtain ⟨s, hs, hfree⟩ := h (start + k) (by omega) (by omega)
    rw [List.getElem_take, List.getElem_drop]
    rwa [(List.getElem?_eq_some_iff.mp hs).2]
  · refine ⟨slots[i], List.getElem?_eq_getElem (by omega), h _ ?_⟩
    refine List.mem_of_getElem? (i := i - start) ?_
    rw [List.getElem?_take_of_lt (by omega), List.getElem?_drop, Nat.add_sub_cancel' h₁]
    exact List.getElem?_eq_getElem (by omega)

/-- Go along the slots window by window in search of `count` free ones in a row. If a window holds a
slot in use, the next window begins after the last of these. -/
def firstFitByWindows (count : Nat) (slots : List Slot) (start : Nat) : Option Nat :=
  if start + count ≤ slots.length then
    match _hused : ((slots.drop start).take count).reverse.findIdx? (!·.isFree) with
    | none => some start
    | some behind => firstFitByWindows count slots (start + (count - behind))
  else none
termination_by slots.length + 1 - start
decreasing_by
  have hlt := (List.findIdx?_eq_some_iff_getElem.mp _hused).1
  simp only [List.length_reverse, List.length_take] at hlt
  omega

/-- The last slot in use within a window, when `behind` free slots follow it. -/
theorem exists_used_of_findIdx? (hle : start + count ≤ slots.length) {behind : Nat}
    (h : ((slots.drop start).take count).reverse.findIdx? (!·.isFree) = some behind) :
    behind < count ∧ ∃ slot, slots[start + (count - behind - 1)]? = some slot ∧ ¬ slot.isFree := by
  obtain ⟨hlt, hused, -⟩ := List.findIdx?_eq_some_iff_getElem.mp h
  have hlength : ((slots.drop start).take count).length = count := by
    simp only [List.length_take, List.length_drop]
    omega
  rw [List.length_reverse, hlength] at hlt
  refine ⟨hlt, slots[start + (count - behind - 1)], List.getElem?_eq_getElem (by omega), ?_⟩
  rw [List.getElem_reverse, List.getElem_take, List.getElem_drop] at hused
  simp only [hlength, Nat.sub_right_comm count 1 behind] at hused
  simpa using hused

theorem isFirstFit_firstFitByWindows (hbefore : ∀ i < start, ¬ FreeRow slots i count) :
    IsFirstFit count slots (firstFitByWindows count slots start) := by
  -- no row that is long enough begins before the window that is looked at
  fun_induction firstFitByWindows count slots start with
  | case1 start hle hnone =>
    refine ⟨freeRow_iff.mpr ⟨hle, fun s hs => ?_⟩, hbefore⟩
    have hfree := List.findIdx?_eq_none_iff.mp hnone s (List.mem_reverse.mpr hs)
    simpa using hfree
  | case2 start hle behind hsome ih =>
    obtain ⟨hlt, slot, hslot, hused⟩ := exists_used_of_findIdx? hle hsome
    refine ih fun i hi => ?_
    by_cases his : i < start
    · exact hbefore i his
    · exact not_freeRow_of_used hslot hused (by omega) (by omega)
  | case3 start hlong =>
    intro i hrow
    by_cases his : i < start
    · exact hbefore i his hrow
    · have hend := hrow.1
      omega

theorem IsFirstFit.unique {place place' : Option Nat} (h : IsFirstFit count slots place)
    (h' : IsFirstFit count slots place') : place = place' := by
  cases place with
  | none =>
    cases place' with
    | none => rfl
    | some start' => exact absurd h'.1 (h start')
  | some start =>
    cases place' with
    | none => exact absurd h.1 (h' start)
    | some start' =>
      have hle : ¬ start' < start := fun hlt => h.2 start' hlt h'.1
      have hle' : ¬ start < start' := fun hlt => h'.2 start hlt h.1
      rw [Nat.le_antisymm (Nat.le_of_not_lt hle) (Nat.le_of_not_lt hle')]

/-- The search slot by slot and the search window by window find the same place. -/
theorem firstFit_eq_firstFitByWindows (hpos : 0 < count) (slots : List Slot) :
    firstFit count slots = firstFitByWindows count slots 0 :=
  (isFirstFit_firstFit hpos slots).unique
    (isFirstFit_firstFitByWindows fun i hi => absurd hi (Nat.not_lt_zero i))

namespace FrameTable

variable {t : FrameTable} {runs : List Run} {frame : PhysicalPage}

/-- The run of `count` frames at slot `start` was handed out, and `frame` is the first of them: the
slots of the run hold it, the other slots are as before, and so many fewer frames are free. -/
structure HandsOut (t : FrameTable) (count start : Nat) (frame : PhysicalPage) (t' : FrameTable) :
    Prop where
  frame : frame.number = t.first.number + start
  first : t'.first = t.first
  run : ∀ k < count, ∃ s, t'.slots[start + k]? = some s ∧ s.position = k + 1 ∧ s.runLength = count
  others : ∀ i, i < start ∨ start + count ≤ i → t'.slots[i]? = t.slots[i]?
  freeCount : t'.freeCount + count = t.freeCount

theorem handsOut_claim (hc : count < 65536) (hrow : FreeRow t.slots start count)
    (hfree : count ≤ t.freeCount) (hframe : frame.number = t.first.number + start) :
    t.HandsOut count start frame (t.claim start count hc) := by
  have hend : start + count ≤ t.total := hrow.1
  refine ⟨hframe, rfl, fun k hk => ?_, fun i hi => ?_, Nat.sub_add_cancel hfree⟩
  · have hlt : k < (Slot.run count hc).length := by rwa [Slot.length_run]
    refine ⟨(Slot.run count hc)[k], ?_, ?_⟩
    · rw [getElem?_claim hc hend, if_pos (by omega), Nat.add_sub_cancel_left]
      exact List.getElem?_eq_getElem hlt
    · rw [Slot.getElem_run]
      exact ⟨rfl, rfl⟩
  · rw [getElem?_claim hc hend, if_neg (by omega)]

/-- A row of free slots is no longer than the count of free frames, so that nothing is refused for
the count that would be found by the search. -/
theorem Records.le_freeCount (h : t.Records runs) (hrow : FreeRow t.slots start count) :
    count ≤ t.freeCount := by
  obtain ⟨stretches, hlaid, -⟩ := h.exists_laidOut
  obtain ⟨hend, hall⟩ := freeRow_iff.mp hrow
  have hsub : ((t.slots.drop start).take count).Sublist t.slots :=
    (List.take_sublist _ _).trans (List.drop_sublist _ _)
  have hlength : ((t.slots.drop start).take count).length = count := by
    simp only [List.length_take, List.length_drop]
    omega
  calc count = ((t.slots.drop start).take count).countP Slot.isFree := by
        rw [List.countP_eq_length.mpr hall, hlength]
    _ ≤ t.slots.countP Slot.isFree := hsub.countP_le
    _ = t.freeCount := hlaid.freeCount_eq.symm

theorem isLeast_freeRow (hrow : FreeRow t.slots start count)
    (hbefore : ∀ i < start, ¬ FreeRow t.slots i count) :
    IsLeast {i | FreeRow t.slots i count} start :=
  ⟨hrow, fun i hi => Nat.le_of_not_lt fun hlt => hbefore i hlt hi⟩

/-- A run is handed out if some row of free slots is long enough. -/
theorem Records.alloc_of_freeRow (h : t.Records runs) (hfit : t.first.number + t.total ≤ 0x100000)
    (hpos : 0 < count) (hle : count ≤ 65535) (hrow : ∃ i, FreeRow t.slots i count) :
    ∃ start frame t', IsLeast {i | FreeRow t.slots i count} start ∧
      alloc count t = .done frame t' [] ∧ t.HandsOut count start frame t' := by
  obtain ⟨i, hrow⟩ := hrow
  rcases alloc_cases t count with
    ⟨h0, -⟩ | ⟨-, hwhy, -⟩ | ⟨start, hc, -, hfree, hstart, hbefore, ha⟩
  · omega
  · have hcount := h.le_freeCount hrow
    rcases hwhy with hlarge | hfew | hnone
    · omega
    · omega
    · exact absurd hrow (hnone i)
  · have hlt : t.first.number + start < 0x100000 := by
      have hend : start + count ≤ t.total := hstart.1
      omega
    have hframe : t.first.add? start = some ⟨_, hlt⟩ := dif_pos hlt
    rw [hframe] at ha
    exact ⟨start, _, _, isLeast_freeRow hstart hbefore, ha, handsOut_claim hc hstart hfree rfl⟩

theorem alloc_of_not_freeRow (hpos : 0 < count)
    (hno : ¬ (count ≤ 65535 ∧ ∃ i, FreeRow t.slots i count)) :
    alloc count t = .error (.noRun count) t [] := by
  rcases alloc_cases t count with ⟨h0, -⟩ | ⟨-, -, ha⟩ | ⟨start, hc, -, -, hrow, -, -⟩
  · omega
  · exact ha
  · exact absurd ⟨by omega, start, hrow⟩ hno

/-- Whatever was asked of a table of frames with page numbers since it was new, a request for a run
is answered with the lowest row of free slots that is long enough. If there is none, or more frames
are wanted than a run can have, it is refused and nothing is changed. -/
theorem alloc_lowest (total : Nat) (first : PhysicalPage) (hfit : first.number + total ≤ 0x100000)
    (requests : List TableRequest) (count : Nat) :
    let t := stateAfter TableRequest.perform requests (new total first)
    (count = 0 → alloc count t = .error .noFrames t []) ∧
    (0 < count → firstFit count t.slots = firstFitByWindows count t.slots 0) ∧
    (0 < count → (count ≤ 65535 ∧ ∃ i, FreeRow t.slots i count) →
      ∃ start frame t', IsLeast {i | FreeRow t.slots i count} start ∧
        alloc count t = .done frame t' [] ∧ t.HandsOut count start frame t') ∧
    (0 < count → ¬ (count ≤ 65535 ∧ ∃ i, FreeRow t.slots i count) →
      alloc count t = .error (.noRun count) t []) := by
  intro t
  obtain ⟨runs, hruns⟩ := records_stateAfter total first requests
  obtain ⟨hfirst, htotal⟩ := extent_stateAfter requests (new total first)
  rw [total_new] at htotal
  have hfit' : t.first.number + t.total ≤ 0x100000 := by
    rw [hfirst, htotal]
    exact hfit
  refine ⟨fun h0 => if_pos h0, fun hpos => firstFit_eq_firstFitByWindows hpos _, ?_,
    fun hpos hno => alloc_of_not_freeRow hpos hno⟩
  exact fun hpos ⟨hle, hrow⟩ => hruns.alloc_of_freeRow hfit' hpos hle hrow

/-- A hole of one frame is passed over by a request for two. -/
theorem alloc_lowest_fragmented :
    ∃ t', alloc 2 (stateAfter TableRequest.perform
        [.alloc 1, .alloc 1, .free (.ofNat 0x10000)] (new 5 (.ofNumber 16))) =
          .done (.ofNumber 18) t' [] ∧
      (stateAfter TableRequest.perform
        [.alloc 1, .alloc 1, .free (.ofNat 0x10000)] (new 5 (.ofNumber 16))).HandsOut 2 2
          (.ofNumber 18) t' := by
  obtain ⟨-, -, hout, -⟩ := alloc_lowest 5 (.ofNumber 16) (by decide)
    [.alloc 1, .alloc 1, .free (.ofNat 0x10000)] 2
  have hrow : FreeRow (stateAfter TableRequest.perform
      [.alloc 1, .alloc 1, .free (.ofNat 0x10000)] (new 5 (.ofNumber 16))).slots 2 2 :=
    freeRow_iff.mpr (by decide)
  obtain ⟨start, frame, t', -, halloc, hands⟩ := hout (by decide) ⟨by decide, 2, hrow⟩
  have hframe : frame = .ofNumber 18 := (Except.ok.inj (congrArg Ending.outcome halloc)).symm
  subst hframe
  have hstart : 18 = 16 + start := hands.frame
  obtain rfl : start = 2 := by omega
  exact ⟨t', halloc, hands⟩

end FrameTable

end MipsVM
