import MipsVM.Proofs.Frame.HandOut
import MipsVM.Proofs.Frame.Lending

/-!
# What a refusal leaves behind

A run is taken back only after all its slots were looked at, so that a table is changed only where
it shows a whole run, whatever its slots hold. A run is handed out before it is known whether its
first frame has a page number. If it has none, the run is refused although its slots are marked.

## Main definitions

- `FrameTable.ShowsRun`: a slot begins a run and the slots after it agree
- `FrameTable.Overruns`: the lowest row of free slots that is long enough has no page number

## Main statements

- `checkRun_eq_ok_iff`: what the check of the slots of a run accepts
- `free_verifies`: a run is taken back if and only if the table shows it, and a failure changes
  nothing
- `alloc_unchanged`: a request for a run that is refused changes nothing, unless the row that was
  found overruns the page numbers
- `alloc_changed_overrun`: such a row
-/

namespace MipsVM

/-- The check accepts the slots of a run from position `k` on, as far as the count goes, and nothing
else. -/
theorem checkRun_eq_ok_iff {index count : Nat} {slots : List Slot} {k : Nat} :
    checkRun index count slots k = .ok () ↔
      (∀ j s, slots[j]? = some s → s.position = k + j ∧ s.runLength = count) ∧
        k + slots.length < 65535 := by
  constructor
  · induction slots generalizing k with
    | nil =>
      intro h
      unfold checkRun at h
      split at h
      · next hk => exact ⟨fun j s hs => absurd hs (by simp), hk⟩
      · cases h
    | cons slot rest ih =>
      intro h
      unfold checkRun at h
      split at h
      · cases h
      · split at h
        · next hslot =>
          obtain ⟨hrest, hlength⟩ := ih h
          refine ⟨fun j s hs => ?_, by rw [List.length_cons]; omega⟩
          cases j with
          | zero =>
            obtain rfl : slot = s := Option.some.inj hs
            exact hslot
          | succ j =>
            have := hrest j s (by simpa using hs)
            omega
        · cases h
  · rintro ⟨hall, hlength⟩
    rw [checkRun_eq hall, if_pos hlength]

namespace FrameTable

variable {t : FrameTable} {frame : PhysicalPage} {index count start : Nat}

/-- By its slots, a run of `count` frames begins at slot `index`. -/
structure ShowsRun (t : FrameTable) (index count : Nat) : Prop where
  inside : index + count ≤ t.total
  head : ∃ s, t.slots[index]? = some s ∧ s.position = 1 ∧ s.runLength = count
  slots : ∀ k < count, ∃ s, t.slots[index + k]? = some s ∧ s.position = k + 1 ∧ s.runLength = count

theorem checkRun_window_iff (hinside : index + count ≤ t.total) :
    checkRun index count ((t.slots.drop index).take count) 1 = .ok () ↔
      count < 65534 ∧ ∀ k < count, ∃ s, t.slots[index + k]? = some s ∧ s.position = k + 1 ∧
        s.runLength = count := by
  have hlength : ((t.slots.drop index).take count).length = count := by
    unfold total at hinside
    simp only [List.length_take, List.length_drop]
    omega
  have hwindow {k : Nat} (hk : k < count) :
      ((t.slots.drop index).take count)[k]? = t.slots[index + k]? := by
    rw [List.getElem?_take_of_lt hk, List.getElem?_drop]
  rw [checkRun_eq_ok_iff, hlength]
  constructor
  · rintro ⟨hall, hcount⟩
    refine ⟨by omega, fun k hk => ?_⟩
    have hs := List.getElem?_eq_getElem (l := (t.slots.drop index).take count) (i := k) (by omega)
    obtain ⟨hposition, hrun⟩ := hall k _ hs
    exact ⟨_, (hwindow hk).symm.trans hs, by omega, hrun⟩
  · rintro ⟨hcount, hall⟩
    refine ⟨fun k s hs => ?_, by omega⟩
    have hk : k < count := by
      obtain ⟨hk, -⟩ := List.getElem?_eq_some_iff.mp hs
      omega
    obtain ⟨s', hs', hposition, hrun⟩ := hall k hk
    rw [hwindow hk, hs'] at hs
    obtain rfl := Option.some.inj hs
    exact ⟨by omega, hrun⟩

theorem ShowsRun.free_eq (h : t.ShowsRun index count) (hindex : t.indexOf? frame.base = some index)
    (hcount : count < 65534) :
    free frame t = .done count (t.clear index count) [.runFreed (t.clear index count).positions] := by
  obtain ⟨head, hhead, hposition, rfl⟩ := h.head
  have hslot : t.slot index = .ok head := slot_eq_ok.mpr hhead
  have hcheck := (checkRun_window_iff h.inside).mpr ⟨hcount, h.slots⟩
  unfold free
  simp only [hindex, hslot, hposition, hcheck]
  rw [if_neg (by omega), if_neg (by omega), if_neg (Nat.not_lt.mpr h.inside)]

theorem ShowsRun.undoes (h : t.ShowsRun index count) (hindex : t.indexOf? frame.base = some index)
    (hcount : count < 65534) : t.Undoes frame count := by
  have hfree := h.free_eq hindex hcount
  rw [indexOf?_eq_some, Page.page_base] at hindex
  exact undoes_of_eq_clear (by omega) h.inside hfree

theorem exists_showsRun_of_ok (hok : (free frame t).outcome = .ok count) :
    ∃ index, t.indexOf? frame.base = some index ∧ t.ShowsRun index count ∧ count < 65534 := by
  rcases free_cases t frame with
    ⟨-, failure, hout⟩ | ⟨index, head, hindex, hhead, hposition, hinside, hcheck, hfree⟩
  · rw [hout] at hok
    cases hok
  · obtain rfl : head.runLength = count := by
      rw [hfree] at hok
      exact Except.ok.inj hok
    obtain ⟨hcount, hslots⟩ := (checkRun_window_iff hinside).mp hcheck
    exact ⟨index, hindex, ⟨hinside, ⟨head, hhead, hposition, rfl⟩, hslots⟩, hcount⟩

theorem state_free_of_error {failure : Failure FrameError}
    (herror : (free frame t).outcome = .error failure) : (free frame t).state = t := by
  rcases free_cases t frame with ⟨hstate, -⟩ | ⟨index, head, -, -, -, -, -, hfree⟩
  · exact hstate
  · rw [hfree] at herror
    cases herror

/-- Whatever the slots of a table hold, a run is taken back if and only if the table shows that it
begins with the given frame, and it is short enough for the check. Then its slots are freed and
nothing else is changed. In all other cases the table stays as it is. -/
theorem free_verifies (t : FrameTable) (frame : PhysicalPage) :
    (∀ count, (free frame t).outcome = .ok count ↔
      count < 65534 ∧ ∃ index, t.indexOf? frame.base = some index ∧ t.ShowsRun index count) ∧
    (∀ count, (free frame t).outcome = .ok count → t.Undoes frame count) ∧
    ∀ failure, (free frame t).outcome = .error failure → (free frame t).state = t := by
  refine ⟨fun count => ⟨fun hok => ?_, ?_⟩, fun count hok => ?_, fun _ => state_free_of_error⟩
  · obtain ⟨index, hindex, hshows, hcount⟩ := exists_showsRun_of_ok hok
    exact ⟨hcount, index, hindex, hshows⟩
  · rintro ⟨hcount, index, hindex, hshows⟩
    rw [hshows.free_eq hindex hcount]
    rfl
  · obtain ⟨index, hindex, hshows, hcount⟩ := exists_showsRun_of_ok hok
    exact hshows.undoes hindex hcount

section Corrupt

/-- A table in which the first two slots contradict each other. -/
def corrupt : FrameTable :=
  ⟨.ofNumber 16, [⟨1, 2, by decide, by decide⟩, ⟨2, 3, by decide, by decide⟩,
    ⟨1, 1, by decide, by decide⟩], 0⟩

theorem free_verifies_corrupt :
    (free (.ofNumber 16) corrupt).outcome = .error (.panic (.corruptRun 0)) ∧
      (free (.ofNumber 16) corrupt).state = corrupt ∧ corrupt.Undoes (.ofNumber 18) 1 := by
  have hout : (free (.ofNumber 16) corrupt).outcome = .error (.panic (.corruptRun 0)) := rfl
  refine ⟨hout, (free_verifies corrupt (.ofNumber 16)).2.2 _ hout, ?_⟩
  exact (free_verifies corrupt (.ofNumber 18)).2.1 1 rfl

end Corrupt

/-- The lowest row of `count` free slots begins at slot `start`, and the frame of this slot would lie
beyond the last page number. -/
structure Overruns (t : FrameTable) (count start : Nat) : Prop where
  pos : 0 < count
  le : count ≤ 65535
  lowest : IsLeast {i | FreeRow t.slots i count} start
  beyond : 0x100000 ≤ t.first.number + start

/-- A row that overruns the page numbers is claimed, and the request is refused. -/
theorem Records.alloc_of_overruns {runs : List Run} (h : t.Records runs)
    (hover : t.Overruns count start) :
    ∃ hc : count < 65536, alloc count t = .error (.noRun count) (t.claim start count hc) [] := by
  obtain ⟨hpos, hle, hlowest, hbeyond⟩ := hover
  have hcount := h.le_freeCount hlowest.1
  rcases alloc_cases t count with ⟨h0, -⟩ | ⟨-, hwhy, -⟩ | ⟨start', hc, -, -, hrow, hbefore, ha⟩
  · omega
  · rcases hwhy with hlarge | hfew | hnone
    · omega
    · omega
    · exact absurd hlowest.1 (hnone start)
  · obtain rfl : start' = start := (isLeast_freeRow hrow hbefore).unique hlowest
    have hframe : t.first.add? start' = none := dif_neg (Nat.not_lt.mpr hbeyond)
    rw [hframe] at ha
    exact ⟨hc, ha⟩

theorem state_alloc_of_error {failure : Failure FrameError}
    (hout : (alloc count t).outcome = .error failure) (hno : ¬ ∃ start, t.Overruns count start) :
    (alloc count t).state = t := by
  rcases alloc_cases t count with
    ⟨-, ha⟩ | ⟨-, -, ha⟩ | ⟨start, hc, hpos, hfree, hrow, hbefore, ha⟩
  · rw [ha]
    rfl
  · rw [ha]
    rfl
  · by_cases hlt : t.first.number + start < 0x100000
    · have hframe : t.first.add? start = some ⟨_, hlt⟩ := dif_pos hlt
      rw [ha, hframe] at hout
      cases hout
    · refine absurd ⟨start, hpos, by omega, isLeast_freeRow hrow hbefore, by omega⟩ hno

theorem Records.state_alloc_iff {runs : List Run} (h : t.Records runs) {failure : Failure FrameError}
    (hout : (alloc count t).outcome = .error failure) :
    (alloc count t).state = t ↔ ¬ ∃ start, t.Overruns count start := by
  refine ⟨?_, state_alloc_of_error hout⟩
  rintro hstate ⟨start, hover⟩
  obtain ⟨hc, ha⟩ := h.alloc_of_overruns hover
  have hcount := h.le_freeCount hover.lowest.1
  have hpos := hover.pos
  -- the count of free frames tells that the row was claimed
  have hfree : t.freeCount - count = t.freeCount := by
    rw [ha] at hstate
    exact congrArg FrameTable.freeCount hstate
  omega

/-- Whatever was asked of a table since it was new, a request for a run that is refused changes
nothing, except where the row that was found overruns the page numbers: this row is lost. A table of
frames that all have page numbers has no such row. -/
theorem alloc_unchanged (total : Nat) (first : PhysicalPage) (requests : List TableRequest)
    (count : Nat) :
    let t := stateAfter TableRequest.perform requests (new total first)
    (∀ failure, (alloc count t).outcome = .error failure →
      ((alloc count t).state = t ↔ ¬ ∃ start, t.Overruns count start)) ∧
    (∀ start, t.Overruns count start → ∃ hc : count < 65536,
      alloc count t = .error (.noRun count) (t.claim start count hc) []) ∧
    (first.number + total ≤ 0x100000 → ¬ ∃ start, t.Overruns count start) := by
  intro t
  obtain ⟨runs, hruns⟩ := records_stateAfter total first requests
  obtain ⟨hfirst, htotal⟩ := extent_stateAfter requests (new total first)
  refine ⟨fun failure hout => hruns.state_alloc_iff hout, fun start hover =>
    hruns.alloc_of_overruns hover, ?_⟩
  rintro hfit ⟨start, hpos, -, ⟨⟨hend, -⟩, -⟩, hbeyond⟩
  have hlength : t.slots.length = total := htotal.trans (total_new total first)
  have hnumber : t.first.number = first.number := congrArg Page.number hfirst
  omega

/-- Two free frames that are not neighbours stay free when a run of two is refused. -/
theorem alloc_unchanged_fragmented :
    let t := stateAfter TableRequest.perform [.alloc 1, .alloc 1, .free (.ofNat 0x10000)]
      (new 3 (.ofNumber 16))
    t.freeCount = 2 ∧ (alloc 2 t).outcome = .error (.error (.noRun 2)) ∧ (alloc 2 t).state = t := by
  obtain ⟨hiff, -, hfit⟩ := alloc_unchanged 3 (.ofNumber 16)
    [.alloc 1, .alloc 1, .free (.ofNat 0x10000)] 2
  exact ⟨rfl, rfl, (hiff _ rfl).mpr (hfit (by decide))⟩

/-- A table with one slot more than there are pages from its first frame on. When the last page is in
use, a request for one frame is refused, and yet it leaves no slot free. -/
theorem alloc_changed_overrun :
    let t := stateAfter TableRequest.perform [.alloc 1] (new 2 (.ofNumber 0xFFFFF))
    (alloc 1 t).outcome = .error (.error (.noRun 1)) ∧
      t.freeCount = 1 ∧ (alloc 1 t).state.freeCount = 0 ∧
      t.slot 1 = .ok .free ∧ (alloc 1 t).state.slot 1 ≠ .ok .free := by
  refine ⟨rfl, rfl, rfl, rfl, ?_⟩
  intro h
  exact absurd (Except.ok.inj h) (by decide)

end FrameTable

end MipsVM
