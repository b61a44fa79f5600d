import MipsVM.Proofs.Frame.FirstFit
import MipsVM.Proofs.Frame.Run
import MipsVM.Proofs.Routine

/-!
# What the frame table records

The table records the runs that are handed out: each slot tells the place of its frame in its run,
and the count of free frames is what the runs leave over. Handing out a run and taking it back keep
this true of the runs in use.

## Main definitions

- `FrameTable.Records`: the table records some runs

## Main statements

- `alloc_cases`, `free_cases`: all that handing out a run and taking one back can do
- `alloc_ends`, `free_ends`: the runs that are recorded afterwards
- `Records.free_eq`: what taking back a run in use does
- `Records.free_of_alloc`: a run that is taken back leaves what was there before
- `Records.exists_freeRow_one`: a frame that is counted as free is there
-/

namespace MipsVM

/-- Slots that are those of a run from position `k` on pass the check, if the count goes as far. -/
theorem checkRun_eq {index count : Nat} {slots : List Slot} {k : Nat}
    (h : ∀ j s, slots[j]? = some s → s.position = k + j ∧ s.runLength = count) :
    checkRun index count slots k =
      if k + slots.length < 65535 then .ok () else .error .addOverflow := by
  induction slots generalizing k with
  | nil => rfl
  | cons slot rest ih =>
    have hslot : slot.position = k ∧ slot.runLength = count := h 0 slot rfl
    have hrest : ∀ j s, rest[j]? = some s → s.position = k + 1 + j ∧ s.runLength = count := by
      intro j s hs
      have := h (j + 1) s (by simpa using hs)
      omega
    unfold checkRun
    rw [List.length_cons]
    -- the count is a 16-bit number and is increased after each slot
    by_cases hk : 65535 ≤ k
    · rw [if_pos hk, if_neg (by omega)]
    · rw [if_neg hk, if_pos hslot, ih hrest,
        show k + 1 + rest.length = k + (rest.length + 1) by omega]

namespace FrameTable

variable {t : FrameTable} {runs runs' : List Run} {r : Run}

/-- The table records the runs: they are apart, lie in the table, their slots and no others tell of
them, and they leave over the frames that are counted as free. -/
structure Records (t : FrameTable) (runs : List Run) : Prop where
  apart : runs.Pairwise Run.Apart
  inside : ∀ r ∈ runs, 0 < r.count ∧ t.first.number ≤ r.first ∧ r.stop ≤ t.first.number + t.total
  tells : ∀ i (s : Slot), t.slots[i]? = some s → s.Tells runs (t.first.number + i)
  balance : t.freeCount + Run.frameCount runs = t.total

theorem records_new (total : Nat) (first : PhysicalPage) : (new total first).Records [] where
  apart := List.Pairwise.nil
  inside := by simp
  tells i s hs := by
    have hs : s = .free := List.eq_of_mem_replicate (List.mem_of_getElem? hs)
    exact .inr ⟨by simp, hs⟩
  balance := by simp [new, FrameTable.total]

theorem Records.perm (h : t.Records runs) (hp : runs.Perm runs') : t.Records runs' where
  apart := Run.perm_pairwise hp h.apart
  inside r hr := h.inside r (hp.mem_iff.mpr hr)
  tells i s hs := (h.tells i s hs).perm hp
  balance := by rw [← Run.frameCount_perm hp]; exact h.balance

@[simp] theorem total_claim {start count : Nat} (hc : count < 65536)
    (h : start + count ≤ t.total) : (t.claim start count hc).total = t.total :=
  length_overwrite (by rwa [Slot.length_run])

@[simp] theorem total_clear {start count : Nat} (h : start + count ≤ t.total) :
    (t.clear start count).total = t.total :=
  length_overwrite (by rwa [List.length_replicate])

theorem getElem?_claim {start count i : Nat} (hc : count < 65536) (h : start + count ≤ t.total) :
    (t.claim start count hc).slots[i]? =
      if start ≤ i ∧ i < start + count then (Slot.run count hc)[i - start]? else t.slots[i]? := by
  have hend : start + (Slot.run count hc).length ≤ t.slots.length := by rwa [Slot.length_run]
  rw [claim, getElem?_overwrite hend, Slot.length_run]

theorem getElem?_clear {start count i : Nat} (h : start + count ≤ t.total) :
    (t.clear start count).slots[i]? =
      if start ≤ i ∧ i < start + count then some .free else t.slots[i]? := by
  have hend : start + (List.replicate count Slot.free).length ≤ t.slots.length := by
    rwa [List.length_replicate]
  rw [clear, getElem?_overwrite hend, List.length_replicate]
  split
  · exact List.getElem?_replicate_of_lt (by omega)
  · rfl

theorem Records.not_has_of_freeRow (h : t.Records runs) {start count n : Nat}
    (hrow : FreeRow t.slots start count) (hn : (⟨t.first.number + start, count⟩ : Run).Has n) :
    ∀ r ∈ runs, ¬ r.Has n := by
  simp only [Run.Has, Run.stop] at hn
  obtain ⟨s, hs, hfree⟩ := hrow.2 (n - t.first.number) (by omega) (by omega)
  have htells := h.tells _ s hs
  rw [show t.first.number + (n - t.first.number) = n by omega] at htells
  exact htells.isFree_iff.mp hfree

/-- Once a row of free slots is claimed the table records one more run. -/
theorem Records.claim (h : t.Records runs) {start count : Nat} (hc : count < 65536)
    (hpos : 0 < count) (hrow : FreeRow t.slots start count) (hfree : count ≤ t.freeCount) :
    (t.claim start count hc).Records (⟨t.first.number + start, count⟩ :: runs) := by
  have hend : start + count ≤ t.total := hrow.1
  have htotal := total_claim hc hend
  refine ⟨List.pairwise_cons.mpr ⟨fun r hr => ?_, h.apart⟩, ?_, fun i s hs => ?_, ?_⟩
  · exact Run.apart_of_disjoint (fun n hn => h.not_has_of_freeRow hrow hn r hr) hpos
      (h.inside r hr).1
  · rw [List.forall_mem_cons, htotal]
    refine ⟨⟨hpos, Nat.le_add_right _ _, ?_⟩, h.inside⟩
    simp only [FrameTable.claim, Run.stop]
    omega
  · rw [getElem?_claim hc hend] at hs
    split at hs
    · next hi =>
      rw [List.getElem?_eq_some_iff] at hs
      obtain ⟨hlt, rfl⟩ := hs
      rw [Slot.getElem_run hc hlt]
      refine .inl ⟨_, List.mem_cons_self, ?_, ?_, rfl⟩ <;>
        simp only [FrameTable.claim, Run.Has, Run.stop] <;> omega
    · next hi =>
      -- no other slot is changed, and none of them tells of the new run
      rw [Slot.Tells.cons_iff]
      · exact h.tells i s hs
      · simp only [FrameTable.claim, Run.Has, Run.stop]
        omega
  · have := h.balance
    rw [htotal, Run.frameCount_cons]
    simp only [FrameTable.claim]
    omega

theorem Records.stop_le (h : t.Records runs) (hr : r ∈ runs) :
    r.first - t.first.number + r.count ≤ t.total := by
  obtain ⟨-, hlow, hstop⟩ := h.inside r hr
  unfold Run.stop at hstop
  omega

/-- Once the slots of a run are cleared the table records the other runs. -/
theorem Records.clear (h : t.Records (r :: runs)) :
    (t.clear (r.first - t.first.number) r.count).Records runs := by
  obtain ⟨hr, hin⟩ := List.forall_mem_cons.mp h.inside
  obtain ⟨hapart, hp⟩ := List.pairwise_cons.mp h.apart
  have hend := h.stop_le List.mem_cons_self
  have htotal := total_clear hend
  refine ⟨hp, by rwa [htotal], fun i s hs => ?_, ?_⟩
  · rw [getElem?_clear hend] at hs
    split at hs
    · next hi =>
      have hhas : r.Has (t.first.number + i) := by
        simp only [Run.Has, Run.stop]
        omega
      have hs : s = .free := (Option.some.inj hs).symm
      exact .inr ⟨fun r' hr' => (hapart r' hr').not_has hhas, hs⟩
    · next hi =>
      refine (Slot.Tells.cons_iff (r := r) ?_).mp (h.tells i s hs)
      simp only [FrameTable.clear, Run.Has, Run.stop]
      omega
  · have := h.balance
    rw [Run.frameCount_cons] at this
    rw [htotal]
    simp only [FrameTable.clear]
    omega

/-- To clear the slots of a run right after it was claimed restores the table: what was free held
the slot of a free frame. -/
theorem Records.clear_claim (h : t.Records runs) {start count : Nat} (hc : count < 65536)
    (hrow : FreeRow t.slots start count) (hfree : count ≤ t.freeCount) :
    (t.claim start count hc).clear start count = t := by
  have hend : start + count ≤ t.total := hrow.1
  have hslots : ((t.claim start count hc).clear start count).slots = t.slots := by
    apply List.ext_getElem?
    intro i
    rw [getElem?_clear (by rwa [total_claim hc hend])]
    split
    · next hi =>
      obtain ⟨s, hs, hsfree⟩ := hrow.2 i hi.1 hi.2
      rw [hs, (h.tells i s hs).eq_free hsfree]
    · next hi => rw [getElem?_claim hc hend, if_neg hi]
  have hcount : t.freeCount - count + count = t.freeCount := Nat.sub_add_cancel hfree
  show FrameTable.mk t.first ((t.claim start count hc).clear start count).slots
    (t.freeCount - count + count) = t
  rw [hslots, hcount]

/-- A slot at position 1 is that of the first frame of a run. -/
theorem Records.exists_run (h : t.Records runs) {index : Nat} {head : Slot}
    (hhead : t.slots[index]? = some head) (hposition : head.position = 1) :
    ∃ r ∈ runs, r.first = t.first.number + index ∧ r.count = head.runLength := by
  rcases h.tells index head hhead with ⟨r, hr, hhas, htells, hlength⟩ | ⟨-, hfree⟩
  · have hle := hhas.1
    exact ⟨r, hr, by omega, hlength.symm⟩
  · exact absurd hposition (by rw [hfree]; decide)

theorem Records.slot_of_has (h : t.Records runs) (hr : r ∈ runs) {i : Nat} {s : Slot}
    (hi : r.Has (t.first.number + i)) (hs : t.slots[i]? = some s) :
    s.position = t.first.number + i - r.first + 1 ∧ s.runLength = r.count := by
  rcases h.tells i s hs with ⟨r', hr', hhas, htells⟩ | ⟨hno, -⟩
  · rwa [Run.eq_of_has h.apart hr hr' hi hhas]
  · exact absurd hi (hno r hr)

/-- The slots of a run that is in use, counted from its first frame. -/
theorem Records.slot_add (h : t.Records runs) (hr : r ∈ runs) {j : Nat} {s : Slot}
    (hj : j < r.count) (hs : t.slots[r.first - t.first.number + j]? = some s) :
    s.position = 1 + j ∧ s.runLength = r.count := by
  obtain ⟨-, hlow, -⟩ := h.inside r hr
  have hhas : r.Has (t.first.number + (r.first - t.first.number + j)) := by
    unfold Run.Has Run.stop
    omega
  have hslot := h.slot_of_has hr hhas hs
  omega

theorem Records.checkRun_eq (h : t.Records runs) (hr : r ∈ runs) :
    checkRun (r.first - t.first.number) r.count
      ((t.slots.drop (r.first - t.first.number)).take r.count) 1 =
        if 1 + r.count < 65535 then .ok () else .error .addOverflow := by
  have hend := h.stop_le hr
  unfold total at hend
  have hwindow : ((t.slots.drop (r.first - t.first.number)).take r.count).length = r.count := by
    simp only [List.length_take, List.length_drop]
    omega
  rw [MipsVM.checkRun_eq, hwindow]
  intro j s hs
  obtain ⟨hj, -⟩ := List.getElem?_eq_some_iff.mp hs
  rw [hwindow] at hj
  rw [List.getElem?_take_of_lt hj, List.getElem?_drop] at hs
  exact h.slot_add hr hj hs

/-- A frame that is counted as free is there. -/
theorem Records.exists_freeRow_one (h : t.Records runs) (hfree : 0 < t.freeCount) :
    ∃ i, FreeRow t.slots i 1 := by
  by_contra hno
  -- otherwise the runs in use leave no frame of the table over
  have hall : ∀ n, t.first.number ≤ n → n < t.first.number + t.total →
      ∃ r ∈ runs, r.Has n := by
    intro n h₁ h₂
    have hlt : n - t.first.number < t.slots.length := by
      unfold total at h₂
      omega
    have hs := List.getElem?_eq_getElem hlt
    have htells := h.tells _ _ hs
    rw [show t.first.number + (n - t.first.number) = n by omega] at htells
    by_contra hnone
    refine hno ⟨n - t.first.number, by omega, fun i h₃ h₄ => ?_⟩
    obtain rfl : i = n - t.first.number := by omega
    refine ⟨_, hs, htells.isFree_iff.mpr fun r hr hhas => hnone ⟨r, hr, hhas⟩⟩
  have := Run.le_frameCount hall
  have := h.balance
  omega

/-- All that handing out a run can do. -/
theorem alloc_cases (t : FrameTable) (count : Nat) :
    (count = 0 ∧ alloc count t = .error .noFrames t []) ∨
    (0 < count ∧ (65535 < count ∨ t.freeCount < count ∨ ∀ i, ¬ FreeRow t.slots i count) ∧
      alloc count t = .error (.noRun count) t []) ∨
    ∃ start, ∃ hc : count < 65536, 0 < count ∧ count ≤ t.freeCount ∧
      FreeRow t.slots start count ∧ (∀ i < start, ¬ FreeRow t.slots i count) ∧
      alloc count t =
        match t.first.add? start with
        | some frame => .done frame (t.claim start count hc) []
        | none => .error (.noRun count) (t.claim start count hc) [] := by
  by_cases h0 : count = 0
  · exact .inl ⟨h0, if_pos h0⟩
  have hpos : 0 < count := by omega
  have hfit := isFirstFit_firstFit hpos t.slots
  refine .inr ?_
  unfold alloc
  rw [if_neg h0]
  by_cases hlarge : 65535 < count ∨ t.freeCount < count
  · rw [dif_pos hlarge]
    exact .inl ⟨hpos, by omega, rfl⟩
  · rw [dif_neg hlarge]
    cases hfirst : firstFit count t.slots with
    | none =>
      rw [hfirst] at hfit
      exact .inl ⟨hpos, .inr (.inr hfit), rfl⟩
    | some start =>
      rw [hfirst] at hfit
      exact .inr ⟨start, by omega, hpos, by omega, hfit.1, hfit.2, rfl⟩

/-- A run is handed out where a row of slots was free. -/
theorem alloc_of_ok {count : Nat} {frame : PhysicalPage}
    (ha : (alloc count t).outcome = .ok frame) :
    ∃ start, ∃ hc : count < 65536, 0 < count ∧ count ≤ t.freeCount ∧
      FreeRow t.slots start count ∧ frame.number = t.first.number + start ∧
      alloc count t = .done frame (t.claim start count hc) [] := by
  rcases alloc_cases t count with
    ⟨-, he⟩ | ⟨-, -, he⟩ | ⟨start, hc, hpos, hfree, hrow, -, he⟩
  · rw [he] at ha
    cases ha
  · rw [he] at ha
    cases ha
  · cases hstart : t.first.add? start with
    | none =>
      rw [he, hstart] at ha
      cases ha
    | some frame' =>
      rw [hstart] at he
      rw [he] at ha
      obtain rfl : frame' = frame := Except.ok.inj ha
      exact ⟨start, hc, hpos, hfree, hrow, Page.add?_eq_some.mp hstart, he⟩

/-- However a request for a run ends, the table stays as it is or a row of free slots is claimed. -/
theorem state_alloc (t : FrameTable) (count : Nat) :
    (alloc count t).state = t ∨
      ∃ start, ∃ hc : count < 65536, 0 < count ∧ count ≤ t.freeCount ∧
        FreeRow t.slots start count ∧ (alloc count t).state = t.claim start count hc := by
  rcases alloc_cases t count with
    ⟨-, he⟩ | ⟨-, -, he⟩ | ⟨start, hc, hpos, hfree, hrow, -, he⟩
  · exact .inl (by rw [he]; rfl)
  · exact .inl (by rw [he]; rfl)
  · refine .inr ⟨start, hc, hpos, hfree, hrow, ?_⟩
    rw [he]
    split <;> rfl

/-- A table of which nothing is handed out hands out its first frames. -/
theorem alloc_new {total count : Nat} (first : PhysicalPage) (hc : count < 65536)
    (hpos : 0 < count) (hle : count ≤ total) :
    alloc count (new total first) = .done first ((new total first).claim 0 count hc) [] := by
  have hrow : FreeRow (new total first).slots 0 count := by
    refine ⟨by rw [Nat.zero_add, new, List.length_replicate]; exact hle, fun i _ hi => ?_⟩
    exact ⟨.free, List.getElem?_replicate_of_lt (by omega), rfl⟩
  rcases alloc_cases (new total first) count with
    ⟨h0, -⟩ | ⟨-, hwhy, -⟩ | ⟨start, hc', -, -, -, hbefore, ha⟩
  · omega
  · rcases hwhy with hlarge | hfew | hnone
    · omega
    · exact absurd hle (Nat.not_le.mpr hfew)
    · exact absurd hrow (hnone 0)
  · obtain rfl : start = 0 := by
      by_contra hne
      exact hbefore 0 (Nat.pos_of_ne_zero hne) hrow
    have hframe : (new total first).first.add? 0 = some first := dif_pos first.isLt
    rw [ha, hframe]

/-- A table of frames that have page numbers hands out a run and records it, or stays as it is. A
single frame is refused only if none is free. -/
theorem alloc_ends (h : t.Records runs) (hfit : t.first.number + t.total ≤ 0x100000) (count : Nat) :
    (alloc count).Ends t
      (fun frame t' => t'.first = t.first ∧ t'.total = t.total ∧ 0 < t.freeCount ∧
        t'.Records (⟨frame.number, count⟩ :: runs))
      (fun _ t' => t' = t ∧ (count = 1 → t.freeCount = 0))
      (fun _ _ => False) := by
  rcases alloc_cases t count with
    ⟨h0, ha⟩ | ⟨hpos, hwhy, ha⟩ | ⟨start, hc, hpos, hfree, hrow, -, ha⟩
  · exact (Routine.ends_of_error ha).mpr ⟨rfl, by omega⟩
  · refine (Routine.ends_of_error ha).mpr ⟨rfl, fun h1 => ?_⟩
    subst h1
    by_contra hne
    obtain ⟨i, hi⟩ := h.exists_freeRow_one (by omega)
    rcases hwhy with hwhy | hwhy | hwhy
    · omega
    · omega
    · exact hwhy i hi
  · have hend : start + count ≤ t.total := hrow.1
    have hframe : t.first.add? start = some ⟨t.first.number + start, by omega⟩ :=
      dif_pos (by omega)
    rw [hframe] at ha
    refine (Routine.ends_of_done ha).mpr ⟨rfl, total_claim hc hend, by omega, ?_⟩
    exact h.claim hc hpos hrow hfree

/-- A run that is in use is taken back when its first frame is given, unless it is so long that the
check of its slots cannot count its frames. -/
theorem Records.free_eq (h : t.Records runs) (hr : r ∈ runs) {frame : PhysicalPage}
    (hframe : frame.number = r.first) :
    free frame t =
      if r.count < 65534 then
        .done r.count (t.clear (r.first - t.first.number) r.count)
          [.runFreed (t.clear (r.first - t.first.number) r.count).positions]
      else .panic .addOverflow t [] := by
  obtain ⟨hpos, hlow, -⟩ := h.inside r hr
  have hend := h.stop_le hr
  have hindex : t.indexOf? frame.base = some (r.first - t.first.number) := by
    rw [indexOf?_eq_some, Page.page_base]
    omega
  have hlt : r.first - t.first.number < t.slots.length := by
    unfold total at hend
    omega
  have hhead := List.getElem?_eq_getElem hlt
  generalize t.slots[r.first - t.first.number] = head at hhead
  obtain ⟨hposition, hlength⟩ := h.slot_add hr (j := 0) hpos hhead
  have hslot : t.slot (r.first - t.first.number) = .ok head := by
    unfold FrameTable.slot
    rw [hhead]
  unfold free
  simp only [hindex, hslot, hposition, hlength]
  rw [if_neg (by omega), if_neg (by omega), if_neg (by omega), h.checkRun_eq hr]
  by_cases hlong : r.count < 65534
  · rw [if_pos (show 1 + r.count < 65535 by omega), if_pos hlong]
  · rw [if_neg (show ¬ 1 + r.count < 65535 by omega), if_neg hlong]

/-- A run is taken back right after it was handed out, which restores the table, unless it is so long
that the check of its slots cannot count its frames. -/
theorem Records.free_of_alloc (h : t.Records runs) {count : Nat} {frame : PhysicalPage}
    {left : FrameTable} {events : List Event} (ha : alloc count t = .done frame left events) :
    free frame left =
      if count < 65534 then .done count t [.runFreed t.positions]
      else .panic .addOverflow left [] := by
  obtain ⟨start, hc, hpos, hcount, hrow, hframe, hclaim⟩ := alloc_of_ok (by rw [ha]; rfl)
  obtain rfl : left = t.claim start count hc := congrArg Ending.state (ha.symm.trans hclaim)
  have hfree := (h.claim hc hpos hrow hcount).free_eq List.mem_cons_self hframe
  have hplace : t.first.number + start - (t.claim start count hc).first.number = start :=
    Nat.add_sub_cancel_left ..
  dsimp only at hfree
  rwa [hplace, h.clear_claim hc hrow hcount] at hfree

theorem free_ends (h : t.Records (r :: runs)) {frame : PhysicalPage}
    (hframe : frame.number = r.first) :
    (free frame).Ends t
      (fun count t' => count = r.count ∧ t'.first = t.first ∧ t'.total = t.total ∧ t'.Records runs)
      (fun _ _ => False)
      (fun _ t' => t' = t ∧ 65534 ≤ r.count) := by
  have hfree := h.free_eq List.mem_cons_self hframe
  by_cases hlong : r.count < 65534
  · rw [if_pos hlong] at hfree
    have htotal := total_clear (h.stop_le List.mem_cons_self)
    exact (Routine.ends_of_done hfree).mpr ⟨rfl, rfl, htotal, h.clear⟩
  · rw [if_neg hlong] at hfree
    exact (Routine.ends_of_panic hfree).mpr ⟨rfl, Nat.le_of_not_lt hlong⟩

theorem free_of_lt {frame : PhysicalPage} (h : frame.number < t.first.number) :
    free frame t = .error (.unmanaged frame.base) t [.freeOfUnmanaged frame.base] := by
  have hindex : t.indexOf? frame.base = none := by
    rw [Option.eq_none_iff_forall_ne_some]
    intro index hsome
    rw [indexOf?_eq_some, Page.page_base] at hsome
    omega
  unfold free
  rw [hindex]

/-- All that taking back a run can do, whatever frame is given: nothing is changed and it
fails, or the frame is the first of a run by its slot, the slots pass the check, and as many as this
slot says are cleared. -/
theorem free_cases (t : FrameTable) (frame : PhysicalPage) :
    ((free frame t).state = t ∧ ∃ failure, (free frame t).outcome = .error failure) ∨
      ∃ index head, t.indexOf? frame.base = some index ∧ t.slots[index]? = some head ∧
        head.position = 1 ∧ index + head.runLength ≤ t.total ∧
        checkRun index head.runLength ((t.slots.drop index).take head.runLength) 1 = .ok () ∧
        free frame t = .done head.runLength (t.clear index head.runLength)
          [.runFreed (t.clear index head.runLength).positions] := by
  unfold free
  split
  · exact .inl ⟨rfl, _, rfl⟩
  · next index hindex =>
    split
    · exact .inl ⟨rfl, _, rfl⟩
    · next head hslot =>
      have hhead : t.slots[index]? = some head := by
        unfold FrameTable.slot at hslot
        split at hslot
        · next hs => cases hslot; exact hs
        · cases hslot
      split
      · exact .inl ⟨rfl, _, rfl⟩
      · split
        · exact .inl ⟨rfl, _, rfl⟩
        · split
          · exact .inl ⟨rfl, _, rfl⟩
          · split
            · exact .inl ⟨rfl, _, rfl⟩
            · next hcheck =>
              exact .inr ⟨index, head, hindex, hhead, by omega, by omega, hcheck, rfl⟩

/-- Whatever frame is to be taken back, the table stays as it is, or the frame is the first of a run
by its slot, and as many slots as this slot says are cleared. -/
theorem state_free (t : FrameTable) (frame : PhysicalPage) :
    (free frame t).state = t ∨
      ∃ index head, t.indexOf? frame.base = some index ∧ t.slots[index]? = some head ∧
        head.position = 1 ∧ index + head.runLength ≤ t.total ∧
        (free frame t).state = t.clear index head.runLength := by
  rcases free_cases t frame with ⟨hstate, -⟩ | ⟨index, head, hindex, hhead, hposition, hle, -, h⟩
  · exact .inl hstate
  · exact .inr ⟨index, head, hindex, hhead, hposition, hle, by rw [h]; rfl⟩

/-- Only the first frame of a run is taken back. -/
theorem Records.free_of_forall_ne (h : t.Records runs) {frame : PhysicalPage}
    (hno : ∀ r ∈ runs, r.first ≠ frame.number) :
    (free frame t).state = t ∧ ∃ failure, (free frame t).outcome = .error failure := by
  rcases free_cases t frame with hsame | ⟨index, head, hindex, hhead, hposition, -⟩
  · exact hsame
  · rw [indexOf?_eq_some, Page.page_base] at hindex
    obtain ⟨r, hr, hfirst, -⟩ := h.exists_run hhead hposition
    exact absurd (by omega) (hno r hr)

theorem total_free (t : FrameTable) (frame : PhysicalPage) :
    (free frame t).state.total = t.total := by
  rcases state_free t frame with h | ⟨index, head, -, -, -, hle, h⟩ <;> rw [h]
  exact total_clear hle

end FrameTable

end MipsVM
