import MipsVM.Proofs.Frame.Lending

/-!
# The slots of a table, stretch by stretch

The runs that a table records cut its slots into stretches: each is a free slot or holds the slots
of one whole run, in order. Whatever is asked of a table, its slots stay of this form.

## Main definitions

- `Stretch`, with the runs `Stretch.runsFrom` of some stretches in a row
- `Recorded`: numbered slots tell of the runs that lie in them
- `FrameTable.LaidOut`: the slots of a table are those of some stretches, and all that the table
  tells of its slots agrees with the runs of the stretches
- `FrameTable.Sound`: a table has its slots and records the runs in use
- `Lending.LiesIn`: the runs that were handed out and not taken back are runs of some stretches

## Main statements

- `Recorded.exists_stretches`: slots that tell of runs are the stretches of these runs
- `alloc_records`, `free_records`: what a request does to the runs in use, whatever is asked for
- `Sound.perform`: one request keeps a table sound
- `laidOut_stateAfter`: a table is laid out in stretches after any requests, and the runs of its
  ledger lie in them
-/

namespace MipsVM

/-- A free slot, or the slots of a run of some length. -/
inductive Stretch
  | free
  | run (count : Nat) (pos : 0 < count) (lt : count < 65536)

namespace Stretch

def slots : Stretch → List Slot
  | free => [.free]
  | run count _ lt => Slot.run count lt

/-- The runs of stretches in a row, of which the first begins at the number `start`. -/
def runsFrom : Nat → List Stretch → List Run
  | _, [] => []
  | start, free :: rest => runsFrom (start + 1) rest
  | start, run count _ _ :: rest => ⟨start, count⟩ :: runsFrom (start + count) rest

variable {stretches : List Stretch} {start : Nat}

theorem inside_runsFrom (start : Nat) (stretches : List Stretch) : ∀ r ∈ runsFrom start stretches,
    0 < r.count ∧ start ≤ r.first ∧ r.stop ≤ start + (stretches.flatMap slots).length := by
  induction stretches generalizing start with
  | nil => exact List.forall_mem_nil _
  | cons stretch rest ih =>
    intro r hr
    rw [List.flatMap_cons, List.length_append]
    cases stretch with
    | free =>
      have := ih (start + 1) r hr
      simp only [slots, List.length_singleton]
      omega
    | run count pos lt =>
      simp only [slots, Slot.length_run]
      rcases List.mem_cons.mp hr with rfl | hr
      · exact ⟨pos, Nat.le_refl _, by simp only [Run.stop]; omega⟩
      · have := ih (start + count) r hr
        omega

/-- The runs are in order, and none of them overlaps another. -/
theorem ordered_runsFrom :
    (runsFrom start stretches).Pairwise fun r r' => r.stop ≤ r'.first := by
  induction stretches generalizing start with
  | nil => exact .nil
  | cons stretch rest ih =>
    cases stretch with
    | free => exact ih
    | run count pos lt =>
      refine List.pairwise_cons.mpr ⟨fun r hr => ?_, ih⟩
      exact (inside_runsFrom _ _ r hr).2.1

theorem tells_runsFrom (start : Nat) (stretches : List Stretch) :
    ∀ (i : Nat) (s : Slot), (stretches.flatMap slots)[i]? = some s →
      s.Tells (runsFrom start stretches) (start + i) := by
  induction stretches generalizing start with
  | nil => exact fun i s hs => absurd hs (by simp)
  | cons stretch rest ih =>
    intro i s hs
    rw [List.flatMap_cons] at hs
    by_cases hi : i < stretch.slots.length
    · rw [List.getElem?_append_left hi] at hs
      cases stretch with
      | free =>
        obtain rfl : i = 0 := Nat.lt_one_iff.mp hi
        have hs : s = .free := (Option.some.inj hs).symm
        refine .inr ⟨fun r hr hhas => ?_, hs⟩
        have hlow := (inside_runsFrom (start + 1) rest r hr).2.1
        have hle : r.first ≤ start := hhas.1
        omega
      | run count pos lt =>
        obtain ⟨hlt, rfl⟩ := List.getElem?_eq_some_iff.mp hs
        rw [show (run count pos lt).slots = Slot.run count lt from rfl, Slot.length_run] at hlt
        refine .inl ⟨⟨start, count⟩, List.mem_cons_self, ?_, ?_, ?_⟩
        · simp only [Run.Has, Run.stop]
          omega
        · simp only [slots, Slot.getElem_run]
          omega
        · simp only [slots, Slot.getElem_run]
    · rw [List.getElem?_append_right (by omega)] at hs
      cases stretch with
      | free =>
        have htells := ih (start + 1) _ s hs
        rwa [show start + 1 + (i - free.slots.length) = start + i by
          simp only [slots, List.length_singleton] at hi ⊢; omega] at htells
      | run count pos lt =>
        have htells := ih (start + count) _ s hs
        simp only [slots, Slot.length_run] at hi htells
        rw [show start + count + (i - count) = start + i by omega] at htells
        refine (Slot.Tells.cons_iff ?_).mpr htells
        simp only [Run.Has, Run.stop]
        omega

theorem countP_isFree (start : Nat) (stretches : List Stretch) :
    (stretches.flatMap slots).countP Slot.isFree + Run.frameCount (runsFrom start stretches) =
      (stretches.flatMap slots).length := by
  induction stretches generalizing start with
  | nil => rfl
  | cons stretch rest ih =>
    rw [List.flatMap_cons, List.countP_append, List.length_append]
    cases stretch with
    | free =>
      have := ih (start + 1)
      simp only [slots, runsFrom, List.countP_singleton, Slot.isFree_free, if_true,
        List.length_singleton]
      omega
    | run count pos lt =>
      have := ih (start + count)
      have hused : (Slot.run count lt).countP Slot.isFree = 0 := by
        simp [Slot.run, Slot.isFree]
      simp only [slots, runsFrom, hused, Slot.length_run, Run.frameCount_cons]
      omega

/-- The numbers of the slots in use are those of the frames of the runs, in order. -/
theorem used_slots (start : Nat) (stretches : List Stretch) :
    (((stretches.flatMap slots).zipIdx start).filter fun (s, _) => !s.isFree).map Prod.snd =
      (runsFrom start stretches).flatMap Run.frames := by
  induction stretches generalizing start with
  | nil => rfl
  | cons stretch rest ih =>
    rw [List.flatMap_cons, List.zipIdx_append, List.filter_append, List.map_append]
    cases stretch with
    | free => exact ih (start + 1)
    | run count pos lt =>
      have hall : ((Slot.run count lt).zipIdx start).filter (fun (s, _) => !s.isFree) =
          (Slot.run count lt).zipIdx start := by
        rw [List.filter_eq_self]
        intro p hp
        obtain ⟨k, hk⟩ := List.mem_ofFn.mp (List.fst_mem_of_mem_zipIdx hp)
        simp [← hk, Slot.isFree]
      simp only [slots, runsFrom, hall, Slot.length_run, List.zipIdx_map_snd, List.flatMap_cons, ih,
        Run.frames]

end Stretch

/-- The slots, numbered from `start` on, tell of the runs, which are apart and lie in them. -/
structure Recorded (start : Nat) (slots : List Slot) (runs : List Run) : Prop where
  apart : runs.Pairwise Run.Apart
  inside : ∀ r ∈ runs, 0 < r.count ∧ start ≤ r.first ∧ r.stop ≤ start + slots.length
  tells : ∀ (i : Nat) (s : Slot), slots[i]? = some s → s.Tells runs (start + i)

namespace Recorded

variable {start : Nat} {slots : List Slot} {runs runs' : List Run} {r : Run}

theorem perm (h : Recorded start slots runs) (hp : runs.Perm runs') :
    Recorded start slots runs' where
  apart := Run.perm_pairwise hp h.apart
  inside r hr := h.inside r (hp.mem_iff.mpr hr)
  tells i s hs := (h.tells i s hs).perm hp

theorem tail {slot : Slot} (h : Recorded start (slot :: slots) runs)
    (hfree : ∀ r ∈ runs, ¬ r.Has start) : Recorded (start + 1) slots runs where
  apart := h.apart
  inside r hr := by
    have hin := h.inside r hr
    have hno := hfree r hr
    simp only [Run.Has, Run.stop, List.length_cons] at *
    omega
  tells i s hs := by
    rw [show start + 1 + i = start + (i + 1) by omega]
    exact h.tells (i + 1) s (by simpa using hs)

/-- The slots of a run that begins at the first slot. -/
theorem take_eq {count : Nat} (h : Recorded start slots (⟨start, count⟩ :: runs))
    (hlt : count < 65536) : slots.take count = Slot.run count hlt := by
  have hstop : count ≤ slots.length := by
    have := (h.inside _ List.mem_cons_self).2.2
    simp only [Run.stop] at this
    omega
  refine List.ext_getElem (by simp [hstop]) fun j h₁ h₂ => ?_
  rw [Slot.length_run] at h₂
  rw [List.getElem_take, Slot.getElem_run]
  -- both slots tell of the frame that it is the frame after `j` others of the run
  refine (h.tells j _ (List.getElem?_eq_getElem (by omega))).unique (.inl ?_) h.apart
  refine ⟨_, List.mem_cons_self, ?_, ?_, rfl⟩
  · simp only [Run.Has, Run.stop]
    omega
  · simp only
    omega

theorem drop {count : Nat} (h : Recorded start slots (⟨start, count⟩ :: runs)) :
    Recorded (start + count) (slots.drop count) runs := by
  obtain ⟨hr, hin⟩ := List.forall_mem_cons.mp h.inside
  obtain ⟨hapart, hp⟩ := List.pairwise_cons.mp h.apart
  simp only [Run.stop] at hr
  refine ⟨hp, fun r hr' => ?_, fun i s hs => ?_⟩
  · have hin' := hin r hr'
    have hapart' := hapart r hr'
    simp only [Run.Apart, Run.stop, List.length_drop] at *
    omega
  · rw [List.getElem?_drop] at hs
    have htells := h.tells _ s hs
    rw [← Nat.add_assoc] at htells
    refine (Slot.Tells.cons_iff ?_).mp htells
    simp only [Run.Has, Run.stop]
    omega

/-- Slots that tell of runs are the stretches of these runs. -/
theorem exists_stretches (h : Recorded start slots runs) :
    ∃ stretches : List Stretch, slots = stretches.flatMap Stretch.slots ∧
      runs.Perm (Stretch.runsFrom start stretches) := by
  -- each step takes off the stretch that the first slot belongs to
  induction hn : slots.length using Nat.strongRecOn generalizing start slots runs with
  | ind n ih =>
  subst hn
  cases slots with
  | nil =>
    refine ⟨[], rfl, ?_⟩
    rw [Stretch.runsFrom, List.perm_nil, List.eq_nil_iff_forall_not_mem]
    intro r hr
    have := h.inside r hr
    simp only [Run.stop, List.length_nil] at this
    omega
  | cons slot rest =>
    rcases h.tells 0 slot rfl with ⟨⟨first, count⟩, hr, hhas, -, hlength⟩ | ⟨hno, rfl⟩
    · obtain ⟨hpos, hlow, -⟩ := h.inside _ hr
      obtain rfl : first = start := Nat.le_antisymm hhas.1 hlow
      have hlt : count < 65536 := by
        have := slot.runLength_lt
        simp only at hlength
        omega
      have hperm := List.perm_cons_erase hr
      have h' := h.perm hperm
      have hless : ((slot :: rest).drop count).length < (slot :: rest).length := by
        simp only [List.length_drop, List.length_cons] at hpos ⊢
        omega
      obtain ⟨stretches, hslots, hruns⟩ := ih _ hless h'.drop rfl
      refine ⟨.run count hpos hlt :: stretches, ?_, hperm.trans (hruns.cons _)⟩
      rw [List.flatMap_cons, ← hslots, Stretch.slots, ← h'.take_eq hlt, List.take_append_drop]
    · obtain ⟨stretches, hslots, hruns⟩ := ih rest.length (by simp) (h.tail hno) rfl
      refine ⟨.free :: stretches, ?_, hruns⟩
      rw [List.flatMap_cons, ← hslots]
      rfl

end Recorded

namespace FrameTable

variable {t : FrameTable} {runs : List Run}

/-- The slots of the table are those of the stretches, and its count of free frames and all that it
tells of single slots agrees with the runs of the stretches. -/
structure LaidOut (t : FrameTable) (stretches : List Stretch) : Prop where
  slots_eq : t.slots = stretches.flatMap Stretch.slots
  freeCount_eq : t.freeCount = t.slots.countP Slot.isFree
  ordered : (Stretch.runsFrom 0 stretches).Pairwise fun r r' => r.stop ≤ r'.first
  tells : ∀ i < t.total, ∃ s, t.slot i = .ok s ∧ s.Tells (Stretch.runsFrom 0 stretches) i
  allocated_fst :
    t.allocated.map Prod.fst = (Stretch.runsFrom 0 stretches).flatMap Run.frames
  slot_of_allocated : ∀ p ∈ t.allocated, t.slot p.1 = .ok p.2

theorem slot_eq_ok {i : Nat} {s : Slot} : t.slot i = .ok s ↔ t.slots[i]? = some s := by
  unfold slot
  split
  · next hs => rw [hs, Except.ok.injEq, Option.some.injEq]
  · next hs => simp [hs]

theorem mem_allocated {p : Nat × Slot} :
    p ∈ t.allocated ↔ t.slots[p.1]? = some p.2 ∧ ¬ p.2.isFree := by
  obtain ⟨i, s⟩ := p
  simp [allocated, List.mem_zipIdx_iff_getElem?]

/-- A table that records runs is laid out in stretches, which are the stretches of these runs. -/
theorem Records.exists_laidOut (h : t.Records runs) :
    ∃ stretches, t.LaidOut stretches ∧
      runs.Perm (Stretch.runsFrom t.first.number stretches) := by
  have hrec : Recorded t.first.number t.slots runs := ⟨h.apart, h.inside, h.tells⟩
  obtain ⟨stretches, hslots, hruns⟩ := hrec.exists_stretches
  have hcount := Stretch.countP_isFree t.first.number stretches
  have hbalance := h.balance
  rw [Run.frameCount_perm hruns] at hbalance
  rw [← hslots] at hcount
  refine ⟨stretches, ⟨hslots, ?_, Stretch.ordered_runsFrom, fun i hi => ?_, ?_, fun p hp => ?_⟩,
    hruns⟩
  · unfold total at hbalance
    omega
  · have hs := List.getElem?_eq_getElem hi
    have htells := Stretch.tells_runsFrom 0 stretches i _ ((congrArg (·[i]?) hslots).symm.trans hs)
    rw [Nat.zero_add] at htells
    exact ⟨_, slot_eq_ok.mpr hs, htells⟩
  · rw [allocated, List.map_map, ← Stretch.used_slots, ← hslots]
    rfl
  · exact slot_eq_ok.mpr (mem_allocated.mp hp).1

/-- The table has a slot for each of `total` frames and records the runs that are in use. -/
structure Sound (total : Nat) (t : FrameTable) : Prop where
  total_eq : t.total = total
  records : ∃ runs, t.Records runs

/-- Handing out a run adds it to the runs in use, if anything changes. -/
theorem alloc_records (h : t.Records runs) (count : Nat) :
    (alloc count).EndsIn t fun t' => t'.total = t.total ∧
      (t' = t ∨ ∃ r, t'.Records (r :: runs)) := by
  rw [Routine.endsIn_iff]
  rcases state_alloc t count with hstate | ⟨start, hc, hpos, hfree, hrow, hstate⟩
  · rw [hstate]
    exact ⟨rfl, .inl rfl⟩
  · -- a run without a page number is lost, but its slots are those of a run in use
    rw [hstate]
    exact ⟨total_claim hc hrow.1, .inr ⟨_, h.claim hc hpos hrow hfree⟩⟩

/-- Taking back whatever frame takes the run that begins there from the runs in use, if anything
changes. -/
theorem free_records (h : t.Records runs) (frame : PhysicalPage) :
    (free frame).EndsIn t fun t' => t'.total = t.total ∧
      (t' = t ∨ ∃ r ∈ runs, r.first = frame.number ∧ t'.Records (runs.erase r)) := by
  rw [Routine.endsIn_iff]
  refine ⟨total_free t frame, ?_⟩
  rcases state_free t frame with hstate | ⟨index, head, hindex, hhead, hposition, -, hstate⟩
  · exact .inl hstate
  rw [indexOf?_eq_some, Page.page_base] at hindex
  obtain ⟨r, hr, hfirst, hlength⟩ := h.exists_run hhead hposition
  refine .inr ⟨r, hr, by omega, ?_⟩
  rw [hstate, ← hlength, show index = r.first - t.first.number by omega]
  exact (h.perm (List.perm_cons_erase hr)).clear

theorem alloc_sound {total : Nat} (h : t.Sound total) (count : Nat) :
    (alloc count).EndsIn t (Sound total) := by
  obtain ⟨htotal, runs, hruns⟩ := h
  refine (alloc_records hruns count).mono fun t' h' => ?_
  rcases h' with ⟨hsame, rfl | ⟨r, hr⟩⟩
  · exact ⟨htotal, runs, hruns⟩
  · exact ⟨hsame.trans htotal, _, hr⟩

theorem free_sound {total : Nat} (h : t.Sound total) (frame : PhysicalPage) :
    (free frame).EndsIn t (Sound total) := by
  obtain ⟨htotal, runs, hruns⟩ := h
  refine (free_records hruns frame).mono fun t' h' => ?_
  rcases h' with ⟨hsame, rfl | ⟨r, -, -, hr⟩⟩
  · exact ⟨htotal, runs, hruns⟩
  · exact ⟨hsame.trans htotal, _, hr⟩

theorem Sound.perform {total : Nat} (h : t.Sound total) (request : TableRequest) :
    request.perform.EndsIn t (Sound total) := by
  cases request with
  | alloc count =>
    rw [TableRequest.perform, Routine.EndsIn, Routine.ends_bind]
    exact alloc_sound h count
  | free a =>
    rw [TableRequest.perform, Routine.EndsIn, Routine.ends_bind]
    exact free_sound h a.page
  | total | firstFrame | range | position | runLength | slots | addressOf | indexOf | allocated
  | describe => exact TableRequest.perform_reads trivial h

/-- Whatever was asked of a table since it was new, it records some runs. -/
theorem records_stateAfter (total : Nat) (first : PhysicalPage) (requests : List TableRequest) :
    ∃ runs, (stateAfter TableRequest.perform requests (new total first)).Records runs := by
  obtain ⟨lost, hrecords, -⟩ := (Lending.Reachable.new.foldl_after requests).sound
  rw [Lending.table_foldl_after] at hrecords
  exact ⟨_, hrecords⟩

end FrameTable

/-- The runs of the ledger are runs of the stretches, and no two of them overlap. The other runs lie
beyond the page numbers. -/
structure Lending.LiesIn (l : Lending) (stretches : List Stretch) : Prop where
  apart : l.lent.Pairwise Run.Apart
  runs : ∃ lost : List Run,
    (Stretch.runsFrom l.table.first.number stretches).Perm (l.lent ++ lost) ∧
      ∀ r ∈ lost, 0x100000 ≤ r.first

/-- A table is laid out in stretches, and the runs of its ledger lie in them. -/
theorem Lending.Sound.exists_liesIn {l : Lending} (h : l.Sound) :
    ∃ stretches, l.table.LaidOut stretches ∧ l.LiesIn stretches := by
  obtain ⟨lost, hrecords, hlost⟩ := h
  obtain ⟨stretches, hlaid, hruns⟩ := hrecords.exists_laidOut
  have hapart := (List.pairwise_append.mp hrecords.apart).1
  exact ⟨stretches, hlaid, hapart, lost, hruns.symm, hlost⟩

/-- Whatever was asked of a table since it was new, its slots are laid out in stretches, and the runs
that it has handed out and not taken back since lie in them. -/
theorem FrameTable.laidOut_stateAfter (total : Nat) (first : PhysicalPage)
    (requests : List TableRequest) :
    ∃ stretches, (stateAfter TableRequest.perform requests (new total first)).LaidOut stretches ∧
      (stretches.flatMap Stretch.slots).length = total ∧
      (requests.foldl Lending.after ⟨new total first, []⟩).table =
        stateAfter TableRequest.perform requests (new total first) ∧
      (requests.foldl Lending.after ⟨new total first, []⟩).LiesIn stretches := by
  have htable := Lending.table_foldl_after requests ⟨new total first, []⟩
  have hnew : Lending.Reachable total first ⟨new total first, []⟩ := .new
  obtain ⟨-, htotal⟩ := extent_stateAfter requests (new total first)
  obtain ⟨stretches, hlaid, hlies⟩ := (hnew.foldl_after requests).sound.exists_liesIn
  rw [htable] at hlaid
  refine ⟨stretches, hlaid, ?_, htable, hlies⟩
  rw [← hlaid.slots_eq]
  exact htotal.trans (total_new total first)

end MipsVM
