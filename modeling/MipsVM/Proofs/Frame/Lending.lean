import MipsVM.Proofs.Frame.Requests

/-!
# What was handed out can be taken back

A ledger is kept of the runs that a table has handed out and not taken back since. Whatever else was
asked of the table, each of them can be taken back, and then only its own slots are changed. The
exception are runs of 65534 frames and more: the check of such a run panics, and it stays in use.

## Main definitions

- `Lending`: a table and its ledger, with `Lending.Reachable`
- `FrameTable.Undoes`: what taking back a run does
- `FrameTable.Restores`: what it does right after the run was handed out

## Main statements

- `Reachable.sound`: the table records the ledger
- `Reachable.undone`: runs of the ledger are taken back, as long as they are short enough
- `longest_not_undone`: a run that is not

## Design notes

A table may have more slots than there are page numbers. A run among the slots beyond is marked and
then refused, so that nobody has it; the table records such runs beside those of the ledger.
-/

namespace MipsVM

open Routine

namespace FrameTable

variable {t : FrameTable} {runs : List Run} {r : Run} {frame : PhysicalPage} {count : Nat}

/-- Taking back the run of `count` frames from `frame` on frees its slots and nothing else. -/
structure Undoes (t : FrameTable) (frame : PhysicalPage) (count : Nat) : Prop where
  inside : t.first.number ≤ frame.number ∧ frame.number + count ≤ t.first.number + t.total
  answer : (free frame t).outcome = .ok count
  first : (free frame t).state.first = t.first
  slots : ∀ i, (free frame t).state.slots[i]? =
    if frame.number ≤ t.first.number + i ∧ t.first.number + i < frame.number + count then
      some .free
    else t.slots[i]?
  freeCount : (free frame t).state.freeCount = t.freeCount + count

theorem undoes_of_eq_clear {index : Nat} {events : List Event}
    (hindex : frame.number = t.first.number + index) (hinside : index + count ≤ t.total)
    (hfree : free frame t = .done count (t.clear index count) events) : t.Undoes frame count := by
  refine ⟨by omega, by rw [hfree]; rfl, by rw [hfree]; rfl, ?_, by rw [hfree]; rfl⟩
  intro i
  have hstate : (free frame t).state = t.clear index count := by rw [hfree]; rfl
  rw [hstate, getElem?_clear hinside]
  exact if_congr (by omega) rfl rfl

theorem Records.undoes (h : t.Records runs) (hr : r ∈ runs) (hframe : frame.number = r.first)
    (hshort : r.count < 65534) : t.Undoes frame r.count := by
  obtain ⟨-, hlow, -⟩ := h.inside r hr
  have hfree := h.free_eq hr hframe
  rw [if_pos hshort] at hfree
  exact undoes_of_eq_clear (by omega) (h.stop_le hr) hfree

/-- Taking back the run of `count` frames from `frame` on, right after it was handed out, restores
the table, so that the same run is handed out again. -/
structure Restores (t : FrameTable) (frame : PhysicalPage) (count : Nat) : Prop where
  answer : (free frame (alloc count t).state).outcome = .ok count
  table : (free frame (alloc count t).state).state = t
  again : (alloc count (free frame (alloc count t).state).state).outcome = .ok frame

theorem Records.restores (h : t.Records runs) (ha : (alloc count t).outcome = .ok frame)
    (hshort : count < 65534) : t.Restores frame count := by
  obtain ⟨start, hc, -, -, -, -, halloc⟩ := alloc_of_ok ha
  have hdone : free frame (alloc count t).state = .done count t [.runFreed t.positions] := by
    have hfree := h.free_of_alloc halloc
    rw [if_pos hshort] at hfree
    rw [halloc]
    exact hfree
  refine ⟨by rw [hdone]; rfl, by rw [hdone]; rfl, ?_⟩
  rw [hdone]
  exact ha

end FrameTable

/-- A table, and the runs that it has handed out and not taken back since. -/
structure Lending where
  table : FrameTable
  lent : List Run

namespace Lending

variable {total : Nat} {first : PhysicalPage} {l : Lending} {request : TableRequest}

/-- The ledger after a request. A run that is refused when it is given back stays in it. -/
def ledger (lent : List Run) : TableRequest → Except (Failure FrameError) Reply → List Run
  | .alloc count, .ok (.frame (some frame)) => ⟨frame.number, count⟩ :: lent
  | .free a, .ok _ => lent.eraseP (·.first = a.page.number)
  | _, _ => lent

/-- The table and the ledger after a request, however it ends. -/
def after (l : Lending) (request : TableRequest) : Lending :=
  ⟨(request.perform l.table).state, ledger l.lent request (request.perform l.table).outcome⟩

/-- What is reached from a new table by any requests. -/
inductive Reachable (total : Nat) (first : PhysicalPage) : Lending → Prop
  | new : Reachable total first ⟨.new total first, []⟩
  | step {l : Lending} (request : TableRequest) :
    Reachable total first l → Reachable total first (l.after request)

/-- The table records the runs of the ledger, and beside them only runs without a page number. -/
def Sound (l : Lending) : Prop :=
  ∃ lost : List Run, l.table.Records (l.lent ++ lost) ∧ ∀ r ∈ lost, 0x100000 ≤ r.first

theorem sound_after
    (h : request.perform.Ends l.table
      (fun reply t => Sound ⟨t, ledger l.lent request (.ok reply)⟩)
      (fun e t => Sound ⟨t, ledger l.lent request (.error (.error e))⟩)
      (fun p t => Sound ⟨t, ledger l.lent request (.error (.panic p))⟩)) :
    (l.after request).Sound := by
  rcases h.cases with ⟨a, hout, h⟩ | ⟨e, hout, h⟩ | ⟨p, hout, h⟩ <;> rwa [after, hout]

theorem Sound.alloc (h : l.Sound) (count : Nat) :
    (FrameTable.alloc count).Ends l.table
      (fun frame t => Sound ⟨t, ⟨frame.number, count⟩ :: l.lent⟩) (fun _ t => Sound ⟨t, l.lent⟩)
      (fun _ _ => False) := by
  obtain ⟨lost, hrecords, hlost⟩ := h
  rcases FrameTable.alloc_cases l.table count with
    ⟨-, ha⟩ | ⟨-, -, ha⟩ | ⟨start, hc, hpos, hfree, hrow, -, ha⟩
  · exact (ends_of_error ha).mpr ⟨lost, hrecords, hlost⟩
  · exact (ends_of_error ha).mpr ⟨lost, hrecords, hlost⟩
  · have hclaimed := hrecords.claim hc hpos hrow hfree
    by_cases hlt : l.table.first.number + start < 0x100000
    · have hframe : l.table.first.add? start = some ⟨_, hlt⟩ := dif_pos hlt
      rw [hframe] at ha
      exact (ends_of_done ha).mpr ⟨lost, hclaimed, hlost⟩
    · have hframe : l.table.first.add? start = none := dif_neg hlt
      rw [hframe] at ha
      refine (ends_of_error ha).mpr ⟨_, hclaimed.perm List.perm_middle.symm, ?_⟩
      exact List.forall_mem_cons.mpr ⟨Nat.le_of_not_lt hlt, hlost⟩

theorem Sound.free (h : l.Sound) (frame : PhysicalPage) :
    (FrameTable.free frame).Ends l.table
      (fun _ t => Sound ⟨t, l.lent.eraseP (·.first = frame.number)⟩)
      (fun _ t => Sound ⟨t, l.lent⟩) (fun _ t => Sound ⟨t, l.lent⟩) := by
  obtain ⟨lost, hrecords, hlost⟩ := h
  by_cases hlent : ∃ r ∈ l.lent, r.first = frame.number
  · obtain ⟨r, hr, hfirst⟩ := hlent
    obtain ⟨found, hfound, hperm⟩ := Run.exists_perm_eraseP hr hfirst
    have hrecords' := hrecords.perm (hperm.append_right lost)
    have hfree := hrecords'.free_eq List.mem_cons_self hfound.symm
    by_cases hlong : found.count < 65534
    · rw [if_pos hlong] at hfree
      exact (ends_of_done hfree).mpr ⟨lost, hrecords'.clear, hlost⟩
    · rw [if_neg hlong] at hfree
      exact (ends_of_panic hfree).mpr ⟨lost, hrecords, hlost⟩
  · -- no run begins with the frame, since those that are lost have no first frame
    have hno (r : Run) (hr : r ∈ l.lent ++ lost) : r.first ≠ frame.number := by
      intro hfirst
      rcases List.mem_append.mp hr with hr | hr
      · exact hlent ⟨r, hr, hfirst⟩
      · have hlow := hlost r hr
        have hlt := frame.isLt
        omega
    obtain ⟨hstate, failure, hout⟩ := hrecords.free_of_forall_ne hno
    unfold Ends
    rw [hout, hstate]
    cases failure with
    | error e => exact ⟨lost, hrecords, hlost⟩
    | panic p => exact ⟨lost, hrecords, hlost⟩

/-- One request keeps the ledger in agreement with the table. -/
theorem Sound.step (h : l.Sound) (request : TableRequest) : (l.after request).Sound := by
  apply sound_after
  have hread (hr : request.Reads) : request.perform.EndsIn l.table fun t => Sound ⟨t, l.lent⟩ :=
    TableRequest.perform_reads hr h
  cases request with
  | alloc count =>
    rw [TableRequest.perform, ends_bind]
    exact (h.alloc count).mono (fun _ _ ht => ht) (fun _ _ ht => ht) fun _ _ hno => hno.elim
  | free a =>
    rw [TableRequest.perform, ends_bind]
    exact h.free a.page
  | total | firstFrame | range | position | runLength | slots | addressOf | indexOf | allocated
  | describe => exact hread trivial

theorem Reachable.sound (h : Reachable total first l) : l.Sound := by
  induction h with
  | new => exact ⟨[], FrameTable.records_new total first, List.forall_mem_nil _⟩
  | step request _ ih => exact ih.step request

theorem Reachable.foldl_after (h : Reachable total first l) (requests : List TableRequest) :
    Reachable total first (requests.foldl after l) := by
  induction requests generalizing l with
  | nil => exact h
  | cons request rest ih => exact ih (h.step request)

/-- The ledger is kept beside the table, which goes the way that it goes without one. -/
theorem table_foldl_after (requests : List TableRequest) (l : Lending) :
    (requests.foldl after l).table = stateAfter TableRequest.perform requests l.table := by
  induction requests generalizing l with
  | nil => rfl
  | cons request rest ih => exact ih (l.after request)

/-- Whatever was asked of a table since it was new, it takes back each run that it has handed out and
not taken back since, unless the run is too long: then nothing is changed. -/
theorem Reachable.undone (h : Reachable total first l) :
    (∀ (frame : PhysicalPage) (count : Nat), ⟨frame.number, count⟩ ∈ l.lent →
      if count < 65534 then l.table.Undoes frame count
      else FrameTable.free frame l.table = .panic .addOverflow l.table []) ∧
    ∀ (frame : PhysicalPage) (count : Nat), count < 65534 →
      (FrameTable.alloc count l.table).outcome = .ok frame → l.table.Restores frame count := by
  obtain ⟨lost, hrecords, -⟩ := h.sound
  refine ⟨fun frame count hr => ?_, fun frame count hshort ha => hrecords.restores ha hshort⟩
  have hr := List.mem_append_left lost hr
  split
  · next hshort => exact hrecords.undoes hr rfl hshort
  · next hlong =>
    have hfree := hrecords.free_eq hr rfl
    rwa [if_neg hlong] at hfree

section Small

/-- A small table that has handed out two runs, and taken back the first of them. -/
def small : Lending :=
  ((((⟨.new 5 (.ofNumber 16), []⟩ : Lending).after (.alloc 2)).after (.alloc 2)).after
    (.free (.ofNat 0x10000)))

theorem undone_small :
    small.lent = [⟨18, 2⟩] ∧ small.table.Undoes (.ofNumber 18) 2 ∧
      small.table.Restores (.ofNumber 16) 1 := by
  have hreach : Reachable 5 (.ofNumber 16) small := .step _ (.step _ (.step _ .new))
  have hlent : small.lent = [⟨18, 2⟩] := by decide
  refine ⟨hlent, ?_, ?_⟩
  · have hundone := hreach.undone.1 (.ofNumber 18) 2 (by rw [hlent]; decide)
    rwa [if_pos (by decide)] at hundone
  · exact hreach.undone.2 (.ofNumber 16) 1 (by decide) rfl

end Small

section Longest

/-- Handing out frames of a new table, as a step. -/
theorem after_alloc_new {count : Nat} (first : PhysicalPage) (hc : count < 65536) (hpos : 0 < count)
    (hle : count ≤ total) :
    (⟨.new total first, []⟩ : Lending).after (.alloc count) =
      ⟨(FrameTable.new total first).claim 0 count hc, [⟨first.number, count⟩]⟩ := by
  have hperform : (TableRequest.alloc count).perform (.new total first) =
      .done (.frame first) ((FrameTable.new total first).claim 0 count hc) [] :=
    bind_of_ok (FrameTable.alloc_new first hc hpos hle)
  rw [after, hperform]
  rfl

/-- A table that has handed out all its frames as one run. -/
def longest : Lending :=
  (⟨.new 65534 (.ofNumber 1), []⟩ : Lending).after (.alloc 65534)

/-- A run of as many frames as a slot can count, but for one, is handed out and never taken back. -/
theorem longest_not_undone :
    Reachable 65534 (.ofNumber 1) longest ∧ longest.lent = [⟨1, 65534⟩] ∧
      (FrameTable.free (.ofNumber 1) longest.table).outcome = .error (.panic .addOverflow) := by
  have hreach : Reachable 65534 (.ofNumber 1) longest := .step _ .new
  have hlent : longest.lent = [⟨1, 65534⟩] := by
    rw [longest, after_alloc_new _ (by decide) (by decide) (Nat.le_refl _)]
    rfl
  obtain ⟨lost, hrecords, -⟩ := hreach.sound
  have hr : (⟨1, 65534⟩ : Run) ∈ longest.lent ++ lost := by
    rw [hlent]
    exact List.mem_cons_self
  have hfree := hrecords.free_eq hr (show (.ofNumber 1 : PhysicalPage).number = 1 from rfl)
  rw [if_neg (Nat.lt_irrefl _)] at hfree
  refine ⟨hreach, hlent, ?_⟩
  rw [hfree]
  rfl

end Longest

end Lending

end MipsVM
