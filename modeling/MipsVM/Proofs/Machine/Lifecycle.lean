import MipsVM.Proofs.Machine.System

/-!
# The shape of spaces in use

Spaces are created, given regions, filled, copied and released, each time with the memory in
whatever state it is. In every directory that is reached this way each space has the shape of
spaces, and it is ready for faults as soon as its stack has frames.

## Main definitions

- `Directory.Made`: the directories that are reached from the empty one

## Main statements

- `perform_spaces`: requests that are not to a space leave the spaces as they are
- `assertBacked_iff`: a well-formed space is found complete if its stack has frames
- `Made.shape`: the shape of all spaces
-/

namespace MipsVM

open Routine

/-- A request that is not to a space leaves the spaces as they are. -/
theorem Request.perform_spaces {s : Machine} {request : Request}
    (h : ∀ name r, request ≠ .space name r) :
    request.perform.EndsIn s fun s' => s'.spaces = s.spaces := by
  by_cases hcore : request.OnCore
  · refine (request.perform_onCore hcore).mono ?_
    rintro _ ⟨core, guards, rfl⟩
    rfl
  have hmemory {ε : Type} (wrap : ε → MachineError) (r : Routine Memory ε Reply) :
      (Machine.onMemory wrap r).EndsIn s fun s' => s'.spaces = s.spaces :=
    Machine.ends_onMemory.mpr (endsIn_of_forall fun _ => rfl)
  cases request with
  | allocator r => exact hmemory .frame r.perform
  | ram r => exact hmemory id r.perform
  | table r => exact Machine.ends_table.mpr ⟨fun t _ => hmemory .frame _, fun _ => rfl⟩
  | space name r => exact absurd rfl (h name r)
  | interrupts | tlb | fault => exact absurd trivial hcore

namespace AddressSpace

variable {s : AddressSpace} {segment : Segment}

theorem assertSegmentBacked_eq_ok {number : Nat} (h : segment.InUserMemory)
    (hframes : segment.frames.length = segment.pageCount) :
    assertSegmentBacked number (some segment) = .ok () := by
  have hbase := h.base
  have hnonempty := h.nonempty
  unfold assertSegmentBacked
  simp only
  rw [if_neg (by omega), if_neg (by omega), if_neg (by omega)]

theorem assertBacked_eq_error (h : ¬ s.isBacked) : ∃ p, s.assertBacked = .error p := by
  have hstack : s.stack = [] := by simpa [isBacked] using h
  unfold assertBacked
  cases assertSegmentBacked 1 s.segment1 with
  | error p => exact ⟨p, rfl⟩
  | ok _ =>
    cases assertSegmentBacked 2 s.segment2 with
    | error p => exact ⟨p, rfl⟩
    | ok _ => exact ⟨.stackUnbacked 0 stackPages, by rw [hstack]; rfl⟩

theorem WellFormed.assertBacked_eq_ok (h : s.WellFormed) (hb : s.isBacked) :
    s.assertBacked = .ok () := by
  obtain ⟨first, second, h₁, h₂, hl₁, hl₂, hl⟩ := h.backed hb
  have hin₁ := h.segments first (by simp [AddressSpace.segments, h₁])
  have hin₂ := h.segments second (by simp [AddressSpace.segments, h₂])
  simp only [assertBacked, h₁, h₂, assertSegmentBacked_eq_ok hin₁ hl₁,
    assertSegmentBacked_eq_ok hin₂ hl₂]
  exact if_pos hl

/-- The complaint that a space is not complete comes exactly if its stack has no frames. -/
theorem WellFormed.assertBacked_iff (h : s.WellFormed) :
    (∃ p, s.assertBacked = .error p) ↔ ¬ s.isBacked := by
  constructor
  · rintro ⟨p, hp⟩ hb
    rw [h.assertBacked_eq_ok hb] at hp
    cases hp
  · exact assertBacked_eq_error

end AddressSpace

namespace Directory

variable {d : Directory} {name : Nat} {space : AddressSpace}

/-- The directories that are reached from the empty one by requests to machines. Each request may
find all but the spaces of the machine in any state, and may end in any way. -/
inductive Made : Directory → Prop
  | empty : Made .empty
  | perform {s : Machine} (request : Request) :
    Made s.spaces → Made (request.perform s).state.spaces

theorem WellFormed.perform {s : Machine} (h : s.spaces.WellFormed) (request : Request) :
    request.perform.EndsIn s fun s' => s'.spaces.WellFormed := by
  cases request with
  | space name r => exact (SpaceRequest.perform_carries h).mono fun _ hs => hs.wellFormed
  | _ =>
    refine (Request.perform_spaces fun _ _ => Request.noConfusion).mono fun _ hs => ?_
    rw [hs]
    exact h

theorem Made.stateAfter {s : Machine} (h : Made s.spaces) (requests : List Request) :
    Made (stateAfter Request.perform requests s).spaces := by
  induction requests generalizing s with
  | nil => exact h
  | cons request rest ih => exact ih (h.perform request)

theorem Made.wellFormed (h : d.Made) : d.WellFormed := by
  induction h with
  | empty => exact wellFormed_empty
  | perform request _ ih => exact endsIn_iff.mp (ih.perform request)

/-- All spaces have their segments in order in user memory, without a common address, and either
all pages have a frame or none has, so that a space is found complete if its stack is there. -/
theorem Made.shape (h : d.Made) (hs : d.get? name = some space) :
    (space.segment1 = none → space.segment2 = none) ∧
    (∀ segment ∈ space.segments, 1 ≤ segment.base.number ∧ 1 ≤ segment.pageCount ∧
      segment.stop < 0x100000000 ∧ segment.stop ≤ userStackBase) ∧
    (∀ first second, space.segment1 = some first → space.segment2 = some second →
      ∀ a, ¬ (first.contains a ∧ second.contains a)) ∧
    (space.isBacked = false ∧ (∀ segment ∈ space.segments, segment.frames = []) ∧
        space.stack = [] ∨
      space.isBacked = true ∧ ∃ first second, space.segment1 = some first ∧
        space.segment2 = some second ∧ first.frames.length = first.pageCount ∧
        second.frames.length = second.pageCount ∧ space.stack.length = stackPages) ∧
    ((∃ p, space.assertBacked = .error p) ↔ space.isBacked = false) := by
  have hwf := h.wellFormed.get? hs
  refine ⟨hwf.order, fun segment hsegment => ?_, fun first second h₁ h₂ => hwf.not_contains h₁ h₂,
    ?_, ?_⟩
  · obtain ⟨hbase, hnonempty, hstop⟩ := hwf.segments segment hsegment
    exact ⟨hbase, hnonempty, Nat.lt_of_le_of_lt hstop (by decide), hstop⟩
  · cases hb : space.isBacked with
    | false =>
      have hnil := hwf.frames_eq_nil (by rw [hb]; exact Bool.false_ne_true)
      obtain ⟨hsegments, hstack⟩ := List.append_eq_nil_iff.mp hnil
      exact .inl ⟨rfl, List.flatMap_eq_nil_iff.mp hsegments, hstack⟩
    | true => exact .inr ⟨rfl, hwf.backed hb⟩
  · rw [hwf.assertBacked_iff, Bool.not_eq_true]

theorem made_populated : Made System.populated.machine.spaces := by
  have hafter {s : System} {request : Request} (h : Made s.machine.spaces) :
      Made (s.after request).machine.spaces := h.perform request
  have hsmall : Made System.small.machine.spaces := .empty
  have hsegmented : Made System.segmented.machine.spaces :=
    hafter (hafter (hafter (hafter (hafter hsmall))))
  exact hafter hsegmented

/-- The space 0 of the small system is found complete once it has frames. -/
theorem shape_populated :
    ∃ space, System.populated.machine.spaces.get? 0 = some space ∧ space.isBacked ∧
      ¬ ∃ p, space.assertBacked = .error p := by
  obtain ⟨space, -, hspace, hbacked, -⟩ := System.isBacked_populated
  obtain ⟨-, -, -, -, hassert⟩ := made_populated.shape hspace
  refine ⟨space, hspace, hbacked, fun herror => ?_⟩
  rw [hassert.mp herror] at hbacked
  cases hbacked

end Directory

end MipsVM
