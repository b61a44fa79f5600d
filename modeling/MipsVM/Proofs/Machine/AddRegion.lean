import Mathlib.Order.SetNotation
import MipsVM.Proofs.Machine.Lifecycle

/-!
# Which regions can be defined

A region is asked for in bytes and defined in pages: those that have one of the bytes. Whether these
are pages of user memory that no segment has yet is decided by 32-bit arithmetic on their bounds,
which comes to the same: where a bound is not a word, some page is too high.

## Main definitions

- `touched`: the pages of a number of bytes
- `Segment.pages`: the pages of a segment
- `AddressSpace.Legal`: pages that a new segment can have

## Main statements

- `mem_touched_iff`: the pages of some bytes are those between two bounds
- `legalRegion?_eq_some_iff`: the bounds are found if and only if the pages are legal
- `Made.addRegion_ok_iff`: what comes of a region in each space in use
-/

namespace MipsVM

/-- The numbers of the pages that have one of the `size` bytes from an address on. The bytes are
counted without a bound. -/
def touched (a : VirtualAddress) (size : Nat) : Set Nat :=
  {n | ∃ b, a.toNat ≤ b ∧ b < a.toNat + size ∧ b / 4096 = n}

/-- The numbers of the pages of a segment. -/
def Segment.pages (s : Segment) : Set Nat :=
  {n | s.base.number ≤ n ∧ n < s.base.number + s.pageCount}

theorem Segment.mem_pages {s : Segment} {n : Nat} :
    n ∈ s.pages ↔ s.base.number ≤ n ∧ n < s.base.number + s.pageCount := Iff.rfl

variable {a : VirtualAddress} {size n : Nat}

theorem mem_touched_iff (hsize : size ≠ 0) :
    n ∈ touched a size ↔ a.page.number ≤ n ∧ n * 4096 < a.toNat + size := by
  have hpage : a.page.number = a.toNat / 4096 := rfl
  rw [hpage]
  constructor
  · rintro ⟨b, hlow, hhigh, rfl⟩
    omega
  · rintro ⟨hlow, hhigh⟩
    -- the first of the bytes on the page
    refine ⟨max a.toNat (n * 4096), Nat.le_max_left _ _, by omega, ?_⟩
    rcases Nat.le_total a.toNat (n * 4096) with hle | hle
    · rw [Nat.max_eq_right hle, Nat.mul_div_cancel _ (by decide)]
    · rw [Nat.max_eq_left hle]
      omega

theorem touched_zero (a : VirtualAddress) : touched a 0 = ∅ := by
  refine Set.eq_empty_of_forall_notMem fun n => ?_
  rintro ⟨b, hlow, hhigh, -⟩
  omega

namespace AddressSpace

variable {s : AddressSpace}

/-- A segment of the space can have these pages: there are some, they are pages of user memory after
the first page and below the stack, and no segment has one of them. -/
structure Legal (s : AddressSpace) (pages : Set Nat) : Prop where
  nonempty : pages.Nonempty
  zero : 0 ∉ pages
  stack : ∀ n ∈ pages, n < stackBasePage.number
  apart : ∀ segment ∈ s.segments, ∀ n ∈ pages, n ∉ segment.pages

/-- A segment shares an address with whole pages if it shares a page with them. -/
theorem overlaps_eq_false_iff {segment : Segment} (hnonempty : 0 < segment.pageCount)
    {first stop : Nat} (hlt : first < stop) :
    segment.overlaps (first * 4096) (stop * 4096) = false ↔
      ∀ n, first ≤ n → n < stop → n ∉ segment.pages := by
  rw [Segment.overlaps, decide_eq_false_iff_not]
  simp only [Segment.mem_pages, Segment.stop, Page.base]
  constructor
  · intro hno n hlow hhigh hpage
    omega
  · intro hno hboth
    -- the higher of the two first pages belongs to both
    have hfirst := hno (max first segment.base.number)
    omega

/-- The bounds of a region are found if and only if its pages are legal. They are the page of its
first byte and the page boundary above its last one. -/
theorem legalRegion?_eq_some_iff (h : s.WellFormed) {base : VirtualPage} {stop : Nat} :
    s.legalRegion? a size = some (base, stop) ↔
      s.Legal (touched a size) ∧ base = a.page ∧ stop = (a.toNat + size + 4095) / 4096 * 4096 := by
  rw [legalRegion?_eq_some]
  by_cases hsize : size = 0
  · subst hsize
    have hno : ¬ s.Legal (touched a 0) := fun hlegal => by
      simpa [touched_zero] using hlegal.nonempty
    simp [hno]
  have hpages (n : Nat) : n ∈ touched a size ↔
      a.page.number ≤ n ∧ n < (a.toNat + size + 4095) / 4096 := by
    rw [mem_touched_iff hsize]
    omega
  have hlt : a.page.number < (a.toNat + size + 4095) / 4096 := by
    simp only [Address.page]
    omega
  have hsegments : (∀ segment ∈ s.segments, segment.overlaps a.page.base.toNat
        ((a.toNat + size + 4095) / 4096 * 4096) = false) ↔
      ∀ segment ∈ s.segments, ∀ n ∈ touched a size, n ∉ segment.pages := by
    refine forall₂_congr fun segment hsegment => ?_
    refine (overlaps_eq_false_iff (h.segments segment hsegment).nonempty hlt).trans ?_
    simp only [hpages, and_imp]
  constructor
  · rintro ⟨-, rfl, rfl, hzero, hstack, hbeside⟩
    refine ⟨⟨⟨a.page.number, (hpages _).mpr ⟨Nat.le_refl _, hlt⟩⟩, ?_, fun n hn => ?_,
      hsegments.mp hbeside⟩, rfl, rfl⟩
    · rw [hpages]
      omega
    · have hn := ((hpages n).mp hn).2
      show n < 0x7FFF4
      unfold userStackBase at hstack
      omega
  · rintro ⟨⟨-, hzero, hstack, hapart⟩, rfl, rfl⟩
    have hlast : (a.toNat + size + 4095) / 4096 - 1 < 0x7FFF4 :=
      hstack _ ((hpages _).mpr (by omega))
    rw [hpages] at hzero
    refine ⟨hsize, rfl, rfl, by omega, ?_, hsegments.mpr hapart⟩
    unfold userStackBase
    omega

theorem WellFormed.isBacked_eq_false (h : s.WellFormed)
    (hfree : s.segment1 = none ∨ s.segment2 = none) : s.isBacked = false := by
  rw [← Bool.not_eq_true]
  intro hb
  obtain ⟨first, second, h₁, h₂, -⟩ := h.backed hb
  simp [h₁, h₂] at hfree

theorem not_both (hfree : s.segment1 = none ∨ s.segment2 = none) :
    ¬ (s.segment1.isSome ∧ s.segment2.isSome) := by
  rcases hfree with h₁ | h₂
  · simp [h₁]
  · simp [h₂]

theorem addRegion_of_both (h : s.segment1.isSome ∧ s.segment2.isSome) (a : VirtualAddress)
    (size : Nat) (protection : Protection) :
    addRegion a size protection s = .error .tooManyRegions s [.tooManyRegions] := by
  unfold addRegion
  rw [if_pos h]

/-- A region with legal pages is defined as a segment with exactly these pages. -/
theorem addRegion_of_legal (h : s.WellFormed) (hfree : s.segment1 = none ∨ s.segment2 = none)
    (hlegal : s.Legal (touched a size)) (protection : Protection) :
    ∃ segment : Segment, segment.pages = touched a size ∧ segment.protection = protection ∧
      segment.frames = [] ∧
      addRegion a size protection s =
        .done ()
          (if s.segment1 = none then { s with segment1 := some segment }
            else { s with segment2 := some segment })
          [.regionDefined segment.base.base segment.stop segment.pageCount] := by
  have hbounds := (legalRegion?_eq_some_iff h).mpr ⟨hlegal, rfl, rfl⟩
  have hsize : size ≠ 0 := by
    rintro rfl
    simpa [touched_zero] using hlegal.nonempty
  let segment : Segment :=
    ⟨a.page, ((a.toNat + size + 4095) / 4096 * 4096 - a.page.base.toNat) / pageSize, protection, []⟩
  have hcount : a.page.number + segment.pageCount = (a.toNat + size + 4095) / 4096 := by
    simp only [segment, Page.base, Address.page, pageSize]
    omega
  have hstop : segment.stop = (a.toNat + size + 4095) / 4096 * 4096 := by
    rw [← hcount, Nat.add_mul]
    rfl
  refine ⟨segment, ?_, rfl, rfl, ?_⟩
  · ext n
    rw [mem_touched_iff hsize]
    rw [Segment.mem_pages, hcount]
    show a.page.number ≤ n ∧ _ ↔ _
    omega
  · rw [hstop]
    unfold addRegion
    rw [if_neg (not_both hfree), h.isBacked_eq_false hfree, if_neg Bool.false_ne_true, hbounds]
    dsimp only
    cases s.segment1 <;> rfl

theorem addRegion_of_not_legal (h : s.WellFormed)
    (hfree : s.segment1 = none ∨ s.segment2 = none) (hno : ¬ s.Legal (touched a size))
    (protection : Protection) :
    addRegion a size protection s = .error (.invalidRegion a) s [] := by
  have hbounds : s.legalRegion? a size = none :=
    Option.eq_none_iff_forall_ne_some.mpr fun _ hsome =>
      hno ((legalRegion?_eq_some_iff h).mp hsome).1
  unfold addRegion
  rw [if_neg (not_both hfree), h.isBacked_eq_false hfree, if_neg Bool.false_ne_true, hbounds]

end AddressSpace

namespace Directory

open AddressSpace

variable {d : Directory} {name : Nat} {space : AddressSpace}

/-- As long as a space in use has less than two segments, a region is defined if and only if its
pages are legal. It becomes a segment with exactly these pages, the second one if there is a first.
In all other cases the space is left as it is. -/
theorem Made.addRegion_ok_iff (h : d.Made) (hs : d.get? name = some space) (a : VirtualAddress)
    (size : Nat) (protection : Protection) :
    (space.segment1.isSome ∧ space.segment2.isSome →
      addRegion a size protection space = .error .tooManyRegions space [.tooManyRegions]) ∧
    (space.segment1 = none ∨ space.segment2 = none →
      ((addRegion a size protection space).outcome = .ok () ↔ space.Legal (touched a size)) ∧
      (space.Legal (touched a size) →
        ∃ segment : Segment, segment.pages = touched a size ∧ segment.protection = protection ∧
          segment.frames = [] ∧
          addRegion a size protection space =
            .done ()
              (if space.segment1 = none then { space with segment1 := some segment }
                else { space with segment2 := some segment })
              [.regionDefined segment.base.base segment.stop segment.pageCount]) ∧
      (¬ space.Legal (touched a size) →
        addRegion a size protection space = .error (.invalidRegion a) space [])) := by
  have hwf := h.wellFormed.get? hs
  refine ⟨fun hboth => addRegion_of_both hboth a size protection, fun hfree => ⟨?_,
    fun hlegal => addRegion_of_legal hwf hfree hlegal protection,
    fun hno => addRegion_of_not_legal hwf hfree hno protection⟩⟩
  constructor
  · intro hok
    by_contra hno
    rw [addRegion_of_not_legal hwf hfree hno] at hok
    cases hok
  · intro hlegal
    obtain ⟨segment, -, -, -, hdone⟩ := addRegion_of_legal hwf hfree hlegal protection
    rw [hdone]
    rfl

/-- The small system with a segment of two pages, one page below the stack. -/
def halfway : Machine :=
  stateAfter Request.perform
    [.space 0 .create, .space 0 (.addRegion (.ofNat 0x7FFF1FFF) 2 (.ofFlags true false true))]
    System.small.machine

/-- The last byte below the stack can be a region of its own there, but not together with the first
byte of the stack. -/
theorem addRegion_halfway :
    ∃ space, halfway.spaces.get? 0 = some space ∧
      (addRegion (.ofNat 0x7FFF3FFF) 1 .zero space).outcome = .ok () ∧
      addRegion (.ofNat 0x7FFF3FFF) 2 .zero space =
        .error (.invalidRegion (.ofNat 0x7FFF3FFF)) space [] := by
  have hmade : Made halfway.spaces :=
    Made.stateAfter (s := System.small.machine) Made.empty _
  let first : Segment := ⟨.ofNumber 0x7FFF1, 2, .ofFlags true false true, []⟩
  have hspace : halfway.spaces.get? 0 = some ⟨some first, none, [], false⟩ := by decide +kernel
  obtain ⟨hiff, -, -⟩ := (hmade.addRegion_ok_iff hspace (.ofNat 0x7FFF3FFF) 1 .zero).2 (.inr rfl)
  obtain ⟨-, -, hrefused⟩ :=
    (hmade.addRegion_ok_iff hspace (.ofNat 0x7FFF3FFF) 2 .zero).2 (.inr rfl)
  have hpage (n : Nat) : n ∈ touched (.ofNat 0x7FFF3FFF) 1 ↔ n = 0x7FFF3 := by
    rw [mem_touched_iff (by decide)]
    simp only [Address.ofNat, Address.page]
    omega
  refine ⟨_, hspace, hiff.mpr ⟨⟨0x7FFF3, (hpage _).mpr rfl⟩, ?_, fun n hn => ?_, ?_⟩,
    hrefused fun hlegal => ?_⟩
  · rw [hpage]
    decide
  · rw [(hpage n).mp hn]
    decide
  · intro segment hsegment n hn
    obtain rfl : segment = first := List.mem_singleton.mp hsegment
    rw [(hpage n).mp hn, Segment.mem_pages]
    decide
  · have htouched : 0x7FFF4 ∈ touched (.ofNat 0x7FFF3FFF) 2 :=
      (mem_touched_iff (by decide)).mpr (by decide)
    exact absurd (hlegal.stack _ htouched) (by decide)

end Directory

end MipsVM
