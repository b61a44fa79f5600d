import MipsVM.Proofs.Routine
import MipsVM.Proofs.Space.Regions
import MipsVM.Space.Backing

/-!
# The shape of address spaces

The regions of a space are whole pages of user memory, no two of them share an address, and either
no page has a frame or every page has one. All that is done to spaces keeps this.

## Main definitions

- `AddressSpace.Backed`: every page has a frame
- `AddressSpace.WellFormed`: the shape of a space
- `AddressSpace.SameRegions`: another space with the same regions
- `AddressSpace.bare`: the same regions without frames

## Main statements

- `legalRegion?_eq_some`, `addRegion_cases`: what it is to define a region
- `WellFormed.addRegion`, `populate_filled`, `fork_filled`: the shape is kept
- `Holds.regionOf`: an address is classified by the only region that has its byte
- `Backed.exists_frame`: each page of a region has a frame
- `SameRegions.frameOf?`: the frames of two spaces with the same regions correspond to each other
-/

namespace MipsVM

/-- The segment has at least one page, and all of them lie between the first page and the stack. -/
structure Segment.InUserMemory (s : Segment) : Prop where
  base : 0 < s.base.number
  nonempty : 0 < s.pageCount
  stop : s.stop ≤ userStackBase

/-- One segment ends before the other begins. -/
def Segment.Apart (s s' : Segment) : Prop :=
  s.stop ≤ s'.base.base.toNat ∨ s'.stop ≤ s.base.base.toNat

namespace AddressSpace

variable {s s' : AddressSpace} {first second : Segment} {m : Memory} {region region' : Region}
  {a : VirtualAddress}

/-- Both segments and the stack have a frame for each page. -/
def Backed (s : AddressSpace) : Prop :=
  ∃ first second, s.segment1 = some first ∧ s.segment2 = some second ∧
    first.frames.length = first.pageCount ∧ second.frames.length = second.pageCount ∧
    s.stack.length = stackPages

/-- The shape of a space. -/
structure WellFormed (s : AddressSpace) : Prop where
  order : s.segment1 = none → s.segment2 = none
  segments : ∀ segment ∈ s.segments, segment.InUserMemory
  apart : s.segments.Pairwise Segment.Apart
  backing : s.frames = [] ∨ s.Backed

/-- The other space has the same regions, whatever frames their pages have. -/
structure SameRegions (s s' : AddressSpace) : Prop where
  segment1 : s'.segment1.map Segment.bare = s.segment1.map Segment.bare
  segment2 : s'.segment2.map Segment.bare = s.segment2.map Segment.bare

/-- The same regions without frames. -/
def bare (s : AddressSpace) : AddressSpace :=
  ⟨s.segment1.map Segment.bare, s.segment2.map Segment.bare, [], false⟩

/-- The other space has the same regions, and all its pages have frames. -/
structure Filled (s s' : AddressSpace) : Prop where
  wellFormed : s'.WellFormed
  backed : s'.Backed
  regions : s.SameRegions s'
  loaded : s'.loaded = s.loaded

/-- The other space translates what the space translates, and to the same addresses. -/
def Continues (s s' : AddressSpace) : Prop :=
  ∀ a pa, s.translate a = some pa → s'.translate a = some pa

theorem frames_eq (h₁ : s.segment1 = some first) (h₂ : s.segment2 = some second) :
    s.frames = first.frames ++ second.frames ++ s.stack := by
  simp [frames, segments, h₁, h₂]

theorem Backed.isBacked (h : s.Backed) : s.isBacked := by
  obtain ⟨_, _, -, -, -, -, hstack⟩ := h
  simp only [AddressSpace.isBacked, Bool.not_eq_true', List.isEmpty_eq_false_iff]
  intro hnil
  rw [hnil] at hstack
  exact absurd hstack (by decide)

theorem WellFormed.backed (h : s.WellFormed) (hb : s.isBacked) : s.Backed := by
  rcases h.backing with hnil | hbacked
  · have hstack : s.stack = [] := (List.append_eq_nil_iff.mp hnil).2
    simp [isBacked, hstack] at hb
  · exact hbacked

theorem WellFormed.frames_eq_nil (h : s.WellFormed) (hb : ¬ s.isBacked) : s.frames = [] :=
  h.backing.resolve_right fun hbacked => hb hbacked.isBacked

theorem wellFormed_empty : empty.WellFormed where
  order _ := rfl
  segments := List.forall_mem_nil _
  apart := List.Pairwise.nil
  backing := .inl rfl

theorem WellFormed.finishLoading (h : s.WellFormed) : s.finishLoading.WellFormed :=
  ⟨h.order, h.segments, h.apart, h.backing⟩

section Regions

theorem SameRegions.trans {s'' : AddressSpace} (h : s.SameRegions s') (h' : s'.SameRegions s'') :
    s.SameRegions s'' :=
  ⟨h'.segment1.trans h.segment1, h'.segment2.trans h.segment2⟩

theorem SameRegions.segments (h : s.SameRegions s') :
    s'.segments.map Segment.bare = s.segments.map Segment.bare := by
  have hlist (o : Option Segment) : o.toList.map Segment.bare = (o.map Segment.bare).toList := by
    cases o <;> rfl
  simp only [AddressSpace.segments, List.map_append, hlist, h.segment1, h.segment2]

/-- What does not depend on the frames of a segment is the same for both. -/
theorem congr_bare {α : Type} {o o' : Option Segment} (h : o'.map Segment.bare = o.map Segment.bare)
    (f : Option Segment → α) (hf : ∀ o, f (o.map Segment.bare) = f o) : f o' = f o := by
  rw [← hf o', h, hf]

/-- What the regions of a page are depends on where they lie only. -/
theorem SameRegions.regionOf (h : s.SameRegions s') : s'.regionOf = s.regionOf := by
  funext a
  have hany {o o' : Option Segment} (ho : o'.map Segment.bare = o.map Segment.bare) :
      o'.any (·.contains a) = o.any (·.contains a) :=
    congr_bare ho (·.any (·.contains a)) fun o => by cases o <;> rfl
  simp only [AddressSpace.regionOf, hany h.segment1, hany h.segment2]

theorem SameRegions.firstPage (h : s.SameRegions s') : s'.firstPage = s.firstPage := by
  have hfirst {o o' : Option Segment} (ho : o'.map Segment.bare = o.map Segment.bare) :
      o'.elim 0 (·.base.number) = o.elim 0 (·.base.number) :=
    congr_bare ho (·.elim 0 (·.base.number)) fun o => by cases o <;> rfl
  funext region
  cases region with
  | segment1 => exact hfirst h.segment1
  | segment2 => exact hfirst h.segment2
  | stack => rfl
  | unmapped => rfl

theorem SameRegions.pagesOf (h : s.SameRegions s') : s'.pagesOf = s.pagesOf := by
  have hpages {o o' : Option Segment} (ho : o'.map Segment.bare = o.map Segment.bare) :
      o'.elim 0 Segment.pageCount = o.elim 0 Segment.pageCount :=
    congr_bare ho (·.elim 0 Segment.pageCount) fun o => by cases o <;> rfl
  funext region
  cases region with
  | segment1 => exact hpages h.segment1
  | segment2 => exact hpages h.segment2
  | stack => rfl
  | unmapped => rfl

theorem Backed.length_framesOf (h : s.Backed) (region : Region) :
    (s.framesOf region).length = s.pagesOf region := by
  obtain ⟨first, second, h₁, h₂, hlength₁, hlength₂, hstack⟩ := h
  cases region with
  | segment1 =>
    rw [framesOf, AddressSpace.pagesOf, h₁, Option.elim_some, Option.elim_some, hlength₁]
  | segment2 =>
    rw [framesOf, AddressSpace.pagesOf, h₂, Option.elim_some, Option.elim_some, hlength₂]
  | stack => exact hstack
  | unmapped => rfl

/-- In a space with frames, the bytes of a region lie on the pages from its first page on, one for
each of its frames. -/
theorem Backed.bounds (h : s.Backed) (ha : s.Holds a region) :
    s.firstPage region * 4096 ≤ a.toNat ∧
      a.toNat < (s.firstPage region + (s.framesOf region).length) * 4096 := by
  rw [h.length_framesOf]
  exact holds_iff.mp ha

theorem Backed.exists_frame (h : s.Backed) (ha : s.Holds a region) :
    ∃ frame, (s.framesOf region)[a.page.number - s.firstPage region]? = some frame ∧
      s.frameOf? region a.page = some frame := by
  obtain ⟨hlow, hhigh⟩ := h.bounds ha
  have hpage : a.page.number = a.toNat / 4096 := rfl
  have hlt : a.page.number - s.firstPage region < (s.framesOf region).length := by omega
  have hframe := List.getElem?_eq_getElem hlt
  refine ⟨_, hframe, ?_⟩
  rw [frameOf?_eq, if_pos (by omega), hframe]

theorem zip_framesOf_subset
    (h : ∀ region, (s'.framesOf region).length = (s.framesOf region).length) (region : Region) :
    (s'.framesOf region).zip (s.framesOf region) ⊆ s'.frames.zip s.frames := by
  rw [frames_eq_framesOf, frames_eq_framesOf,
    List.zip_append (by rw [List.length_append, List.length_append, h, h]), List.zip_append (h _)]
  cases region with
  | segment1 => simp
  | segment2 => simp
  | stack => simp
  | unmapped => exact List.nil_subset _

/-- Frames of the same page in two spaces with the same regions stand at the same place among all
frames of their spaces. -/
theorem SameRegions.frameOf? (h : s.SameRegions s') (hb : s.Backed) (hb' : s'.Backed)
    {page : VirtualPage} {frame : PhysicalPage} (hf : s.frameOf? region page = some frame) :
    ∃ frame', s'.frameOf? region page = some frame' ∧ (frame', frame) ∈ s'.frames.zip s.frames := by
  have hlength (region : Region) : (s'.framesOf region).length = (s.framesOf region).length := by
    rw [hb'.length_framesOf, hb.length_framesOf, h.pagesOf]
  obtain ⟨index, hpage, hi⟩ := frameOf?_eq_some.mp hf
  have hlt : index < (s'.framesOf region).length := by
    rw [hlength]
    exact (List.getElem?_eq_some_iff.mp hi).1
  have hi' := List.getElem?_eq_getElem hlt
  have hzip : ((s'.framesOf region).zip (s.framesOf region))[index]? =
      some ((s'.framesOf region)[index], frame) := List.getElem?_zip_eq_some.mpr ⟨hi', hi⟩
  refine ⟨_, frameOf?_eq_some.mpr ⟨index, ?_, hi'⟩,
    zip_framesOf_subset hlength region (List.mem_of_getElem? hzip)⟩
  rw [hpage, h.firstPage]

theorem Continues.refl : s.Continues s :=
  fun _ _ h => h

theorem continues_of_frames_eq_nil (h : s.frames = []) : s.Continues s' := by
  intro a pa hpa
  rw [translate, frameOf?_eq_none h] at hpa
  cases hpa

theorem WellFormed.not_contains (h : s.WellFormed)
    (h₁ : s.segment1 = some first) (h₂ : s.segment2 = some second) (a : VirtualAddress) :
    ¬ (first.contains a ∧ second.contains a) := by
  have hapart := h.apart
  rw [AddressSpace.segments, h₁, h₂] at hapart
  have hapart : first.Apart second := by simpa using hapart
  simp only [Segment.Apart, Segment.contains, decide_eq_true_eq] at *
  omega

/-- The segments lie below the stack. -/
theorem WellFormed.lt_stack (h : s.WellFormed) (ha : s.Holds a region) (hr : region ≠ .stack) :
    a.toNat < userStackBase := by
  cases region with
  | segment1 =>
    obtain ⟨segment, hs, -, hlt⟩ := ha
    have hmem : segment ∈ s.segments := List.mem_append_left _ (Option.mem_toList.mpr hs)
    exact Nat.lt_of_lt_of_le hlt (h.segments segment hmem).stop
  | segment2 =>
    obtain ⟨segment, hs, -, hlt⟩ := ha
    have hmem : segment ∈ s.segments := List.mem_append_right _ (Option.mem_toList.mpr hs)
    exact Nat.lt_of_lt_of_le hlt (h.segments segment hmem).stop
  | stack => exact absurd rfl hr
  | unmapped => exact ha.elim

/-- No two regions have the byte at an address. -/
theorem Holds.unique (h : s.WellFormed) (ha : s.Holds a region) (ha' : s.Holds a region') :
    region = region' := by
  have hstack {region : Region} (ha : s.Holds a region) (hs : s.Holds a .stack) :
      region = .stack := by
    by_contra hne
    exact absurd hs.1 (Nat.not_le.mpr (h.lt_stack ha hne))
  have hapart (h₁ : s.Holds a .segment1) (h₂ : s.Holds a .segment2) : False := by
    obtain ⟨first, hfirst, hin₁⟩ := h₁
    obtain ⟨second, hsecond, hin₂⟩ := h₂
    exact h.not_contains hfirst hsecond a ⟨decide_eq_true hin₁, decide_eq_true hin₂⟩
  match region, region' with
  | .unmapped, _ => exact ha.elim
  | _, .unmapped => exact ha'.elim
  | .stack, _ => exact (hstack ha' ha).symm
  | _, .stack => exact hstack ha ha'
  | .segment1, .segment2 => exact (hapart ha ha').elim
  | .segment2, .segment1 => exact (hapart ha' ha).elim
  | .segment1, .segment1 | .segment2, .segment2 => rfl

/-- An address is classified by the region that has its byte. -/
theorem Holds.regionOf (h : s.WellFormed) (ha : s.Holds a region) : s.regionOf a = region :=
  (holds_regionOf ha.ne_unmapped).unique h ha

theorem WellFormed.page_lt (h : s.WellFormed) {page : VirtualPage} {frame : PhysicalPage}
    (hf : s.frameOf? (s.regionOf page.base) page = some frame) : page.number < 0x80000 := by
  have hne : s.regionOf page.base ≠ .unmapped := by
    intro hno
    rw [hno] at hf
    cases hf
  have hlt : page.base.toNat < userStackTop := by
    by_cases hstack : s.regionOf page.base = .stack
    · have ha := holds_regionOf hne
      rw [hstack] at ha
      exact ha.2
    · exact Nat.lt_trans (h.lt_stack (holds_regionOf hne) hstack) (by decide)
  simp only [Page.base, userStackTop] at hlt
  omega

end Regions

section Operations

/-- The bounds of a region, and when it may be defined. No sum passes a word, since the region ends
below the stack. -/
theorem legalRegion?_eq_some {size stop : Nat} {base : VirtualPage} :
    s.legalRegion? a size = some (base, stop) ↔
      size ≠ 0 ∧ base = a.page ∧ stop = (a.toNat + size + 4095) / 4096 * 4096 ∧
        a.page.number ≠ 0 ∧ stop ≤ userStackBase ∧
        ∀ segment ∈ s.segments, segment.overlaps a.page.base.toNat stop = false := by
  have hpagesize : pageSize = 4096 := rfl
  simp only [legalRegion?, hpagesize, roundUp?_page, Option.bind_eq_bind, Option.bind_eq_some_iff,
    word?_eq_some, Option.ite_none_right_eq_some, Option.guard_eq_some', Option.pure_def,
    Option.some.injEq, Prod.mk.injEq, List.all_eq_true, Bool.not_eq_true']
  constructor
  · rintro ⟨-, hsize, _, ⟨rfl, -⟩, _, ⟨-, rfl⟩, -, ⟨hzero, hend⟩, -, hall, rfl, rfl⟩
    exact ⟨hsize, rfl, rfl, hzero, hend, hall⟩
  · rintro ⟨hsize, rfl, rfl, hzero, hend, hall⟩
    have hword : (a.toNat + size + 4095) / 4096 * 4096 < 0x100000000 :=
      Nat.lt_of_le_of_lt hend (by decide)
    exact ⟨(), hsize, _, ⟨rfl, by omega⟩, _, ⟨by omega, rfl⟩, (), ⟨hzero, hend⟩, (), hall, rfl, rfl⟩

/-- A region that may be defined lies in whole pages of user memory beside the segments. -/
theorem legalRegion?_bounds {size stop : Nat} {base : VirtualPage}
    (h : s.legalRegion? a size = some (base, stop)) :
    0 < base.number ∧ base.number * 4096 < stop ∧ stop % 4096 = 0 ∧ stop ≤ userStackBase ∧
      ∀ segment ∈ s.segments, segment.stop ≤ base.number * 4096 ∨
        stop ≤ segment.base.number * 4096 := by
  obtain ⟨hsize, rfl, rfl, hzero, hend, hbeside⟩ := legalRegion?_eq_some.mp h
  refine ⟨Nat.pos_of_ne_zero hzero, ?_, by omega, hend, fun segment hs => ?_⟩
  · simp only [Address.page]
    omega
  · have hs := hbeside segment hs
    rw [Segment.overlaps, decide_eq_false_iff_not] at hs
    simp only [Page.base] at hs
    omega

theorem WellFormed.withSegment1 (h : s.WellFormed) (hframes : s.frames = [])
    (h₁ : s.segment1 = none) {segment : Segment} (hinside : segment.InUserMemory)
    (hnil : segment.frames = []) :
    ({ s with segment1 := some segment } : AddressSpace).WellFormed ∧
      ({ s with segment1 := some segment } : AddressSpace).frames = [] := by
  have h₂ := h.order h₁
  have hstack : s.stack = [] := (List.append_eq_nil_iff.mp hframes).2
  have hnone : ({ s with segment1 := some segment } : AddressSpace).frames = [] := by
    simp [AddressSpace.frames, AddressSpace.segments, h₂, hnil, hstack]
  refine ⟨⟨fun hn => absurd hn (Option.some_ne_none _), ?_, ?_, .inl hnone⟩, hnone⟩
  · simpa [AddressSpace.segments, h₂] using hinside
  · simp [AddressSpace.segments, h₂]

theorem WellFormed.withSegment2 (h : s.WellFormed) (hframes : s.frames = [])
    (h₁ : s.segment1 = some first) {segment : Segment} (hinside : segment.InUserMemory)
    (hnil : segment.frames = []) (hapart : first.Apart segment) :
    ({ s with segment2 := some segment } : AddressSpace).WellFormed ∧
      ({ s with segment2 := some segment } : AddressSpace).frames = [] := by
  have hfirst : first ∈ s.segments := by simp [AddressSpace.segments, h₁]
  have hstack : s.stack = [] := (List.append_eq_nil_iff.mp hframes).2
  have hnil₁ : first.frames = [] := by
    have hsegments := List.flatMap_eq_nil_iff.mp (List.append_eq_nil_iff.mp hframes).1
    exact hsegments first hfirst
  have hnone : ({ s with segment2 := some segment } : AddressSpace).frames = [] := by
    simp [AddressSpace.frames, AddressSpace.segments, h₁, hnil₁, hnil, hstack]
  refine ⟨⟨?_, ?_, ?_, .inl hnone⟩, hnone⟩
  · simp [h₁]
  · simpa [AddressSpace.segments, h₁] using ⟨h.segments first hfirst, hinside⟩
  · simpa [AddressSpace.segments, h₁] using hapart

/-- A space with the regions of a well-formed space is well-formed if all pages have a frame, or
none. -/
theorem WellFormed.of_sameRegions (h : s.WellFormed) (hr : s.SameRegions s')
    (hb : s'.frames = [] ∨ s'.Backed) : s'.WellFormed where
  order hn := by
    have h₁ : s.segment1 = none := by simpa [hn] using hr.segment1.symm
    simpa [h.order h₁] using hr.segment2
  segments segment hs := by
    have hmem : segment.bare ∈ s.segments.map Segment.bare := by
      rw [← hr.segments]
      exact List.mem_map_of_mem hs
    obtain ⟨old, ho, heq⟩ := List.mem_map.mp hmem
    obtain ⟨hbase, hcount, -, -⟩ := Segment.mk.inj heq
    obtain ⟨hpos, hne, hstop⟩ := h.segments old ho
    unfold Segment.stop at hstop
    rw [hbase] at hpos hstop
    rw [hcount] at hne hstop
    exact ⟨hpos, hne, hstop⟩
  apart := by
    -- whether segments are apart does not depend on their frames
    have hbare (l : List Segment) :
        l.Pairwise Segment.Apart ↔ (l.map Segment.bare).Pairwise Segment.Apart := by
      rw [List.pairwise_map]
      rfl
    rw [hbare, hr.segments, ← hbare]
    exact h.apart
  backing := hb

theorem sameRegions_bare (s : AddressSpace) : s.SameRegions s.bare := by
  have hbare (o : Option Segment) :
      (o.map Segment.bare).map Segment.bare = o.map Segment.bare := by
    cases o <;> rfl
  exact ⟨hbare s.segment1, hbare s.segment2⟩

theorem frames_bare (s : AddressSpace) : s.bare.frames = [] := by
  have hbare (o : Option Segment) :
      ((o.map Segment.bare).toList).flatMap Segment.frames = [] := by
    cases o <;> rfl
  simp only [frames, AddressSpace.segments, bare, List.flatMap_append, hbare, List.append_nil]

theorem WellFormed.bare (h : s.WellFormed) : s.bare.WellFormed :=
  h.of_sameRegions s.sameRegions_bare (.inl s.frames_bare)

/-- To define a region either changes nothing or puts a segment where there was none. -/
theorem addRegion_cases (s : AddressSpace) (a : VirtualAddress) (size : Nat)
    (protection : Protection) :
    (∃ e events, addRegion a size protection s = .error e s events) ∨
      ¬ s.isBacked ∧ ∃ base stop segment, s.legalRegion? a size = some (base, stop) ∧
        segment = ⟨base, (stop - base.base.toNat) / pageSize, protection, []⟩ ∧
        (s.segment1 = none ∧
            addRegion a size protection s = .done () { s with segment1 := some segment }
              [.regionDefined base.base stop segment.pageCount] ∨
          (∃ first, s.segment1 = some first) ∧ s.segment2 = none ∧
            addRegion a size protection s = .done () { s with segment2 := some segment }
              [.regionDefined base.base stop segment.pageCount]) := by
  unfold addRegion
  by_cases hfull : s.segment1.isSome ∧ s.segment2.isSome
  · exact .inl ⟨_, _, if_pos hfull⟩
  rw [if_neg hfull]
  by_cases hbacked : s.isBacked
  · exact .inl ⟨_, _, if_pos hbacked⟩
  rw [if_neg hbacked]
  cases s.legalRegion? a size with
  | none => exact .inl ⟨_, _, rfl⟩
  | some place =>
    refine .inr ⟨hbacked, place.1, place.2, _, rfl, rfl, ?_⟩
    cases h₁ : s.segment1 with
    | none => exact .inl ⟨rfl, rfl⟩
    | some first =>
      have h₂ : s.segment2 = none := by simpa [h₁] using hfull
      exact .inr ⟨⟨first, rfl⟩, h₂, rfl⟩

theorem frames_addRegion (s : AddressSpace) (a : VirtualAddress) (size : Nat)
    (protection : Protection) :
    (addRegion a size protection).EndsIn s fun left => left.frames = s.frames := by
  rw [Routine.endsIn_iff]
  rcases s.addRegion_cases a size protection with ⟨e, events, hrun⟩ |
    ⟨-, base, stop, segment, -, rfl, ⟨h₁, hrun⟩ | ⟨-, h₂, hrun⟩⟩
  · rw [hrun]
    rfl
  · rw [hrun]
    simp [Ending.done, frames, segments, h₁]
  · rw [hrun]
    simp [Ending.done, frames, segments, h₂]

/-- A region is added to a space without frames only, and adds a segment without frames. -/
theorem WellFormed.addRegion (h : s.WellFormed) (a : VirtualAddress) (size : Nat)
    (protection : Protection) :
    (addRegion a size protection).Ends s
      (fun _ s' => ¬ s.isBacked ∧ s'.WellFormed ∧ s'.frames = [])
      (fun _ s' => s' = s) (fun _ _ => False) := by
  rcases s.addRegion_cases a size protection with ⟨e, events, hrun⟩ |
    ⟨hbacked, base, stop, segment, hlegal, hsegment, hrun⟩
  · exact (Routine.ends_of_error hrun).mpr rfl
  obtain ⟨hbase, hlt, hpages, hend, hbeside⟩ := legalRegion?_bounds hlegal
  have hframes := h.frames_eq_nil hbacked
  have hsize : pageSize = 4096 := rfl
  have hstop : segment.stop = stop := by
    simp only [Segment.stop, hsegment, Page.base, hsize]
    omega
  have hinside : segment.InUserMemory := by
    refine ⟨hsegment ▸ hbase, ?_, by rwa [hstop]⟩
    simp only [hsegment, Page.base, hsize]
    omega
  have hnil : segment.frames = [] := by rw [hsegment]
  rcases hrun with ⟨h₁, hrun⟩ | ⟨⟨first, h₁⟩, -, hrun⟩
  · exact (Routine.ends_of_done hrun).mpr ⟨hbacked, h.withSegment1 hframes h₁ hinside hnil⟩
  · have hapart : first.Apart segment := by
      unfold Segment.Apart
      rw [hstop, hsegment]
      exact hbeside first (by simp [AddressSpace.segments, h₁])
    exact (Routine.ends_of_done hrun).mpr ⟨hbacked, h.withSegment2 hframes h₁ hinside hnil hapart⟩

theorem WellFormed.filled (h : s.WellFormed) (h₁ : s.segment1 = some first)
    (h₂ : s.segment2 = some second) {frames₁ frames₂ stack : List PhysicalPage}
    (hl₁ : frames₁.length = first.pageCount) (hl₂ : frames₂.length = second.pageCount)
    (hl : stack.length = stackPages) :
    s.Filled ⟨some { first with frames := frames₁ }, some { second with frames := frames₂ }, stack,
      s.loaded⟩ := by
  have hbacked : AddressSpace.Backed ⟨some { first with frames := frames₁ },
      some { second with frames := frames₂ }, stack, s.loaded⟩ :=
    ⟨_, _, rfl, rfl, hl₁, hl₂, hl⟩
  have hregions : s.SameRegions ⟨some { first with frames := frames₁ },
      some { second with frames := frames₂ }, stack, s.loaded⟩ :=
    ⟨by rw [h₁]; rfl, by rw [h₂]; rfl⟩
  exact ⟨h.of_sameRegions hregions (.inr hbacked), hbacked, hregions, rfl⟩

/-- A filled copy of the regions is loaded as far as the space is. -/
theorem Filled.withLoaded {bare child : AddressSpace} (h : bare.Filled child)
    (hregions : s.SameRegions bare) : s.Filled { child with loaded := s.loaded } := by
  obtain ⟨hwf, hbacked, hsame, -⟩ := h
  have hregions' := hregions.trans hsame
  exact ⟨⟨hwf.order, hwf.segments, hwf.apart, hwf.backing⟩, hbacked,
    ⟨hregions'.segment1, hregions'.segment2⟩, rfl⟩

/-- Frames that are handed out for a space are as many as were wanted. -/
theorem length_zeroedFramesAfter {wanted left : Nat} {got : List PhysicalPage} :
    (Memory.zeroedFramesAfter wanted left got).Ends m
      (fun frames _ => frames.length = got.length + left) (fun _ _ => True) (fun _ _ => True) := by
  induction left generalizing m got with
  | zero => exact got.length_reverse
  | succ left ih =>
    rw [Memory.zeroedFramesAfter, Routine.ends_bind]
    refine Routine.ends_of_forall (fun answer m₁ => ?_) (fun _ _ => trivial) (fun _ _ => trivial)
    cases answer with
    | ok frame =>
      simp only [Routine.ends_bind]
      refine Routine.ends_of_forall (fun _ m₂ => ?_) (fun _ _ => trivial) (fun _ _ => trivial)
      refine ih.mono (fun frames _ hl => ?_) (fun _ _ h => h) (fun _ _ h => h)
      rw [hl, List.length_cons]
      omega
    | error cause =>
      simp

theorem length_zeroedFrames {count : Nat} :
    (Memory.zeroedFrames count).Ends m (fun frames _ => frames.length = count) (fun _ _ => True)
      (fun _ _ => True) :=
  length_zeroedFramesAfter.mono (fun _ _ hl => by simpa using hl) (fun _ _ h => h) (fun _ _ h => h)

theorem length_zeroedFramesOrGiveBack {count : Nat} {held : List PhysicalPage} :
    (Memory.zeroedFramesOrGiveBack count held).Ends m (fun frames _ => frames.length = count)
      (fun _ _ => True) (fun _ _ => True) := by
  rw [Memory.zeroedFramesOrGiveBack, Routine.ends_bind, Routine.ends_attempt]
  refine length_zeroedFrames.mono (fun _ _ hl => hl) (fun e m' _ => ?_) (fun _ _ h => h)
  simp

theorem populate_of_missing (hb : ¬ s.isBacked) (hmissing : s.segment1 = none ∨ s.segment2 = none) :
    s.populate = Routine.fail .missingRegion := by
  unfold populate
  rw [if_neg hb]
  split
  · next h₁ h₂ =>
    rw [h₁, h₂] at hmissing
    simp at hmissing
  · rfl

/-- Only a space without frames is given frames, and then it has one for each page. -/
theorem populate_filled (h : s.WellFormed) :
    s.populate.Ends m (fun s' _ => ¬ s.isBacked ∧ s.Filled s') (fun _ _ => True)
      (fun _ _ => True) := by
  by_cases hb : s.isBacked
  · rw [populate_of_isBacked hb]
    trivial
  unfold populate
  rw [if_neg hb]
  split
  · next first second h₁ h₂ =>
    simp only [Routine.ends_bind, Routine.ends_pure]
    refine length_zeroedFrames.mono (fun frames₁ m₁ hl₁ => ?_) (fun _ _ h => h) (fun _ _ h => h)
    refine length_zeroedFramesOrGiveBack.mono (fun frames₂ m₂ hl₂ => ?_) (fun _ _ h => h)
      (fun _ _ h => h)
    refine length_zeroedFramesOrGiveBack.mono (fun stack m₃ hl => ?_) (fun _ _ h => h)
      (fun _ _ h => h)
    exact ⟨hb, h.filled h₁ h₂ hl₁ hl₂ hl⟩
  · trivial

/-- A space that has frames is copied by giving frames to its regions and copying the bytes. -/
theorem fork_of_isBacked (h : s.WellFormed) (hb : s.isBacked) : s.fork = (do
    let child ← s.bare.populate
    (Memory.duplicateFrames (child.frames.zip s.frames)).onPanic child.leak
    pure { child with loaded := s.loaded }) := by
  obtain ⟨first, second, h₁, h₂, -⟩ := h.backed hb
  unfold fork AddressSpace.bare
  rw [h₁, h₂]
  exact if_pos hb

theorem fork_of_not_isBacked (hb : ¬ s.isBacked) : ∃ e, s.fork = Routine.fail e := by
  unfold fork
  split
  · exact ⟨_, if_neg hb⟩
  · exact ⟨_, rfl⟩

/-- The copy of a space is like the space. -/
theorem fork_filled (h : s.WellFormed) :
    s.fork.Ends m (fun s' _ => s.Filled s') (fun _ _ => True) (fun _ _ => True) := by
  by_cases hb : s.isBacked
  · rw [fork_of_isBacked h hb]
    simp only [Routine.ends_bind, Routine.ends_pure]
    refine (populate_filled h.bare).mono (fun child m₁ hchild => ?_) (fun _ _ h => h)
      (fun _ _ h => h)
    refine Routine.ends_of_forall (fun _ _ => ?_) (fun _ _ => trivial) (fun _ _ => trivial)
    exact hchild.2.withLoaded s.sameRegions_bare
  · obtain ⟨e, hfail⟩ := fork_of_not_isBacked hb
    rw [hfail]
    trivial

end Operations

end AddressSpace

end MipsVM
