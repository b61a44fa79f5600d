import Mathlib.Data.Option.Basic
import MipsVM.Space

/-!
# The regions of user memory

Each of the two segments and the stack is a range of addresses, with one frame for each page once
the space has frames. An address is classified by comparing it with these ranges in turn, and the
frame of a page is found by its distance from the first page of the region.

## Main definitions

- `AddressSpace.Holds`: a region has the byte at an address
- `AddressSpace.firstPage`, `AddressSpace.pagesOf`, `AddressSpace.framesOf`: the pages and the
  frames of a region

## Main statements

- `regionOf_eq_unmapped`, `holds_regionOf`: an address belongs to a region that has its byte, if
  there is one
- `regionOf_page`: all addresses of a page belong to one region
- `frameOf?_eq_some`: which pages a frame stands for
- `page_unique`: no frame stands for two pages
-/

namespace MipsVM

namespace AddressSpace

variable {s : AddressSpace} {region region' : Region} {a : VirtualAddress}
  {page page' : VirtualPage} {frame : PhysicalPage}

/-- The region has the byte at an address. -/
def Holds (s : AddressSpace) (a : VirtualAddress) : Region → Prop
  | .segment1 => ∃ segment ∈ s.segment1, segment.base.base.toNat ≤ a.toNat ∧ a.toNat < segment.stop
  | .segment2 => ∃ segment ∈ s.segment2, segment.base.base.toNat ≤ a.toNat ∧ a.toNat < segment.stop
  | .stack => userStackBase ≤ a.toNat ∧ a.toNat < userStackTop
  | .unmapped => False

/-- The number of the first page of a region. -/
def firstPage (s : AddressSpace) : Region → Nat
  | .segment1 => s.segment1.elim 0 (·.base.number)
  | .segment2 => s.segment2.elim 0 (·.base.number)
  | .stack => stackBasePage.number
  | .unmapped => 0

/-- The number of pages of a region. -/
def pagesOf (s : AddressSpace) : Region → Nat
  | .segment1 => s.segment1.elim 0 Segment.pageCount
  | .segment2 => s.segment2.elim 0 Segment.pageCount
  | .stack => stackPages
  | .unmapped => 0

/-- The frames of a region, in the order of its pages. -/
def framesOf (s : AddressSpace) : Region → List PhysicalPage
  | .segment1 => s.segment1.elim [] Segment.frames
  | .segment2 => s.segment2.elim [] Segment.frames
  | .stack => s.stack
  | .unmapped => []

section Classification

theorem any_contains_iff {o : Option Segment} : o.any (·.contains a) ↔
    ∃ segment ∈ o, segment.base.base.toNat ≤ a.toNat ∧ a.toNat < segment.stop := by
  simp [Option.any_eq_true, Segment.contains]

/-- A region has the bytes of its pages. -/
theorem holds_iff : s.Holds a region ↔ s.firstPage region * 4096 ≤ a.toNat ∧
    a.toNat < (s.firstPage region + s.pagesOf region) * 4096 := by
  have hsegment (o : Option Segment) :
      (∃ segment ∈ o, segment.base.base.toNat ≤ a.toNat ∧ a.toNat < segment.stop) ↔
        o.elim 0 (·.base.number) * 4096 ≤ a.toNat ∧
          a.toNat < (o.elim 0 (·.base.number) + o.elim 0 Segment.pageCount) * 4096 := by
    cases o with
    | none => simp
    | some segment => simp [Segment.stop, Page.base, Nat.add_mul]
  cases region with
  | segment1 => exact hsegment s.segment1
  | segment2 => exact hsegment s.segment2
  | stack =>
    rw [Holds, firstPage, pagesOf, Nat.add_mul, ← userStackBase_add_size, ← stackBasePage_base]
    rfl
  | unmapped => simp [Holds, firstPage, pagesOf]

theorem holds_regionOf (h : s.regionOf a ≠ .unmapped) : s.Holds a (s.regionOf a) := by
  unfold regionOf at h ⊢
  split
  · next hfirst => exact any_contains_iff.mp hfirst
  · split
    · next hsecond => exact any_contains_iff.mp hsecond
    · split
      · next hstack =>
        rw [isStack, decide_eq_true_iff] at hstack
        exact hstack
      · next hfirst hsecond hstack =>
        rw [if_neg hfirst, if_neg hsecond, if_neg hstack] at h
        exact absurd rfl h

theorem regionOf_eq_unmapped (hno : ∀ region, ¬ s.Holds a region) :
    s.regionOf a = .unmapped := by
  by_contra hne
  exact hno _ (holds_regionOf hne)

theorem Holds.ne_unmapped (h : s.Holds a region) : s.regionOf a ≠ .unmapped := by
  have hregion : s.segment1.any (·.contains a) ∨ s.segment2.any (·.contains a) ∨ isStack a := by
    cases region with
    | segment1 => exact .inl (any_contains_iff.mpr h)
    | segment2 => exact .inr (.inl (any_contains_iff.mpr h))
    | stack => exact .inr (.inr (decide_eq_true h))
    | unmapped => exact h.elim
  unfold regionOf
  grind

theorem regionOf_page (s : AddressSpace) (a : VirtualAddress) :
    s.regionOf a.page.base = s.regionOf a := by
  have hcontains (segment : Segment) : segment.contains a.page.base = segment.contains a := by
    rw [Bool.eq_iff_iff, Segment.contains_iff, Segment.contains_iff, Page.page_base]
  have hstack : isStack a.page.base = isStack a := by
    rw [Bool.eq_iff_iff, isStack, isStack, decide_eq_true_iff, decide_eq_true_iff]
    simp only [Page.base, Address.page, userStackBase, userStackTop]
    omega
  simp only [regionOf, hcontains, hstack]

end Classification

section Frames

theorem frames_eq_framesOf (s : AddressSpace) :
    s.frames = s.framesOf .segment1 ++ s.framesOf .segment2 ++ s.framesOf .stack := by
  have helim (o : Option Segment) : o.toList.flatMap Segment.frames = o.elim [] Segment.frames := by
    cases o <;> simp
  simp only [frames, segments, framesOf, List.flatMap_append, helim]

theorem framesOf_subset (s : AddressSpace) (region : Region) : s.framesOf region ⊆ s.frames := by
  rw [frames_eq_framesOf]
  cases region with
  | segment1 => simp
  | segment2 => simp
  | stack => simp
  | unmapped => exact List.nil_subset _

theorem nodup_framesOf (h : s.frames.Nodup) (region : Region) : (s.framesOf region).Nodup := by
  rw [frames_eq_framesOf, List.nodup_append, List.nodup_append] at h
  obtain ⟨⟨hfirst, hsecond, -⟩, hstack, -⟩ := h
  cases region with
  | segment1 => exact hfirst
  | segment2 => exact hsecond
  | stack => exact hstack
  | unmapped => exact List.nodup_nil

/-- No frame belongs to two regions. -/
theorem region_unique (h : s.frames.Nodup) (hf : frame ∈ s.framesOf region)
    (hf' : frame ∈ s.framesOf region') : region = region' := by
  rw [frames_eq_framesOf, List.nodup_append, List.nodup_append] at h
  obtain ⟨⟨-, -, hsegments⟩, -, hstack⟩ := h
  have hstack₁ (frame) (hf : frame ∈ s.framesOf .segment1) :=
    hstack frame (List.mem_append_left _ hf)
  have hstack₂ (frame) (hf : frame ∈ s.framesOf .segment2) :=
    hstack frame (List.mem_append_right _ hf)
  cases region <;> cases region' <;> grind [framesOf]

theorem frameOf?_eq : s.frameOf? region page =
    if s.firstPage region ≤ page.number then
      (s.framesOf region)[page.number - s.firstPage region]?
    else none := by
  have hindex (first : VirtualPage) (frames : List PhysicalPage) :
      ((page.distanceFrom first).bind fun index => frames[index]?) =
        if first.number ≤ page.number then frames[page.number - first.number]? else none := by
    unfold Page.distanceFrom
    split <;> rfl
  cases region with
  | segment1 =>
    unfold frameOf? firstPage framesOf
    cases s.segment1 with
    | none => simp
    | some segment => exact hindex segment.base segment.frames
  | segment2 =>
    unfold frameOf? firstPage framesOf
    cases s.segment2 with
    | none => simp
    | some segment => exact hindex segment.base segment.frames
  | stack => exact hindex stackBasePage s.stack
  | unmapped => simp [frameOf?, framesOf]

theorem frameOf?_eq_some : s.frameOf? region page = some frame ↔
    ∃ index, page.number = s.firstPage region + index ∧
      (s.framesOf region)[index]? = some frame := by
  rw [frameOf?_eq, Option.ite_none_right_eq_some]
  constructor
  · rintro ⟨hle, hf⟩
    exact ⟨_, by omega, hf⟩
  · rintro ⟨index, hpage, hf⟩
    rw [hpage, Nat.add_sub_cancel_left]
    exact ⟨Nat.le_add_right .., hf⟩

theorem mem_frames_of_frameOf? (h : s.frameOf? region page = some frame) : frame ∈ s.frames := by
  obtain ⟨index, -, hf⟩ := frameOf?_eq_some.mp h
  exact s.framesOf_subset region (List.mem_of_getElem? hf)

theorem frameOf?_eq_none (h : s.frames = []) (region : Region) (page : VirtualPage) :
    s.frameOf? region page = none := by
  rw [Option.eq_none_iff_forall_ne_some]
  intro frame hf
  have := mem_frames_of_frameOf? hf
  rw [h] at this
  exact absurd this List.not_mem_nil

/-- No frame stands for two pages. -/
theorem page_unique (hnodup : s.frames.Nodup) (hf : s.frameOf? region page = some frame)
    (hf' : s.frameOf? region' page' = some frame) : page = page' := by
  obtain ⟨index, hpage, hi⟩ := frameOf?_eq_some.mp hf
  obtain ⟨index', hpage', hi'⟩ := frameOf?_eq_some.mp hf'
  obtain rfl := region_unique hnodup (List.mem_of_getElem? hi) (List.mem_of_getElem? hi')
  have hlt := (List.getElem?_eq_some_iff.mp hi).1
  have hindex : index = index' :=
    (List.getElem?_inj hlt (nodup_framesOf hnodup _)).mp (hi.trans hi'.symm)
  ext
  omega

/-- All addresses of a page that has a frame are translated, each to its offset in the frame. -/
theorem translate_join (h : s.frameOf? (s.regionOf page.base) page = some frame) (o : PageOffset) :
    s.translate (page.join o) = some (frame.join o) := by
  have hregion := s.regionOf_page (page.join o)
  have hoffset : (page.join o).offset = o := by
    simp only [Address.offset, Page.join, Nat.mul_add_mod_self_right, Nat.mod_eq_of_lt o.isLt]
  rw [Page.page_join] at hregion
  rw [translate, ← hregion, Page.page_join, h, Option.map_some, hoffset]

end Frames

end AddressSpace

end MipsVM
