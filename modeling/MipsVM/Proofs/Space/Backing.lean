import MipsVM.Proofs.Space.Supply
import MipsVM.Proofs.Space.WellFormed

/-!
# Giving frames to spaces and taking them back

A space is given a frame for each page or none at all, and a copy of a space is like the space. The
books are kept in either case, and the frames that were in use before are left as they were.

## Main definitions

- `AddressSpace.pageTotal`: the number of frames that a space needs
- `AddressSpace.Supplied`: the space that came out of another one by giving it frames

## Main statements

- `populate_ends`, `fork_ends`, `release_ends`: the books afterwards
-/

namespace MipsVM

open Memory

namespace AddressSpace

variable {range : PhysicalRange} {m m' : Memory} {runs : List Run} {s s' : AddressSpace}
  {first second : Segment}

/-- The number of pages of the segments and the stack. -/
def pageTotal (s : AddressSpace) : Nat :=
  s.segments.foldr (fun segment pages => segment.pageCount + pages) stackPages

theorem pageTotal_eq_pagesOf (s : AddressSpace) :
    s.pageTotal = s.pagesOf .segment1 + s.pagesOf .segment2 + s.pagesOf .stack := by
  unfold pageTotal segments pagesOf
  cases s.segment1 <;> cases s.segment2 <;> simp [Nat.add_assoc]

theorem pageTotal_eq (h₁ : s.segment1 = some first) (h₂ : s.segment2 = some second) :
    s.pageTotal = first.pageCount + second.pageCount + stackPages := by
  rw [pageTotal_eq_pagesOf, pagesOf, pagesOf, h₁, h₂]
  rfl

theorem Backed.frameCount_eq (h : s.Backed) : s.frameCount = s.pageTotal := by
  rw [frameCount, frames_eq_framesOf, pageTotal_eq_pagesOf, List.length_append, List.length_append,
    h.length_framesOf, h.length_framesOf, h.length_framesOf]

theorem SameRegions.pageTotal (h : s.SameRegions s') : s'.pageTotal = s.pageTotal := by
  rw [pageTotal_eq_pagesOf, pageTotal_eq_pagesOf, h.pagesOf]

/-- The space `s'` has the regions of `s` and frames that were not in use before. -/
structure Supplied (range : PhysicalRange) (m : Memory) (runs : List Run) (s s' : AddressSpace)
    (m' : Memory) : Prop extends m.Grants range runs s'.frames m' where
  filled : s.Filled s'

theorem held_of_translate {a : VirtualAddress} {pa : PhysicalAddress}
    (h : s.translate a = some pa) : Held (singles s.frames) pa.toNat := by
  obtain ⟨frame, hframe, rfl⟩ := Option.map_eq_some_iff.mp h
  refine ⟨_, mem_singles (mem_frames_of_frameOf? hframe), Run.has_single.mpr ?_⟩
  exact congrArg Page.number (Page.page_join frame a.offset)

/-- The frames that a space was given were free before. -/
theorem Supplied.isFree (h : Supplied range m runs s s' m') (hm : m.Books range runs)
    {t : ResidentTable} (ht : m.allocator.table = some t) {frame : PhysicalPage}
    (hframe : frame ∈ s'.frames) :
    t.first.number ≤ frame.number ∧ frame.number < t.first.number + t.total ∧
      (t.slotAt m.ram (frame.number - t.first.number)).isFree := by
  have hlow := h.managed t ht frame hframe
  have hmem := List.mem_append_left runs (mem_singles hframe)
  obtain ⟨free, ht'⟩ := h.leaves.table t ht
  have hin := (h.books.table _ ht').2.records.inside _
    (List.mem_filter.mpr ⟨hmem, decide_eq_true hlow⟩)
  have hhigh : frame.number < t.first.number + t.total := by
    have hstop := hin.2.2
    rwa [ResidentTable.first_load, ResidentTable.total_load] at hstop
  have htells := hm.tells ht (i := frame.number - t.first.number) (by omega)
  rw [Nat.add_sub_cancel' hlow] at htells
  refine ⟨hlow, hhigh, htells.isFree_iff.mpr fun r hr hhas => ?_⟩
  have hfirst : frame.number * 4096 / 4096 = frame.number := Nat.mul_div_cancel _ (by decide)
  exact h.books.ne_of_held hframe ⟨r, hr, by rwa [hfirst]⟩ hfirst

/-- A space with two segments and no frames is given zeroed frames if as many are free as it has
pages. -/
theorem populate_ends_of_bare (h : s.WellFormed) (hm : m.Books range runs)
    (h₁ : s.segment1 = some first) (h₂ : s.segment2 = some second) (hb : ¬ s.isBacked) :
    s.populate.Ends m
      (fun s' m' => Supplied range m runs s s' m' ∧ m'.ram.Blank s'.frames)
      (fun e m' => e = .outOfMemory ∧ m.Lacks range runs s.pageTotal m')
      (fun _ _ => False) := by
  rw [pageTotal_eq h₁ h₂]
  unfold populate
  rw [if_neg hb, h₁, h₂]
  simp only [Routine.ends_bind, Routine.ends_pure]
  refine (zeroedFrames_ends hm).mono (fun frames₁ m₁ hm₁ => ?_)
    (fun _ _ h' => ⟨h'.1, h'.2.mono (by omega)⟩) (fun _ _ hno => hno)
  obtain ⟨hl₁, hgrants₁, hblank₁⟩ := hm₁
  refine (zeroedFramesOrGiveBack_ends hgrants₁.books).mono (fun frames₂ m₂ hm₂ => ?_)
    (fun _ _ h' => ⟨h'.1, (hgrants₁.lacks hm h'.2).mono (by omega)⟩) (fun _ _ hno => hno)
  obtain ⟨hl₂, hgrants₂, hblank₂⟩ := hm₂
  have hgrants := hgrants₁.trans hgrants₂
  have hblank : m₂.ram.Blank (frames₁ ++ frames₂) :=
    List.forall_mem_append.mpr ⟨hblank₁.of_leaves hgrants₂.leaves, hblank₂⟩
  have hlength : (frames₁ ++ frames₂).length = first.pageCount + second.pageCount := by
    rw [List.length_append, hl₁, hl₂]
  refine (zeroedFramesOrGiveBack_ends hgrants.books).mono (fun stack m' hm' => ?_)
    (fun _ _ h' => ⟨h'.1, (hgrants.lacks hm h'.2).mono (by omega)⟩) (fun _ _ hno => hno)
  obtain ⟨hl, hgrants', hblank'⟩ := hm'
  have hfilled := h.filled h₁ h₂ hl₁ hl₂ hl
  have hframes : AddressSpace.frames ⟨some { first with frames := frames₁ },
      some { second with frames := frames₂ }, stack, s.loaded⟩ = frames₁ ++ frames₂ ++ stack :=
    frames_eq (s := ⟨some _, some _, _, _⟩) rfl rfl
  refine ⟨⟨?_, hfilled⟩, ?_⟩
  · rw [hframes]
    exact hgrants.trans hgrants'
  · rw [hframes]
    exact List.forall_mem_append.mpr ⟨hblank.of_leaves hgrants'.leaves, hblank'⟩

/-- Whatever becomes of giving frames to a space, the books are kept. -/
theorem populate_ends (h : s.WellFormed) (hm : m.Books range runs) :
    s.populate.Ends m (fun s' m' => ¬ s.isBacked ∧ Supplied range m runs s s' m')
      (fun _ m' => m'.Books range runs ∧ m.Leaves m' runs) (fun _ _ => False) := by
  by_cases hb : s.isBacked
  · rw [populate_of_isBacked hb]
    exact ⟨hm, .refl⟩
  by_cases hmissing : s.segment1 = none ∨ s.segment2 = none
  · rw [populate_of_missing hb hmissing]
    exact ⟨hm, .refl⟩
  obtain ⟨hfirst, hsecond⟩ := not_or.mp hmissing
  obtain ⟨first, h₁⟩ := Option.ne_none_iff_exists'.mp hfirst
  obtain ⟨second, h₂⟩ := Option.ne_none_iff_exists'.mp hsecond
  exact (populate_ends_of_bare h hm h₁ h₂ hb).mono (fun _ _ h' => ⟨hb, h'.1⟩)
    (fun _ _ h' => ⟨h'.2.books, h'.2.leaves⟩) (fun _ _ hno => hno)

/-- If the frames of a space were copied to those of one with the same regions, what the one
translates, the other translates to an address with the same byte. -/
theorem SameRegions.translate_copied (hregions : s.SameRegions s') (hb : s.Backed)
    (hb' : s'.Backed) {ram ram' : Ram} (h : ram.Copied (s'.frames.zip s.frames) ram')
    {a : VirtualAddress} {pa : PhysicalAddress} (hpa : s.translate a = some pa) :
    ∃ pa', s'.translate a = some pa' ∧ ram'.byteAt pa'.toNat = ram.byteAt pa.toNat := by
  obtain ⟨frame, hframe, rfl⟩ := Option.map_eq_some_iff.mp hpa
  obtain ⟨frame', hframe', hzip⟩ := hregions.frameOf? hb hb' hframe
  refine ⟨frame'.join a.offset, ?_, h _ hzip _ _ ?_ ?_ ?_⟩
  · rw [AddressSpace.translate, hregions.regionOf, hframe', Option.map_some]
  · exact congrArg Page.number (Page.page_join frame' a.offset)
  · exact congrArg Page.number (Page.page_join frame a.offset)
  · simp [Page.join]

/-- The copy of a space that has frames takes as many frames, if they are free, and has the bytes of
the space. -/
theorem fork_ends_of_backed (h : s.WellFormed) (hb : s.isBacked)
    (hm : m.Books range (singles s.frames ++ runs)) :
    s.fork.Ends m
      (fun s' m' => Supplied range m (singles s.frames ++ runs) s s' m' ∧
        m.ram.Copied (s'.frames.zip s.frames) m'.ram)
      (fun e m' => e = .outOfMemory ∧ m.Lacks range (singles s.frames ++ runs) s.frameCount m')
      (fun _ _ => False) := by
  have hbacked := h.backed hb
  obtain ⟨first, second, h₁, h₂, -⟩ := id hbacked
  have hfirst : s.bare.segment1 = some first.bare := congrArg (Option.map Segment.bare) h₁
  have hsecond : s.bare.segment2 = some second.bare := congrArg (Option.map Segment.bare) h₂
  have htotal : s.bare.pageTotal = s.frameCount := by
    rw [s.sameRegions_bare.pageTotal, hbacked.frameCount_eq]
  rw [fork_of_isBacked h hb, ← htotal]
  simp only [Routine.ends_bind, Routine.ends_onPanic, Routine.ends_pure]
  refine (populate_ends_of_bare h.bare hm hfirst hsecond Bool.false_ne_true).mono
    (fun child m₁ hm₁ => ?_) (fun _ _ h' => h') (fun _ _ hno => hno)
  obtain ⟨⟨hgrants, hfilled⟩, -⟩ := hm₁
  have hlength : child.frames.length = s.frames.length := by
    have hcount := hfilled.backed.frameCount_eq
    rwa [hfilled.regions.pageTotal, htotal] at hcount
  refine (duplicateFrames_ends_of_books hgrants.books hlength).mono (fun _ m' hm' => ?_)
    (fun _ _ hno => hno.elim) (fun _ _ hno => hno)
  obtain ⟨hbooks, hleaves, hcopied⟩ := hm'
  refine ⟨⟨⟨hbooks, hgrants.leaves.trans hleaves, hgrants.managed⟩,
    hfilled.withLoaded s.sameRegions_bare⟩, fun p hp a b ha hb hab => ?_⟩
  rw [hcopied p hp a b ha hb hab]
  exact hgrants.leaves.ram.bytes b (held_of_mem (List.of_mem_zip hp).2 hb)

/-- Whatever becomes of a copy, the books are kept. -/
theorem fork_ends (h : s.WellFormed) (hm : m.Books range (singles s.frames ++ runs)) :
    s.fork.Ends m (fun s' m' => Supplied range m (singles s.frames ++ runs) s s' m')
      (fun _ m' => m'.Books range (singles s.frames ++ runs) ∧
        m.Leaves m' (singles s.frames ++ runs)) (fun _ _ => False) := by
  by_cases hb : s.isBacked
  · exact (fork_ends_of_backed h hb hm).mono (fun _ _ h' => h'.1)
      (fun _ _ h' => ⟨h'.2.books, h'.2.leaves⟩) (fun _ _ hno => hno)
  obtain ⟨e, hfail⟩ := fork_of_not_isBacked hb
  rw [hfail]
  exact ⟨hm, .refl⟩

theorem release_ends {ε : Type} (hm : m.Books range (singles s.frames ++ runs)) :
    (s.release : Routine Memory ε Unit).Ends m
      (fun _ m' => m'.Books range runs ∧ m.Leaves m' runs) (fun _ _ => False)
      (fun _ _ => False) := by
  rw [release, Routine.ends_onPanic]
  exact giveBack_ends hm

end AddressSpace

end MipsVM
