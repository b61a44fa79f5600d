import MipsVM.Proofs.Frame.Books
import MipsVM.Space.Backing

/-!
# The frames that are given to spaces

A space is given single frames, one after the other. If they run out, those that were handed out so
far are given back, and the books are what they were.

## Main definitions

- `singles`: frames as runs of one frame each
- `Ram.Blank`: frames of zeros
- `Ram.Copied`: frames with the bytes of other frames
- `Memory.Grants`, `Memory.Lacks`: what was handed out, or that too few frames are free

## Main statements

- `giveBack_ends`: frames in use are given back
- `zeroedFrames_ends`: zeroed frames are handed out if enough are free, or none
- `duplicateFrames_ends`: frames are copied, and others stay as they are
-/

namespace MipsVM

/-- Frames as runs of one frame each. -/
def singles (frames : List PhysicalPage) : List Run :=
  frames.map fun frame => .single frame.number

/-- The frames hold zeros only. -/
def Ram.Blank (ram : Ram) (frames : List PhysicalPage) : Prop :=
  ∀ frame ∈ frames, ∀ a, a / 4096 = frame.number → ram.byteAt a = 0

/-- The first frame of each pair has the bytes that the second one had earlier. -/
def Ram.Copied (ram : Ram) (pairs : List (PhysicalPage × PhysicalPage)) (ram' : Ram) : Prop :=
  ∀ p ∈ pairs, ∀ a b, a / 4096 = p.1.number → b / 4096 = p.2.number → a % 4096 = b % 4096 →
    ram'.byteAt a = ram.byteAt b

@[simp] theorem singles_append (frames frames' : List PhysicalPage) :
    singles (frames ++ frames') = singles frames ++ singles frames' :=
  List.map_append

theorem singles_perm {frames frames' : List PhysicalPage} (h : frames.Perm frames') :
    (singles frames).Perm (singles frames') :=
  h.map _

theorem mem_singles {frame : PhysicalPage} {frames : List PhysicalPage} (h : frame ∈ frames) :
    Run.single frame.number ∈ singles frames :=
  List.mem_map.mpr ⟨frame, h, rfl⟩

theorem singles_append_subset {frames frames' : List PhysicalPage} {runs : List Run}
    (h : ∀ frame ∈ frames, frame ∈ frames') :
    ∀ r ∈ singles frames ++ runs, r ∈ singles frames' ++ runs := by
  intro r hr
  rcases List.mem_append.mp hr with hr | hr
  · obtain ⟨frame, hframe, rfl⟩ := List.mem_map.mp hr
    exact List.mem_append_left _ (mem_singles (h frame hframe))
  · exact List.mem_append_right _ hr

@[simp] theorem held_singles {frames : List PhysicalPage} {a : Nat} :
    Held (singles frames) a ↔ ∃ frame ∈ frames, a / 4096 = frame.number := by
  simp [Held, singles]

theorem held_of_mem {frame : PhysicalPage} {frames : List PhysicalPage} {runs : List Run} {a : Nat}
    (h : frame ∈ frames) (ha : a / 4096 = frame.number) : Held (singles frames ++ runs) a :=
  ⟨_, List.mem_append_left _ (mem_singles h), Run.has_single.mpr ha⟩

theorem nodup_of_singles {frames : List PhysicalPage} {runs : List Run}
    (h : (singles frames ++ runs).Pairwise Run.Apart) : frames.Nodup := by
  have hnodup := Run.nodup_frames (List.pairwise_append.mp h).1
  have hnumbers : (singles frames).flatMap Run.frames = frames.map Page.number := by
    rw [singles, List.flatMap_map, List.map_eq_flatMap]
    rfl
  rw [hnumbers] at hnodup
  exact hnodup.of_map _

theorem Ram.Blank.of_leaves {m m' : Memory} {frames : List PhysicalPage} {runs : List Run}
    (h : m.ram.Blank frames) (hl : m.Leaves m' (singles frames ++ runs)) : m'.ram.Blank frames := by
  intro frame hf a ha
  rw [← h frame hf a ha]
  exact hl.ram.bytes a (held_of_mem hf ha)

namespace Memory

variable {range : PhysicalRange} {m m' m'' : Memory} {runs : List Run} {t : ResidentTable}
  {frame : PhysicalPage} {frames frames' : List PhysicalPage} {ε : Type}

section Bytes

theorem Books.ne_of_held (h : m.Books range (singles frames ++ runs)) (hf : frame ∈ frames)
    {a : Nat} (ha : Held runs a) : a / 4096 ≠ frame.number := by
  obtain ⟨r, hr, hhas⟩ := ha
  have hapart := (List.pairwise_append.mp h.apart).2.2 _ (mem_singles hf) r hr
  exact fun hn => hapart.not_has (Run.has_single.mpr rfl) (hn ▸ hhas)

theorem Books.has_frame_of_mem (h : m.Books range (singles frames ++ runs)) (hf : frame ∈ frames) :
    m.ram.hasFrame frame.number :=
  h.has_frame (List.mem_append_left _ (mem_singles hf)) (Run.has_single.mpr rfl)

theorem ends_access {f : Ram → Except Panic Ram} {ram : Ram} (h : f m.ram = .ok ram)
    {Q : Unit → Memory → Prop} {E : ε → Memory → Prop} {P : Panic → Memory → Prop} :
    (access f).Ends m Q E P ↔ Q () { m with ram := ram } := by
  have hrun : (access f : Routine Memory ε Unit) m = .done () { m with ram := ram } [] := by
    simp only [access, h]
  exact Routine.ends_of_done hrun

/-- A frame in use may be filled with any bytes. -/
theorem Books.setFrame (h : m.Books range (singles [frame] ++ runs)) (bytes : Frame) :
    ({ m with ram := m.ram.setFrame frame.number bytes } : Memory).Books range
        (singles [frame] ++ runs) ∧
      m.Leaves { m with ram := m.ram.setFrame frame.number bytes } runs := by
  have hkeeps : m.ram.Keeps (m.ram.setFrame frame.number bytes) _ := Ram.keeps_setFrame _ bytes
  refine ⟨h.of_keeps (fun t ht a ha => hkeeps.bytes a fun hn => ?_) hkeeps.extent, ⟨?_, ?_⟩⟩
  · exact h.not_held_of_hasByte ht ha (held_of_mem List.mem_cons_self hn)
  · exact hkeeps.mono fun a ha => h.ne_of_held List.mem_cons_self ha
  · exact fun t ht => ⟨t.freeCount, ht⟩

end Bytes

/-- Frames in use are given back. Those of which the table has no record are forgotten. -/
theorem giveBack_ends (h : m.Books range (singles frames ++ runs)) :
    (giveBack frames : Routine Memory ε Unit).Ends m
      (fun _ m' => m'.Books range runs ∧ m.Leaves m' runs) (fun _ _ => False)
      (fun _ _ => False) := by
  induction frames generalizing m with
  | nil => exact ⟨h, .refl⟩
  | cons frame rest ih =>
    have hsub : ∀ r ∈ runs, r ∈ Run.single frame.number :: (singles rest ++ runs) := fun r hr =>
      List.mem_cons_of_mem _ (List.mem_append_right _ hr)
    have hrest {m' : Memory} (hbooks : m'.Books range (singles rest ++ runs))
        (hleaves : m.Leaves m' runs) :
        (giveBack rest : Routine Memory ε Unit).Ends m'
          (fun _ m'' => m''.Books range runs ∧ m.Leaves m'' runs) (fun _ _ => False)
          (fun _ _ => False) :=
      (ih hbooks).mono (fun _ _ h' => ⟨h'.1, hleaves.trans h'.2⟩) (fun _ _ hno => hno)
        (fun _ _ hno => hno)
    rw [giveBack, Routine.ends_bind, Routine.ends_attempt]
    refine (free_ends h rfl).mono (fun _ m' h' => ?_) (fun cause m' h' => ?_) (fun _ m' h' => ?_)
    · exact hrest h'.1 (h'.2.mono hsub)
    · obtain ⟨hbooks, hleaves, hout⟩ := h'
      simp only [Routine.ends_bind, Routine.ends_report]
      exact hrest (hbooks.forget hout) (hleaves.mono hsub)
    · exact absurd h'.2.2 (show ¬ 65534 ≤ 1 by decide)

section Supply

/-- Frames of the table were handed out beside the runs in use, and these are as they were. -/
structure Grants (range : PhysicalRange) (m : Memory) (runs : List Run)
    (frames : List PhysicalPage) (m' : Memory) : Prop where
  books : m'.Books range (singles frames ++ runs)
  leaves : m.Leaves m' runs
  managed : ∀ t, m.allocator.table = some t → ∀ frame ∈ frames, t.first.number ≤ frame.number

/-- Nothing was handed out because fewer frames are free than are wanted. -/
structure Lacks (range : PhysicalRange) (m : Memory) (runs : List Run) (wanted : Nat)
    (m' : Memory) : Prop where
  books : m'.Books range runs
  leaves : m.Leaves m' runs
  few : ∀ t, m.allocator.table = some t → t.freeCount < wanted

theorem Grants.nil (h : m.Books range runs) : m.Grants range runs [] m :=
  ⟨h, .refl, fun _ _ => List.forall_mem_nil _⟩

theorem Grants.perm (h : m.Grants range runs frames m') (hp : frames.Perm frames') :
    m.Grants range runs frames' m' where
  books := h.books.perm ((singles_perm hp).append_right _)
  leaves := h.leaves
  managed t ht frame hframe := h.managed t ht frame (hp.mem_iff.mpr hframe)

/-- More frames are handed out beside those that were. -/
theorem Grants.trans (h : m.Grants range runs frames m')
    (h' : m'.Grants range (singles frames ++ runs) frames' m'') :
    m.Grants range runs (frames ++ frames') m'' where
  books := by
    refine h'.books.perm ?_
    rw [singles_append, List.append_assoc]
    exact List.perm_append_comm_assoc _ _ _
  leaves := h.leaves.trans (h'.leaves.mono fun r hr => List.mem_append_right _ hr)
  managed t ht := by
    obtain ⟨free, ht'⟩ := h.leaves.table t ht
    exact List.forall_mem_append.mpr ⟨h.managed t ht, h'.managed { t with freeCount := free } ht'⟩

/-- The frames that are handed out are taken from those that are counted as free. -/
theorem Grants.freeCount_eq (h : m.Grants range runs frames m') (hm : m.Books range runs)
    (ht : m.allocator.table = some t) {free : Nat}
    (ht' : m'.allocator.table = some { t with freeCount := free }) :
    t.freeCount = free + frames.length := by
  have hb := hm.balance ht
  have hb' : free + Run.frameCount (t.managed (singles frames ++ runs)) = t.total :=
    h.books.balance ht'
  have hall : t.managed (singles frames) = singles frames := by
    refine List.filter_eq_self.mpr fun r hr => ?_
    obtain ⟨frame, hframe, rfl⟩ := List.mem_map.mp hr
    exact decide_eq_true (h.managed t ht frame hframe)
  have hcount : Run.frameCount (singles frames) = frames.length := by
    rw [Run.frameCount, singles, List.flatMap_map]
    simp
  unfold ResidentTable.managed at hall hb hb'
  rw [List.filter_append, hall, Run.frameCount_append, hcount] at hb'
  omega

theorem Lacks.mono {wanted wanted' : Nat} (h : m.Lacks range runs wanted m')
    (hle : wanted ≤ wanted') : m.Lacks range runs wanted' m' :=
  ⟨h.books, h.leaves, fun t ht => Nat.lt_of_lt_of_le (h.few t ht) hle⟩

/-- If frames are lacking after some were handed out and these are given back, all of them were
lacking. -/
theorem Grants.lacks (h : m.Grants range runs frames m') (hm : m.Books range runs) {wanted : Nat}
    (h' : m'.Lacks range runs wanted m'') : m.Lacks range runs (frames.length + wanted) m'' where
  books := h'.books
  leaves := h.leaves.trans h'.leaves
  few t ht := by
    obtain ⟨free, ht'⟩ := h.leaves.table t ht
    have hcount := h.freeCount_eq hm ht ht'
    have hfew : free < wanted := h'.few _ ht'
    omega

/-- Zeroed frames are handed out one by one. If they run out, those of this and earlier steps are
given back. -/
theorem zeroedFramesAfter_ends (wanted left : Nat) (hm : m.Books range runs)
    (hgot : m.Grants range runs frames m') (hblank : m'.ram.Blank frames) :
    (zeroedFramesAfter wanted left frames).Ends m'
      (fun all m'' => all.length = frames.length + left ∧ m.Grants range runs all m'' ∧
        m''.ram.Blank all)
      (fun e m'' => e = .outOfMemory ∧ m.Lacks range runs (frames.length + left) m'')
      (fun _ _ => False) := by
  induction left generalizing m' frames with
  | zero =>
    have hperm := frames.reverse_perm
    refine ⟨List.length_reverse, hgot.perm hperm.symm, ?_⟩
    exact fun frame hframe => hblank frame (hperm.mem_iff.mp hframe)
  | succ left ih =>
    rw [zeroedFramesAfter, Routine.ends_bind, Routine.ends_attempt]
    refine (alloc_ends hgot.books 1).mono (fun frame m₁ h₁ => ?_) (fun cause m₁ h₁ => ?_)
      (fun _ _ hno => hno)
    · obtain ⟨hbooks, hleaves, hmanaged⟩ := h₁
      have hbooks : m₁.Books range (singles [frame] ++ (singles frames ++ runs)) := hbooks
      have hframe := hbooks.has_frame_of_mem List.mem_cons_self
      obtain ⟨hset, hleaves'⟩ := hbooks.setFrame Frame.zero
      have hstep := hleaves.trans hleaves'
      -- one more frame is in use, and it is zeroed
      have hall := (hgot.trans ⟨hset, hstep, by simpa using hmanaged⟩).perm
        (List.perm_append_singleton frame frames)
      have hblank' : (m₁.ram.setFrame frame.number .zero).Blank (frame :: frames) :=
        List.forall_mem_cons.mpr
          ⟨fun a ha => Ram.byteAt_setFrame_zero hframe ha, hblank.of_leaves hstep⟩
      simp only [Routine.ends_bind]
      rw [ends_access (Ram.blankFrame_eq_ok hframe)]
      have hrest := ih hall hblank'
      rwa [List.length_cons, Nat.add_right_comm] at hrest
    · obtain ⟨hbooks, hleaves, hnone⟩ := h₁
      simp only [Routine.ends_bind, Routine.ends_report]
      have hbooks' : m₁.Books range (singles frames.reverse ++ runs) :=
        hbooks.perm ((singles_perm frames.reverse_perm.symm).append_right _)
      refine (giveBack_ends hbooks').mono (fun _ m'' h'' => ⟨rfl, hgot.lacks hm ?_⟩)
        (fun _ _ hno => hno.elim) (fun _ _ hno => hno)
      refine ⟨h''.1, (hleaves.mono fun r hr => List.mem_append_right _ hr).trans h''.2,
        fun t ht => ?_⟩
      rw [hnone rfl t ht]
      exact Nat.zero_lt_succ _

/-- As many zeroed frames as wanted are handed out, or none because fewer are free. -/
theorem zeroedFrames_ends {count : Nat} (h : m.Books range runs) :
    (zeroedFrames count).Ends m
      (fun frames m' => frames.length = count ∧ m.Grants range runs frames m' ∧
        m'.ram.Blank frames)
      (fun e m' => e = .outOfMemory ∧ m.Lacks range runs count m')
      (fun _ _ => False) := by
  have hall := zeroedFramesAfter_ends count count h (.nil h) (List.forall_mem_nil _)
  rwa [List.length_nil, Nat.zero_add] at hall

/-- The same for a space that holds frames already, which it loses if the frames run out. -/
theorem zeroedFramesOrGiveBack_ends {count : Nat} {held : List PhysicalPage}
    (h : m.Books range (singles held ++ runs)) :
    (zeroedFramesOrGiveBack count held).Ends m
      (fun frames m' => frames.length = count ∧ m.Grants range (singles held ++ runs) frames m' ∧
        m'.ram.Blank frames)
      (fun e m' => e = .outOfMemory ∧ m.Lacks range runs count m')
      (fun _ _ => False) := by
  rw [zeroedFramesOrGiveBack, Routine.ends_bind, Routine.ends_attempt]
  refine (zeroedFrames_ends h).mono (fun _ _ h' => h') (fun e m₁ h₁ => ?_) (fun _ _ hno => hno)
  obtain ⟨he, hbooks, hleaves, hfew⟩ := h₁
  simp only [Routine.ends_bind]
  refine (giveBack_ends hbooks).mono (fun _ m' h' => ⟨he, h'.1, ?_, hfew⟩)
    (fun _ _ hno => hno.elim) (fun _ _ hno => hno)
  exact (hleaves.mono fun r hr => List.mem_append_right _ hr).trans h'.2

end Supply

section Copy

/-- Frames are copied to frames that are no sources of a copy. All other frames stay as they
are. -/
theorem duplicateFrames_ends {pairs : List (PhysicalPage × PhysicalPage)}
    (hnodup : (pairs.map Prod.fst).Nodup) (hapart : ∀ p ∈ pairs, ∀ q ∈ pairs, p.1 ≠ q.2)
    (hhas : ∀ p ∈ pairs, m.ram.hasFrame p.1.number ∧ m.ram.hasFrame p.2.number) :
    (duplicateFrames pairs : Routine Memory ε Unit).Ends m
      (fun _ m' => ∃ ram, m' = { m with ram := ram } ∧
        m.ram.Keeps ram (fun a => ∀ p ∈ pairs, a / 4096 ≠ p.1.number) ∧ m.ram.Copied pairs ram)
      (fun _ _ => False) (fun _ _ => False) := by
  unfold duplicateFrames
  induction pairs generalizing m with
  | nil => exact ⟨m.ram, rfl, .refl, List.forall_mem_nil _⟩
  | cons p rest ih =>
    obtain ⟨target, source⟩ := p
    obtain ⟨hfresh, hrest⟩ := List.nodup_cons.mp hnodup
    obtain ⟨ht, hs⟩ := hhas _ List.mem_cons_self
    have hne : target ≠ source := hapart _ List.mem_cons_self _ List.mem_cons_self
    have hother (q : PhysicalPage × PhysicalPage) (hq : q ∈ rest) : q.1 ≠ target := by
      rintro rfl
      exact hfresh (List.mem_map.mpr ⟨q, hq, rfl⟩)
    have hsource (q : PhysicalPage × PhysicalPage) (hq : q ∈ rest) : q.2 ≠ target :=
      (hapart _ List.mem_cons_self q (List.mem_cons_of_mem _ hq)).symm
    have hkeeps : m.ram.Keeps (m.ram.setFrame target.number (m.ram.frameAt source.number)) _ :=
      Ram.keeps_setFrame _ _
    unfold Routine.forEach
    rw [Routine.ends_bind, ends_access (Ram.duplicateFrame_eq_ok hne ht hs)]
    refine (ih hrest (fun p hp q hq => hapart p (List.mem_cons_of_mem _ hp) q
      (List.mem_cons_of_mem _ hq)) (fun q hq => ?_)).mono (fun _ m' h' => ?_) (fun _ _ hno => hno)
      (fun _ _ hno => hno)
    · rw [Ram.hasFrame_setFrame]
      exact hhas q (List.mem_cons_of_mem _ hq)
    · obtain ⟨ram, rfl, hram, hcopied⟩ := h'
      refine ⟨ram, rfl, ?_, fun p hp a b ha hb hab => ?_⟩
      · refine (hkeeps.mono fun a ha => ha _ List.mem_cons_self).trans (hram.mono fun a ha => ?_)
        exact fun q hq => ha q (List.mem_cons_of_mem _ hq)
      · rcases List.mem_cons.mp hp with rfl | hp
        · -- later copies go to other frames
          rw [hram.bytes a fun q hq hn => hother q hq (Page.ext (hn.symm.trans ha)),
            Ram.byteAt_setFrame ht, if_pos ha]
          simp only [Ram.byteAt, Ram.place, hb, hab]
        · -- earlier copies did not go to the source of this one
          rw [hcopied p hp a b ha hb hab]
          exact hkeeps.bytes b fun hn => hsource p hp (Page.ext (hb.symm.trans hn))

/-- Frames in use are copied to as many other frames in use. -/
theorem duplicateFrames_ends_of_books
    (h : m.Books range (singles frames' ++ (singles frames ++ runs)))
    (hlength : frames'.length = frames.length) :
    (duplicateFrames (frames'.zip frames) : Routine Memory ε Unit).Ends m
      (fun _ m' => m'.Books range (singles frames' ++ (singles frames ++ runs)) ∧
        m.Leaves m' (singles frames ++ runs) ∧ m.ram.Copied (frames'.zip frames) m'.ram)
      (fun _ _ => False) (fun _ _ => False) := by
  have hnodup : ((frames'.zip frames).map Prod.fst).Nodup := by
    rw [List.map_fst_zip (Nat.le_of_eq hlength)]
    exact nodup_of_singles h.apart
  have hsources : m.Books range (singles frames ++ (singles frames' ++ runs)) :=
    h.perm (List.perm_append_comm_assoc _ _ _)
  refine (duplicateFrames_ends hnodup (fun p hp q hq hpq => ?_) (fun p hp => ?_)).mono
    (fun _ m' h' => ?_) (fun _ _ hno => hno) (fun _ _ hno => hno)
  · have hfirst : q.2.number * 4096 / 4096 = q.2.number := Nat.mul_div_cancel _ (by decide)
    have hheld : Held (singles frames ++ runs) (q.2.number * 4096) :=
      held_of_mem (List.of_mem_zip hq).2 hfirst
    exact h.ne_of_held (List.of_mem_zip hp).1 hheld (by rw [hfirst, hpq])
  · exact ⟨h.has_frame_of_mem (List.of_mem_zip hp).1,
      hsources.has_frame_of_mem (List.of_mem_zip hp).2⟩
  · obtain ⟨ram, rfl, hkeeps, hcopied⟩ := h'
    refine ⟨h.of_keeps (fun t ht a ha => hkeeps.bytes a fun p hp hn => ?_) hkeeps.extent,
      ⟨hkeeps.mono fun a ha p hp => ?_, fun t ht => ⟨t.freeCount, ht⟩⟩, hcopied⟩
    · exact h.not_held_of_hasByte ht ha (held_of_mem (List.of_mem_zip hp).1 hn)
    · exact h.ne_of_held (List.of_mem_zip hp).1 ha

end Copy

end Memory

end MipsVM
