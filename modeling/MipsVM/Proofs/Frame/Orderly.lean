import MipsVM.Proofs.Frame.Stretch

/-!
# Memory that is asked for anything

Frames may be given back by anyone, also by those who do not have them. The frame table then no
longer tells who uses which frame. It still records some runs, and no frame that was ever handed out
shares a byte with its slots, so that whatever is stored in such a frame leaves the table as it is.

## Main definitions

- `ResidentTable.Beside`: a frame shares no byte with the slots
- `Memory.Orderly`: the books hold of some runs, and some frames lie beside the slots

## Main statements

- `Books.exists_withTable`: the books hold of some runs after any work on the table
- `Orderly.alloc`, `Orderly.free`, `Orderly.buildTable`: what the allocator does
- `Orderly.perform_allocator`, `Orderly.perform_table`, `Orderly.perform_ram`: any request to it
-/

namespace MipsVM

/-- The frame lies below the slots, or not below the frames of the table. -/
def ResidentTable.Beside (t : ResidentTable) (frame : PhysicalPage) : Prop :=
  (frame.number + 1) * 4096 ≤ t.slotsAt.toNat ∨ t.first.number ≤ frame.number

namespace Memory

variable {range : PhysicalRange} {m m' : Memory} {runs runs' : List Run}
  {frames frames' : List PhysicalPage} {frame : PhysicalPage} {t : ResidentTable} {ε α : Type}

section Clear

/-- The frames are in the runs in use as long as there is no table, and beside its slots from then
on. -/
structure Clear (m : Memory) (runs : List Run) (frames : List PhysicalPage) : Prop where
  early : m.allocator.table = none → ∀ frame ∈ frames, ∃ r ∈ runs, r.Has frame.number
  table : ∀ t, m.allocator.table = some t → ∀ frame ∈ frames,
    m.ram.hasFrame frame.number ∧ t.Beside frame

theorem Clear.mono (h : m.Clear runs frames) (hsub : frames' ⊆ frames) : m.Clear runs frames' :=
  ⟨fun ht frame hf => h.early ht frame (hsub hf), fun t ht frame hf => h.table t ht frame (hsub hf)⟩

theorem Clear.append (h : m.Clear runs frames) (h' : m.Clear runs frames') :
    m.Clear runs (frames ++ frames') :=
  ⟨fun ht => List.forall_mem_append.mpr ⟨h.early ht, h'.early ht⟩,
    fun t ht => List.forall_mem_append.mpr ⟨h.table t ht, h'.table t ht⟩⟩

/-- Frames of runs in use are clear of the slots. -/
theorem Books.clear (h : m.Books range runs)
    (hall : ∀ frame ∈ frames, ∃ r ∈ runs, r.Has frame.number) : m.Clear runs frames where
  early _ := hall
  table t ht frame hf := by
    obtain ⟨r, hr, hhas⟩ := hall frame hf
    refine ⟨h.has_frame hr hhas, ?_⟩
    obtain ⟨hlow, hhigh⟩ := hhas
    rcases (h.table t ht).2.sides r hr with hbelow | habove
    · exact .inl (Nat.le_trans (Nat.mul_le_mul_right 4096 hhigh) hbelow)
    · exact .inr (Nat.le_trans habove hlow)

/-- A table is never moved, and runs in use are not forgotten before there is one. -/
theorem Clear.of_leaves (h : m.Clear runs frames) (hl : m.Leaves m' runs)
    (hb : m'.Books range runs') (hsub : m.allocator.table = none → runs ⊆ runs') :
    m'.Clear runs' frames := by
  cases ht : m.allocator.table with
  | none =>
    refine hb.clear fun frame hf => ?_
    obtain ⟨r, hr, hhas⟩ := h.early ht frame hf
    exact ⟨r, hsub ht hr, hhas⟩
  | some t =>
    obtain ⟨free, ht'⟩ := hl.table t ht
    refine ⟨fun hnone => absurd (ht'.symm.trans hnone) (Option.some_ne_none _), fun t' h' => ?_⟩
    obtain rfl : { t with freeCount := free } = t' := Option.some.inj (ht'.symm.trans h')
    rw [hl.ram.extent]
    exact h.table t ht

end Clear

/-- The books hold of some runs in use, and the frames are clear of the slots. -/
def Orderly (range : PhysicalRange) (frames : List PhysicalPage) (m : Memory) : Prop :=
  ∃ runs, m.Books range runs ∧ m.Clear runs frames

theorem Orderly.mono (h : m.Orderly range frames) (hsub : frames' ⊆ frames) :
    m.Orderly range frames' := by
  obtain ⟨runs, hbooks, hclear⟩ := h
  exact ⟨runs, hbooks, hclear.mono hsub⟩

theorem orderly_new {ram : Ram} (h : ram.Covers range) : (Memory.new ram range).Orderly range [] := by
  refine ⟨[], ⟨h, .nil, List.forall_mem_nil _, fun _ => ?_, fun t ht => nomatch ht⟩,
    ⟨fun _ => List.forall_mem_nil _, fun t ht => nomatch ht⟩⟩
  exact ⟨rfl, Bool.false_ne_true, Nat.le_refl _, List.forall_mem_nil _⟩

theorem Orderly.has_frame (h : m.Orderly range frames) (hf : frame ∈ frames) :
    m.ram.hasFrame frame.number := by
  obtain ⟨runs, hbooks, hclear⟩ := h
  cases ht : m.allocator.table with
  | none =>
    obtain ⟨r, hr, hhas⟩ := hclear.early ht frame hf
    exact hbooks.has_frame hr hhas
  | some t => exact (hclear.table t ht frame hf).1

theorem Orderly.not_hasByte (h : m.Orderly range frames) (ht : m.allocator.table = some t)
    (hf : frame ∈ frames) {a : Nat} (ha : t.HasByte a) : a / 4096 ≠ frame.number := by
  obtain ⟨runs, hbooks, hclear⟩ := h
  have hslots := (hbooks.table t ht).2.slots
  obtain ⟨hlow, hhigh⟩ := ha
  rcases (hclear.table t ht frame hf).2 with hbelow | habove
  · omega
  · omega

section Bytes

/-- A change outside the slots keeps memory orderly. -/
theorem Orderly.withRam (h : m.Orderly range frames) {ram : Ram}
    (hk : ∀ t, m.allocator.table = some t → ∀ a, t.HasByte a → ram.byteAt a = m.ram.byteAt a)
    (hext : ram.hasFrame = m.ram.hasFrame) :
    ({ m with ram := ram } : Memory).Orderly range frames := by
  obtain ⟨runs, hbooks, hclear⟩ := h
  refine ⟨runs, hbooks.of_keeps hk hext, hclear.early, ?_⟩
  dsimp only
  rw [hext]
  exact hclear.table

theorem Orderly.setFrame (h : m.Orderly range frames) (hf : frame ∈ frames) (bytes : Frame) :
    ({ m with ram := m.ram.setFrame frame.number bytes } : Memory).Orderly range frames := by
  have hkeeps : m.ram.Keeps (m.ram.setFrame frame.number bytes) _ := Ram.keeps_setFrame _ bytes
  exact h.withRam (fun t ht a ha => hkeeps.bytes a (h.not_hasByte ht hf ha)) hkeeps.extent

end Bytes

section Table

/-- If the table records any runs after it was worked on, the books hold of these and of the runs
that lie below the table. -/
theorem Books.exists_withTable {left : FrameTable} (h : m.Books range runs)
    (ht : m.allocator.table = some t) (hfirst : left.first = t.first)
    (htotal : left.total = t.total) (hrecords : left.Records runs') :
    ∃ all, (m.withTable t left).Books range all := by
  have hslots := (h.table t ht).2.slots
  unfold ResidentTable.slotsStop at hslots
  have hmanaged : t.managed (runs' ++ runs.filter (·.first < t.first.number)) = runs' := by
    have hkept : runs'.filter (t.first.number ≤ ·.first) = runs' := by
      refine List.filter_eq_self.mpr fun r hr => decide_eq_true ?_
      rw [← hfirst]
      exact (hrecords.inside r hr).2.1
    have hnone : (runs.filter (·.first < t.first.number)).filter (t.first.number ≤ ·.first) = [] := by
      refine List.filter_eq_nil_iff.mpr fun r hr => ?_
      have := of_decide_eq_true (List.mem_filter.mp hr).2
      simpa using this
    rw [ResidentTable.managed, List.filter_append, hkept, hnone, List.append_nil]
  refine ⟨_, h.withTable ht hfirst htotal (by rwa [hmanaged]) ?_ fun r hr hlow => ?_⟩
  · refine List.pairwise_append.mpr ⟨hrecords.apart, h.apart.sublist List.filter_sublist, ?_⟩
    intro r hr r' hr'
    obtain ⟨hr', hlow⟩ := List.mem_filter.mp hr'
    have hlow := of_decide_eq_true hlow
    have hin := (hrecords.inside r hr).2.1
    rw [hfirst] at hin
    have hside := (h.table t ht).2.sides r' hr'
    exact .inr (by omega)
  · rcases List.mem_append.mp hr with hr | hr
    · have hin := (hrecords.inside r hr).2.1
      rw [hfirst] at hin
      omega
    · exact (List.mem_filter.mp hr).1

/-- Any work on the table that leaves a table of the same frames that records some runs. -/
theorem Orderly.onTable {q : Routine FrameTable ε α} (h : m.Orderly range frames)
    (ht : m.allocator.table = some t)
    (hq : (t.load m.ram).Sound t.total →
      q.EndsIn (t.load m.ram) fun left => left.first = t.first ∧ left.Sound t.total) :
    (onTable t q).EndsIn m (Orderly range frames) := by
  obtain ⟨runs, hbooks, hclear⟩ := h
  have hsound : (t.load m.ram).Sound t.total :=
    ⟨ResidentTable.total_load t m.ram, _, (hbooks.table t ht).2.records⟩
  refine ends_onTable.mpr ((hq hsound).mono ?_)
  rintro left ⟨hfirst, htotal, runs', hrecords⟩
  obtain ⟨all, hall⟩ := hbooks.exists_withTable ht hfirst htotal hrecords
  refine ⟨all, hall, hclear.of_leaves (hbooks.leaves_withTable ht htotal) hall fun hnone => ?_⟩
  exact absurd (ht.symm.trans hnone) (Option.some_ne_none _)

end Table

section Operations

/-- A run is handed out, whose first frame is clear of the slots, or refused. -/
theorem Orderly.alloc (h : m.Orderly range frames) (count : Nat) :
    (alloc count).Ends m (fun frame => Orderly range (frame :: frames))
      (fun _ => Orderly range frames) (fun _ _ => False) := by
  obtain ⟨runs, hbooks, hclear⟩ := h
  refine (alloc_ends hbooks count).mono (fun frame m' hm' => ?_) (fun _ m' hm' => ?_)
    (fun _ _ hno => hno)
  · obtain ⟨hbooks', hleaves, -⟩ := hm'
    have hpos := (hbooks'.inside _ List.mem_cons_self).1
    have hnew : m'.Clear (⟨frame.number, count⟩ :: runs) [frame] := by
      refine hbooks'.clear (List.forall_mem_singleton.mpr ⟨_, List.mem_cons_self, ?_⟩)
      exact ⟨Nat.le_refl _, Nat.lt_add_of_pos_right hpos⟩
    have hold := hclear.of_leaves hleaves hbooks' fun _ => List.subset_cons_self _ _
    exact ⟨_, hbooks', hnew.append hold⟩
  · obtain ⟨hbooks', hleaves, -⟩ := hm'
    exact ⟨runs, hbooks', hclear.of_leaves hleaves hbooks' fun _ => List.Subset.refl _⟩

/-- Whatever frame is given back. -/
theorem Orderly.free (h : m.Orderly range frames) (frame : PhysicalPage) :
    (free frame).EndsIn m (Orderly range frames) := by
  cases ht : m.allocator.table with
  | none =>
    rw [Routine.endsIn_iff, free_of_early ht]
    exact h
  | some t =>
    refine (Routine.ends_congr (free_of_table ht)).mpr (h.onTable ht fun hsound => ?_)
    refine Routine.EndsIn.bind (Routine.EndsIn.and (Routine.endsIn_iff.mpr ?_)
      (FrameTable.free_sound hsound frame)) fun _ _ hleft => hleft
    rcases FrameTable.state_free (t.load m.ram) frame with hstate | ⟨_, _, -, -, -, -, hstate⟩ <;>
      rw [hstate] <;> rfl

theorem Orderly.buildTable (h : m.Orderly range frames) :
    buildTable.EndsIn m (Orderly range frames) := by
  obtain ⟨runs, hbooks, hclear⟩ := h
  refine (buildTable_ends hbooks).mono (fun _ m' hm' => ?_) (fun _ m' hm' => ?_)
    (fun _ _ hno => hno.elim)
  · obtain ⟨hbooks', hleaves⟩ := hm'
    exact ⟨runs, hbooks', hclear.of_leaves hleaves hbooks' fun _ => List.Subset.refl _⟩
  · rw [hm']
    exact ⟨runs, hbooks, hclear⟩

end Operations

section Requests

theorem Orderly.perform_allocator (h : m.Orderly range frames) (request : AllocatorRequest) :
    request.perform.EndsIn m (Orderly range frames) := by
  refine AllocatorRequest.perform_keeps h h.buildTable (fun count => ?_) h.free request
  exact (h.alloc count).mono (fun _ _ hm => hm.mono (List.subset_cons_self _ _))
    (fun _ _ hm => hm) (fun _ _ hno => hno.elim)

theorem Orderly.perform_table (h : m.Orderly range frames) (ht : m.allocator.table = some t)
    (request : TableRequest) :
    (Memory.onTable t request.perform).EndsIn m (Orderly range frames) := by
  refine h.onTable ht fun hsound => ?_
  refine ((TableRequest.perform_extent (t.load m.ram) request).mono fun _ hleft => ?_).and
    (hsound.perform request)
  exact hleft.1

theorem Orderly.perform_ram (h : m.Orderly range frames) {request : RamRequest}
    (hspares : ∀ t, m.allocator.table = some t → request.Spares t) :
    (request.perform : Routine Memory ε Reply).EndsIn m (Orderly range frames) := by
  -- where there is no table, there are no slots to be spared
  have hkeeps : ∃ t : ResidentTable, request.Spares t ∧
      ∀ t', m.allocator.table = some t' → t' = t := by
    cases ht : m.allocator.table with
    | some t => exact ⟨t, hspares t ht, fun t' ht' => (Option.some.inj ht').symm⟩
    | none =>
      let nowhere : ResidentTable := ⟨.ofNumber 0, .ofNat 0, 0, 0⟩
      have hno (a : Nat) : ¬ nowhere.HasByte a := fun ha =>
        absurd ha.1 (Nat.not_le_of_gt ha.2)
      refine ⟨nowhere, ?_, fun t' ht' => nomatch ht'⟩
      cases request with
      | write | zero | copy => exact fun a ha => absurd ha (hno a)
      | range | base | read | digest => trivial
  obtain ⟨t, ht, hunique⟩ := hkeeps
  refine (RamRequest.perform_spares ht).mono ?_
  rintro ⟨ram, allocator⟩ ⟨hsame, hram⟩
  obtain rfl : allocator = m.allocator := hsame
  refine h.withRam (fun t' ht' a ha => hram.bytes a ?_) hram.extent
  rwa [← hunique t' ht']

end Requests

end Memory

end MipsVM
