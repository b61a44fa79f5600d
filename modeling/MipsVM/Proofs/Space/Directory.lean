import MipsVM.Proofs.Space.Supply
import MipsVM.Proofs.Space.WellFormed
import MipsVM.Space.Directory

/-!
# The spaces of a machine

## Main definitions

- `Directory.WellFormed`: the names are distinct, and the spaces are well-formed
- `Directory.frames`: the frames of all spaces

## Main statements

- `frames_perm`: the frames of one space and those of the others are all frames
-/

namespace MipsVM

namespace Directory

variable {d : Directory} {name b : Nat} {space other : AddressSpace}

/-- No two spaces have the same name, and all have the shape of spaces. -/
structure WellFormed (d : Directory) : Prop where
  names : (d.entries.map Prod.fst).Nodup
  spaces : ∀ entry ∈ d.entries, entry.2.WellFormed

/-- The frames of all spaces. -/
def frames (d : Directory) : List PhysicalPage :=
  d.entries.flatMap fun entry => entry.2.frames

theorem mem_of_get? (h : d.get? name = some space) : (name, space) ∈ d.entries := by
  obtain ⟨before, after, hentries, -⟩ := List.lookup_eq_some_iff.mp h
  rw [hentries]
  exact List.mem_append_right _ List.mem_cons_self

theorem WellFormed.get? (h : d.WellFormed) (hs : d.get? name = some space) : space.WellFormed :=
  h.spaces _ (mem_of_get? hs)

theorem wellFormed_empty : empty.WellFormed :=
  ⟨List.nodup_nil, List.forall_mem_nil _⟩

theorem WellFormed.erase (h : d.WellFormed) (name : Nat) : (d.erase name).WellFormed where
  names := h.names.sublist (List.filter_sublist.map _)
  spaces entry he := h.spaces entry (List.mem_filter.mp he).1

theorem WellFormed.insert (h : d.WellFormed) (name : Nat) (hs : space.WellFormed) :
    (d.insert name space).WellFormed where
  names := by
    refine List.nodup_cons.mpr ⟨fun hmem => ?_, (h.erase name).names⟩
    obtain ⟨entry, he, heq⟩ := List.mem_map.mp hmem
    have := (List.mem_filter.mp he).2
    simp [heq] at this
  spaces := List.forall_mem_cons.mpr ⟨hs, (h.erase name).spaces⟩

theorem erase_of_get?_eq_none (h : d.get? name = none) : d.erase name = d := by
  obtain ⟨entries⟩ := d
  have hall := List.lookup_eq_none_iff.mp h
  refine congrArg Directory.mk (List.filter_eq_self.mpr fun entry he => ?_)
  refine decide_eq_true fun heq => ?_
  have hne := hall entry he
  simp [heq] at hne

theorem WellFormed.entries_perm (h : d.WellFormed) (hs : d.get? name = some space) :
    d.entries.Perm ((name, space) :: (d.erase name).entries) := by
  obtain ⟨before, after, hentries, -⟩ := List.lookup_eq_some_iff.mp hs
  have hnames := h.names
  rw [hentries, List.map_append, List.map_cons, List.nodup_middle, List.nodup_cons,
    ← List.map_append] at hnames
  have hrest : (d.erase name).entries = before ++ after := by
    unfold Directory.erase
    rw [hentries, List.filter_append, List.filter_cons_of_neg (by simp), ← List.filter_append]
    refine List.filter_eq_self.mpr fun entry he => decide_eq_true fun heq => ?_
    exact hnames.1 (List.mem_map.mpr ⟨entry, he, heq⟩)
  rw [hrest, hentries]
  exact List.perm_middle

@[simp] theorem frames_insert (d : Directory) (name : Nat) (space : AddressSpace) :
    (d.insert name space).frames = space.frames ++ (d.erase name).frames := rfl

theorem WellFormed.frames_perm (h : d.WellFormed) (hs : d.get? name = some space) :
    d.frames.Perm (space.frames ++ (d.erase name).frames) :=
  (h.entries_perm hs).flatMap_right _

theorem WellFormed.runs_perm (h : d.WellFormed) (hs : d.get? name = some space) {runs : List Run} :
    (singles d.frames ++ runs).Perm
      (singles space.frames ++ (singles (d.erase name).frames ++ runs)) := by
  rw [← List.append_assoc, ← singles_append]
  exact (singles_perm (h.frames_perm hs)).append_right _

theorem WellFormed.frames_insert_perm (h : d.WellFormed) (hs : d.get? name = some space)
    (hf : other.frames = space.frames) : (d.insert name other).frames.Perm d.frames := by
  rw [frames_insert, hf]
  exact (h.frames_perm hs).symm

theorem frames_erase_subset (d : Directory) (name : Nat) : (d.erase name).frames ⊆ d.frames := by
  intro frame hframe
  obtain ⟨entry, hentry, hframe⟩ := List.mem_flatMap.mp hframe
  exact List.mem_flatMap.mpr ⟨entry, (List.mem_filter.mp hentry).1, hframe⟩

theorem frames_subset_of_ne (hs : d.get? b = some space) (hne : b ≠ name) :
    ∀ frame ∈ space.frames, frame ∈ (d.erase name).frames := by
  intro frame hf
  have hget : (d.erase name).get? b = some space := by rw [get?_erase, if_neg hne, hs]
  exact List.mem_flatMap.mpr ⟨_, mem_of_get? hget, hf⟩

theorem frames_subset (hs : d.get? b = some space) : ∀ frame ∈ space.frames, frame ∈ d.frames :=
  fun _ hf => List.mem_flatMap.mpr ⟨_, mem_of_get? hs, hf⟩

end Directory

end MipsVM
