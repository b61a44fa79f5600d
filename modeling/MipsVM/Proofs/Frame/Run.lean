import Mathlib.Data.List.Nodup
import Mathlib.Data.List.Pairwise
import Mathlib.Data.List.Perm.Subperm
import MipsVM.Frame.Slot

/-!
# Runs of frames and the slots that record them

## Main definitions

- `Run`: consecutive frames by their numbers, with `Run.Has` and `Run.frames`
- `Run.Apart`: two runs have no frame in common
- `Slot.Tells`: a slot says of a frame what the runs in use say of it

## Main statements

- `apart_of_disjoint`: runs without a common frame are apart
- `nodup_frames`: the frames of runs that are apart are distinct
- `le_frameCount`: runs that leave no frame of a stretch out have as many frames at least
- `Slot.Tells.unique`: there is only one slot that says so
-/

namespace MipsVM

/-- The consecutive frames `first`, …, `first + count - 1`, by their numbers. -/
structure Run where
  first : Nat
  count : Nat
  deriving DecidableEq

namespace Run

variable {r r' : Run} {runs runs' : List Run} {n : Nat}

/-- The number after that of the last frame. -/
def stop (r : Run) : Nat :=
  r.first + r.count

/-- The frame of a number belongs to the run. -/
def Has (r : Run) (n : Nat) : Prop :=
  r.first ≤ n ∧ n < r.stop

instance (r : Run) (n : Nat) : Decidable (r.Has n) := inferInstanceAs (Decidable (_ ∧ _))

/-- The numbers of the frames. -/
def frames (r : Run) : List Nat :=
  List.range' r.first r.count

/-- The number of frames of the runs. -/
def frameCount (runs : List Run) : Nat :=
  (runs.flatMap frames).length

/-- The run of one frame. -/
def single (n : Nat) : Run :=
  ⟨n, 1⟩

/-- One run ends before the other begins. -/
def Apart (r r' : Run) : Prop :=
  r.stop ≤ r'.first ∨ r'.stop ≤ r.first

@[simp] theorem has_single {m : Nat} : (single m).Has n ↔ n = m := by
  unfold Has single stop
  dsimp only
  omega

@[simp] theorem mem_frames : n ∈ r.frames ↔ r.Has n := by
  simp only [frames, List.mem_range'_1, Has, stop]

@[simp] theorem frames_single : (single n).frames = [n] := rfl

theorem Apart.symm (h : r.Apart r') : r'.Apart r :=
  Or.symm h

instance : Std.Symm Apart := ⟨fun _ _ => Apart.symm⟩

theorem Apart.not_has (h : r.Apart r') (hn : r.Has n) : ¬ r'.Has n := by
  unfold Apart Has at *
  omega

theorem apart_of_disjoint (h : ∀ n, r.Has n → ¬ r'.Has n) (hr : 0 < r.count)
    (hr' : 0 < r'.count) : r.Apart r' := by
  have h₁ := h r.first
  have h₂ := h r'.first
  unfold Apart Has stop at *
  omega

theorem eq_of_has (hp : runs.Pairwise Apart) (hr : r ∈ runs) (hr' : r' ∈ runs) (hn : r.Has n)
    (hn' : r'.Has n) : r = r' := by
  by_contra hne
  exact (hp.forall hr hr' hne).not_has hn hn'

theorem perm_pairwise (h : runs.Perm runs') (hp : runs.Pairwise Apart) : runs'.Pairwise Apart :=
  h.pairwise hp Apart.symm

theorem nodup_frames (hp : runs.Pairwise Apart) : (runs.flatMap frames).Nodup := by
  rw [List.nodup_flatMap]
  refine ⟨fun r _ => List.nodup_range', hp.imp fun {r r'} h n hn hn' => ?_⟩
  exact h.not_has (mem_frames.mp hn) (mem_frames.mp hn')

@[simp] theorem frameCount_nil : frameCount [] = 0 := rfl

@[simp] theorem frameCount_cons : frameCount (r :: runs) = r.count + frameCount runs := by
  simp [frameCount, frames]

@[simp] theorem frameCount_append (runs runs' : List Run) :
    frameCount (runs ++ runs') = frameCount runs + frameCount runs' := by
  simp [frameCount]

theorem frameCount_perm (h : runs.Perm runs') : frameCount runs = frameCount runs' :=
  (h.flatMap_right frames).length_eq

theorem le_frameCount {first total : Nat}
    (hall : ∀ n, first ≤ n → n < first + total → ∃ r ∈ runs, r.Has n) :
    total ≤ frameCount runs := by
  have hsub : List.range' first total ⊆ runs.flatMap frames := by
    intro n hn
    rw [List.mem_range'_1] at hn
    obtain ⟨r, hr, hn⟩ := hall n hn.1 hn.2
    exact List.mem_flatMap.mpr ⟨r, hr, mem_frames.mpr hn⟩
  have hlen := ((List.nodup_range' (s := first) (n := total)).subperm hsub).length_le
  rwa [List.length_range'] at hlen

/-- What is erased for a frame is a run that begins with it. -/
theorem exists_perm_eraseP (hr : r ∈ runs) (hfirst : r.first = n) :
    ∃ found : Run, found.first = n ∧ runs.Perm (found :: runs.eraseP (·.first = n)) := by
  obtain ⟨found, before, after, -, hfound, hruns, herase⟩ :=
    List.exists_of_eraseP (p := (·.first = n)) hr (decide_eq_true hfirst)
  refine ⟨found, of_decide_eq_true hfound, ?_⟩
  rw [herase, hruns]
  exact List.perm_middle

end Run

/-- The slot says of the frame `n` what the runs in use say of it: its place in its run and the
length of the run, or that it is free. -/
def Slot.Tells (s : Slot) (runs : List Run) (n : Nat) : Prop :=
  (∃ r ∈ runs, r.Has n ∧ s.position = n - r.first + 1 ∧ s.runLength = r.count) ∨
    (∀ r ∈ runs, ¬ r.Has n) ∧ s = Slot.free

namespace Slot.Tells

variable {s s' : Slot} {runs runs' : List Run} {n : Nat}

theorem isFree_iff (h : s.Tells runs n) : s.isFree ↔ ∀ r ∈ runs, ¬ r.Has n := by
  rcases h with ⟨r, hr, hn, hpos, -⟩ | ⟨hno, rfl⟩
  · have hused : s.position ≠ 0 := by omega
    simp only [isFree, decide_eq_true_eq, hused, false_iff]
    exact fun hno => hno r hr hn
  · simpa using hno

/-- There is only one slot that says of a frame that it is free. -/
theorem eq_free (h : s.Tells runs n) (hs : s.isFree) : s = .free := by
  have hno := h.isFree_iff.mp hs
  rcases h with ⟨r, hr, hn, -, -⟩ | ⟨-, hfree⟩
  · exact absurd hn (hno r hr)
  · exact hfree

theorem perm (h : s.Tells runs n) (hp : runs.Perm runs') : s.Tells runs' n := by
  rcases h with ⟨r, hr, h⟩ | ⟨hno, h⟩
  · exact .inl ⟨r, hp.mem_iff.mp hr, h⟩
  · exact .inr ⟨fun r hr => hno r (hp.mem_iff.mpr hr), h⟩

theorem cons_iff {r : Run} (hn : ¬ r.Has n) : s.Tells (r :: runs) n ↔ s.Tells runs n := by
  unfold Slot.Tells
  simp [hn]

theorem unique (h : s.Tells runs n) (h' : s'.Tells runs n) (hp : runs.Pairwise Run.Apart) :
    s = s' := by
  rcases h with ⟨r, hr, hn, hpos, hlen⟩ | ⟨hno, rfl⟩ <;>
    rcases h' with ⟨r', hr', hn', hpos', hlen'⟩ | ⟨hno', rfl⟩
  · cases Run.eq_of_has hp hr hr' hn hn'
    ext <;> omega
  · exact absurd hn (hno' r hr)
  · exact absurd hn' (hno r' hr')
  · rfl

end Slot.Tells

end MipsVM
