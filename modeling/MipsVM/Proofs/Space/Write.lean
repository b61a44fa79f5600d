import MipsVM.Proofs.Space.Bytewise
import MipsVM.Proofs.Space.Supply
import MipsVM.Space.Arguments

/-!
# What a copy to user memory changes

Every byte that is copied to a space is stored where the space has it, in one of its frames. So
nothing outside the frames of the space is changed, whatever is copied and however it ends.

## Main definitions

- `AddressSpace.Changes`: a later memory that differs in the frames of a space at most

## Main statements

- `write_ends`, `writeString_ends`, `layOutArguments_ends`: only frames of the space are changed
- `Changes.books`: such a change keeps the books
-/

namespace MipsVM

open Memory

namespace AddressSpace

variable {s target : AddressSpace} {m m' m'' : Memory} {range : PhysicalRange} {runs : List Run}

/-- The later memory differs from the earlier in the frames of the space at most. -/
def Changes (s : AddressSpace) (m m' : Memory) : Prop :=
  ∃ ram, m' = { m with ram := ram } ∧
    m.ram.Keeps ram fun a => ∀ frame ∈ s.frames, a / 4096 ≠ frame.number

theorem Changes.refl : s.Changes m m :=
  ⟨m.ram, rfl, .refl⟩

theorem Changes.trans (h : s.Changes m m') (h' : s.Changes m' m'') : s.Changes m m'' := by
  obtain ⟨ram, rfl, hk⟩ := h
  obtain ⟨ram', rfl, hk'⟩ := h'
  exact ⟨ram', rfl, hk.trans hk'⟩

theorem Changes.has_frame (h : s.Changes m m')
    (hhas : ∀ frame ∈ s.frames, m.ram.hasFrame frame.number) :
    ∀ frame ∈ s.frames, m'.ram.hasFrame frame.number := by
  obtain ⟨ram, rfl, hk⟩ := h
  rwa [hk.extent]

/-- A change in the frames of a space keeps the books, and all other frames in use. -/
theorem Changes.books (h : s.Changes m m') (hm : m.Books range (singles s.frames ++ runs)) :
    m'.Books range (singles s.frames ++ runs) ∧ m.Leaves m' runs := by
  obtain ⟨ram, rfl, hk⟩ := h
  refine ⟨hm.of_keeps (fun t ht a ha => hk.bytes a fun frame hf hn => ?_) hk.extent,
    hk.mono fun a ha frame hf hn => ?_, fun t ht => ⟨t.freeCount, ht⟩⟩
  · exact hm.not_held_of_hasByte ht ha (held_of_mem hf hn)
  · exact hm.ne_of_held hf ha hn

/-- Whatever is copied to a space that has its frames in memory, only these are changed. -/
theorem write_ends (hhas : ∀ frame ∈ s.frames, m.ram.hasFrame frame.number) (bytes : List UInt8)
    (a : VirtualAddress) :
    (s.write bytes a).Ends m (fun _ => s.Changes m) (fun _ => s.Changes m) (fun _ _ => False) := by
  rcases s.write_cases hhas with ⟨-, hdone⟩ | ⟨-, gap, herror, -⟩
  · rw [Routine.ends_of_done hdone]
    refine ⟨_, rfl, keeps_store.mono fun q hq k _ hp => ?_⟩
    obtain ⟨frame, hframe, hnumber⟩ := exists_frame_of_locate? hp
    exact hq frame hframe hnumber
  · rw [Routine.ends_of_error herror]
    exact Changes.refl

theorem writeString_ends (hhas : ∀ frame ∈ s.frames, m.ram.hasFrame frame.number)
    (bytes : List UInt8) (a : VirtualAddress) (greatest : Nat) :
    (s.writeString bytes a greatest).Ends m (fun _ => s.Changes m) (fun _ => s.Changes m)
      (fun _ _ => False) := by
  unfold writeString
  simp only
  split
  · exact Changes.refl
  · rw [Routine.ends_bind]
    exact write_ends hhas _ a

theorem placeArguments_ends (hhas : ∀ frame ∈ target.frames, m.ram.hasFrame frame.number)
    (sp : VirtualAddress) (arguments : List (List UInt8)) :
    (target.placeArguments sp arguments).Ends m (fun _ => target.Changes m)
      (fun _ => target.Changes m) (fun _ _ => False) := by
  induction arguments generalizing m sp with
  | nil => exact Changes.refl
  | cons argument rest ih =>
    unfold placeArguments reserve
    simp only [Routine.ends_bind, Routine.ends_mapError, Routine.ends_pure]
    rw [Routine.ends_orFail]
    refine ⟨fun here _ => ?_, fun _ => Changes.refl⟩
    refine (writeString_ends hhas argument here _).mono (fun _ m' h' => ?_) (fun _ _ h' => h')
      (fun _ _ hno => hno)
    exact (ih (h'.has_frame hhas) here).mono (fun _ _ h'' => h'.trans h'')
      (fun _ _ h'' => h'.trans h'') (fun _ _ hno => hno)

/-- Whatever arguments are laid out, only frames of the space that they are written through are
changed. -/
theorem layOutArguments_ends (hhas : ∀ frame ∈ target.frames, m.ram.hasFrame frame.number)
    (s : AddressSpace) (arguments : List (List UInt8)) :
    (s.layOutArguments target arguments).Ends m (fun _ => target.Changes m)
      (fun _ => target.Changes m) (fun _ _ => False) := by
  unfold layOutArguments
  split
  · simp only [Routine.ends_bind, Routine.ends_mapError, Routine.ends_pure, reserve,
      Routine.ends_orFail]
    refine (placeArguments_ends hhas _ arguments).mono (fun placed m' h' => ?_) (fun _ _ h' => h')
      (fun _ _ hno => hno)
    refine ⟨fun sp _ => ?_, fun _ => h'⟩
    exact (write_ends (h'.has_frame hhas) _ sp).mono (fun _ _ h'' => h'.trans h'')
      (fun _ _ h'' => h'.trans h'') (fun _ _ hno => hno)
  · exact Changes.refl

end AddressSpace

end MipsVM
