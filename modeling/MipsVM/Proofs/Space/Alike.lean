import MipsVM.Proofs.Frame.Alike
import MipsVM.Proofs.Space.WellFormed
import MipsVM.Ram.Digest
import MipsVM.Space.Arguments

/-!
# Spaces in memories with the same known bytes

What is done to a space is the same on two memories that have the same bytes but for managed frames
that are not known, if the frames of the space are known. The frames that a space is given are known
from then on: they were blanked, or filled from known frames.

## Main statements

- `agree_populate`, `agree_fork`: the frames of the new space are known
- `agree_release`, `agree_write`, `agree_layOutArguments`, `agree_digest`: the other operations
-/

namespace MipsVM

open Routine

variable {ε : Type} {t : Option ResidentTable} {frames : List PhysicalPage} {m m' : Memory}

namespace Memory

theorem agree_giveBack (h : Alike t frames m m') (given : List PhysicalPage) :
    (giveBack given : Routine Memory ε Unit).Agree m m' (fun _ => Alike t frames)
      (Alike t frames) := by
  induction given generalizing m m' with
  | nil => exact agree_pure h
  | cons frame rest ih =>
    rw [giveBack]
    refine ((agree_free h frame).attempt (Q := fun _ => Alike t frames) fun _ _ _ h => h).bind
      fun answer m₁ m₁' h₁ => ?_
    cases answer with
    | ok _ => exact ih h₁
    | error cause => exact (agree_report (Q := fun _ => Alike t frames) h₁).bind fun _ _ _ => ih

/-- Frames that are handed out are blanked, and so known. -/
theorem agree_zeroedFramesAfter {wanted left : Nat} {got : List PhysicalPage}
    (h : Alike t (got ++ frames) m m') :
    (zeroedFramesAfter wanted left got).Agree m m' (fun new => Alike t (new ++ frames))
      (Alike t frames) := by
  have hframes {got : List PhysicalPage} : frames ⊆ got ++ frames := List.subset_append_right _ _
  induction left generalizing got m m' with
  | zero =>
    refine agree_pure (h.mono fun frame hframe => ?_)
    rw [List.mem_append, List.mem_reverse] at hframe
    exact List.mem_append.mpr hframe
  | succ left ih =>
    have halloc : (allocOne.attempt : Routine Memory SpaceError _).Agree m m'
        (fun _ => Alike t (got ++ frames)) (Alike t frames) :=
      ((agree_alloc h 1).attempt (Q := fun _ => Alike t (got ++ frames)) fun _ _ _ h => h).mono
        (fun _ _ _ h => h) fun _ _ h => h.mono hframes
    rw [zeroedFramesAfter]
    refine halloc.bind fun answer m₁ m₁' h₁ => ?_
    cases answer with
    | ok frame =>
      refine ((agree_blankFrame h₁ frame).mono (fun _ _ _ h => h)
        fun _ _ h => h.mono hframes).bind fun _ m₂ m₂' h₂ => ?_
      exact ih (show Alike t (frame :: got ++ frames) m₂ m₂' from h₂)
    | error cause =>
      refine (agree_report (Q := fun _ => Alike t (got ++ frames)) h₁).bind fun _ m₂ m₂' h₂ => ?_
      refine (agree_giveBack (h₂.mono hframes) got.reverse).bind fun _ _ _ h₃ => ?_
      exact agree_fail h₃

theorem agree_zeroedFrames (h : Alike t frames m m') (count : Nat) :
    (zeroedFrames count).Agree m m' (fun new => Alike t (new ++ frames)) (Alike t frames) :=
  agree_zeroedFramesAfter (show Alike t ([] ++ frames) m m' from h)

theorem agree_zeroedFramesOrGiveBack (h : Alike t frames m m') (count : Nat)
    (held : List PhysicalPage) :
    (zeroedFramesOrGiveBack count held).Agree m m' (fun new => Alike t (new ++ frames))
      (Alike t frames) := by
  rw [zeroedFramesOrGiveBack]
  refine ((agree_zeroedFrames h count).attempt
    (Q := fun answer => Alike t (answer.toOption.getD [] ++ frames)) fun _ _ _ h => h).bind
      fun answer m₁ m₁' h₁ => ?_
  cases answer with
  | ok new => exact agree_pure h₁
  | error e => exact (agree_giveBack h₁ held).bind fun _ _ _ h₂ => agree_fail h₂

/-- Frames that are filled from known frames stay known. -/
theorem agree_duplicateFrames (h : Alike t frames m m')
    {pairs : List (PhysicalPage × PhysicalPage)} (hsources : ∀ p ∈ pairs, p.2 ∈ frames) :
    (duplicateFrames pairs : Routine Memory ε Unit).Agree m m' (fun _ => Alike t frames)
      (Alike t frames) :=
  Agree.forEach (fun p hp _ _ h => agree_duplicateFrame h (hsources p hp)) h

theorem agree_digest (h : Alike t frames m m') {read : List PhysicalPage} (hread : read ⊆ frames)
    (digest : UInt64) :
    (inspect (·.digest read digest) : Routine Memory ε UInt64).Agree m m'
      (fun _ => Alike t frames) (Alike t frames) := by
  refine agree_inspect h ?_
  induction read generalizing digest with
  | nil => rfl
  | cons frame rest ih =>
    have hframe : m'.ram.readFrame frame = m.ram.readFrame frame :=
      h.ram.readFrame fun a ha => known_of_mem (hread List.mem_cons_self) ha
    have hrest : rest ⊆ frames := fun f hf => hread (List.mem_cons_of_mem _ hf)
    rw [Ram.digest, Ram.digest, hframe]
    cases m.ram.readFrame frame with
    | ok bytes => exact ih hrest (Digest.addFrame digest bytes)
    | error p => rfl

end Memory

namespace AddressSpace

open Memory

variable {s : AddressSpace}

theorem agree_populate (h : Alike t frames m m') :
    s.populate.Agree m m' (fun backed => Alike t (backed.frames ++ frames)) (Alike t frames) := by
  unfold populate
  split
  · exact agree_fail h
  · split
    · next first second h₁ h₂ =>
      have hframes {new : List PhysicalPage} : frames ⊆ new ++ frames :=
        List.subset_append_right _ _
      refine (agree_zeroedFrames h _).bind fun frames₁ m₁ m₁' hm₁ => ?_
      refine ((agree_zeroedFramesOrGiveBack hm₁ _ frames₁).mono (fun _ _ _ h => h)
        fun _ _ h => h.mono hframes).bind fun frames₂ m₂ m₂' hm₂ => ?_
      have hframes₂ : frames ⊆ frames₂ ++ (frames₁ ++ frames) :=
        List.Subset.trans hframes (List.subset_append_right _ _)
      refine ((agree_zeroedFramesOrGiveBack hm₂ _ (frames₁ ++ frames₂)).mono (fun _ _ _ h => h)
        fun _ _ h => h.mono hframes₂).bind fun stack m₃ m₃' hm₃ => ?_
      refine agree_pure (hm₃.mono fun frame hframe => ?_)
      rw [frames_eq rfl rfl] at hframe
      simp only [List.mem_append] at hframe ⊢
      rcases hframe with ((hframe | hframe) | hframe) | hframe <;>
        simp only [hframe, true_or, or_true]
    · exact agree_fail h

theorem agree_fork (h : Alike t frames m m') (hs : s.frames ⊆ frames) :
    s.fork.Agree m m' (fun child => Alike t (child.frames ++ frames)) (Alike t frames) := by
  unfold fork
  split
  · split
    · have hframes {new : List PhysicalPage} : frames ⊆ new ++ frames :=
        List.subset_append_right _ _
      refine (agree_populate h).bind fun child m₁ m₁' h₁ => ?_
      have hsources : ∀ p ∈ child.frames.zip s.frames, p.2 ∈ child.frames ++ frames :=
        fun p hp => hframes (hs (List.of_mem_zip hp).2)
      refine ((agree_duplicateFrames h₁ hsources).onPanic.mono (fun _ _ _ h => h)
        fun _ _ h => h.mono hframes).bind fun _ m₂ m₂' h₂ => ?_
      exact agree_pure h₂
    · exact agree_fail h
  · exact agree_fail h

theorem agree_release (h : Alike t frames m m') :
    (s.release : Routine Memory ε Unit).Agree m m' (fun _ => Alike t frames) (Alike t frames) :=
  (agree_giveBack h s.frames).onPanic

theorem agree_write (h : Alike t frames m m') (bytes : List UInt8) (a : VirtualAddress) :
    (s.write bytes a).Agree m m' (fun _ => Alike t frames) (Alike t frames) := by
  unfold AddressSpace.write
  split
  · exact agree_pure h
  · refine (agree_ofExcept (Q := fun _ => Alike t frames) (fun _ _ => h) h).bind
      fun resolved m₁ m₁' h₁ => ?_
    exact Agree.forEach (fun p _ _ _ h => Memory.agree_write h p.1 p.2) h₁

theorem agree_writeString (h : Alike t frames m m') (bytes : List UInt8) (a : VirtualAddress)
    (greatest : Nat) :
    (s.writeString bytes a greatest).Agree m m' (fun _ => Alike t frames) (Alike t frames) := by
  unfold writeString
  dsimp only
  split
  · exact agree_fail h
  · exact (agree_write h _ a).bind_pure

theorem agree_placeArguments (h : Alike t frames m m') (sp : VirtualAddress)
    (arguments : List (List UInt8)) :
    (s.placeArguments sp arguments).Agree m m' (fun _ => Alike t frames) (Alike t frames) := by
  induction arguments generalizing sp m m' with
  | nil => exact agree_pure h
  | cons argument rest ih =>
    rw [placeArguments]
    refine (agree_orFail (Q := fun _ => Alike t frames) (fun _ _ => h) h).bind
      fun here m₁ m₁' h₁ => ?_
    refine (agree_writeString h₁ argument here _).mapError.bind fun _ m₂ m₂' h₂ => ?_
    exact (ih h₂ here).bind_pure

theorem agree_layOutArguments (h : Alike t frames m m') (target : AddressSpace)
    (arguments : List (List UInt8)) :
    (s.layOutArguments target arguments).Agree m m' (fun _ => Alike t frames)
      (Alike t frames) := by
  unfold layOutArguments
  split
  · refine (agree_placeArguments h _ arguments).bind fun (sp, addresses) m₁ m₁' h₁ => ?_
    refine (agree_orFail (Q := fun _ => Alike t frames) (fun _ _ => h₁) h₁).bind
      fun sp m₂ m₂' h₂ => ?_
    exact (agree_write h₂ _ sp).mapError.bind_pure
  · exact agree_fail h

end AddressSpace

end MipsVM
