import MipsVM.Space
import MipsVM.Frame.Allocator

/-!
# The frames of an address space

A space is given a zeroed frame for each page when a program is about to be loaded, is copied page
by page for a new process, and gives its frames back in the end. A step that fails gives
back what it was given.

## Main definitions

- `AddressSpace.populate`: give every page a zeroed frame
- `AddressSpace.fork`: the same pages with the same bytes in other frames
- `AddressSpace.release`: give the frames back

## Main statements

- `populate_of_isBacked`: a space is given frames at most once

## Design notes

These are routines on memory that answer with the new space. On failure there is no new space, so
the descriptor of the old one cannot change.
-/

namespace MipsVM

namespace Memory

/-- Give back frames one by one. A frame that is refused is reported and skipped. -/
def giveBack {ε : Type} : List PhysicalPage → Routine Memory ε Unit
  | [] => pure ()
  | frame :: rest => do
    match ← (free frame).attempt with
    | .ok () => pure ()
    | .error cause => Routine.report (.releaseFailed frame cause)
    giveBack rest

/-- Hand out `left` more single frames, each filled with zeros, after those of `got`, latest first.
If they run out all are given back. `wanted` is the number of all. -/
def zeroedFramesAfter (wanted : Nat) :
    (left : Nat) → (got : List PhysicalPage) → Routine Memory SpaceError (List PhysicalPage)
  | 0, got => pure got.reverse
  | left + 1, got => do
    match ← allocOne.attempt with
    | .ok frame =>
      access (·.blankFrame frame)
      zeroedFramesAfter wanted left (frame :: got)
    | .error cause =>
      Routine.report (.outOfFrames got.length wanted cause)
      giveBack got.reverse
      Routine.fail .outOfMemory

/-- Hand out `count` single frames, each filled with zeros, or none. -/
def zeroedFrames (count : Nat) : Routine Memory SpaceError (List PhysicalPage) :=
  zeroedFramesAfter count count []

/-- Hand out `count` single zeroed frames, or none and give back `held`. -/
def zeroedFramesOrGiveBack (count : Nat) (held : List PhysicalPage) :
    Routine Memory SpaceError (List PhysicalPage) := do
  match ← (zeroedFrames count).attempt with
  | .ok frames => pure frames
  | .error e =>
    giveBack held
    Routine.fail e

/-- Copy the bytes of frames, each from the second to the first of a pair. -/
def duplicateFrames {ε : Type} (pairs : List (PhysicalPage × PhysicalPage)) :
    Routine Memory ε Unit :=
  Routine.forEach (fun (target, source) => access (·.duplicateFrame target source)) pairs

end Memory

namespace AddressSpace

/-- Give every page of a space its own zeroed frame. -/
def populate (s : AddressSpace) : Routine Memory SpaceError AddressSpace :=
  if s.isBacked then Routine.fail .alreadyBacked
  else
    match s.segment1, s.segment2 with
    | some first, some second => do
      let frames₁ ← Memory.zeroedFrames first.pageCount
      let frames₂ ← Memory.zeroedFramesOrGiveBack second.pageCount frames₁
      let stack ← Memory.zeroedFramesOrGiveBack stackPages (frames₁ ++ frames₂)
      pure
        { s with
          segment1 := some { first with frames := frames₁ }
          segment2 := some { second with frames := frames₂ }
          stack := stack }
    | _, _ => Routine.fail .missingRegion

/-- A space with the same pages and the same bytes in frames of its own. -/
def fork (s : AddressSpace) : Routine Memory SpaceError AddressSpace :=
  match s.segment1, s.segment2 with
  | some first, some second =>
    if s.isBacked then do
      let child ← populate ⟨some first.bare, some second.bare, [], false⟩
      -- both lists follow the same order of pages
      (Memory.duplicateFrames (child.frames.zip s.frames)).onPanic child.leak
      pure { child with loaded := s.loaded }
    else Routine.fail .notBacked
  | _, _ => Routine.fail .missingRegion

/-- Give back all frames of a space, which is lost. -/
def release {ε : Type} (s : AddressSpace) : Routine Memory ε Unit :=
  (Memory.giveBack s.frames).onPanic s.leak

/-- A space is given frames at most once. -/
theorem populate_of_isBacked {s : AddressSpace} (h : s.isBacked) :
    s.populate = Routine.fail .alreadyBacked := by
  unfold populate
  exact if_pos h

end AddressSpace

end MipsVM
