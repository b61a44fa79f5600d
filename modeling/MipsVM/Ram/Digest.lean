import MipsVM.Ram

/-!
# Digests

The contents of frames are compared by a 64-bit digest: each byte is joined to the digest of the
bytes before it by an exclusive or and a multiplication.
-/

namespace MipsVM

namespace Digest

/-- The digest of no bytes. -/
def start : UInt64 := 0xcbf29ce484222325

/-- The digest after one more byte. -/
def step (digest : UInt64) (b : UInt8) : UInt64 :=
  (digest ^^^ b.toUInt64) * 0x100000001b3

/-- The digest after all bytes of a frame. -/
def addFrame (digest : UInt64) (frame : Frame) : UInt64 :=
  frame.toArray.foldl step digest

end Digest

/-- The digest of the bytes of some frames, one after the other. -/
def Ram.digest (ram : Ram) : (frames : List PhysicalPage) → (digest : UInt64) → Except Panic UInt64
  | [], digest => .ok digest
  | frame :: rest, digest => do
    let bytes ← ram.readFrame frame
    ram.digest rest (Digest.addFrame digest bytes)

end MipsVM
