import MipsVM.Panic
import MipsVM.Layout

/-!
# Physical memory

Memory is a stretch of consecutive frames of 4096 bytes, all zero at first. Every access says how
many bytes it needs from which address on, and one that leaves the memory is a panic.

## Main definitions

- `Frame`: the bytes of one frame
- `Ram`: the memory
- `Ram.byteAt`, `Ram.setByte`: one byte
- `Ram.check`: whether an access stays inside
- `Ram.read`, `Ram.write`, `Ram.blankFrame`, `Ram.duplicateFrame`: the accesses

## Main statements

- `byteAt_setByte`: a write changes the byte at its address and no other
- `byteAt_setFrame`: replacing a frame changes the bytes of that frame and no others

## Design notes

The bytes are kept frame by frame, so that zeroing and copying a frame replaces it as a whole.
`byteAt` is defined for every address, with 0 outside the memory; the accesses check first.
-/

namespace MipsVM

/-- The bytes of one frame. -/
abbrev Frame : Type :=
  Vector UInt8 4096

/-- The frame full of zeros. -/
def Frame.zero : Frame :=
  Vector.replicate 4096 0

/-- The memory from frame number `first` on. -/
structure Ram where
  first : Nat
  frames : Array Frame
  fits : first + frames.size < 0x100000

namespace Ram

/-- Memory of `pages` zeroed frames from `base` on. -/
def new (base : PhysicalAddress) (pages : Nat) : Except Panic Ram :=
  if base.isAligned then
    if 0x10000000000000000 ≤ pages * pageSize then .error .multiplyOverflow
    else if h : base.page.number + pages < 0x100000 then
      .ok ⟨base.page.number, Array.replicate pages .zero, by rw [Array.size_replicate]; exact h⟩
    else .error .ramTooLarge
  else .error .ramUnaligned

/-- The number of bytes. -/
def size (ram : Ram) : Nat :=
  ram.frames.size * 4096

/-- The lowest address. -/
def base (ram : Ram) : PhysicalAddress :=
  ⟨ram.first * 4096, by have := ram.fits; omega⟩

/-- The memory as a range of addresses. -/
def range (ram : Ram) : PhysicalRange :=
  ⟨ram.base, ⟨ram.first * 4096 + ram.size, by have := ram.fits; unfold size; omega⟩⟩

/-- The frame of a number, zero if it lies outside. -/
def frameAt (ram : Ram) (number : Nat) : Frame :=
  if ram.first ≤ number then ram.frames.getD (number - ram.first) .zero else .zero

/-- The place of the byte at an address in its frame. -/
def place (a : Nat) : Fin 4096 :=
  ⟨a % 4096, Nat.mod_lt _ (by decide)⟩

/-- The byte at an address, zero if it lies outside. -/
def byteAt (ram : Ram) (a : Nat) : UInt8 :=
  (ram.frameAt (a / 4096))[place a]

/-- Whether the frame of a number belongs to the memory. -/
def hasFrame (ram : Ram) (number : Nat) : Bool :=
  ram.first ≤ number ∧ number < ram.first + ram.frames.size

/-- The memory with one frame changed by a function. -/
def modifyFrame (ram : Ram) (number : Nat) (f : Frame → Frame) : Ram :=
  if ram.first ≤ number then
    { ram with
      frames := ram.frames.modify (number - ram.first) f
      fits := by rw [Array.size_modify]; exact ram.fits }
  else ram

/-- The memory with one frame replaced. -/
def setFrame (ram : Ram) (number : Nat) (frame : Frame) : Ram :=
  ram.modifyFrame number fun _ => frame

/-- The memory with one byte replaced. -/
def setByte (ram : Ram) (a : Nat) (b : UInt8) : Ram :=
  ram.modifyFrame (a / 4096) fun frame => frame.set (place a) b

/-- The `length` bytes from address `a` on. -/
def bytesAt (ram : Ram) (a length : Nat) : List UInt8 :=
  (List.range' a length).map ram.byteAt

/-- The memory with the bytes from address `a` on replaced. -/
def setBytes (ram : Ram) (a : Nat) : List UInt8 → Ram
  | [] => ram
  | b :: rest => (ram.setByte a b).setBytes (a + 1) rest

/-- The offset in the memory of an access to `length` bytes from an address on, which must lie
inside. -/
def check (ram : Ram) (a : PhysicalAddress) (length : Nat) : Except Panic Nat :=
  if a.toNat < ram.base.toNat then .error (.belowRam a)
  else if ram.size < a.toNat - ram.base.toNat + length then .error (.beyondRam a length)
  else .ok (a.toNat - ram.base.toNat)

/-- Read `length` bytes from an address on. -/
def read (ram : Ram) (a : PhysicalAddress) (length : Nat) : Except Panic (List UInt8) := do
  let _ ← ram.check a length
  pure (ram.bytesAt a.toNat length)

/-- Write bytes from an address on. -/
def write (ram : Ram) (a : PhysicalAddress) (bytes : List UInt8) : Except Panic Ram := do
  let _ ← ram.check a bytes.length
  pure (ram.setBytes a.toNat bytes)

/-- Read a whole frame. -/
def readFrame (ram : Ram) (frame : PhysicalPage) : Except Panic Frame := do
  let _ ← ram.check frame.base pageSize
  pure (ram.frameAt frame.number)

/-- Fill a frame with zeros. -/
def blankFrame (ram : Ram) (frame : PhysicalPage) : Except Panic Ram := do
  let _ ← ram.check frame.base pageSize
  pure (ram.setFrame frame.number .zero)

/-- Copy the bytes of the frame `source` to the frame `target`, which must be another. -/
def duplicateFrame (ram : Ram) (target source : PhysicalPage) : Except Panic Ram :=
  if target = source then .error (.copyOntoItself target)
  else do
    let bytes ← ram.readFrame source
    let _ ← ram.check target.base pageSize
    pure (ram.setFrame target.number bytes)

section Lemmas

variable {ram : Ram}

@[simp] theorem first_modifyFrame (number : Nat) (f : Frame → Frame) :
    (ram.modifyFrame number f).first = ram.first := by
  unfold modifyFrame
  split <;> rfl

@[simp] theorem size_frames_modifyFrame (number : Nat) (f : Frame → Frame) :
    (ram.modifyFrame number f).frames.size = ram.frames.size := by
  unfold modifyFrame
  split
  · simp only [Array.size_modify]
  · rfl

/-- Changing a frame of the memory changes that frame and no other. -/
theorem frameAt_modifyFrame {number : Nat} (h : ram.hasFrame number) (f : Frame → Frame) (n : Nat) :
    (ram.modifyFrame number f).frameAt n =
      if n = number then f (ram.frameAt number) else ram.frameAt n := by
  simp only [hasFrame, Bool.decide_and, Bool.and_eq_true, decide_eq_true_eq] at h
  obtain ⟨h₁, h₂⟩ := h
  by_cases hn : n = number
  · subst hn
    simp only [modifyFrame, if_pos h₁, frameAt, Array.getD, Array.size_modify,
      dif_pos (show n - ram.first < ram.frames.size by omega), Array.getInternal_eq_getElem,
      Array.getElem_modify_self, if_pos]
  · simp only [modifyFrame, if_pos h₁, frameAt, if_neg hn]
    split
    · have hne : number - ram.first ≠ n - ram.first := by omega
      by_cases hlt : n - ram.first < ram.frames.size
      · simp only [Array.getD, Array.size_modify, dif_pos hlt, Array.getInternal_eq_getElem,
          Array.getElem_modify, if_neg hne]
      · simp only [Array.getD, Array.size_modify, dif_neg hlt]
    · rfl

/-- Replacing a frame of the memory changes its bytes and no others. -/
theorem byteAt_setFrame {number : Nat} (h : ram.hasFrame number) (frame : Frame) (a : Nat) :
    (ram.setFrame number frame).byteAt a =
      if a / 4096 = number then frame[place a] else ram.byteAt a := by
  simp only [byteAt, setFrame, frameAt_modifyFrame h]
  split <;> rfl

/-- Replacing a byte of the memory changes the byte at its address and no other. -/
theorem byteAt_setByte {a : Nat} (h : ram.hasFrame (a / 4096)) (b : UInt8) (i : Nat) :
    (ram.setByte a b).byteAt i = if i = a then b else ram.byteAt i := by
  simp only [byteAt, setByte, frameAt_modifyFrame h]
  by_cases hi : i = a
  · subst hi
    simp
  · by_cases hf : i / 4096 = a / 4096
    · have hm : (place a).val ≠ (place i).val := by
        simp only [place]
        omega
      simp only [hf, if_pos, if_neg hi, Fin.getElem_fin]
      rw [Vector.getElem_set_ne _ _ hm]
    · simp only [hf, if_false, if_neg hi]

end Lemmas

end Ram

end MipsVM
