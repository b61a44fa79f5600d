import MipsVM.Panic

/-!
# Frame slots

A slot says what a managed frame is used for. The frames of an allocated run are numbered from 1,
and each slot of the run also holds the length of the run; a free frame has position 0. A slot is
stored as one 32-bit word, the position in its low half and the length in its high half, with the
low byte first.

## Main definitions

- `Slot`, with `Slot.free` and the slots `Slot.run` of a whole run
- `Slot.toBits`, `Slot.ofBits`: the slot as a word
- `Slot.encode`, `Slot.decode`: the slot as four bytes

## Main statements

- `ofBits_toBits`, `toBits_ofBits`: words and slots correspond one to one
- `decode_encode`: a stored slot is read back
-/

namespace MipsVM

/-- The state of one managed frame. -/
@[ext] structure Slot where
  /-- The place of the frame in its run, counted from 1, or 0 if the frame is free. -/
  position : Nat
  /-- The number of frames of the run. -/
  runLength : Nat
  position_lt : position < 65536
  runLength_lt : runLength < 65536
  deriving DecidableEq

namespace Slot

/-- The slot of a free frame. -/
def free : Slot := ⟨0, 0, by decide, by decide⟩

/-- Whether the frame is free: it has no position in a run. -/
def isFree (s : Slot) : Bool :=
  s.position = 0

/-- The slots of a run of `count` frames. -/
def run (count : Nat) (h : count < 65536) : List Slot :=
  List.ofFn fun k : Fin count => ⟨k + 1, count, by omega, h⟩

/-- The slot as a 32-bit word. -/
def toBits (s : Slot) : Nat :=
  s.position + s.runLength * 65536

/-- The slot of a 32-bit word. -/
def ofBits (n : Nat) : Slot :=
  ⟨n % 65536, n / 65536 % 65536, Nat.mod_lt _ (by decide), Nat.mod_lt _ (by decide)⟩

/-- The slot as stored in memory. -/
def encode (s : Slot) : List UInt8 :=
  [.ofNat s.position, .ofNat (s.position / 256), .ofNat s.runLength, .ofNat (s.runLength / 256)]

/-- The slot of four bytes of memory. -/
def decode (b₀ b₁ b₂ b₃ : UInt8) : Slot :=
  ⟨b₀.toNat + b₁.toNat * 256, b₂.toNat + b₃.toNat * 256,
    by have := b₀.toNat_lt; have := b₁.toNat_lt; omega,
    by have := b₂.toNat_lt; have := b₃.toNat_lt; omega⟩

/-- The same slot at another position. -/
def withPosition (s : Slot) (n : Nat) : Except Panic Slot :=
  if h : n < 65536 then .ok { s with position := n, position_lt := h }
  else .error (.fieldOverflow 65535)

/-- The same slot with another run length. -/
def withRunLength (s : Slot) (n : Nat) : Except Panic Slot :=
  if h : n < 65536 then .ok { s with runLength := n, runLength_lt := h }
  else .error (.fieldOverflow 65535)

/-- The slot in words. -/
def describe (s : Slot) : String :=
  s!"FrameSlot \x7b pos: {s.position}, len: {s.runLength} \x7d"

@[simp] theorem ofBits_toBits (s : Slot) : ofBits s.toBits = s := by
  have := s.position_lt
  have := s.runLength_lt
  ext <;> simp only [ofBits, toBits] <;> omega

theorem toBits_ofBits {n : Nat} (h : n < 0x100000000) : (ofBits n).toBits = n := by
  simp only [ofBits, toBits]
  omega

@[simp] theorem isFree_free : free.isFree = true := rfl

@[simp] theorem length_encode (s : Slot) : s.encode.length = 4 := rfl

@[simp] theorem length_run (count : Nat) (h : count < 65536) : (run count h).length = count :=
  List.length_ofFn

/-- The `k`-th slot of a run has position `k + 1`, counting slots from 0. -/
theorem getElem_run {count k : Nat} (h : count < 65536) (hk : k < (run count h).length) :
    (run count h)[k] = ⟨k + 1, count, by have := length_run count h; omega, h⟩ := by
  simp [run]

/-- A slot that was stored is read back. -/
theorem decode_encode (s : Slot) :
    decode (.ofNat s.position) (.ofNat (s.position / 256)) (.ofNat s.runLength)
      (.ofNat (s.runLength / 256)) = s := by
  have := s.position_lt
  have := s.runLength_lt
  ext <;> simp only [decode, UInt8.toNat_ofNat'] <;> omega

/-- Bytes that were read as a slot are what is stored for it. -/
theorem encode_decode (b₀ b₁ b₂ b₃ : UInt8) : (decode b₀ b₁ b₂ b₃).encode = [b₀, b₁, b₂, b₃] := by
  have := b₀.toNat_lt
  have := b₁.toNat_lt
  have := b₂.toNat_lt
  have := b₃.toNat_lt
  simp only [encode, decode, List.cons.injEq, ← UInt8.toNat_inj, UInt8.toNat_ofNat', and_true]
  omega

end Slot

end MipsVM
