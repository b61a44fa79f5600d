import MipsVM.Proofs.Routine
import MipsVM.Ram

/-!
# What an access to physical memory leaves alone

## Main definitions

- `Ram.Holds`, `Ram.Covers`: the memory has every byte of a stretch, or of a range
- `Ram.Keeps`: a later memory has the same frames, and the same bytes at given addresses

## Main statements

- `byteAt_setBytes`: the bytes after a write
- `setBytes_bytesAt`: to write what is there changes nothing
- `setBytes_setBytes`: a write of as many bytes to the same place hides an earlier one
- `keeps_setBytes`, `keeps_setFrame`: what a write and the replacement of a frame keep
- `holds_of_check`: what an access that succeeds shows
- `write_eq_ok`, `blankFrame_eq_ok`, `duplicateFrame_eq_ok`: an access to memory that is there
  succeeds
-/

namespace MipsVM

namespace Ram

variable {ram ram' ram'' : Ram}

/-- The memory has every byte from address `first` up to, and without, `stop`. -/
def Holds (ram : Ram) (first stop : Nat) : Prop :=
  ∀ a, first ≤ a → a < stop → ram.hasFrame (a / 4096)

/-- The memory has every byte of a range. -/
def Covers (ram : Ram) (r : PhysicalRange) : Prop :=
  ram.Holds r.first.toNat r.last.toNat

theorem Holds.mono {first stop first' stop' : Nat} (h : ram.Holds first stop)
    (hf : first ≤ first') (hs : stop' ≤ stop) : ram.Holds first' stop' :=
  fun a ha ha' => h a (by omega) (by omega)

theorem hasFrame_iff {number : Nat} :
    ram.hasFrame number ↔ ram.first ≤ number ∧ number < ram.first + ram.frames.size := by
  simp [hasFrame]

theorem covers_range (ram : Ram) : ram.Covers ram.range := by
  intro a ha ha'
  rw [hasFrame_iff]
  simp only [range, base, size] at ha ha'
  omega

theorem hasFrame_congr (hf : ram'.first = ram.first)
    (hs : ram'.frames.size = ram.frames.size) : ram'.hasFrame = ram.hasFrame := by
  funext number
  simp only [hasFrame, hf, hs]

/-- A later memory with the same frames, and the same bytes at the addresses in `S`. -/
structure Keeps (ram ram' : Ram) (S : Nat → Prop) : Prop where
  extent : ram'.hasFrame = ram.hasFrame
  bytes : ∀ a, S a → ram'.byteAt a = ram.byteAt a

theorem Keeps.refl {S : Nat → Prop} : ram.Keeps ram S :=
  ⟨rfl, fun _ _ => rfl⟩

theorem Keeps.mono {S S' : Nat → Prop} (h : ram.Keeps ram' S) (hS : ∀ a, S' a → S a) :
    ram.Keeps ram' S' :=
  ⟨h.extent, fun a ha => h.bytes a (hS a ha)⟩

theorem Keeps.trans {S : Nat → Prop} (h : ram.Keeps ram' S) (h' : ram'.Keeps ram'' S) :
    ram.Keeps ram'' S :=
  ⟨h'.extent.trans h.extent, fun a ha => (h'.bytes a ha).trans (h.bytes a ha)⟩

theorem Holds.of_keeps {S : Nat → Prop} {first stop : Nat} (h : ram.Holds first stop)
    (hk : ram.Keeps ram' S) : ram'.Holds first stop := by
  intro a ha ha'
  rw [hk.extent]
  exact h a ha ha'

theorem Keeps.covers {S : Nat → Prop} {r : PhysicalRange} (h : ram.Keeps ram' S)
    (hc : ram.Covers r) : ram'.Covers r :=
  Holds.of_keeps hc h

section Changes

@[simp] theorem hasFrame_modifyFrame (number : Nat) (f : Frame → Frame) :
    (ram.modifyFrame number f).hasFrame = ram.hasFrame :=
  hasFrame_congr (first_modifyFrame number f) (size_frames_modifyFrame number f)

@[simp] theorem hasFrame_setByte (a : Nat) (b : UInt8) :
    (ram.setByte a b).hasFrame = ram.hasFrame :=
  hasFrame_modifyFrame _ _

@[simp] theorem hasFrame_setFrame (number : Nat) (frame : Frame) :
    (ram.setFrame number frame).hasFrame = ram.hasFrame :=
  hasFrame_modifyFrame _ _

@[simp] theorem first_setBytes (a : Nat) (bytes : List UInt8) :
    (ram.setBytes a bytes).first = ram.first := by
  induction bytes generalizing ram a with
  | nil => rfl
  | cons b rest ih => rw [setBytes, ih, setByte, first_modifyFrame]

@[simp] theorem size_frames_setBytes (a : Nat) (bytes : List UInt8) :
    (ram.setBytes a bytes).frames.size = ram.frames.size := by
  induction bytes generalizing ram a with
  | nil => rfl
  | cons b rest ih => rw [setBytes, ih, setByte, size_frames_modifyFrame]

@[simp] theorem hasFrame_setBytes (a : Nat) (bytes : List UInt8) :
    (ram.setBytes a bytes).hasFrame = ram.hasFrame :=
  hasFrame_congr (first_setBytes a bytes) (size_frames_setBytes a bytes)

theorem frameAt_modifyFrame_of_not_hasFrame {number : Nat} (h : ¬ ram.hasFrame number)
    (f : Frame → Frame) (n : Nat) : (ram.modifyFrame number f).frameAt n = ram.frameAt n := by
  rw [hasFrame_iff] at h
  unfold modifyFrame
  split
  · have hout : ram.frames.size ≤ number - ram.first := by omega
    have hsame : ram.frames.modify (number - ram.first) f = ram.frames := by
      apply Array.ext
      · simp
      · intro i h₁ h₂
        rw [Array.getElem_modify, if_neg (by omega)]
    simp only [frameAt, hsame]
  · rfl

theorem byteAt_setByte_of_ne {a i : Nat} (h : i ≠ a) (b : UInt8) :
    (ram.setByte a b).byteAt i = ram.byteAt i := by
  by_cases hf : ram.hasFrame (a / 4096)
  · rw [byteAt_setByte hf, if_neg h]
  · simp only [byteAt, setByte, frameAt_modifyFrame_of_not_hasFrame hf]

theorem byteAt_setBytes_of_outside {a i : Nat} {bytes : List UInt8}
    (h : i < a ∨ a + bytes.length ≤ i) : (ram.setBytes a bytes).byteAt i = ram.byteAt i := by
  induction bytes generalizing ram a with
  | nil => rfl
  | cons b rest ih =>
    rw [List.length_cons] at h
    rw [setBytes, ih (by omega), byteAt_setByte_of_ne (by omega)]

theorem byteAt_setBytes {a : Nat} {bytes : List UInt8} (h : ram.Holds a (a + bytes.length))
    {k : Nat} (hk : k < bytes.length) : (ram.setBytes a bytes).byteAt (a + k) = bytes[k] := by
  induction bytes generalizing ram a k with
  | nil => exact absurd hk (Nat.not_lt_zero k)
  | cons b rest ih =>
    rw [List.length_cons] at h hk
    rw [setBytes]
    cases k with
    | zero =>
      rw [byteAt_setBytes_of_outside (by omega), byteAt_setByte (h _ (by omega) (by omega)),
        if_pos (by omega), List.getElem_cons_zero]
    | succ k =>
      have hrest : (ram.setByte a b).Holds (a + 1) (a + 1 + rest.length) := by
        intro i hi hi'
        rw [hasFrame_setByte]
        exact h i (by omega) (by omega)
      rw [show a + (k + 1) = a + 1 + k by omega, ih hrest (by omega), List.getElem_cons_succ]

theorem keeps_setBytes (a : Nat) (bytes : List UInt8) :
    ram.Keeps (ram.setBytes a bytes) fun i => i < a ∨ a + bytes.length ≤ i :=
  ⟨hasFrame_setBytes a bytes, fun _ => byteAt_setBytes_of_outside⟩

/-- To write a byte that is there already changes nothing, inside the memory or outside. -/
theorem setByte_byteAt (ram : Ram) (a : Nat) : ram.setByte a (ram.byteAt a) = ram := by
  obtain ⟨first, frames, fits⟩ := ram
  simp only [setByte, modifyFrame, byteAt, frameAt]
  split
  · rw [Ram.mk.injEq]
    refine ⟨rfl, Array.ext (Array.size_modify ..) fun i h₁ h₂ => ?_⟩
    rw [Array.getElem_modify]
    split
    · next hi =>
      subst hi
      simp [Array.getD, h₂]
    · rfl
  · rfl

theorem setBytes_bytesAt (ram : Ram) (a length : Nat) :
    ram.setBytes a (ram.bytesAt a length) = ram := by
  unfold bytesAt
  induction length generalizing a with
  | zero => rfl
  | succ length ih => rw [List.range'_succ, List.map_cons, setBytes, setByte_byteAt, ih]

theorem byteAt_add {i j : Nat} (hi : i < ram.frames.size) (hj : j < 4096) :
    ram.byteAt ((ram.first + i) * 4096 + j) = ram.frames[i][j] := by
  have hnumber : ((ram.first + i) * 4096 + j) / 4096 = ram.first + i := by omega
  have hplace : (place ((ram.first + i) * 4096 + j)).val = j := by
    simp only [place]
    omega
  have hframe : ram.frameAt (ram.first + i) = ram.frames[i] := by
    rw [frameAt, if_pos (Nat.le_add_right _ _), Nat.add_sub_cancel_left]
    simp only [Array.getD, dif_pos hi, Array.getInternal_eq_getElem]
  simp only [byteAt, Fin.getElem_fin, hplace, hnumber, hframe]

/-- Memories of the same frames are the same if all their bytes are. -/
theorem ext_byteAt (hfirst : ram'.first = ram.first) (hsize : ram'.frames.size = ram.frames.size)
    (hbytes : ∀ a, ram'.byteAt a = ram.byteAt a) : ram' = ram := by
  have hframes : ram'.frames = ram.frames := by
    refine Array.ext hsize fun i h' h => Vector.ext fun j hj => ?_
    rw [← byteAt_add h' hj, ← byteAt_add h hj, hfirst]
    exact hbytes _
  obtain ⟨first, frames, fits⟩ := ram
  obtain ⟨first', frames', fits'⟩ := ram'
  dsimp only at hfirst hframes
  subst hfirst hframes
  rfl

/-- A write of as many bytes to the same place hides an earlier one. -/
theorem setBytes_setBytes {a : Nat} {bytes bytes' : List UInt8}
    (h : ram.Holds a (a + bytes.length)) (hlength : bytes'.length = bytes.length) :
    (ram.setBytes a bytes).setBytes a bytes' = ram.setBytes a bytes' := by
  rw [← hlength] at h
  have hholds : (ram.setBytes a bytes).Holds a (a + bytes'.length) :=
    h.of_keeps (keeps_setBytes a bytes)
  refine ext_byteAt (by simp) (by simp) fun i => ?_
  by_cases hi : a ≤ i ∧ i < a + bytes'.length
  · obtain ⟨k, rfl⟩ := Nat.exists_eq_add_of_le hi.1
    rw [byteAt_setBytes hholds (by omega), byteAt_setBytes h (by omega)]
  · rw [byteAt_setBytes_of_outside (by omega), byteAt_setBytes_of_outside (by omega),
      byteAt_setBytes_of_outside (by omega)]

theorem keeps_setFrame (number : Nat) (frame : Frame) :
    ram.Keeps (ram.setFrame number frame) fun i => i / 4096 ≠ number := by
  refine ⟨hasFrame_setFrame number frame, fun i hi => ?_⟩
  by_cases hf : ram.hasFrame number
  · rw [byteAt_setFrame hf, if_neg hi]
  · simp only [byteAt, setFrame, frameAt_modifyFrame_of_not_hasFrame hf]

theorem byteAt_setFrame_zero {number a : Nat} (hf : ram.hasFrame number) (ha : a / 4096 = number) :
    (ram.setFrame number .zero).byteAt a = 0 := by
  rw [byteAt_setFrame hf, if_pos ha]
  simp [Frame.zero]

end Changes

section Accesses

theorem check_eq_ok {a : PhysicalAddress} {length : Nat} (hpos : 0 < length)
    (h : ram.Holds a.toNat (a.toNat + length)) :
    ram.check a length = .ok (a.toNat - ram.base.toNat) := by
  have first := hasFrame_iff.mp (h a.toNat (by omega) (by omega))
  have last := hasFrame_iff.mp (h (a.toNat + length - 1) (by omega) (by omega))
  have hbase : ram.base.toNat = ram.first * 4096 := rfl
  unfold check size
  rw [if_neg (by omega), if_neg (by omega)]

theorem holds_of_check {a : PhysicalAddress} {length offset : Nat}
    (h : ram.check a length = .ok offset) : ram.Holds a.toNat (a.toNat + length) := by
  have hbase : ram.base.toNat = ram.first * 4096 := rfl
  unfold check size at h
  split at h
  · cases h
  · split at h
    · cases h
    · intro i hi hi'
      rw [hasFrame_iff]
      omega

theorem holds_frame {frame : PhysicalPage} (h : ram.hasFrame frame.number) :
    ram.Holds frame.base.toNat (frame.base.toNat + pageSize) := by
  intro a ha ha'
  have hbase : frame.base.toNat = frame.number * 4096 := rfl
  have hsize : pageSize = 4096 := rfl
  rwa [show a / 4096 = frame.number by omega]

theorem check_frame {frame : PhysicalPage} (h : ram.hasFrame frame.number) :
    ram.check frame.base pageSize = .ok (frame.base.toNat - ram.base.toNat) :=
  check_eq_ok (by decide) (holds_frame h)

theorem write_eq_ok {a : PhysicalAddress} {bytes : List UInt8} (hne : bytes ≠ [])
    (h : ram.Holds a.toNat (a.toNat + bytes.length)) :
    ram.write a bytes = .ok (ram.setBytes a.toNat bytes) := by
  unfold write
  rw [check_eq_ok (List.length_pos_iff.mpr hne) h]
  rfl

theorem eq_setBytes_of_write {a : PhysicalAddress} {bytes : List UInt8}
    (h : ram.write a bytes = .ok ram') : ram' = ram.setBytes a.toNat bytes := by
  obtain ⟨offset, -, h⟩ := bind_eq_ok.mp h
  exact (Except.ok.inj h).symm

theorem eq_setFrame_of_blankFrame {frame : PhysicalPage} (h : ram.blankFrame frame = .ok ram') :
    ram' = ram.setFrame frame.number .zero := by
  obtain ⟨offset, -, h⟩ := bind_eq_ok.mp h
  exact (Except.ok.inj h).symm

theorem eq_setFrame_of_duplicateFrame {target source : PhysicalPage}
    (h : ram.duplicateFrame target source = .ok ram') :
    ∃ bytes, ram' = ram.setFrame target.number bytes := by
  unfold duplicateFrame at h
  split at h
  · cases h
  · obtain ⟨bytes, -, h⟩ := bind_eq_ok.mp h
    obtain ⟨offset, -, h⟩ := bind_eq_ok.mp h
    exact ⟨bytes, (Except.ok.inj h).symm⟩

theorem blankFrame_eq_ok {frame : PhysicalPage} (h : ram.hasFrame frame.number) :
    ram.blankFrame frame = .ok (ram.setFrame frame.number .zero) := by
  unfold blankFrame
  rw [check_frame h]
  rfl

theorem duplicateFrame_eq_ok {target source : PhysicalPage} (hne : target ≠ source)
    (ht : ram.hasFrame target.number) (hs : ram.hasFrame source.number) :
    ram.duplicateFrame target source =
      .ok (ram.setFrame target.number (ram.frameAt source.number)) := by
  unfold duplicateFrame readFrame
  rw [if_neg hne, check_frame ht, check_frame hs]
  rfl

end Accesses

end Ram

end MipsVM
