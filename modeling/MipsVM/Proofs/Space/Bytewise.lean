import Mathlib.Order.Bounds.Basic
import MipsVM.Proofs.Ram
import MipsVM.Proofs.Space.Translation
import MipsVM.Space.Write

/-!
# Copying to user memory, byte by byte

Bytes are copied to a space page by page, each piece as a whole to the frame of its page. This is
the same as to store them one by one, each where the space has it, provided that it has all of them.
If it does not, nothing is stored, and the lowest address that it lacks is reported.

## Main definitions

- `AddressSpace.store`: bytes are stored one by one
- `AddressSpace.byteAt?`, `AddressSpace.Shows`: the byte and the byte string at a user address
- `AddressSpace.Has`, `AddressSpace.IsFirstGap`: a stretch of user memory is there, or the lowest
  address of it that is not
- `AddressSpace.Placed`: pieces of physical memory that together are a stretch of user memory

## Main statements

- `keeps_store`, `shows_store`: what is read afterwards
- `resolvePieces_cases`: the pieces of a string are placed, or the lowest address without a byte is
  found
- `write_cases`: a copy is made byte by byte, or not at all
-/

namespace MipsVM

open Memory

namespace AddressSpace

variable {s : AddressSpace} {m : Memory} {ram ram' : Ram} {a : VirtualAddress} {n : Nat}
  {bytes bytes' : List UInt8}

section Store

/-- The memory after bytes were stored one by one from a user address on, each where the space has
it. -/
def store (s : AddressSpace) (ram : Ram) (n : Nat) : List UInt8 → Ram
  | [] => ram
  | b :: rest => s.store ((s.locate? n).elim ram fun p => ram.setByte p b) (n + 1) rest

/-- The byte at a user address. -/
def byteAt? (s : AddressSpace) (ram : Ram) (n : Nat) : Option UInt8 :=
  (s.locate? n).map ram.byteAt

/-- The byte string is read from a user address on. -/
def Shows (s : AddressSpace) (ram : Ram) (n : Nat) (bytes : List UInt8) : Prop :=
  ∀ k < bytes.length, s.byteAt? ram (n + k) = bytes[k]?

/-- The space has a byte for each of `length` user addresses. -/
def Has (s : AddressSpace) (n length : Nat) : Prop :=
  ∀ k < length, (s.locate? (n + k)).isSome

theorem Has.ne_none {length i : Nat} (h : s.Has n length) (hlow : n ≤ i) (hhigh : i < n + length) :
    s.locate? i ≠ none := by
  have hsome := h (i - n) (by omega)
  rwa [Nat.add_sub_cancel' hlow, Option.isSome_iff_ne_none] at hsome

theorem store_append : s.store ram n (bytes ++ bytes') =
    s.store (s.store ram n bytes) (n + bytes.length) bytes' := by
  induction bytes generalizing ram n with
  | nil => rfl
  | cons b rest ih =>
    rw [List.cons_append, store, ih, store, List.length_cons, Nat.add_right_comm, Nat.add_assoc]

/-- Where user memory lies in one stretch, the bytes are stored as a stretch. -/
theorem store_eq_setBytes {p : Nat} (h : ∀ k < bytes.length, s.locate? (n + k) = some (p + k)) :
    s.store ram n bytes = ram.setBytes p bytes := by
  induction bytes generalizing ram n p with
  | nil => rfl
  | cons b rest ih =>
    rw [List.length_cons] at h
    have hfirst : s.locate? n = some p := h 0 (Nat.zero_lt_succ _)
    rw [store, Ram.setBytes, hfirst, Option.elim_some]
    refine ih fun k hk => ?_
    rw [Nat.add_right_comm n, Nat.add_right_comm p, Nat.add_assoc n, Nat.add_assoc p]
    exact h (k + 1) (Nat.succ_lt_succ hk)

/-- Only the bytes at the user addresses are changed. -/
theorem keeps_store : ram.Keeps (s.store ram n bytes)
    fun q => ∀ k < bytes.length, s.locate? (n + k) ≠ some q := by
  induction bytes generalizing ram n with
  | nil => exact .refl
  | cons b rest ih =>
    rw [List.length_cons]
    have hfirst : ram.Keeps ((s.locate? n).elim ram fun p => ram.setByte p b)
        fun q => s.locate? n ≠ some q := by
      cases hp : s.locate? n with
      | none => exact .refl
      | some p =>
        refine ⟨Ram.hasFrame_setByte p b, fun q hq => Ram.byteAt_setByte_of_ne ?_ b⟩
        exact fun hqp => hq (congrArg some hqp.symm)
    refine (hfirst.mono fun q hq => hq 0 (Nat.zero_lt_succ _)).trans (ih.mono fun q hq k hk => ?_)
    rw [Nat.add_assoc, Nat.add_comm 1]
    exact hq (k + 1) (Nat.succ_lt_succ hk)

/-- What is read from bytes that were not changed. -/
theorem Shows.of_keeps {S : Nat → Prop} (h : s.Shows ram n bytes) (hk : ram.Keeps ram' S)
    (hS : ∀ k < bytes.length, ∀ p, s.locate? (n + k) = some p → S p) : s.Shows ram' n bytes := by
  intro k hlt
  rw [← h k hlt]
  unfold byteAt?
  cases hp : s.locate? (n + k) with
  | none => rfl
  | some p =>
    rw [Option.map_some, Option.map_some, hk.bytes p (hS k hlt p hp)]

/-- Bytes that were stored are read again, since no two addresses have the same place. -/
theorem shows_store (hnodup : s.frames.Nodup)
    (hhas : ∀ frame ∈ s.frames, ram.hasFrame frame.number) (hall : s.Has n bytes.length) :
    s.Shows (s.store ram n bytes) n bytes := by
  induction bytes generalizing ram n with
  | nil => exact fun k hk => absurd hk (Nat.not_lt_zero k)
  | cons b rest ih =>
    have hrest : s.Has (n + 1) rest.length := by
      intro k hk
      rw [Nat.add_assoc, Nat.add_comm 1]
      exact hall (k + 1) (Nat.succ_lt_succ hk)
    obtain ⟨p, hp⟩ := Option.isSome_iff_exists.mp (hall 0 (Nat.zero_lt_succ _))
    rw [Nat.add_zero] at hp
    obtain ⟨frame, hframe, hnumber⟩ := exists_frame_of_locate? hp
    rw [store, hp, Option.elim_some]
    intro k hk
    cases k with
    | zero =>
      -- the bytes that follow are stored at other places
      have hlater : ∀ k < rest.length, s.locate? (n + 1 + k) ≠ some p := by
        intro k hk hsame
        have := locate?_unique hnodup hp hsame
        omega
      have hin : ram.hasFrame (p / 4096) := hnumber ▸ hhas frame hframe
      rw [byteAt?, show n + 0 = n from rfl, hp, Option.map_some, keeps_store.bytes p hlater,
        Ram.byteAt_setByte hin, if_pos rfl]
      rfl
    | succ k =>
      have hhas' : ∀ frame ∈ s.frames, (ram.setByte p b).hasFrame frame.number := by
        rwa [Ram.hasFrame_setByte]
      have hshows := ih hhas' hrest k (Nat.lt_of_succ_lt_succ hk)
      rwa [Nat.add_assoc, Nat.add_comm 1] at hshows

end Store

section Pieces

/-- The pieces of physical memory, one after the other, are the user memory from an address on, and
have the bytes of a string. -/
inductive Placed (s : AddressSpace) :
    Nat → List UInt8 → List (PhysicalAddress × List UInt8) → Prop
  | nil (n : Nat) : s.Placed n [] []
  | cons {n : Nat} {pa : PhysicalAddress} {piece bytes : List UInt8}
      {rest : List (PhysicalAddress × List UInt8)} (nonempty : piece ≠ [])
      (sideBySide : ∀ k < piece.length, s.locate? (n + k) = some (pa.toNat + k))
      (later : s.Placed (n + piece.length) bytes rest) :
      s.Placed n (piece ++ bytes) ((pa, piece) :: rest)

variable {resolved : List (PhysicalAddress × List UInt8)}

theorem Placed.has (h : s.Placed n bytes resolved) : s.Has n bytes.length := by
  induction h with
  | nil => exact fun k hk => absurd hk (Nat.not_lt_zero k)
  | @cons n pa piece bytes rest _ hside _ ih =>
    intro k hk
    rw [List.length_append] at hk
    by_cases hlt : k < piece.length
    · rw [hside k hlt]
      rfl
    · have hlater := ih (k - piece.length) (by omega)
      rwa [Nat.add_assoc, Nat.add_sub_cancel' (Nat.le_of_not_lt hlt)] at hlater

/-- To write the pieces is to store the bytes. -/
theorem Placed.forEach (h : s.Placed n bytes resolved)
    (hhas : ∀ frame ∈ s.frames, m.ram.hasFrame frame.number) :
    Routine.forEach (ε := CopyError) (fun (pa, piece) => access (·.write pa piece)) resolved m =
      .done () { m with ram := s.store m.ram n bytes } [] := by
  induction h generalizing m with
  | nil => rfl
  | @cons n pa piece bytes rest hne hside _ ih =>
    have hholds : m.ram.Holds pa.toNat (pa.toNat + piece.length) := by
      intro i hi hi'
      obtain ⟨frame, hframe, hnumber⟩ :=
        exists_frame_of_locate? (hside (i - pa.toNat) (by omega))
      rw [Nat.add_sub_cancel' hi] at hnumber
      exact hnumber ▸ hhas frame hframe
    have hwrite : (access (·.write pa piece) : Routine Memory CopyError Unit) m =
        .done () { m with ram := s.store m.ram n piece } [] := by
      simp only [access, Ram.write_eq_ok hne hholds, store_eq_setBytes hside]
    have hlater := ih (m := { m with ram := s.store m.ram n piece }) (fun frame hframe => by
      rw [keeps_store.extent]
      exact hhas frame hframe)
    rw [Routine.forEach, Routine.bind_of_ok hwrite, hlater, store_append]
    rfl

/-- The lowest of `length` user addresses at which the space has no byte. -/
def IsFirstGap (s : AddressSpace) (n length gap : Nat) : Prop :=
  IsLeast {i | n ≤ i ∧ i < n + length ∧ s.locate? i = none} gap

theorem IsFirstGap.of_has {length length' gap : Nat} (h : s.IsFirstGap (n + length) length' gap)
    (hall : s.Has n length) : s.IsFirstGap n (length + length') gap := by
  obtain ⟨⟨hlow, hhigh, hnone⟩, hleast⟩ := h
  refine ⟨⟨by omega, by omega, hnone⟩, ?_⟩
  rintro i ⟨hi, hi', hgap⟩
  by_cases hlt : i < n + length
  · exact absurd hgap (hall.ne_none hi hlt)
  · exact hleast ⟨by omega, by omega, hgap⟩

/-- What is left of a byte string after a piece begins where the piece ends: a string that does not
pass the end of all addresses does not wrap around either. -/
theorem toNat_wrappingAdd_of_drop_ne_nil {room : Nat}
    (hfits : a.toNat + bytes.length ≤ 0x100000000) (hmore : bytes.drop room ≠ []) :
    (a.wrappingAdd room).toNat = a.toNat + (bytes.take room).length := by
  have hlt : room < bytes.length := by simpa using hmore
  rw [List.length_take_of_le (Nat.le_of_lt hlt)]
  exact Nat.mod_eq_of_lt (by omega)

/-- The pieces of a byte string are placed, or the lowest address at which the space has no byte is
found. -/
theorem resolvePieces_cases (hn : bytes ≠ [] → a.toNat = n)
    (hfits : n + bytes.length ≤ 0x100000000) :
    (∃ resolved, s.resolvePieces (pieces a bytes) = .ok resolved ∧ s.Placed n bytes resolved) ∨
      ∃ gap, s.resolvePieces (pieces a bytes) = .error (.unmapped gap) ∧
        s.IsFirstGap n bytes.length gap.toNat := by
  revert n
  fun_induction pieces a bytes with
  | case1 =>
    intro n _ _
    exact .inl ⟨[], rfl, .nil n⟩
  | case2 a b rest room =>
    rename_i ih
    intro n hn hfits
    obtain rfl := hn (List.cons_ne_nil b rest)
    have hne : (b :: rest).take room ≠ [] := by simp [room, a.offset.room_pos.ne']
    have hle : ((b :: rest).take room).length ≤ room := List.length_take_le _ _
    have hlength : ((b :: rest).take room).length + ((b :: rest).drop room).length =
        (b :: rest).length := by rw [← List.length_append, List.take_append_drop]
    cases ha : s.translate a with
    | none =>
      refine .inr ⟨a, by simp [resolvePieces, resolve, ha, bind, Except.bind], ?_⟩
      refine ⟨⟨Nat.le_refl _, by simp, ?_⟩, fun i hi => hi.1⟩
      rw [locate?_toNat, ha, Option.map_none]
    | some pa =>
      have hside : ∀ k < ((b :: rest).take room).length,
          s.locate? (a.toNat + k) = some (pa.toNat + k) :=
        fun k hk => locate?_add ha (Nat.lt_of_lt_of_le hk hle)
      rcases ih (toNat_wrappingAdd_of_drop_ne_nil hfits) (by omega) with ⟨resolved, hok, hplaced⟩ | ⟨gap, herror, hgap⟩
      · refine .inl ⟨(pa, (b :: rest).take room) :: resolved, ?_, ?_⟩
        · simp only [resolvePieces, resolve, ha, hok]
          rfl
        · have hcons := Placed.cons hne hside hplaced
          rwa [List.take_append_drop] at hcons
      · refine .inr ⟨gap, ?_, ?_⟩
        · simp only [resolvePieces, resolve, ha, herror]
          rfl
        · rw [← hlength]
          refine hgap.of_has fun k hk => ?_
          rw [hside k hk]
          rfl

/-- The bytes of a string that is not empty are placed if the space has a byte for each of them. If
not, the address is reported if the string passes the end of all addresses, and else the lowest one
without a byte. -/
theorem placeBytes_cases (hne : bytes ≠ []) :
    (∃ resolved, s.placeBytes a bytes = .ok resolved ∧ s.Placed a.toNat bytes resolved) ∨
      ¬ s.Has a.toNat bytes.length ∧ ∃ gap, s.placeBytes a bytes = .error (.unmapped gap) ∧
        if 0x100000000 < a.toNat + bytes.length then gap = a
        else s.IsFirstGap a.toNat bytes.length gap.toNat := by
  have hpos : 0 < bytes.length := List.length_pos_iff.mpr hne
  unfold placeBytes Address.add? Address.ofNat?
  by_cases hpast : 0x100000000 < a.toNat + bytes.length
  · refine .inr ⟨fun hall => ?_, a, by rw [dif_neg (by omega)], by rw [if_pos hpast]⟩
    have hnone := s.locate?_eq_none_of_le (n := a.toNat + (bytes.length - 1)) (by omega)
    exact hall.ne_none (by omega) (by omega) hnone
  rw [dif_pos (by omega)]
  simp only [if_neg hpast]
  rcases s.resolvePieces_cases (fun _ => rfl) (Nat.le_of_not_lt hpast) with
    ⟨resolved, hok, hplaced⟩ | ⟨gap, herror, hgap⟩
  · refine .inl ⟨resolved, ?_, hplaced⟩
    -- the last byte was placed with the others
    obtain ⟨p, hp⟩ := Option.isSome_iff_exists.mp (hplaced.has (bytes.length - 1) (by omega))
    obtain ⟨last, pa, hlast, hsum, -⟩ := locate?_eq_some.mp hp
    have hsame : (⟨a.toNat + (bytes.length - 1), by omega⟩ : VirtualAddress) = last :=
      Address.ext hsum.symm
    simp only [hok, hsame, resolve, hlast]
    rfl
  · refine .inr ⟨fun hall => ?_, gap, by rw [herror]; rfl, hgap⟩
    obtain ⟨hlow, hhigh, hnone⟩ := hgap.1
    exact hall.ne_none hlow hhigh hnone

/-- A byte string is copied to a space that has a byte for each of its bytes as if its bytes were
stored one by one. If the space lacks one, nothing is changed. -/
theorem write_cases (hhas : ∀ frame ∈ s.frames, m.ram.hasFrame frame.number) :
    s.Has a.toNat bytes.length ∧
        s.write bytes a m = .done () { m with ram := s.store m.ram a.toNat bytes } [] ∨
      ¬ s.Has a.toNat bytes.length ∧ ∃ gap, s.write bytes a m = .error (.unmapped gap) m [] ∧
        if 0x100000000 < a.toNat + bytes.length then gap = a
        else s.IsFirstGap a.toNat bytes.length gap.toNat := by
  by_cases hne : bytes = []
  · subst hne
    exact .inl ⟨fun k hk => absurd hk (Nat.not_lt_zero k), rfl⟩
  unfold write
  rw [if_neg hne]
  rcases s.placeBytes_cases hne with ⟨resolved, hok, hplaced⟩ | ⟨hlacks, gap, herror, hgap⟩
  · have hfound : (Routine.ofExcept (s.placeBytes a bytes) : Routine Memory CopyError _) m =
        ⟨.ok resolved, m, []⟩ := by rw [hok]; rfl
    refine .inl ⟨hplaced.has, (Routine.bind_of_ok hfound).trans ?_⟩
    rw [hplaced.forEach hhas]
    rfl
  · have hfail : (Routine.ofExcept (s.placeBytes a bytes) : Routine Memory CopyError _) m =
        ⟨.error (.error (.unmapped gap)), m, []⟩ := by rw [herror]; rfl
    exact .inr ⟨hlacks, gap, Routine.bind_of_error hfail, hgap⟩

end Pieces

end AddressSpace

end MipsVM
