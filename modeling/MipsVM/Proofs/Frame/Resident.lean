import MipsVM.Frame.Resident
import MipsVM.Proofs.Ram

/-!
# The slots in memory

What was stored for the slots of a table is loaded again, nothing else in memory is changed by the
store, and what is loaded depends on nothing else in memory.

## Main definitions

- `ResidentTable.slotsStop`, `ResidentTable.HasByte`: the bytes of the slots

## Main statements

- `slots_load_store`, `load_store`: the slots that were stored are loaded
- `keeps_store`: a store changes the bytes of the slots only
- `load_congr`: a load reads the bytes of the slots only
- `store_load`: to store what was loaded changes nothing
- `store_store`: a store hides an earlier one
-/

namespace MipsVM

theorem length_flatMap_encode (slots : List Slot) :
    (slots.flatMap Slot.encode).length = 4 * slots.length := by
  induction slots with
  | nil => rfl
  | cons s rest ih =>
    rw [List.flatMap_cons, List.length_append, ih, Slot.length_encode, List.length_cons]
    omega

theorem getElem?_flatMap_encode (slots : List Slot) {i j : Nat} (hj : j < 4) :
    (slots.flatMap Slot.encode)[4 * i + j]? = slots[i]?.bind (·.encode[j]?) := by
  induction slots generalizing i with
  | nil => simp
  | cons s rest ih =>
    rw [List.flatMap_cons]
    cases i with
    | zero => rw [List.getElem?_append_left (by rw [Slot.length_encode]; omega)]; simp
    | succ i =>
      rw [List.getElem?_append_right (by rw [Slot.length_encode]; omega), Slot.length_encode,
        show 4 * (i + 1) + j - 4 = 4 * i + j by omega, ih, List.getElem?_cons_succ]

namespace ResidentTable

variable {t : ResidentTable} {ram ram' : Ram} {slots : List Slot}

/-- One past the last byte of the slots. -/
def slotsStop (t : ResidentTable) : Nat :=
  t.slotsAt.toNat + 4 * t.total

/-- The byte at an address belongs to a slot. -/
def HasByte (t : ResidentTable) (a : Nat) : Prop :=
  t.slotsAt.toNat ≤ a ∧ a < t.slotsStop

@[simp] theorem first_load : (t.load ram).first = t.first := rfl

@[simp] theorem freeCount_load : (t.load ram).freeCount = t.freeCount := rfl

theorem getElem?_slots_load {i : Nat} (hi : i < t.total) :
    (t.load ram).slots[i]? = some (t.slotAt ram i) := by
  simp [load, hi]

theorem load_congr (h : ∀ a, t.HasByte a → ram'.byteAt a = ram.byteAt a) :
    t.load ram' = t.load ram := by
  have hslots : (List.range t.total).map (t.slotAt ram') =
      (List.range t.total).map (t.slotAt ram) := by
    refine List.map_congr_left fun i hi => ?_
    rw [List.mem_range] at hi
    unfold HasByte slotsStop at h
    simp only [slotAt]
    rw [h _ (by omega), h _ (by omega), h _ (by omega), h _ (by omega)]
  rw [load, load, hslots]

theorem byteAt_of_slotAt (h : ∀ i < t.total, t.slotAt ram' i = t.slotAt ram i) {a : Nat}
    (ha : t.HasByte a) : ram'.byteAt a = ram.byteAt a := by
  unfold HasByte slotsStop at ha
  have hslot := congrArg Slot.encode (h ((a - t.slotsAt.toNat) / 4) (by omega))
  simp only [slotAt, Slot.encode_decode, List.cons.injEq, and_true] at hslot
  obtain ⟨h₀, h₁, h₂, h₃⟩ := hslot
  have hplace : a = t.slotsAt.toNat + 4 * ((a - t.slotsAt.toNat) / 4) +
      (a - t.slotsAt.toNat) % 4 := by omega
  have hcases : (a - t.slotsAt.toNat) % 4 = 0 ∨ (a - t.slotsAt.toNat) % 4 = 1 ∨
      (a - t.slotsAt.toNat) % 4 = 2 ∨ (a - t.slotsAt.toNat) % 4 = 3 := by omega
  rcases hcases with hj | hj | hj | hj <;> rw [hj] at hplace <;> rw [hplace] <;> assumption

theorem keeps_store (h : slots.length = t.total) :
    ram.Keeps (t.store ram slots) fun a => ¬ t.HasByte a := by
  refine (Ram.keeps_setBytes _ _).mono fun a ha => ?_
  unfold HasByte slotsStop at ha
  rw [length_flatMap_encode, h]
  omega

theorem slotAt_store {i : Nat} (hi : i < slots.length)
    (h : ram.Holds t.slotsAt.toNat (t.slotsAt.toNat + 4 * slots.length)) :
    t.slotAt (t.store ram slots) i = slots[i] := by
  have hholds : ram.Holds t.slotsAt.toNat
      (t.slotsAt.toNat + (slots.flatMap Slot.encode).length) := by
    rwa [length_flatMap_encode]
  have hbyte (j : Nat) (hj : j < 4) :
      (t.store ram slots).byteAt (t.slotsAt.toNat + 4 * i + j) = slots[i].encode[j] := by
    have hlt : 4 * i + j < (slots.flatMap Slot.encode).length := by
      rw [length_flatMap_encode]
      omega
    have hget := getElem?_flatMap_encode slots (i := i) hj
    rw [List.getElem?_eq_getElem hlt, List.getElem?_eq_getElem hi, Option.bind_some,
      List.getElem?_eq_getElem (by rwa [Slot.length_encode]), Option.some.injEq] at hget
    rw [store, Nat.add_assoc, Ram.byteAt_setBytes hholds hlt]
    exact hget
  have h₀ := hbyte 0 (by decide)
  have h₁ := hbyte 1 (by decide)
  have h₂ := hbyte 2 (by decide)
  have h₃ := hbyte 3 (by decide)
  rw [Nat.add_zero] at h₀
  simp only [slotAt]
  rw [h₀, h₁, h₂, h₃]
  exact Slot.decode_encode _

theorem slots_load_store (hlen : slots.length = t.total)
    (h : ram.Holds t.slotsAt.toNat t.slotsStop) : (t.load (t.store ram slots)).slots = slots := by
  apply List.ext_getElem?
  intro i
  by_cases hi : i < t.total
  · have hi' : i < slots.length := by omega
    have hholds : ram.Holds t.slotsAt.toNat (t.slotsAt.toNat + 4 * slots.length) := by
      rwa [hlen]
    rw [getElem?_slots_load hi, slotAt_store hi' hholds, List.getElem?_eq_getElem hi']
  · have htotal : (t.load (t.store ram slots)).slots.length = t.total := total_load t _
    rw [List.getElem?_eq_none (by omega), List.getElem?_eq_none (by omega)]

/-- A table of the same frames that was stored is loaded again. -/
theorem load_store (left : FrameTable) (hfirst : left.first = t.first)
    (htotal : left.total = t.total) (h : ram.Holds t.slotsAt.toNat t.slotsStop) :
    { t with freeCount := left.freeCount }.load (t.store ram left.slots) = left := by
  obtain ⟨first, slots, free⟩ := left
  subst hfirst
  exact congrArg (FrameTable.mk t.first · free) (slots_load_store htotal h)

/-- The bytes of the slots are what is stored for the slots that are loaded. -/
theorem flatMap_encode_load (t : ResidentTable) (ram : Ram) :
    (t.load ram).slots.flatMap Slot.encode = ram.bytesAt t.slotsAt.toNat (4 * t.total) := by
  have hslots (n : Nat) : ((List.range n).map (t.slotAt ram)).flatMap Slot.encode =
      ram.bytesAt t.slotsAt.toNat (4 * n) := by
    induction n with
    | zero => rfl
    | succ n ih =>
      have hslot : (t.slotAt ram n).encode = ram.bytesAt (t.slotsAt.toNat + 4 * n) 4 :=
        Slot.encode_decode ..
      rw [List.range_succ, List.map_append, List.flatMap_append, ih, List.map_singleton,
        List.flatMap_singleton, hslot, Ram.bytesAt, Ram.bytesAt, ← List.map_append,
        List.range'_append_1, Nat.mul_succ, Ram.bytesAt]
  exact hslots t.total

/-- To store the slots that are loaded changes nothing. -/
@[simp] theorem store_load (t : ResidentTable) (ram : Ram) :
    t.store ram (t.load ram).slots = ram := by
  rw [store, flatMap_encode_load, Ram.setBytes_bytesAt]

/-- A store hides an earlier one. -/
theorem store_store {slots' : List Slot} (hlen : slots.length = t.total)
    (hlen' : slots'.length = t.total) (h : ram.Holds t.slotsAt.toNat t.slotsStop) :
    t.store (t.store ram slots) slots' = t.store ram slots' := by
  refine Ram.setBytes_setBytes ?_ ?_
  · rwa [length_flatMap_encode, hlen]
  · rw [length_flatMap_encode, length_flatMap_encode, hlen, hlen']

end ResidentTable

end MipsVM
