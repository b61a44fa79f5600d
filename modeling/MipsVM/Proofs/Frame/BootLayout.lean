import MipsVM.Proofs.Frame.Building
import MipsVM.Proofs.Frame.Stretch

/-!
# The layout of a new frame table

The slots of a new table begin at the first whole word of what is left of the early memory, and its
frames end with the last whole page. The number of frames is found by an estimate and two roundings.
Whatever the range, the slots fit below the frames, and the table is refused only if there is no
room for one slot and one frame.

## Main definitions

- `ResidentTable.Fills`: a table fills the memory between two addresses

## Main statements

- `fills_handedTo`: a table in its place fills the memory
- `buildTable_fills`: which tables are built, and what they look like
-/

namespace MipsVM

variable {low high : Nat}

/-- The table fills the memory from `low` up to `high`: its slots begin at `low`, its frames end at
`high`, each of them has an address, and all of them are free. -/
structure ResidentTable.Fills (t : ResidentTable) (ram : Ram) (low high : Nat) : Prop where
  nonempty : 1 ≤ t.total
  hasByte : ∀ a, t.HasByte a ↔ low ≤ a ∧ a < low + 4 * t.total
  slots_le : low + 4 * t.total ≤ t.first.base.toNat
  aligned : 4096 ∣ t.first.base.toNat
  frames : t.first.base.toNat + 4096 * t.total = high
  free : ∀ i < t.total, (t.load ram).slot i = .ok .free
  freeCount : t.freeCount = t.total
  address : ∀ i < t.total, ∃ a, (t.load ram).addressOf? i = some a ∧
    a.toNat = t.first.base.toNat + 4096 * i

/-- The slots lie in the memory that the table fills. -/
theorem ResidentTable.Fills.holds {t : ResidentTable} {ram ram' : Ram} (h : t.Fills ram' low high)
    (hholds : ram.Holds low high) : ram.Holds t.slotsAt.toNat t.slotsStop := by
  intro a hfirst hstop
  obtain ⟨hlow, hhigh⟩ := (h.hasByte a).mp ⟨hfirst, hstop⟩
  have hslots := h.slots_le
  have hframes := h.frames
  exact hholds a hlow (by omega)

/-- A table in its place has the addresses of the place. -/
theorem TablePlacement.table_numbers {p : TablePlacement}
    (h : p.numbers = (low, framesFrom low high, high)) :
    p.table.slotsAt.toNat = low ∧ p.table.first.base.toNat = framesFrom low high ∧
      p.table.total = (high - framesFrom low high) / 4096 := by
  rw [TablePlacement.numbers, Prod.mk.injEq, Prod.mk.injEq] at h
  obtain ⟨hslotsAt, hmanaged, hlast⟩ := h
  have haligned : framesFrom low high % 4096 = 0 := Nat.mul_mod_left _ 4096
  refine ⟨hslotsAt, ?_, ?_⟩
  · change p.managed.toNat / 4096 * 4096 = _
    omega
  · rw [← hmanaged, ← hlast]
    rfl

namespace Memory

variable {m : Memory} {p : TablePlacement}

theorem fills_handedTo (hnumbers : p.numbers = (low, framesFrom low high, high))
    (hhigh : 4096 ∣ high) (hframes : framesFrom low high < high) (hholds : m.ram.Holds low high) :
    p.table.Fills (m.handedTo p).ram low high := by
  obtain ⟨hat, hbase, htotal⟩ := TablePlacement.table_numbers hnumbers
  obtain ⟨hslots, hend, hpos⟩ := framesFrom_spec hhigh hframes
  rw [← htotal] at hslots hend hpos
  have hload : p.table.load (m.handedTo p).ram = .new p.table.total p.table.first := by
    refine load_handedTo (hholds.mono (Nat.le_of_eq hat.symm) ?_)
    rw [ResidentTable.slotsStop, hat]
    omega
  refine ⟨hpos, fun a => ?_, hslots.trans_eq hbase.symm, Nat.dvd_mul_left 4096 _, ?_,
    fun i hi => ?_, rfl, fun i hi => ?_⟩
  · rw [ResidentTable.HasByte, ResidentTable.slotsStop, hat]
  · rw [hbase]
    exact hend
  · rw [hload, FrameTable.slot_eq_ok]
    exact List.getElem?_replicate_of_lt hi
  · -- the last frame ends at an address, so each of them begins at one
    have hlast : p.last.toNat = high := congrArg (·.2.2) hnumbers
    have hword : p.last.toNat < 0x100000000 := p.last.isLt
    have hnumber : p.table.first.base.toNat = p.table.first.number * 4096 := rfl
    have hlt : p.table.first.number + i < 0x100000 := by omega
    refine ⟨Page.base ⟨p.table.first.number + i, hlt⟩, ?_, ?_⟩
    · rw [hload, FrameTable.addressOf?, FrameTable.total_new, if_pos hi]
      show ((p.table.first.add? i).map Page.base) = _
      rw [Page.add?, dif_pos hlt, Option.map_some]
    · show (p.table.first.number + i) * 4096 = _
      omega

theorem buildTable_of_none
    (hplace : TablePlacement.ofRange? m.allocator.early.rest = none) :
    buildTable m = .error .nothingToManage m [] := by
  rcases buildTable_cases m with he | ⟨-, place, hsome, -⟩
  · exact he
  · rw [hplace] at hsome
    cases hsome

theorem buildTable_of_some (hover : m.allocator.early.handedOver = false)
    (ht : m.allocator.table = none)
    (hplace : TablePlacement.ofRange? m.allocator.early.rest = some p) {offset : Nat}
    (hcheck : m.ram.check p.slotsAt p.slotBytes = .ok offset) :
    buildTable m = .done () (m.handedTo p) [.tableBuilt p.slotsAt p.total p.managed p.last] := by
  have hkept : (m.laid p).handedOver.allocator.table = none := ht
  rw [buildTable_of_laid (Bool.eq_false_iff.mp hover) (layTable_of_some hplace hcheck),
    putTable_of_none hkept]
  rfl

/-- Whatever range is left of the early memory, a table is laid over it if and only if some page
boundary has room for a slot below it and for a frame above it, and then the table fills the whole
words and pages of the range. It is put in charge if the range is there to be handed over and no
table is in charge. The sums that are formed on the way are those of numbers without a bound. -/
theorem buildTable_fills (m : Memory)
    (hlow : IsLeast {n | 4 ∣ n ∧ m.allocator.early.rest.first.toNat ≤ n} low)
    (hhigh : IsGreatest {n | 4096 ∣ n ∧ n ≤ m.allocator.early.rest.last.toNat} high)
    (hholds : m.ram.Holds low high) :
    ((TablePlacement.ofRange? m.allocator.early.rest).map TablePlacement.numbers =
      TablePlacement.unbounded? m.allocator.early.rest) ∧
    ((∃ b, 4096 ∣ b ∧ low + 4 ≤ b ∧ b + 4096 ≤ high) →
      ∃ t, (layTable m.allocator.early.rest m).outcome = .ok t ∧
        t.Fills (layTable m.allocator.early.rest m).state.ram low high ∧
        (m.allocator.early.handedOver = false → m.allocator.table = none →
          (buildTable m).outcome = .ok () ∧ (buildTable m).state.allocator.table = some t ∧
            t.Fills (buildTable m).state.ram low high)) ∧
    ((¬ ∃ b, 4096 ∣ b ∧ low + 4 ≤ b ∧ b + 4096 ≤ high) →
      layTable m.allocator.early.rest m = .error .nothingToManage m [] ∧
        buildTable m = .error .nothingToManage m []) := by
  obtain rfl := (isLeast_roundedUp (by decide) _).unique hlow
  obtain rfl := (isGreatest_roundedDown (by decide) _).unique hhigh
  have hnumbers := TablePlacement.ofRange?_numbers m.allocator.early.rest
  refine ⟨hnumbers, ?_⟩
  rw [← framesFrom_lt_iff hhigh.1.1]
  rw [TablePlacement.unbounded?] at hnumbers
  constructor
  · intro hroom
    rw [if_pos hroom, Option.map_eq_some_iff] at hnumbers
    obtain ⟨p, hplace, hp⟩ := hnumbers
    have hfills := fills_handedTo hp hhigh.1.1 hroom.2 hholds
    have hbytes : p.slotBytes = p.table.total * 4 := rfl
    have hpos := hfills.nonempty
    have hslots : m.ram.Holds p.slotsAt.toNat (p.slotsAt.toNat + p.slotBytes) := by
      rw [hbytes, Nat.mul_comm]
      exact hfills.holds hholds
    have hcheck := Ram.check_eq_ok (by omega) hslots
    rw [layTable_of_some hplace hcheck]
    refine ⟨p.table, rfl, hfills, fun hover ht => ?_⟩
    rw [buildTable_of_some hover ht hplace hcheck]
    exact ⟨rfl, rfl, hfills⟩
  · intro hno
    rw [if_neg hno, Option.map_eq_none_iff] at hnumbers
    exact ⟨layTable_of_none hnumbers, buildTable_of_none hnumbers⟩

/-- Memory of six frames, of which the range leaves out some bytes at both ends. -/
def ragged : Memory :=
  .new ⟨16, Array.replicate 6 .zero, by decide⟩ ⟨.ofNat 0x10002, .ofNat 0x15FFF⟩

theorem buildTable_fills_ragged :
    ∃ t, (buildTable ragged).outcome = .ok () ∧
      (buildTable ragged).state.allocator.table = some t ∧
        t.Fills (buildTable ragged).state.ram 0x10004 0x15000 := by
  have hlow : IsLeast {n | 4 ∣ n ∧ ragged.allocator.early.rest.first.toNat ≤ n} 0x10004 :=
    isLeast_roundedUp (by decide) 0x10002
  have hhigh : IsGreatest {n | 4096 ∣ n ∧ n ≤ ragged.allocator.early.rest.last.toNat} 0x15000 :=
    isGreatest_roundedDown (by decide) 0x15FFF
  have hholds : ragged.ram.Holds 0x10004 0x15000 :=
    ragged.ram.covers_range.mono (by decide) (by decide)
  obtain ⟨t, -, -, hbuilt⟩ :=
    (buildTable_fills ragged hlow hhigh hholds).2.1 ⟨0x11000, by decide⟩
  exact ⟨t, hbuilt rfl rfl⟩

end Memory

end MipsVM
