import MipsVM.Proofs.Frame.HandOut
import MipsVM.Proofs.Frame.Mirror

/-!
# Slot numbers and addresses

A slot number stands for the frame that lies so many pages above the first frame of the table. From
a number to the address of its frame, and back from any address in this frame, is the same
correspondence read in its two directions, for tables of any length. A table that was built in
memory has an address for each of its frames, and these fill the range that it gives for them.

## Main definitions

- `PhysicalRange.Has`: an address lies in a range

## Main statements

- `addressOf?_eq_some`: which address a number stands for
- `range_eq_ok`, `has_range_iff`: the range of a table whose frames end below the last page
- `numbers_addresses`: both directions, and the range of a table that was built
-/

namespace MipsVM

/-- The address lies in the range. -/
def PhysicalRange.Has (r : PhysicalRange) (a : PhysicalAddress) : Prop :=
  r.first ≤ a ∧ a < r.last

namespace FrameTable

variable {t : FrameTable} {index : Nat} {a b : PhysicalAddress}

theorem addressOf?_eq_some :
    t.addressOf? index = some b ↔
      index < t.total ∧ b.toNat = (t.first.number + index) * 4096 := by
  unfold addressOf?
  split
  · next hlt =>
    rw [Option.map_eq_some_iff]
    constructor
    · rintro ⟨frame, hframe, rfl⟩
      exact ⟨hlt, congrArg (· * 4096) (Page.add?_eq_some.mp hframe)⟩
    · rintro ⟨-, hb⟩
      have hword := b.isLt
      have hnumber : t.first.number + index < 0x100000 := by omega
      exact ⟨⟨_, hnumber⟩, Page.add?_eq_some.mpr rfl, Address.ext hb.symm⟩
  · next hge => simp [hge]

/-- The number of a frame is found from every address in it. -/
theorem indexOf?_of_addressOf? (h : t.addressOf? index = some b) (ha : a.page = b.page) :
    t.indexOf? a = some index := by
  obtain ⟨hlt, hb⟩ := addressOf?_eq_some.mp h
  have hnumber : a.page.number = b.toNat / 4096 := congrArg Page.number ha
  rw [indexOf?_eq_some]
  omega

/-- A number that is found from an address stands for the page of the address. -/
theorem addressOf?_of_indexOf? (h : t.indexOf? a = some index) :
    t.addressOf? index = some a.page.base := by
  obtain ⟨hlow, hindex, hlt⟩ := indexOf?_eq_some.mp h
  refine addressOf?_eq_some.mpr ⟨hlt, ?_⟩
  show a.page.number * 4096 = _
  rw [hindex, Nat.add_sub_cancel' hlow]

section Range

theorem range_eq_ok (h : t.first.number + t.total < 0x100000) :
    ∃ r, t.range = .ok r ∧ r.first = t.first.base ∧
      r.last.toNat = (t.first.number + t.total) * 4096 := by
  -- nothing is cut off the length of the range, and its end is a word
  have hlength : t.total * pageSize % 0x100000000 = t.total * 4096 :=
    Nat.mod_eq_of_lt (by unfold pageSize; omega)
  have hlast : t.first.base.toNat + t.total * 4096 < 0x100000000 := by
    have hbase : t.first.base.toNat = t.first.number * 4096 := rfl
    omega
  have hplus : t.first.base.plus (t.total * pageSize % 0x100000000) =
      .ok ⟨t.first.base.toNat + t.total * 4096, hlast⟩ := by
    rw [hlength, Address.plus, Address.add?, Address.ofNat?, dif_pos hlast]
  refine ⟨⟨t.first.base, _⟩, bind_eq_ok.mpr ⟨_, hplus, rfl⟩, rfl, ?_⟩
  exact (Nat.add_mul t.first.number t.total 4096).symm

/-- An address lies in the range of the table if it has a number there. -/
theorem has_range_iff {r : PhysicalRange} (hfirst : r.first = t.first.base)
    (hlast : r.last.toNat = (t.first.number + t.total) * 4096) :
    r.Has a ↔ (t.indexOf? a).isSome := by
  have hbase : r.first.toNat = t.first.number * 4096 := congrArg Address.toNat hfirst
  have hnumber : a.page.number = a.toNat / 4096 := rfl
  rw [Option.isSome_iff_exists]
  constructor
  · rintro ⟨hlow, hhigh⟩
    change r.first.toNat ≤ a.toNat at hlow
    change a.toNat < r.last.toNat at hhigh
    refine ⟨a.page.number - t.first.number, indexOf?_eq_some.mpr ⟨?_, rfl, ?_⟩⟩ <;> omega
  · rintro ⟨index, hindex⟩
    obtain ⟨hlow, rfl, hlt⟩ := indexOf?_eq_some.mp hindex
    constructor
    · show r.first.toNat ≤ a.toNat
      omega
    · show a.toNat < r.last.toNat
      omega

end Range

end FrameTable

namespace Memory

variable {m : Memory} {t : ResidentTable}

/-- The frames of a table that was built end at an address. -/
theorem number_add_total_lt (h : (buildTable m).outcome = .ok ())
    (ht : (buildTable m).state.allocator.table = some t) :
    t.first.number + t.total < 0x100000 := by
  obtain ⟨place, hplace, -, hstate⟩ := buildTable_of_ok h
  rw [hstate] at ht
  obtain rfl : place.table = t := Option.some.inj ht
  have hframes : (place.table.first.number + place.table.total) * 4096 ≤ _ :=
    (within_of_ofRange? hplace).frames
  have hword := m.allocator.early.rest.last.isLt
  omega

end Memory

namespace FrameTable

/-- For every table, numbers and addresses correspond in both directions. For a table that was built
in memory, whatever was asked of it since, the range of its frames exists and consists of the
addresses that have a number. -/
theorem numbers_addresses (t : FrameTable) :
    (∀ index b, t.addressOf? index = some b →
      ∀ a : PhysicalAddress, a.page = b.page → t.indexOf? a = some index) ∧
    (∀ a index, t.indexOf? a = some index → t.addressOf? index = some a.page.base) ∧
    ∀ (m : Memory) (built : ResidentTable) (requests : List TableRequest),
      (Memory.buildTable m).outcome = .ok () →
      (Memory.buildTable m).state.allocator.table = some built →
      t = stateAfter TableRequest.perform requests
        (built.load (Memory.buildTable m).state.ram) →
      ∃ r, t.range = .ok r ∧ ∀ a, r.Has a ↔ (t.indexOf? a).isSome := by
  refine ⟨fun index b h a ha => indexOf?_of_addressOf? h ha,
    fun a index h => addressOf?_of_indexOf? h, ?_⟩
  rintro m built requests hbuilt htable rfl
  obtain ⟨hfirst, htotal⟩ :=
    extent_stateAfter requests (built.load (Memory.buildTable m).state.ram)
  have hfit := Memory.number_add_total_lt hbuilt htable
  rw [ResidentTable.first_load] at hfirst
  rw [ResidentTable.total_load] at htotal
  rw [← hfirst, ← htotal] at hfit
  obtain ⟨r, hrange, hr, hlast⟩ := range_eq_ok hfit
  exact ⟨r, hrange, fun a => has_range_iff hr hlast⟩

/-- The third frame of a small table in memory, after two runs were handed out. -/
theorem numbers_addresses_small :
    let t := stateAfter TableRequest.perform [.alloc 2, .alloc 1]
      (Memory.smallTable.load Memory.small.ram)
    t.addressOf? 2 = some (.ofNat 0x13000) ∧ t.indexOf? (.ofNat 0x13ABC) = some 2 ∧
      ∃ r, t.range = .ok r ∧ r.Has (.ofNat 0x13ABC) := by
  intro t
  obtain ⟨hindex, -, hrange⟩ := numbers_addresses t
  obtain ⟨hfirst, htotal⟩ := extent_stateAfter [.alloc 2, .alloc 1]
    (Memory.smallTable.load Memory.small.ram)
  rw [ResidentTable.first_load] at hfirst
  rw [ResidentTable.total_load] at htotal
  have haddress : t.addressOf? 2 = some (.ofNat 0x13000) :=
    addressOf?_eq_some.mpr ⟨by rw [htotal]; decide, by rw [hfirst]; rfl⟩
  have hfound : t.indexOf? (.ofNat 0x13ABC) = some 2 := hindex _ _ haddress _ rfl
  obtain ⟨r, hr, hhas⟩ := hrange (.new ⟨16, Array.replicate 5 .zero, by decide⟩
    ⟨.ofNat 0x10000, .ofNat 0x15000⟩) Memory.smallTable [.alloc 2, .alloc 1] rfl rfl rfl
  exact ⟨haddress, hfound, r, hr, (hhas _).mpr (by rw [hfound]; rfl)⟩

end FrameTable

end MipsVM
