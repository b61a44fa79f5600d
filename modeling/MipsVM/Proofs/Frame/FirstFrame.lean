import MipsVM.Proofs.Frame.BootLayout

/-!
# The first frame of a new table

The managed frames are meant to begin at the first page boundary behind the slots. The place is
chosen before the number of slots is known, for a slot array that is too long by the pages the table
takes itself. If the surplus reaches past the boundary, one page between the slots and the frames
belongs to neither.

## Main definitions

- `ResidentTable.Starts`: where the frames of a table begin, seen from the end of its slots

## Main statements

- `framesFrom_boundary`: the frames begin at the boundary or one page later
- `Memory.buildTable_starts`: this holds of each table that is built
- `Memory.buildTable_skips`: a table that leaves out a page which could have been its first frame
-/

namespace MipsVM

variable {low high b : Nat}

section Boundary

/-- The frames begin less than a page behind the slots of the estimate. -/
theorem framesFrom_lt (low high : Nat) :
    framesFrom low high < low + (high - low) / 4096 * 4 + 4096 := by
  rw [framesFrom]
  omega

/-- The frames begin at the first page boundary behind the slots, or one page later if the slots of
the estimate end behind the boundary. -/
theorem framesFrom_boundary (hword : high < 0x100000000) (hhigh : 4096 ∣ high)
    (hframes : framesFrom low high < high)
    (hb : IsLeast {n | 4096 ∣ n ∧ low + 4 * ((high - framesFrom low high) / 4096) ≤ n} b) :
    (framesFrom low high = b ∨ framesFrom low high = b + 4096) ∧
      (framesFrom low high = b ↔ low + 4 * ((high - low) / 4096) ≤ b) := by
  obtain ⟨⟨hdvd, hstop⟩, hleast⟩ := hb
  obtain ⟨⟨hpage, hestimate⟩, hlowest⟩ :
      IsLeast {n | 4096 ∣ n ∧ low + (high - low) / 4096 * 4 ≤ n} (framesFrom low high) :=
    isLeast_roundedUp (a := 4096) (by decide) _
  obtain ⟨hslots, hend, -⟩ := framesFrom_spec hhigh hframes
  have hle : b ≤ framesFrom low high := hleast ⟨hpage, hslots⟩
  -- there are less than 2^20 pages, so the surplus of the estimate is at most one page of slots
  have hsurplus : framesFrom low high < b + 8192 := by
    have hup := framesFrom_lt low high
    omega
  constructor
  · omega
  · constructor
    · intro heq
      omega
    · intro hfit
      exact Nat.le_antisymm (hlowest ⟨hdvd, by omega⟩) hle

/-- There is room for the slot of a page that is left out only if there are at least 1023 frames
without it. -/
theorem le_frames_of_skipped (hhigh : 4096 ∣ high) (hframes : framesFrom low high < high)
    (hskip : framesFrom low high = b + 4096)
    (hroom : low + 4 * ((high - framesFrom low high) / 4096) + 4 ≤ b) :
    1023 ≤ (high - framesFrom low high) / 4096 := by
  obtain ⟨-, hend, -⟩ := framesFrom_spec hhigh hframes
  have hup := framesFrom_lt low high
  omega

end Boundary

/-- The frames of a table between `low` and `high` begin at `b`, the first page boundary behind its
slots, or leave out the page from there. -/
structure ResidentTable.Starts (t : ResidentTable) (low high b : Nat) : Prop where
  slots : t.slotsAt.toNat = low
  boundary : IsLeast {n | 4096 ∣ n ∧ low + 4 * t.total ≤ n} b
  first : t.first.base.toNat = b ∨ t.first.base.toNat = b + 4096
  first_iff : t.first.base.toNat = b ↔ low + 4 * ((high - low) / 4096) ≤ b
  usable : t.first.base.toNat = b + 4096 → low + 4 * (t.total + 1) ≤ b → 1023 ≤ t.total

theorem TablePlacement.starts {p : TablePlacement}
    (hnumbers : p.numbers = (low, framesFrom low high, high)) (hhigh : 4096 ∣ high)
    (hframes : framesFrom low high < high) : ∃ b, p.table.Starts low high b := by
  obtain ⟨hslots, hbase, htotal⟩ := table_numbers hnumbers
  have hlast : p.last.toNat = high := congrArg (·.2.2) hnumbers
  have hword : high < 0x100000000 := by
    rw [← hlast]
    exact p.last.isLt
  obtain ⟨b, hb⟩ : ∃ b, IsLeast {n | 4096 ∣ n ∧ low + 4 * p.table.total ≤ n} b :=
    ⟨_, isLeast_roundedUp (by decide) _⟩
  have hboundary := framesFrom_boundary (b := b) hword hhigh hframes (by rwa [← htotal])
  rw [← hbase] at hboundary
  refine ⟨b, hslots, hb, hboundary.1, hboundary.2, ?_⟩
  rw [hbase, htotal]
  intro hskip hroom
  exact le_frames_of_skipped hhigh hframes hskip (by omega)

namespace Memory

/-- Whatever range is left of the early memory, the frames of a table that is built begin at the
first page boundary behind its slots, unless the slots of the estimate reach past it. Then exactly
one page is left out, and this page could have been managed only in a table of 1023 frames or
more. -/
theorem buildTable_starts (m : Memory)
    (hlow : IsLeast {n | 4 ∣ n ∧ m.allocator.early.rest.first.toNat ≤ n} low)
    (hhigh : IsGreatest {n | 4096 ∣ n ∧ n ≤ m.allocator.early.rest.last.toNat} high)
    (h : (buildTable m).outcome = .ok ()) :
    ∃ t b, (buildTable m).state.allocator.table = some t ∧ t.Starts low high b := by
  obtain rfl := (isLeast_roundedUp (by decide) _).unique hlow
  obtain rfl := (isGreatest_roundedDown (by decide) _).unique hhigh
  obtain ⟨p, hplace, -, hstate⟩ := buildTable_of_ok h
  have hnumbers := TablePlacement.ofRange?_numbers m.allocator.early.rest
  rw [hplace, Option.map_some, TablePlacement.unbounded?, eq_comm,
    Option.ite_none_right_eq_some, Option.some.injEq] at hnumbers
  obtain ⟨⟨-, hframes⟩, hp⟩ := hnumbers
  obtain ⟨b, hstarts⟩ := TablePlacement.starts hp.symm hhigh.1.1 hframes
  exact ⟨p.table, b, by rw [hstate]; rfl, hstarts⟩

theorem buildTable_starts_ragged :
    ∃ t b, (buildTable ragged).state.allocator.table = some t ∧ t.Starts 0x10004 0x15000 b := by
  have hlow : IsLeast {n | 4 ∣ n ∧ ragged.allocator.early.rest.first.toNat ≤ n} 0x10004 :=
    isLeast_roundedUp (by decide) 0x10002
  have hhigh : IsGreatest {n | 4096 ∣ n ∧ n ≤ ragged.allocator.early.rest.last.toNat} 0x15000 :=
    isGreatest_roundedDown (by decide) 0x15FFF
  have hslots : ragged.ram.Holds 0x10004 0x10014 :=
    ragged.ram.covers_range.mono (by decide) (by decide)
  have hplace : TablePlacement.ofRange? ragged.allocator.early.rest =
      some ⟨.ofNat 0x10004, .ofNat 0x11000, .ofNat 0x15000⟩ := by
    decide
  have hbuilt := buildTable_of_some rfl rfl hplace (Ram.check_eq_ok (by decide) hslots)
  exact buildTable_starts ragged hlow hhigh (by rw [hbuilt]; rfl)

/-- Memory of 1025 frames, all of which are there to be managed. -/
def spacious : Memory :=
  .new ⟨16, Array.replicate 1025 .zero, by simp⟩ ⟨.ofNat 0x10000, .ofNat 0x411000⟩

/-- The slots of the table end four bytes below a page boundary, so that the page from there could
be managed too. Yet the frames begin one page later. -/
theorem buildTable_skips :
    ∃ t, (buildTable spacious).outcome = .ok () ∧
      (buildTable spacious).state.allocator.table = some t ∧ t.slotsAt.toNat = 0x10000 ∧
      IsLeast {n | 4096 ∣ n ∧ 0x10000 + 4 * t.total ≤ n} 0x11000 ∧
      0x10000 + 4 * (t.total + 1) ≤ 0x11000 ∧ t.first.base.toNat = 0x12000 := by
  have hslots : spacious.ram.Holds 0x10000 0x10FFC := by
    refine spacious.ram.covers_range.mono (by decide) ?_
    simp [spacious, Memory.new, Ram.range, Ram.size]
  have hplace : TablePlacement.ofRange? spacious.allocator.early.rest =
      some ⟨.ofNat 0x10000, .ofNat 0x12000, .ofNat 0x411000⟩ := by
    decide
  have hbuilt := buildTable_of_some rfl rfl hplace (Ram.check_eq_ok (by decide) hslots)
  rw [hbuilt]
  exact ⟨_, rfl, rfl, rfl, isLeast_roundedUp (by decide) 0x10FFC, by decide, rfl⟩

end Memory

end MipsVM
