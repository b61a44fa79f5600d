import Mathlib.Data.Option.Basic
import MipsVM.Frame.Early
import MipsVM.Frame.Placement
import MipsVM.Proofs.Address.Rounding
import MipsVM.Proofs.Routine

/-!
# Where early pages and the frame table lie

Both are carved from the bottom of what is left of a range: what is taken begins no lower than what
is left, and ends no higher.

## Main definitions

- `TablePlacement.Within`: the slots and the managed frames lie in a range, one after the other
- `TablePlacement.unbounded?`: the placement in numbers that have no bound

## Main statements

- `framesFrom_lt_iff`: the estimate of the number of frames refuses no range that has room for one
- `ofRange?_numbers`: the bound on addresses does not show in the placement
- `within_of_ofRange?`: the placement in a range lies within it
- `EarlyMemory.take_ends`: pages that are taken early lie within what is left
-/

namespace MipsVM

variable {low high : Nat}

/-- Where the frames begin, between two addresses: behind a slot for each page between them. -/
def framesFrom (low high : Nat) : Nat :=
  (low + (high - low) / 4096 * 4 + 4095) / 4096 * 4096

/-- The estimate leaves a frame if and only if there is room for one, and for its slot. -/
theorem framesFrom_lt_iff (hhigh : 4096 ∣ high) :
    (low < high ∧ framesFrom low high < high) ↔
      ∃ b, 4096 ∣ b ∧ low + 4 ≤ b ∧ b + 4096 ≤ high := by
  obtain ⟨k, rfl⟩ := hhigh
  constructor
  · rintro ⟨hlow, hframes⟩
    refine ⟨framesFrom low (4096 * k), Nat.dvd_mul_left 4096 _, ?_, ?_⟩ <;>
      simp only [framesFrom] at hframes ⊢ <;> omega
  · rintro ⟨b, ⟨j, rfl⟩, hslot, hframe⟩
    refine ⟨by omega, ?_⟩
    -- the slots for all pages between the addresses end before the last page begins
    have hestimate : low + (4096 * k - low) / 4096 * 4 ≤ 4096 * (k - 1) := by omega
    simp only [framesFrom]
    omega

/-- The slots of all frames fit below the frames, which end where the range does. -/
theorem framesFrom_spec (hhigh : 4096 ∣ high) (hframes : framesFrom low high < high) :
    low + 4 * ((high - framesFrom low high) / 4096) ≤ framesFrom low high ∧
      framesFrom low high + 4096 * ((high - framesFrom low high) / 4096) = high ∧
      0 < (high - framesFrom low high) / 4096 := by
  have hslots : low + (high - low) / 4096 * 4 ≤ framesFrom low high :=
    (isLeast_roundedUp (a := 4096) (by decide) _).1.2
  have hcount : (high - framesFrom low high) / 4096 ≤ (high - low) / 4096 :=
    Nat.div_le_div_right (by omega)
  have hdvd : 4096 ∣ high - framesFrom low high := Nat.dvd_sub hhigh (Nat.dvd_mul_left 4096 _)
  have hpages := Nat.mul_div_cancel' hdvd
  exact ⟨by omega, by omega, by omega⟩

namespace TablePlacement

variable {p : TablePlacement} {r : PhysicalRange}

/-- The placement in a range, in numbers that have no bound: where the slots begin, where the frames
begin, and where they end. -/
def unbounded? (r : PhysicalRange) : Option (Nat × Nat × Nat) :=
  let low := (r.first.toNat + 3) / 4 * 4
  let high := r.last.toNat / 4096 * 4096
  if low < high ∧ framesFrom low high < high then some (low, framesFrom low high, high) else none

/-- The three addresses of a placement. -/
def numbers (p : TablePlacement) : Nat × Nat × Nat :=
  (p.slotsAt.toNat, p.managed.toNat, p.last.toNat)

/-- Each sum is a word wherever it matters, so that the placement is the one in numbers. -/
theorem ofRange?_numbers (r : PhysicalRange) : (ofRange? r).map numbers = unbounded? r := by
  have hr := r.last.isLt
  have hsize : pageSize = 4096 := rfl
  ext1 place
  simp only [Option.map_eq_some_iff, ofRange?, hsize, roundDown_page hr, roundUp?_word,
    roundUp?_page, Option.bind_eq_bind, Option.bind_eq_some_iff, word?_eq_some,
    Option.guard_eq_some', Option.ite_none_right_eq_some, Option.pure_def, Option.some.injEq,
    unbounded?]
  generalize hlow : (r.first.toNat + 3) / 4 * 4 = low
  generalize hhigh : r.last.toNat / 4096 * 4096 = high
  -- all three addresses are words, so nothing is cut off
  have hnumbers (hroom : low < high) (hframes : framesFrom low high < high) :
      numbers ⟨.ofNat low, .ofNat (framesFrom low high), .ofNat high⟩ =
        (low, framesFrom low high, high) := by
    simp only [numbers, Address.ofNat, Prod.mk.injEq]
    omega
  constructor
  · rintro ⟨p, ⟨_, ⟨-, rfl⟩, -, hroom, _, ⟨rfl, -⟩, _, ⟨rfl, -⟩, _, ⟨-, rfl⟩, -, hframes, rfl⟩, rfl⟩
    exact ⟨⟨hroom, hframes⟩, (hnumbers hroom hframes).symm⟩
  · rintro ⟨⟨hroom, hframes⟩, rfl⟩
    refine ⟨_, ⟨low, ⟨by omega, rfl⟩, (), hroom, _, ⟨rfl, by omega⟩, _, ⟨rfl, by omega⟩, _,
      ⟨by omega, rfl⟩, (), hframes, rfl⟩, hnumbers hroom hframes⟩

/-- The slots lie at the bottom of the range, and at least one frame above them is managed. -/
structure Within (p : TablePlacement) (r : PhysicalRange) : Prop where
  first : r.first.toNat ≤ p.slotsAt.toNat
  slots : p.slotsAt.toNat + p.slotBytes ≤ p.managed.page.number * 4096
  frames : (p.managed.page.number + p.total) * 4096 ≤ r.last.toNat
  nonempty : 0 < p.total

end TablePlacement

theorem within_of_ofRange? {r : PhysicalRange} {p : TablePlacement}
    (h : TablePlacement.ofRange? r = some p) : p.Within r := by
  have hnumbers := TablePlacement.ofRange?_numbers r
  rw [h, Option.map_some, TablePlacement.unbounded?, eq_comm, Option.ite_none_right_eq_some,
    Option.some.injEq, TablePlacement.numbers, Prod.mk.injEq, Prod.mk.injEq] at hnumbers
  obtain ⟨⟨hroom, hframes⟩, hlow, hmanaged, hlast⟩ := hnumbers
  have hspec := framesFrom_spec (Nat.dvd_mul_left 4096 _) hframes
  have hpage : framesFrom ((r.first.toNat + 3) / 4 * 4) (r.last.toNat / 4096 * 4096) % 4096 = 0 :=
    Nat.mul_mod_left _ 4096
  rw [hmanaged, hlast] at hspec
  rw [hmanaged] at hpage
  have htotal : p.total = (p.last.toNat - p.managed.toNat) / 4096 := rfl
  have hbytes : p.slotBytes = p.total * 4 := rfl
  have hnumber : p.managed.page.number = p.managed.toNat / 4096 := rfl
  exact ⟨by omega, by omega, by omega, by omega⟩

namespace EarlyMemory

theorem fit?_bounds {m : EarlyMemory} {pages : Nat} {page : PhysicalPage} {stop : PhysicalAddress}
    (h : m.fit? pages = some (page, stop)) :
    m.next.toNat ≤ page.number * 4096 ∧ (page.number + pages) * 4096 = stop.toNat ∧
      stop.toNat ≤ m.last.toNat := by
  simp only [EarlyMemory.fit?, Option.bind_eq_bind, Option.bind_eq_some_iff, word?_eq_some,
    Option.guard_eq_some', Option.pure_def, Option.some.injEq, Prod.mk.injEq, Address.ofNat?,
    Option.dite_none_right_eq_some] at h
  obtain ⟨start, hstart, _, ⟨rfl, -⟩, _, ⟨rfl, -⟩, _, ⟨hlt, rfl⟩, -, hle, rfl, rfl⟩ := h
  have hpage : roundUp? m.next.toNat pageSize = _ := roundUp?_page
  rw [hpage, Option.ite_none_right_eq_some, Option.some.injEq] at hstart
  have hsize : pageSize = 4096 := rfl
  refine ⟨?_, ?_, hle⟩ <;> simp only [Address.ofNat, Address.page, hsize] at * <;> omega

/-- Pages are taken off the bottom of what is left, and nothing else is changed. -/
theorem take_ends (m : EarlyMemory) (pages : Nat) :
    (take pages).Ends m
      (fun page m' => 0 < pages ∧ m.next.toNat ≤ page.number * 4096 ∧
        (page.number + pages) * 4096 = m'.next.toNat ∧ m'.next.toNat ≤ m.last.toNat ∧
        m'.last = m.last ∧ m'.handedOver = m.handedOver)
      (fun _ m' => m' = m) (fun _ _ => False) := by
  unfold Routine.Ends take
  by_cases hover : m.handedOver
  · rw [if_pos hover]
    rfl
  · rw [if_neg hover]
    by_cases h0 : pages = 0
    · rw [if_pos h0]
      rfl
    · rw [if_neg h0]
      cases hfit : m.fit? pages with
      | none => rfl
      | some place =>
        obtain ⟨hlow, hstop, hlast⟩ := fit?_bounds hfit
        exact ⟨by omega, hlow, hstop, hlast, rfl, rfl⟩

end EarlyMemory

end MipsVM
