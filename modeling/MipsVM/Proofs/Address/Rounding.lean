import Mathlib.Order.Bounds.Basic
import MipsVM.Address.Checked

/-!
# Rounding and multiples

To round a number by a division is to take the next multiple of the divisor, downwards or upwards.
The mask of a power of two does the same in a 32-bit word. On the way up the sum with the slack can
leave the word before the low bits are cleared; since the range of the word is itself a multiple of
the boundary, this happens only where the rounded number is no word either.

## Main statements

- `isGreatest_roundedDown`, `isLeast_roundedUp`: the rounded number among the multiples
- `roundedDown_lt_iff`: rounding down does not cross a multiple
- `roundUp?_word`: rounding up to whole words of four bytes
- `rounds_exactly`: the rounding functions find the next multiples of every power of two, and no
  multiple is missed at the end of the word
-/

namespace MipsVM

variable {a x : Nat}

theorem isGreatest_roundedDown (ha : 0 < a) (x : Nat) :
    IsGreatest {n | a ∣ n ∧ n ≤ x} (x / a * a) := by
  refine ⟨⟨Nat.dvd_mul_left a _, Nat.div_mul_le_self x a⟩, ?_⟩
  rintro n ⟨⟨k, rfl⟩, hle⟩
  have hk : k ≤ x / a := (Nat.le_div_iff_mul_le ha).mpr (by rwa [Nat.mul_comm])
  calc a * k = k * a := Nat.mul_comm a k
    _ ≤ x / a * a := Nat.mul_le_mul_right a hk

theorem isLeast_roundedUp (ha : 0 < a) (x : Nat) :
    IsLeast {n | a ∣ n ∧ x ≤ n} ((x + (a - 1)) / a * a) := by
  have hrest := Nat.mod_lt (x + (a - 1)) ha
  have hsplit := Nat.div_add_mod' (x + (a - 1)) a
  refine ⟨⟨Nat.dvd_mul_left a _, by omega⟩, ?_⟩
  rintro n ⟨⟨k, rfl⟩, hle⟩
  have hk : (x + (a - 1)) / a ≤ k := by
    apply Nat.lt_succ_iff.mp
    rw [Nat.div_lt_iff_lt_mul ha, Nat.succ_mul, Nat.mul_comm k a]
    omega
  calc (x + (a - 1)) / a * a ≤ k * a := Nat.mul_le_mul_right a hk
    _ = a * k := Nat.mul_comm k a

/-- A number and the multiple it rounds down to lie on the same side of every multiple. -/
theorem roundedDown_lt_iff {w : Nat} (ha : 0 < a) (hw : a ∣ w) : x / a * a < w ↔ x < w := by
  constructor
  · intro h
    apply Nat.lt_of_not_le
    intro hle
    have hgreatest : w ≤ x / a * a := (isGreatest_roundedDown ha x).2 ⟨hw, hle⟩
    exact Nat.not_lt_of_le hgreatest h
  · exact Nat.lt_of_le_of_lt (Nat.div_mul_le_self x a)

theorem roundUp?_word : roundUp? x 4 = if x + 3 < 0x100000000 then some ((x + 3) / 4 * 4) else none :=
  roundUp?_two_pow (k := 2) (by decide)

section PowerOfTwo

variable (ha : a.isPowerOfTwo) (hfits : a < 0x100000000)

include ha hfits

theorem exists_shiftLeft : ∃ k ≤ 32, a = 1 <<< k := by
  obtain ⟨k, rfl⟩ := ha
  refine ⟨k, ?_, (Nat.one_shiftLeft k).symm⟩
  exact (Nat.pow_le_pow_iff_right (by decide)).mp (Nat.le_of_lt hfits : 2 ^ k ≤ 2 ^ 32)

theorem roundDown_of_isPowerOfTwo (hx : x < 0x100000000) : roundDown x a = x / a * a := by
  obtain ⟨k, hk, rfl⟩ := exists_shiftLeft ha hfits
  exact roundDown_two_pow hx hk

/-- Rounding up to a power of two succeeds exactly when the rounded number is a word. -/
theorem roundUp?_of_isPowerOfTwo : roundUp? x a = word? ((x + (a - 1)) / a * a) := by
  obtain ⟨k, hk, rfl⟩ := exists_shiftLeft ha hfits
  have hpos : 0 < 1 <<< k := Nat.pos_of_isPowerOfTwo ha
  have hdvd : 1 <<< k ∣ 0x100000000 := by
    rw [Nat.one_shiftLeft]
    exact Nat.pow_dvd_pow 2 hk
  rw [roundUp?_two_pow hk, word?]
  simp only [roundedDown_lt_iff hpos hdvd]

end PowerOfTwo

/-- To every power of two that is a word, each word is rounded down to the greatest multiple that is
not above it, and rounded up to the least multiple that is not below it; the latter is missing
exactly when that multiple is not a word. -/
theorem rounds_exactly (ha : a.isPowerOfTwo) (hfits : a < 0x100000000) (hx : x < 0x100000000) :
    checkedRoundDown x a = .ok (roundDown x a) ∧
      IsGreatest {n | a ∣ n ∧ n ≤ x} (roundDown x a) ∧
      checkedRoundUp? x a = .ok (roundUp? x a) ∧
      ∃ n, IsLeast {n | a ∣ n ∧ x ≤ n} n ∧
        roundUp? x a = if n < 0x100000000 then some n else none := by
  have hpos : 0 < a := Nat.pos_of_isPowerOfTwo ha
  have hne : a ≠ 0 := Nat.ne_of_gt hpos
  refine ⟨if_neg hne, ?_, if_neg hne, _, isLeast_roundedUp hpos x, ?_⟩
  · rw [roundDown_of_isPowerOfTwo ha hfits hx]
    exact isGreatest_roundedDown hpos x
  · exact roundUp?_of_isPowerOfTwo ha hfits

/-- In the last page of the address space only its first byte can be rounded up to a page. -/
theorem rounds_exactly_last_page :
    (4096).isPowerOfTwo ∧
      checkedRoundDown 0xFFFFF001 4096 = .ok 0xFFFFF000 ∧
      IsGreatest {n | 4096 ∣ n ∧ n ≤ 0xFFFFF001} 0xFFFFF000 ∧
      checkedRoundUp? 0xFFFFF001 4096 = .ok none ∧
      checkedRoundUp? 0xFFFFF000 4096 = .ok (some 0xFFFFF000) := by
  have hpage : (4096).isPowerOfTwo := ⟨12, rfl⟩
  obtain ⟨hdown, hgreatest, hup, n, hleast, hn⟩ :=
    rounds_exactly (x := 0xFFFFF001) hpage (by decide) (by decide)
  obtain ⟨-, -, hup', n', hleast', hn'⟩ :=
    rounds_exactly (x := 0xFFFFF000) hpage (by decide) (by decide)
  obtain rfl := (isLeast_roundedUp (by decide) 0xFFFFF001).unique hleast
  obtain rfl := (isLeast_roundedUp (by decide) 0xFFFFF000).unique hleast'
  exact ⟨hpage, hdown, hgreatest, hup.trans (congrArg _ hn), hup'.trans (congrArg _ hn')⟩

end MipsVM
