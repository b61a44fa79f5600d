/-!
# Alignment of 32-bit words

Rounding to a boundary clears low bits with a mask. The mask of a boundary `a` in a 32-bit word is
`2 ^ 32 - a`; for a power of two this clears exactly the bits below it, and for any other boundary
the mask still says what is computed.

## Main definitions

- `word?`: a number, if it is a 32-bit word
- `roundDown`: clear the bits below the boundary
- `roundUp?`: round up, unless the sum leaves the 32-bit range
- `pagesToHold`: the number of pages that hold a given number of bytes

## Main statements

- `roundDown_two_pow`, `roundUp?_two_pow`: for a power of two these are the rounding functions of
  arithmetic
-/

namespace MipsVM

/-- The number `n`, if it is a 32-bit word. -/
def word? (n : Nat) : Option Nat :=
  if n < 0x100000000 then some n else none

/-- The bits of the word `x` that the mask of the boundary `a` keeps. -/
def roundDown (x a : Nat) : Nat :=
  x &&& (0x100000000 - a)

/-- The word `x` moved up to the boundary `a`, if `x + (a - 1)` is still a 32-bit word. -/
def roundUp? (x a : Nat) : Option Nat :=
  if x + (a - 1) < 0x100000000 then some (roundDown (x + (a - 1)) a) else none

/-- The number of whole pages that hold `bytes` bytes. -/
def pagesToHold (bytes : Nat) : Nat :=
  (bytes + 4095) / 4096

theorem word?_eq_some {n m : Nat} : word? n = some m ↔ n = m ∧ m < 0x100000000 := by
  unfold word?
  split
  · simp only [Option.some.injEq]
    omega
  · simp only [reduceCtorEq, false_iff]
    omega

/-- The mask of a power of two keeps the multiple of it and clears the rest. -/
theorem roundDown_two_pow {x k : Nat} (hx : x < 0x100000000) (hk : k ≤ 32) :
    roundDown x (1 <<< k) = x / 1 <<< k * 1 <<< k := by
  have hmask : 0x100000000 - 1 <<< k = (1 <<< (32 - k) - 1) * 1 <<< k := by
    rw [Nat.sub_mul, Nat.one_mul, Nat.one_shiftLeft, Nat.one_shiftLeft, ← Nat.pow_add,
      Nat.sub_add_cancel hk]
  unfold roundDown
  apply Nat.eq_of_testBit_eq
  intro i
  rw [hmask, Nat.one_shiftLeft, Nat.one_shiftLeft, Nat.testBit_and, Nat.testBit_mul_two_pow,
    Nat.testBit_mul_two_pow, Nat.testBit_two_pow_sub_one, Nat.testBit_div_two_pow]
  by_cases hi : k ≤ i
  · by_cases hi32 : i < 32
    · have : i - k < 32 - k := by omega
      simp [hi, this, Nat.sub_add_cancel hi]
    · have hle : 1 <<< 32 ≤ 1 <<< i := by
        rw [Nat.one_shiftLeft, Nat.one_shiftLeft]
        exact Nat.pow_le_pow_right (by decide) (Nat.le_of_not_lt hi32)
      have hlt : x < 1 <<< i := Nat.lt_of_lt_of_le hx hle
      rw [Nat.one_shiftLeft] at hlt
      have hbit : x.testBit i = false := Nat.testBit_lt_two_pow hlt
      simp [hi, hbit, Nat.sub_add_cancel hi]
  · simp [hi]

/-- Rounding up to a power of two succeeds exactly when the sum with the slack fits the word. -/
theorem roundUp?_two_pow {x k : Nat} (hk : k ≤ 32) :
    roundUp? x (1 <<< k) =
      if x + (1 <<< k - 1) < 0x100000000 then some ((x + (1 <<< k - 1)) / 1 <<< k * 1 <<< k)
      else none := by
  unfold roundUp?
  split
  · rw [roundDown_two_pow (by assumption) hk]
  · rfl

theorem roundDown_page {x : Nat} (hx : x < 0x100000000) : roundDown x 4096 = x / 4096 * 4096 :=
  roundDown_two_pow (k := 12) hx (by decide)

theorem roundUp?_page {x : Nat} :
    roundUp? x 4096 =
      if x + 4095 < 0x100000000 then some ((x + 4095) / 4096 * 4096) else none :=
  roundUp?_two_pow (k := 12) (by decide)

end MipsVM
