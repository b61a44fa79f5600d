/-!
# Protection of a region

Three flags in the low bits of a byte. They are kept with a region and not enforced. The other five
bits mean nothing and are kept as well.
-/

namespace MipsVM

/-- What may be done with the pages of a region. -/
structure Protection where
  readable : Bool
  writable : Bool
  executable : Bool
  /-- The high five bits, which mean nothing. -/
  reserved : Fin 32
  deriving DecidableEq

namespace Protection

/-- The protection of three flags. -/
def ofFlags (readable writable executable : Bool) : Protection :=
  ⟨readable, writable, executable, 0⟩

/-- The protection of all zero bits. -/
def zero : Protection :=
  ofFlags false false false

/-- The protection as a byte. -/
def toBits (p : Protection) : Nat :=
  p.readable.toNat + p.writable.toNat * 2 + p.executable.toNat * 4 + p.reserved * 8

/-- The protection of a byte. -/
def ofBits (n : Nat) : Protection :=
  ⟨n % 2 = 1, n / 2 % 2 = 1, n / 4 % 2 = 1, ⟨n / 8 % 32, Nat.mod_lt _ (by decide)⟩⟩

/-- The protection in words. -/
def describe (p : Protection) : String :=
  s!"Protection \x7b readable: {p.readable}, writable: {p.writable}, " ++
    s!"executable: {p.executable} \x7d"

theorem toBits_ofBits {n : Nat} (h : n < 256) : (ofBits n).toBits = n := by
  have bit (k : Nat) : (decide (k % 2 = 1)).toNat = k % 2 := by
    rcases Nat.mod_two_eq_zero_or_one k with h | h <;> simp [h]
  simp only [ofBits, toBits, bit]
  omega

end Protection

end MipsVM
