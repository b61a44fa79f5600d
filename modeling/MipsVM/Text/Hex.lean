/-!
# Hexadecimal text

Addresses, access lengths, bytes and digests are written in hexadecimal, each in a fixed form.

## Main definitions

- `hexLower`, `hexUpper`: as many digits as the number needs, at least one
- `hexWord`: a 32-bit word as eight upper-case digits
- `hexDigest`: a 64-bit word as sixteen lower-case digits
- `hexBytes`: two lower-case digits for each byte
- `bytesOfHex?`: the byte string of such a text

## Main statements

- `bytesOfHex?_hexBytes`: a byte string is read back from its digits
-/

namespace MipsVM.Text

/-- The lower-case hexadecimal digits of a number, without leading zeros. -/
def hexLower (n : Nat) : String :=
  String.ofList (Nat.toDigits 16 n)

/-- The upper-case hexadecimal digits of a number, without leading zeros. -/
def hexUpper (n : Nat) : String :=
  String.ofList ((Nat.toDigits 16 n).map Char.toUpper)

/-- A text filled up with zeros on the left to `width` characters. -/
def padZeros (width : Nat) (text : String) : String :=
  String.ofList (List.replicate (width - text.length) '0') ++ text

/-- A 32-bit word as `0x` and eight upper-case digits. -/
def hexWord (n : Nat) : String :=
  "0x" ++ padZeros 8 (hexUpper n)

/-- A 64-bit digest as sixteen lower-case digits. -/
def hexDigest (n : UInt64) : String :=
  padZeros 16 (hexLower n.toNat)

/-- The two lower-case digits of a byte. -/
def hexByte (b : UInt8) : List Char :=
  [Nat.digitChar (b.toNat / 16), Nat.digitChar (b.toNat % 16)]

/-- A byte string as two lower-case digits for each byte. -/
def hexBytes (bytes : List UInt8) : String :=
  String.ofList (bytes.flatMap hexByte)

/-- The value of a hexadecimal digit. -/
def hexValue? (c : Char) : Option Nat :=
  if '0' ≤ c ∧ c ≤ '9' then some (c.toNat - 48)
  else if 'a' ≤ c ∧ c ≤ 'f' then some (c.toNat - 87)
  else if 'A' ≤ c ∧ c ≤ 'F' then some (c.toNat - 55)
  else none

/-- The bytes of pairs of hexadecimal digits. -/
def bytesOfDigits? : List Char → Option (List UInt8)
  | [] => some []
  | [_] => none
  | high :: low :: rest => do
    let high ← hexValue? high
    let low ← hexValue? low
    let bytes ← bytesOfDigits? rest
    pure (.ofNat (high * 16 + low) :: bytes)

/-- The byte string of a text of two hexadecimal digits for each byte. -/
def bytesOfHex? (text : String) : Option (List UInt8) :=
  bytesOfDigits? text.toList

/-- The digits of a byte are read back. -/
theorem bytesOfDigits?_hexByte (b : UInt8) (digits : List Char) :
    bytesOfDigits? (hexByte b ++ digits) = (bytesOfDigits? digits).map (b :: ·) := by
  have value : ∀ n < 16, hexValue? (Nat.digitChar n) = some n := by decide
  have := b.toNat_lt
  have high : hexValue? (Nat.digitChar (b.toNat / 16)) = some (b.toNat / 16) :=
    value _ (by omega)
  have low : hexValue? (Nat.digitChar (b.toNat % 16)) = some (b.toNat % 16) :=
    value _ (by omega)
  have join : b.toNat / 16 * 16 + b.toNat % 16 = b.toNat := by omega
  show (bytesOfDigits? (Nat.digitChar (b.toNat / 16) :: Nat.digitChar (b.toNat % 16) :: digits)) = _
  simp only [bytesOfDigits?, high, low, join, UInt8.ofNat_toNat, Option.bind_eq_bind,
    Option.bind_some]
  cases bytesOfDigits? digits <;> rfl

/-- A byte string is read back from its digits. -/
theorem bytesOfHex?_hexBytes (bytes : List UInt8) : bytesOfHex? (hexBytes bytes) = some bytes := by
  simp only [bytesOfHex?, hexBytes, String.toList_ofList]
  induction bytes with
  | nil => rfl
  | cons b rest ih => rw [List.flatMap_cons, bytesOfDigits?_hexByte, ih, Option.map_some]

end MipsVM.Text
