import MipsVM.Panic
import MipsVM.Layout
import MipsVM.Address.Rounding

/-!
# Address arithmetic that must not fail

Where the caller promises that a result exists, a missing one is a panic and not an option.

## Main definitions

- `checkedRoundDown`, `checkedRoundUp?`: rounding with a boundary that must not be zero
- `Address.plus`: the address above, which must exist
- `PageOffset.ofNat`: an offset, which must lie in the page
- `kernelAddress`, `physicalAddress?`: the direct-mapped kernel window
-/

namespace MipsVM

/-- Round down to a boundary; there is no boundary zero. -/
def checkedRoundDown (x a : Nat) : Except Panic Nat :=
  if a = 0 then .error .subtractOverflow else .ok (roundDown x a)

/-- Round up to a boundary if the result is a word; there is no boundary zero. -/
def checkedRoundUp? (x a : Nat) : Except Panic (Option Nat) :=
  if a = 0 then .error .subtractOverflow else .ok (roundUp? x a)

/-- The address `n` bytes above. -/
def Address.plus {k : AddressKind} (a : Address k) (n : Nat) : Except Panic (Address k) :=
  match a.add? n with
  | some b => .ok b
  | none => .error .addOverflow

/-- The offset of value `n`. -/
def PageOffset.ofNat (n : Nat) : Except Panic PageOffset :=
  if h : n < 4096 then .ok ⟨n, h⟩ else .error .offsetBeyondPage

/-- The kernel's virtual address of a physical address in the direct-mapped window. -/
def kernelAddress (a : PhysicalAddress) : Except Panic VirtualAddress :=
  if h : a.toNat < 0x20000000 then .ok ⟨a.toNat + 0x80000000, by omega⟩
  else .error .outsideKernelWindow

/-- The physical address behind a kernel address, if it lies in the direct-mapped window. -/
def physicalAddress? (a : VirtualAddress) : Option PhysicalAddress :=
  if h : 0x80000000 ≤ a.toNat ∧ a.toNat - 0x80000000 < 0x20000000 then
    some ⟨a.toNat - 0x80000000, by omega⟩
  else none

/-- The two directions of the window are inverse. -/
theorem physicalAddress?_kernelAddress {a : PhysicalAddress} {va : VirtualAddress}
    (h : kernelAddress a = .ok va) : physicalAddress? va = some a := by
  by_cases ha : a.toNat < 0x20000000
  · rw [kernelAddress, dif_pos ha] at h
    have hva : va.toNat = a.toNat + 0x80000000 := by rw [← Except.ok.inj h]
    have hin : 0x80000000 ≤ va.toNat ∧ va.toNat - 0x80000000 < 0x20000000 := by omega
    rw [physicalAddress?, dif_pos hin, Option.some.injEq]
    apply Address.ext
    show va.toNat - 0x80000000 = a.toNat
    omega
  · rw [kernelAddress, dif_neg ha] at h
    exact absurd h (by simp)

end MipsVM
