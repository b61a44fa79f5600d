import MipsVM.Address
import MipsVM.Panic

/-!
# Entries of the translation buffer

An entry is a pair of 32-bit registers. The high one is the tag: the number of the virtual page and
an address-space number that is not used here. The low one holds the number of the frame and four
flags; the entry translates only if its valid flag is set. The bits without a meaning are kept.

## Main definitions

- `EntryHi`, `EntryLo`: the two registers by their fields, with `toBits` and `ofBits`
- `TlbEntry`: the pair
- `TlbEntry.unused`: the entry that a slot holds while it is not in use

## Main statements

- `EntryHi.ofBits_toBits`, `EntryHi.toBits_ofBits`, and the same for `EntryLo`: registers and
  fields correspond one to one
- `TlbEntry.page_unused`: no two slots hold the same tag while they are not in use
-/

namespace MipsVM

/-- The high register of an entry: its tag. -/
structure EntryHi where
  /-- The low six bits, which mean nothing. -/
  reserved : Fin 64
  /-- The address-space number. -/
  pid : Fin 64
  page : VirtualPage
  deriving DecidableEq

/-- The low register of an entry: where it leads. -/
structure EntryLo where
  /-- The low eight bits, which mean nothing. -/
  reserved : Fin 256
  /-- The address-space number is ignored. -/
  global : Bool
  /-- The entry translates. -/
  valid : Bool
  /-- Writes are allowed. -/
  dirty : Bool
  /-- The cache is bypassed. -/
  noCache : Bool
  frame : PhysicalPage
  deriving DecidableEq

/-- A page number for a register field of 20 bits. -/
def Page.ofField {k : AddressKind} (number : Nat) : Except Panic (Page k) :=
  if h : number < 0x100000 then .ok ⟨number, h⟩ else .error (.fieldOverflow 0xFFFFF)

namespace EntryHi

/-- The tag of a page. -/
def ofPage (page : VirtualPage) : EntryHi :=
  ⟨0, 0, page⟩

/-- The tag of all zero bits. -/
def zero : EntryHi :=
  ofPage (.ofNumber 0)

/-- The register. -/
def toBits (hi : EntryHi) : Nat :=
  hi.reserved + hi.pid * 64 + hi.page.number * 4096

/-- The fields of a register. -/
def ofBits (n : Nat) : EntryHi :=
  ⟨⟨n % 64, Nat.mod_lt _ (by decide)⟩, ⟨n / 64 % 64, Nat.mod_lt _ (by decide)⟩,
    .ofNumber (n / 4096)⟩

/-- The same tag with another address-space number. -/
def withPid (hi : EntryHi) (pid : Nat) : Except Panic EntryHi :=
  if h : pid < 64 then .ok { hi with pid := ⟨pid, h⟩ } else .error (.fieldOverflow 63)

/-- The same tag with another page number. -/
def withPage (hi : EntryHi) (number : Nat) : Except Panic EntryHi := do
  let page ← Page.ofField number
  pure { hi with page := page }

/-- The tag in words. -/
def describe (hi : EntryHi) : String :=
  s!"EntryHi \x7b pid: {hi.pid.val}, vpn: {hi.page.number} \x7d"

@[simp] theorem ofBits_toBits (hi : EntryHi) : ofBits hi.toBits = hi := by
  obtain ⟨⟨r, hr⟩, ⟨p, hp⟩, ⟨n, hn⟩⟩ := hi
  simp only [ofBits, toBits, Page.ofNumber, EntryHi.mk.injEq, Fin.mk.injEq, Page.mk.injEq]
  omega

theorem toBits_ofBits {n : Nat} (h : n < 0x100000000) : (ofBits n).toBits = n := by
  simp only [ofBits, toBits, Page.ofNumber]
  omega

end EntryHi

namespace EntryLo

/-- A valid, writable way to a frame. -/
def ofFrame (frame : PhysicalPage) : EntryLo :=
  ⟨0, false, true, true, false, frame⟩

/-- The register of all zero bits. -/
def zero : EntryLo :=
  ⟨0, false, false, false, false, .ofNumber 0⟩

/-- The register. -/
def toBits (lo : EntryLo) : Nat :=
  lo.reserved + lo.global.toNat * 256 + lo.valid.toNat * 512 + lo.dirty.toNat * 1024
    + lo.noCache.toNat * 2048 + lo.frame.number * 4096

/-- The fields of a register. -/
def ofBits (n : Nat) : EntryLo :=
  ⟨⟨n % 256, Nat.mod_lt _ (by decide)⟩, n / 256 % 2 = 1, n / 512 % 2 = 1, n / 1024 % 2 = 1,
    n / 2048 % 2 = 1, .ofNumber (n / 4096)⟩

/-- The same register with another frame number. -/
def withFrame (lo : EntryLo) (number : Nat) : Except Panic EntryLo := do
  let frame ← Page.ofField number
  pure { lo with frame := frame }

/-- The register in words. -/
def describe (lo : EntryLo) : String :=
  s!"EntryLo \x7b global: {lo.global}, valid: {lo.valid}, dirty: {lo.dirty}, " ++
    s!"no_cache: {lo.noCache}, pfn: {lo.frame.number} \x7d"

@[simp] theorem ofBits_toBits (lo : EntryLo) : ofBits lo.toBits = lo := by
  obtain ⟨⟨r, hr⟩, g, v, d, c, ⟨n, hn⟩⟩ := lo
  have bit (b : Bool) (k : Nat) (h : k = b.toNat) : decide (k = 1) = b := by
    cases b <;> simp_all
  have := g.toNat_lt
  have := v.toNat_lt
  have := d.toNat_lt
  have := c.toNat_lt
  simp only [ofBits, toBits, Page.ofNumber, EntryLo.mk.injEq, Fin.mk.injEq, Page.mk.injEq]
  refine ⟨by omega, bit _ _ (by omega), bit _ _ (by omega), bit _ _ (by omega), bit _ _ (by omega),
    by omega⟩

theorem toBits_ofBits {n : Nat} (h : n < 0x100000000) : (ofBits n).toBits = n := by
  have bit (k : Nat) : (decide (n / k % 2 = 1)).toNat = n / k % 2 := by
    rcases Nat.mod_two_eq_zero_or_one (n / k) with h | h <;> simp [h]
  simp only [ofBits, toBits, Page.ofNumber, bit]
  omega

end EntryLo

/-- An entry of the translation buffer. -/
structure TlbEntry where
  hi : EntryHi
  lo : EntryLo
  deriving DecidableEq

namespace TlbEntry

/-- The number of the page that tags the unused slot 0. It lies in the kernel window, which is never
translated. -/
def firstUnusedPage : Nat := 0x80000

/-- The entry of a slot that is not in use. The slot number is taken as a 32-bit word. -/
def unused (slot : Nat) : Except Panic TlbEntry :=
  if firstUnusedPage + slot % 0x100000000 < 0x100000000 then do
    let page ← Page.ofField (firstUnusedPage + slot % 0x100000000)
    pure ⟨.ofPage page, .zero⟩
  else .error .addOverflow

/-- Whether the entry translates. -/
def isValid (e : TlbEntry) : Bool :=
  e.lo.valid

/-- The entry in words. -/
def describe (e : TlbEntry) : String :=
  if e.isValid then
    let writable := if e.lo.dirty then ", D" else ""
    s!"TlbEntry({e.hi.page.tagged} -> {e.lo.frame.tagged}{writable})"
  else "TlbEntry(invalid)"

/-- The tag of an unused slot is the page of the slot, counted from `firstUnusedPage`. -/
theorem page_unused {slot : Nat} {e : TlbEntry} (h : slot < 0x80000) (he : unused slot = .ok e) :
    e.hi.page.number = firstUnusedPage + slot := by
  have hmod : slot % 0x100000000 = slot := Nat.mod_eq_of_lt (by omega)
  have hlt : firstUnusedPage + slot < 0x100000 := by
    unfold firstUnusedPage
    omega
  rw [unused, hmod, if_pos (Nat.lt_trans hlt (by decide)), Page.ofField, dif_pos hlt] at he
  rw [← Except.ok.inj he]
  rfl

end TlbEntry

end MipsVM
