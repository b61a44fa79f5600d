import MipsVM.Text.Hex

/-!
# Addresses, pages and offsets

A 32-bit address is a page and an offset within it. Pages are 4096 bytes, so there are `2 ^ 20` of
them. The kind of an address (user or kernel virtual, physical, or neither) is part of its type and
cannot be mixed up; a page of physical memory is called a frame.

## Main definitions

- `Address`: a 32-bit address of a given kind
- `Page`: a page of a given kind, by its number
- `PageOffset`: a position within a page
- `Address.page`, `Address.offset`, `Page.join`: the split of an address and its inverse
- `Page.add?`, `Page.distanceFrom`: distances in pages

## Design notes

Addresses and page numbers are bounded natural numbers, so that facts about them are facts about
`Nat`. Arithmetic that could leave the range returns an option; nothing wraps.
-/

namespace MipsVM

/-- What an address names. -/
inductive AddressKind
  /-- A raw address, virtual or physical. -/
  | memory
  /-- A virtual address, user or kernel. -/
  | virtual
  /-- A physical address. -/
  | physical
  deriving DecidableEq

/-- The word that introduces a tagged address of this kind. -/
def AddressKind.addressTag : AddressKind → String
  | .memory => "MemoryAddress"
  | .virtual => "VA"
  | .physical => "PA"

/-- The word that introduces a tagged page of this kind. -/
def AddressKind.pageTag : AddressKind → String
  | .memory => "Page"
  | .virtual => "VPage"
  | .physical => "Frame"

/-- A 32-bit address. -/
structure Address (k : AddressKind) where
  toNat : Nat
  isLt : toNat < 0x100000000
  deriving DecidableEq

/-- A page, named by its number: the address of its first byte over 4096. -/
structure Page (k : AddressKind) where
  number : Nat
  isLt : number < 0x100000
  deriving DecidableEq

/-- A position within a page. -/
structure PageOffset where
  toNat : Nat
  isLt : toNat < 4096
  deriving DecidableEq

/-- A raw address. -/
abbrev MemoryAddress := Address .memory

/-- A virtual address. -/
abbrev VirtualAddress := Address .virtual

/-- A physical address. -/
abbrev PhysicalAddress := Address .physical

/-- A page of virtual memory. -/
abbrev VirtualPage := Page .virtual

/-- A frame: a page of physical memory. -/
abbrev PhysicalPage := Page .physical

namespace Address

variable {k : AddressKind}

@[ext] theorem ext {a b : Address k} (h : a.toNat = b.toNat) : a = b := by
  cases a; cases b; cases h; rfl

/-- The address whose value is the low 32 bits of `n`. -/
def ofNat (n : Nat) : Address k :=
  ⟨n % 0x100000000, Nat.mod_lt _ (by decide)⟩

/-- The address of value `n`, if `n` is a 32-bit word. -/
def ofNat? (n : Nat) : Option (Address k) :=
  if h : n < 0x100000000 then some ⟨n, h⟩ else none

instance : LE (Address k) := ⟨fun a b => a.toNat ≤ b.toNat⟩

instance : LT (Address k) := ⟨fun a b => a.toNat < b.toNat⟩

instance (a b : Address k) : Decidable (a ≤ b) := inferInstanceAs (Decidable (a.toNat ≤ b.toNat))

instance (a b : Address k) : Decidable (a < b) := inferInstanceAs (Decidable (a.toNat < b.toNat))

instance : Ord (Address k) := ⟨fun a b => compare a.toNat b.toNat⟩

/-- The page that contains the address. -/
def page (a : Address k) : Page k :=
  ⟨a.toNat / 4096, by have := a.isLt; omega⟩

/-- The position of the address within its page. -/
def offset (a : Address k) : PageOffset :=
  ⟨a.toNat % 4096, Nat.mod_lt _ (by decide)⟩

/-- The page and the offset of the address. -/
def split (a : Address k) : Page k × PageOffset :=
  (a.page, a.offset)

/-- Whether the address is the first of its page. -/
def isAligned (a : Address k) : Bool :=
  a.toNat % 4096 = 0

/-- The address `n` bytes above, if it exists. -/
def add? (a : Address k) (n : Nat) : Option (Address k) :=
  ofNat? (a.toNat + n)

/-- The address `n` bytes below, if it exists. -/
def sub? (a : Address k) (n : Nat) : Option (Address k) :=
  if n ≤ a.toNat then some ⟨a.toNat - n, by have := a.isLt; omega⟩ else none

/-- The address `n` bytes above, counted round the 32-bit space. -/
def wrappingAdd (a : Address k) (n : Nat) : Address k :=
  ofNat (a.toNat + n)

/-- The plain form, `0x` and eight digits. -/
def text (a : Address k) : String :=
  Text.hexWord a.toNat

/-- The plain form tagged with the kind of the address. -/
def tagged (a : Address k) : String :=
  s!"{k.addressTag}({a.text})"

end Address

namespace Page

variable {k : AddressKind}

@[ext] theorem ext {p q : Page k} (h : p.number = q.number) : p = q := by
  cases p; cases q; cases h; rfl

/-- The page whose number is the low 20 bits of `n`. -/
def ofNumber (n : Nat) : Page k :=
  ⟨n % 0x100000, Nat.mod_lt _ (by decide)⟩

/-- The first address of the page. -/
def base (p : Page k) : Address k :=
  ⟨p.number * 4096, by have := p.isLt; omega⟩

/-- The address at a given offset in the page. -/
def join (p : Page k) (o : PageOffset) : Address k :=
  ⟨p.number * 4096 + o.toNat, by have := p.isLt; have := o.isLt; omega⟩

/-- The page `n` pages above, if it exists. -/
def add? (p : Page k) (n : Nat) : Option (Page k) :=
  if h : p.number + n < 0x100000 then some ⟨p.number + n, h⟩ else none

/-- The distance in pages from `origin` up to `p`, if `p` does not lie below it. -/
def distanceFrom (p origin : Page k) : Option Nat :=
  if origin.number ≤ p.number then some (p.number - origin.number) else none

instance : Ord (Page k) := ⟨fun p q => compare p.number q.number⟩

/-- The base of the page tagged with its kind. -/
def tagged (p : Page k) : String :=
  s!"{k.pageTag}({p.base.text})"

end Page

namespace PageOffset

/-- The number of bytes from the offset to the end of its page. -/
def room (o : PageOffset) : Nat :=
  4096 - o.toNat

theorem room_pos (o : PageOffset) : 0 < o.room :=
  Nat.sub_pos_of_lt o.isLt

/-- The tagged form, in as many digits as the offset needs. -/
def tagged (o : PageOffset) : String :=
  s!"Offset(0x{Text.hexUpper o.toNat})"

end PageOffset

/-- Why an address is not a page: it is not the first address of one. -/
structure Unaligned where
  address : Nat
  deriving DecidableEq

/-- The text of the complaint. -/
def Unaligned.message (e : Unaligned) : String :=
  s!"address {Text.hexWord e.address} is not page aligned"

/-- The page that begins at an address, if one does. -/
def Page.ofAddress {k : AddressKind} (a : Address k) : Except Unaligned (Page k) :=
  if a.isAligned then .ok a.page else .error ⟨a.toNat⟩

section Lemmas

variable {k : AddressKind}

/-- An address is its page joined with its offset. -/
@[simp] theorem Address.join_split (a : Address k) : a.page.join a.offset = a := by
  ext
  simp only [Page.join, Address.page, Address.offset]
  omega

/-- The page of a joined address is the page it was joined from. -/
@[simp] theorem Page.page_join (p : Page k) (o : PageOffset) : (p.join o).page = p := by
  ext
  have := o.isLt
  simp only [Page.join, Address.page]
  omega

/-- The page that contains the base of a page is that page. -/
@[simp] theorem Page.page_base (p : Page k) : p.base.page = p := by
  ext
  simp only [Page.base, Address.page]
  omega

theorem Page.add?_eq_some {p q : Page k} {n : Nat} :
    p.add? n = some q ↔ q.number = p.number + n := by
  unfold Page.add?
  split
  · next h =>
    rw [Option.some.injEq]
    exact ⟨fun heq => heq ▸ rfl, fun hn => Page.ext hn.symm⟩
  · next h =>
    have := q.isLt
    simp only [reduceCtorEq, false_iff]
    omega

end Lemmas

end MipsVM
