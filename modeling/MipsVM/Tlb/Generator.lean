import MipsVM.Tlb.RandomSource

/-!
# The random slot

The source that a machine is run with. A choice is drawn from a generator with 256 bits of state,
seeded from one 64-bit word, and reduced to the bound without bias by rejecting draws beyond the
last whole multiple.

## Main definitions

- `Generator`: the state, with `Generator.ofSeed` and `Generator.next`
- `Generator.below`: a number below a positive bound
- `RandomSource.ofSeed`: the numbers that the generator of a seed gives one after the other

## Main statements

- `Generator.below_lt`: the drawn number is below the bound

## Design notes

At least half of all draws are accepted. The number of draws is bounded by `maxDraws`, far beyond
what a run can need; the last one is accepted in any case.

A source is asked for its choices one by one, so the source of a seed finds the state of the
generator by drawing again. The numbers drawn before are taken to be below the same bound: a buffer
does not change its number of slots.
-/

namespace MipsVM

/-- The state of the generator. -/
structure Generator where
  s₀ : UInt64
  s₁ : UInt64
  s₂ : UInt64
  s₃ : UInt64
  deriving DecidableEq

namespace Generator

/-- A word turned left. -/
def rotateLeft (x : UInt64) (k : UInt64) : UInt64 :=
  (x <<< k) ||| (x >>> (64 - k))

/-- The next state of the seeding sequence. -/
def seedStep (state : UInt64) : UInt64 :=
  state * 6364136223846793005 + 11634580027462260723

/-- The 32 bits that a state of the seeding sequence gives. -/
def seedWord (state : UInt64) : UInt32 :=
  let x := (((state >>> 18) ^^^ state) >>> 27).toUInt32
  let turn := (state >>> 59).toUInt32
  (x >>> turn) ||| (x <<< ((32 - turn) % 32))

/-- The 64 bits that two states of the seeding sequence give, those of the first being the low
ones. -/
def seedPair (first second : UInt64) : UInt64 :=
  (seedWord first).toUInt64 ||| ((seedWord second).toUInt64 <<< 32)

/-- A word of the sequence that stands in for a state of zeros. -/
def spareWord (i : UInt64) : UInt64 :=
  let x := i * 0x9e3779b97f4a7c15
  let y := (x ^^^ (x >>> 30)) * 0xbf58476d1ce4e5b9
  let z := (y ^^^ (y >>> 27)) * 0x94d049bb133111eb
  z ^^^ (z >>> 31)

/-- The generator with a given state, or with the one that stands in for it if it is all zeros: that
state would be followed by itself for ever. -/
def ofState (g : Generator) : Generator :=
  if g = ⟨0, 0, 0, 0⟩ then ⟨spareWord 1, spareWord 2, spareWord 3, spareWord 4⟩ else g

/-- The generator of a seed. -/
def ofSeed (seed : UInt64) : Generator :=
  let a := seedStep seed
  let b := seedStep a
  let c := seedStep b
  let d := seedStep c
  let e := seedStep d
  let f := seedStep e
  let g := seedStep f
  let h := seedStep g
  .ofState ⟨seedPair a b, seedPair c d, seedPair e f, seedPair g h⟩

/-- A random word, and the generator after it. -/
def next (g : Generator) : UInt64 × Generator :=
  let result := rotateLeft (g.s₀ + g.s₃) 23 + g.s₀
  let s₂ := g.s₂ ^^^ g.s₀
  let s₃ := g.s₃ ^^^ g.s₁
  (result, ⟨g.s₀ ^^^ s₃, g.s₁ ^^^ s₂, s₂ ^^^ (g.s₁ <<< 17), rotateLeft s₃ 45⟩)

/-- The number of draws after which no draw is rejected. -/
def maxDraws : Nat := 1024

/-- Draw until the low half of the product with the bound is at most `zone`. -/
def belowWithin (n zone : Nat) : (draws : Nat) → Generator → Nat × Generator
  | 0, g => ((g.next.1.toNat * n) / 0x10000000000000000, g.next.2)
  | draws + 1, g =>
    let product := g.next.1.toNat * n
    if product % 0x10000000000000000 ≤ zone then (product / 0x10000000000000000, g.next.2)
    else belowWithin n zone draws g.next.2

/-- A random number below `n`, which must be a positive 64-bit word. -/
def below (n : Nat) (g : Generator) : Nat × Generator :=
  belowWithin n (n <<< (63 - n.log2) - 1) maxDraws g

/-- The generator after some numbers below `n` were drawn. -/
def after (n : Nat) : (count : Nat) → Generator → Generator
  | 0, g => g
  | count + 1, g => after n count (g.below n).2

theorem belowWithin_lt {n zone draws : Nat} (hn : 0 < n) (g : Generator) :
    (belowWithin n zone draws g).1 < n := by
  have reduce (w : UInt64) : w.toNat * n / 0x10000000000000000 < n :=
    Nat.div_lt_of_lt_mul (Nat.mul_lt_mul_of_pos_right w.toNat_lt hn)
  induction draws generalizing g with
  | zero => exact reduce _
  | succ draws ih =>
    unfold belowWithin
    simp only
    split
    · exact reduce _
    · exact ih _

/-- The drawn number is below the bound. -/
theorem below_lt {n : Nat} (hn : 0 < n) (g : Generator) : (below n g).1 < n :=
  belowWithin_lt hn g

end Generator

/-- The numbers that the generator of a seed gives one after the other. -/
def RandomSource.ofSeed (seed : UInt64) : RandomSource where
  choice drawn n := (((Generator.ofSeed seed).after n drawn).below n).1
  choice_lt _ _ hn := Generator.below_lt hn _
  drawn := 0

end MipsVM
