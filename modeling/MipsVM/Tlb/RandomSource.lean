/-!
# Random choices

When no slot of the translation buffer is unused, the hardware replaces one at random. Which one is
left open: a source is any sequence of choices, each within the bound that it is asked for, and how
many of them were made.

## Main definitions

- `RandomSource`: the choices, and how many were made
- `RandomSource.below`: the next choice
- `RandomSource.constant`: the source that always makes one choice

## Main statements

- `RandomSource.below_lt`: a choice is below the bound
- `RandomSource.exists_below_eq`: each number below the bound is the choice of some source
-/

namespace MipsVM

/-- A sequence of choices, and how many of them were made. -/
structure RandomSource where
  /-- What is chosen below a bound after some choices were made. -/
  choice : (drawn n : Nat) → Nat
  choice_lt : ∀ drawn n, 0 < n → choice drawn n < n
  drawn : Nat

namespace RandomSource

/-- The next choice, and the source after it. -/
def below (n : Nat) (s : RandomSource) : Nat × RandomSource :=
  (s.choice s.drawn n, { s with drawn := s.drawn + 1 })

/-- A choice is below the bound. -/
theorem below_lt {n : Nat} (hn : 0 < n) (s : RandomSource) : (s.below n).1 < n :=
  s.choice_lt s.drawn n hn

/-- The source that always makes one choice, or chooses 0 where the bound excludes it. -/
def constant (slot : Nat) : RandomSource where
  choice _ n := if slot < n then slot else 0
  choice_lt _ n hn := by
    split
    · assumption
    · exact hn
  drawn := 0

/-- Each number below the bound is the choice of some source. -/
theorem exists_below_eq {n slot : Nat} (hslot : slot < n) :
    ∃ s : RandomSource, (s.below n).1 = slot :=
  ⟨constant slot, if_pos hslot⟩

end RandomSource

end MipsVM
