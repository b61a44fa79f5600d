import MipsVM.Frame.Table

/-!
# First fit

The search for free slots passes over every slot once and skips each place at which a row that is
long enough cannot begin. It finds the first place at which one does begin.

## Main definitions

- `FreeRow`: slots in a row are free
- `IsFirstFit`: what a search for a row of free slots is to answer

## Main statements

- `isFirstFit_firstFit`: the search answers so
-/

namespace MipsVM

/-- The `count` slots from `start` on exist and are free. -/
def FreeRow (slots : List Slot) (start count : Nat) : Prop :=
  start + count ≤ slots.length ∧
    ∀ i, start ≤ i → i < start + count → ∃ s, slots[i]? = some s ∧ s.isFree

/-- The answer to a search for `count` free slots in a row: the first place of such a row, or none
if there is no such place. -/
def IsFirstFit (count : Nat) (slots : List Slot) : Option Nat → Prop
  | some start => FreeRow slots start count ∧ ∀ i < start, ¬ FreeRow slots i count
  | none => ∀ i, ¬ FreeRow slots i count

theorem not_freeRow_of_used {slots : List Slot} {slot : Slot} {start count k : Nat}
    (hk : slots[k]? = some slot) (hused : ¬ slot.isFree) (h₁ : start ≤ k) (h₂ : k < start + count) :
    ¬ FreeRow slots start count := by
  rintro ⟨-, hfree⟩
  obtain ⟨s, hs, hsf⟩ := hfree k h₁ h₂
  rw [hk, Option.some.injEq] at hs
  subst hs
  exact hused hsf

/-- The search stands between the slots `before` and `rest`. The last `row` slots before it are free
and begin at `start`, and no row that is long enough begins before them. -/
theorem isFirstFit_firstFitFrom {count : Nat} {rest before : List Slot} {start row : Nat}
    (hlen : before.length = start + row) (hrow : row < count)
    (hfree : ∀ i, start ≤ i → i < start + row → ∃ s, before[i]? = some s ∧ s.isFree)
    (hbefore : ∀ i < start, ¬ FreeRow (before ++ rest) i count) :
    IsFirstFit count (before ++ rest) (firstFitFrom count rest start row) := by
  -- each step moves one slot from `rest` to `before`
  induction rest generalizing before start row with
  | nil =>
    intro i hi
    by_cases his : i < start
    · exact hbefore i his hi
    · have hend := hi.1
      rw [List.append_nil, hlen] at hend
      omega
  | cons slot rest ih =>
    have hall : before ++ slot :: rest = (before ++ [slot]) ++ rest := by simp
    have hlen' : (before ++ [slot]).length = start + row + 1 := by simp [hlen]
    have hslot : (before ++ [slot])[start + row]? = some slot := by simp [hlen]
    unfold firstFitFrom
    split
    · next hf =>
      have hfree' : ∀ i, start ≤ i → i < start + row + 1 →
          ∃ s, (before ++ [slot])[i]? = some s ∧ s.isFree := by
        intro i h₁ h₂
        by_cases hi : i = start + row
        · exact ⟨slot, hi ▸ hslot, hf⟩
        · rw [List.getElem?_append_left (by omega)]
          exact hfree i h₁ (by omega)
      split
      · next hcount =>
        refine ⟨⟨?_, fun i h₁ h₂ => ?_⟩, hbefore⟩
        · rw [hall, List.length_append, hlen']
          omega
        · rw [hall, List.getElem?_append_left (by omega)]
          exact hfree' i h₁ (by omega)
      · rw [hall] at hbefore ⊢
        exact ih hlen' (by omega) hfree' hbefore
    · next hf =>
      rw [hall] at hbefore ⊢
      have hempty : (before ++ [slot]).length = start + row + 1 + 0 := hlen'
      -- a row that begins no later than the slot would reach over it
      refine ih hempty (by omega) (fun i h₁ h₂ => by omega) fun i hi => ?_
      by_cases his : i < start
      · exact hbefore i his
      · refine not_freeRow_of_used (k := start + row) ?_ hf (by omega) (by omega)
        rw [List.getElem?_append_left (by omega), hslot]

theorem isFirstFit_firstFit {count : Nat} (hpos : 0 < count) (slots : List Slot) :
    IsFirstFit count slots (firstFit count slots) :=
  isFirstFit_firstFitFrom (show [].length = 0 + 0 from rfl) hpos (fun i h₁ h₂ => by omega)
    (fun i hi => absurd hi (Nat.not_lt_zero i))

end MipsVM
