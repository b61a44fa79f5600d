import MipsVM.Space

/-!
# Named address spaces

## Main definitions

- `Directory`: address spaces by their names, which are numbers

## Main statements

- `get?_insert`, `get?_erase`: a change concerns one name and no other
-/

namespace MipsVM

/-- Address spaces by name. -/
structure Directory where
  entries : List (Nat × AddressSpace)

namespace Directory

/-- No address spaces. -/
def empty : Directory :=
  ⟨[]⟩

/-- The space of a name. -/
def get? (d : Directory) (name : Nat) : Option AddressSpace :=
  d.entries.lookup name

/-- The directory without a name. -/
def erase (d : Directory) (name : Nat) : Directory :=
  ⟨d.entries.filter fun entry => entry.1 ≠ name⟩

/-- The directory with a name for a space, which may have been the name of another. -/
def insert (d : Directory) (name : Nat) (space : AddressSpace) : Directory :=
  ⟨(name, space) :: (d.erase name).entries⟩

theorem get?_erase (d : Directory) (name n : Nat) :
    (d.erase name).get? n = if n = name then none else d.get? n := by
  obtain ⟨entries⟩ := d
  simp only [get?, erase]
  induction entries with
  | nil => simp
  | cons entry rest ih =>
    obtain ⟨m, space⟩ := entry
    rw [List.filter_cons]
    by_cases hm : m = name
    · subst hm
      rw [if_neg (by simp), ih, List.lookup_cons]
      by_cases hn : n = m
      · rw [if_pos hn, if_pos hn]
      · rw [if_neg hn, if_neg hn, beq_false_of_ne hn]
    · rw [if_pos (by simpa using hm), List.lookup_cons, List.lookup_cons, ih]
      by_cases hn : n = name
      · subst hn
        rw [if_pos rfl, if_pos rfl, beq_false_of_ne (Ne.symm hm)]
      · rw [if_neg hn, if_neg hn]

theorem get?_insert (d : Directory) (name n : Nat) (space : AddressSpace) :
    (d.insert name space).get? n = if n = name then some space else d.get? n := by
  by_cases hn : n = name
  · subst hn
    simp [get?, insert]
  · rw [if_neg hn]
    have herase := get?_erase d name n
    rw [if_neg hn] at herase
    rw [← herase]
    show List.lookup n ((name, space) :: (d.erase name).entries) = _
    rw [List.lookup_cons, beq_false_of_ne hn]
    rfl

end Directory

end MipsVM
