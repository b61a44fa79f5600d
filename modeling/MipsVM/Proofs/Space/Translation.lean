import MipsVM.Proofs.Space.WellFormed

/-!
# Where the bytes of user memory lie

The user memory of a space is looked at byte by byte. No two addresses have their bytes at the same
place of physical memory, the bytes of one page lie side by side, and all of the stack is there once
the space has frames.

## Main definitions

- `AddressSpace.locate?`: the place of the byte at a user address

## Main statements

- `translate_unique`: no two addresses are translated to the same address
- `locate?_unique`: no place has the bytes of two addresses
- `locate?_add`: the bytes of a page lie side by side
- `locate?_stack`: the bytes of the stack lie in its frames
-/

namespace MipsVM

namespace Page

variable {k : AddressKind} {p q : Page k} {o o' : PageOffset}

theorem join_inj (h : p.join o = q.join o') : p = q ∧ o = o' := by
  have hp : p = q := by
    rw [← page_join p o, h, page_join]
  subst hp
  have hnat : p.number * 4096 + o.toNat = p.number * 4096 + o'.toNat := congrArg Address.toNat h
  refine ⟨rfl, ?_⟩
  cases o
  cases o'
  simpa using hnat

end Page

namespace AddressSpace

variable {s : AddressSpace} {a b : VirtualAddress} {pa : PhysicalAddress} {n n' p k : Nat}

/-- No two addresses are translated to the same address. -/
theorem translate_unique (hnodup : s.frames.Nodup) (ha : s.translate a = some pa)
    (hb : s.translate b = some pa) : a = b := by
  obtain ⟨frame, hf, rfl⟩ := Option.map_eq_some_iff.mp ha
  obtain ⟨frame', hf', hjoin⟩ := Option.map_eq_some_iff.mp hb
  obtain ⟨rfl, hoffset⟩ := Page.join_inj hjoin
  rw [← a.join_split, ← b.join_split, page_unique hnodup hf hf', hoffset]

/-- The place in physical memory of the byte at a user address, if there is one. -/
def locate? (s : AddressSpace) (n : Nat) : Option Nat :=
  ((Address.ofNat? n).bind s.translate).map Address.toNat

theorem locate?_toNat (s : AddressSpace) (a : VirtualAddress) :
    s.locate? a.toNat = (s.translate a).map Address.toNat := by
  simp [locate?, Address.ofNat?, a.isLt]

theorem locate?_eq_some :
    s.locate? n = some p ↔ ∃ a pa, s.translate a = some pa ∧ a.toNat = n ∧ pa.toNat = p := by
  constructor
  · intro h
    obtain ⟨pa, hpa, rfl⟩ := Option.map_eq_some_iff.mp h
    obtain ⟨a, ha, hpa⟩ := Option.bind_eq_some_iff.mp hpa
    unfold Address.ofNat? at ha
    split at ha
    · exact ⟨a, pa, hpa, by cases ha; rfl, rfl⟩
    · cases ha
  · rintro ⟨a, pa, hpa, rfl, rfl⟩
    rw [locate?_toNat, hpa, Option.map_some]

theorem locate?_eq_none_of_le (h : 0x100000000 ≤ n) : s.locate? n = none := by
  rw [locate?, Address.ofNat?, dif_neg (by omega)]
  rfl

/-- No place has the bytes of two addresses. -/
theorem locate?_unique (hnodup : s.frames.Nodup) (hn : s.locate? n = some p)
    (hn' : s.locate? n' = some p) : n = n' := by
  obtain ⟨a, pa, ha, rfl, rfl⟩ := locate?_eq_some.mp hn
  obtain ⟨b, pb, hb, rfl, hp⟩ := locate?_eq_some.mp hn'
  obtain rfl := Address.ext hp
  rw [translate_unique hnodup ha hb]

/-- The bytes of a page lie side by side. -/
theorem locate?_add (h : s.translate a = some pa) (hk : k < a.offset.room) :
    s.locate? (a.toNat + k) = some (pa.toNat + k) := by
  obtain ⟨frame, hf, rfl⟩ := Option.map_eq_some_iff.mp h
  rw [← s.regionOf_page a] at hf
  have hsplit : a.page.number * 4096 + a.offset.toNat = a.toNat :=
    congrArg Address.toNat a.join_split
  unfold PageOffset.room at hk
  let o : PageOffset := ⟨a.offset.toNat + k, by omega⟩
  refine locate?_eq_some.mpr ⟨a.page.join o, frame.join o, translate_join hf o, ?_, ?_⟩
  · rw [← hsplit, Nat.add_assoc]
    rfl
  · exact (Nat.add_assoc ..).symm

/-- The bytes of a space lie in its frames. -/
theorem exists_frame_of_locate? (h : s.locate? n = some p) :
    ∃ frame ∈ s.frames, p / 4096 = frame.number := by
  obtain ⟨a, pa, ha, rfl, rfl⟩ := locate?_eq_some.mp h
  obtain ⟨frame, hf, rfl⟩ := Option.map_eq_some_iff.mp ha
  exact ⟨frame, mem_frames_of_frameOf? hf, congrArg Page.number (Page.page_join frame a.offset)⟩

/-- All bytes of the stack lie in its frames. -/
theorem WellFormed.locate?_stack (h : s.WellFormed) (hb : s.isBacked) (hlow : userStackBase ≤ n)
    (hhigh : n < userStackTop) :
    ∃ p, s.locate? n = some p ∧ ∃ frame ∈ s.stack, p / 4096 = frame.number := by
  have htop : userStackTop = 0x80000000 := rfl
  let a : VirtualAddress := ⟨n, by omega⟩
  have ha : s.Holds a .stack := ⟨hlow, hhigh⟩
  obtain ⟨frame, hframe, hfound⟩ := (h.backed hb).exists_frame ha
  rw [← ha.regionOf h] at hfound
  exact ⟨_, locate?_eq_some.mpr ⟨a, _, Option.map_eq_some_iff.mpr ⟨_, hfound, rfl⟩, rfl, rfl⟩,
    frame, List.mem_of_getElem? hframe, congrArg Page.number (Page.page_join frame a.offset)⟩

end AddressSpace

end MipsVM
