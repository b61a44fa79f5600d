import Mathlib.Data.List.Forall2
import MipsVM.Proofs.Space.Bytewise
import MipsVM.Space.Arguments

/-!
# The layout of arguments on the stack

What is placed on the stack lies below all that was placed before, with room between, so no string
is overwritten by a later one or by the table of addresses. The arguments are refused if one of
the places lies below the stack, and for no other reason.

## Main definitions

- `placeBelow`, `placesBelow`: the places of what is put on the stack, given the lengths
- `argumentLengths`: the lengths of the strings and the table
- `AddressSpace.storeAll`: several byte strings are stored one after the other
- `AddressSpace.wordAt?`: the word at a user address
- `AddressSpace.Arranged`: the arguments lie on the stack

## Main statements

- `pairwise_placesBelow`: each place ends below the places before it
- `shows_storeAll`: each of several strings is read again
- `WellFormed.layOutArguments_ends`: the arguments are laid out, or one of the places lies below the
  stack
- `WellFormed.arranged_storeAll`: what is laid out is arranged

## Design notes

Places are natural numbers. A place that would be negative is 0, and lies below the stack all the
same.
-/

namespace MipsVM

open Memory

section Places

variable {sp length : Nat} {lengths lengths' : List Nat}

/-- The place of `length` bytes that are put below `sp` with eight more, moved up to a multiple of
eight. -/
def placeBelow (sp length : Nat) : Nat :=
  (sp - (length + 8) + 7) / 8 * 8

/-- The places of byte strings that are put one below the other. -/
def placesBelow (sp : Nat) : List Nat → List Nat
  | [] => []
  | length :: rest => placeBelow sp length :: placesBelow (placeBelow sp length) rest

/-- The lengths of what is put on the stack for arguments: each with its zero byte, and the table of
their addresses with its zero word. -/
def argumentLengths (arguments : List (List UInt8)) : List Nat :=
  arguments.map (·.length + 1) ++ [4 * (arguments.length + 1)]

theorem placeBelow_mod (sp length : Nat) : placeBelow sp length % 8 = 0 :=
  Nat.mul_mod_left _ _

theorem placeBelow_add_lt (h : 0 < placeBelow sp length) : placeBelow sp length + length < sp := by
  unfold placeBelow at h ⊢
  omega

theorem foldl_placeBelow_le : lengths.foldl placeBelow sp ≤ sp := by
  induction lengths generalizing sp with
  | nil => exact Nat.le_refl sp
  | cons length rest ih =>
    have hle : placeBelow sp length ≤ sp := by
      unfold placeBelow
      omega
    exact Nat.le_trans ih hle

@[simp] theorem length_placesBelow : (placesBelow sp lengths).length = lengths.length := by
  induction lengths generalizing sp with
  | nil => rfl
  | cons length rest ih => rw [placesBelow, List.length_cons, ih, List.length_cons]

theorem placesBelow_append : placesBelow sp (lengths ++ lengths') =
    placesBelow sp lengths ++ placesBelow (lengths.foldl placeBelow sp) lengths' := by
  induction lengths generalizing sp with
  | nil => rfl
  | cons length rest ih => rw [List.cons_append, placesBelow, ih, placesBelow]; rfl

theorem mod_of_mem_placesBelow {p : Nat} (h : p ∈ placesBelow sp lengths) : p % 8 = 0 := by
  induction lengths generalizing sp with
  | nil => cases h
  | cons length rest ih =>
    rcases List.mem_cons.mp h with rfl | h
    · exact placeBelow_mod sp length
    · exact ih h

theorem lt_of_mem_placesBelow (hpos : ∀ p ∈ placesBelow sp lengths, 0 < p) {p : Nat}
    (h : p ∈ placesBelow sp lengths) : p < sp := by
  induction lengths generalizing sp with
  | nil => cases h
  | cons length rest ih =>
    obtain ⟨hfirst, hrest⟩ := List.forall_mem_cons.mp hpos
    have hlt := placeBelow_add_lt hfirst
    rcases List.mem_cons.mp h with rfl | h
    · omega
    · have := ih hrest h
      omega

theorem decreasing_placesBelow (hpos : ∀ p ∈ placesBelow sp lengths, 0 < p) :
    (placesBelow sp lengths).Pairwise fun p q => q < p := by
  induction lengths generalizing sp with
  | nil => exact List.Pairwise.nil
  | cons length rest ih =>
    obtain ⟨-, hrest⟩ := List.forall_mem_cons.mp hpos
    exact List.pairwise_cons.mpr ⟨fun q hq => lt_of_mem_placesBelow hrest hq, ih hrest⟩

/-- What is put below a stack pointer ends below it. -/
theorem placesBelow_add_lt (hpos : ∀ p ∈ placesBelow sp lengths, 0 < p) :
    ∀ x ∈ (placesBelow sp lengths).zip lengths, x.1 + x.2 < sp := by
  induction lengths generalizing sp with
  | nil => exact List.forall_mem_nil _
  | cons length rest ih =>
    obtain ⟨hfirst, hrest⟩ := List.forall_mem_cons.mp hpos
    have hlt := placeBelow_add_lt hfirst
    refine List.forall_mem_cons.mpr ⟨hlt, fun x hx => ?_⟩
    have := ih hrest x hx
    omega

/-- What is put on the stack ends below all that was put there before. -/
theorem pairwise_placesBelow (hpos : ∀ p ∈ placesBelow sp lengths, 0 < p) :
    ((placesBelow sp lengths).zip lengths).Pairwise fun x y => y.1 + y.2 < x.1 := by
  induction lengths generalizing sp with
  | nil => exact List.Pairwise.nil
  | cons length rest ih =>
    obtain ⟨-, hrest⟩ := List.forall_mem_cons.mp hpos
    exact List.pairwise_cons.mpr ⟨placesBelow_add_lt hrest, ih hrest⟩

end Places

section Room

variable {sp here : VirtualAddress} {length : Nat}

/-- Room on the stack is found at the place below the stack pointer, if that lies in the stack. -/
theorem roomBelow?_eq (sp : VirtualAddress) (length : Nat) : roomBelow? sp length =
    if userStackBase ≤ placeBelow sp.toNat length then
      Address.ofNat? (placeBelow sp.toNat length) else none := by
  have hsp := sp.isLt
  have hbase : userStackBase = 0x7FFF4000 := rfl
  by_cases hroom : length + 8 ≤ sp.toNat
  · have hword : word? length = some length := if_pos (by omega)
    have hlength : sp.sub? length = some ⟨sp.toNat - length, by omega⟩ := if_pos (by omega)
    have height : Address.sub? (⟨sp.toNat - length, by omega⟩ : VirtualAddress) 8 =
        some ⟨sp.toNat - length - 8, by omega⟩ := if_pos (by simp only; omega)
    have hup : roundUp? (sp.toNat - length - 8) 8 = some (placeBelow sp.toNat length) := by
      have hround : roundUp? (sp.toNat - length - 8) 8 =
          if sp.toNat - length - 8 + 7 < 0x100000000 then
            some ((sp.toNat - length - 8 + 7) / 8 * 8) else none :=
        roundUp?_two_pow (k := 3) (by decide)
      rw [hround, if_pos (by omega), placeBelow, Nat.sub_sub]
    simp only [roomBelow?, hword, hlength, height, hup, Option.bind_eq_bind, Option.bind_some]
    by_cases hin : userStackBase ≤ placeBelow sp.toNat length
    · simp [hin]
    · simp [hin]
  · have hplace : placeBelow sp.toNat length = 0 := by
      unfold placeBelow
      omega
    rw [hplace, if_neg (by omega), Option.eq_none_iff_forall_ne_some]
    intro here hsome
    obtain ⟨hin, -, hlt⟩ := roomBelow?_aligned hsome
    omega

theorem roomBelow?_eq_some : roomBelow? sp length = some here ↔
    here.toNat = placeBelow sp.toNat length ∧ userStackBase ≤ here.toNat := by
  rw [roomBelow?_eq, Option.ite_none_right_eq_some]
  constructor
  · rintro ⟨hin, hsome⟩
    unfold Address.ofNat? at hsome
    split at hsome
    · cases hsome
      exact ⟨rfl, hin⟩
    · cases hsome
  · rintro ⟨hhere, hin⟩
    rw [← hhere]
    exact ⟨hin, dif_pos here.isLt⟩

theorem roomBelow?_eq_none :
    roomBelow? sp length = none ↔ placeBelow sp.toNat length < userStackBase := by
  have hsp := sp.isLt
  have hplace : placeBelow sp.toNat length < 0x100000000 := by
    unfold placeBelow
    omega
  rw [roomBelow?_eq]
  unfold Address.ofNat?
  rw [dif_pos hplace]
  simp

end Room

section Words

/-- The table of addresses has four bytes for each word. -/
theorem length_flatMap_wordBytes (words : List Nat) :
    (words.flatMap wordBytes).length = 4 * words.length := by
  simp [List.length_flatMap, wordBytes, Nat.mul_comm]

end Words

namespace AddressSpace

variable {s : AddressSpace} {m m' m'' : Memory} {ram ram' : Ram} {n : Nat}
  {bytes bytes' : List UInt8} {blocks : List (Nat × List UInt8)}

section Words

/-- The word at a user address, low byte first. -/
def wordAt? (s : AddressSpace) (ram : Ram) (n : Nat) : Option Nat := do
  let b₀ ← s.byteAt? ram n
  let b₁ ← s.byteAt? ram (n + 1)
  let b₂ ← s.byteAt? ram (n + 2)
  let b₃ ← s.byteAt? ram (n + 3)
  pure (b₀.toNat + 0x100 * b₁.toNat + 0x10000 * b₂.toNat + 0x1000000 * b₃.toNat)

theorem Shows.right (h : s.Shows ram n (bytes ++ bytes')) :
    s.Shows ram (n + bytes.length) bytes' := by
  intro k hk
  have hbyte := h (bytes.length + k) (by rw [List.length_append]; omega)
  rwa [List.getElem?_append_right (Nat.le_add_right _ _), Nat.add_sub_cancel_left,
    ← Nat.add_assoc] at hbyte

theorem Shows.wordAt? {w : Nat} (h : s.Shows ram n (wordBytes w ++ bytes)) (hw : w < 0x100000000) :
    s.wordAt? ram n = some w := by
  have h₀ := h 0 (by simp [wordBytes])
  have h₁ := h 1 (by simp [wordBytes])
  have h₂ := h 2 (by simp [wordBytes])
  have h₃ := h 3 (by simp [wordBytes])
  simp only [wordBytes, List.cons_append, List.getElem?_cons_zero, List.getElem?_cons_succ,
    Nat.add_zero] at h₀ h₁ h₂ h₃
  simp only [AddressSpace.wordAt?, h₀, h₁, h₂, h₃, Option.bind_eq_bind, Option.bind_some,
    Option.pure_def, Option.some.injEq, UInt8.toNat_ofNat']
  omega

/-- The words of a table are read one after the other. -/
theorem Shows.wordAt?_add {words : List Nat} (h : s.Shows ram n (words.flatMap wordBytes))
    (hw : ∀ w ∈ words, w < 0x100000000) {i : Nat} (hi : i < words.length) :
    s.wordAt? ram (n + 4 * i) = words[i]? := by
  induction words generalizing n i with
  | nil => exact absurd hi (Nat.not_lt_zero i)
  | cons w rest ih =>
    rw [List.flatMap_cons] at h
    obtain ⟨hfirst, hrest⟩ := List.forall_mem_cons.mp hw
    cases i with
    | zero => exact h.wordAt? hfirst
    | succ i =>
      have hword := ih h.right hrest (Nat.lt_of_succ_lt_succ hi)
      rwa [show n + (wordBytes w).length + 4 * i = n + 4 * (i + 1) by
        simp only [wordBytes, List.length_cons, List.length_nil]; omega] at hword

end Words

section Blocks

/-- The memory after byte strings were stored one after the other, each from its user address on. -/
def storeAll (s : AddressSpace) (ram : Ram) (blocks : List (Nat × List UInt8)) : Ram :=
  blocks.foldl (fun ram block => s.store ram block.1 block.2) ram

theorem storeAll_append (blocks blocks' : List (Nat × List UInt8)) :
    s.storeAll ram (blocks ++ blocks') = s.storeAll (s.storeAll ram blocks) blocks' :=
  List.foldl_append

/-- Only the bytes at the user addresses of the strings are changed. -/
theorem keeps_storeAll : ram.Keeps (s.storeAll ram blocks)
    fun q => ∀ block ∈ blocks, ∀ k < block.2.length, s.locate? (block.1 + k) ≠ some q := by
  induction blocks generalizing ram with
  | nil => exact .refl
  | cons block rest ih =>
    refine (keeps_store.mono fun q hq => hq block List.mem_cons_self).trans (ih.mono fun q hq => ?_)
    exact fun block hb => hq block (List.mem_cons_of_mem _ hb)

/-- Strings that were stored at different addresses are all read again. -/
theorem shows_storeAll (hnodup : s.frames.Nodup)
    (hhas : ∀ frame ∈ s.frames, ram.hasFrame frame.number)
    (hall : ∀ block ∈ blocks, s.Has block.1 block.2.length)
    (hapart : blocks.Pairwise fun x y => y.1 + y.2.length < x.1) :
    ∀ block ∈ blocks, s.Shows (s.storeAll ram blocks) block.1 block.2 := by
  induction blocks generalizing ram with
  | nil => exact List.forall_mem_nil _
  | cons block rest ih =>
    obtain ⟨hbelow, hrest⟩ := List.pairwise_cons.mp hapart
    obtain ⟨hfirst, hlater⟩ := List.forall_mem_cons.mp hall
    have hhas' : ∀ frame ∈ s.frames, (s.store ram block.1 block.2).hasFrame frame.number := by
      rwa [keeps_store.extent]
    refine List.forall_mem_cons.mpr ⟨?_, ih hhas' hlater hrest⟩
    -- the other strings lie below this one
    refine (shows_store hnodup hhas hfirst).of_keeps keeps_storeAll fun k hk p hp b hb j hj => ?_
    intro hsame
    have := locate?_unique hnodup hp hsame
    have := hbelow b hb
    omega

end Blocks

section Stack

variable {arguments : List (List UInt8)} {pointers : List Nat} {sp : Nat}

/-- The later memory differs from the earlier in the frames of the stack at most. -/
def ChangesStack (s : AddressSpace) (m m' : Memory) : Prop :=
  ∃ ram, m' = { m with ram := ram } ∧
    m.ram.Keeps ram fun q => ∀ frame ∈ s.stack, q / 4096 ≠ frame.number

theorem ChangesStack.refl : s.ChangesStack m m :=
  ⟨m.ram, rfl, .refl⟩

theorem ChangesStack.trans (h : s.ChangesStack m m') (h' : s.ChangesStack m' m'') :
    s.ChangesStack m m'' := by
  obtain ⟨ram, rfl, hk⟩ := h
  obtain ⟨ram', rfl, hk'⟩ := h'
  exact ⟨ram', rfl, hk.trans hk'⟩

theorem WellFormed.has_stack (h : s.WellFormed) (hb : s.isBacked) {length : Nat}
    (hlow : userStackBase ≤ n) (hhigh : n + length ≤ userStackTop) : s.Has n length := by
  intro k hk
  obtain ⟨p, hp, -⟩ := h.locate?_stack hb (n := n + k) (by omega) (by omega)
  exact Option.isSome_iff_exists.mpr ⟨p, hp⟩

theorem WellFormed.changesStack_store (h : s.WellFormed) (hb : s.isBacked)
    (hlow : userStackBase ≤ n) (hhigh : n + bytes.length ≤ userStackTop) :
    s.ChangesStack m { m with ram := s.store m.ram n bytes } := by
  refine ⟨_, rfl, keeps_store.mono fun q hq k hk hsame => ?_⟩
  obtain ⟨p, hp, frame, hframe, hnumber⟩ := h.locate?_stack hb (n := n + k) (by omega) (by omega)
  obtain rfl := Option.some.inj (hp.symm.trans hsame)
  exact hq frame hframe hnumber

/-- A string that has room on the stack is copied. -/
theorem WellFormed.write_stack (h : s.WellFormed) (hb : s.isBacked)
    (hhas : ∀ frame ∈ s.frames, m.ram.hasFrame frame.number) {a : VirtualAddress}
    (hlow : userStackBase ≤ a.toNat) (hhigh : a.toNat + bytes.length ≤ userStackTop) :
    s.write bytes a m = .done () { m with ram := s.store m.ram a.toNat bytes } [] := by
  rcases s.write_cases hhas with ⟨-, hdone⟩ | ⟨hlacks, -⟩
  · exact hdone
  · exact absurd (h.has_stack hb hlow hhigh) hlacks

/-- Strings were placed below a stack pointer. -/
structure PlacedBelow (s : AddressSpace) (sp : Nat) (arguments : List (List UInt8)) (m : Memory)
    (placed : VirtualAddress × List VirtualAddress) (m' : Memory) : Prop where
  addresses : placed.2.map Address.toNat = placesBelow sp (arguments.map (·.length + 1))
  pointer : placed.1.toNat = (arguments.map (·.length + 1)).foldl placeBelow sp
  inside : ∀ p ∈ placesBelow sp (arguments.map (·.length + 1)), userStackBase ≤ p
  memory : m' = { m with
    ram := s.storeAll m.ram ((placed.2.map Address.toNat).zip (arguments.map (· ++ [0]))) }
  changes : s.ChangesStack m m'

/-- Strings are placed below a stack pointer, if all their places lie in the stack. -/
theorem WellFormed.placeArguments_ends (h : s.WellFormed) (hb : s.isBacked)
    (hhas : ∀ frame ∈ s.frames, m.ram.hasFrame frame.number) {sp : VirtualAddress}
    (hsp : sp.toNat ≤ userStackTop) :
    (s.placeArguments sp arguments).Ends m
      (fun placed m' => s.PlacedBelow sp.toNat arguments m placed m')
      (fun e m' => e = .argumentsTooLarge ∧
        (∃ p ∈ placesBelow sp.toNat (arguments.map (·.length + 1)), p < userStackBase) ∧
        s.ChangesStack m m')
      (fun _ _ => False) := by
  induction arguments generalizing m sp with
  | nil => exact ⟨rfl, rfl, List.forall_mem_nil _, rfl, .refl⟩
  | cons argument rest ih =>
    unfold placeArguments reserve
    simp only [Routine.ends_bind, Routine.ends_mapError, Routine.ends_pure]
    rw [Routine.ends_orFail]
    simp only [List.map_cons, placesBelow]
    refine ⟨fun here hhere => ?_, fun hnone => ?_⟩
    · obtain ⟨hplace, hlow⟩ := roomBelow?_eq_some.mp hhere
      have hend := (roomBelow?_aligned hhere).2.2
      have hlength : (argument ++ [0]).length = argument.length + 1 := by simp
      have hhigh : here.toNat + (argument ++ [0]).length ≤ userStackTop := by omega
      have hhas' : ∀ frame ∈ s.frames,
          (s.store m.ram here.toNat (argument ++ [0])).hasFrame frame.number := by
        rwa [keeps_store.extent]
      unfold writeString
      simp only [hlength, Nat.lt_irrefl, if_false, Routine.ends_bind, Routine.ends_pure]
      rw [Routine.ends_of_done (h.write_stack hb hhas hlow hhigh), ← hplace]
      refine (ih hhas' (by omega)).mono (fun placed m' hm' => ?_) (fun e m' hm' => ?_)
        (fun _ _ hno => hno)
      · obtain ⟨haddresses, hpointer, hinside, rfl, hchanges⟩ := hm'
        refine ⟨?_, ?_, ?_, rfl, (h.changesStack_store hb hlow hhigh).trans hchanges⟩
        · simp only [List.map_cons, placesBelow, ← hplace, haddresses]
        · simp only [List.map_cons, List.foldl_cons, ← hplace, hpointer]
        · simp only [List.map_cons, placesBelow, ← hplace]
          exact List.forall_mem_cons.mpr ⟨hlow, hinside⟩
      · obtain ⟨rfl, ⟨p, hp, hbelow⟩, hchanges⟩ := hm'
        exact ⟨rfl, ⟨p, List.mem_cons_of_mem _ hp, hbelow⟩,
          (h.changesStack_store hb hlow hhigh).trans hchanges⟩
    · exact ⟨trivial, ⟨_, List.mem_cons_self, roomBelow?_eq_none.mp hnone⟩, .refl⟩

/-- The strings with their addresses, and the table of these with its own. -/
def argumentBlocks (arguments : List (List UInt8)) (pointers : List Nat) (sp : Nat) :
    List (Nat × List UInt8) :=
  pointers.zip (arguments.map (· ++ [0])) ++ [(sp, (pointers ++ [0]).flatMap wordBytes)]

/-- The arguments of a space that has frames are laid out, if all their places lie in the stack. -/
theorem WellFormed.layOutArguments_ends (h : s.WellFormed) (hb : s.isBacked)
    (hhas : ∀ frame ∈ s.frames, m.ram.hasFrame frame.number) :
    (s.layOutArguments s arguments).Ends m
      (fun sp m' => ∃ pointers,
        pointers ++ [sp.toNat] = placesBelow userStackTop (argumentLengths arguments) ∧
        (∀ p ∈ placesBelow userStackTop (argumentLengths arguments), userStackBase ≤ p) ∧
        m' = { m with ram := s.storeAll m.ram (argumentBlocks arguments pointers sp.toNat) })
      (fun e m' => e = .argumentsTooLarge ∧
        (∃ p ∈ placesBelow userStackTop (argumentLengths arguments), p < userStackBase) ∧
        s.ChangesStack m m')
      (fun _ _ => False) := by
  have htop : (Address.ofNat userStackTop : VirtualAddress).toNat = userStackTop := rfl
  have hplaces : placesBelow userStackTop (argumentLengths arguments) =
      placesBelow userStackTop (arguments.map (·.length + 1)) ++
        [placeBelow ((arguments.map (·.length + 1)).foldl placeBelow userStackTop)
          (4 * (arguments.length + 1))] := placesBelow_append
  rw [hplaces]
  unfold layOutArguments reserve
  rw [if_pos hb]
  simp only [Routine.ends_bind, Routine.ends_mapError, Routine.ends_pure]
  refine (h.placeArguments_ends hb hhas (Nat.le_of_eq htop)).mono (fun placed m' hm' => ?_)
    (fun e m' hm' => ?_) (fun _ _ hno => hno)
  · obtain ⟨haddresses, hpointer, hinside, rfl, hchanges⟩ := hm'
    rw [htop] at haddresses hpointer hinside
    have hcount : (placed.2.map Address.toNat).length = arguments.length := by
      rw [haddresses, length_placesBelow, List.length_map]
    have hlength : ((placed.2.map Address.toNat ++ [0]).flatMap wordBytes).length =
        4 * (arguments.length + 1) := by
      rw [length_flatMap_wordBytes, List.length_append, hcount, List.length_singleton]
    rw [hlength, Routine.ends_orFail]
    refine ⟨fun sp hsp => ?_, fun hnone => ?_⟩
    · obtain ⟨hplace, hlow⟩ := roomBelow?_eq_some.mp hsp
      have hend := (roomBelow?_aligned hsp).2.2
      have hle : placed.1.toNat ≤ userStackTop := by
        rw [hpointer]
        exact foldl_placeBelow_le
      have hhas' : ∀ frame ∈ s.frames, (s.storeAll m.ram ((placed.2.map Address.toNat).zip
          (arguments.map (· ++ [0])))).hasFrame frame.number := by
        rwa [keeps_storeAll.extent]
      rw [Routine.ends_of_done (h.write_stack hb hhas' hlow (by rw [hlength]; omega)), ← hpointer,
        ← hplace]
      refine ⟨placed.2.map Address.toNat, by rw [haddresses], ?_, ?_⟩
      · exact List.forall_mem_append.mpr ⟨hinside, List.forall_mem_singleton.mpr hlow⟩
      · rw [argumentBlocks, storeAll_append]
        rfl
    · refine ⟨rfl, ⟨_, List.mem_append_right _ List.mem_cons_self, ?_⟩, hchanges⟩
      rw [← hpointer]
      exact roomBelow?_eq_none.mp hnone
  · obtain ⟨rfl, ⟨p, hp, hbelow⟩, hchanges⟩ := hm'
    exact ⟨rfl, ⟨p, List.mem_append_left _ hp, hbelow⟩, hchanges⟩

/-- The arguments lie on the stack, and no other byte was changed. -/
structure Arranged (s : AddressSpace) (arguments : List (List UInt8)) (ram : Ram)
    (pointers : List Nat) (sp : Nat) (ram' : Ram) : Prop where
  /-- Each string lies below the one before, and the table below all of them. -/
  places : pointers ++ [sp] = placesBelow userStackTop (argumentLengths arguments)
  aligned : sp % 8 = 0 ∧ ∀ p ∈ pointers, p % 8 = 0
  /-- All of it lies in the stack. -/
  inside : userStackBase ≤ sp ∧ sp < userStackTop
  above : ∀ p ∈ pointers, sp < p ∧ p < userStackTop
  /-- The table has the addresses of the strings and a zero word. -/
  table : ∀ i ≤ arguments.length, s.wordAt? ram' (sp + 4 * i) = (pointers ++ [0])[i]?
  /-- Each string is found at its address with a zero byte. -/
  strings : List.Forall₂ (fun p argument => s.Shows ram' p (argument ++ [0])) pointers arguments
  /-- None of it shares an address with another. -/
  apart : ((pointers ++ [sp]).zip (argumentLengths arguments)).Pairwise fun x y =>
    y.1 + y.2 ≤ x.1
  /-- The bytes at all other addresses and those of all other frames are as they were. -/
  kept : ram.Keeps ram' fun q => ∀ x ∈ (pointers ++ [sp]).zip (argumentLengths arguments),
    ∀ k < x.2, s.locate? (x.1 + k) ≠ some q

theorem length_pointers
    (hplaces : pointers ++ [sp] = placesBelow userStackTop (argumentLengths arguments)) :
    pointers.length = arguments.length := by
  have hlength := congrArg List.length hplaces
  simpa [argumentLengths] using hlength

theorem map_argumentBlocks (hcount : pointers.length = arguments.length) :
    (argumentBlocks arguments pointers sp).map (fun b => (b.1, b.2.length)) =
      (pointers ++ [sp]).zip (argumentLengths arguments) := by
  rw [argumentBlocks, argumentLengths, List.zip_append (by rw [hcount, List.length_map]),
    List.map_append, List.zip_map_right, List.zip_map_right, List.map_map, List.map_singleton,
    length_flatMap_wordBytes, List.length_append, hcount]
  simp [Function.comp_def]

/-- If all places lie in the stack, so does all that is placed there. -/
theorem argumentBlocks_inside
    (hplaces : pointers ++ [sp] = placesBelow userStackTop (argumentLengths arguments))
    (hinside : ∀ p ∈ placesBelow userStackTop (argumentLengths arguments), userStackBase ≤ p) :
    ∀ b ∈ argumentBlocks arguments pointers sp,
      userStackBase ≤ b.1 ∧ b.1 + b.2.length < userStackTop := by
  intro b hmem
  have hspan : (b.1, b.2.length) ∈
      (placesBelow userStackTop (argumentLengths arguments)).zip (argumentLengths arguments) := by
    rw [← hplaces, ← map_argumentBlocks (length_pointers hplaces)]
    exact List.mem_map_of_mem hmem
  exact ⟨hinside _ (List.of_mem_zip hspan).1, placesBelow_add_lt
    (fun p hp => Nat.lt_of_lt_of_le (by decide) (hinside p hp)) _ hspan⟩

/-- Each string ends below the one before, and the table below all of them. -/
theorem pairwise_argumentBlocks
    (hplaces : pointers ++ [sp] = placesBelow userStackTop (argumentLengths arguments))
    (hinside : ∀ p ∈ placesBelow userStackTop (argumentLengths arguments), userStackBase ≤ p) :
    (argumentBlocks arguments pointers sp).Pairwise fun x y => y.1 + y.2.length < x.1 := by
  have hpairwise := pairwise_placesBelow fun p hp =>
    Nat.lt_of_lt_of_le (by decide : 0 < userStackBase) (hinside p hp)
  rwa [← hplaces, ← map_argumentBlocks (length_pointers hplaces), List.pairwise_map] at hpairwise

/-- Strings and a table that are stored at their places are arranged. -/
theorem WellFormed.arranged_storeAll (h : s.WellFormed) (hb : s.isBacked) (hnodup : s.frames.Nodup)
    (hhas : ∀ frame ∈ s.frames, ram.hasFrame frame.number)
    (hplaces : pointers ++ [sp] = placesBelow userStackTop (argumentLengths arguments))
    (hinside : ∀ p ∈ placesBelow userStackTop (argumentLengths arguments), userStackBase ≤ p) :
    s.Arranged arguments ram pointers sp
      (s.storeAll ram (argumentBlocks arguments pointers sp)) := by
  have hcount := length_pointers hplaces
  have hin := argumentBlocks_inside hplaces hinside
  have hapart := pairwise_argumentBlocks hplaces hinside
  have hshows := shows_storeAll hnodup hhas
    (fun b hmem => h.has_stack hb (hin b hmem).1 (Nat.le_of_lt (hin b hmem).2)) hapart
  have htable : (sp, (pointers ++ [0]).flatMap wordBytes) ∈ argumentBlocks arguments pointers sp :=
    List.mem_append_right _ List.mem_cons_self
  obtain ⟨hpointers, hsp⟩ := List.forall_mem_append.mp fun p (hp : p ∈ pointers ++ [sp]) =>
    mod_of_mem_placesBelow (hplaces ▸ hp)
  have hpos : ∀ p ∈ placesBelow userStackTop (argumentLengths arguments), 0 < p :=
    fun p hp => Nat.lt_of_lt_of_le (by decide) (hinside p hp)
  have htop : ∀ p ∈ pointers ++ [sp], p < userStackTop := fun p hp =>
    lt_of_mem_placesBelow hpos (hplaces ▸ hp)
  have hbelow := decreasing_placesBelow hpos
  rw [← hplaces, List.pairwise_append] at hbelow
  refine ⟨hplaces, ⟨hsp sp List.mem_cons_self, hpointers⟩, ⟨(hin _ htable).1, ?_⟩,
    fun p hp => ⟨hbelow.2.2 p hp sp List.mem_cons_self, ?_⟩, fun i hi => ?_, ?_, ?_, ?_⟩
  · exact htop sp (List.mem_append_right _ List.mem_cons_self)
  · exact htop p (List.mem_append_left _ hp)
  · refine (hshows _ htable).wordAt?_add (fun w hw => ?_) ?_
    · rcases List.mem_append.mp hw with hw | hw
      · exact Nat.lt_trans (htop w (List.mem_append_left _ hw)) (by decide)
      · rw [List.mem_singleton.mp hw]
        decide
    · rw [List.length_append, List.length_singleton]
      omega
  · refine List.forall₂_iff_zip.mpr ⟨hcount, fun {p argument} hmem => ?_⟩
    refine hshows (p, argument ++ [0]) (List.mem_append_left _ ?_)
    rw [List.zip_map_right]
    exact List.mem_map_of_mem (f := Prod.map id (· ++ [0])) hmem
  · rw [← map_argumentBlocks hcount, List.pairwise_map]
    exact hapart.imp Nat.le_of_lt
  · rw [← map_argumentBlocks hcount]
    exact keeps_storeAll.mono fun q hq b hmem => hq _ (List.mem_map_of_mem hmem)

end Stack

end AddressSpace

end MipsVM
