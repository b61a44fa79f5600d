import MipsVM.Proofs.Space.WellFormed
import MipsVM.Refill

/-!
# What becomes of the translation buffer

The entries of the buffer are to agree with a space: an entry in use leads where the space leads,
and one that is not in use is tagged with a page that no space has. A flushed buffer agrees with
every space, and a refill from a space keeps the agreement with it.

## Main definitions

- `TlbEntry.Agrees`, `TlbBuffer.Agrees`: the entries lead where a space leads
- `TlbBuffer.Unused`: no slot is in use
- `Core.Entered`: the entry of a page was put into a slot

## Main statements

- `Agrees.translate`: what the buffer translates the space translates
- `Agrees.translate_eq`: a page of the space with an entry is translated as the space translates it
- `flush_ends`, `refill_ends`: the buffer after it was flushed, and after a refill
-/

namespace MipsVM

open Routine

/-- The entry leads where the space leads if it is in use. Otherwise its tag is not a page of user
memory. -/
structure TlbEntry.Agrees (e : TlbEntry) (space : AddressSpace) : Prop where
  leads : e.isValid → ∀ o, space.translate (e.hi.page.join o) = some (e.lo.frame.join o)
  unused : ¬ e.isValid → TlbEntry.firstUnusedPage ≤ e.hi.page.number

/-- All entries of the buffer agree with the space. -/
def TlbBuffer.Agrees (b : TlbBuffer) (space : AddressSpace) : Prop :=
  ∀ e ∈ b.slots, e.Agrees space

/-- Each slot holds the entry that it has while it is not in use. -/
def TlbBuffer.Unused (b : TlbBuffer) : Prop :=
  ∀ i e, b.slots[i]? = some e → TlbEntry.unused i = .ok e

section Entries

variable {e : TlbEntry} {space space' : AddressSpace} {page : VirtualPage} {frame : PhysicalPage}
  {region : Region}

theorem TlbEntry.isValid_unused {slot : Nat} (h : TlbEntry.unused slot = .ok e) :
    e.isValid = false := by
  unfold TlbEntry.unused at h
  split at h
  · generalize Page.ofField (firstUnusedPage + slot % 0x100000000) = page at h
    cases page with
    | error p => cases h
    | ok page =>
      rw [← Except.ok.inj h]
      rfl
  · cases h

/-- The entry of a slot that is not in use agrees with every space. -/
theorem TlbEntry.agrees_unused {slot : Nat} (hslot : slot < 0x80000)
    (h : TlbEntry.unused slot = .ok e) : e.Agrees space where
  leads hvalid := by
    rw [TlbEntry.isValid_unused h] at hvalid
    cases hvalid
  unused _ := by
    rw [TlbEntry.page_unused hslot h]
    exact Nat.le_add_right _ _

theorem TlbEntry.unused_eq_ok {slot : Nat} (hslot : slot < 0x80000) :
    ∃ e, TlbEntry.unused slot = .ok e := by
  have hmod : slot % 0x100000000 = slot := Nat.mod_eq_of_lt (by omega)
  have hlt : firstUnusedPage + slot < 0x100000 := by
    unfold firstUnusedPage
    omega
  rw [TlbEntry.unused, hmod, if_pos (Nat.lt_trans hlt (by decide)), Page.ofField, dif_pos hlt]
  exact ⟨_, rfl⟩

theorem TlbEntry.Agrees.continues (h : e.Agrees space) (hc : space.Continues space') :
    e.Agrees space' :=
  ⟨fun hvalid o => hc _ _ (h.leads hvalid o), h.unused⟩

namespace AddressSpace

@[simp] theorem page_entryOf : (space.entryOf region page frame).hi.page = page := rfl

@[simp] theorem isValid_entryOf : (space.entryOf region page frame).isValid := by
  unfold entryOf TlbEntry.isValid
  dsimp only
  split <;> rfl

@[simp] theorem frame_entryOf : (space.entryOf region page frame).lo.frame = frame := by
  unfold entryOf
  dsimp only
  split <;> rfl

theorem agrees_entryOf (h : space.frameOf? (space.regionOf page.base) page = some frame) :
    (space.entryOf region page frame).Agrees space where
  leads _ o := by
    rw [page_entryOf, frame_entryOf]
    exact translate_join h o
  unused hn := absurd isValid_entryOf hn

end AddressSpace

end Entries

namespace TlbBuffer

variable {b b' : TlbBuffer} {space space' : AddressSpace} {e : TlbEntry}

theorem Agrees.continues (h : b.Agrees space) (hc : space.Continues space') : b.Agrees space' :=
  fun e he => (h e he).continues hc

theorem Agrees.set (h : b.Agrees space) (he : e.Agrees space) {slot : Nat}
    (hslots : b'.slots = b.slots.set! slot e) : b'.Agrees space := by
  intro e' he'
  rw [hslots] at he'
  rcases Array.mem_or_eq_of_mem_setIfInBounds he' with he' | rfl
  · exact h e' he'
  · exact he

/-- What the buffer translates the space translates, to the same address. -/
theorem Agrees.translate (h : b.Agrees space) {a : VirtualAddress} {pa : PhysicalAddress}
    (ha : b.translate a = some pa) : space.translate a = some pa := by
  unfold TlbBuffer.translate at ha
  split at ha
  · next e hfind =>
    obtain ⟨hvalid, hpa⟩ := Option.ite_none_right_eq_some.mp ha
    have htag : e.hi.page = a.page := by simpa using Array.find?_some hfind
    have hleads := (h e (Array.mem_of_find?_eq_some hfind)).leads hvalid a.offset
    rw [htag, Address.join_split] at hleads
    rw [hleads, hpa]
  · cases ha

/-- A page of user memory that has an entry is translated: the first slot that carries its tag is
in use, if the tags of the others are not pages of user memory. -/
theorem exists_of_mem (hunused : ∀ e ∈ b.slots, ¬ e.isValid →
      TlbEntry.firstUnusedPage ≤ e.hi.page.number)
    (he : e ∈ b.slots) {a : VirtualAddress} (htag : e.hi.page = a.page)
    (hlt : a.page.number < TlbEntry.firstUnusedPage) :
    ∃ pa, b.translate a = some pa := by
  have hfind : (b.entryOf? a.page).isSome := by
    unfold entryOf?
    rw [Array.find?_isSome]
    exact ⟨e, he, decide_eq_true htag⟩
  obtain ⟨found, hfound⟩ := Option.isSome_iff_exists.mp hfind
  have htag' : found.hi.page = a.page := by simpa using Array.find?_some hfound
  have hvalid : found.isValid := by
    by_contra hn
    have := hunused found (Array.mem_of_find?_eq_some hfound) hn
    rw [htag'] at this
    omega
  refine ⟨found.lo.frame.join a.offset, ?_⟩
  unfold TlbBuffer.translate
  rw [hfound]
  exact if_pos hvalid

theorem Agrees.translate_eq (h : b.Agrees space) (he : e ∈ b.slots) {a : VirtualAddress}
    (htag : e.hi.page = a.page) (hlt : a.page.number < TlbEntry.firstUnusedPage) :
    ∃ pa, b.translate a = some pa ∧ space.translate a = some pa := by
  obtain ⟨pa, hpa⟩ := exists_of_mem (fun e he => (h e he).unused) he htag hlt
  exact ⟨pa, hpa, h.translate hpa⟩

theorem Unused.agrees (h : b.Unused) (hsize : b.slots.size ≤ 0x80000) : b.Agrees space := by
  intro e he
  obtain ⟨i, hi, rfl⟩ := Array.getElem_of_mem he
  exact TlbEntry.agrees_unused (by omega) (h i _ (Array.getElem?_eq_getElem hi))

section New

variable {slot count slots : Nat} {source : RandomSource} {entries : List TlbEntry}

theorem unusedFrom_eq_ok (h : unusedFrom slot count = .ok entries) :
    entries.length = count ∧ ∀ i e, entries[i]? = some e → TlbEntry.unused (slot + i) = .ok e := by
  induction count generalizing slot entries with
  | zero =>
    cases h
    exact ⟨rfl, fun i e he => absurd he (by simp)⟩
  | succ count ih =>
    obtain ⟨e, he, h⟩ := bind_eq_ok.mp h
    obtain ⟨rest, hrest, h⟩ := bind_eq_ok.mp h
    obtain ⟨hlength, hentries⟩ := ih hrest
    obtain rfl := Except.ok.inj h
    refine ⟨by rw [List.length_cons, hlength], fun i e' he' => ?_⟩
    cases i with
    | zero =>
      obtain rfl := Option.some.inj he'
      exact he
    | succ i =>
      rw [show slot + (i + 1) = slot + 1 + i by omega]
      exact hentries i e' he'

/-- A new buffer has as many slots as it is to have, and none of them is in use. -/
theorem new_eq_ok (h : TlbBuffer.new slots source = .ok b) : b.slots.size = slots ∧ b.Unused := by
  obtain ⟨entries, hentries, h⟩ := bind_eq_ok.mp h
  obtain ⟨hlength, hunused⟩ := unusedFrom_eq_ok hentries
  obtain rfl := Except.ok.inj h
  refine ⟨by rw [List.size_toArray, hlength], fun i e he => ?_⟩
  rw [List.getElem?_toArray] at he
  have hslot := hunused i e he
  rwa [Nat.zero_add] at hslot

end New

end TlbBuffer

namespace Core

variable {ε α : Type} {c : Core} {slot count : Nat} {entry : TlbEntry}

theorem new_eq_ok {slots : Nat} {source : RandomSource} (h : Core.new slots source = .ok c) :
    c.tlb.slots.size = slots ∧ c.tlb.Unused := by
  obtain ⟨tlb, htlb, h⟩ := bind_eq_ok.mp h
  obtain rfl := Except.ok.inj h
  exact TlbBuffer.new_eq_ok htlb

/-- The core that a guarded routine leaves, with interrupts as they were found. -/
def resumed (c left : Core) : Core :=
  if c.interruptsEnabled then { left with interruptsEnabled := true } else left

@[simp] theorem tlb_resumed (c left : Core) : (c.resumed left).tlb = left.tlb := by
  unfold resumed
  split <;> rfl

@[simp] theorem ends_guarded {r : Routine Core ε α} {Q : α → Core → Prop} {E : ε → Core → Prop}
    {P : Panic → Core → Prop} :
    (guarded r).Ends c Q E P ↔
      r.Ends { c with interruptsEnabled := false } (fun a left => Q a (c.resumed left))
        (fun e left => E e (c.resumed left)) (fun p left => P p (c.resumed left)) := by
  unfold Ends guarded
  rcases r { c with interruptsEnabled := false } with ⟨(e | p) | a, left, events⟩ <;> rfl

theorem write_ends (h : slot < c.tlb.slots.size) :
    (write slot entry : Routine Core ε Unit).Ends c
      (fun _ c' => c'.tlb.slots = c.tlb.slots.set! slot entry) (fun _ _ => False)
      (fun _ _ => False) := by
  unfold Ends write
  simp only [if_pos h]
  rfl

/-- A core with slots draws one of them and writes it. -/
theorem writeAnywhere_of_ne (h : c.tlb.slots.size ≠ 0) :
    (writeAnywhere entry : Routine Core ε Nat) c =
      (write (c.tlb.source.below c.tlb.slots.size).1 entry >>=
          fun _ => pure (c.tlb.source.below c.tlb.slots.size).1)
        { c with
          tlb := { c.tlb with source := (c.tlb.source.below c.tlb.slots.size).2 } } := by
  unfold writeAnywhere
  rw [if_neg h]

theorem writeAnywhere_ends :
    (writeAnywhere entry : Routine Core ε Nat).Ends c
      (fun slot c' => slot < c.tlb.slots.size ∧ c'.tlb.slots = c.tlb.slots.set! slot entry)
      (fun _ _ => False) (fun _ c' => c'.tlb.slots = c.tlb.slots) := by
  by_cases hsize : c.tlb.slots.size = 0
  · unfold Ends writeAnywhere
    simp only [if_pos hsize]
    rfl
  · have hslot := RandomSource.below_lt (Nat.pos_of_ne_zero hsize) c.tlb.source
    rw [ends_congr (writeAnywhere_of_ne hsize), ends_bind]
    refine (write_ends ?_).mono (fun _ _ hc => ⟨hslot, hc⟩) (fun _ _ hno => hno.elim)
      (fun _ _ hno => hno.elim)
    exact hslot

theorem enter_of_some (h : c.tlb.firstUnused? = some slot) :
    (enter entry : Routine Core ε Nat) c = (write slot entry >>= fun _ => pure slot) c := by
  unfold enter
  rw [h]

theorem enter_of_none (h : c.tlb.firstUnused? = none) :
    (enter entry : Routine Core ε Nat) c = writeAnywhere entry c := by
  unfold enter
  rw [h]

/-- An entry is put into one of the slots, if there are any. -/
theorem enter_ends :
    (enter entry : Routine Core ε Nat).Ends c
      (fun slot c' => slot < c.tlb.slots.size ∧ c'.tlb.slots = c.tlb.slots.set! slot entry)
      (fun _ _ => False) (fun _ c' => c'.tlb.slots = c.tlb.slots) := by
  cases hunused : c.tlb.firstUnused? with
  | some slot =>
    have hslot : slot < c.tlb.slots.size := (Array.findIdx?_eq_some_iff_getElem.mp hunused).1
    rw [ends_congr (enter_of_some hunused), ends_bind]
    exact (write_ends hslot).mono (fun _ _ hc => ⟨hslot, hc⟩) (fun _ _ hno => hno.elim)
      (fun _ _ hno => hno.elim)
  | none =>
    rw [ends_congr (enter_of_none hunused)]
    exact writeAnywhere_ends

/-- From a slot on, slots are given the entries that they have while they are not in use; the slots
before it stay as they are. -/
theorem flushFrom_ends (hfits : slot + count ≤ c.tlb.slots.size)
    (hsize : c.tlb.slots.size ≤ 0x80000) :
    (flushFrom slot count : Routine Core ε Unit).Ends c
      (fun _ c' => c'.tlb.slots.size = c.tlb.slots.size ∧
        (∀ i < slot, c'.tlb.slots[i]? = c.tlb.slots[i]?) ∧
        ∀ i e, slot ≤ i → i < slot + count → c'.tlb.slots[i]? = some e →
          TlbEntry.unused i = .ok e)
      (fun _ _ => False) (fun _ _ => False) := by
  -- a slot is not written again once it was, so it keeps its entry to the end
  induction count generalizing slot c with
  | zero => exact ⟨rfl, fun _ _ => rfl, fun i e hi hlt => by omega⟩
  | succ count ih =>
    obtain ⟨entry, hentry⟩ := TlbEntry.unused_eq_ok (show slot < 0x80000 by omega)
    simp only [flushFrom, ends_bind, ends_orPanic, hentry]
    refine ⟨fun e he => ?_, fun p hp => by cases hp⟩
    obtain rfl := Except.ok.inj he
    refine (write_ends (by omega)).mono (fun _ c₁ hc₁ => ?_) (fun _ _ hno => hno)
      (fun _ _ hno => hno)
    have hsize₁ : c₁.tlb.slots.size = c.tlb.slots.size := by
      rw [hc₁, Array.set!_eq_setIfInBounds, Array.size_setIfInBounds]
    refine (ih (by omega) (by omega)).mono (fun _ c' hc' => ?_) (fun _ _ hno => hno)
      (fun _ _ hno => hno)
    obtain ⟨hsize', hbefore, hfrom⟩ := hc'
    refine ⟨hsize'.trans hsize₁, fun i hi => ?_, fun i e hi hlt he => ?_⟩
    · rw [hbefore i (by omega), hc₁, Array.set!_eq_setIfInBounds,
        Array.getElem?_setIfInBounds_ne (by omega)]
    · rcases Nat.eq_or_lt_of_le hi with rfl | hi
      · rw [hbefore slot (by omega), hc₁, Array.set!_eq_setIfInBounds,
          Array.getElem?_setIfInBounds_self_of_lt (by omega), Option.some.injEq] at he
        rwa [← he]
      · exact hfrom i e (by omega) (by omega) he

/-- No slot of a buffer that was flushed is in use. -/
theorem flush_ends (hsize : c.tlb.slots.size ≤ 0x80000) :
    (flush : Routine Core ε Unit).Ends c
      (fun _ c' => c'.tlb.slots.size = c.tlb.slots.size ∧ c'.tlb.Unused)
      (fun _ _ => False) (fun _ _ => False) := by
  have hflush : (flush : Routine Core ε Unit) c = guarded (flushFrom 0 c.tlb.slots.size) c := rfl
  let off : Core := { c with interruptsEnabled := false }
  have hfits : 0 + c.tlb.slots.size ≤ off.tlb.slots.size := Nat.le_of_eq (Nat.zero_add _)
  rw [ends_congr hflush, ends_guarded]
  refine (flushFrom_ends (c := off) hfits hsize).mono (fun _ c' hc' => ?_) (fun _ _ hno => hno)
    (fun _ _ hno => hno)
  obtain ⟨hsize', -, hfrom⟩ := hc'
  rw [tlb_resumed]
  refine ⟨hsize', fun i e he => hfrom i e (Nat.zero_le _) ?_ he⟩
  have hlt := (Array.getElem?_eq_some_iff.mp he).1
  rw [hsize'] at hlt
  rwa [Nat.zero_add]

/-- The entry for the page of an address in a space was put into a slot. -/
def Entered (c : Core) (a : VirtualAddress) (space : Option AddressSpace) (c' : Core) : Prop :=
  ∃ s frame slot, space = some s ∧ s.frameOf? (s.regionOf a.page.base) a.page = some frame ∧
    slot < c.tlb.slots.size ∧
      c'.tlb.slots = c.tlb.slots.set! slot (s.entryOf (s.regionOf a.page.base) a.page frame)

/-- A refill puts the entry of a page of the space into a slot, or changes no slot. -/
theorem refill_ends (kind : FaultKind) (a : VirtualAddress) (space : Option AddressSpace) :
    (refill kind a space).Ends c
      (fun _ c' => c.Entered a space c') (fun _ c' => c'.tlb.slots = c.tlb.slots)
      (fun _ c' => c'.tlb.slots = c.tlb.slots) := by
  unfold refill
  rw [ends_bind, ends_report]
  by_cases hkind : kind = .readOnly
  · rw [if_pos hkind]
    rfl
  simp only [if_neg hkind, ends_bind, ends_orFail, ends_orPanic, ends_guarded, ends_report,
    ends_pure]
  refine ⟨fun s hs => ⟨fun _ _ => ⟨fun frame hframe => ?_, fun _ => trivial⟩, fun _ _ => trivial⟩,
    fun _ => trivial⟩
  refine enter_ends.mono (fun slot c' hc' => ?_) (fun _ _ hno => hno.elim) (fun _ c' hc' => ?_)
  · unfold Entered
    rw [tlb_resumed]
    exact ⟨s, frame, slot, hs, hframe, hc'⟩
  · rw [tlb_resumed]
    exact hc'

theorem refillByCode_ends (code : Nat) (a : VirtualAddress) (space : Option AddressSpace) :
    (refillByCode code a space).Ends c
      (fun _ c' => c.Entered a space c') (fun _ c' => c'.tlb.slots = c.tlb.slots)
      (fun _ c' => c'.tlb.slots = c.tlb.slots) := by
  rw [refillByCode, ends_bind, ends_ofExcept]
  exact ⟨fun kind _ => refill_ends kind a space, fun _ _ => rfl⟩

end Core

end MipsVM
