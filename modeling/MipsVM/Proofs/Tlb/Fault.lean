import Mathlib.Order.Bounds.Basic
import MipsVM.Proofs.Machine.Interrupts
import MipsVM.Proofs.Space.Regions
import MipsVM.Proofs.Tlb.Tags

/-!
# How a missing translation is served

The kernel looks at a fault in a fixed order: the code, the kind of access, the current space, the
frames of this space, and the region of the address. If one of these is not as it must be, the
translation buffer stays as it is. Otherwise the page of the address gets an entry.

## Main definitions

- `TlbEntry.Maps`: all fields of an entry that leads from a page to a frame
- `TlbBuffer.unusedSlots`: the slots that are not in use
- `Core.Enters`: an entry was put into the right slot and nowhere else
- `Core.Serves`: the answer to a fault, case by case

## Main statements

- `maps_entryOf`: the entry for a page of a space
- `enter_eq_done`: where an entry is put
- `serves_refillByCode`: every fault is answered so
-/

namespace MipsVM

open Routine

/-- The entry leads from a page to a frame, and allows writes if it is to. -/
structure TlbEntry.Maps (e : TlbEntry) (page : VirtualPage) (frame : PhysicalPage)
    (writable : Prop) : Prop where
  page : e.hi.page = page
  pid : e.hi.pid = 0
  frame : e.lo.frame = frame
  valid : e.lo.valid = true
  dirty : e.lo.dirty = true ↔ writable
  cached : e.lo.noCache = false
  notGlobal : e.lo.global = false
  reserved : e.hi.reserved = 0 ∧ e.lo.reserved = 0

theorem AddressSpace.maps_entryOf (s : AddressSpace) (region : Region) (page : VirtualPage)
    (frame : PhysicalPage) :
    (s.entryOf region page frame).Maps page frame (¬ (s.loaded ∧ region = .segment1)) := by
  simp only [entryOf]
  by_cases hprotected : s.loaded ∧ region = .segment1
  · rw [if_pos hprotected]
    exact ⟨rfl, rfl, rfl, rfl, iff_of_false Bool.false_ne_true (not_not_intro hprotected), rfl, rfl,
      rfl, rfl⟩
  · rw [if_neg hprotected]
    exact ⟨rfl, rfl, rfl, rfl, iff_of_true rfl hprotected, rfl, rfl, rfl, rfl⟩

namespace TlbBuffer

variable {b : TlbBuffer} {slot : Nat}

/-- The numbers of the slots that are not in use. -/
def unusedSlots (b : TlbBuffer) : Set Nat :=
  {i | ∃ e, b.slots[i]? = some e ∧ ¬ e.isValid}

theorem isLeast_of_firstUnused? (h : b.firstUnused? = some slot) : IsLeast b.unusedSlots slot := by
  obtain ⟨hlt, hunused, hbefore⟩ := Array.findIdx?_eq_some_iff_getElem.mp h
  refine ⟨⟨b.slots[slot], Array.getElem?_eq_getElem hlt, by simpa using hunused⟩, ?_⟩
  rintro i ⟨e, he, hi⟩
  apply Nat.le_of_not_lt
  intro hlt'
  obtain ⟨hsize, rfl⟩ := Array.getElem?_eq_some_iff.mp he
  exact hi (by simpa using hbefore i hlt')

theorem not_nonempty_of_firstUnused? (h : b.firstUnused? = none) : ¬ b.unusedSlots.Nonempty := by
  rintro ⟨i, e, he, hunused⟩
  have hall := Array.findIdx?_eq_none_iff.mp h e (Array.mem_of_getElem? he)
  exact hunused (by simpa using hall)

end TlbBuffer

namespace Core

variable {ε : Type} {c c' : Core} {entry : TlbEntry} {slot : Nat}

/-- The entry was put into a slot and no other slot was changed. It is the first of the slots that
were not in use, if there were any. -/
structure Enters (c : Core) (entry : TlbEntry) (slot : Nat) (c' : Core) : Prop where
  slot_lt : slot < c.tlb.slots.size
  lowest : c.tlb.unusedSlots.Nonempty → IsLeast c.tlb.unusedSlots slot
  entered : c'.tlb.slots[slot]? = some entry
  others : ∀ i, i ≠ slot → c'.tlb.slots[i]? = c.tlb.slots[i]?

theorem enters_of_set (hslot : slot < c.tlb.slots.size)
    (hlowest : c.tlb.unusedSlots.Nonempty → IsLeast c.tlb.unusedSlots slot)
    (hset : c'.tlb.slots = c.tlb.slots.set! slot entry) : c.Enters entry slot c' where
  slot_lt := hslot
  lowest := hlowest
  entered := by
    rw [hset, Array.set!_eq_setIfInBounds, Array.getElem?_setIfInBounds_self_of_lt hslot]
  others i hi := by
    rw [hset, Array.set!_eq_setIfInBounds, Array.getElem?_setIfInBounds_ne hi.symm]

theorem Enters.resumed (h : Enters { c with interruptsEnabled := false } entry slot c') :
    c.Enters entry slot (c.resumed c') where
  slot_lt := h.slot_lt
  lowest := h.lowest
  entered := by
    rw [tlb_resumed]
    exact h.entered
  others i hi := by
    rw [tlb_resumed]
    exact h.others i hi

theorem write_eq_done (entry : TlbEntry) (h : slot < c.tlb.slots.size) :
    ∃ c', (write slot entry : Routine Core ε Unit) c = .done () c' [] ∧
      c'.tlb.slots = c.tlb.slots.set! slot entry := by
  unfold write
  simp only [if_pos h]
  exact ⟨_, rfl, rfl⟩

theorem enter_eq_done (entry : TlbEntry) (hsize : 0 < c.tlb.slots.size) :
    ∃ slot c', (enter entry : Routine Core ε Nat) c = .done slot c' [] ∧
      c.Enters entry slot c' := by
  cases hunused : c.tlb.firstUnused? with
  | some slot =>
    have hslot : slot < c.tlb.slots.size := (Array.findIdx?_eq_some_iff_getElem.mp hunused).1
    obtain ⟨c', hwrite, hset⟩ := write_eq_done (ε := ε) entry hslot
    refine ⟨slot, c', ?_, enters_of_set hslot (fun _ => ?_) hset⟩
    · rw [enter_of_some hunused, bind_of_ok hwrite]
      rfl
    · exact TlbBuffer.isLeast_of_firstUnused? hunused
  | none =>
    -- the slot is drawn, and to draw it changes the source only
    let drawn : Core :=
      { c with tlb := { c.tlb with source := (c.tlb.source.below c.tlb.slots.size).2 } }
    have hslot := RandomSource.below_lt hsize c.tlb.source
    obtain ⟨c', hwrite, hset⟩ := write_eq_done (ε := ε) (c := drawn) entry hslot
    refine ⟨_, c', ?_, enters_of_set hslot (fun hne => ?_) hset⟩
    · rw [enter_of_none hunused, writeAnywhere_of_ne hsize.ne', bind_of_ok hwrite]
      rfl
    · exact absurd hne (TlbBuffer.not_nonempty_of_firstUnused? hunused)

section Refill

variable {kind : FaultKind} {a : VirtualAddress} {s : AddressSpace} {region : Region}
  {frame : PhysicalPage}

theorem refill_of_none (hkind : kind ≠ .readOnly) (a : VirtualAddress) (c : Core) :
    refill kind a none c = .error .noSpace c [.faultRaised a.page.base] := by
  simp only [refill, if_neg hkind]
  rfl

theorem refill_of_panic {p : Panic} (hkind : kind ≠ .readOnly)
    (hassert : s.assertBacked = .error p) (a : VirtualAddress) (c : Core) :
    refill kind a (some s) c = .panic p c [.faultRaised a.page.base] := by
  simp only [refill, if_neg hkind, orFail_some, pure_bind, hassert]
  rfl

theorem refill_of_unmapped (hkind : kind ≠ .readOnly) (hassert : s.assertBacked = .ok ())
    (hregion : s.regionOf a.page.base = .unmapped) (c : Core) :
    refill kind a (some s) c = .error (.unmapped a) c [.faultRaised a.page.base] := by
  simp only [refill, if_neg hkind, orFail_some, pure_bind, hassert, orPanic_ok, hregion]
  rfl

theorem refill_of_frame (hkind : kind ≠ .readOnly) (hassert : s.assertBacked = .ok ())
    (hregion : s.regionOf a.page.base = region) (hframe : s.frameOf? region a.page = some frame)
    (henter : (enter (s.entryOf region a.page frame) : Routine Core FaultError Nat)
      { c with interruptsEnabled := false } = .done slot c' []) :
    refill kind a (some s) c =
      .done ⟨slot, s.entryOf region a.page frame, region⟩ (c.resumed c')
        [.faultRaised a.page.base, .faultServed a.page.base frame.base] := by
  have hreport (event : Event) (c : Core) :
      (report event : Routine Core FaultError Unit) c = .done () c [event] := rfl
  simp only [refill, if_neg hkind, orFail_some, pure_bind, hassert, orPanic_ok, hregion, hframe]
  rw [bind_of_ok (hreport _ c)]
  simp only [guarded, bind_of_ok henter, bind_of_ok (hreport _ c')]
  rfl

/-- On a core with slots, a fault at an address of a region of a complete space is served. -/
theorem refill_of_holds (hkind : kind ≠ .readOnly) (hwf : s.WellFormed) (hbacked : s.isBacked)
    (ha : s.Holds a region) (hslots : 0 < c.tlb.slots.size) :
    ∃ frame slot c', (s.framesOf region)[a.page.number - s.firstPage region]? = some frame ∧
      c.Enters (s.entryOf region a.page frame) slot c' ∧
      refill kind a (some s) c = .done ⟨slot, s.entryOf region a.page frame, region⟩ c'
        [.faultRaised a.page.base, .faultServed a.page.base frame.base] := by
  have hregion : s.regionOf a.page.base = region := by
    rw [AddressSpace.regionOf_page, ha.regionOf hwf]
  obtain ⟨frame, hplace, hframe⟩ := (hwf.backed hbacked).exists_frame ha
  obtain ⟨slot, left, henter, henters⟩ := enter_eq_done (ε := FaultError)
    (c := { c with interruptsEnabled := false }) (s.entryOf region a.page frame) hslots
  refine ⟨frame, slot, c.resumed left, hplace, henters.resumed, ?_⟩
  exact refill_of_frame hkind (hwf.assertBacked_eq_ok hbacked) hregion hframe henter

end Refill

theorem refillByCode_of_unknown {code : Nat} (h : 2 < code) (a : VirtualAddress)
    (space : Option AddressSpace) (c : Core) :
    refillByCode code a space c = .error (.unknownCode code) c [] := by
  match code, h with
  | code + 3, _ => rfl

theorem refillByCode_code (kind : FaultKind) (a : VirtualAddress) (space : Option AddressSpace)
    (c : Core) : refillByCode kind.code a space c = refill kind a space c := by
  have hpure : (ofExcept (.ok kind) : Routine Core FaultError FaultKind) = pure kind := rfl
  rw [refillByCode, FaultKind.ofCode_code, hpure, pure_bind]

/-- The codes below 2 are those of a load and of a store. -/
theorem exists_refill_eq {code : Nat} (h : code < 2) : ∃ kind ≠ FaultKind.readOnly,
    ∀ a space c, refillByCode code a space c = refill kind a space c := by
  obtain rfl | rfl : code = 0 ∨ code = 1 := by omega
  · exact ⟨.read, by decide, refillByCode_code .read⟩
  · exact ⟨.write, by decide, refillByCode_code .write⟩

/-- How a fault is answered: what is refused and changes nothing, and which entry is put where
otherwise. -/
structure Serves (c : Core) (code : Nat) (a : VirtualAddress) (space : Option AddressSpace) :
    Prop where
  unknown : 2 < code → refillByCode code a space c = .error (.unknownCode code) c []
  readOnly : code = 2 →
    refillByCode code a space c = .error (.readOnly a) c [.faultRaised a.page.base]
  noSpace : code < 2 → space = none →
    refillByCode code a space c = .error .noSpace c [.faultRaised a.page.base]
  unbacked : ∀ s, code < 2 → space = some s → ¬ s.isBacked → ∃ p, s.assertBacked = .error p ∧
    refillByCode code a space c = .panic p c [.faultRaised a.page.base]
  unmapped : ∀ s, code < 2 → space = some s → s.isBacked → (∀ region, ¬ s.Holds a region) →
    refillByCode code a space c = .error (.unmapped a) c [.faultRaised a.page.base]
  served : ∀ s region, code < 2 → space = some s → s.isBacked → s.Holds a region →
    ∃ frame slot entry c',
      (s.framesOf region)[a.page.number - s.firstPage region]? = some frame ∧
      entry.Maps a.page frame (¬ (s.loaded ∧ region = .segment1)) ∧
      refillByCode code a space c = .done ⟨slot, entry, region⟩ c'
        [.faultRaised a.page.base, .faultServed a.page.base frame.base] ∧
      c.Enters entry slot c' ∧ c.Settled c'

/-- Whatever the code, the address and the slots, and whichever space is current, a fault is answered
as it is to be. -/
theorem serves_refillByCode (c : Core) (hslots : 0 < c.tlb.slots.size) (code : Nat)
    (a : VirtualAddress) {space : Option AddressSpace} (hspace : ∀ s, space = some s → s.Made) :
    c.Serves code a space where
  unknown h := refillByCode_of_unknown h a space c
  readOnly h := by
    subst h
    exact (refillByCode_code .readOnly a space c).trans (refill_readOnly a space c)
  noSpace h hnone := by
    obtain ⟨kind, hkind, hrefill⟩ := exists_refill_eq h
    rw [hrefill, hnone, refill_of_none hkind]
  unbacked s h hs hbacked := by
    obtain ⟨kind, hkind, hrefill⟩ := exists_refill_eq h
    obtain ⟨p, hassert⟩ := AddressSpace.assertBacked_eq_error hbacked
    refine ⟨p, hassert, ?_⟩
    rw [hrefill, hs, refill_of_panic hkind hassert]
  unmapped s h hs hbacked hno := by
    obtain ⟨kind, hkind, hrefill⟩ := exists_refill_eq h
    have hassert := (hspace s hs).wellFormed.assertBacked_eq_ok hbacked
    have hregion : s.regionOf a.page.base = .unmapped := by
      rw [AddressSpace.regionOf_page, AddressSpace.regionOf_eq_unmapped hno]
    rw [hrefill, hs, refill_of_unmapped hkind hassert hregion]
  served s region h hs hbacked ha := by
    obtain ⟨kind, hkind, hrefill⟩ := exists_refill_eq h
    obtain ⟨frame, slot, c', hplace, henters, hdone⟩ :=
      refill_of_holds hkind (hspace s hs).wellFormed hbacked ha hslots
    rw [← hs, ← hrefill] at hdone
    have hsettled := endsIn_iff.mp (settled_refillByCode (c := c) code a space)
    rw [hdone] at hsettled
    exact ⟨frame, slot, _, c', hplace, s.maps_entryOf region a.page frame, hdone, henters, hsettled⟩

section Small

/-- The small core after a load from the first segment took up one of its two slots. -/
def halfUsed : Core :=
  small.access 0 (.ofNat 0x400123) (some smallSpace)

/-- A store to the last byte of the second segment takes up the other slot. -/
theorem serves_halfUsed :
    ((refillByCode 1 (.ofNat 0x10001FFF) (some smallSpace) halfUsed).value?.map Refill.slot =
      some 1) ∧
    ∃ frame slot entry c', (smallSpace.framesOf .segment2)[1]? = some frame ∧
      entry.Maps (.ofNumber 0x10001) frame (¬ (smallSpace.loaded ∧ Region.segment2 = .segment1)) ∧
      (refillByCode 1 (.ofNat 0x10001FFF) (some smallSpace) halfUsed).outcome =
        .ok ⟨slot, entry, .segment2⟩ ∧
      halfUsed.Enters entry slot c' := by
  refine ⟨by decide +kernel, ?_⟩
  have hspace (s : AddressSpace) (hs : some smallSpace = some s) : s.Made := by
    rw [← Option.some.inj hs]
    exact made_smallSpace
  have hserves := serves_refillByCode halfUsed (by decide +kernel) 1 (.ofNat 0x10001FFF) hspace
  have hholds : smallSpace.Holds (.ofNat 0x10001FFF) .segment2 := by
    have hin : smallSpace.segment2.any (·.contains (.ofNat 0x10001FFF)) := by decide +kernel
    exact AddressSpace.any_contains_iff.mp hin
  obtain ⟨frame, slot, entry, c', hplace, hmaps, hdone, henters, -⟩ :=
    hserves.served smallSpace .segment2 (by decide) rfl (by decide +kernel) hholds
  refine ⟨frame, slot, entry, c', ?_, hmaps, ?_, henters⟩
  · have hfirst : (Address.ofNat 0x10001FFF : VirtualAddress).page.number -
        smallSpace.firstPage .segment2 = 1 := by decide +kernel
    exact (congrArg (fun i => (smallSpace.framesOf .segment2)[i]?) hfirst).symm.trans hplace
  · exact congrArg Ending.outcome hdone

end Small

end Core

end MipsVM
