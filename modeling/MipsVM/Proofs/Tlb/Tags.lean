import Mathlib.Data.List.Nodup
import MipsVM.Proofs.Machine.Lifecycle
import MipsVM.Proofs.Tlb.Refill

/-!
# No tag stands in two slots

An access looks for the tag of its page in all slots of the translation buffer, whether they are in
use or not, and must not find it twice. It does not, whatever spaces are made current, whatever is
accessed, and whichever slots are replaced: a page is entered only if no slot carries its tag.

## Main definitions

- `TlbBuffer.tags`, `TlbBuffer.Tagged`: the tags of all slots, and that they are distinct
- `Core.access`: an access by user code
- `Core.Reachable`: the cores that are reached from a new one

## Main statements

- `Tagged.not_mem_tags`: the tag of a page that is not translated is in no slot
- `Tagged.set`: to enter such a page keeps the tags distinct
- `Reachable.exists_replaced`: whichever slot is to be replaced, some reached core replaces it
- `Reachable.nodup_tags`: all tags are distinct

## Design notes

A buffer of more than 524288 slots cannot give all of them a page of the kernel window.
-/

namespace MipsVM

open Routine

namespace TlbBuffer

variable {b b' : TlbBuffer} {e : TlbEntry} {slot : Nat}

/-- The tags of all slots. -/
def tags (b : TlbBuffer) : List VirtualPage :=
  b.slots.toList.map (·.hi.page)

/-- The tags are distinct, and those of slots that are not in use are not pages of user memory. -/
structure Tagged (b : TlbBuffer) : Prop where
  nodup : b.tags.Nodup
  unused : ∀ e ∈ b.slots, ¬ e.isValid → TlbEntry.firstUnusedPage ≤ e.hi.page.number

theorem Unused.tagged (h : b.Unused) (hsize : b.slots.size ≤ 0x80000) : b.Tagged where
  nodup := by
    -- the tag of a slot that is not in use tells which slot it is
    have htag {i : Nat} (hi : i < b.slots.size) :
        b.slots[i].hi.page.number = TlbEntry.firstUnusedPage + i :=
      TlbEntry.page_unused (by omega) (h i _ (Array.getElem?_eq_getElem hi))
    rw [List.Nodup, tags, List.pairwise_map, List.pairwise_iff_getElem]
    intro i j hi hj hlt heq
    have hnumber := congrArg Page.number heq
    rw [Array.getElem_toList, Array.getElem_toList, htag, htag] at hnumber
    omega
  unused e he _ := by
    obtain ⟨i, hi, rfl⟩ := Array.getElem_of_mem he
    rw [TlbEntry.page_unused (by omega) (h i _ (Array.getElem?_eq_getElem hi))]
    exact Nat.le_add_right _ _

/-- A page of user memory that is not translated has its tag in no slot. -/
theorem Tagged.not_mem_tags (h : b.Tagged) {a : VirtualAddress} (hmiss : b.translate a = none)
    (hlt : a.page.number < TlbEntry.firstUnusedPage) : a.page ∉ b.tags := by
  intro hmem
  obtain ⟨e, he, htag⟩ := List.mem_map.mp hmem
  obtain ⟨pa, hpa⟩ := exists_of_mem h.unused (Array.mem_toList_iff.mp he) htag hlt
  rw [hmiss] at hpa
  cases hpa

/-- An entry with a new tag may be put into any slot. -/
theorem Tagged.set (h : b.Tagged) (hvalid : e.isValid) (hnew : e.hi.page ∉ b.tags)
    (hslots : b'.slots = b.slots.set! slot e) : b'.Tagged where
  nodup := by
    rw [tags, hslots, Array.set!_eq_setIfInBounds, Array.toList_setIfInBounds, List.map_set]
    exact h.nodup.set hnew
  unused e' he' hn := by
    rw [hslots] at he'
    rcases Array.mem_or_eq_of_mem_setIfInBounds he' with he' | rfl
    · exact h.unused e' he' hn
    · exact absurd hvalid hn

theorem Tagged.congr (h : b.Tagged) (hslots : b'.slots = b.slots) : b'.Tagged := by
  obtain ⟨hnodup, hunused⟩ := h
  refine ⟨?_, by rwa [hslots]⟩
  rwa [tags, hslots]

end TlbBuffer

/-- The space is found in a directory that is reached by requests to machines. -/
def AddressSpace.Made (space : AddressSpace) : Prop :=
  ∃ d name, Directory.Made d ∧ d.get? name = some space

theorem AddressSpace.Made.wellFormed {space : AddressSpace} (h : space.Made) : space.WellFormed := by
  obtain ⟨d, name, hd, hspace⟩ := h
  exact hd.wellFormed.get? hspace

namespace Core

variable {c : Core} {slots : Nat}

/-- The core after an access. The kernel is asked for the page, the access being given by its code,
if the buffer does not translate the address. -/
def access (c : Core) (code : Nat) (a : VirtualAddress) (space : Option AddressSpace) : Core :=
  match c.tlb.translate a with
  | some _ => c
  | none => (refillByCode code a space c).state

/-- The cores that are reached from a new one with some slots and any source of random choices.
Spaces are made current, and user code accesses memory in spaces. All but the slots may change, so
that whichever slot can be drawn is replaced. -/
inductive Reachable (slots : Nat) : Core → Prop
  | new {source : RandomSource} {c : Core} : Core.new slots source = .ok c → Reachable slots c
  | activate {c : Core} (space : AddressSpace) :
    Reachable slots c → Reachable slots (switchTo (ε := FaultError) space c).state
  | access {c : Core} {space : Option AddressSpace} (code : Nat) (a : VirtualAddress) :
    (∀ s, space = some s → s.Made) → Reachable slots c → Reachable slots (c.access code a space)
  | other {c c' : Core} :
    c'.tlb.slots = c.tlb.slots → Reachable slots c → Reachable slots c'

/-- An access keeps the tags distinct. -/
theorem tagged_access (h : c.tlb.Tagged) {space : Option AddressSpace}
    (hspace : ∀ s, space = some s → s.Made) (code : Nat) (a : VirtualAddress) :
    (c.access code a space).tlb.slots.size = c.tlb.slots.size ∧
      (c.access code a space).tlb.Tagged := by
  unfold access
  split
  · exact ⟨rfl, h⟩
  · next hmiss =>
    have hrefill : (refillByCode code a space).EndsIn c fun c' =>
        c'.tlb.slots.size = c.tlb.slots.size ∧ c'.tlb.Tagged := by
      refine (refillByCode_ends code a space).mono (fun _ c' hc' => ?_)
        (fun _ _ hsame => ⟨congrArg Array.size hsame, h.congr hsame⟩)
        (fun _ _ hsame => ⟨congrArg Array.size hsame, h.congr hsame⟩)
      obtain ⟨s, frame, slot, hs, hframe, -, hslots⟩ := hc'
      have hlt := (hspace s hs).wellFormed.page_lt hframe
      refine ⟨?_, h.set AddressSpace.isValid_entryOf (h.not_mem_tags hmiss hlt) hslots⟩
      rw [hslots, Array.set!_eq_setIfInBounds, Array.size_setIfInBounds]
    exact endsIn_iff.mp hrefill

theorem tagged_switchTo (hsize : c.tlb.slots.size ≤ 0x80000) (space : AddressSpace) :
    (switchTo (ε := FaultError) space c).state.tlb.slots.size = c.tlb.slots.size ∧
      (switchTo (ε := FaultError) space c).state.tlb.Tagged := by
  have hflush : (flush : Routine Core FaultError Unit).EndsIn c fun c' =>
      c'.tlb.slots.size = c.tlb.slots.size ∧ c'.tlb.Tagged := by
    refine (flush_ends hsize).mono (fun _ c' hc' => ?_) (fun _ _ hno => hno.elim)
      (fun _ _ hno => hno.elim)
    obtain ⟨hsize', hunused⟩ := hc'
    exact ⟨hsize', hunused.tagged (Nat.le_trans (Nat.le_of_eq hsize') hsize)⟩
  exact endsIn_iff.mp hflush

theorem Reachable.tagged (h : Reachable slots c) (hslots : slots ≤ 0x80000) :
    c.tlb.slots.size = slots ∧ c.tlb.Tagged := by
  induction h with
  | new h =>
    obtain ⟨rfl, hunused⟩ := new_eq_ok h
    exact ⟨rfl, hunused.tagged hslots⟩
  | activate space _ ih =>
    obtain ⟨rfl, -⟩ := ih
    exact tagged_switchTo hslots space
  | access code a hspace _ ih =>
    obtain ⟨rfl, htagged⟩ := ih
    exact tagged_access htagged hspace code a
  | other hsame _ ih =>
    obtain ⟨rfl, htagged⟩ := ih
    exact ⟨congrArg Array.size hsame, htagged.congr hsame⟩

/-- Whichever slot is to be replaced, there is a core with the same slots that replaces it. -/
theorem Reachable.exists_replaced {ε : Type} (h : Reachable slots c) (hslots : slots ≤ 0x80000)
    {slot : Nat} (hslot : slot < slots) (entry : TlbEntry) :
    ∃ c', Reachable slots c' ∧ c'.tlb.slots = c.tlb.slots ∧
      ((writeAnywhere entry : Routine Core ε Nat) c').outcome = .ok slot := by
  obtain ⟨rfl, -⟩ := h.tagged hslots
  obtain ⟨source, hsource⟩ := RandomSource.exists_below_eq hslot
  let drawn : Core := { c with tlb := { c.tlb with source := source } }
  have hsize : drawn.tlb.slots.size ≠ 0 := Nat.ne_of_gt (Nat.zero_lt_of_lt hslot)
  refine ⟨drawn, .other (c := c) rfl h, rfl, ?_⟩
  rw [writeAnywhere_of_ne hsize]
  simp only [drawn, hsource]
  have hwrite : (write slot entry : Routine Core ε Unit)
      { c with tlb := { c.tlb with source := (source.below c.tlb.slots.size).2 } } =
        .done () _ [] := if_pos hslot
  rw [bind_of_ok hwrite]
  rfl

/-- Whatever was made current and whatever was accessed since the core was new, no two slots carry
one tag. -/
theorem Reachable.nodup_tags (h : Reachable slots c) (hslots : slots ≤ 0x80000) :
    c.tlb.tags.Nodup :=
  (h.tagged hslots).2.nodup

section Small

/-- A new core with two slots. -/
def small : Core :=
  let unused (number : Nat) : TlbEntry := ⟨.ofPage (.ofNumber number), .zero⟩
  ⟨true, 0, ⟨#[unused 0x80000, unused 0x80001], .ofSeed 0⟩⟩

/-- A machine with a space that has frames. -/
def furnished : Machine :=
  stateAfter Request.perform
    [.space 0 .create, .space 0 (.addRegion (.ofNat 0x400000) 4096 (.ofFlags true false true)),
      .space 0 (.addRegion (.ofNat 0x10000000) 5000 (.ofFlags true true false)),
      .space 0 .populate]
    (.boot System.smallRam small)

/-- That space. -/
def smallSpace : AddressSpace :=
  (furnished.spaces.get? 0).getD .empty

theorem made_smallSpace : smallSpace.Made := by
  have hmade : Directory.Made furnished.spaces := Directory.Made.empty.stateAfter _
  have hsome : (furnished.spaces.get? 0).isSome := by decide +kernel
  obtain ⟨space, hspace⟩ := Option.isSome_iff_exists.mp hsome
  refine ⟨_, 0, hmade, ?_⟩
  rw [smallSpace, hspace, Option.getD_some]

/-- A load from the first segment takes up the first slot. -/
theorem nodup_tags_small :
    (small.access 0 (.ofNat 0x400123) (some smallSpace)).tlb.tags.map Page.number =
        [0x400, 0x80001] ∧
      (small.access 0 (.ofNat 0x400123) (some smallSpace)).tlb.tags.Nodup := by
  have hnew : Reachable 2 small := .new (c := small) (show Core.new 2 (.ofSeed 0) = .ok small from rfl)
  have hspace (s : AddressSpace) (hs : some smallSpace = some s) : s.Made := by
    rw [← Option.some.inj hs]
    exact made_smallSpace
  have haccess := hnew.access 0 (.ofNat 0x400123) hspace
  exact ⟨by decide +kernel, haccess.nodup_tags (by decide)⟩

end Small

end Core

end MipsVM
