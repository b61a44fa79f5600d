import MipsVM.Proofs.Machine.Reached
import MipsVM.Proofs.Space.Translation

/-!
# What a space maps to physical memory

Once a space has frames it maps the bytes of its regions to bytes of its frames, page by page, and
nothing else. Regions are told apart by comparing addresses with their ends, and frames are found by
counting pages; the two agree on every page. As no space has a frame twice, no two bytes are mapped
to the same one.

## Main definitions

- `AddressSpace.MapsRegions`: the regions are mapped to the frames of the space, and nothing else is

## Main statements

- `WellFormed.mapsRegions`: a space with distinct frames maps its regions
- `Reached.translates_exactly`: every space with frames does, whatever was asked of its machine
-/

namespace MipsVM

namespace AddressSpace

variable {s : AddressSpace} {a b : VirtualAddress}

/-- The bytes of the regions are mapped to those of the frames of the space, and nothing else is. -/
structure MapsRegions (s : AddressSpace) : Prop where
  /-- No address lies in two regions. -/
  apart : ∀ a region region', s.Holds a region → s.Holds a region' → region = region'
  /-- An address belongs to the region in which it lies. -/
  region : ∀ a region, s.Holds a region → s.regionOf a = region
  /-- An address that lies in no region belongs to none. -/
  unmapped : ∀ a, (∀ region, ¬ s.Holds a region) → s.regionOf a = .unmapped
  /-- The frame of an address is found by the distance of its page from the first page of the region,
  and the offset stays the same. -/
  mapped : ∀ a, s.regionOf a ≠ .unmapped →
    s.firstPage (s.regionOf a) ≤ a.page.number ∧
      ∃ frame, (s.framesOf (s.regionOf a))[a.page.number - s.firstPage (s.regionOf a)]? =
          some frame ∧
        s.translate a = some (frame.join a.offset)
  /-- Nothing else is mapped. -/
  missing : ∀ a, s.regionOf a = .unmapped → s.translate a = none
  /-- Two addresses are not mapped to one. -/
  injective : ∀ a b pa, s.translate a = some pa → s.translate b = some pa → a = b

theorem Backed.translate_eq (h : s.Backed) (ha : s.regionOf a ≠ .unmapped) :
    s.firstPage (s.regionOf a) ≤ a.page.number ∧
      ∃ frame, (s.framesOf (s.regionOf a))[a.page.number - s.firstPage (s.regionOf a)]? =
          some frame ∧
        s.translate a = some (frame.join a.offset) := by
  have hholds := holds_regionOf ha
  obtain ⟨hlow, -⟩ := h.bounds hholds
  obtain ⟨frame, hframe, hfound⟩ := h.exists_frame hholds
  have hpage : a.page.number = a.toNat / 4096 := rfl
  refine ⟨by omega, frame, hframe, ?_⟩
  rw [translate, hfound, Option.map_some]

theorem WellFormed.mapsRegions (h : s.WellFormed) (hb : s.isBacked) (hnodup : s.frames.Nodup) :
    s.MapsRegions where
  apart _ _ _ ha ha' := (ha.regionOf h).symm.trans (ha'.regionOf h)
  region _ _ ha := ha.regionOf h
  unmapped _ := regionOf_eq_unmapped
  mapped _ ha := (h.backed hb).translate_eq ha
  missing _ := translate_eq_none_of_unmapped
  injective _ _ _ ha hb := translate_unique hnodup ha hb

end AddressSpace

namespace Machine

open Routine

variable {range : PhysicalRange} {s : Machine} {name : Nat} {space : AddressSpace}

/-- Whatever was asked of a machine since boot, each of its spaces that has frames maps exactly its
regions, and no two addresses to the same one. -/
theorem Reached.translates_exactly (h : s.Reached range) (hs : s.spaces.get? name = some space)
    (hb : space.isBacked) : space.MapsRegions := by
  have ho := h.orderly
  exact (ho.spaces.get? hs).mapsRegions hb (ho.distinct.get? hs)

/-- To give a space frames does not move its regions. -/
theorem exists_sameRegions {s : System} (h : s.machine.spaces.WellFormed)
    (hs : s.machine.spaces.get? name = some space) :
    ∃ space', (s.after (.space name .populate)).machine.spaces.get? name = some space' ∧
      space.SameRegions space' := by
  refine (endsIn_iff (R := fun machine : Machine => ∃ space',
    machine.spaces.get? name = some space' ∧ space.SameRegions space')).mp ?_
  refine SpaceRequest.ends_populate.mpr ((Directory.forall_get?_iff hs).mpr ?_)
  have hsame : ∃ space', s.machine.spaces.get? name = some space' ∧ space.SameRegions space' :=
    ⟨space, hs, rfl, rfl⟩
  refine (AddressSpace.populate_filled (h.get? hs)).mono (fun backed m hm => ?_)
    (fun _ _ _ => hsame) (fun _ _ _ => hsame)
  exact ⟨backed, by rw [Directory.get?_insert, if_pos rfl], hm.2.regions⟩

/-- The last byte of the second segment of the small system lies in its second frame, and the next
byte in none. -/
theorem translates_exactly_populated :
    ∃ space frame, System.populated.machine.spaces.get? 0 = some space ∧ space.isBacked ∧
      space.MapsRegions ∧ (space.framesOf .segment2)[1]? = some frame ∧
      space.translate (.ofNat 0x10001FFF) = some (frame.join ⟨0xFFF, by decide⟩) ∧
      space.translate (.ofNat 0x10002000) = none := by
  obtain ⟨space, -, hspace, hb, -⟩ := System.isBacked_populated
  have hmaps := System.reachable_populated.reached.translates_exactly hspace hb
  have hbare : System.segmented.machine.spaces.get? 0 =
      some ⟨some ⟨.ofNumber 0x400, 1, .ofFlags true false true, []⟩,
        some ⟨.ofNumber 0x10000, 2, .ofFlags true true false, []⟩, [], false⟩ := rfl
  obtain ⟨space', hspace', hregions⟩ :=
    exists_sameRegions System.reachable_segmented.sound.spaces hbare
  obtain rfl : space' = space := Option.some.inj (hspace'.symm.trans hspace)
  have hregion : space'.regionOf (.ofNat 0x10001FFF) = .segment2 := by
    rw [hregions.regionOf]
    decide
  have hnone : space'.regionOf (.ofNat 0x10002000) = .unmapped := by
    rw [hregions.regionOf]
    decide
  have hfirst : space'.firstPage .segment2 = 0x10000 := by
    obtain ⟨segment, hsegment, heq⟩ := Option.map_eq_some_iff.mp hregions.segment2
    rw [AddressSpace.firstPage, hsegment]
    exact congrArg (·.base.number) heq
  obtain ⟨-, frame, hframe, htranslate⟩ :=
    hmaps.mapped (.ofNat 0x10001FFF) (by rw [hregion]; decide)
  rw [hregion, hfirst] at hframe
  exact ⟨space', frame, hspace, hb, hmaps, hframe, htranslate, hmaps.missing _ hnone⟩

end Machine

end MipsVM
