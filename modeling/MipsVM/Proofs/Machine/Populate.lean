import MipsVM.Proofs.Machine.Fork

/-!
# Spaces that are given frames

Once there is a table, a space with two segments is given a frame of zeros for each page if as many
frames are free. The frames are taken one by one, and if they run out the table is left as if none
had been taken.

## Main definitions

- `System.Furnished`: a space was given frames

## Main statements

- `Slot.Tells.append_iff`, `Slot.Tells.eq_single`: what slots say of single frames
- `Reachable.populates_all_or_none`: a space is given frames exactly if it has none, both segments
  are defined and enough frames are free, and nothing is changed otherwise
-/

namespace MipsVM

open Routine

namespace Slot.Tells

variable {slot : Slot} {runs runs' : List Run} {n : Nat}

theorem append_iff (hno : ∀ r ∈ runs, ¬ r.Has n) :
    slot.Tells (runs ++ runs') n ↔ slot.Tells runs' n := by
  induction runs with
  | nil => exact Iff.rfl
  | cons r rest ih =>
    obtain ⟨hfirst, hrest⟩ := List.forall_mem_cons.mp hno
    rw [List.cons_append, cons_iff hfirst, ih hrest]

/-- What a slot says of a frame that is in use on its own. -/
theorem eq_single (h : slot.Tells runs n) (hp : runs.Pairwise Run.Apart)
    (hmem : Run.single n ∈ runs) : slot = ⟨1, 1, by decide, by decide⟩ := by
  have hsingle : (Run.single n).Has n := Run.has_single.mpr rfl
  rcases h with ⟨r, hr, hn, hpos, hlen⟩ | ⟨hno, -⟩
  · obtain rfl := Run.eq_of_has hp hr hmem hn hsingle
    have hself : n - (Run.single n).first = 0 := Nat.sub_self n
    ext
    · rw [hpos, hself]
    · exact hlen
  · exact absurd hsingle (hno _ hmem)

end Slot.Tells

namespace AddressSpace

variable {range : PhysicalRange} {m m' : Memory} {runs : List Run} {s s' : AddressSpace}
  {t : ResidentTable} {free i : Nat}

/-- The slots of the frames that a space was given say that each is in use on its own. -/
theorem Supplied.slotAt_of_mem (h : Supplied range m runs s s' m') (hm : m.Books range runs)
    (ht : m.allocator.table = some t)
    (ht' : m'.allocator.table = some { t with freeCount := free }) {frame : PhysicalPage}
    (hframe : frame ∈ s'.frames) :
    t.slotAt m'.ram (frame.number - t.first.number) = ⟨1, 1, by decide, by decide⟩ := by
  obtain ⟨hlow, hhigh, -⟩ := h.isFree hm ht hframe
  have htells := h.books.tells ht' (i := frame.number - t.first.number) (by dsimp only; omega)
  have hnumber : t.first.number + (frame.number - t.first.number) = frame.number :=
    Nat.add_sub_cancel' hlow
  refine htells.eq_single h.books.apart ?_
  rw [hnumber]
  exact List.mem_append_left _ (mem_singles hframe)

/-- All other slots are as they were. -/
theorem Supplied.slotAt_of_not_mem (h : Supplied range m runs s s' m') (hm : m.Books range runs)
    (ht : m.allocator.table = some t)
    (ht' : m'.allocator.table = some { t with freeCount := free }) (hi : i < t.total)
    (hother : ∀ frame ∈ s'.frames, frame.number ≠ t.first.number + i) :
    t.slotAt m'.ram i = t.slotAt m.ram i := by
  have htells := h.books.tells ht' hi
  rw [Slot.Tells.append_iff] at htells
  · exact htells.unique (hm.tells ht hi) hm.apart
  · intro r hr hn
    obtain ⟨frame, hframe, rfl⟩ := List.mem_map.mp hr
    exact hother frame hframe (Run.has_single.mp hn).symm

end AddressSpace

namespace System

variable {range : PhysicalRange} {s : System} {name : Nat} {space : AddressSpace}
  {first second : Segment} {t : ResidentTable}

/-- A space was given the frames that it wanted, and all else that was in use is as before. -/
structure Furnished (s : System) (name : Nat) (space : AddressSpace) (wanted : Nat)
    (t : ResidentTable) (backed : AddressSpace) (machine : Machine) : Prop where
  /-- The space has the same regions, now with a frame for each page. -/
  filled : space.Filled backed
  spaces : machine.spaces = s.machine.spaces.insert name backed
  count : backed.frameCount = wanted
  /-- The frames are distinct. -/
  distinct : backed.frames.Nodup
  /-- They were free frames of the table. -/
  fresh : ∀ frame ∈ backed.frames, t.first.number ≤ frame.number ∧
    frame.number < t.first.number + t.total ∧
      (t.slotAt s.machine.memory.ram (frame.number - t.first.number)).isFree
  /-- Each is a run of its own now. -/
  runs : ∀ frame ∈ backed.frames,
    t.slotAt machine.memory.ram (frame.number - t.first.number) = ⟨1, 1, by decide, by decide⟩
  /-- All their bytes are zero. -/
  blank : machine.memory.ram.Blank backed.frames
  /-- As many frames fewer are counted as free. -/
  table : ∃ free, machine.memory.allocator.table = some { t with freeCount := free } ∧
    t.freeCount = free + wanted
  /-- The other slots are as they were, and so are the bytes of all frames that were in use. -/
  others : ∀ i < t.total, (∀ frame ∈ backed.frames, frame.number ≠ t.first.number + i) →
    t.slotAt machine.memory.ram i = t.slotAt s.machine.memory.ram i
  kept : ∀ a, Held s.inUse a → machine.memory.ram.byteAt a = s.machine.memory.ram.byteAt a

/-- How a request to give frames to a space ends that has two segments and no frames. -/
theorem Sound.populate_ends (h : s.Sound range)
    (hspace : s.machine.spaces.get? name = some space) (hb : ¬ space.isBacked)
    (h₁ : space.segment1 = some first) (h₂ : space.segment2 = some second)
    (ht : s.machine.memory.allocator.table = some t) :
    (Request.space name .populate).perform.Ends s.machine
      (fun reply machine => reply = .done ∧
        first.pageCount + second.pageCount + stackPages ≤ t.freeCount ∧
        ∃ backed, s.Furnished name space (first.pageCount + second.pageCount + stackPages) t backed
          machine)
      (fun e machine => e = .space .outOfMemory ∧
        t.freeCount < first.pageCount + second.pageCount + stackPages ∧ s.Undone t machine)
      (fun _ _ => False) := by
  have hbooks := h.books
  rw [← AddressSpace.pageTotal_eq h₁ h₂]
  refine SpaceRequest.ends_populate.mpr ((Directory.forall_get?_iff hspace).mpr ?_)
  refine (AddressSpace.populate_ends_of_bare (h.spaces.get? hspace) hbooks h₁ h₂ hb).mono
    (fun backed m hm => ?_) (fun e m hm => ?_) (fun _ _ hno => hno)
  · obtain ⟨hsupplied, hblank⟩ := hm
    obtain ⟨hgrants, hfilled⟩ := id hsupplied
    obtain ⟨free, ht'⟩ := hgrants.leaves.table t ht
    have hcount : backed.frameCount = space.pageTotal := by
      rw [hfilled.backed.frameCount_eq, hfilled.regions.pageTotal]
    have hfree : t.freeCount = free + space.pageTotal := by
      rw [← hcount]
      exact hgrants.freeCount_eq hbooks ht ht'
    refine ⟨rfl, by omega, backed, ?_⟩
    exact {
      filled := hfilled
      spaces := rfl
      count := hcount
      distinct := nodup_of_singles hgrants.books.apart
      fresh := fun frame hframe => hsupplied.isFree hbooks ht hframe
      runs := fun frame hframe => hsupplied.slotAt_of_mem hbooks ht ht' hframe
      blank := hblank
      table := ⟨free, ht', hfree⟩
      others := fun i hi hother => hsupplied.slotAt_of_not_mem hbooks ht ht' hi hother
      kept := fun a ha => hgrants.leaves.ram.bytes a ha }
  · exact ⟨congrArg _ hm.1, undone_of_lacks hbooks (fun _ hr => hr) ht hm.2⟩

/-- A request to give frames to a space that is refused at once changes nothing. -/
theorem perform_populate_of_fail {e : SpaceError} (hspace : s.machine.spaces.get? name = some space)
    (hfail : space.populate = Routine.fail e) :
    (Request.space name .populate).perform s.machine = .error (.space e) s.machine [] := by
  have hget : Machine.getSpace name s.machine = .done space s.machine [] := by
    unfold Machine.getSpace
    rw [hspace]
  refine (bind_of_ok hget).trans ?_
  rw [hfail]
  rfl

/-- In every reachable system with a table, a space is given a frame of zeros for each page if it has
no frames, both its segments are defined and enough frames are free. Otherwise it is refused and
nothing is changed; if that is for want of memory, the frames that were handed out before they ran
out are free again. -/
theorem Reachable.populates_all_or_none (h : Reachable range s)
    (hspace : s.machine.spaces.get? name = some space)
    (ht : s.machine.memory.allocator.table = some t) :
    (space.isBacked ∧
      ((Request.space name .populate).perform s.machine).outcome =
        .error (.error (.space .alreadyBacked)) ∧
      (s.after (.space name .populate)).machine = s.machine) ∨
    (¬ space.isBacked ∧ (space.segment1 = none ∨ space.segment2 = none) ∧
      ((Request.space name .populate).perform s.machine).outcome =
        .error (.error (.space .missingRegion)) ∧
      (s.after (.space name .populate)).machine = s.machine) ∨
    ∃ first second, ¬ space.isBacked ∧ space.segment1 = some first ∧
      space.segment2 = some second ∧
      ((first.pageCount + second.pageCount + stackPages ≤ t.freeCount ∧
        ((Request.space name .populate).perform s.machine).outcome = .ok .done ∧
        ∃ backed, s.Furnished name space (first.pageCount + second.pageCount + stackPages) t backed
          (s.after (.space name .populate)).machine) ∨
      (t.freeCount < first.pageCount + second.pageCount + stackPages ∧
        ((Request.space name .populate).perform s.machine).outcome =
          .error (.error (.space .outOfMemory)) ∧
        s.Undone t (s.after (.space name .populate)).machine)) := by
  by_cases hb : space.isBacked
  · have hrun := perform_populate_of_fail hspace (AddressSpace.populate_of_isBacked hb)
    exact .inl ⟨hb, by rw [hrun]; rfl, by rw [after, hrun]; rfl⟩
  by_cases hmissing : space.segment1 = none ∨ space.segment2 = none
  · have hrun := perform_populate_of_fail hspace (AddressSpace.populate_of_missing hb hmissing)
    exact .inr (.inl ⟨hb, hmissing, by rw [hrun]; rfl, by rw [after, hrun]; rfl⟩)
  rw [not_or, ← ne_eq, ← ne_eq, Option.ne_none_iff_exists', Option.ne_none_iff_exists'] at hmissing
  obtain ⟨⟨first, h₁⟩, second, h₂⟩ := hmissing
  refine .inr (.inr ⟨first, second, hb, h₁, h₂, ?_⟩)
  rcases (h.sound.populate_ends hspace hb h₁ h₂ ht).cases with
    ⟨reply, hout, hends⟩ | ⟨e, hout, hends⟩ | ⟨p, hout, hno⟩
  · obtain ⟨rfl, hfree, hfurnished⟩ := hends
    exact .inl ⟨hfree, hout, hfurnished⟩
  · obtain ⟨rfl, hfew, hundone⟩ := hends
    exact .inr ⟨hfew, hout, hundone⟩
  · exact hno.elim

/-- In the small system the space 0 has two segments, and is given frames. -/
theorem populates_all_or_none_segmented :
    ∃ space t backed, segmented.machine.spaces.get? 0 = some space ∧
      ((Request.space 0 .populate).perform segmented.machine).outcome = .ok .done ∧
      segmented.Furnished 0 space 15 t backed (segmented.after (.space 0 .populate)).machine := by
  have htable : segmented.machine.memory.allocator.table =
      some ⟨.ofNumber 19, .ofNat 0x12000, 61, 61⟩ := rfl
  have hspace : segmented.machine.spaces.get? 0 =
      some ⟨some ⟨.ofNumber 0x400, 1, .ofFlags true false true, []⟩,
        some ⟨.ofNumber 0x10000, 2, .ofFlags true true false, []⟩, [], false⟩ := rfl
  rcases reachable_segmented.populates_all_or_none hspace htable with
    ⟨hb, -⟩ | ⟨-, hmissing, -⟩ | ⟨first, second, -, h₁, h₂, ⟨-, hout, hbacked⟩ | ⟨hfew, -⟩⟩
  · exact absurd hb (by decide)
  · exact absurd hmissing (by decide)
  · obtain rfl := Option.some.inj h₁
    obtain rfl := Option.some.inj h₂
    obtain ⟨backed, hfurnished⟩ := hbacked
    exact ⟨_, _, backed, hspace, hout, hfurnished⟩
  · obtain rfl := Option.some.inj h₁
    obtain rfl := Option.some.inj h₂
    exact absurd hfew (by decide)

end System

end MipsVM
