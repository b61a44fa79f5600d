import MipsVM.Proofs.Machine.Isolation
import MipsVM.Proofs.Machine.Lifecycle
import MipsVM.Proofs.Machine.Populate
import MipsVM.Proofs.Space.Release

/-!
# Spaces are torn down in any order

A space that was given its frames by the frame table is released without a complaint, and only its
own frames are given back. Several such spaces may therefore be released in any order: each time the
same machine is left, with the slots of their frames cleared in the table.

A frame that was handed out before there was a table cannot be given back, so it matters when a
space was given its frames. A history of the requests keeps account of this.

## Main definitions

- `Machine.withoutSpaces`: a machine after some spaces were released
- `Machine.TearsDown`: what it means to release some spaces in any order
- `System.Prepared`: a system that was reached, and the spaces that the table has supplied

## Main statements

- `Sound.release_eq`, `Sound.tearsDown`: one space and several spaces are released
- `SpaceRequest.manages`: the spaces whose frames belong to the table, after a request
- `Prepared.managed`: the frames of the spaces that the table has supplied belong to it
- `released_in_any_order`: runs of a table and spaces of a machine, whatever was asked before
-/

namespace MipsVM

open Routine

namespace Directory

variable {d : Directory} {t : ResidentTable} {name b : Nat} {space : AddressSpace}
  {names names' : List Nat}

/-- The frames of the space of a name. -/
def framesOf (d : Directory) (name : Nat) : List PhysicalPage :=
  match d.get? name with
  | some space => space.frames
  | none => []

theorem framesOf_of_get? (h : d.get? name = some space) : d.framesOf name = space.frames := by
  rw [framesOf, h]

theorem framesOf_erase_of_ne (h : b ≠ name) : (d.erase name).framesOf b = d.framesOf b := by
  rw [framesOf, framesOf, get?_erase, if_neg h]

/-- The directory without some names. -/
def eraseAll (d : Directory) (names : List Nat) : Directory :=
  ⟨d.entries.filter fun entry => entry.1 ∉ names⟩

@[simp] theorem eraseAll_nil : d.eraseAll [] = d := by
  simp [eraseAll]

theorem eraseAll_erase : (d.erase name).eraseAll names = d.eraseAll (name :: names) := by
  simp only [eraseAll, erase, List.filter_filter, List.mem_cons, not_or, Bool.decide_and,
    Bool.and_comm]

theorem eraseAll_perm (h : names.Perm names') : d.eraseAll names = d.eraseAll names' := by
  simp only [eraseAll, h.mem_iff]

/-- The frames of the space of a name belong to the table. -/
def Managed (d : Directory) (t : ResidentTable) (name : Nat) : Prop :=
  ∃ space, d.get? name = some space ∧ ∀ frame ∈ space.frames, t.first.number ≤ frame.number

theorem Managed.erase (h : d.Managed t b) (hne : b ≠ name) : (d.erase name).Managed t b := by
  obtain ⟨space, hspace, hframes⟩ := h
  exact ⟨space, by rw [get?_erase, if_neg hne, hspace], hframes⟩

theorem managed_insert (hself : b = name → ∀ frame ∈ space.frames, t.first.number ≤ frame.number)
    (hother : b ≠ name → d.Managed t b) : (d.insert name space).Managed t b := by
  by_cases hb : b = name
  · exact ⟨space, by rw [get?_insert, if_pos hb], hself hb⟩
  · obtain ⟨old, hold, hframes⟩ := hother hb
    exact ⟨old, by rw [get?_insert, if_neg hb, hold], hframes⟩

section Insert

variable (hnew : ∀ frame ∈ space.frames, t.first.number ≤ frame.number)
include hnew

theorem Managed.insert (h : d.Managed t b) : (d.insert name space).Managed t b :=
  managed_insert (fun _ => hnew) fun _ => h

/-- A space with frames of the table gets a name, and all others keep theirs. -/
theorem managed_insert_supplied {displaced : Option Nat} :
    (∀ b, some name = some b → (d.insert name space).Managed t b) ∧
      ∀ b, d.Managed t b → displaced ≠ some b → (d.insert name space).Managed t b := by
  refine ⟨fun b hb => ?_, fun _ hb _ => hb.insert hnew⟩
  obtain rfl := Option.some.inj hb
  exact managed_insert (fun _ => hnew) fun hne => absurd rfl hne

end Insert

/-- A name is given to a space with the frames of the one that has it. -/
theorem Managed.insert_same (h : d.Managed t b) (hs : d.get? name = some space)
    {left : AddressSpace} (hleft : left.frames = space.frames) :
    (d.insert name left).Managed t b := by
  refine managed_insert ?_ fun _ => h
  rintro rfl
  obtain ⟨old, hold, hframes⟩ := h
  obtain rfl : space = old := Option.some.inj (hs.symm.trans hold)
  rwa [hleft]

end Directory

section Release

variable {range : PhysicalRange} {s : Machine} {runs : List Run} {name : Nat}
  {space : AddressSpace}

/-- The machine after some spaces were released. -/
def Machine.withoutSpaces (s : Machine) (names : List Nat) : Machine :=
  { s with
    memory := s.memory.withoutRuns (singles (names.flatMap s.spaces.framesOf))
    spaces := s.spaces.eraseAll names }

/-- The request to release the space of a name. -/
def Request.release (name : Nat) : Request :=
  .space name .release

/-- In whichever order the spaces are released, each release succeeds, no frame is refused, and the
machine is left without these spaces and their frames. -/
def Machine.TearsDown (s : Machine) (released : List Nat) : Prop :=
  ∀ order : List Nat, order.Perm released →
    (∀ ending ∈ serve Request.perform (order.map .release) s,
      ending.outcome = .ok .done ∧ Memory.Returned ending.events) ∧
    stateAfter Request.perform (order.map .release) s = s.withoutSpaces released

namespace Machine

@[simp] theorem withoutSpaces_nil : s.withoutSpaces [] = s := by
  simp [withoutSpaces, singles]

theorem withoutSpaces_perm {names names' : List Nat} (h : names.Perm names') :
    s.withoutSpaces names = s.withoutSpaces names' := by
  rw [withoutSpaces, withoutSpaces, Directory.eraseAll_perm h,
    Memory.withoutRuns_perm (singles_perm (h.flatMap_right _))]

/-- A space whose frames belong to the table is released. -/
theorem Sound.release_eq (h : s.Sound range runs) (hs : s.spaces.get? name = some space)
    (hm : s.memory.Manages space.frames) :
    ∃ events, (Request.release name).perform s =
      .done .done { s with
        memory := s.memory.withoutRuns (singles space.frames)
        spaces := s.spaces.erase name } events ∧ Memory.Returned events := by
  obtain ⟨events, hrelease, hreturned⟩ :=
    AddressSpace.release_eq (ε := MachineError) (h.books_of_get? hs) hm
  refine ⟨events, ?_, hreturned⟩
  have hremove : removeSpace name s = .done space { s with spaces := s.spaces.erase name } [] := by
    rw [removeSpace, hs]
  have hmemory : (onMemory id space.release : Routine Machine MachineError Unit)
      { s with spaces := s.spaces.erase name } =
        .done () { s with
          memory := s.memory.withoutRuns (singles space.frames)
          spaces := s.spaces.erase name } events := by
    rw [onMemory, Routine.mapError, within_apply, hrelease]
    rfl
  rw [Request.release, Request.perform, SpaceRequest.perform, bind_of_ok hremove,
    bind_of_ok hmemory]
  simp only [pure_apply, List.append_nil, List.nil_append]
  rfl

theorem Sound.release (h : s.Sound range runs) (name : Nat) :
    ((Request.release name).perform s).state.Sound range runs := by
  have hcarries : (SpaceRequest.release.perform name).EndsIn s _ :=
    SpaceRequest.perform_carries h.spaces
  obtain ⟨hcarries, hfollows⟩ :=
    endsIn_iff.mp (hcarries.and (SpaceRequest.perform_follows h trivial))
  exact ⟨hcarries.wellFormed, hfollows.books⟩

/-- Spaces whose frames belong to the table are released one after the other. -/
theorem Sound.serve_release (h : s.Sound range runs) {order : List Nat} (hnodup : order.Nodup)
    {t : ResidentTable} (ht : s.memory.allocator.table = some t)
    (hmanaged : ∀ name ∈ order, s.spaces.Managed t name) :
    (∀ ending ∈ serve Request.perform (order.map .release) s,
      ending.outcome = .ok .done ∧ Memory.Returned ending.events) ∧
    stateAfter Request.perform (order.map .release) s = s.withoutSpaces order := by
  induction order generalizing s t with
  | nil =>
    exact ⟨List.forall_mem_nil _, withoutSpaces_nil.symm⟩
  | cons name rest ih =>
    obtain ⟨hfresh, hrest⟩ := List.nodup_cons.mp hnodup
    obtain ⟨space, hspace, hframes⟩ := hmanaged name List.mem_cons_self
    obtain ⟨events, hrelease, hreturned⟩ := h.release_eq hspace ⟨t, ht, hframes⟩
    have hother (b : Nat) (hb : b ∈ rest) : b ≠ name := by
      rintro rfl
      exact hfresh hb
    have hsound := h.release name
    rw [hrelease] at hsound
    change Sound range { s with
      memory := s.memory.withoutRuns (singles space.frames)
      spaces := s.spaces.erase name } runs at hsound
    obtain ⟨free, ht'⟩ := Memory.table_withoutRuns (singles space.frames) ht
    obtain ⟨hendings, hstate⟩ := ih hsound hrest ht' fun b hb =>
      (hmanaged b (List.mem_cons_of_mem _ hb)).erase (hother b hb)
    rw [List.map_cons, serve, stateAfter, hrelease]
    refine ⟨List.forall_mem_cons.mpr ⟨⟨rfl, hreturned⟩, hendings⟩, hstate.trans ?_⟩
    have hframesOf : rest.flatMap (s.spaces.erase name).framesOf =
        rest.flatMap s.spaces.framesOf :=
      List.flatMap_congr fun b hb => Directory.framesOf_erase_of_ne (hother b hb)
    simp only [withoutSpaces, hframesOf, Directory.eraseAll_erase, h.books.withoutRuns_withoutRuns,
      List.flatMap_cons, Directory.framesOf_of_get? hspace, singles_append]

/-- Spaces whose frames belong to the table are released in any order. -/
theorem Sound.tearsDown (h : s.Sound range runs) {released : List Nat} (hnodup : released.Nodup)
    (hmanaged : ∀ name ∈ released, ∃ t, s.memory.allocator.table = some t ∧
      s.spaces.Managed t name) : s.TearsDown released := by
  intro order horder
  rw [← withoutSpaces_perm horder]
  cases ht : s.memory.allocator.table with
  | some t =>
    refine h.serve_release (horder.nodup_iff.mpr hnodup) ht fun name hname => ?_
    obtain ⟨t', ht', hname⟩ := hmanaged name (horder.mem_iff.mp hname)
    rwa [← Option.some.inj (ht.symm.trans ht')] at hname
  | none =>
    -- without a table there is nothing to release
    have hnil : order = [] := by
      refine List.eq_nil_iff_forall_not_mem.mpr fun name hname => ?_
      obtain ⟨t, ht', -⟩ := hmanaged name (horder.mem_iff.mp hname)
      exact absurd (ht.symm.trans ht') (Option.some_ne_none t).symm
    subst hnil
    exact ⟨List.forall_mem_nil _, withoutSpaces_nil.symm⟩

end Machine

end Release

namespace SpaceRequest

variable {range : PhysicalRange} {s : Machine} {runs : List Run} {name : Nat} {r : SpaceRequest}
  {t : ResidentTable}

/-- The name of the space that a request gives frames to, if it succeeds. -/
def supplied (name : Nat) : SpaceRequest → Option Nat
  | .populate => some name
  | .forkTo child => some child
  | _ => none

/-- A space that is given frames is given frames of the table, and all others keep those that they
have, unless they lose their name. -/
def Manages (r : SpaceRequest) (t : ResidentTable) (name : Nat) (s : Machine) : Prop :=
  (r.perform name).Ends s
    (fun _ s' => (∀ b, r.supplied name = some b → s'.spaces.Managed t b) ∧
      ∀ b, s.spaces.Managed t b → r.displaced name ≠ some b → s'.spaces.Managed t b)
    (fun _ s' => ∀ b, s.spaces.Managed t b → s'.spaces.Managed t b)
    (fun _ s' => ∀ b, s.spaces.Managed t b → s'.spaces.Managed t b)

theorem forall_of_supplied_eq_none (h : r.supplied name = none) {d : Directory} :
    ∀ b, r.supplied name = some b → d.Managed t b := by
  intro b hb
  rw [h] at hb
  cases hb

theorem supplied_eq_none (h : r.Reads ∨ r.Writes) : r.supplied name = none := by
  cases r <;> first | rfl | exact (or_self_iff.mp h).elim

theorem manages_of_spaces (h : r.Reads ∨ r.Writes) : r.Manages t name s := by
  refine Ends.mono (perform_spaces h) (fun _ _ hs => ?_) (fun _ _ hs => ?_) fun _ _ hs => ?_
  · rw [hs]
    exact ⟨forall_of_supplied_eq_none (supplied_eq_none h), fun _ hb _ => hb⟩
  · rw [hs]
    exact fun _ hb => hb
  · rw [hs]
    exact fun _ hb => hb

theorem manages_create : create.Manages t name s :=
  ⟨forall_of_supplied_eq_none rfl, fun _ hb _ => hb.insert (List.forall_mem_nil _)⟩

theorem manages_release (h : s.Sound range runs) : release.Manages t name s := by
  refine ends_release.mpr ⟨fun space hspace => ?_, fun _ _ hb => hb⟩
  refine (AddressSpace.release_ends (h.books_of_get? hspace)).mono (fun _ _ _ => ?_)
    (fun _ _ hno => hno.elim) fun _ _ hno => hno.elim
  refine ⟨forall_of_supplied_eq_none rfl, fun b hb hne => hb.erase ?_⟩
  rintro rfl
  exact hne rfl

theorem manages_addRegion (a : VirtualAddress) (size : Nat) (protection : Protection) :
    (addRegion a size protection).Manages t name s := by
  refine ends_addRegion.mpr ⟨fun space hspace => ?_, fun _ _ hb => hb⟩
  have hinsert (left : AddressSpace) (hleft : left.frames = space.frames) (b : Nat)
      (hb : s.spaces.Managed t b) : (s.spaces.insert name left).Managed t b :=
    hb.insert_same hspace hleft
  refine Ends.mono (AddressSpace.frames_addRegion space a size protection)
    (fun _ left hleft => ⟨forall_of_supplied_eq_none rfl, ?_⟩) (fun _ left => hinsert left)
    fun _ left => hinsert left
  exact fun b hb _ => hinsert left hleft b hb

theorem manages_populate (h : s.Sound range runs) (ht : s.memory.allocator.table = some t) :
    populate.Manages t name s := by
  refine ends_populate.mpr ⟨fun space hspace => ?_, fun _ _ hb => hb⟩
  exact (AddressSpace.populate_ends (h.spaces.get? hspace) h.books).mono
    (fun _ _ hm => Directory.managed_insert_supplied (hm.2.managed t ht)) (fun _ _ _ _ hb => hb)
    fun _ _ hno => hno.elim

theorem manages_finishLoading : finishLoading.Manages t name s := by
  refine ends_finishLoading.mpr ⟨fun space hspace => ?_, fun _ _ hb => hb⟩
  exact ⟨forall_of_supplied_eq_none rfl, fun _ hb _ => hb.insert_same hspace rfl⟩

theorem manages_forkTo (h : s.Sound range runs) (ht : s.memory.allocator.table = some t)
    (child : Nat) : (forkTo child).Manages t name s := by
  refine ends_forkTo.mpr ⟨fun space hspace => ?_, fun _ _ hb => hb⟩
  exact (AddressSpace.fork_ends (h.spaces.get? hspace) (h.books_of_get? hspace)).mono
    (fun _ _ hm => Directory.managed_insert_supplied (hm.managed t ht)) (fun _ _ _ _ hb => hb)
    fun _ _ hno => hno.elim

theorem manages (h : s.Sound range runs) (hproper : r.Proper s.spaces name)
    (ht : s.memory.allocator.table = some t) : r.Manages t name s := by
  cases r with
  | create => exact manages_create
  | release => exact manages_release h
  | abandon => exact hproper.elim
  | addRegion a size protection => exact manages_addRegion a size protection
  | populate => exact manages_populate h ht
  | finishLoading => exact manages_finishLoading
  | forkTo child => exact manages_forkTo h ht child
  | layOutArguments | write | writeString => exact manages_of_spaces (.inr trivial)
  | _ => exact manages_of_spaces (.inl trivial)

end SpaceRequest

namespace System

variable {range : PhysicalRange} {s : System} {names : List Nat} {request : Request}

/-- The names of the spaces that the table has supplied, after a request to a system: those that had
frames given to them once there was a table, unless they were released. -/
def supplied (s : System) (names : List Nat) : Request → List Nat
  | .space name r =>
    match (r.perform name s.machine).outcome with
    | .ok _ =>
      (if s.machine.memory.allocator.hasTable then (r.supplied name).toList else []) ++
        names.filter fun b => r.displaced name ≠ some b
    | .error _ => names
  | _ => names

section Supplied

variable {name child : Nat} {space : AddressSpace} {first second : Segment} {t : ResidentTable}

theorem supplied_of_ok {r : SpaceRequest} {reply : Reply}
    (ht : s.machine.memory.allocator.table = some t)
    (hout : ((Request.space name r).perform s.machine).outcome = .ok reply) :
    s.supplied names (.space name r) =
      (r.supplied name).toList ++ names.filter fun b => r.displaced name ≠ some b := by
  rw [Request.perform] at hout
  simp only [supplied, hout, PageAllocator.hasTable, ht]
  rfl

/-- A space that is given frames of the table. -/
theorem Sound.supplied_populate (h : s.Sound range)
    (hspace : s.machine.spaces.get? name = some space) (hb : ¬ space.isBacked)
    (h₁ : space.segment1 = some first) (h₂ : space.segment2 = some second)
    (ht : s.machine.memory.allocator.table = some t)
    (hfree : first.pageCount + second.pageCount + stackPages ≤ t.freeCount) :
    s.supplied names (.space name .populate) = name :: names := by
  rcases (h.populate_ends hspace hb h₁ h₂ ht).cases with
    ⟨reply, hout, -⟩ | ⟨e, -, -, hfew, -⟩ | ⟨p, -, hno⟩
  · rw [supplied_of_ok ht hout]
    exact congrArg (name :: ·) (List.filter_eq_self.mpr fun b _ => rfl)
  · exact absurd hfree (Nat.not_le.mpr hfew)
  · exact hno.elim

/-- The copy of a space that has frames. -/
theorem Sound.supplied_fork (h : s.Sound range)
    (hspace : s.machine.spaces.get? name = some space) (hb : space.isBacked)
    (ht : s.machine.memory.allocator.table = some t)
    (hchild : s.machine.spaces.get? child = none) (hfree : space.frameCount ≤ t.freeCount) :
    s.supplied names (.space name (.forkTo child)) =
      child :: names.filter fun b => some child ≠ some b := by
  rcases (h.fork_ends hspace hb ht hchild).cases with
    ⟨reply, hout, -⟩ | ⟨e, -, -, hfew, -⟩ | ⟨p, -, hno⟩
  · rw [supplied_of_ok ht hout]
    rfl
  · exact absurd hfree (Nat.not_le.mpr hfew)
  · exact hno.elim

end Supplied

/-- The systems that are reached from a machine at boot, with the names of the spaces that the table
has supplied. -/
inductive Prepared (range : PhysicalRange) : System → List Nat → Prop
  | boot {machine : Machine} : machine.AtBoot range → Prepared range ⟨machine, []⟩ []
  | step {s : System} {names : List Nat} {request : Request} : Prepared range s names →
    s.Admits request → Prepared range (s.after request) (s.supplied names request)

theorem Prepared.reachable (h : Prepared range s names) : Reachable range s := by
  induction h with
  | boot hboot => exact .boot hboot
  | step _ hadmits ih => exact ih.step hadmits

theorem supplied_of_ne (h : ∀ name r, request ≠ .space name r) :
    s.supplied names request = names := by
  cases request with
  | space name r => exact absurd rfl (h name r)
  | _ => rfl

/-- The frames of each space that the table has supplied belong to the table. -/
def Supplies (s : System) (names : List Nat) : Prop :=
  ∀ name ∈ names, ∃ t, s.machine.memory.allocator.table = some t ∧ s.machine.spaces.Managed t name

theorem Sound.supplies_space (h : s.Sound range) {name : Nat} {r : SpaceRequest}
    (hproper : r.Proper s.machine.spaces name) {t : ResidentTable}
    (ht : s.machine.memory.allocator.table = some t)
    (hnames : ∀ b ∈ names, s.machine.spaces.Managed t b) :
    ∀ b ∈ s.supplied names (.space name r),
      (s.after (.space name r)).machine.spaces.Managed t b := by
  intro b hb
  rcases Ends.cases (SpaceRequest.manages h hproper ht) with
    ⟨reply, hout, hnew, hkept⟩ | ⟨e, hout, hkept⟩ | ⟨p, hout, hkept⟩ <;>
    simp only [supplied, hout] at hb
  · rcases List.mem_append.mp hb with hb | hb
    · refine hnew b ?_
      rw [PageAllocator.hasTable, ht] at hb
      exact Option.mem_toList.mp hb
    · obtain ⟨hb, hne⟩ := List.mem_filter.mp hb
      exact hkept b (hnames b hb) (of_decide_eq_true hne)
  · exact hkept b (hnames b hb)
  · exact hkept b (hnames b hb)

/-- One request keeps account of the spaces that the table has supplied. -/
theorem Sound.supplies_step (h : s.Sound range) (hadmits : s.Admits request)
    (hnames : s.Supplies names) : (s.after request).Supplies (s.supplied names request) := by
  cases ht : s.machine.memory.allocator.table with
  | none =>
    have hnil : names = [] := by
      refine List.eq_nil_iff_forall_not_mem.mpr fun b hb => ?_
      obtain ⟨t, ht', -⟩ := hnames b hb
      exact absurd (ht'.symm.trans ht) (Option.some_ne_none t)
    have hsupplied : s.supplied names request = [] := by
      cases request with
      | space name r =>
        simp only [supplied, hnil, PageAllocator.hasTable, ht]
        split <;> rfl
      | _ => exact hnil
    rw [hsupplied]
    exact List.forall_mem_nil _
  | some t =>
    have hmanaged (b : Nat) (hb : b ∈ names) : s.machine.spaces.Managed t b := by
      obtain ⟨t', ht', hb⟩ := hnames b hb
      rwa [← Option.some.inj (ht.symm.trans ht')] at hb
    obtain ⟨free, ht'⟩ := (h.leaves hadmits).table t ht
    intro b hb
    refine ⟨_, ht', ?_⟩
    by_cases hspace : ∃ name r, request = .space name r
    · obtain ⟨name, r, rfl⟩ := hspace
      exact h.supplies_space hadmits ht hmanaged b hb
    · have hne (name : Nat) (r : SpaceRequest) (heq : request = .space name r) : False :=
        hspace ⟨name, r, heq⟩
      have hsame := endsIn_iff.mp (Request.perform_spaces (s := s.machine) hne)
      rw [supplied_of_ne hne] at hb
      rw [System.after, hsame]
      exact hmanaged b hb

theorem Prepared.supplies (h : Prepared range s names) : s.Supplies names := by
  induction h with
  | boot => exact List.forall_mem_nil _
  | step hprepared hadmits ih => exact hprepared.reachable.sound.supplies_step hadmits ih

/-- Spaces that the table has supplied are released in any order. -/
theorem Prepared.tearsDown (h : Prepared range s names) {released : List Nat}
    (hnodup : released.Nodup) (hsub : released ⊆ names) : s.machine.TearsDown released :=
  h.reachable.sound.tearsDown hnodup fun name hname => h.supplies name (hsub hname)

end System

/-- Runs that a table has handed out, and spaces that the table of a machine has supplied, are given
back in any order, whatever was asked before. -/
theorem released_in_any_order (total : Nat) (first : PhysicalPage) (range : PhysicalRange) :
    (∀ l : Lending, Lending.Reachable total first l →
      ∀ released : List (PhysicalPage × Nat), released.Nodup →
        (∀ r ∈ released, Run.startingAt r ∈ l.lent) → l.table.Releases released) ∧
    ∀ (s : System) (names : List Nat), System.Prepared range s names →
      ∀ released : List Nat, released.Nodup → released ⊆ names → s.machine.TearsDown released := by
  refine ⟨fun l h released hnodup hlive => h.releases hnodup hlive, ?_⟩
  intro s names h released hnodup hsub
  exact h.tearsDown hnodup hsub

/-- A small table that has handed out all its frames as three runs. -/
def Lending.crowded : Lending :=
  (((⟨.new 5 (.ofNumber 16), []⟩ : Lending).after (.alloc 2)).after (.alloc 1)).after (.alloc 2)

namespace System

section Small

theorem prepared_segmented : Prepared smallRam.range segmented [] := by
  have hsmall : Prepared smallRam.range small [] := .boot (Machine.atBoot_boot _ _)
  have hrun := hsmall.step (show Admits _ (.allocator (.alloc 2)) from trivial)
  have htable := hrun.step (show Admits _ (.allocator .buildTable) from trivial)
  have hcreated := htable.step (show Admits _ (.space 0 .create) from rfl)
  have hfirst := hcreated.step (show Admits _ (.space 0
    (.addRegion (.ofNat 0x400000) 4096 (.ofFlags true false true))) from trivial)
  exact hfirst.step (show Admits _ (.space 0
    (.addRegion (.ofNat 0x10000000) 5000 (.ofFlags true true false))) from trivial)

theorem prepared_populated : Prepared smallRam.range populated [0] := by
  have hstep := prepared_segmented.step (show Admits _ (.space 0 .populate) from trivial)
  rwa [reachable_segmented.sound.supplied_populate get?_segmented (by decide) rfl rfl
    table_segmented (by decide)] at hstep

/-- The small system after its space was copied. -/
def twins : System :=
  populated.after (.space 0 (.forkTo 1))

theorem prepared_twins : Prepared smallRam.range twins [1, 0] := by
  obtain ⟨space, t, hspace, hbacked, ht, hfree, hnone⟩ := isBacked_populated
  have hstep := prepared_populated.step (show Admits _ (.space 0 (.forkTo 1)) from hnone)
  rwa [reachable_populated.sound.supplied_fork hspace hbacked ht hnone hfree] at hstep

/-- Two of the runs of a small table are taken back, and both spaces of the small system are
released. -/
theorem released_small :
    Lending.crowded.table.Releases [(.ofNumber 16, 2), (.ofNumber 19, 2)] ∧
      twins.machine.TearsDown [0, 1] := by
  obtain ⟨hruns, hspaces⟩ := released_in_any_order 5 (.ofNumber 16) smallRam.range
  have hreach : Lending.Reachable 5 (.ofNumber 16) Lending.crowded :=
    .step _ (.step _ (.step _ .new))
  exact ⟨hruns _ hreach _ (by decide) (by decide),
    hspaces _ _ prepared_twins _ (by decide) (by decide)⟩

end Small

end System

end MipsVM
