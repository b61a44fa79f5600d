import MipsVM.Proofs.Frame.Requests
import MipsVM.Proofs.Machine.Parts
import MipsVM.Proofs.Space.Backing
import MipsVM.Proofs.Space.Directory
import MipsVM.Proofs.Space.Write

/-!
# What a request to a space does

A request to a space keeps the shape of all spaces, and the translations of each space whose name is
not given up. It keeps the books of the allocator, and the bytes of all frames in use but those of
the space that it writes to or gives up.

## Main definitions

- `SpaceRequest.displaced`, `SpaceRequest.written`: the name that is given up or to another space,
  and the space whose frames may change
- `SpaceRequest.Proper`: no space is lost with its frames
- `SpaceRequest.Reads`, `SpaceRequest.Writes`: the spaces stay as they are, and in the first case the
  memory too
- `Request.OnCore`: the request concerns the core and the guards only
- `Directory.Carries`: the spaces afterwards
- `Machine.Sound`: the spaces have their shape, and the books hold of their frames

## Main statements

- `perform_reads`, `perform_writes`: the machine after a request that reads or writes
- `perform_carries`: the spaces after a request, with `carries_create` and the others for each kind
- `perform_follows`: the books and the bytes after a request, with `follows_create` and the others
- `core_perform`: only a switch to a space changes the core
- `Request.perform_onCore`: the machine after a request that concerns the core and the guards
-/

namespace MipsVM

open Routine

/-- The name that a request takes from the space that has it, if there is one. -/
def SpaceRequest.displaced (name : Nat) : SpaceRequest → Option Nat
  | .create | .release | .abandon => some name
  | .forkTo child => some child
  | _ => none

/-- The name of the space whose frames a request may change or give up. -/
def SpaceRequest.written (name : Nat) : SpaceRequest → Option Nat
  | .release | .abandon | .write .. | .writeString .. => some name
  | .layOutArguments through _ => some (through.getD name)
  | _ => none

/-- The request does not lose a space with its frames. -/
def SpaceRequest.Proper (d : Directory) (name : Nat) : SpaceRequest → Prop
  | .create => d.get? name = none
  | .forkTo child => d.get? child = none
  | .abandon => False
  | _ => True

/-- The request only reads, or concerns the core only. -/
def SpaceRequest.Reads : SpaceRequest → Prop
  | .peek .. | .digest | .look | .regionOf _ | .translate _ | .frameOf .. | .contains ..
  | .assertBacked | .switchTo | .leave => True
  | _ => False

/-- The request writes to frames of a space and does nothing else. -/
def SpaceRequest.Writes : SpaceRequest → Prop
  | .layOutArguments .. | .write .. | .writeString .. => True
  | _ => False

namespace Directory

variable {d d' : Directory} {displaced : Option Nat} {name : Nat} {space : AddressSpace}

/-- The directory without a name, if one is given. -/
def without (d : Directory) : Option Nat → Directory
  | some name => d.erase name
  | none => d

/-- The later spaces have their shape, and each of the earlier whose name was not displaced still
has its translations. -/
structure Carries (d : Directory) (displaced : Option Nat) (d' : Directory) : Prop where
  wellFormed : d'.WellFormed
  kept : ∀ b space, d.get? b = some space → displaced ≠ some b →
    ∃ space', d'.get? b = some space' ∧ space.Continues space'

theorem WellFormed.carries (h : d.WellFormed) : d.Carries displaced d :=
  ⟨h, fun _ space hs _ => ⟨space, hs, .refl⟩⟩

theorem WellFormed.carries_erase (h : d.WellFormed) : d.Carries (some name) (d.erase name) := by
  refine ⟨h.erase name, fun b space hs hne => ⟨space, ?_, .refl⟩⟩
  rw [get?_erase, if_neg (by simpa [eq_comm] using hne), hs]

theorem WellFormed.carries_insert (h : d.WellFormed) (hs : space.WellFormed)
    (hold : ∀ old, d.get? name = some old → displaced ≠ some name → old.Continues space) :
    d.Carries displaced (d.insert name space) := by
  refine ⟨h.insert name hs, fun b old hb hne => ?_⟩
  by_cases hname : b = name
  · subst hname
    exact ⟨space, by rw [get?_insert, if_pos rfl], hold old hb hne⟩
  · exact ⟨old, by rw [get?_insert, if_neg hname, hb], .refl⟩

/-- A name is given to a space that continues the one that has it. -/
theorem WellFormed.carries_insert_same (h : d.WellFormed) (hd : d.get? name = some space)
    {left : AddressSpace} (hleft : left.WellFormed) (hcontinues : space.Continues left) :
    d.Carries displaced (d.insert name left) := by
  refine h.carries_insert hleft fun old hold _ => ?_
  rwa [← Option.some.inj (hd.symm.trans hold)]

end Directory

namespace Machine

variable {range : PhysicalRange} {runs : List Run} {s s' : Machine} {written : Option Nat}
  {name : Nat} {space : AddressSpace}

/-- The spaces have their shape, and the books hold of their frames and the other runs in use. -/
structure Sound (range : PhysicalRange) (s : Machine) (runs : List Run) : Prop where
  spaces : s.spaces.WellFormed
  books : s.memory.Books range (singles s.spaces.frames ++ runs)

/-- The books hold afterwards, and the frames in use but those of the space that is written to are
as they were. -/
structure Follows (range : PhysicalRange) (runs : List Run) (written : Option Nat)
    (s s' : Machine) : Prop where
  books : s'.memory.Books range (singles s'.spaces.frames ++ runs)
  leaves : s.memory.Leaves s'.memory (singles (s.spaces.without written).frames ++ runs)

theorem Sound.follows (h : s.Sound range runs) (hm : s'.memory = s.memory)
    (hs : s'.spaces.frames.Perm s.spaces.frames) : s.Follows range runs written s' where
  books := by
    rw [hm]
    exact h.books.perm ((singles_perm hs.symm).append_right _)
  leaves := by
    rw [hm]
    exact .refl

theorem Sound.books_of_get? (h : s.Sound range runs) (hs : s.spaces.get? name = some space) :
    s.memory.Books range
      (singles space.frames ++ (singles (s.spaces.erase name).frames ++ runs)) :=
  h.books.perm (h.spaces.runs_perm hs)

theorem Sound.has_frame (h : s.Sound range runs) (hs : s.spaces.get? name = some space) :
    ∀ frame ∈ space.frames, s.memory.ram.hasFrame frame.number :=
  fun _ hf => (h.books_of_get? hs).has_frame_of_mem hf

theorem Sound.follows_changes (h : s.Sound range runs) (hs : s.spaces.get? name = some space)
    {m : Memory} (hm : space.Changes s.memory m) :
    s.Follows range runs (some name) { s with memory := m } := by
  obtain ⟨hbooks, hleaves⟩ := hm.books (h.books_of_get? hs)
  exact ⟨hbooks.perm (h.spaces.runs_perm hs).symm, hleaves⟩

/-- A space without frames was given some. -/
theorem Sound.follows_populate (h : s.Sound range runs) (hs : s.spaces.get? name = some space)
    {backed : AddressSpace} {m : Memory} (hbare : ¬ space.isBacked)
    (hm : AddressSpace.Supplied range s.memory (singles s.spaces.frames ++ runs) space backed m) :
    s.Follows range runs none { s with memory := m, spaces := s.spaces.insert name backed } := by
  refine ⟨hm.books.perm ?_, hm.leaves⟩
  -- the space had no frames, so those of the others are all that were in use
  have hnil := (h.spaces.get? hs).frames_eq_nil hbare
  have hperm := h.spaces.frames_perm hs
  rw [hnil, List.nil_append] at hperm
  rw [Directory.frames_insert, singles_append, List.append_assoc]
  exact ((singles_perm hperm).append_right _).append_left _

/-- A copy of a space was given a new name. -/
theorem Sound.follows_fork (h : s.Sound range runs) (hs : s.spaces.get? name = some space)
    {child : Nat} (hchild : s.spaces.get? child = none) {forked : AddressSpace} {m : Memory}
    (hm : AddressSpace.Supplied range s.memory
      (singles space.frames ++ (singles (s.spaces.erase name).frames ++ runs)) space forked m) :
    s.Follows range runs none { s with memory := m, spaces := s.spaces.insert child forked } := by
  have hall : (singles space.frames ++ (singles (s.spaces.erase name).frames ++ runs)).Perm
      (singles s.spaces.frames ++ runs) := (h.spaces.runs_perm hs).symm
  refine ⟨hm.books.perm ?_, hm.leaves.mono fun r hr => hall.mem_iff.mpr hr⟩
  rw [Directory.frames_insert, Directory.erase_of_get?_eq_none hchild, singles_append,
    List.append_assoc]
  exact hall.append_left _

end Machine

namespace SpaceRequest

variable {s : Machine} {name : Nat} {r : SpaceRequest}

/-- A request that only reads leaves the machine as it is, unless it is to switch. -/
theorem perform_looks (h : r.Reads) (hswitch : r ≠ .switchTo) :
    (r.perform name).EndsIn s fun s' => s' = s := by
  have hinspect {α : Type} {f : Ram → Except Panic α} {g : α → Reply} :
      (Machine.onMemory (ε := MachineError) id (Memory.inspect f) >>= fun a => pure (g a)).EndsIn s
        fun s' => s' = s := by
    simp only [EndsIn, ends_bind, ends_pure, Machine.ends_onMemory]
    exact Memory.endsIn_inspect rfl
  unfold EndsIn
  cases r with
  | peek a length =>
    rw [perform, ends_bind, Machine.ends_getSpace]
    refine ⟨fun space _ => ?_, fun _ => rfl⟩
    split
    · exact rfl
    · exact hinspect
  | digest =>
    rw [perform, ends_bind, Machine.ends_getSpace]
    exact ⟨fun space _ => hinspect, fun _ => rfl⟩
  | contains segment a =>
    cases segment <;> rw [perform, ends_map, Machine.ends_getSpace] <;>
      exact ⟨fun _ _ => rfl, fun _ => rfl⟩
  | assertBacked => simp [perform, Machine.ends_getSpace, ends_orPanic]
  | switchTo => exact absurd rfl hswitch
  | look | regionOf | translate | frameOf | leave => simp [perform, Machine.ends_getSpace]
  | _ => exact h.elim

theorem perform_reads (h : r.Reads) :
    (r.perform name).EndsIn s fun s' => ∃ core, s' = { s with core := core } := by
  by_cases hswitch : r = .switchTo
  · subst hswitch
    exact ends_switchTo.mpr ⟨fun _ _ => endsIn_of_forall fun core => ⟨core, rfl⟩,
      fun _ => ⟨s.core, rfl⟩⟩
  · refine (perform_looks h hswitch).mono ?_
    rintro _ rfl
    exact ⟨_, rfl⟩

theorem perform_writes (h : r.Writes)
    (hhas : ∀ b space, s.spaces.get? b = some space →
      ∀ frame ∈ space.frames, s.memory.ram.hasFrame frame.number) :
    (r.perform name).EndsIn s fun s' => s' = s ∨ ∃ b space m, r.written name = some b ∧
      s.spaces.get? b = some space ∧ space.Changes s.memory m ∧ s' = { s with memory := m } := by
  unfold EndsIn
  cases r with
  | layOutArguments through arguments =>
    refine ends_layOutArguments.mpr ⟨fun space _ => ⟨fun target htarget => ?_, fun _ => .inl rfl⟩,
      fun _ => .inl rfl⟩
    exact (AddressSpace.layOutArguments_ends (hhas _ _ htarget) space arguments).mono
      (fun _ m hm => .inr ⟨_, target, m, rfl, htarget, hm, rfl⟩)
      (fun _ m hm => .inr ⟨_, target, m, rfl, htarget, hm, rfl⟩) (fun _ _ hno => hno.elim)
  | write a bytes =>
    refine ends_write.mpr ⟨fun space hspace => ?_, fun _ => .inl rfl⟩
    exact (AddressSpace.write_ends (hhas _ _ hspace) bytes a).mono
      (fun _ m hm => .inr ⟨name, space, m, rfl, hspace, hm, rfl⟩)
      (fun _ m hm => .inr ⟨name, space, m, rfl, hspace, hm, rfl⟩) (fun _ _ hno => hno.elim)
  | writeString a bytes greatest =>
    refine ends_writeString.mpr ⟨fun space hspace => ?_, fun _ => .inl rfl⟩
    exact (AddressSpace.writeString_ends (hhas _ _ hspace) bytes a greatest).mono
      (fun _ m hm => .inr ⟨name, space, m, rfl, hspace, hm, rfl⟩)
      (fun _ m hm => .inr ⟨name, space, m, rfl, hspace, hm, rfl⟩) (fun _ _ hno => hno.elim)
  | _ => exact h.elim

/-- A request that only reads or writes leaves the spaces as they are. -/
theorem perform_spaces (h : r.Reads ∨ r.Writes) :
    (r.perform name).EndsIn s fun s' => s'.spaces = s.spaces := by
  rcases h with hreads | hwrites
  · refine (perform_reads hreads).mono ?_
    rintro _ ⟨core, rfl⟩
    rfl
  unfold EndsIn
  cases r with
  | layOutArguments =>
    exact ends_layOutArguments.mpr ⟨fun _ _ => ⟨fun _ _ => endsIn_of_forall fun _ => rfl,
      fun _ => rfl⟩, fun _ => rfl⟩
  | write => exact ends_write.mpr ⟨fun _ _ => endsIn_of_forall fun _ => rfl, fun _ => rfl⟩
  | writeString =>
    exact ends_writeString.mpr ⟨fun _ _ => endsIn_of_forall fun _ => rfl, fun _ => rfl⟩
  | _ => exact hwrites.elim

section Carries

variable (h : s.spaces.WellFormed)
include h

theorem carries_create :
    (create.perform name).EndsIn s fun s' => s.spaces.Carries (some name) s'.spaces :=
  h.carries_insert AddressSpace.wellFormed_empty fun _ _ hne => absurd rfl hne

theorem carries_release :
    (release.perform name).EndsIn s fun s' => s.spaces.Carries (some name) s'.spaces :=
  ends_release.mpr ⟨fun _ _ => endsIn_of_forall fun _ => h.carries_erase, fun _ => h.carries⟩

theorem carries_abandon :
    (abandon.perform name).EndsIn s fun s' => s.spaces.Carries (some name) s'.spaces :=
  ends_abandon.mpr ⟨fun _ _ => h.carries_erase, fun _ => h.carries⟩

theorem carries_addRegion (a : VirtualAddress) (size : Nat) (protection : Protection) :
    ((addRegion a size protection).perform name).EndsIn s fun s' =>
      s.spaces.Carries none s'.spaces := by
  refine ends_addRegion.mpr ⟨fun space hspace => ?_, fun _ => h.carries⟩
  refine ((h.get? hspace).addRegion a size protection).mono (fun _ left hleft => ?_)
    (fun _ left hleft => ?_) (fun _ _ hno => hno.elim)
  · obtain ⟨hbare, hwf, -⟩ := hleft
    have hnil := (h.get? hspace).frames_eq_nil hbare
    exact h.carries_insert_same hspace hwf (AddressSpace.continues_of_frames_eq_nil hnil)
  · subst hleft
    exact h.carries_insert_same hspace (h.get? hspace) .refl

theorem carries_populate :
    (populate.perform name).EndsIn s fun s' => s.spaces.Carries none s'.spaces := by
  refine ends_populate.mpr ⟨fun space hspace => ?_, fun _ => h.carries⟩
  refine (AddressSpace.populate_filled (h.get? hspace)).mono (fun backed m hbacked => ?_)
    (fun _ _ _ => h.carries) (fun _ _ _ => h.carries)
  have hnil := (h.get? hspace).frames_eq_nil hbacked.1
  exact h.carries_insert_same hspace hbacked.2.wellFormed
    (AddressSpace.continues_of_frames_eq_nil hnil)

theorem carries_finishLoading :
    (finishLoading.perform name).EndsIn s fun s' => s.spaces.Carries none s'.spaces := by
  refine ends_finishLoading.mpr ⟨fun space hspace => ?_, fun _ => h.carries⟩
  exact h.carries_insert_same hspace (h.get? hspace).finishLoading .refl

theorem carries_forkTo (child : Nat) :
    ((forkTo child).perform name).EndsIn s fun s' =>
      s.spaces.Carries (some child) s'.spaces := by
  refine ends_forkTo.mpr ⟨fun space hspace => ?_, fun _ => h.carries⟩
  refine (AddressSpace.fork_filled (h.get? hspace)).mono (fun forked m hforked => ?_)
    (fun _ _ _ => h.carries) (fun _ _ _ => h.carries)
  exact h.carries_insert hforked.wellFormed fun _ _ hne => absurd rfl hne

theorem carries_of_spaces {displaced : Option Nat} (hr : r.Reads ∨ r.Writes) :
    (r.perform name).EndsIn s fun s' => s.spaces.Carries displaced s'.spaces := by
  refine (perform_spaces hr).mono fun s' hs => ?_
  rw [hs]
  exact h.carries

/-- The spaces after a request. -/
theorem perform_carries :
    (r.perform name).EndsIn s fun s' => s.spaces.Carries (r.displaced name) s'.spaces := by
  cases r with
  | create => exact carries_create h
  | release => exact carries_release h
  | abandon => exact carries_abandon h
  | addRegion a size protection => exact carries_addRegion h a size protection
  | populate => exact carries_populate h
  | finishLoading => exact carries_finishLoading h
  | forkTo child => exact carries_forkTo h child
  | layOutArguments | write | writeString => exact carries_of_spaces h (.inr trivial)
  | _ => exact carries_of_spaces h (.inl trivial)

end Carries

/-- Nothing but a switch changes the core, and the guards stay as they are. -/
theorem core_guards_perform (h : r ≠ .switchTo) :
    (r.perform name).EndsIn s fun s' => s'.core = s.core ∧ s'.guards = s.guards := by
  by_cases hreads : r.Reads
  · refine (perform_looks hreads h).mono ?_
    rintro _ rfl
    exact ⟨rfl, rfl⟩
  unfold EndsIn
  cases r with
  | create => exact ⟨rfl, rfl⟩
  | release | abandon | addRegion | populate | finishLoading | forkTo | layOutArguments | write
  | writeString => simp
  | _ => exact absurd trivial hreads

theorem core_perform (h : r ≠ .switchTo) :
    (r.perform name).EndsIn s fun s' => s'.core = s.core :=
  (core_guards_perform h).mono fun _ hs => hs.1

section Follows

variable {range : PhysicalRange} {runs : List Run} (h : s.Sound range runs)
include h

theorem follows_reads {written : Option Nat} (hr : r.Reads) :
    (r.perform name).EndsIn s (s.Follows range runs written) := by
  refine (perform_reads hr).mono ?_
  rintro _ ⟨core, rfl⟩
  exact h.follows rfl (.refl _)

theorem follows_writes (hr : r.Writes) :
    (r.perform name).EndsIn s (s.Follows range runs (r.written name)) := by
  refine (perform_writes hr fun _ _ => h.has_frame).mono ?_
  rintro _ (rfl | ⟨b, space, m, hb, hspace, hm, rfl⟩)
  · exact h.follows rfl (.refl _)
  · rw [hb]
    exact h.follows_changes hspace hm

theorem follows_create (hnew : s.spaces.get? name = none) :
    (create.perform name).EndsIn s (s.Follows range runs none) := by
  have hframes : (s.spaces.insert name .empty).frames = s.spaces.frames := by
    rw [Directory.frames_insert, Directory.erase_of_get?_eq_none hnew]
    rfl
  show s.Follows range runs none { s with spaces := s.spaces.insert name .empty }
  exact h.follows rfl (by rw [hframes])

theorem follows_release :
    (release.perform name).EndsIn s (s.Follows range runs (some name)) := by
  refine ends_release.mpr ⟨fun space hspace => ?_, fun _ => h.follows rfl (.refl _)⟩
  exact (AddressSpace.release_ends (h.books_of_get? hspace)).mono (fun _ _ hm => ⟨hm.1, hm.2⟩)
    (fun _ _ hno => hno.elim) (fun _ _ hno => hno.elim)

theorem follows_addRegion (a : VirtualAddress) (size : Nat) (protection : Protection) :
    ((addRegion a size protection).perform name).EndsIn s (s.Follows range runs none) := by
  refine ends_addRegion.mpr ⟨fun space hspace => ?_, fun _ => h.follows rfl (.refl _)⟩
  exact (AddressSpace.frames_addRegion space a size protection).mono fun left hleft =>
    h.follows rfl (h.spaces.frames_insert_perm hspace hleft)

theorem follows_populate :
    (populate.perform name).EndsIn s (s.Follows range runs none) := by
  refine ends_populate.mpr ⟨fun space hspace => ?_, fun _ => h.follows rfl (.refl _)⟩
  exact (AddressSpace.populate_ends (h.spaces.get? hspace) h.books).mono
    (fun backed m hm => h.follows_populate hspace hm.1 hm.2) (fun _ m hm => ⟨hm.1, hm.2⟩)
    (fun _ _ hno => hno.elim)

theorem follows_finishLoading :
    (finishLoading.perform name).EndsIn s (s.Follows range runs none) := by
  refine ends_finishLoading.mpr ⟨fun space hspace => ?_, fun _ => h.follows rfl (.refl _)⟩
  exact h.follows rfl (h.spaces.frames_insert_perm hspace rfl)

theorem follows_forkTo {child : Nat} (hnew : s.spaces.get? child = none) :
    ((forkTo child).perform name).EndsIn s (s.Follows range runs none) := by
  refine ends_forkTo.mpr ⟨fun space hspace => ?_, fun _ => h.follows rfl (.refl _)⟩
  have hall : (singles space.frames ++ (singles (s.spaces.erase name).frames ++ runs)).Perm
      (singles s.spaces.frames ++ runs) := (h.spaces.runs_perm hspace).symm
  exact (AddressSpace.fork_ends (h.spaces.get? hspace) (h.books_of_get? hspace)).mono
    (fun forked m hm => h.follows_fork hspace hnew hm)
    (fun _ m hm => ⟨hm.1.perm hall, hm.2.mono fun r hr => hall.mem_iff.mpr hr⟩)
    (fun _ _ hno => hno.elim)

/-- The books and the bytes after a request that loses no frames. -/
theorem perform_follows (hproper : r.Proper s.spaces name) :
    (r.perform name).EndsIn s (s.Follows range runs (r.written name)) := by
  cases r with
  | create => exact follows_create h hproper
  | release => exact follows_release h
  | abandon => exact hproper.elim
  | addRegion a size protection => exact follows_addRegion h a size protection
  | populate => exact follows_populate h
  | finishLoading => exact follows_finishLoading h
  | forkTo child => exact follows_forkTo h hproper
  | layOutArguments | write | writeString => exact follows_writes h trivial
  | _ => exact follows_reads h trivial

end Follows

end SpaceRequest

/-- The request concerns the core and the guards only. -/
def Request.OnCore : Request → Prop
  | .interrupts _ | .tlb _ | .fault .. => True
  | _ => False

theorem Request.perform_onCore {s : Machine} (request : Request) (h : request.OnCore) :
    request.perform.EndsIn s fun s' =>
      ∃ core guards, s' = { s with core := core, guards := guards } := by
  have hsame : ∃ core guards, s = { s with core := core, guards := guards } :=
    ⟨s.core, s.guards, rfl⟩
  have hcore {ε α : Type} {wrap : ε → MachineError} {r : Routine Core ε α} :
      (Machine.onCore wrap r).EndsIn s fun s' =>
        ∃ core guards, s' = { s with core := core, guards := guards } :=
    Machine.ends_onCore.mpr (endsIn_of_forall fun core => ⟨core, s.guards, rfl⟩)
  cases request with
  | interrupts r =>
    cases r with
    | state => exact hsame
    | enable | disable | hold => exact ⟨_, _, rfl⟩
    | release index =>
      exact ends_bind.mpr (Machine.ends_dropGuard.mpr ⟨fun _ _ => ⟨_, _, rfl⟩, fun _ => hsame⟩)
  | tlb r => exact hcore
  | fault code a space =>
    cases space with
    | none => exact ends_map.mpr hcore
    | some name =>
      refine ends_bind.mpr (Machine.ends_getSpace.mpr ⟨fun space _ => ?_, fun _ => hsame⟩)
      exact EndsIn.bind hcore fun _ _ hs => hs
  | _ => exact h.elim

end MipsVM
