import MipsVM.Proofs.Machine.Step
import MipsVM.Proofs.Space.Alike

/-!
# Machines with the same visible bytes

A frame that the table manages and that belongs to no space holds whatever was left in it. Two
machines that differ in such bytes only do the same for every request to a space and for every
fault, and differ in such bytes only afterwards.

## Main definitions

- `Machine.Residual`: the address of such a byte
- `Machine.Alike`: machines that differ in such bytes only
- `Routine.KeepsLinked`: a routine does the same on two such machines, and leaves two such machines
- `Request.OnSpaces`: the requests in question

## Main statements

- `agree_onMemory`, `agree_getSpace` and the other rules: one for each routine on a part
- `SpaceRequest.agree_create` and the other `agree_` lemmas of requests to a space, from which
  `SpaceRequest.agree` and `Linked.perform` are put together: one request on two such machines
- `Linked.serve`: a run of requests on two such machines

## Design notes

Raw accesses to physical memory are not among the requests: they can read any byte.
-/

namespace MipsVM

open Routine

namespace Machine

variable {t : Option ResidentTable} {m m' : Memory} {core : Core} {guards : List Bool}
  {d : Directory} {s s' : Machine} {name : Nat}

/-- The byte at an address is in a frame that the table manages and that belongs to no space. -/
def Residual (s : Machine) (a : Nat) : Prop :=
  (∃ t, s.memory.allocator.table = some t ∧ t.first.number ≤ a / 4096 ∧
    a / 4096 < t.first.number + t.total) ∧
  ∀ frame ∈ s.spaces.frames, frame.number ≠ a / 4096

/-- The other machine is in the same state but for residual bytes. -/
structure Alike (s s' : Machine) : Prop where
  core : s'.core = s.core
  guards : s'.guards = s.guards
  spaces : s'.spaces = s.spaces
  allocator : s'.memory.allocator = s.memory.allocator
  ram : s.memory.ram.Alike s'.memory.ram fun a => ¬ s.Residual a

/-- The same, the table being known but for its count of free frames. -/
structure Linked (t : Option ResidentTable) (s s' : Machine) : Prop where
  core : s'.core = s.core
  guards : s'.guards = s.guards
  spaces : s'.spaces = s.spaces
  memory : Memory.Alike t s.spaces.frames s.memory s'.memory

theorem linked (h : Memory.Alike t d.frames m m') :
    Linked t ⟨m, core, guards, d⟩ ⟨m', core, guards, d⟩ :=
  ⟨rfl, rfl, rfl, h⟩

theorem Linked.alike (h : Linked t s s') : s.Alike s' := by
  refine ⟨h.core, h.guards, h.spaces, h.memory.allocator, h.memory.ram.mono fun a ha => ?_⟩
  intro t' ht hlow hhigh
  obtain ⟨free, htable⟩ := h.memory.table
  obtain rfl : t = some t' := ht
  by_contra hnone
  refine ha ⟨⟨_, htable, hlow, hhigh⟩, fun frame hframe hnumber => ?_⟩
  exact hnone ⟨frame, hframe, hnumber⟩

theorem Alike.linked (h : s.Alike s') (hbelow : s.memory.TableBelow) :
    Linked s.memory.allocator.table s s' := by
  refine ⟨h.core, h.guards, h.spaces, ⟨h.ram.mono fun a ha => ?_, h.allocator, ?_, hbelow⟩⟩
  · rintro ⟨⟨t, ht, hlow, hhigh⟩, hnone⟩
    obtain ⟨frame, hframe, hnumber⟩ := ha t ht hlow hhigh
    exact hnone frame hframe hnumber
  · cases s.memory.allocator.table with
    | none => exact ⟨0, rfl⟩
    | some t => exact ⟨t.freeCount, rfl⟩

theorem Linked.tableBelow (h : Linked t s s') : s.memory.TableBelow :=
  h.memory.tableBelow

/-- A byte that is visible through a space is not residual. -/
theorem not_residual_of_translate {space : AddressSpace} (hs : s.spaces.get? name = some space)
    {a : VirtualAddress} {pa : PhysicalAddress} (hpa : space.translate a = some pa) :
    ¬ s.Residual pa.toNat := by
  rintro ⟨-, hnone⟩
  obtain ⟨r, hr, hhas⟩ := AddressSpace.held_of_translate hpa
  obtain ⟨frame, hframe, rfl⟩ := List.mem_map.mp hr
  exact hnone frame (Directory.frames_subset hs frame hframe) (Run.has_single.mp hhas).symm

theorem linked_insert {space : AddressSpace} (h : Memory.Alike t (space.frames ++ d.frames) m m') :
    Linked t ⟨m, core, guards, d.insert name space⟩ ⟨m', core, guards, d.insert name space⟩ := by
  refine linked (h.mono ?_)
  rw [Directory.frames_insert]
  exact List.append_subset.mpr ⟨List.subset_append_left _ _,
    List.Subset.trans (d.frames_erase_subset name) (List.subset_append_right _ _)⟩

end Machine

/-- The routine does the same on both machines, and the machines that it leaves are linked. -/
def Routine.KeepsLinked {α : Type} (r : Routine Machine MachineError α) (t : Option ResidentTable)
    (s s' : Machine) : Prop :=
  r.Agree s s' (fun _ => Machine.Linked t) (Machine.Linked t)

namespace Machine

section Parts

variable {ε α β : Type} {t : Option ResidentTable} {m m' : Memory} {core : Core}
  {guards : List Bool} {d : Directory} {name : Nat} {r : Routine Memory ε α}
  {wrap : ε → MachineError} {Q : α → Machine → Machine → Prop} {E : Machine → Machine → Prop}

theorem agree_onMemory
    (h : r.Agree m m' (fun a m m' => Q a ⟨m, core, guards, d⟩ ⟨m', core, guards, d⟩)
      fun m m' => E ⟨m, core, guards, d⟩ ⟨m', core, guards, d⟩) :
    (onMemory wrap r).Agree ⟨m, core, guards, d⟩ ⟨m', core, guards, d⟩ Q E :=
  (Agree.within h).mapError

theorem agree_bind_onMemory {f : α → Routine Machine MachineError β}
    {Q : β → Machine → Machine → Prop}
    (h : r.Agree m m' (fun a m m' => (f a).Agree ⟨m, core, guards, d⟩ ⟨m', core, guards, d⟩ Q E)
      fun m m' => E ⟨m, core, guards, d⟩ ⟨m', core, guards, d⟩) :
    (onMemory wrap r >>= f).Agree ⟨m, core, guards, d⟩ ⟨m', core, guards, d⟩ Q E := by
  refine (agree_onMemory (Q := fun a s s' => (f a).Agree s s' Q E) h).bind ?_
  exact fun _ _ _ h => h

theorem keepsLinked_onMemory
    (h : r.Agree m m' (fun _ => Memory.Alike t d.frames) (Memory.Alike t d.frames)) :
    (onMemory wrap r).KeepsLinked t ⟨m, core, guards, d⟩ ⟨m', core, guards, d⟩ :=
  agree_onMemory (h.mono (fun _ _ _ => linked) fun _ _ => linked)

theorem agree_onCore {r : Routine Core ε α} (h : Memory.Alike t d.frames m m') :
    (onCore wrap r).KeepsLinked t ⟨m, core, guards, d⟩ ⟨m', core, guards, d⟩ := by
  refine Agree.mapError (Agree.within ?_)
  show r.Agree core core _ _
  exact agree_self (ends_of_forall (fun _ _ => linked h) (fun _ _ => linked h) fun _ _ => linked h)

theorem agree_getSpace {Q : AddressSpace → Machine → Machine → Prop}
    (hQ : ∀ space, d.get? name = some space →
      Q space ⟨m, core, guards, d⟩ ⟨m', core, guards, d⟩)
    (hE : E ⟨m, core, guards, d⟩ ⟨m', core, guards, d⟩) :
    (getSpace name).Agree ⟨m, core, guards, d⟩ ⟨m', core, guards, d⟩ Q E := by
  unfold Agree getSpace
  cases hname : d.get? name with
  | none => exact .failure hE
  | some space => exact .value (hQ space hname)

theorem agree_bind_getSpace {f : AddressSpace → Routine Machine MachineError α}
    (hf : ∀ space, d.get? name = some space →
      (f space).Agree ⟨m, core, guards, d⟩ ⟨m', core, guards, d⟩ Q E)
    (hE : E ⟨m, core, guards, d⟩ ⟨m', core, guards, d⟩) :
    (getSpace name >>= f).Agree ⟨m, core, guards, d⟩ ⟨m', core, guards, d⟩ Q E := by
  refine (agree_getSpace (Q := fun space s s' => (f space).Agree s s' Q E) hf hE).bind ?_
  exact fun _ _ _ h => h

theorem agree_removeSpace (h : Memory.Alike t d.frames m m')
    {f : AddressSpace → Routine Machine MachineError α}
    (hf : ∀ space, Memory.Alike t (d.erase name).frames m m' →
      (f space).KeepsLinked t ⟨m, core, guards, d.erase name⟩ ⟨m', core, guards, d.erase name⟩) :
    (removeSpace name >>= f).KeepsLinked t ⟨m, core, guards, d⟩ ⟨m', core, guards, d⟩ := by
  have hremove : (removeSpace name).Agree ⟨m, core, guards, d⟩ ⟨m', core, guards, d⟩
      (fun space => (f space).KeepsLinked t) (Linked t) := by
    unfold Agree removeSpace
    cases hname : d.get? name with
    | none => exact .failure (linked h)
    | some space => exact .value (hf space (h.mono (d.frames_erase_subset name)))
  exact hremove.bind fun _ _ _ h => h

theorem agree_enroll {space : AddressSpace} (h : Memory.Alike t (space.frames ++ d.frames) m m') :
    (enroll name space).KeepsLinked t ⟨m, core, guards, d⟩ ⟨m', core, guards, d⟩ :=
  .value (linked_insert h)

theorem agree_putSpace {space : AddressSpace}
    (h : Memory.Alike t (space.frames ++ d.frames) m m') :
    (putSpace name space).KeepsLinked t ⟨m, core, guards, d⟩ ⟨m', core, guards, d⟩ :=
  agree_modify (linked_insert h)

/-- A space is changed in the same way in both machines if it is given no frames. -/
theorem agree_onSpace {r : Routine AddressSpace SpaceError α} (h : Memory.Alike t d.frames m m')
    (hr : ∀ space, r.EndsIn space fun left => left.frames ⊆ space.frames) :
    (onSpace name r).KeepsLinked t ⟨m, core, guards, d⟩ ⟨m', core, guards, d⟩ := by
  cases hname : d.get? name with
  | none =>
    refine (agree_congr (r := fail .noSpace) ?_ ?_).mpr (agree_fail (linked h)) <;>
      simp only [onSpace, hname] <;> rfl
  | some space =>
    have hleft (left : AddressSpace) (hsub : left.frames ⊆ space.frames) :
        Linked t ⟨m, core, guards, d.insert name left⟩ ⟨m', core, guards, d.insert name left⟩ := by
      refine linked_insert (h.mono (List.append_subset.mpr ⟨?_, List.Subset.refl _⟩))
      exact List.Subset.trans hsub (Directory.frames_subset hname)
    refine (agree_congr (r := Routine.mapError .space (Routine.within (fun _ => space)
      (fun left s => { s with spaces := s.spaces.insert name left }) r)) ?_ ?_).mpr
        (Agree.mapError (Agree.within ?_))
    · simp only [onSpace, hname]
    · simp only [onSpace, hname]
    · exact agree_self (Ends.mono (hr space) (fun _ => hleft) (fun _ => hleft) fun _ => hleft)

end Parts

end Machine

/-- All requests to spaces, and faults. To read on beyond the frame of an address is none of
them. -/
def Request.OnSpaces : Request → Prop
  | .space _ (.peek ..) => False
  | .space .. | .fault .. => True
  | _ => False

section Requests

variable {t : Option ResidentTable} {m m' : Memory} {core : Core} {guards : List Bool}
  {d : Directory} {s s' : Machine} {name : Nat}

namespace SpaceRequest

theorem agree_create (h : Memory.Alike t d.frames m m') :
    (create.perform name).KeepsLinked t ⟨m, core, guards, d⟩ ⟨m', core, guards, d⟩ :=
  (Machine.agree_enroll h).bind_pure

theorem agree_release (h : Memory.Alike t d.frames m m') :
    (release.perform name).KeepsLinked t ⟨m, core, guards, d⟩ ⟨m', core, guards, d⟩ := by
  apply Machine.agree_removeSpace h
  intro space hleft
  apply Machine.agree_bind_onMemory
  exact (space.agree_release hleft).mono (fun _ _ _ h₁ => agree_pure (Machine.linked h₁))
    fun _ _ => Machine.linked

theorem agree_abandon (h : Memory.Alike t d.frames m m') :
    (abandon.perform name).KeepsLinked t ⟨m, core, guards, d⟩ ⟨m', core, guards, d⟩ := by
  apply Machine.agree_removeSpace h
  intro space hleft
  refine (Agree.forEach (fun e _ _ _ hs => ?_) (Machine.linked hleft)).bind_pure
  exact agree_report (Q := fun _ => Machine.Linked t) hs

theorem agree_addRegion (h : Memory.Alike t d.frames m m') (a : VirtualAddress) (size : Nat)
    (protection : Protection) :
    ((addRegion a size protection).perform name).KeepsLinked t ⟨m, core, guards, d⟩
      ⟨m', core, guards, d⟩ := by
  refine (Machine.agree_onSpace h fun space => ?_).bind_pure
  refine (space.frames_addRegion a size protection).mono fun left hframes => ?_
  rw [hframes]
  exact List.Subset.refl _

theorem agree_populate (h : Memory.Alike t d.frames m m') :
    (populate.perform name).KeepsLinked t ⟨m, core, guards, d⟩ ⟨m', core, guards, d⟩ := by
  refine Machine.agree_bind_getSpace (fun space _ => ?_) (Machine.linked h)
  apply Machine.agree_bind_onMemory
  refine (AddressSpace.agree_populate h).mono (fun backed _ _ h₁ => ?_) fun _ _ => Machine.linked
  exact (Machine.agree_putSpace h₁).bind_pure

theorem agree_finishLoading (h : Memory.Alike t d.frames m m') :
    (finishLoading.perform name).KeepsLinked t ⟨m, core, guards, d⟩ ⟨m', core, guards, d⟩ := by
  refine Machine.agree_bind_getSpace (fun space hspace => ?_) (Machine.linked h)
  have hframes : space.frames ⊆ d.frames := Directory.frames_subset hspace
  refine (Machine.agree_putSpace (h.mono ?_)).bind_pure
  exact List.append_subset.mpr ⟨hframes, List.Subset.refl _⟩

theorem agree_forkTo (h : Memory.Alike t d.frames m m') (child : Nat) :
    ((forkTo child).perform name).KeepsLinked t ⟨m, core, guards, d⟩ ⟨m', core, guards, d⟩ := by
  refine Machine.agree_bind_getSpace (fun space hspace => ?_) (Machine.linked h)
  have hframes : space.frames ⊆ d.frames := Directory.frames_subset hspace
  apply Machine.agree_bind_onMemory
  refine (AddressSpace.agree_fork h hframes).mono (fun forked _ _ h₁ => ?_)
    fun _ _ => Machine.linked
  exact (Machine.agree_enroll h₁).bind_pure

theorem agree_writes {r : SpaceRequest} (hr : r.Writes) (h : Memory.Alike t d.frames m m') :
    (r.perform name).KeepsLinked t ⟨m, core, guards, d⟩ ⟨m', core, guards, d⟩ := by
  have hsame : Machine.Linked t ⟨m, core, guards, d⟩ ⟨m', core, guards, d⟩ := Machine.linked h
  cases r with
  | layOutArguments through arguments =>
    refine Machine.agree_bind_getSpace (fun space _ => ?_) hsame
    refine Machine.agree_bind_getSpace (fun target _ => ?_) hsame
    exact (Machine.keepsLinked_onMemory
      (AddressSpace.agree_layOutArguments h target arguments)).bind_pure
  | write a bytes =>
    refine Machine.agree_bind_getSpace (fun space _ => ?_) hsame
    exact (Machine.keepsLinked_onMemory (AddressSpace.agree_write h bytes a)).bind_pure
  | writeString a bytes greatest =>
    refine Machine.agree_bind_getSpace (fun space _ => ?_) hsame
    exact (Machine.keepsLinked_onMemory
      (AddressSpace.agree_writeString h bytes a greatest)).bind_pure
  | _ => exact hr.elim

theorem agree_reads {r : SpaceRequest} (hr : r.Reads) (hon : (Request.space name r).OnSpaces)
    (h : Memory.Alike t d.frames m m') :
    (r.perform name).KeepsLinked t ⟨m, core, guards, d⟩ ⟨m', core, guards, d⟩ := by
  have hsame : Machine.Linked t ⟨m, core, guards, d⟩ ⟨m', core, guards, d⟩ := Machine.linked h
  have hlook {f : AddressSpace → Reply} :
      (f <$> Machine.getSpace name).KeepsLinked t ⟨m, core, guards, d⟩ ⟨m', core, guards, d⟩ :=
    Agree.map (Machine.agree_getSpace (fun _ _ => hsame) hsame)
  cases r with
  | peek => exact hon.elim
  | digest =>
    refine Machine.agree_bind_getSpace (fun space hspace => ?_) hsame
    have hframes : space.frames ⊆ d.frames := Directory.frames_subset hspace
    exact (Machine.keepsLinked_onMemory
      (Memory.agree_digest h hframes Digest.start)).bind_pure
  | assertBacked =>
    refine Machine.agree_bind_getSpace (fun space _ => ?_) hsame
    exact (agree_orPanic (Q := fun _ => Machine.Linked t) (fun _ _ => hsame) hsame).bind_pure
  | switchTo =>
    refine Machine.agree_bind_getSpace (fun space _ => ?_) hsame
    exact (Machine.agree_onCore h).bind_pure
  | leave => exact Machine.agree_bind_getSpace (fun _ _ => agree_pure hsame) hsame
  | contains segment => cases segment <;> exact hlook
  | look | regionOf | translate | frameOf => exact hlook
  | _ => exact hr.elim

/-- A request to a space is served in the same way on both machines. -/
theorem agree (r : SpaceRequest) (hon : (Request.space name r).OnSpaces)
    (h : Memory.Alike t d.frames m m') :
    (r.perform name).KeepsLinked t ⟨m, core, guards, d⟩ ⟨m', core, guards, d⟩ := by
  cases r with
  | create => exact agree_create h
  | release => exact agree_release h
  | abandon => exact agree_abandon h
  | addRegion a size protection => exact agree_addRegion h a size protection
  | populate => exact agree_populate h
  | finishLoading => exact agree_finishLoading h
  | forkTo child => exact agree_forkTo h child
  | layOutArguments | write | writeString => exact agree_writes trivial h
  | _ => exact agree_reads trivial hon h

end SpaceRequest

/-- A request to a space and a fault are served in the same way on both machines. -/
theorem Machine.Linked.perform {request : Request} (h : Machine.Linked t s s')
    (hr : request.OnSpaces) :
    request.perform.Agree s s' (fun _ => Machine.Linked t) (Machine.Linked t) := by
  -- the rules above are about machines that share all but the memory
  obtain ⟨m, core, guards, d⟩ := s
  obtain ⟨m', _, _, _⟩ := s'
  obtain ⟨rfl, rfl, rfl, hm⟩ := h
  cases request with
  | space name r => exact r.agree hr hm
  | fault code a space =>
    cases space with
    | none => exact Agree.map (Machine.agree_onCore hm)
    | some name =>
      refine Machine.agree_bind_getSpace (fun space _ => ?_) (Machine.linked hm)
      exact (Machine.agree_onCore hm).bind_pure
  | _ => exact hr.elim

theorem Machine.Linked.serve {requests : List Request} (h : Machine.Linked t s s')
    (hr : ∀ request ∈ requests, request.OnSpaces) :
    List.Forall₂ (Ending.Agree (fun _ => Machine.Linked t) (Machine.Linked t))
      (MipsVM.serve Request.perform requests s) (MipsVM.serve Request.perform requests s') := by
  induction requests generalizing s s' with
  | nil => exact .nil
  | cons request rest ih =>
    have hagree := h.perform (hr request List.mem_cons_self)
    refine .cons hagree (ih ?_ fun r hmem => hr r (List.mem_cons_of_mem _ hmem))
    exact hagree.state (fun _ _ _ h => h) fun _ _ h => h

end Requests

end MipsVM
