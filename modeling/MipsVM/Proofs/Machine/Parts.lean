import MipsVM.Machine.Perform
import MipsVM.Proofs.Routine

/-!
# Routines on the parts of a machine

## Main statements

- `ends_onMemory`, `ends_onCore`, `ends_onSpace`: a routine on a part ends as it does on the part
- `ends_getSpace`, `ends_removeSpace`: a name stands for a space or for none
- `ends_dropGuard`: a guard that is held is dropped
- `ends_table`: there is a frame table or none
- `SpaceRequest.ends_release`, `ends_populate` and the other `ends_` lemmas of requests to a space:
  how the request ends in terms of what it does with the space
- `Directory.forall_get?_iff`: which of the two cases of such a lemma it is, if the space is known
-/

namespace MipsVM

open Routine

namespace Machine

variable {ε α : Type} {s : Machine} {name : Nat} {space : AddressSpace}

section Parts

variable {Q : α → Machine → Prop} {E : MachineError → Machine → Prop} {P : Panic → Machine → Prop}

@[simp] theorem ends_onMemory {wrap : ε → MachineError} {r : Routine Memory ε α} :
    (onMemory wrap r).Ends s Q E P ↔
      r.Ends s.memory (fun a memory => Q a { s with memory := memory })
        (fun e memory => E (wrap e) { s with memory := memory })
        (fun p memory => P p { s with memory := memory }) := by
  rw [onMemory, ends_mapError, ends_within]

@[simp] theorem ends_onCore {wrap : ε → MachineError} {r : Routine Core ε α} :
    (onCore wrap r).Ends s Q E P ↔
      r.Ends s.core (fun a core => Q a { s with core := core })
        (fun e core => E (wrap e) { s with core := core })
        (fun p core => P p { s with core := core }) := by
  rw [onCore, ends_mapError, ends_within]

theorem ends_onSpace {r : Routine AddressSpace SpaceError α} :
    (onSpace name r).Ends s Q E P ↔
      (∀ space, s.spaces.get? name = some space →
        r.Ends space (fun a left => Q a { s with spaces := s.spaces.insert name left })
          (fun e left => E (.space e) { s with spaces := s.spaces.insert name left })
          (fun p left => P p { s with spaces := s.spaces.insert name left })) ∧
        (s.spaces.get? name = none → E .noSpace s) := by
  cases h : s.spaces.get? name with
  | none =>
    have hnone : onSpace name r s = .error .noSpace s [] := by
      unfold onSpace
      rw [h]
    rw [ends_of_error hnone]
    simp
  | some space =>
    have hsome : onSpace name r s =
        mapError .space (within (fun _ => space)
          (fun left s => { s with spaces := s.spaces.insert name left }) r) s := by
      unfold onSpace
      rw [h]
    rw [ends_congr hsome, ends_mapError, ends_within]
    simp

end Parts

section Names

variable {Q : AddressSpace → Machine → Prop} {E : MachineError → Machine → Prop}
  {P : Panic → Machine → Prop} {Q' : Unit → Machine → Prop}

theorem ends_getSpace :
    (getSpace name).Ends s Q E P ↔
      (∀ space, s.spaces.get? name = some space → Q space s) ∧
        (s.spaces.get? name = none → E .noSpace s) := by
  unfold Ends getSpace
  cases h : s.spaces.get? name <;> simp [Ending.done, Ending.error]

theorem ends_getSpace_of_get? (h : s.spaces.get? name = some space) :
    (getSpace name).Ends s Q E P ↔ Q space s := by
  simp [ends_getSpace, h]

theorem ends_removeSpace :
    (removeSpace name).Ends s Q E P ↔
      (∀ space, s.spaces.get? name = some space →
        Q space { s with spaces := s.spaces.erase name }) ∧
        (s.spaces.get? name = none → E .noSpace s) := by
  unfold Ends removeSpace
  cases h : s.spaces.get? name <;> simp [Ending.done, Ending.error]

@[simp] theorem ends_putSpace :
    (putSpace name space).Ends s Q' E P ↔
      Q' () { s with spaces := s.spaces.insert name space } := Iff.rfl

@[simp] theorem ends_enroll :
    (enroll name space).Ends s Q' E P ↔
      Q' () { s with spaces := s.spaces.insert name space } := Iff.rfl

end Names

theorem ends_dropGuard {index : Nat} {Q : Bool → Machine → Prop} {E : MachineError → Machine → Prop}
    {P : Panic → Machine → Prop} :
    (dropGuard index).Ends s Q E P ↔
      (∀ wereEnabled, s.guards[index]? = some wereEnabled →
        Q (wereEnabled || s.core.interruptsEnabled)
          { s with
            guards := s.guards.eraseIdx index
            core := { s.core with
              interruptsEnabled := wereEnabled || s.core.interruptsEnabled } }) ∧
        (s.guards[index]? = none → P (.removalOutOfBounds s.guards.length index) s) := by
  unfold Ends dropGuard
  cases hguard : s.guards[index]? with
  | none => simp [Ending.panic]
  | some wereEnabled =>
    have hforall {p : Bool → Prop} : (∀ b, some wereEnabled = some b → p b) ↔ p wereEnabled :=
      ⟨fun h => h _ rfl, fun h b hb => Option.some.inj hb ▸ h⟩
    rw [hforall, and_iff_left (fun hnone => absurd hnone (Option.some_ne_none _))]
    cases wereEnabled <;> rfl

theorem ends_table {r : TableRequest} {Q : Reply → Machine → Prop}
    {E : MachineError → Machine → Prop} {P : Panic → Machine → Prop} :
    (Request.table r).perform.Ends s Q E P ↔
      (∀ t, s.memory.allocator.table = some t →
        (onMemory .frame (Memory.onTable t r.perform)).Ends s Q E P) ∧
        (s.memory.allocator.table = none → E .noTable s) := by
  cases ht : s.memory.allocator.table with
  | none =>
    have hrun : (Request.table r).perform s = .error .noTable s [] := by
      simp only [Request.perform, ht]
    rw [ends_of_error hrun]
    simp
  | some t =>
    have hrun : (Request.table r).perform s =
        onMemory .frame (Memory.onTable t r.perform) s := by
      simp only [Request.perform, ht]
    rw [ends_congr hrun]
    simp

end Machine

/-- What is to hold of the space of a name, or where there is none, if the space is known. -/
theorem Directory.forall_get?_iff {d : Directory} {name : Nat} {space : AddressSpace}
    (h : d.get? name = some space) {p : AddressSpace → Prop} {q : Prop} :
    (∀ found, d.get? name = some found → p found) ∧ (d.get? name = none → q) ↔ p space := by
  simp [h]

namespace SpaceRequest

variable {s : Machine} {name : Nat} {Q : Reply → Machine → Prop}
  {E : MachineError → Machine → Prop} {P : Panic → Machine → Prop}

@[simp] theorem ends_release :
    (release.perform name).Ends s Q E P ↔
      (∀ space, s.spaces.get? name = some space →
        space.release.Ends s.memory
          (fun _ m => Q .done { s with memory := m, spaces := s.spaces.erase name })
          (fun e m => E e { s with memory := m, spaces := s.spaces.erase name })
          (fun p m => P p { s with memory := m, spaces := s.spaces.erase name })) ∧
        (s.spaces.get? name = none → E .noSpace s) := by
  simp only [perform, ends_bind, ends_pure, Machine.ends_removeSpace, Machine.ends_onMemory, id]

@[simp] theorem ends_abandon :
    (abandon.perform name).Ends s Q E P ↔
      (∀ space, s.spaces.get? name = some space →
        Q .done { s with spaces := s.spaces.erase name }) ∧
        (s.spaces.get? name = none → E .noSpace s) := by
  simp only [perform, ends_bind, ends_pure, Machine.ends_removeSpace, ends_forEach_report]

@[simp] theorem ends_addRegion {a : VirtualAddress} {size : Nat} {protection : Protection} :
    ((addRegion a size protection).perform name).Ends s Q E P ↔
      (∀ space, s.spaces.get? name = some space →
        (AddressSpace.addRegion a size protection).Ends space
          (fun _ left => Q .done { s with spaces := s.spaces.insert name left })
          (fun e left => E (.space e) { s with spaces := s.spaces.insert name left })
          (fun p left => P p { s with spaces := s.spaces.insert name left })) ∧
        (s.spaces.get? name = none → E .noSpace s) := by
  simp only [perform, ends_bind, ends_pure, Machine.ends_onSpace]

@[simp] theorem ends_populate :
    (populate.perform name).Ends s Q E P ↔
      (∀ space, s.spaces.get? name = some space →
        space.populate.Ends s.memory
          (fun backed m => Q .done { s with memory := m, spaces := s.spaces.insert name backed })
          (fun e m => E (.space e) { s with memory := m })
          (fun p m => P p { s with memory := m })) ∧
        (s.spaces.get? name = none → E .noSpace s) := by
  simp only [perform, ends_bind, ends_pure, Machine.ends_getSpace, Machine.ends_onMemory,
    Machine.ends_putSpace]

@[simp] theorem ends_finishLoading :
    (finishLoading.perform name).Ends s Q E P ↔
      (∀ space, s.spaces.get? name = some space →
        Q .done { s with spaces := s.spaces.insert name space.finishLoading }) ∧
        (s.spaces.get? name = none → E .noSpace s) := by
  simp only [perform, ends_bind, ends_pure, Machine.ends_getSpace, Machine.ends_putSpace]

@[simp] theorem ends_forkTo {child : Nat} :
    ((forkTo child).perform name).Ends s Q E P ↔
      (∀ space, s.spaces.get? name = some space →
        space.fork.Ends s.memory
          (fun forked m => Q .done { s with memory := m, spaces := s.spaces.insert child forked })
          (fun e m => E (.space e) { s with memory := m })
          (fun p m => P p { s with memory := m })) ∧
        (s.spaces.get? name = none → E .noSpace s) := by
  simp only [perform, ends_bind, ends_pure, Machine.ends_getSpace, Machine.ends_onMemory,
    Machine.ends_enroll]

@[simp] theorem ends_layOutArguments {through : Option Nat} {arguments : List (List UInt8)} :
    ((layOutArguments through arguments).perform name).Ends s Q E P ↔
      (∀ space, s.spaces.get? name = some space →
        (∀ target, s.spaces.get? (through.getD name) = some target →
          (space.layOutArguments target arguments).Ends s.memory
            (fun sp m => Q (.virtualAddress sp) { s with memory := m })
            (fun e m => E (.space e) { s with memory := m })
            (fun p m => P p { s with memory := m })) ∧
          (s.spaces.get? (through.getD name) = none → E .noSpace s)) ∧
        (s.spaces.get? name = none → E .noSpace s) := by
  simp only [perform, ends_bind, ends_pure, Machine.ends_getSpace, Machine.ends_onMemory]

@[simp] theorem ends_write {a : VirtualAddress} {bytes : List UInt8} :
    ((write a bytes).perform name).Ends s Q E P ↔
      (∀ space, s.spaces.get? name = some space →
        (space.write bytes a).Ends s.memory (fun _ m => Q .done { s with memory := m })
          (fun e m => E (.copy e) { s with memory := m })
          (fun p m => P p { s with memory := m })) ∧
        (s.spaces.get? name = none → E .noSpace s) := by
  simp only [perform, ends_bind, ends_pure, Machine.ends_getSpace, Machine.ends_onMemory]

@[simp] theorem ends_writeString {a : VirtualAddress} {bytes : List UInt8} {greatest : Nat} :
    ((writeString a bytes greatest).perform name).Ends s Q E P ↔
      (∀ space, s.spaces.get? name = some space →
        (space.writeString bytes a greatest).Ends s.memory
          (fun length m => Q (.count length) { s with memory := m })
          (fun e m => E (.copy e) { s with memory := m })
          (fun p m => P p { s with memory := m })) ∧
        (s.spaces.get? name = none → E .noSpace s) := by
  simp only [perform, ends_bind, ends_pure, Machine.ends_getSpace, Machine.ends_onMemory]

@[simp] theorem ends_switchTo :
    (switchTo.perform name).Ends s Q E P ↔
      (∀ space, s.spaces.get? name = some space →
        (Core.switchTo space).Ends s.core (fun _ core => Q .done { s with core := core })
          (fun e core => E e { s with core := core })
          (fun p core => P p { s with core := core })) ∧
        (s.spaces.get? name = none → E .noSpace s) := by
  simp only [perform, ends_bind, ends_pure, Machine.ends_getSpace, Machine.ends_onCore, id]

end SpaceRequest

end MipsVM
