import MipsVM.Proofs.Machine.System
import MipsVM.Proofs.Tlb.Refill

/-!
# The discipline of interrupts

The buffer is changed by the kernel under a guard of its own, and guards that outlive a request are
dropped in the reverse of the order in which they were taken. The flag is then off as long as a
guard is held, and what it was at first once none is held any more. However a request ends, the
guard that it took itself is dropped.

## Main definitions

- `Core.Settled`: the flag and the count of unguarded writes are as they were
- `Machine.Disciplined`: what is asked of a machine
- `Machine.RunsTo`: the machines that are reached by such requests
- `Nested`: what the guards that are held have found

## Main statements

- `settled_guarded`: a routine that is settled with interrupts off is settled under a guard
- `perform_settled`: a request that concerns no guard leaves flag, count and guards as they are
- `RunsTo.nested`: the guards of a machine are nested
- `RunsTo.interrupts`: the flag along a run
-/

namespace MipsVM

open Routine

namespace Core

variable {ε α : Type} {c c' c'' : Core} {slot count : Nat} {entry : TlbEntry}

/-- The flag is as it was, and no write to the buffer was made with interrupts on. -/
structure Settled (c c' : Core) : Prop where
  flag : c'.interruptsEnabled = c.interruptsEnabled
  writes : c'.unguardedWrites = c.unguardedWrites

theorem Settled.refl : c.Settled c :=
  ⟨rfl, rfl⟩

theorem Settled.trans (h : c.Settled c') (h' : c'.Settled c'') : c.Settled c'' :=
  ⟨h'.flag.trans h.flag, h'.writes.trans h.writes⟩

theorem Settled.off (h : c.Settled c') (hoff : c.interruptsEnabled = false) :
    c'.interruptsEnabled = false :=
  h.flag.trans hoff

theorem settled_write (hoff : c.interruptsEnabled = false) :
    (write slot entry : Routine Core ε Unit).EndsIn c c.Settled := by
  have hcount : (c.unguardedWrites + if c.interruptsEnabled then 1 else 0) = c.unguardedWrites := by
    rw [hoff]
    rfl
  rw [endsIn_iff, write]
  split
  · exact ⟨rfl, hcount⟩
  · exact ⟨rfl, hcount⟩

theorem settled_writeAnywhere (hoff : c.interruptsEnabled = false) :
    (writeAnywhere entry : Routine Core ε Nat).EndsIn c c.Settled := by
  by_cases hsize : c.tlb.slots.size = 0
  · rw [endsIn_iff, writeAnywhere, if_pos hsize]
    exact .refl
  · -- to draw a slot changes the source only
    let drawn : Core :=
      { c with tlb := { c.tlb with source := (c.tlb.source.below c.tlb.slots.size).2 } }
    have hdrawn : c.Settled drawn := ⟨rfl, rfl⟩
    rw [EndsIn, ends_congr (writeAnywhere_of_ne hsize)]
    exact EndsIn.bind ((settled_write (c := drawn) hoff).mono fun _ h => hdrawn.trans h)
      fun _ _ h => h

theorem settled_enter (hoff : c.interruptsEnabled = false) :
    (enter entry : Routine Core ε Nat).EndsIn c c.Settled := by
  cases hunused : c.tlb.firstUnused? with
  | some slot =>
    rw [EndsIn, ends_congr (enter_of_some hunused)]
    exact EndsIn.bind (settled_write hoff) fun _ _ h => h
  | none =>
    rw [EndsIn, ends_congr (enter_of_none hunused)]
    exact settled_writeAnywhere hoff

theorem settled_flushFrom (hoff : c.interruptsEnabled = false) :
    (flushFrom slot count : Routine Core ε Unit).EndsIn c c.Settled := by
  induction count generalizing slot c with
  | zero => exact Settled.refl
  | succ count ih =>
    refine EndsIn.bind (ends_orPanic.mpr ⟨fun _ _ => .refl, fun _ _ => .refl⟩) ?_
    intro entry c₁ h₁
    have hwrite : (write slot entry : Routine Core ε Unit).EndsIn c₁ c₁.Settled :=
      settled_write (h₁.off hoff)
    refine EndsIn.bind (hwrite.mono fun _ h => h₁.trans h) ?_
    intro _ c₂ h₂
    exact (ih (h₂.off hoff)).mono fun _ h => h₂.trans h

/-- A routine that leaves the flag and the count when interrupts are off does so under a guard. -/
theorem settled_guarded {r : Routine Core ε α}
    (h : ∀ c', c'.interruptsEnabled = false → r.EndsIn c' c'.Settled) :
    (guarded r).EndsIn c c.Settled := by
  rw [EndsIn, ends_guarded]
  refine (h { c with interruptsEnabled := false } rfl).mono fun left hleft => ?_
  unfold resumed
  cases hflag : c.interruptsEnabled with
  | false => exact ⟨hleft.flag.trans hflag.symm, hleft.writes⟩
  | true => exact ⟨hflag.symm, hleft.writes⟩

theorem settled_flush : (flush : Routine Core ε Unit).EndsIn c c.Settled := by
  refine settled_guarded fun c' hoff => ?_
  have hflush : (flushFrom 0 c'.tlb.slots.size : Routine Core ε Unit).EndsIn c' c'.Settled :=
    settled_flushFrom hoff
  exact (ends_congr rfl).mpr hflush

theorem settled_refill (kind : FaultKind) (a : VirtualAddress) (space : Option AddressSpace) :
    (refill kind a space).EndsIn c c.Settled := by
  rw [refill]
  refine EndsIn.bind Settled.refl fun _ c₁ h₁ => ?_
  by_cases hkind : kind = .readOnly
  · rw [if_pos hkind]
    exact h₁
  · rw [if_neg hkind]
    refine EndsIn.bind (ends_orFail.mpr ⟨fun _ _ => h₁, fun _ => h₁⟩) fun space c₂ h₂ => ?_
    refine EndsIn.bind (ends_orPanic.mpr ⟨fun _ _ => h₂, fun _ _ => h₂⟩) fun _ c₃ h₃ => ?_
    refine EndsIn.bind (ends_orFail.mpr ⟨fun _ _ => h₃, fun _ => h₃⟩) fun frame c₄ h₄ => ?_
    -- only here is the guard taken
    refine EndsIn.mono (settled_guarded fun c' hoff => ?_) fun _ h => h₄.trans h
    exact EndsIn.bind (settled_enter hoff) fun _ _ h => h

theorem settled_refillByCode (code : Nat) (a : VirtualAddress) (space : Option AddressSpace) :
    (refillByCode code a space).EndsIn c c.Settled := by
  refine EndsIn.bind (ends_ofExcept.mpr ⟨fun _ _ => .refl, fun _ _ => .refl⟩) fun kind c₁ h₁ => ?_
  exact (settled_refill kind a space).mono fun _ h => h₁.trans h

end Core

/-- What the guards that are held have found, oldest first, and what the flag is, if it was `flag`
before any of them was taken: each has found what the older ones left, and left the flag off. -/
inductive Nested (flag : Bool) : List Bool → Bool → Prop
  | outside : Nested flag [] flag
  | inside {guards : List Bool} {found : Bool} :
    Nested flag guards found → Nested flag (guards ++ [found]) false

namespace Nested

variable {flag found now : Bool} {guards : List Bool}

/-- The newest guard has found what the flag was before it was taken. -/
theorem of_append (h : Nested flag (guards ++ [found]) now) :
    now = false ∧ Nested flag guards found := by
  generalize hall : guards ++ [found] = all at h
  cases h with
  | outside => simp at hall
  | inside h =>
    obtain ⟨rfl, hfound⟩ := List.append_inj' hall rfl
    cases hfound
    exact ⟨rfl, h⟩

theorem off (h : Nested flag guards now) (hne : guards ≠ []) : now = false := by
  cases h with
  | outside => exact absurd rfl hne
  | inside _ => rfl

theorem eq_of_nil (h : Nested flag [] now) : now = flag := by
  generalize hnil : [] = guards at h
  cases h with
  | outside => rfl
  | inside _ => simp at hnil

end Nested

/-- The panic that a run ended with, if it did. -/
def Ending.panic? {σ ε α : Type} (ending : Ending σ ε α) : Option Panic :=
  match ending.outcome with
  | .error (.panic p) => some p
  | _ => none

namespace Machine

variable {start s : Machine} {request : Request}

/-- The requests that are made: the flag is changed by guards only, the newest guard is the first to
be dropped, and the buffer is not written to otherwise than by the kernel. -/
def Disciplined (s : Machine) : Request → Prop
  | .interrupts .enable | .interrupts .disable => False
  | .interrupts (.release index) => index + 1 = s.guards.length
  | .tlb (.write ..) | .tlb (.writeAnywhere _) => False
  | _ => True

/-- The machines that are reached by requests that are made, however they end. -/
inductive RunsTo (start : Machine) : Machine → Prop
  | refl : RunsTo start start
  | step {s : Machine} {request : Request} :
    RunsTo start s → s.Disciplined request → RunsTo start (request.perform s).state

theorem settled_onCore {ε α : Type} {wrap : ε → MachineError} {r : Routine Core ε α}
    (h : r.EndsIn s.core s.core.Settled) :
    (onCore wrap r).EndsIn s fun s' => s.core.Settled s'.core ∧ s'.guards = s.guards :=
  ends_onCore.mpr (EndsIn.mono h fun _ hc => ⟨hc, rfl⟩)

theorem settled_onMemory {ε α : Type} {wrap : ε → MachineError} {r : Routine Memory ε α} :
    (onMemory wrap r).EndsIn s fun s' => s.core.Settled s'.core ∧ s'.guards = s.guards :=
  ends_onMemory.mpr (endsIn_of_forall fun _ => ⟨.refl, rfl⟩)

/-- A request that concerns no guard leaves the flag, the count and the guards as they are. -/
theorem perform_settled (hdisciplined : s.Disciplined request)
    (hcall : ∀ r, request ≠ .interrupts r) :
    request.perform.EndsIn s fun s' => s.core.Settled s'.core ∧ s'.guards = s.guards := by
  have hsame : s.core.Settled s.core ∧ s.guards = s.guards := ⟨.refl, rfl⟩
  cases request with
  | allocator | ram => exact settled_onMemory
  | table r => exact ends_table.mpr ⟨fun _ _ => settled_onMemory, fun _ => hsame⟩
  | interrupts r => exact absurd rfl (hcall r)
  | tlb r =>
    refine settled_onCore ?_
    cases r with
    | write | writeAnywhere => exact hdisciplined.elim
    | flush => exact EndsIn.bind Core.settled_flush fun _ _ h => h
    | read slot =>
      exact (ends_congr rfl).mpr (ends_orPanic (x := Reply.entry <$> s.core.tlb.read slot).mpr
        ⟨fun _ _ => .refl, fun _ _ => .refl⟩)
    | probe | translate | valid | dump => exact Core.Settled.refl
  | space name r =>
    by_cases hr : r = .switchTo
    · subst hr
      exact SpaceRequest.ends_switchTo.mpr
        ⟨fun _ _ => Core.settled_flush.mono fun _ hc => ⟨hc, rfl⟩, fun _ => hsame⟩
    · refine (SpaceRequest.core_guards_perform hr).mono fun s' ⟨hcore, hguards⟩ => ?_
      rw [hcore]
      exact ⟨.refl, hguards⟩
  | fault code a space =>
    cases space with
    | none => exact ends_map.mpr (settled_onCore (Core.settled_refillByCode code a none))
    | some name =>
      refine ends_bind.mpr (ends_getSpace.mpr ⟨fun space _ => ?_, fun _ => hsame⟩)
      exact EndsIn.bind (settled_onCore (Core.settled_refillByCode code a (some space)))
        fun _ _ h => h

/-- One request keeps the guards nested and the count as it is. -/
theorem nested_perform {flag : Bool} (h : Nested flag s.guards s.core.interruptsEnabled)
    (hdisciplined : s.Disciplined request) :
    request.perform.EndsIn s fun s' => Nested flag s'.guards s'.core.interruptsEnabled ∧
      s'.core.unguardedWrites = s.core.unguardedWrites := by
  by_cases hcall : ∀ r, request ≠ .interrupts r
  · refine (perform_settled hdisciplined hcall).mono fun s' ⟨hsettled, hguards⟩ => ?_
    rw [hguards, hsettled.flag]
    exact ⟨h, hsettled.writes⟩
  · simp only [ne_eq, not_forall, not_not] at hcall
    obtain ⟨r, rfl⟩ := hcall
    cases r with
    | enable | disable => exact hdisciplined.elim
    | state => exact ⟨h, rfl⟩
    | hold => exact ⟨h.inside, rfl⟩
    | release index =>
      refine ends_bind.mpr (ends_dropGuard.mpr ⟨fun found hfound => ?_, fun _ => ⟨h, rfl⟩⟩)
      -- the guard that is dropped is the newest one
      have hlast : index + 1 = s.guards.length := hdisciplined
      have hsplit : s.guards = s.guards.eraseIdx index ++ [found] := by
        obtain ⟨hlt, rfl⟩ := List.getElem?_eq_some_iff.mp hfound
        rw [List.eraseIdx_eq_take_drop_succ, List.drop_eq_nil_of_le (by omega), List.append_nil,
          List.take_append_getElem, hlast, List.take_length]
      rw [hsplit] at h
      obtain ⟨hoff, hfound'⟩ := h.of_append
      refine ⟨?_, rfl⟩
      rw [hoff, Bool.or_false]
      exact hfound'

theorem RunsTo.nested (hstart : start.guards = []) (h : start.RunsTo s) :
    Nested start.core.interruptsEnabled s.guards s.core.interruptsEnabled ∧
      s.core.unguardedWrites = start.core.unguardedWrites := by
  induction h with
  | refl =>
    rw [hstart]
    exact ⟨.outside, rfl⟩
  | step _ hdisciplined ih =>
    obtain ⟨hnested, hwrites⟩ := endsIn_iff.mp (nested_perform ih.1 hdisciplined)
    exact ⟨hnested, hwrites.trans ih.2⟩

/-- Along a run no write to the buffer is made with interrupts on, the flag is off as long as a
guard is held, and it is what it was at first whenever none is. A request that concerns no guard
leaves the flag as it was, even if it panics. -/
theorem RunsTo.interrupts (hstart : start.guards = []) (h : start.RunsTo s) :
    s.core.unguardedWrites = start.core.unguardedWrites ∧
    (s.guards ≠ [] → s.core.interruptsEnabled = false) ∧
    (s.guards = [] → s.core.interruptsEnabled = start.core.interruptsEnabled) ∧
    ∀ request, s.Disciplined request → (∀ r, request ≠ .interrupts r) →
      (request.perform s).state.core.interruptsEnabled = s.core.interruptsEnabled ∧
      (request.perform s).state.core.unguardedWrites = s.core.unguardedWrites := by
  obtain ⟨hnested, hwrites⟩ := h.nested hstart
  refine ⟨hwrites, hnested.off, fun hnil => ?_, fun request hdisciplined hcall => ?_⟩
  · rw [hnil] at hnested
    exact hnested.eq_of_nil
  · obtain ⟨hsettled, -⟩ := endsIn_iff.mp (perform_settled hdisciplined hcall)
    exact ⟨hsettled.flag, hsettled.writes⟩

/-- The small machine, whose buffer has no slots, when the space 0 has frames and two guards are
held. -/
def twiceGuarded : Machine :=
  stateAfter Request.perform
    [.interrupts .hold, .space 0 .create,
      .space 0 (.addRegion (.ofNat 0x400000) 4096 (.ofFlags true false true)),
      .space 0 (.addRegion (.ofNat 0x10000000) 5000 (.ofFlags true true false)),
      .space 0 .populate, .interrupts .hold]
    System.small.machine

theorem runsTo_twiceGuarded : System.small.machine.RunsTo twiceGuarded :=
  .step (.step (.step (.step (.step (.step .refl trivial) trivial) trivial) trivial) trivial)
    trivial

/-- A fault panics under two guards, since there is no slot for the translation. Interrupts are off
still, and on again after both guards were dropped. -/
theorem interrupts_twiceGuarded :
    let faulted := (Request.fault 0 (.ofNat 0x400123) (some 0)).perform twiceGuarded
    let released := stateAfter Request.perform
      [.interrupts (.release 1), .interrupts (.release 0)] faulted.state
    faulted.panic? = some .emptyChoice ∧ faulted.state.core.interruptsEnabled = false ∧
      released.core.interruptsEnabled = true ∧ released.core.unguardedWrites = 0 := by
  intro faulted released
  have hguards : faulted.state.guards = [true, false] := by decide +kernel
  have houter :
      ((Request.interrupts (.release 1)).perform faulted.state).state.guards = [true] := by
    decide +kernel
  have hfaulted : System.small.machine.RunsTo faulted.state := runsTo_twiceGuarded.step trivial
  have hreleased : System.small.machine.RunsTo released :=
    .step (.step hfaulted (congrArg List.length hguards).symm) (congrArg List.length houter).symm
  obtain ⟨-, hoff, -, -⟩ := hfaulted.interrupts rfl
  obtain ⟨hwrites, -, hrestored, -⟩ := hreleased.interrupts rfl
  have hnil : released.guards = [] := by decide +kernel
  have hpanic : faulted.panic? = some .emptyChoice := by decide +kernel
  exact ⟨hpanic, hoff (by rw [hguards]; exact List.cons_ne_nil _ _), hrestored hnil, hwrites⟩

end Machine

end MipsVM
