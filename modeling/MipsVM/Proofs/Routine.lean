import MipsVM.Routine

/-!
# How routines end

A statement about a run says what holds when the run ends with a value, what holds when it ends
with an error, and what holds when it ends with a panic.

## Main definitions

- `Routine.Ends`: the three conditions on the end of a run
- `Routine.EndsIn`: one condition on the state, however the run ends

## Main statements

- `ends_bind` and the other `ends_` lemmas: one for each way to build a routine, so that a
  statement about a routine unfolds into statements about its parts
- `Ends.mono`: conditions may be weakened
- `Ends.cases`: what is known of the outcome and the state that a run leaves

## Design notes

Every routine ends, so `Ends` speaks of total correctness. That a routine does not panic is said by
the condition `fun _ _ => False`.
-/

namespace MipsVM

/-- A sequence of results is there if each of them is. -/
theorem bind_eq_ok {ε α β : Type} {x : Except ε α} {f : α → Except ε β} {b : β} :
    x >>= f = .ok b ↔ ∃ a, x = .ok a ∧ f a = .ok b := by
  cases x with
  | error e => exact ⟨fun h => (nomatch h), fun ⟨_, h, _⟩ => nomatch h⟩
  | ok a => exact ⟨fun h => ⟨a, rfl, h⟩, fun ⟨_, ha, h⟩ => Except.ok.inj ha ▸ h⟩

namespace Routine

variable {σ τ ε ε' α β : Type} {s : σ}

/-- The run of `r` from `s` ends with a value and a state that satisfy `Q`, or with an error and a
state that satisfy `E`, or with a panic and a state that satisfy `P`. -/
def Ends (r : Routine σ ε α) (s : σ) (Q : α → σ → Prop) (E : ε → σ → Prop)
    (P : Panic → σ → Prop) : Prop :=
  match (r s).outcome with
  | .ok a => Q a (r s).state
  | .error (.error e) => E e (r s).state
  | .error (.panic p) => P p (r s).state

/-- However the run of `r` from `s` ends, it leaves a state that satisfies `R`. -/
def EndsIn (r : Routine σ ε α) (s : σ) (R : σ → Prop) : Prop :=
  r.Ends s (fun _ => R) (fun _ => R) (fun _ => R)

theorem Ends.mono {r : Routine σ ε α} {Q Q' : α → σ → Prop} {E E' : ε → σ → Prop}
    {P P' : Panic → σ → Prop} (h : r.Ends s Q E P) (hQ : ∀ a s', Q a s' → Q' a s')
    (hE : ∀ e s', E e s' → E' e s') (hP : ∀ p s', P p s' → P' p s') : r.Ends s Q' E' P' := by
  unfold Ends at h ⊢
  split at h
  · exact hQ _ _ h
  · exact hE _ _ h
  · exact hP _ _ h

theorem Ends.and {r : Routine σ ε α} {Q Q' : α → σ → Prop} {E E' : ε → σ → Prop}
    {P P' : Panic → σ → Prop} (h : r.Ends s Q E P) (h' : r.Ends s Q' E' P') :
    r.Ends s (fun a s' => Q a s' ∧ Q' a s') (fun e s' => E e s' ∧ E' e s')
      (fun p s' => P p s' ∧ P' p s') := by
  unfold Ends at h h' ⊢
  split at h <;> simp_all

theorem ends_congr {r r' : Routine σ ε α} {s' : σ} {Q : α → σ → Prop} {E : ε → σ → Prop}
    {P : Panic → σ → Prop} (h : r s = r' s') : r.Ends s Q E P ↔ r'.Ends s' Q E P := by
  unfold Ends
  rw [h]

theorem Ends.cases {r : Routine σ ε α} {Q : α → σ → Prop} {E : ε → σ → Prop}
    {P : Panic → σ → Prop} (h : r.Ends s Q E P) :
    (∃ a, (r s).outcome = .ok a ∧ Q a (r s).state) ∨
      (∃ e, (r s).outcome = .error (.error e) ∧ E e (r s).state) ∨
      ∃ p, (r s).outcome = .error (.panic p) ∧ P p (r s).state := by
  unfold Ends at h
  split at h
  · next hout => exact .inl ⟨_, hout, h⟩
  · next hout => exact .inr (.inl ⟨_, hout, h⟩)
  · next hout => exact .inr (.inr ⟨_, hout, h⟩)

theorem ends_of_forall {r : Routine σ ε α} {Q : α → σ → Prop} {E : ε → σ → Prop}
    {P : Panic → σ → Prop} (hQ : ∀ a s', Q a s') (hE : ∀ e s', E e s') (hP : ∀ p s', P p s') :
    r.Ends s Q E P := by
  unfold Ends
  split
  · exact hQ _ _
  · exact hE _ _
  · exact hP _ _

@[simp] theorem ends_true {r : Routine σ ε α} :
    r.Ends s (fun _ _ => True) (fun _ _ => True) (fun _ _ => True) :=
  ends_of_forall (fun _ _ => trivial) (fun _ _ => trivial) (fun _ _ => trivial)

theorem Ends.value {r : Routine σ ε α} {Q : α → σ → Prop} {P : Panic → σ → Prop} {a : α}
    {E : ε → σ → Prop} (h : r.Ends s Q E P) (hr : (r s).outcome = .ok a) : Q a (r s).state := by
  unfold Ends at h
  rwa [hr] at h

section EndsIn

variable {r : Routine σ ε α} {R R' : σ → Prop}

theorem endsIn_iff : r.EndsIn s R ↔ R (r s).state := by
  unfold EndsIn Ends
  split <;> exact Iff.rfl

theorem EndsIn.mono (h : r.EndsIn s R) (hR : ∀ s', R s' → R' s') : r.EndsIn s R' :=
  Ends.mono h (fun _ => hR) (fun _ => hR) (fun _ => hR)

theorem EndsIn.and (h : r.EndsIn s R) (h' : r.EndsIn s R') : r.EndsIn s fun s' => R s' ∧ R' s' :=
  Ends.and h h'

theorem endsIn_ite {r' : Routine σ ε α} {c : Prop} [Decidable c] (h : c → r.EndsIn s R)
    (h' : ¬ c → r'.EndsIn s R) : (if c then r else r').EndsIn s R := by
  split
  · next hc => exact h hc
  · next hc => exact h' hc

theorem endsIn_of_forall (h : ∀ s', R s') : r.EndsIn s R :=
  ends_of_forall (fun _ => h) (fun _ => h) (fun _ => h)

end EndsIn

section Rules

variable {Q : α → σ → Prop} {E : ε → σ → Prop} {P : Panic → σ → Prop}

@[simp] theorem ends_pure {a : α} : (pure a : Routine σ ε α).Ends s Q E P ↔ Q a s := Iff.rfl

@[simp] theorem ends_bind {r : Routine σ ε β} {f : β → Routine σ ε α} :
    (r >>= f).Ends s Q E P ↔ r.Ends s (fun b s' => (f b).Ends s' Q E P) E P := by
  unfold Ends
  rw [bind_apply]
  rcases r s with ⟨(e | p) | b, s', events⟩ <;> rfl

@[simp] theorem ends_map {r : Routine σ ε β} {f : β → α} :
    (f <$> r).Ends s Q E P ↔ r.Ends s (fun b => Q (f b)) E P :=
  ends_bind (f := fun b => pure (f b))

@[simp] theorem ends_fail {e : ε} : (fail e : Routine σ ε α).Ends s Q E P ↔ E e s := Iff.rfl

@[simp] theorem ends_panic {p : Panic} : (panic p : Routine σ ε α).Ends s Q E P ↔ P p s := Iff.rfl

@[simp] theorem ends_report {e : Event} {Q : Unit → σ → Prop} :
    (report e : Routine σ ε Unit).Ends s Q E P ↔ Q () s := Iff.rfl

@[simp] theorem ends_modify {f : σ → σ} {Q : Unit → σ → Prop} :
    (modify f : Routine σ ε Unit).Ends s Q E P ↔ Q () (f s) := Iff.rfl

@[simp] theorem ends_gets {f : σ → α} : (gets f : Routine σ ε α).Ends s Q E P ↔ Q (f s) s := Iff.rfl

/-- A condition on the state that each part keeps. -/
theorem EndsIn.bind {r : Routine σ ε β} {f : β → Routine σ ε α} {R : σ → Prop} (h : r.EndsIn s R)
    (hf : ∀ b s', R s' → (f b).EndsIn s' R) : (r >>= f).EndsIn s R :=
  ends_bind.mpr (Ends.mono h hf (fun _ _ h => h) (fun _ _ h => h))

theorem ends_of_done {r : Routine σ ε α} {a : α} {s' : σ} {events : List Event}
    (h : r s = .done a s' events) : r.Ends s Q E P ↔ Q a s' := by
  unfold Ends
  rw [h]
  rfl

theorem ends_of_error {r : Routine σ ε α} {e : ε} {s' : σ} {events : List Event}
    (h : r s = .error e s' events) : r.Ends s Q E P ↔ E e s' := by
  unfold Ends
  rw [h]
  rfl

theorem ends_of_panic {r : Routine σ ε α} {p : Panic} {s' : σ} {events : List Event}
    (h : r s = .panic p s' events) : r.Ends s Q E P ↔ P p s' := by
  unfold Ends
  rw [h]
  rfl

theorem ends_ofExcept {x : Except ε α} :
    (ofExcept x : Routine σ ε α).Ends s Q E P ↔
      (∀ a, x = .ok a → Q a s) ∧ ∀ e, x = .error e → E e s := by
  cases x with
  | ok a => simp [ofExcept]
  | error e => simp [ofExcept]

theorem ends_orPanic {x : Except Panic α} :
    (orPanic x : Routine σ ε α).Ends s Q E P ↔
      (∀ a, x = .ok a → Q a s) ∧ ∀ p, x = .error p → P p s := by
  cases x with
  | ok a => simp [orPanic]
  | error p => simp [orPanic]

theorem orPanic_ok (a : α) : (orPanic (.ok a) : Routine σ ε α) = pure a := rfl

theorem orFail_some (e : ε) (a : α) : (orFail e (some a) : Routine σ ε α) = pure a := rfl

theorem ends_orFail {x : Option α} {e : ε} :
    (orFail e x : Routine σ ε α).Ends s Q E P ↔ (∀ a, x = some a → Q a s) ∧ (x = none → E e s) := by
  cases x with
  | some a => simp [orFail]
  | none => simp [orFail]

@[simp] theorem ends_attempt {r : Routine σ ε α} {Q : Except ε α → σ → Prop}
    {E : ε' → σ → Prop} :
    (r.attempt : Routine σ ε' (Except ε α)).Ends s Q E P ↔
      r.Ends s (fun a => Q (.ok a)) (fun e => Q (.error e)) P := by
  unfold Ends attempt
  rcases r s with ⟨(e | p) | b, s', events⟩ <;> rfl

@[simp] theorem ends_mapError {r : Routine σ ε α} {f : ε → ε'} {E : ε' → σ → Prop} :
    (r.mapError f).Ends s Q E P ↔ r.Ends s Q (fun e => E (f e)) P := by
  unfold Ends mapError
  rcases r s with ⟨(e | p) | b, s', events⟩ <;> rfl

@[simp] theorem ends_onPanic {r : Routine σ ε α} {events : List Event} :
    (r.onPanic events).Ends s Q E P ↔ r.Ends s Q E P := by
  unfold Ends onPanic
  rcases r s with ⟨(e | p) | b, s', events⟩ <;> rfl

theorem within_apply (part : σ → τ) (put : τ → σ → σ) (r : Routine τ ε α) (s : σ) :
    within part put r s =
      ⟨(r (part s)).outcome, put (r (part s)).state s, (r (part s)).events⟩ := rfl

@[simp] theorem ends_within {r : Routine τ ε α} {part : σ → τ} {put : τ → σ → σ} :
    (within part put r).Ends s Q E P ↔
      r.Ends (part s) (fun a t => Q a (put t s)) (fun e t => E e (put t s))
        (fun p t => P p (put t s)) := by
  unfold Ends within
  rcases r (part s) with ⟨(e | p) | b, s', events⟩ <;> rfl

/-- A condition that each round keeps holds after all rounds. -/
theorem ends_forEach {f : α → Routine σ ε Unit} {I : σ → Prop} {as : List α}
    (step : ∀ a ∈ as, ∀ s, I s → (f a).Ends s (fun _ => I) E P) (h : I s) :
    (forEach f as).Ends s (fun _ => I) E P := by
  induction as generalizing s with
  | nil => exact h
  | cons a rest ih =>
    unfold forEach
    rw [ends_bind]
    refine (step a List.mem_cons_self s h).mono (fun _ s' h' => ?_) (fun _ _ h' => h')
      (fun _ _ h' => h')
    exact ih (fun b hb => step b (List.mem_cons_of_mem _ hb)) h'

@[simp] theorem ends_forEach_report {es : List Event} {Q : Unit → σ → Prop} :
    (forEach report es : Routine σ ε Unit).Ends s Q E P ↔ Q () s := by
  induction es with
  | nil => exact ends_pure
  | cons e rest ih => rw [forEach, ends_bind, ends_report, ih]

end Rules

end Routine

end MipsVM
