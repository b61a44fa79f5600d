import MipsVM.Proofs.Routine

/-!
# Two runs of one routine

A routine is run from two states. The runs agree if they end in the same way and report the same
events; a statement about them says besides how the states are related that they leave.

## Main definitions

- `Ending.Agree`: two runs ended in the same way and left related states
- `Routine.Agree`: the runs of a routine from two states

## Main statements

- `Agree.bind` and the other rules: one for each way to build a routine
- `Agree.forEach`: a relation that each round keeps is kept by all rounds
-/

namespace MipsVM

/-- Two runs had the same outcome and the same events. The states that they left are related by `Q`
if they ended with a value, and by `E` if they did not. -/
inductive Ending.Agree {σ ε α : Type} (Q : α → σ → σ → Prop) (E : σ → σ → Prop) :
    Ending σ ε α → Ending σ ε α → Prop
  | value {a : α} {s s' : σ} {events : List Event} :
    Q a s s' → Agree Q E ⟨.ok a, s, events⟩ ⟨.ok a, s', events⟩
  | failure {e : Failure ε} {s s' : σ} {events : List Event} :
    E s s' → Agree Q E ⟨.error e, s, events⟩ ⟨.error e, s', events⟩

theorem Ending.Agree.mono {σ ε α : Type} {Q Q' : α → σ → σ → Prop} {E E' : σ → σ → Prop}
    {ending ending' : Ending σ ε α} (h : Agree Q E ending ending')
    (hQ : ∀ a s s', Q a s s' → Q' a s s') (hE : ∀ s s', E s s' → E' s s') :
    Agree Q' E' ending ending' := by
  cases h with
  | value h => exact .value (hQ _ _ _ h)
  | failure h => exact .failure (hE _ _ h)

theorem Ending.Agree.state {σ ε α : Type} {Q : α → σ → σ → Prop} {E R : σ → σ → Prop}
    {ending ending' : Ending σ ε α} (h : Agree Q E ending ending')
    (hQ : ∀ a s s', Q a s s' → R s s') (hE : ∀ s s', E s s' → R s s') :
    R ending.state ending'.state := by
  cases h with
  | value h => exact hQ _ _ _ h
  | failure h => exact hE _ _ h

namespace Routine

variable {σ τ ε ε' α β : Type} {s s' : σ} {Q Q' : α → σ → σ → Prop} {E E' : σ → σ → Prop}

/-- The runs of `r` from `s` and from `s'` agree, and leave states that are related by `Q` or by
`E`. -/
def Agree (r : Routine σ ε α) (s s' : σ) (Q : α → σ → σ → Prop) (E : σ → σ → Prop) : Prop :=
  Ending.Agree Q E (r s) (r s')

theorem Agree.mono {r : Routine σ ε α} (h : r.Agree s s' Q E) (hQ : ∀ a t t', Q a t t' → Q' a t t')
    (hE : ∀ t t', E t t' → E' t t') : r.Agree s s' Q' E' :=
  Ending.Agree.mono h hQ hE

theorem agree_congr {r r' : Routine σ ε α} (hs : r' s = r s) (hs' : r' s' = r s') :
    r'.Agree s s' Q E ↔ r.Agree s s' Q E := by
  unfold Agree
  rw [hs, hs']

/-- Two runs from one state are the same run. -/
theorem agree_self {r : Routine σ ε α}
    (h : r.Ends s (fun a t => Q a t t) (fun _ t => E t t) (fun _ t => E t t)) :
    r.Agree s s Q E := by
  unfold Ends at h
  unfold Agree
  generalize r s = ending at h
  rcases ending with ⟨(e | p) | a, t, events⟩
  · exact .failure h
  · exact .failure h
  · exact .value h

theorem Agree.endsIn {r : Routine σ ε α} {R : σ → Prop} (h : r.Agree s s' Q E)
    (hQ : ∀ a t t', Q a t t' → R t) (hE : ∀ t t', E t t' → R t) : r.EndsIn s R := by
  rw [endsIn_iff]
  exact Ending.Agree.state (R := fun t _ => R t) h hQ hE

section Rules

theorem agree_pure {a : α} (h : Q a s s') : (pure a : Routine σ ε α).Agree s s' Q E :=
  .value h

theorem agree_fail {e : ε} (h : E s s') : (fail e : Routine σ ε α).Agree s s' Q E :=
  .failure h

theorem agree_report {e : Event} {Q : Unit → σ → σ → Prop} (h : Q () s s') :
    (report e : Routine σ ε Unit).Agree s s' Q E :=
  .value h

theorem agree_modify {f : σ → σ} {Q : Unit → σ → σ → Prop} (h : Q () (f s) (f s')) :
    (modify f : Routine σ ε Unit).Agree s s' Q E :=
  .value h

theorem agree_ofExcept {x : Except ε α} (h : ∀ a, x = .ok a → Q a s s') (hE : E s s') :
    (ofExcept x : Routine σ ε α).Agree s s' Q E := by
  cases x with
  | ok a => exact .value (h a rfl)
  | error e => exact .failure hE

theorem agree_orPanic {x : Except Panic α} (h : ∀ a, x = .ok a → Q a s s') (hE : E s s') :
    (orPanic x : Routine σ ε α).Agree s s' Q E := by
  cases x with
  | ok a => exact .value (h a rfl)
  | error p => exact .failure hE

theorem agree_orFail {x : Option α} {e : ε} (h : ∀ a, x = some a → Q a s s') (hE : E s s') :
    (orFail e x : Routine σ ε α).Agree s s' Q E := by
  cases x with
  | some a => exact .value (h a rfl)
  | none => exact .failure hE

theorem Agree.bind {r : Routine σ ε β} {f : β → Routine σ ε α} {R : β → σ → σ → Prop}
    (h : r.Agree s s' R E) (hf : ∀ b t t', R b t t' → (f b).Agree t t' Q E) :
    (r >>= f).Agree s s' Q E := by
  unfold Agree at h ⊢
  rw [bind_apply, bind_apply]
  generalize r s = ending, r s' = ending' at h
  cases h with
  | @value b t t' events hR =>
    have hrest := hf b t t' hR
    unfold Agree at hrest
    show Ending.Agree Q E ⟨(f b t).outcome, (f b t).state, events ++ (f b t).events⟩
      ⟨(f b t').outcome, (f b t').state, events ++ (f b t').events⟩
    generalize f b t = ending, f b t' = ending' at hrest
    cases hrest with
    | value hQ => exact .value hQ
    | failure hE => exact .failure hE
  | failure hE => exact .failure hE

theorem Agree.bind_pure {r : Routine σ ε β} {f : β → α} {R : σ → σ → Prop}
    (h : r.Agree s s' (fun _ => R) R) :
    (r >>= fun b => pure (f b)).Agree s s' (fun _ => R) R :=
  h.bind fun _ _ _ hR => agree_pure hR

theorem Agree.map {r : Routine σ ε β} {f : β → α} (h : r.Agree s s' (fun b => Q (f b)) E) :
    (f <$> r).Agree s s' Q E :=
  h.bind (f := fun b => pure (f b)) fun _ _ _ hQ => .value hQ

theorem Agree.attempt {r : Routine σ ε α} {Q : Except ε α → σ → σ → Prop}
    (h : r.Agree s s' (fun a => Q (.ok a)) E) (hE : ∀ e t t', E t t' → Q (.error e) t t') :
    (r.attempt : Routine σ ε' (Except ε α)).Agree s s' Q E := by
  unfold Agree at h ⊢
  unfold Routine.attempt
  generalize r s = ending, r s' = ending' at h
  cases h with
  | value hQ => exact .value hQ
  | @failure e t t' events h =>
    cases e with
    | error e => exact .value (hE e t t' h)
    | panic p => exact .failure h

theorem Agree.mapError {r : Routine σ ε α} {f : ε → ε'} (h : r.Agree s s' Q E) :
    (r.mapError f).Agree s s' Q E := by
  unfold Agree at h ⊢
  unfold Routine.mapError
  generalize r s = ending, r s' = ending' at h
  cases h with
  | value hQ => exact .value hQ
  | failure hE => exact .failure hE

theorem Agree.onPanic {r : Routine σ ε α} {events : List Event} (h : r.Agree s s' Q E) :
    (r.onPanic events).Agree s s' Q E := by
  unfold Agree at h ⊢
  unfold Routine.onPanic
  generalize r s = ending, r s' = ending' at h
  cases h with
  | value hQ => exact .value hQ
  | @failure e t t' events' hE => cases e <;> exact .failure hE

theorem Agree.within {r : Routine τ ε α} {part : σ → τ} {put : τ → σ → σ}
    (h : r.Agree (part s) (part s') (fun a t t' => Q a (put t s) (put t' s'))
      fun t t' => E (put t s) (put t' s')) : (within part put r).Agree s s' Q E := by
  unfold Agree at h ⊢
  unfold Routine.within
  generalize r (part s) = ending, r (part s') = ending' at h
  cases h with
  | value hQ => exact .value hQ
  | failure hE => exact .failure hE

/-- A relation that each round keeps holds after all rounds. -/
theorem Agree.forEach {f : α → Routine σ ε Unit} {as : List α}
    (step : ∀ a ∈ as, ∀ t t', E t t' → (f a).Agree t t' (fun _ => E) E) (h : E s s') :
    (forEach f as).Agree s s' (fun _ => E) E := by
  induction as generalizing s s' with
  | nil => exact .value h
  | cons a rest ih =>
    refine (step a List.mem_cons_self s s' h).bind fun _ t t' h' => ?_
    exact ih (fun b hb => step b (List.mem_cons_of_mem _ hb)) h'

end Rules

end Routine

end MipsVM
