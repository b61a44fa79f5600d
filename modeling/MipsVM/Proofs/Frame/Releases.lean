import MipsVM.Proofs.Frame.Lending

/-!
# Several runs taken back one after the other

Runs in use lie apart, and each is recorded by its own slots only. To take several of them back
therefore has the same answers in any order, and it leaves the table as it was with the slots of
these runs cleared at once. Runs that are too long to be taken back stay, wherever their turn comes.

## Main definitions

- `Run.startingAt`: a run, given by its first frame and its length
- `FrameTable.clearAll`: a table without some runs
- `FrameTable.Releases`: what it means to take back some runs in any order

## Main statements

- `clearAll_perm`, `clearAll_clearAll`: clearing does not depend on the order
- `Records.releases`: taking back runs that a table records
- `Lending.Reachable.releases`: the same for runs that were handed out
-/

namespace MipsVM

/-- The run of a number of frames from a frame on. -/
def Run.startingAt (r : PhysicalPage × Nat) : Run :=
  ⟨r.1.number, r.2⟩

theorem Run.startingAt_injective : Function.Injective Run.startingAt := by
  intro r r' h
  have hfirst : r.1.number = r'.1.number := congrArg Run.first h
  have hcount : r.2 = r'.2 := congrArg Run.count h
  exact Prod.ext (Page.ext hfirst) hcount

namespace FrameTable

variable {t : FrameTable} {runs runs' rest : List Run} {r : Run}

section ClearAll

/-- The table after the slots of some runs were cleared. -/
def clearAll (t : FrameTable) (runs : List Run) : FrameTable where
  first := t.first
  slots := t.slots.mapIdx fun i slot =>
    if ∃ r ∈ runs, r.Has (t.first.number + i) then .free else slot
  freeCount := t.freeCount + Run.frameCount runs

@[simp] theorem first_clearAll : (t.clearAll runs).first = t.first := rfl

@[simp] theorem total_clearAll : (t.clearAll runs).total = t.total :=
  List.length_mapIdx

theorem getElem?_clearAll (i : Nat) :
    (t.clearAll runs).slots[i]? =
      if ∃ r ∈ runs, r.Has (t.first.number + i) then t.slots[i]?.map fun _ => .free
      else t.slots[i]? := by
  simp only [clearAll, List.getElem?_mapIdx]
  split
  · rfl
  · exact Option.map_id'

theorem eq_of_getElem? {t' : FrameTable} (hfirst : t.first = t'.first)
    (hslots : ∀ i : Nat, t.slots[i]? = t'.slots[i]?) (hcount : t.freeCount = t'.freeCount) :
    t = t' := by
  obtain ⟨first, slots, free⟩ := t
  obtain ⟨first', slots', free'⟩ := t'
  obtain rfl : first = first' := hfirst
  obtain rfl : slots = slots' := List.ext_getElem? hslots
  obtain rfl : free = free' := hcount
  rfl

@[simp] theorem clearAll_nil : t.clearAll [] = t := by
  refine eq_of_getElem? ?_ ?_ ?_
  · rfl
  · intro i
    rw [getElem?_clearAll, if_neg (by simp)]
  · rfl

theorem clearAll_clearAll : (t.clearAll runs).clearAll runs' = t.clearAll (runs ++ runs') := by
  refine eq_of_getElem? ?_ ?_ ?_
  · rfl
  · intro i
    have hor : (∃ r ∈ runs ++ runs', r.Has (t.first.number + i)) ↔
        (∃ r ∈ runs, r.Has (t.first.number + i)) ∨ ∃ r ∈ runs', r.Has (t.first.number + i) := by
      simp only [List.mem_append, or_and_right, exists_or]
    simp only [getElem?_clearAll, first_clearAll, hor]
    by_cases hin : ∃ r ∈ runs, r.Has (t.first.number + i) <;>
      by_cases hin' : ∃ r ∈ runs', r.Has (t.first.number + i) <;>
      simp only [hin, hin', if_true, if_false, or_true, true_or, or_self, Option.map_map,
        Function.comp_def]
  · change t.freeCount + Run.frameCount runs + Run.frameCount runs' = _
    rw [Nat.add_assoc, ← Run.frameCount_append]
    rfl

theorem clearAll_perm (h : runs.Perm runs') : t.clearAll runs = t.clearAll runs' := by
  simp only [clearAll, h.mem_iff, Run.frameCount_perm h]

/-- To clear the slots of one run, by their numbers. -/
theorem Records.clear_eq (h : t.Records runs) (hr : r ∈ runs) :
    t.clear (r.first - t.first.number) r.count = t.clearAll [r] := by
  obtain ⟨-, hlow, -⟩ := h.inside r hr
  have hend := h.stop_le hr
  refine eq_of_getElem? ?_ ?_ ?_
  · rfl
  · intro i
    have hhas : r.Has (t.first.number + i) ↔
        r.first - t.first.number ≤ i ∧ i < r.first - t.first.number + r.count := by
      unfold Run.Has Run.stop
      omega
    rw [getElem?_clear hend, getElem?_clearAll]
    simp only [List.mem_singleton, exists_eq_left, hhas]
    split
    · next hi =>
      have hlt : i < t.slots.length := Nat.lt_of_lt_of_le hi.2 hend
      rw [List.getElem?_eq_getElem hlt, Option.map_some]
    · rfl
  · change t.freeCount + r.count = t.freeCount + Run.frameCount [r]
    rw [Run.frameCount_cons, Run.frameCount_nil, Nat.add_zero]

end ClearAll

/-- The answer to a request to take back a run, by the number of its frames. -/
def releaseOutcome (count : Nat) : Except (Failure FrameError) Nat :=
  if count < 65534 then .ok count else .error (.panic .addOverflow)

/-- In whichever order the runs are taken back, each has the same answer, and the table is left
without those that are not too long. -/
def Releases (t : FrameTable) (released : List (PhysicalPage × Nat)) : Prop :=
  ∀ order : List (PhysicalPage × Nat), order.Perm released →
    (serve free (order.map Prod.fst) t).map Ending.outcome =
        order.map (fun r => releaseOutcome r.2) ∧
      stateAfter free (order.map Prod.fst) t =
        t.clearAll ((released.filter (·.2 < 65534)).map .startingAt)

/-- Runs in use are taken back one after the other. -/
theorem Records.serve_free {order : List (PhysicalPage × Nat)}
    (h : t.Records (order.map .startingAt ++ rest)) :
    (serve free (order.map Prod.fst) t).map Ending.outcome =
        order.map (fun r => releaseOutcome r.2) ∧
      stateAfter free (order.map Prod.fst) t =
        t.clearAll ((order.filter (·.2 < 65534)).map .startingAt) := by
  induction order generalizing t rest with
  | nil => exact ⟨rfl, clearAll_nil.symm⟩
  | cons r order ih =>
    have hfree := h.free_eq (r := .startingAt r) List.mem_cons_self rfl
    rw [List.map_cons, serve, stateAfter, List.map_cons, List.map_cons]
    by_cases hshort : r.2 < 65534
    · rw [if_pos (show (Run.startingAt r).count < 65534 from hshort)] at hfree
      obtain ⟨houtcomes, hstate⟩ := ih h.clear
      rw [List.filter_cons_of_pos (by simpa using hshort), List.map_cons, hfree]
      refine ⟨congr (congrArg List.cons (if_pos hshort).symm) houtcomes, hstate.trans ?_⟩
      rw [h.clear_eq List.mem_cons_self, clearAll_clearAll]
      rfl
    · -- the run stays in use, so it belongs to the rest from here on
      rw [if_neg (show ¬ (Run.startingAt r).count < 65534 from hshort)] at hfree
      obtain ⟨houtcomes, hstate⟩ := ih (h.perm List.perm_middle.symm)
      rw [List.filter_cons_of_neg (by simpa using hshort), hfree]
      exact ⟨congr (congrArg List.cons (if_neg hshort).symm) houtcomes, hstate⟩

theorem Records.releases (h : t.Records runs) {released : List (PhysicalPage × Nat)}
    (hnodup : released.Nodup) (hlive : ∀ r ∈ released, Run.startingAt r ∈ runs) :
    t.Releases released := by
  intro order horder
  have hsub : order.map Run.startingAt ⊆ runs := by
    intro r hr
    obtain ⟨pair, hpair, rfl⟩ := List.mem_map.mp hr
    exact hlive pair (horder.mem_iff.mp hpair)
  have hdistinct : (order.map Run.startingAt).Nodup :=
    (horder.nodup_iff.mpr hnodup).map Run.startingAt_injective
  obtain ⟨found, hfound, hfoundin⟩ := hdistinct.subperm hsub
  obtain ⟨rest, hrest⟩ := hfoundin.exists_perm_append
  obtain ⟨houtcomes, hstate⟩ := (h.perm (hrest.trans (hfound.append_right rest))).serve_free
  refine ⟨houtcomes, hstate.trans (clearAll_perm ?_)⟩
  exact (horder.filter _).map _

end FrameTable

namespace Lending

variable {total : Nat} {first : PhysicalPage} {l : Lending}

/-- Whatever was asked of a table since it was new, it takes back any of the runs that it has handed
out and not taken back since, in any order, unless they are too long. -/
theorem Reachable.releases (h : Reachable total first l) {released : List (PhysicalPage × Nat)}
    (hnodup : released.Nodup) (hlive : ∀ r ∈ released, Run.startingAt r ∈ l.lent) :
    l.table.Releases released := by
  obtain ⟨lost, hrecords, -⟩ := h.sound
  exact hrecords.releases hnodup fun r hr => List.mem_append_left lost (hlive r hr)

/-- A table that has handed out all but two of its frames as one run. -/
def spacious : Lending :=
  (⟨.new 65536 (.ofNumber 1), []⟩ : Lending).after (.alloc 65534)

/-- A run of 65534 frames is handed out, but it is not taken back. -/
theorem spacious_not_released :
    Reachable 65536 (.ofNumber 1) spacious ∧ Run.startingAt (.ofNumber 1, 65534) ∈ spacious.lent ∧
      (serve FrameTable.free [.ofNumber 1] spacious.table).map Ending.outcome =
        [.error (.panic .addOverflow)] := by
  have hreach : Reachable 65536 (.ofNumber 1) spacious := .step _ .new
  have hlent : Run.startingAt (.ofNumber 1, 65534) ∈ spacious.lent := by
    rw [spacious, after_alloc_new _ (by decide) (by decide) (by decide)]
    exact List.mem_cons_self
  have hreleases := hreach.releases (List.nodup_singleton _) (List.forall_mem_singleton.mpr hlent)
  exact ⟨hreach, hlent, (hreleases _ (.refl _)).1⟩

end Lending

end MipsVM
