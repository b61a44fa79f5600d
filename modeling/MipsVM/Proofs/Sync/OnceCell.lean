import Mathlib.Data.List.Perm.Basic
import MipsVM.Sync.OnceCell

/-!
# What a cell goes through

Requests to a cell are made one after the other, and an initializer makes requests of its own to the
same cell before it ends. `CellLedger.visitsAll` lists all of them, the outer and the nested ones,
each with the account that it found. What requests leave can then be read off their visits: which
number was stored, which numbers were handed back, and how many initializers ran.

## Main definitions

- `CellVisit`: a request with the account that it found
- `CellLedger.visitsAll`: all visits of a list of requests, those inside an initializer too
- `CellLedger.Stretch`: what a stretch of visits makes of an account
- `CellLedger.WrittenOnce`: what is promised of a new cell, from its making until it is dropped

## Main statements

- `Stretch.append`: two stretches after each other are one
- `perform_stretch`, `performAll_stretch`: requests are a stretch of their visits
- `writtenOnce`: all requests to a new cell keep what is promised

## Design notes

The fields of `Stretch` compare the account before with the account after and speak of no single
kind of request, so that they can be chained. An initializer that panicked leaves nothing but the
phase of its cell behind, and the phase of a cell that is not empty is never left.
-/

namespace MipsVM

namespace CellReply

/-- The numbers that the caller is shown as the content of the cell. -/
def shown : CellReply → List Int
  | .value n => n.toList
  | .initialized (.ok n) _ => [n]
  | .raced _ seen => seen
  | _ => []

/-- The number that the caller gets back. -/
def handedBack? : CellReply → Option Int
  | .rejected n => some n
  | _ => none

/-- The answers given inside the initializer. -/
def inner : CellReply → List CellReply
  | .initialized _ replies => replies
  | _ => []

/-- Whether the initializer of this request panicked. -/
def panicked : CellReply → Bool
  | .initialized (.error _) _ => true
  | _ => false

/-- How often an initializer ran for this answer, given the phase of the cell that the request
found. -/
def calls (found : OnceCell Int) : CellReply → Nat
  | .raced n _ => n
  | .initialized _ _ => if found.isReady then 0 else 1
  | _ => 0

end CellReply

/-- A request with the account that it found. -/
structure CellVisit where
  request : CellRequest
  before : CellLedger

namespace CellVisit

/-- What the request is answered. -/
def reply (v : CellVisit) : CellReply :=
  (CellLedger.perform v.request v.before).1

/-- What the request leaves. -/
def after (v : CellVisit) : CellLedger :=
  (CellLedger.perform v.request v.before).2

/-- The number that the request brings into the cell. -/
def stored? (v : CellVisit) : Option Int :=
  if v.after.cell = v.before.cell then none else v.after.cell.get?

/-- How often the request itself runs an initializer. -/
def initializers (v : CellVisit) : Nat :=
  v.reply.calls v.before.cell

/-- How many initializers visits run. -/
def initializersOf : List CellVisit → Nat
  | [] => 0
  | v :: rest => v.initializers + initializersOf rest

@[simp]
theorem initializersOf_nil : initializersOf [] = 0 := rfl

@[simp]
theorem initializersOf_cons (v : CellVisit) (rest : List CellVisit) :
    initializersOf (v :: rest) = v.initializers + initializersOf rest := rfl

theorem initializersOf_append (visits later : List CellVisit) :
    initializersOf (visits ++ later) = initializersOf visits + initializersOf later := by
  induction visits with
  | nil => simp
  | cons v rest ih =>
    rw [List.cons_append, initializersOf_cons, initializersOf_cons, ih, Nat.add_assoc]

end CellVisit

namespace CellLedger

/-- The account while an initializer runs. -/
def begin (l : CellLedger) : CellLedger :=
  { l with cell := .initializing }

@[simp]
theorem begin_made (l : CellLedger) : l.begin.made = l.made := rfl

@[simp]
theorem begin_dropped (l : CellLedger) : l.begin.dropped = l.dropped := rfl

mutual

/-- The visits that the initializer of a request makes. -/
def nested : CellRequest → CellLedger → List CellVisit
  | .getOrInit _ inner _, l => if l.cell = .empty then visitsAll inner l.begin else []
  | .get, _ => []
  | .set _, _ => []
  | .describe, _ => []
  | .race _ _, _ => []

/-- All visits of requests made one after the other. -/
def visitsAll : List CellRequest → CellLedger → List CellVisit
  | [], _ => []
  | request :: rest, l =>
    ⟨request, l⟩ :: (nested request l ++ visitsAll rest (perform request l).2)

end

/-- One if the cell is not empty any more, and zero before. -/
def begun (l : CellLedger) : Nat :=
  if l.cell = .empty then 0 else 1

theorem begun_le_one (l : CellLedger) : l.begun ≤ 1 := by
  rw [begun]
  split <;> decide

/-- What a stretch of visits makes of an account. -/
structure Stretch (l : CellLedger) (visits : List CellVisit) (last : CellLedger) : Prop where
  /-- A cell that is not empty stays in its phase. -/
  kept : l.cell ≠ .empty → last.cell = l.cell
  /-- The content in the end is the content before, or else the one number that was stored. -/
  stored : l.cell.get?.toList ++ visits.filterMap CellVisit.stored? = last.cell.get?.toList
  /-- An initializer runs only if the cell was empty, and the cell is not empty afterwards. -/
  initializers : l.begun + CellVisit.initializersOf visits ≤ last.begun
  /-- Every number that was made was stored or handed back. -/
  made : last.made.Perm (visits.filterMap CellVisit.stored?
    ++ (visits.filterMap (·.reply.handedBack?) ++ l.made))
  /-- The numbers that were handed back were dropped, and no others. -/
  dropped : last.dropped.Perm (visits.filterMap (·.reply.handedBack?) ++ l.dropped)
  /-- Whoever is shown a number is shown the content in the end. -/
  shown : ∀ v ∈ visits, ∀ n ∈ v.reply.shown, last.cell = .ready n
  /-- A panic leaves the cell in its initializing phase. -/
  panicked : ∀ v ∈ visits, v.reply.panicked → l.cell = .empty ∧ last.cell = .initializing
  /-- A cell that was ready once is ready in the end. -/
  ready : ∀ v ∈ visits, v.before.cell.isReady ∨ v.after.cell.isReady → last.cell.isReady
  /-- Every answer given inside an initializer is the answer of a visit. -/
  nested : ∀ v ∈ visits, ∀ reply ∈ v.reply.inner, ∃ w ∈ visits, w.reply = reply

namespace Stretch

variable {l mid last : CellLedger} {visits later : List CellVisit}

/-- No visits change nothing. -/
theorem nil (l : CellLedger) : Stretch l [] l where
  kept _ := rfl
  stored := by simp
  initializers := by simp
  made := by simp
  dropped := by simp
  shown := by simp
  panicked := by simp
  ready := by simp
  nested := by simp

/-- Two stretches after each other are one. -/
theorem append (h : Stretch l visits mid) (h' : Stretch mid later last) :
    Stretch l (visits ++ later) last where
  kept hl := by
    -- the phase in the middle is not empty either, so that the later visits keep it as well
    have hmid : mid.cell = l.cell := h.kept hl
    rw [h'.kept (by rwa [hmid]), hmid]
  stored := by
    rw [List.filterMap_append, ← List.append_assoc, h.stored, h'.stored]
  initializers := by
    have hfirst := h.initializers
    have hlater := h'.initializers
    rw [CellVisit.initializersOf_append]
    omega
  made := by
    rw [List.perm_iff_count]
    intro n
    have hfirst := h.made.count_eq n
    have hlater := h'.made.count_eq n
    simp only [List.filterMap_append, List.count_append] at *
    omega
  dropped := by
    rw [List.perm_iff_count]
    intro n
    have hfirst := h.dropped.count_eq n
    have hlater := h'.dropped.count_eq n
    simp only [List.filterMap_append, List.count_append] at *
    omega
  shown v hv n hn := by
    rcases List.mem_append.1 hv with hv | hv
    · have hmid := h.shown v hv n hn
      rw [h'.kept (by simp [hmid]), hmid]
    · exact h'.shown v hv n hn
  panicked v hv hp := by
    rcases List.mem_append.1 hv with hv | hv
    · obtain ⟨hl, hmid⟩ := h.panicked v hv hp
      exact ⟨hl, by rw [h'.kept (by simp [hmid]), hmid]⟩
    · obtain ⟨hmid, hlast⟩ := h'.panicked v hv hp
      refine ⟨?_, hlast⟩
      -- had the cell not been empty in the beginning, it could not be empty in the middle
      by_contra hl
      exact hl (h.kept hl ▸ hmid)
  ready v hv hr := by
    rcases List.mem_append.1 hv with hv | hv
    · have hmid := h.ready v hv hr
      rw [h'.kept (OnceCell.ne_empty_of_isReady hmid)]
      exact hmid
    · exact h'.ready v hv hr
  nested v hv reply hreply := by
    rcases List.mem_append.1 hv with hv | hv
    · obtain ⟨w, hw, hwr⟩ := h.nested v hv reply hreply
      exact ⟨w, List.mem_append_left _ hw, hwr⟩
    · obtain ⟨w, hw, hwr⟩ := h'.nested v hv reply hreply
      exact ⟨w, List.mem_append_right _ hw, hwr⟩

section Single

variable {request : CellRequest} {reply : CellReply}

/-- A visit that only reads. -/
theorem read (hv : perform request l = (reply, l))
    (hshown : ∀ n ∈ reply.shown, l.cell = .ready n) (hback : reply.handedBack? = none)
    (hinner : reply.inner = []) (hpanicked : reply.panicked = false)
    (hcalls : reply.calls l.cell = 0) :
    Stretch l [⟨request, l⟩] l := by
  have hreply : CellVisit.reply ⟨request, l⟩ = reply := congrArg Prod.fst hv
  have hafter : CellVisit.after ⟨request, l⟩ = l := congrArg Prod.snd hv
  constructor
  case kept => exact fun _ => rfl
  case stored => simp [CellVisit.stored?, hafter]
  case initializers => simp [CellVisit.initializers, hreply, hcalls]
  case made => simp [CellVisit.stored?, hafter, hreply, hback]
  case dropped => simp [hreply, hback]
  case shown => simpa [hreply] using hshown
  case panicked => simp [hreply, hpanicked]
  case ready => simp [hafter]
  case nested => simp [hreply, hinner]

/-- A visit that is handed its number back. -/
theorem rejected {n : Int} (hv : perform request l = (.rejected n,
    { l with made := n :: l.made, dropped := n :: l.dropped })) :
    Stretch l [⟨request, l⟩] { l with made := n :: l.made, dropped := n :: l.dropped } := by
  have hreply : CellVisit.reply ⟨request, l⟩ = .rejected n := congrArg Prod.fst hv
  have hafter : CellVisit.after ⟨request, l⟩ =
      { l with made := n :: l.made, dropped := n :: l.dropped } := congrArg Prod.snd hv
  constructor
  case kept => exact fun _ => rfl
  case stored => simp [CellVisit.stored?, hafter]
  case initializers => simp [CellVisit.initializers, hreply, CellReply.calls, begun]
  case made => simp [CellVisit.stored?, hafter, hreply, CellReply.handedBack?]
  case dropped => simp [hreply, CellReply.handedBack?]
  case shown => simp [hreply, CellReply.shown]
  case panicked => simp [hreply, CellReply.panicked]
  case ready => simp [hafter]
  case nested => simp [hreply, CellReply.inner]

end Single

section Initializer

variable (h : Stretch l visits last) (hl : l.cell = .initializing)
include h hl

/-- Visits inside an initializer leave the cell in its initializing phase. -/
theorem inside_cell : last.cell = .initializing := by
  rw [h.kept (by simp [hl]), hl]

/-- Visits inside an initializer store nothing. -/
theorem inside_stored : visits.filterMap CellVisit.stored? = [] := by
  simpa [hl, h.inside_cell hl] using h.stored

/-- Visits inside an initializer run no other. -/
theorem inside_initializers : CellVisit.initializersOf visits = 0 := by
  -- `begun` is one before and one after, which leaves nothing for the visits
  have hsum := h.initializers
  have hbegun : l.begun = last.begun := by rw [begun, begun, h.inside_cell hl, hl]
  omega

/-- Visits inside an initializer see no content, and no panic but the one of the initializer
itself. -/
theorem inside_quiet {v : CellVisit} (hv : v ∈ visits) :
    (∀ n, n ∉ v.reply.shown) ∧ ¬ v.reply.panicked ∧
      ¬ (v.before.cell.isReady ∨ v.after.cell.isReady) := by
  have hlast := h.inside_cell hl
  refine ⟨fun n hn => ?_, fun hp => ?_, fun hr => ?_⟩
  · have hready := h.shown v hv n hn
    rw [hlast] at hready
    cases hready
  · have hempty := (h.panicked v hv hp).1
    rw [hl] at hempty
    cases hempty
  · have hready := h.ready v hv hr
    rw [hlast] at hready
    cases hready

end Initializer

section Around

variable {request : CellRequest} {reply : CellReply} {left : CellLedger}
  (hempty : l.cell = .empty) (h : Stretch l.begin visits left)
  (hback : reply.handedBack? = none)
  (hinner : ∀ r ∈ reply.inner, ∃ w ∈ visits, w.reply = r) (hcalls : reply.calls l.cell ≤ 1)

omit hempty in
include h hinner in
/-- The answers inside an initializer are covered by the visits that it makes. -/
theorem around_nested (hreply : CellVisit.reply ⟨request, l⟩ = reply) :
    ∀ w ∈ ⟨request, l⟩ :: visits, ∀ r ∈ w.reply.inner,
      ∃ u ∈ ⟨request, l⟩ :: visits, u.reply = r := by
  intro w hw r hr
  have hu : ∃ u ∈ visits, u.reply = r := by
    rcases List.mem_cons.1 hw with rfl | hw
    · exact hinner r (hreply ▸ hr)
    · exact h.nested w hw r hr
  obtain ⟨u, hu, hur⟩ := hu
  exact ⟨u, List.mem_cons_of_mem _ hu, hur⟩

include hempty h hback hinner hcalls

/-- A visit whose initializer panics, with the visits that the initializer makes. -/
theorem around_panic (hv : perform request l = (reply, left)) (hshown : reply.shown = []) :
    Stretch l (⟨request, l⟩ :: visits) left := by
  have hreply : CellVisit.reply ⟨request, l⟩ = reply := congrArg Prod.fst hv
  have hafter : CellVisit.after ⟨request, l⟩ = left := congrArg Prod.snd hv
  have hleft : left.cell = .initializing := h.inside_cell rfl
  have hnone : CellVisit.stored? ⟨request, l⟩ = none := by
    simp [CellVisit.stored?, hafter, hleft]
  constructor
  case kept => exact fun hne => absurd hempty hne
  case stored => simp [hempty, hnone, h.inside_stored rfl, hleft]
  case initializers =>
    simpa [begun, hempty, hleft, h.inside_initializers rfl, CellVisit.initializers, hreply]
      using hcalls
  case made => simpa [hnone, hback, hreply] using h.made
  case dropped => simpa [hback, hreply] using h.dropped
  case shown =>
    intro w hw n hn
    rcases List.mem_cons.1 hw with rfl | hw
    · simp [hreply, hshown] at hn
    · exact absurd hn ((h.inside_quiet rfl hw).1 n)
  case panicked => exact fun _ _ _ => ⟨hempty, hleft⟩
  case ready =>
    intro w hw hr
    rcases List.mem_cons.1 hw with rfl | hw
    · simp [hempty, hafter, hleft] at hr
    · exact absurd hr (h.inside_quiet rfl hw).2.2
  case nested => exact h.around_nested hinner hreply

/-- A visit whose initializer ends, with the visits that the initializer makes. -/
theorem around_finish {n : Int} (hv : perform request l = (reply, left.finish n))
    (hshown : ∀ m ∈ reply.shown, m = n) (hpanicked : reply.panicked = false) :
    Stretch l (⟨request, l⟩ :: visits) (left.finish n) := by
  have hreply : CellVisit.reply ⟨request, l⟩ = reply := congrArg Prod.fst hv
  have hafter : CellVisit.after ⟨request, l⟩ = left.finish n := congrArg Prod.snd hv
  have hlast : (left.finish n).cell = .ready n := rfl
  have hsome : CellVisit.stored? ⟨request, l⟩ = some n := by
    simp [CellVisit.stored?, hafter, hlast, hempty]
  constructor
  case kept => exact fun hne => absurd hempty hne
  case stored => simp [hempty, hsome, h.inside_stored rfl, hlast]
  case initializers =>
    simpa [begun, hempty, hlast, h.inside_initializers rfl, CellVisit.initializers, hreply]
      using hcalls
  case made =>
    simpa [hsome, hback, hreply, finish, h.inside_stored rfl] using h.made
  case dropped => simpa [hback, hreply, finish] using h.dropped
  case shown =>
    intro w hw m hm
    rcases List.mem_cons.1 hw with rfl | hw
    · rw [hreply] at hm
      rw [hlast, hshown m hm]
    · exact absurd hm ((h.inside_quiet rfl hw).1 m)
  case panicked =>
    intro w hw hp
    rcases List.mem_cons.1 hw with rfl | hw
    · simp [hreply, hpanicked] at hp
    · exact absurd hp (h.inside_quiet rfl hw).2.1
  case ready => exact fun _ _ _ => by simp [hlast]
  case nested => exact h.around_nested hinner hreply

end Around

/-- A visit that stores its number at once. -/
theorem write {request : CellRequest} {reply : CellReply} {n : Int} (hempty : l.cell = .empty)
    (hv : perform request l = (reply, l.finish n)) (hback : reply.handedBack? = none)
    (hinner : reply.inner = []) (hcalls : reply.calls l.cell ≤ 1)
    (hshown : ∀ m ∈ reply.shown, m = n) (hpanicked : reply.panicked = false) :
    Stretch l [⟨request, l⟩] (l.finish n) :=
  (Stretch.nil l.begin).around_finish hempty hback (by simp [hinner]) hcalls hv hshown hpanicked

end Stretch

/-! ### Requests are stretches of their visits -/

theorem performAll_cons (request : CellRequest) (rest : List CellRequest) (l : CellLedger) :
    performAll (request :: rest) l =
      ((perform request l).1 :: (performAll rest (perform request l).2).1,
        (performAll rest (perform request l).2).2) := by
  rw [performAll]

theorem perform_set_of_ne_empty {l : CellLedger} (hl : l.cell ≠ .empty) (value : Int) :
    perform (.set value) l =
      (.rejected value, { l with made := value :: l.made, dropped := value :: l.dropped }) := by
  rw [perform, store, OnceCell.set_of_ne_empty hl]

theorem perform_getOrInit_initializing {l : CellLedger} (hl : l.cell = .initializing) (value : Int)
    (inner : List CellRequest) (panics : Bool) :
    perform (.getOrInit value inner panics) l = (.deadlock, l) := by
  rw [perform, hl]

theorem perform_getOrInit_empty {l : CellLedger} (hl : l.cell = .empty) (value : Int)
    (inner : List CellRequest) (panics : Bool) :
    perform (.getOrInit value inner panics) l =
      if panics then
        (.initialized (.error (.caller "boom")) (performAll inner l.begin).1,
          (performAll inner l.begin).2)
      else
        (.initialized (.ok value) (performAll inner l.begin).1,
          (performAll inner l.begin).2.finish value) := by
  rw [perform, hl]
  rfl

/-- Every answer to requests made one after the other is the answer of a visit. -/
theorem performAll_answered (requests : List CellRequest) (l : CellLedger) :
    ∀ reply ∈ (performAll requests l).1, ∃ v ∈ visitsAll requests l, v.reply = reply := by
  induction requests generalizing l with
  | nil => simp [performAll]
  | cons request rest ih =>
    intro reply hreply
    rw [performAll_cons] at hreply
    rw [visitsAll]
    rcases List.mem_cons.1 hreply with rfl | hreply
    · exact ⟨⟨request, l⟩, List.mem_cons_self, rfl⟩
    · obtain ⟨v, hv, hvr⟩ := ih _ reply hreply
      exact ⟨v, List.mem_cons_of_mem _ (List.mem_append_right _ hv), hvr⟩

/-- A read is a stretch. -/
theorem get_stretch (l : CellLedger) : Stretch l [⟨.get, l⟩] (perform .get l).2 := by
  have hv : perform .get l = (.value l.cell.get?, l) := by rw [perform]
  rw [hv]
  refine .read hv ?_ rfl rfl rfl rfl
  intro n hn
  cases hcell : l.cell <;> simp_all [CellReply.shown]

/-- A set is a stretch, whether it stores the number or hands it back. -/
theorem set_stretch (value : Int) (l : CellLedger) :
    Stretch l [⟨.set value, l⟩] (perform (.set value) l).2 := by
  by_cases hl : l.cell = .empty
  · have hv : perform (.set value) l = (.stored, l.finish value) := by
      simp [perform, store, finish, hl, OnceCell.set]
    rw [hv]
    exact .write hl hv rfl rfl (by simp [CellReply.calls]) (by simp [CellReply.shown]) rfl
  · rw [perform_set_of_ne_empty hl]
    exact .rejected (perform_set_of_ne_empty hl value)

/-- The cell in words is a stretch. -/
theorem describe_stretch (l : CellLedger) :
    Stretch l [⟨.describe, l⟩] (perform .describe l).2 := by
  have hv : perform .describe l = (.text (l.cell.describe toString), l) := by rw [perform]
  rw [hv]
  exact .read hv (by simp [CellReply.shown]) rfl rfl rfl rfl

/-- Threads that race are a stretch: at most one of them runs its initializer. -/
theorem race_stretch (threads : Nat) (value : Int) (l : CellLedger) :
    Stretch l [⟨.race threads value, l⟩] (perform (.race threads value) l).2 := by
  cases hcell : l.cell with
  | ready found =>
    have hv : perform (.race threads value) l = (.raced 0 (List.replicate threads found), l) := by
      rw [perform, hcell]
    rw [hv]
    refine .read hv ?_ rfl rfl rfl rfl
    intro n hn
    rw [hcell, List.eq_of_mem_replicate hn]
  | initializing =>
    have hv : perform (.race threads value) l = (.deadlock, l) := by
      rw [perform, hcell]
    rw [hv]
    exact .read hv (by simp [CellReply.shown]) rfl rfl rfl rfl
  | empty =>
    by_cases hthreads : threads = 0
    · have hv : perform (.race threads value) l = (.raced 0 [], l) := by
        rw [perform, hcell, if_pos hthreads]
      rw [hv]
      exact .read hv (by simp [CellReply.shown]) rfl rfl rfl rfl
    · have hv : perform (.race threads value) l =
          (.raced 1 (List.replicate threads value), l.finish value) := by
        rw [perform, hcell, if_neg hthreads]
      rw [hv]
      exact .write hcell hv rfl rfl (Nat.le_refl 1) (fun m hm => List.eq_of_mem_replicate hm) rfl

/-- A read after an initialization is a stretch, if the requests of the initializer are one. -/
theorem getOrInit_stretch (value : Int) (inner : List CellRequest) (panics : Bool) (l : CellLedger)
    (h : Stretch l.begin (visitsAll inner l.begin) (performAll inner l.begin).2) :
    Stretch l (⟨.getOrInit value inner panics, l⟩ :: nested (.getOrInit value inner panics) l)
      (perform (.getOrInit value inner panics) l).2 := by
  cases hcell : l.cell with
  | ready found =>
    have hv : perform (.getOrInit value inner panics) l = (.initialized (.ok found) [], l) := by
      rw [perform, hcell]
    rw [nested, if_neg (by simp [hcell]), hv]
    refine .read hv ?_ rfl rfl rfl ?_
    · simp [CellReply.shown, hcell]
    · simp [CellReply.calls, hcell]
  | initializing =>
    have hv := perform_getOrInit_initializing hcell value inner panics
    rw [nested, if_neg (by simp [hcell]), hv]
    exact .read hv (by simp [CellReply.shown]) rfl rfl rfl rfl
  | empty =>
    have hcalls : ∀ n replies, (CellReply.initialized n replies).calls l.cell ≤ 1 := by
      simp [CellReply.calls, hcell]
    have hv := perform_getOrInit_empty hcell value inner panics
    rw [nested, if_pos hcell]
    cases panics with
    | false =>
      rw [hv]
      refine Stretch.around_finish hcell h ?_ ?_ (hcalls _ _) hv ?_ ?_
      · rfl
      · exact performAll_answered inner l.begin
      · simp [CellReply.shown]
      · rfl
    | true =>
      rw [hv]
      refine Stretch.around_panic hcell h ?_ ?_ (hcalls _ _) hv ?_
      · rfl
      · exact performAll_answered inner l.begin
      · rfl

-- The induction is on the tree of requests: a request owns the list that its initializer makes, and
-- a list is split into its first request and the rest.
mutual

/-- A request is a stretch of its own visit and of those that its initializer makes. -/
theorem perform_stretch (request : CellRequest) (l : CellLedger) :
    Stretch l (⟨request, l⟩ :: nested request l) (perform request l).2 := by
  cases request with
  | get => exact get_stretch l
  | set value => exact set_stretch value l
  | describe => exact describe_stretch l
  | race threads value => exact race_stretch threads value l
  | getOrInit value inner panics =>
    exact getOrInit_stretch value inner panics l (performAll_stretch inner l.begin)

/-- Requests made one after the other are a stretch of their visits. -/
theorem performAll_stretch (requests : List CellRequest) (l : CellLedger) :
    Stretch l (visitsAll requests l) (performAll requests l).2 := by
  cases requests with
  | nil =>
    rw [visitsAll, performAll]
    exact .nil l
  | cons request rest =>
    rw [visitsAll, performAll_cons]
    exact (perform_stretch request l).append (performAll_stretch rest (perform request l).2)

end

/-- An initializer that panics leaves the cell in its initializing phase. -/
theorem perform_panics {l : CellLedger} (hl : l.cell = .empty) (value : Int)
    (inner : List CellRequest) :
    (perform (.getOrInit value inner true) l).1.panicked ∧
      (perform (.getOrInit value inner true) l).2.cell = .initializing := by
  rw [perform_getOrInit_empty hl]
  exact ⟨rfl, (performAll_stretch inner l.begin).inside_cell rfl⟩

/-! ### The cell is dropped in the end -/

@[simp]
theorem close_made (l : CellLedger) : l.close.made = l.made := by
  cases hcell : l.cell <;> simp [close, hcell]

/-- Dropping the cell drops its content and nothing else. -/
theorem close_dropped (l : CellLedger) : l.close.dropped = l.cell.get?.toList ++ l.dropped := by
  cases hcell : l.cell <;> simp [close, hcell]

theorem run_cons (request : CellRequest) (rest : List CellRequest) (l : CellLedger) :
    run (request :: rest) l = (perform request l :: (run rest (perform request l).2).1,
      (run rest (perform request l).2).2) := by
  rw [run]

/-- The account in the end is that of the requests, after the cell was dropped. -/
theorem run_last (requests : List CellRequest) (l : CellLedger) :
    (run requests l).2 = (performAll requests l).2.close := by
  induction requests generalizing l with
  | nil => rw [run, performAll]
  | cons request rest ih => rw [run_cons, performAll_cons, ih]

/-- The steps of a run are visits, in their order. -/
theorem run_steps_sublist (requests : List CellRequest) (l : CellLedger) :
    (run requests l).1.Sublist ((visitsAll requests l).map fun v => (v.reply, v.after)) := by
  induction requests generalizing l with
  | nil => exact List.nil_sublist _
  | cons request rest ih =>
    rw [run_cons, visitsAll, List.map_cons, List.map_append]
    exact ((ih _).trans (List.sublist_append_right _ _)).cons_cons _

/-- What is promised of a new cell, whatever requests are made to it and to any depth inside its
initializers, until it is dropped. -/
structure WrittenOnce (requests : List CellRequest) : Prop where
  /-- The visits cover the steps of the run and all answers given inside initializers. -/
  steps : (run requests new).1.Sublist ((visitsAll requests new).map fun v => (v.reply, v.after))
  inner : ∀ v ∈ visitsAll requests new, ∀ reply ∈ v.reply.inner,
    ∃ w ∈ visitsAll requests new, w.reply = reply
  /-- At most one number is ever stored. -/
  stored : ((visitsAll requests new).filterMap CellVisit.stored?).length ≤ 1
  /-- A number that is read from the cell is the one that was stored. -/
  shown : ∀ v ∈ visitsAll requests new, ∀ n ∈ v.reply.shown,
    (visitsAll requests new).filterMap CellVisit.stored? = [n]
  /-- A cell that is not empty hands the number of a set back and stays as it is. -/
  refused : ∀ v ∈ visitsAll requests new, ∀ n, v.request = .set n → v.before.cell ≠ .empty →
    v.reply = .rejected n ∧ v.after.cell = v.before.cell
  /-- A cell whose initializer panicked stays in its initializing phase and is never ready. -/
  panicked : ∀ v ∈ visitsAll requests new, ∀ value inner,
    v.request = .getOrInit value inner true → v.before.cell = .empty →
    v.reply.panicked ∧ v.after.cell = .initializing ∧
      (performAll requests new).2.cell = .initializing ∧
      ∀ w ∈ visitsAll requests new, w.before.cell.isReady = false ∧ w.after.cell.isReady = false
  /-- At most one initializer ever runs. -/
  initializers : CellVisit.initializersOf (visitsAll requests new) ≤ 1
  /-- A request that would wait for ever is reported, and changes nothing. -/
  waits : ∀ v ∈ visitsAll requests new, ∀ value inner panics,
    v.request = .getOrInit value inner panics → v.before.cell = .initializing →
    v.reply = .deadlock ∧ v.after = v.before
  /-- As long as the cell is there, only the numbers that were handed back are dropped. -/
  held : (performAll requests new).2.dropped.Perm
    ((visitsAll requests new).filterMap (·.reply.handedBack?))
  /-- The numbers that were made are those stored and those handed back. -/
  made : (run requests new).2.made.Perm ((visitsAll requests new).filterMap CellVisit.stored?
    ++ (visitsAll requests new).filterMap (·.reply.handedBack?))
  /-- When the cell is dropped, every number that was made has been dropped exactly once. -/
  dropped : (run requests new).2.dropped.Perm (run requests new).2.made

/-- A new cell is written at most once, and every number made for it is dropped exactly once. -/
theorem writtenOnce (requests : List CellRequest) : WrittenOnce requests := by
  have h := performAll_stretch requests new
  have hstored : (visitsAll requests new).filterMap CellVisit.stored? =
      (performAll requests new).2.cell.get?.toList := by
    simpa [new] using h.stored
  have hmade : (run requests new).2.made = (performAll requests new).2.made := by
    rw [run_last, close_made]
  constructor
  case steps => exact run_steps_sublist requests new
  case inner => exact h.nested
  case stored =>
    rw [hstored]
    exact Option.length_toList_le
  case shown =>
    intro v hv n hn
    rw [hstored, h.shown v hv n hn]
    rfl
  case refused =>
    rintro ⟨request, l⟩ - n rfl hl
    have hv := perform_set_of_ne_empty hl n
    exact ⟨congrArg Prod.fst hv, congrArg (·.2.cell) hv⟩
  case panicked =>
    rintro ⟨request, l⟩ hv value inner rfl hl
    obtain ⟨hp, hafter⟩ := perform_panics hl value inner
    have hlast := (h.panicked _ hv hp).2
    refine ⟨hp, hafter, hlast, fun w hw => ?_⟩
    have hunready := mt (h.ready w hw) (by simp [hlast])
    simpa using hunready
  case initializers =>
    have hsum := h.initializers
    have hle := begun_le_one (performAll requests new).2
    omega
  case waits =>
    rintro ⟨request, l⟩ - value inner panics rfl hl
    have hv := perform_getOrInit_initializing hl value inner panics
    exact ⟨congrArg Prod.fst hv, congrArg Prod.snd hv⟩
  case held => simpa [new] using h.dropped
  case made =>
    rw [hmade]
    simpa [new] using h.made
  case dropped =>
    -- the content that the cell drops is the number that was stored
    rw [run_last, close_dropped, close_made, ← hstored]
    exact (h.dropped.append_left _).trans h.made.symm

-- An initializer that panics after a set of its own leaves a cell that no later set can fill.
example : (run [.getOrInit 1 [.set 2, .get] true, .set 3, .get] new).2.dropped = [3, 2] := by
  decide

end CellLedger

end MipsVM
