import Mathlib.Data.List.Pairwise
import MipsVM.Machine.Request
import MipsVM.Proofs.Frame.Placement
import MipsVM.Proofs.Frame.Run

/-!
# How early memory is carved up

Runs of pages are cut off the bottom of a range, one above the other, until what is left is handed
over. The end of a run is found in 32-bit arithmetic: by a rounding, a narrowing, a product and a
sum, each of which can leave the range of words. Together they refuse a number of pages exactly if
it does not fit.

## Main definitions

- `Carving`: early memory with all that it gave away, and `Carving.after` for one request
- `Carving.Exact`: what is given away, and what is refused

## Main statements

- `EarlyMemory.fit?_eq_some_iff`: where a number of pages fits, over numbers without a bound
- `Kept.after`: what one request preserves
- `Carving.exact_after`: early memory is carved up exactly, whatever it is asked for
-/

namespace MipsVM

namespace EarlyMemory

variable {m : EarlyMemory} {boundary pages : Nat}

/-- Pages fit from the next page boundary on, or nowhere. -/
theorem fit?_eq_some_iff {page : PhysicalPage} {stop : PhysicalAddress}
    (hleast : IsLeast {b | 4096 ∣ b ∧ m.next.toNat ≤ b} boundary) :
    m.fit? pages = some (page, stop) ↔
      page.base.toNat = boundary ∧ stop.toNat = boundary + 4096 * pages ∧
        stop.toNat ≤ m.last.toNat := by
  obtain rfl := (isLeast_roundedUp (by decide) _).unique hleast
  have hsize : pageSize = 4096 := rfl
  have hlast := m.last.isLt
  simp only [fit?, hsize, roundUp?_page, Option.bind_eq_bind, Option.bind_eq_some_iff,
    word?_eq_some, Option.ite_none_right_eq_some, Option.guard_eq_some', Option.pure_def,
    Option.some.injEq, Prod.mk.injEq, Address.ofNat?, Option.dite_none_right_eq_some]
  constructor
  · rintro ⟨_, ⟨hword, rfl⟩, _, ⟨rfl, -⟩, _, ⟨rfl, -⟩, _, ⟨hlt, rfl⟩, -, hle, rfl, rfl⟩
    refine ⟨?_, by dsimp only; omega, hle⟩
    simp only [Address.ofNat, Address.page, Page.base]
    omega
  · rintro ⟨hpage, hstop, hle⟩
    -- the end is a word, and with it all that was formed on the way
    refine ⟨_, ⟨by omega, rfl⟩, _, ⟨rfl, by omega⟩, _, ⟨rfl, by omega⟩, stop, ⟨by omega, ?_⟩, (),
      hle, Page.ext ?_, rfl⟩
    · exact Address.ext (by dsimp only; omega)
    · simp only [Address.ofNat, Address.page, Page.base] at hpage ⊢
      omega

theorem take_of_handedOver (h : m.handedOver = true) (pages : Nat) :
    take pages m = .error .nothingToManage m [] := by
  rw [take, if_pos h]

theorem take_of_fits (hover : m.handedOver = false) (hpages : 1 ≤ pages)
    (hleast : IsLeast {b | 4096 ∣ b ∧ m.next.toNat ≤ b} boundary)
    (hfits : boundary + 4096 * pages ≤ m.last.toNat) :
    ∃ page stop, take pages m = .done page { m with next := stop } [] ∧
      page.base.toNat = boundary ∧ stop.toNat = boundary + 4096 * pages := by
  have hlast := m.last.isLt
  have hdvd := hleast.1.1
  let page : PhysicalPage := ⟨boundary / 4096, by omega⟩
  let stop : PhysicalAddress := ⟨boundary + 4096 * pages, by omega⟩
  have hbase : page.base.toNat = boundary := Nat.div_mul_cancel hdvd
  have hfit : m.fit? pages = some (page, stop) :=
    (fit?_eq_some_iff hleast).mpr ⟨hbase, rfl, hfits⟩
  refine ⟨page, stop, ?_, hbase, rfl⟩
  rw [take, hover, if_neg Bool.false_ne_true, if_neg (by omega), hfit]

theorem take_of_not_fits (hover : m.handedOver = false) (hpages : 1 ≤ pages)
    (hleast : IsLeast {b | 4096 ∣ b ∧ m.next.toNat ≤ b} boundary)
    (hfits : ¬ boundary + 4096 * pages ≤ m.last.toNat) :
    take pages m = .error (.noRun pages) m [] := by
  have hfit : m.fit? pages = none := by
    refine Option.eq_none_iff_forall_ne_some.mpr fun ⟨page, stop⟩ hsome => hfits ?_
    obtain ⟨-, hstop, hle⟩ := (fit?_eq_some_iff hleast).mp hsome
    omega
  rw [take, hover, if_neg Bool.false_ne_true, if_neg (by omega), hfit]

end EarlyMemory

/-- Early memory, with what it gave away. -/
structure Carving where
  memory : EarlyMemory
  /-- The runs that were taken, the oldest first. -/
  taken : List Run
  /-- What was handed over, the oldest first. -/
  handed : List PhysicalRange
  deriving DecidableEq

namespace Carving

variable {range : PhysicalRange} {s : Carving}

/-- Nothing of a range was given away. -/
def ofRange (range : PhysicalRange) : Carving :=
  ⟨.ofRange range, [], []⟩

/-- Serve one request. -/
def after (s : Carving) : EarlyRequest → Carving
  | .take pages =>
    let ending := EarlyMemory.take pages s.memory
    ⟨ending.state, s.taken ++ (ending.value?.map fun page => ⟨page.number, pages⟩).toList, s.handed⟩
  | .handOver =>
    let ending := EarlyMemory.handOver (ε := FrameError) s.memory
    ⟨ending.state, s.taken, s.handed ++ ending.value?.toList⟩

theorem after_take_of_ok {pages : Nat} {page : PhysicalPage}
    (h : (EarlyMemory.take pages s.memory).outcome = .ok page) :
    s.after (.take pages) =
      ⟨(EarlyMemory.take pages s.memory).state, s.taken ++ [⟨page.number, pages⟩], s.handed⟩ := by
  simp only [after, Ending.value?, h, Option.map_some, Option.toList_some]

theorem after_take_of_error {pages : Nat} {e : Failure FrameError}
    (h : (EarlyMemory.take pages s.memory).outcome = .error e) :
    s.after (.take pages) = ⟨(EarlyMemory.take pages s.memory).state, s.taken, s.handed⟩ := by
  simp only [after, Ending.value?, h, Option.map_none, Option.toList_none, List.append_nil]

theorem after_handOver :
    s.after .handOver =
      ⟨{ s.memory with next := s.memory.last, handedOver := true }, s.taken,
        s.handed ++ [s.memory.rest]⟩ := rfl

/-- The runs lie in the range, in order, and what was handed over lies beside them. -/
structure InOrder (range : PhysicalRange) (s : Carving) : Prop where
  inside : ∀ r ∈ s.taken, 0 < r.count ∧ range.first.toNat ≤ 4096 * r.first ∧
    4096 * r.stop ≤ range.last.toNat
  /-- Each run ends before the ones that were taken after it begin. -/
  increasing : s.taken.Pairwise fun r r' => r.stop ≤ r'.first
  /-- Nothing that was handed over belongs to a run. -/
  apart : ∀ rest ∈ s.handed, ∀ r ∈ s.taken, ∀ a, rest.first.toNat ≤ a → a < rest.last.toNat →
    ¬ r.Has (a / 4096)

/-- What is given away of a range, and what is refused. -/
structure Exact (range : PhysicalRange) (s : Carving) : Prop extends s.InOrder range where
  /-- As long as nothing was handed over, pages are taken from the next page boundary on if they end
  within the range, and only then. -/
  takes : s.handed = [] → ∃ boundary, IsLeast {b | 4096 ∣ b ∧ s.memory.next.toNat ≤ b} boundary ∧
    ∀ pages, 1 ≤ pages →
      ((∃ page, (EarlyMemory.take pages s.memory).outcome = .ok page) ↔
        boundary + 4096 * pages ≤ range.last.toNat) ∧
      ∀ page, (EarlyMemory.take pages s.memory).outcome = .ok page → page.base.toNat = boundary
  /-- Pages that are not taken are refused with an error, which changes nothing. -/
  refuses : ∀ pages, (∃ page, (EarlyMemory.take pages s.memory).outcome = .ok page) ∨
    ∃ e, (EarlyMemory.take pages s.memory).outcome = .error (.error e) ∧
      (EarlyMemory.take pages s.memory).state = s.memory
  /-- Once something was handed over, there is nothing left to take or to hand over. -/
  ends : s.handed ≠ [] →
    (∀ pages, EarlyMemory.take pages s.memory = .error .nothingToManage s.memory []) ∧
      (EarlyMemory.handOver (ε := FrameError) s.memory).outcome = .ok ⟨range.last, range.last⟩

/-- What every request preserves: the runs lie in order below what is left. -/
structure Kept (range : PhysicalRange) (s : Carving) : Prop extends s.InOrder range where
  last : s.memory.last = range.last
  handedOver : s.memory.handedOver = !s.handed.isEmpty
  low : s.handed = [] → range.first.toNat ≤ s.memory.next.toNat
  spent : s.handed ≠ [] → s.memory.next = range.last
  below : ∀ r ∈ s.taken, 4096 * r.stop ≤ s.memory.next.toNat

theorem kept_ofRange (range : PhysicalRange) : (ofRange range).Kept range where
  last := rfl
  handedOver := rfl
  low _ := Nat.le_refl _
  spent h := absurd rfl h
  inside _ hr := nomatch hr
  below _ hr := nomatch hr
  increasing := .nil
  apart _ hrest := nomatch hrest

/-- A run that is taken lies above those that were taken before. -/
theorem Kept.take (h : s.Kept range) (pages : Nat) : (s.after (.take pages)).Kept range := by
  by_cases hover : s.memory.handedOver = true
  · have htake := EarlyMemory.take_of_handedOver hover pages
    rw [after_take_of_error (congrArg Ending.outcome htake), htake]
    exact h
  have hnone : s.handed = [] := by
    have := h.handedOver
    rwa [Bool.eq_false_iff.mpr hover, eq_comm, Bool.not_eq_false', List.isEmpty_iff] at this
  rcases (EarlyMemory.take_ends s.memory pages).cases with
    ⟨page, hok, hpages, hlow, hstop, hhigh, hlast, hover'⟩ | ⟨e, herror, hstate⟩ | ⟨_, -, hno⟩
  · rw [after_take_of_ok hok]
    have hfirst := h.low hnone
    rw [h.last] at hhigh
    refine ⟨⟨?_, ?_, ?_⟩, hlast.trans h.last, hover'.trans h.handedOver, fun _ => ?_,
      fun hsome => absurd hnone hsome, ?_⟩
    · refine List.forall_mem_append.mpr ⟨h.inside, List.forall_mem_singleton.mpr ⟨hpages, ?_⟩⟩
      unfold Run.stop
      dsimp only
      omega
    · refine List.pairwise_append.mpr
        ⟨h.increasing, List.pairwise_singleton _ _, fun r hr r' hr' => ?_⟩
      have := h.below r hr
      rw [List.mem_singleton.mp hr']
      dsimp only
      omega
    · simp only [hnone, List.not_mem_nil, false_implies, implies_true]
    · dsimp only
      omega
    · refine List.forall_mem_append.mpr ⟨fun r hr => ?_, List.forall_mem_singleton.mpr ?_⟩
      · have := h.below r hr
        dsimp only
        omega
      · unfold Run.stop
        dsimp only
        omega
  · rw [after_take_of_error herror, hstate]
    exact h
  · exact hno.elim

/-- What is handed over lies above all runs. -/
theorem Kept.handOver (h : s.Kept range) : (s.after .handOver).Kept range := by
  rw [after_handOver]
  refine ⟨⟨h.inside, h.increasing, ?_⟩, h.last, by simp,
    fun hnone => absurd hnone (List.concat_ne_nil _ _), fun _ => h.last, fun r hr => ?_⟩
  · refine List.forall_mem_append.mpr ⟨h.apart, List.forall_mem_singleton.mpr ?_⟩
    rintro r hr a (hlow : s.memory.next.toNat ≤ a) - ⟨-, hhas⟩
    have := h.below r hr
    omega
  · dsimp only
    rw [h.last]
    exact (h.inside r hr).2.2

theorem Kept.after (h : s.Kept range) (request : EarlyRequest) : (s.after request).Kept range := by
  cases request with
  | take pages => exact h.take pages
  | handOver => exact h.handOver

theorem Kept.afterAll (h : s.Kept range) (requests : List EarlyRequest) :
    (requests.foldl Carving.after s).Kept range := by
  induction requests generalizing s with
  | nil => exact h
  | cons request rest ih => exact ih (h.after request)

theorem Kept.exact (h : s.Kept range) : s.Exact range where
  toInOrder := h.toInOrder
  takes hnone := by
    have hover : s.memory.handedOver = false := by rw [h.handedOver, hnone]; rfl
    obtain ⟨boundary, hleast⟩ : ∃ b, IsLeast {b | 4096 ∣ b ∧ s.memory.next.toNat ≤ b} b :=
      ⟨_, isLeast_roundedUp (by decide) _⟩
    refine ⟨boundary, hleast, fun pages hpages => ?_⟩
    rw [← h.last]
    by_cases hfits : boundary + 4096 * pages ≤ s.memory.last.toNat
    · obtain ⟨page, stop, htake, hpage, -⟩ :=
        EarlyMemory.take_of_fits hover hpages hleast hfits
      rw [htake]
      exact ⟨⟨fun _ => hfits, fun _ => ⟨page, rfl⟩⟩, fun _ heq => Except.ok.inj heq ▸ hpage⟩
    · rw [EarlyMemory.take_of_not_fits hover hpages hleast hfits]
      exact ⟨⟨fun ⟨_, hok⟩ => (nomatch hok), fun hno => absurd hno hfits⟩, fun _ hok => nomatch hok⟩
  refuses pages := by
    rcases (EarlyMemory.take_ends s.memory pages).cases with ⟨page, hok, -⟩ | herror | ⟨_, -, hno⟩
    · exact .inl ⟨page, hok⟩
    · exact .inr herror
    · exact hno.elim
  ends hsome := by
    have hover : s.memory.handedOver = true := by
      rw [h.handedOver, Bool.not_eq_true', List.isEmpty_eq_false_iff]
      exact hsome
    refine ⟨EarlyMemory.take_of_handedOver hover, ?_⟩
    show Except.ok s.memory.rest = _
    rw [EarlyMemory.rest, h.spent hsome, h.last]

/-- Whatever the range, and whatever is taken off it and handed over in whatever order, the range is
carved up exactly. -/
theorem exact_after (range : PhysicalRange) (requests : List EarlyRequest) :
    (requests.foldl after (ofRange range)).Exact range :=
  ((kept_ofRange range).afterAll requests).exact

/-- A range that begins beside a page: a run that fits, one that is too long for the rest, and a run
that is asked for too late. -/
example :
    [EarlyRequest.take 1, .take 3, .handOver, .take 1].foldl after
        (ofRange ⟨.ofNat 0x10001, .ofNat 0x14800⟩) =
      ⟨⟨.ofNat 0x14800, .ofNat 0x14800, true⟩, [⟨17, 1⟩], [⟨.ofNat 0x12000, .ofNat 0x14800⟩]⟩ := by
  decide

end Carving

end MipsVM
