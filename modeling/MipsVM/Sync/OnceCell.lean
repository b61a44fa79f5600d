import MipsVM.Panic

/-!
# Cells that are written once

A cell is empty until somebody starts to initialize it, and it holds a value once that is done. A
cell whose initializer never finishes stays as it is for ever.

## Main definitions

- `OnceCell`: the three phases
- `OnceCell.get?`, `OnceCell.set`: read, and write at most once
- `CellLedger`: a cell with the account of all values that were made and dropped
- `CellRequest`, `CellLedger.perform`: what the user of a cell can do, inside an initializer too

## Main statements

- `set_of_ne_empty`: a cell that is not empty hands a value back

## Design notes

The account lists values and not only their number, so that "dropped exactly once" can be said of
each of them.
-/

namespace MipsVM

/-- A cell that is written at most once. -/
inductive OnceCell (α : Type)
  /-- Nobody has written. -/
  | empty
  /-- An initializer runs, or has panicked. -/
  | initializing
  /-- The value is there. -/
  | ready (value : α)
  deriving DecidableEq

namespace OnceCell

variable {α : Type}

/-- The value, if it is there. -/
def get? : OnceCell α → Option α
  | .ready value => some value
  | _ => none

/-- Whether the value is there. -/
def isReady (c : OnceCell α) : Bool :=
  c.get?.isSome

/-- Store a value in an empty cell. Any other cell hands it back. -/
def set (value : α) : OnceCell α → Except α (OnceCell α)
  | .empty => .ok (.ready value)
  | _ => .error value

/-- The cell in words, given the text of a value. -/
def describe (text : α → String) (c : OnceCell α) : String :=
  match c.get? with
  | some value => s!"SyncOnceCell({text value})"
  | none => "SyncOnceCell(<uninit>)"

@[simp]
theorem get?_empty : (empty : OnceCell α).get? = none := rfl

@[simp]
theorem get?_initializing : (initializing : OnceCell α).get? = none := rfl

@[simp]
theorem get?_ready (value : α) : (ready value).get? = some value := rfl

@[simp]
theorem isReady_empty : (empty : OnceCell α).isReady = false := rfl

@[simp]
theorem isReady_initializing : (initializing : OnceCell α).isReady = false := rfl

@[simp]
theorem isReady_ready (value : α) : (ready value).isReady = true := rfl

/-- A ready cell is not empty. -/
theorem ne_empty_of_isReady {c : OnceCell α} (h : c.isReady) : c ≠ .empty := by
  rintro rfl
  cases h

/-- A cell that is not empty hands a value back. -/
theorem set_of_ne_empty {c : OnceCell α} (h : c ≠ .empty) (value : α) :
    c.set value = .error value := by
  cases c with
  | empty => exact absurd rfl h
  | initializing => rfl
  | ready => rfl

end OnceCell

/-- What the user of a cell of numbers can do. -/
inductive CellRequest
  /-- Read the cell. -/
  | get
  /-- Store a number. -/
  | set (value : Int)
  /-- The cell in words. -/
  | describe
  /-- Read the cell after it is initialized. The initializer first does other requests to the same
  cell, and then panics if so told. -/
  | getOrInit (value : Int) (inner : List CellRequest) (panics : Bool)
  /-- Let threads read the cell after it is initialized, all at once. -/
  | race (threads : Nat) (value : Int)

/-- What a request to a cell can be answered. -/
inductive CellReply
  /-- The number in the cell. -/
  | value (n : Option Int)
  /-- The number was stored. -/
  | stored
  /-- The number was handed back. -/
  | rejected (n : Int)
  /-- The text. -/
  | text (s : String)
  /-- The number that the cell was found or made to hold, and the answers given inside the
  initializer. -/
  | initialized (n : Except Panic Int) (inner : List CellReply)
  /-- How often an initializer ran, and what each thread saw. -/
  | raced (calls : Nat) (seen : List Int)
  /-- The request would wait for ever. -/
  | deadlock

/-- A cell of numbers with the account of all numbers that were ever made for it. -/
structure CellLedger where
  cell : OnceCell Int
  made : List Int
  dropped : List Int

namespace CellLedger

/-- A new cell. -/
def new : CellLedger :=
  ⟨.empty, [], []⟩

/-- Store a number that was just made. A number that is handed back is dropped. -/
def store (value : Int) (l : CellLedger) : CellReply × CellLedger :=
  match l.cell.set value with
  | .ok cell => (.stored, { l with cell := cell, made := value :: l.made })
  | .error rejected =>
    (.rejected rejected,
      { l with made := value :: l.made, dropped := rejected :: l.dropped })

/-- The end of an initializer: the number is made and stored. -/
def finish (value : Int) (l : CellLedger) : CellLedger :=
  { l with cell := .ready value, made := value :: l.made }

mutual

/-- What a request is answered, and what it leaves. -/
def perform : CellRequest → CellLedger → CellReply × CellLedger
  | .get, l => (.value l.cell.get?, l)
  | .set value, l => l.store value
  | .describe, l => (.text (l.cell.describe toString), l)
  | .getOrInit value inner panics, l =>
    match l.cell with
    | .ready found => (.initialized (.ok found) [], l)
    | .initializing => (.deadlock, l)
    | .empty =>
      match performAll inner { l with cell := .initializing } with
      | (replies, left) =>
        if panics then (.initialized (.error (.caller "boom")) replies, left)
        else (.initialized (.ok value) replies, left.finish value)
  | .race threads value, l =>
    match l.cell with
    | .ready found => (.raced 0 (List.replicate threads found), l)
    | .initializing => (.deadlock, l)
    | .empty =>
      if threads = 0 then (.raced 0 [], l)
      else (.raced 1 (List.replicate threads value), l.finish value)

/-- What requests made one after the other are answered, and what they leave. -/
def performAll : List CellRequest → CellLedger → List CellReply × CellLedger
  | [], l => ([], l)
  | request :: rest, l =>
    match perform request l with
    | (reply, left) =>
      match performAll rest left with
      | (replies, last) => (reply :: replies, last)

end

/-- The account after the cell itself was dropped. -/
def close (l : CellLedger) : CellLedger :=
  match l.cell with
  | .ready value => { l with cell := .empty, dropped := value :: l.dropped }
  | _ => l

/-- The answers to requests made one after the other, each with what it left, and the account in the
end. -/
def run : List CellRequest → CellLedger → List (CellReply × CellLedger) × CellLedger
  | [], l => ([], l.close)
  | request :: rest, l =>
    match perform request l with
    | (reply, left) =>
      match run rest left with
      | (steps, last) => ((reply, left) :: steps, last)

end CellLedger

end MipsVM
