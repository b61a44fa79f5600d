import MipsVM.Panic

/-!
# Spin locks

A lock is a flag beside the value that it protects. Whoever finds the flag clear and sets it gets a
guard, and dropping a guard clears the flag, whoever set it.

## Main definitions

- `SpinLock`: the flag and the value
- `SpinLock.tryLock`: one attempt; a failed one leaves the lock free
- `LockSession`: the single user of a lock, who holds at most one guard
- `LockRequest`, `LockSession.perform`: what the user can do

## Main statements

- `locked_tryLock_of_locked`: a failed attempt leaves the flag clear

## Design notes

An attempt makes its guard ready before it is known whether the guard may be handed out. If it may
not, it is dropped, and that clears the flag of the guard which holds the lock.
-/

namespace MipsVM

/-- A value behind a flag. -/
structure SpinLock (α : Type) where
  locked : Bool
  value : α
  deriving DecidableEq

namespace SpinLock

variable {α : Type}

/-- A free lock around a value. -/
def new (value : α) : SpinLock α :=
  ⟨false, value⟩

/-- Take the lock, which must be free. -/
def lock (l : SpinLock α) : SpinLock α :=
  { l with locked := true }

/-- Drop a guard. -/
def unlock (l : SpinLock α) : SpinLock α :=
  { l with locked := false }

/-- Try once to take the lock. -/
def tryLock (l : SpinLock α) : Option α × SpinLock α :=
  -- the guard of a failed attempt is dropped, which clears the flag
  if l.locked then (none, l.unlock) else (some l.value, l.lock)

/-- Change the protected value. -/
def update (l : SpinLock α) (f : α → α) : SpinLock α :=
  { l with value := f l.value }

/-- The lock in words. -/
def describe (l : SpinLock α) : String :=
  s!"SpinLock \x7b locked: {l.locked}, .. \x7d"

/-- A failed attempt leaves the flag clear. -/
theorem locked_tryLock_of_locked {l : SpinLock α} (h : l.locked) : l.tryLock.2.locked = false := by
  rw [tryLock, if_pos h]
  rfl

end SpinLock

/-- What the user of a lock around a 64-bit number can do. -/
inductive LockRequest
  /-- Take the lock. -/
  | lock
  /-- Try once to take the lock. -/
  | tryLock
  /-- Drop the guard, if there is one. -/
  | unlock
  /-- Store a number through the guard. -/
  | store (value : Int64)
  /-- Take the lock, add a number, panic if so told, and drop the guard. -/
  | addLocked (amount : Int64) (panics : Bool)
  /-- Let threads count up under the lock, each a number of times. -/
  | contend (threads rounds : Nat)
  /-- The lock in words. -/
  | describe
  /-- Store a number as the owner of the lock. -/
  | replace (value : Int64)
  /-- Give up the lock and keep its number. -/
  | consume

/-- What a request to a lock can be answered. -/
inductive LockReply
  /-- It was done. -/
  | done
  /-- The number. -/
  | value (n : Int64)
  /-- The lock is held. -/
  | busy
  /-- The text. -/
  | text (s : String)
  /-- The code run under the lock panicked. -/
  | panicked (p : Panic)
  /-- The request would wait for ever for the user's own guard. -/
  | deadlock
  /-- The user has no guard. -/
  | notHeld
  /-- The lock was given up. -/
  | consumed

/-- The single user of a lock. -/
structure LockSession where
  /-- The lock, until it is given up. -/
  lock : Option (SpinLock Int64)
  /-- Whether the user has a guard. -/
  guarded : Bool

namespace LockSession

/-- The user of a new lock. -/
def new (value : Int64) : LockSession :=
  ⟨some (.new value), false⟩

/-- The lock after the user dropped the guard, if there was one. -/
def released (l : SpinLock Int64) (guarded : Bool) : SpinLock Int64 :=
  if guarded then l.unlock else l

/-- What is answered, and what is left of the lock and the guard. A new guard replaces an old one,
which is dropped. -/
def performOn (l : SpinLock Int64) (guarded : Bool) : LockRequest → LockReply × LockSession
  | .lock =>
    if guarded then (.deadlock, ⟨l, guarded⟩) else (.value l.value, ⟨l.lock, true⟩)
  | .tryLock =>
    match l.tryLock with
    | (none, left) => (.busy, ⟨left, guarded⟩)
    | (some n, left) => (.value n, ⟨released left guarded, true⟩)
  | .unlock => (.done, ⟨released l guarded, false⟩)
  | .store n =>
    if guarded then (.done, ⟨l.update fun _ => n, true⟩) else (.notHeld, ⟨l, false⟩)
  | .addLocked amount panics =>
    if guarded then (.deadlock, ⟨l, true⟩)
    else
      let left := (l.lock.update (· + amount)).unlock
      (if panics then .panicked (.caller "boom") else .value left.value, ⟨left, false⟩)
  | .contend threads rounds =>
    if guarded then (.deadlock, ⟨l, true⟩)
    else
      let left := (l.lock.update (· + Int64.ofNat (threads * rounds))).unlock
      (.value left.value, ⟨left, false⟩)
  | .describe => (.text l.describe, ⟨l, guarded⟩)
  | .replace n => (.done, ⟨(released l guarded).update fun _ => n, false⟩)
  | .consume => (.value l.value, ⟨none, false⟩)

/-- What a request is answered, and what it leaves. -/
def perform (request : LockRequest) (s : LockSession) : LockReply × LockSession :=
  match s.lock with
  | some l => performOn l s.guarded request
  | none => (.consumed, s)

/-- Whether the lock's flag is set, as long as there is a lock. -/
def locked? (s : LockSession) : Option Bool :=
  s.lock.map SpinLock.locked

/-- The answers to requests made one after the other, each with the flag after it. -/
def run : List LockRequest → LockSession → List (LockReply × Option Bool)
  | [], _ => []
  | request :: rest, s =>
    match perform request s with
    | (reply, left) => (reply, left.locked?) :: run rest left

end LockSession

end MipsVM
