import Ucore.Lib.Machine
import Ucore.Proc

/-! The lock of an address space. `lock_mm`, `try_lock_mm` and `unlock_mm` work on the
semaphore first and write `locked_by` in a step of its own. -/

namespace Ucore.MmLock
open Lib

/-- Where a process is with the lock. -/
inductive Place where
  | out
  | waiting
  /-- The semaphore is taken, or handed over by an `up`, and `locked_by` is not written yet. -/
  | acquired
  | holding
  /-- In the wait queue with the lock in its own hands. -/
  | stuck
  /-- In `unlock_mm` after `up`. -/
  | released
deriving Repr, DecidableEq

structure State where
  value : Nat
  waitQueue : List ProcId
  lockedBy : ProcId
  places : ProcId → Place

def State.move (s : State) (p : ProcId) (place : Place) : State := { s with places := Function.update s.places p place }

def tryDown (s : State) (p : ProcId) : Option State :=
  if s.value > 0 then some ({ s with value := s.value - 1 }.move p .acquired) else none

/-- `down` until it returns or sleeps. -/
def down (s : State) (p : ProcId) : State :=
  (tryDown s p).getD
    ({ s with waitQueue := s.waitQueue ++ [p] }.move p (if s.places p = Place.holding then .stuck else .waiting))

def up (s : State) : State :=
  match s.waitQueue with
  | [] => { s with value := s.value + 1 }
  | q :: rest => { s with waitQueue := rest }.move q .acquired

/-- The start of `do_pgfault`. A process that `locked_by` names goes on without the lock. -/
def doPgfault (s : State) (p : ProcId) : State :=
  (tryDown s p).getD (if s.lockedBy = p then s else down s p)

inductive Op where
  /-- `lock_mm` up to the write of `locked_by`. -/
  | lock (p : ProcId)
  /-- `try_lock_mm` up to the write of `locked_by`. -/
  | tryLock (p : ProcId)
  /-- `lock_mm` and `try_lock_mm` write `locked_by`. -/
  | mark (p : ProcId)
  /-- `unlock_mm` up to the write of `locked_by`. -/
  | unlock (p : ProcId)
  /-- `unlock_mm` writes `locked_by`. -/
  | clear (p : ProcId)
  | fault (p : ProcId)

def step (s : State) : Op → State
  | .lock p => down s p
  | .tryLock p => (tryDown s p).getD s
  | .mark p => { s with lockedBy := p }.move p .holding
  | .unlock p => (up s).move p .released
  | .clear p => { s with lockedBy := 0 }.move p .out
  | .fault p => doPgfault s p

def Allowed (s : State) : Op → Prop
  | .lock p | .tryLock p => s.places p = .out
  | .mark p => s.places p = .acquired
  | .unlock p => s.places p = .holding
  | .clear p => s.places p = .released
  | .fault p => s.places p = .out ∨ s.places p = .holding

instance (s : State) (op : Op) : Decidable (Allowed s op) := by cases op <;> unfold Allowed <;> infer_instance

def machine : Machine State Op Unit Fault where
  start s := s.value = 1 ∧ s.waitQueue = [] ∧ ∀ p, s.places p = .out
  allowed := Allowed
  step s op := pure (step s op, ())

instance (s : State) (op : Op) : Decidable (machine.allowed s op) := inferInstanceAs (Decidable (Allowed s op))

end Ucore.MmLock
