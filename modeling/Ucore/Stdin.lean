import Ucore.Fault
import Ucore.Lib.Machine

/-! The console input. The interrupt handler puts characters into a circular buffer, and
readers take them out with interrupts disabled or sleep until a character arrives. -/

namespace Ucore.Stdin
open Lib Function

def stdinBufsize : Nat := 4096

inductive Place where
  | waiting
  /-- Taken from the queue with `WT_KBD`, or woken by something else. -/
  | woken
  | interrupted
deriving Repr, DecidableEq

/-- A `dev_stdin_read` that sleeps. It has not read anything yet. -/
structure Reader where
  len : Nat
  place : Place
deriving Repr, DecidableEq

structure State where
  buf : Nat → UInt8
  rpos : Nat
  wpos : Nat
  waitQueue : List Nat
  readers : Nat → Option Reader
  /-- The characters that were accepted and those that were given to readers, oldest first. -/
  accepted : List UInt8
  returned : List UInt8

/-- `wakeup_queue` with `WT_KBD` -/
def wakeupQueue (s : State) : State :=
  { s with
    readers := fun id => if id ∈ s.waitQueue then (s.readers id).map ({ · with place := .woken }) else s.readers id
    waitQueue := [] }

def devStdinWrite (s : State) (c : UInt8) : State :=
  if c ≠ 0 then
    let s := { s with buf := update s.buf (s.wpos % stdinBufsize) c }
    let s := if s.wpos - s.rpos < stdinBufsize then { s with wpos := s.wpos + 1, accepted := s.accepted ++ [c] } else s
    wakeupQueue s
  else s

/-- The loop of `dev_stdin_read` over characters that are there. -/
def readLoop : Nat → State → State
  | 0, s => s
  | n + 1, s =>
    let s := { s with rpos := s.rpos + 1, returned := s.returned ++ [s.buf (s.rpos % stdinBufsize)] }
    if s.rpos ≥ s.wpos then s else readLoop n s

/-- `dev_stdin_read` from `try_again` on, until it returns or sleeps. -/
def tryAgain (s : State) (id len : Nat) : State :=
  if s.rpos < s.wpos then readLoop len { s with readers := update s.readers id none }
  else { s with waitQueue := s.waitQueue ++ [id], readers := update s.readers id (some ⟨len, .waiting⟩) }

inductive Op where
  | write (c : UInt8)
  | read (id len : Nat)
  /-- The sleeping process is woken because it is killed. -/
  | interrupt (id : Nat)
  /-- `dev_stdin_read` after `schedule`. -/
  | resume (id : Nat)
deriving Repr

def next (s : State) : Op → State
  | .write c => devStdinWrite s c
  | .read id len => if len = 0 then s else tryAgain s id len
  | .interrupt id => { s with readers := update s.readers id ((s.readers id).map ({ · with place := .interrupted })) }
  | .resume id =>
    let s := { s with waitQueue := s.waitQueue.erase id }
    match s.readers id with
    | some ⟨len, .woken⟩ => tryAgain s id len
    | _ => { s with readers := update s.readers id none }

def Allowed (s : State) : Op → Prop
  | .write _ => True
  | .read id _ => s.readers id = none
  | .interrupt id => (s.readers id).map Reader.place = some .waiting
  | .resume id => (s.readers id).map Reader.place ∈ [some .woken, some .interrupted]

def machine : Machine State Op Unit Fault where
  start s := s.rpos = 0 ∧ s.wpos = 0 ∧ s.waitQueue = [] ∧ (∀ id, s.readers id = none) ∧ s.accepted = [] ∧ s.returned = []
  allowed := Allowed
  step s op := pure (next s op, ())

end Ucore.Stdin
