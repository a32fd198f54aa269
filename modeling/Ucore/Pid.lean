import Ucore.Fault
import Ucore.Lib.Machine

/-! Process ids. `get_pid` keeps two cursors between its calls: `last_pid` is the id
it returned last and `next_safe` bounds the ids above it that are known to be free. -/

namespace Ucore.Pid
open Lib

def maxProcess : Nat := 4096
def maxPid : Nat := maxProcess * 2

/-- `proc_list` holds the ids of its processes, newest first. The idle processes are
counted in `nr_process` and are not in the list. -/
structure State where
  lastPid : Nat
  nextSafe : Nat
  procList : List Nat
  nrProcess : Nat
deriving Repr, DecidableEq

/-- The id of the idle process of a CPU. -/
def idlePid (cpu : Nat) : Nat := cpu

/-- How a pass over `proc_list` ends: at the end of the list, or with `goto repeat`. -/
inductive Pass where
  | done (lastPid nextSafe : Nat)
  | again (lastPid : Nat)
deriving Repr, DecidableEq

/-- The `while` loop of `get_pid` on the rest of the list. -/
def scan : List Nat → Nat → Nat → Pass
  | [], lastPid, nextSafe => .done lastPid nextSafe
  | pid :: rest, lastPid, nextSafe =>
    if pid = lastPid then
      if lastPid + 1 ≥ nextSafe then .again (if lastPid + 1 ≥ maxPid then 1 else lastPid + 1)
      else scan rest (lastPid + 1) nextSafe
    else if pid > lastPid ∧ nextSafe > pid then scan rest lastPid pid
    else scan rest lastPid nextSafe

/-- The part of `get_pid` from the label `inside` on. -/
def inside (procList : List Nat) : Nat → Nat → Kernel (Nat × Nat)
  | 0, _ => .error .exhausted
  | fuel + 1, lastPid =>
    match scan procList lastPid maxPid with
    | .done lastPid nextSafe => pure (lastPid, nextSafe)
    | .again lastPid => inside procList fuel lastPid

/-- Bound of the passes over the list: the cursor may go round once. -/
def passes : Nat := 2 * maxPid + 2

/-- The cursors after `get_pid`; the new `last_pid` is the id it returns. -/
def getPid (ncpu : Nat) (s : State) : Kernel (Nat × Nat) :=
  if s.lastPid + 1 ≥ maxPid then inside s.procList passes ncpu
  else if s.lastPid + 1 ≥ s.nextSafe then inside s.procList passes (s.lastPid + 1)
  else pure (s.lastPid + 1, s.nextSafe)

def setLinks (s : State) (pid : Nat) : State :=
  { s with procList := pid :: s.procList, nrProcess := s.nrProcess + 1 }

def removeLinks (s : State) (pid : Nat) : State :=
  { s with procList := s.procList.erase pid, nrProcess := s.nrProcess - 1 }

inductive Op where
  /-- `proc_init_ap` counts the idle process of another CPU. -/
  | idle
  /-- `do_fork` takes an id and links the process. -/
  | create
  /-- `do_wait` unlinks a process. -/
  | terminate (pid : Nat)
deriving Repr, DecidableEq

/-- The output is the id of a created process. -/
def step (ncpu : Nat) (s : State) : Op → Kernel (State × Option Nat)
  | .idle => pure ({ s with nrProcess := s.nrProcess + 1 }, none)
  | .create => do
    let (lastPid, nextSafe) ← getPid ncpu s
    pure (setLinks { s with lastPid, nextSafe } lastPid, some lastPid)
  | .terminate pid => pure (removeLinks s pid, none)

/-- `do_fork` gives up before it takes an id when there are too many processes. -/
def Allowed (s : State) : Op → Prop
  | .idle => s.nrProcess < maxProcess
  | .create => s.nrProcess < maxProcess
  | .terminate pid => pid ∈ s.procList

instance (s : State) : (op : Op) → Decidable (Allowed s op)
  | .idle => inferInstanceAs (Decidable (_ < _))
  | .create => inferInstanceAs (Decidable (_ < _))
  | .terminate _ => inferInstanceAs (Decidable (_ ∈ _))

/-- After `proc_init` has counted the idle process of the first CPU. -/
def machine (ncpu : Nat) : Machine State Op (Option Nat) Fault where
  start s := s = ⟨maxPid, maxPid, [], 1⟩
  allowed := Allowed
  step := step ncpu

instance (ncpu : Nat) (s : State) (op : Op) : Decidable ((machine ncpu).allowed s op) :=
  inferInstanceAs (Decidable (Allowed s op))

end Ucore.Pid
