import Ucore.Error
import Ucore.Proc
import Ucore.Lib.Links
import Ucore.Lib.Machine

/-! Exit codes. `do_exit`, `do_kill`, `may_killed` and the check on return from a trap are cut
into the steps between which other processes can act; every process is at its own place.
Which child a `do_wait` finds is left open. -/

namespace Ucore.ExitCode
open Lib Function

/-- Where a process is. In `__do_kill`, `inExit` tells whether it was called by the loop of
`do_exit`. -/
inductive Pc where
  | running
  /-- `__do_kill` has found `PF_EXITING` clear; then it has set it. -/
  | killing (q : ProcId) (code : Int) (inExit : Bool)
  | flagged (q : ProcId) (code : Int) (inExit : Bool)
  /-- The loop of `do_exit` has come to this entry of `thread_group`. -/
  | group (le : ProcId) (code : Int)
  /-- `do_exit_thread` before it stores the code; then `__do_exit` before the process is a
  zombie; then before and after `de_thread`. -/
  | exiting (code : Int)
  | coded
  | zombie
  | gone
deriving Repr, DecidableEq

structure Task extends Proc where
  exiting : Bool
  exitCode : Int
  hashed : Bool
  pc : Pc
deriving Repr, DecidableEq

structure State where
  tasks : ProcId → Task
  threadGroup : Links ProcId
  /-- The code of the first `do_exit` or `do_kill` that applied to a process. -/
  first : ProcId → Option Int

def initproc : ProcId := 1

namespace State

def setTask (s : State) (p : ProcId) (task : Task) : State := { s with tasks := update s.tasks p task }

def setPc (s : State) (p : ProcId) (pc : Pc) : State := s.setTask p { s.tasks p with pc }

/-- A `do_exit` or `do_kill` applies to a process. -/
def note (s : State) (q : ProcId) (code : Int) : State :=
  { s with first := update s.first q (some ((s.first q).getD code)) }

end State

inductive Reply where
  | silent
  | returned (ret : Int)
  | status (code : Int)
deriving Repr, DecidableEq

/-- `__do_kill` up to its test. -/
def test (s : State) (p q : ProcId) (code : Int) (inExit : Bool) : State := (s.note q code).setPc p (.killing q code inExit)

/-- `__do_kill` stores the code and wakes the process. -/
def storeCode (s : State) (q : ProcId) (code : Int) : Kernel State :=
  let task := s.tasks q
  if task.waitState &&& wtInterrupted ≠ 0 then do
    let proc ← wakeupProc task.toProc
    pure (s.setTask q { task with toProc := proc, exitCode := code })
  else pure (s.setTask q { task with exitCode := code })

/-- The beginning of `__do_exit`. -/
def enterExit (s : State) (p : ProcId) : Kernel State :=
  if p = initproc then .error (.panic "initproc exit.\n") else pure (s.setPc p .coded)

def doExit (s : State) (p : ProcId) (code : Int) : State := (s.note p code).setPc p (.group p code)

/-- One round of the loop of `do_exit`. -/
def nextThread (s : State) (p le : ProcId) (code : Int) : State :=
  let next := s.threadGroup.next le
  if next = p then s.setPc p (.exiting code)
  else if (s.tasks next).exiting then s.setPc p (.group next code)
  else test s p next code true

/-- `list_del_init` in `de_thread`. -/
def deThread (s : State) (p : ProcId) : State := { s with threadGroup := (s.threadGroup.del p).init p }

/-- The next step of a process inside one of the calls. -/
def proceed (s : State) (p : ProcId) : Kernel (State × Reply) :=
  match (s.tasks p).pc with
  | .killing q code inExit =>
    pure ((s.setTask q { s.tasks q with exiting := true }).setPc p (.flagged q code inExit), .silent)
  | .flagged q code inExit => do
    let s ← storeCode s q code
    if inExit then pure (s.setPc p (.group q code), .silent) else pure (s.setPc p .running, .returned 0)
  | .group le code => pure (nextThread s p le code, .silent)
  | .exiting code => do
    let s ← enterExit (s.setTask p { s.tasks p with exitCode := code }) p
    pure (s, .silent)
  | .coded => pure ((s.setTask p { s.tasks p with state := .zombie }).setPc p .zombie, .silent)
  | .zombie => pure ((deThread s p).setPc p .gone, .silent)
  | .running => pure (s, .silent)
  | .gone => pure (s, .silent)

/-- `do_fork` from `alloc_proc` to `wakeup_proc`. `alloc_proc` leaves the exit code as it finds it.
-/
def fork (s : State) (p child : ProcId) (thread : Bool) (exitCode : Int) : State :=
  let s := s.setTask child ⟨⟨.runnable, 0⟩, false, exitCode, true, .running⟩
  let links := s.threadGroup.init child
  { s with threadGroup := if thread then links.addBefore p child else links }

inductive Op where
  | fork (p child : ProcId) (thread : Bool) (exitCode : Int)
  | sleep (p : ProcId) (waitState : UInt32)
  | wake (q : ProcId)
  | kill (p q : ProcId) (code : Int)
  | exit (p : ProcId) (code : Int)
  | exitThread (p : ProcId) (code : Int)
  | mayKilled (p : ProcId)
  | trapReturn (p : ProcId)
  | proceed (p : ProcId)
  | wait (p q : ProcId)
deriving Repr

def step (s : State) : Op → Kernel (State × Reply)
  | .fork p child thread exitCode => pure (fork s p child thread exitCode, .silent)
  | .sleep p waitState => pure (s.setTask p { s.tasks p with state := .sleeping, waitState }, .silent)
  | .wake q => do
    let proc ← wakeupProc (s.tasks q).toProc
    pure (s.setTask q { s.tasks q with toProc := proc }, .silent)
  | .kill p q code =>
    if (s.tasks q).hashed = false then pure (s, .returned (-eInval))
    else if (s.tasks q).exiting then pure (s, .returned (-eKilled))
    else pure (test s p q code false, .silent)
  | .exit p code => pure (doExit s p code, .silent)
  | .exitThread p code => pure ((s.note p code).setPc p (.exiting code), .silent)
  | .mayKilled p =>
    if (s.tasks p).exiting then do
      let s ← enterExit s p
      pure (s, .silent)
    else pure (s, .silent)
  | .trapReturn p => if (s.tasks p).exiting then pure (doExit s p (-eKilled), .silent) else pure (s, .silent)
  | .proceed p => proceed s p
  | .wait _ q => pure (s.setTask q { s.tasks q with hashed := false }, .status (s.tasks q).exitCode)

/-- The process runs and is in none of the calls. -/
def Free (s : State) (p : ProcId) : Prop := (s.tasks p).state = .runnable ∧ (s.tasks p).pc = .running
deriving Decidable

def Allowed (s : State) : Op → Prop
  | .fork p child _ _ => Free s p ∧ (s.tasks child).state = .uninit
  | .sleep p _ => Free s p
  | .wake q => (s.tasks q).state = .sleeping
  | .kill p _ _ => Free s p
  | .exit p _ => Free s p
  | .exitThread p _ => Free s p
  | .mayKilled p => Free s p
  | .trapReturn p => Free s p
  | .proceed p => (s.tasks p).state ≠ .uninit
  | .wait p q => Free s p ∧ (s.tasks q).state = .zombie ∧ (s.tasks q).hashed = true

instance (s : State) (op : Op) : Decidable (Allowed s op) := by
  cases op <;> unfold Allowed <;> infer_instance

def boot : State where
  tasks p := if p = initproc then ⟨⟨.runnable, 0⟩, false, 0, true, .running⟩ else ⟨⟨.uninit, 0⟩, false, 0, false, .running⟩
  threadGroup := ⟨id, id⟩
  first _ := none

def machine : Machine State Op Reply Fault where
  start s := s = boot
  allowed := Allowed
  step := step

instance (s : State) (op : Op) : Decidable (machine.allowed s op) := inferInstanceAs (Decidable (Allowed s op))

/-- A zombie has the code of the first call that applied to it. -/
def FirstCode (s : State) : Prop := ∀ q, (s.tasks q).state = .zombie → s.first q = some (s.tasks q).exitCode

/-- No step changes the code of a zombie, and `do_wait` stores the code of the first call. -/
def KeepsCode (s : State) (op : Op) (result : State × Reply) : Prop :=
  (∀ q, (s.tasks q).state = .zombie → (result.1.tasks q).exitCode = (s.tasks q).exitCode) ∧
    ∀ p q, op = .wait p q → ∃ code, result.2 = .status code ∧ s.first q = some code

end Ucore.ExitCode
