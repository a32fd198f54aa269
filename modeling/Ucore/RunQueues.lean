import Ucore.Sched

/-! The scheduler as its callers see it: each of its operations is one step, on any CPU.
Between these steps processes are created, go to sleep and exit. -/

namespace Ucore.RunQueues
open Lib Sched

def wtSignal : UInt32 := 0x00000400 ||| wtInterrupted

variable {n : Nat} (cls : SchedClass)

/-- What `try_to_wakeup` does for each thread that it wakes. -/
def wakeThread (s : State n) (me : Fin n) (p : ProcId) : Kernel (State n) :=
  let s := s.setProc p ⟨.runnable, 0⟩
  if p ≠ (s.cpus me).current then schedClassEnqueueAfterWakeup cls (s.setAffinity p me) me p else pure s

/-- The loop of `try_to_wakeup` over the other threads of the group. -/
def wakeGroup (me : Fin n) : State n → List ProcId → Kernel (State n)
  | s, [] => pure s
  | s, next :: rest => do
    let proc := (s.tasks next).toProc
    let s ← if proc.state = .sleeping ∧ proc.waitState = wtSignal then wakeThread cls s me next else pure s
    wakeGroup me s rest

/-- `spinlock_acquire(&stupid_lock)`. The sections that release the lock are single steps. -/
def acquire (s : State n) : Kernel Unit :=
  if s.stupidLock = none then pure () else .error (.deadlock "spinlock_acquire(&stupid_lock)")

def tryToWakeup (s : State n) (me : Fin n) (p : ProcId) (group : List ProcId) : Kernel (State n × Int) := do
  acquire s
  ensure ((s.tasks p).state ≠ .zombie) "proc->state != PROC_ZOMBIE"
  if (s.tasks p).state ≠ .runnable then
    let s ← wakeThread cls s me p
    let s ← wakeGroup cls me s group
    pure (s, 1)
  else
    let s ← wakeGroup cls me s group
    pure (s, 0)

/-- `if (!list_empty(&(proc->run_link))) sched_class_dequeue(proc)` -/
def dequeueLinked (s : State n) (me : Fin n) (p : ProcId) : Kernel (State n) :=
  if s.Linked p then dequeue cls s me p else pure s

/-- `stop_proc` up to its end, where it takes `stupid_lock` again instead of releasing it: the
CPU waits there for itself. -/
def stopProc (s : State n) (me : Fin n) (p : ProcId) (wait : UInt32) : Kernel (State n) := do
  acquire s
  let s ← dequeueLinked cls (s.setProc p ⟨.sleeping, wait⟩) me p
  pure { s with stupidLock := some me }

/-- `schedule` from picking the next process up to the switch. -/
def scheduleNext (s : State n) (me : Fin n) : Kernel (State n) := do
  let s ← dequeueNext cls s me (s.cpus me).runList.head?
  pure (switchTo s me (match (s.cpus me).phase with | .chosen next => next | _ => (s.cpus me).current))

/-- The classes share `RR_proc_tick`. Whether `need_resched` is set is returned. -/
def rrProcTick (s : State n) (p : ProcId) : State n × Bool :=
  let task := s.tasks p
  let slice := if task.timeSlice > 0 then task.timeSlice - 1 else task.timeSlice
  (s.setTask p { task with timeSlice := slice }, slice = 0)

def schedClassProcTick (s : State n) (me : Fin n) (p : ProcId) : Kernel (State n × Bool) := do
  acquire s
  pure (if p ≠ me then rrProcTick s p else (s, true))

/-- The fields of `alloc_proc` that the scheduler reads. -/
def allocProc (s : State n) (me : Fin n) (p : ProcId) : State n := s.setTask p ⟨⟨.uninit, 0⟩, none, me, 0⟩

inductive Op (n : Nat) where
  | wakeup (c : Fin n) (p : ProcId)
  | tryToWakeup (c : Fin n) (p : ProcId) (group : List ProcId)
  | stop (c : Fin n) (p : ProcId) (wait : UInt32)
  | balance (c : Fin n)
  | next (c : Fin n)
  | post (c : Fin n)
  | tick (c : Fin n)
  /-- A process goes to sleep or exits. -/
  | become (p : ProcId) (proc : Proc)
  | alloc (c : Fin n) (p : ProcId)

def step (s : State n) : Op n → Kernel (State n × Unit)
  | .wakeup c p => do
    let s ← Sched.wakeupProc cls s c p
    pure (s, ())
  | .tryToWakeup c p group => do
    let (s, _) ← tryToWakeup cls s c p group
    pure (s, ())
  | .stop c p wait => do
    let s ← stopProc cls s c p wait
    pure (s, ())
  | .balance c => do
    let s ← loadBalance cls s c
    pure (s, ())
  | .next c => do
    let s ← scheduleNext cls s c
    pure (s, ())
  | .post c => do
    let s ← postSwitch cls s c
    pure (s, ())
  | .tick c => do
    let (s, _) ← schedClassProcTick s c (s.cpus c).current
    pure (s, ())
  | .become p proc => pure (s.setProc p proc, ())
  | .alloc c p => pure (allocProc s c p, ())

def Op.cpu : Op n → Option (Fin n)
  | .wakeup c _ | .tryToWakeup c _ _ | .stop c _ _ | .balance c | .next c | .post c | .tick c
  | .alloc c _ => some c
  | .become _ _ => none

/-- Signals go to no idle process, and a new process is not in use. -/
def Fitting (s : State n) : Op n → Prop
  | .tryToWakeup _ p group => ∀ q ∈ p :: group, q ≥ n
  | .alloc _ p => ¬ s.Linked p
  | _ => True

instance (s : State n) : (op : Op n) → Decidable (Fitting s op)
  | .tryToWakeup _ _ _ => inferInstanceAs (Decidable (∀ _ ∈ _, _))
  | .alloc _ _ => inferInstanceAs (Decidable (¬ _))
  | .wakeup _ _ | .stop _ _ _ | .balance _ | .next _ | .post _ | .tick _ | .become _ _ => instDecidableTrue

/-- A CPU that waits in `stop_proc` does nothing any more. -/
def Allowed (s : State n) (op : Op n) : Prop := Fitting s op ∧ ∀ c ∈ s.stupidLock, op.cpu ≠ some c
deriving Decidable

def machine : Machine (State n) (Op n) Unit Fault where
  start s := ∀ c, (s.cpus c).runList = [] ∧ (s.cpus c).procNum = 0
  allowed := Allowed
  step := step cls

end Ucore.RunQueues
