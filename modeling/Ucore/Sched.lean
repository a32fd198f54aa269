import Ucore.Proc
import Ucore.Lib.Machine

/-! The scheduler on several CPUs. A call of `schedule` is cut into the steps between
which the other CPUs can act: balancing under all locks, picking, dequeuing,
switching, and what `post_switch` does for the process that was left. -/

namespace Ucore.Sched
open Lib Function

def maxTimeSlice : Nat := 8
def maxMoveProcNum : Nat := 100

inductive SchedClass where
  | rr
  | mlfq
deriving Repr, DecidableEq

variable {n : Nat}

/-- A process as the scheduler sees it. Whether `run_link` is empty is read off the
run queues. -/
structure Task (n : Nat) extends Proc where
  rq : Option (Fin n)
  cpuAffinity : Fin n
  timeSlice : Nat

inductive Phase where
  | running
  | balanced
  | picked (next : Option ProcId)
  | chosen (next : ProcId)
  | switching
deriving Repr, DecidableEq

structure Cpu where
  current : ProcId
  prev : ProcId
  phase : Phase
  runList : List ProcId
  procNum : Nat

structure State (n : Nat) where
  tasks : ProcId → Task n
  cpus : Fin n → Cpu
  /-- The CPU that keeps `stupid_lock` for good. -/
  stupidLock : Option (Fin n) := none

namespace State

def setTask (s : State n) (p : ProcId) (task : Task n) : State n := { s with tasks := update s.tasks p task }

def setCpu (s : State n) (c : Fin n) (cpu : Cpu) : State n := { s with cpus := update s.cpus c cpu }

/-- `!list_empty(&(proc->run_link))` -/
def Linked (s : State n) (p : ProcId) : Prop := ∃ c, p ∈ (s.cpus c).runList
deriving Decidable

/-- The assignments of `RR_enqueue`. -/
def link (s : State n) (c : Fin n) (p : ProcId) : State n :=
  let task := s.tasks p
  let slice := if task.timeSlice = 0 ∨ task.timeSlice > maxTimeSlice then maxTimeSlice else task.timeSlice
  let s := s.setTask p { task with rq := some c, timeSlice := slice }
  s.setCpu c { s.cpus c with runList := (s.cpus c).runList ++ [p], procNum := (s.cpus c).procNum + 1 }

/-- The assignments of `RR_dequeue`; `list_del` takes the process out of whatever list it is in. -/
def unlink (s : State n) (c : Fin n) (p : ProcId) : State n :=
  let s := { s with cpus := fun d => { s.cpus d with runList := (s.cpus d).runList.erase p } }
  s.setCpu c { s.cpus c with procNum := (s.cpus c).procNum - 1 }

def setPhase (s : State n) (c : Fin n) (phase : Phase) : State n := s.setCpu c { s.cpus c with phase }

def setAffinity (s : State n) (p : ProcId) (c : Fin n) : State n := s.setTask p { s.tasks p with cpuAffinity := c }

def setProc (s : State n) (p : ProcId) (proc : Proc) : State n := s.setTask p { s.tasks p with toProc := proc }

end State

def rrEnqueue (s : State n) (c : Fin n) (p : ProcId) : Kernel (State n) := do
  ensure (¬ s.Linked p) "list_empty(&(proc->run_link))"
  pure (s.link c p)

def rrDequeue (s : State n) (c : Fin n) (p : ProcId) : Kernel (State n) := do
  ensure (s.Linked p ∧ (s.tasks p).rq = some c) "!list_empty(&(proc->run_link)) && proc->rq == rq"
  pure (s.unlink c p)

def mlfqEnqueue (s : State n) (c : Fin n) (p : ProcId) : Kernel (State n) := do
  ensure (¬ s.Linked p) "list_empty(&(proc->run_link))"
  rrEnqueue s c p

def mlfqDequeue (s : State n) (c : Fin n) (p : ProcId) : Kernel (State n) := do
  ensure (s.Linked p ∧ (s.tasks p).rq = some c) "!list_empty(&(proc->run_link)) && rq == proc->rq"
  rrDequeue s c p

def enqueue : SchedClass → State n → Fin n → ProcId → Kernel (State n)
  | .rr => rrEnqueue
  | .mlfq => mlfqEnqueue

def dequeue : SchedClass → State n → Fin n → ProcId → Kernel (State n)
  | .rr => rrDequeue
  | .mlfq => mlfqDequeue

section
variable (cls : SchedClass)

def moveRunQueue (src dst : Fin n) (s : State n) (p : ProcId) : Kernel (State n) := do
  let s ← dequeue cls s src p
  enqueue cls (s.setAffinity p dst) dst p

/-- The loop of `load_balance` over the processes it takes. -/
def moveAll (src dst : Fin n) : State n → List ProcId → Kernel (State n)
  | s, [] => pure s
  | s, p :: rest => do
    ensure (p ≥ n) "procs_moved[i]->pid >= NCPU"
    let s ← moveRunQueue cls src dst s p
    moveAll src dst s rest

/-- The busiest CPU. The first load beats the initial -1, so the start value of `max_id` does not
matter. -/
def busiest (s : State n) (me : Fin n) : Int × Fin n :=
  (List.finRange n).foldl
    (fun best c => if ((s.cpus c).procNum : Int) > best.1 then ((s.cpus c).procNum, c) else best) (-1, me)

/-- The loads are doubles; their difference to the mean is cut to an `int`. -/
def needs (s : State n) (me : Fin n) : Int :=
  let sum : Int := ((List.finRange n).map fun c => ((s.cpus c).procNum : Int)).sum
  let loadMax : Int := (s.cpus (busiest s me).2).procNum
  let myLoad : Int := (s.cpus me).procNum
  min (min ((n * loadMax - sum).tdiv n) ((sum - n * myLoad).tdiv n)) maxMoveProcNum

/-- The processes that `load_balance` on `me` takes from the busiest CPU. -/
def stolen (s : State n) (me : Fin n) : List ProcId :=
  if needs s me > 3 ∧ me ≠ (busiest s me).2 then (s.cpus (busiest s me).2).runList.take (needs s me).toNat else []

def loadBalance (s : State n) (me : Fin n) : Kernel (State n) := moveAll cls (busiest s me).2 me s (stolen s me)

def schedClassEnqueue (s : State n) (me : Fin n) (p : ProcId) : Kernel (State n) :=
  if p ≠ me then do
    ensure ((s.tasks p).cpuAffinity = me) "proc->cpu_affinity == myid()"
    enqueue cls s me p
  else pure s

/-- A process that was never queued goes to the CPU of its affinity, which is then
overwritten with the CPU of the caller. -/
def schedClassEnqueueAfterWakeup (s : State n) (me : Fin n) (p : ProcId) : Kernel (State n) :=
  if p ≠ me then
    match (s.tasks p).rq with
    | none => enqueue cls (s.setAffinity p me) (s.tasks p).cpuAffinity p
    | some rq => enqueue cls (s.setAffinity p rq) rq p
  else pure s

def wakeupProc (s : State n) (me : Fin n) (p : ProcId) : Kernel (State n) := do
  ensure ((s.tasks p).state ≠ .zombie) "proc->state != PROC_ZOMBIE"
  if (s.tasks p).state ≠ .runnable then
    let s := s.setProc p ⟨.runnable, 0⟩
    if p ≠ (s.cpus me).current then do
      ensure (p ≥ n) "proc->pid >= NCPU"
      schedClassEnqueueAfterWakeup cls s me p
    else pure s
  else pure s

/-- The dequeuing part of `schedule`, which settles the next process. -/
def dequeueNext (s : State n) (me : Fin n) : Option ProcId → Kernel (State n)
  | some next => do
    let s ← dequeue cls s me next
    pure (s.setPhase me (.chosen next))
  | none =>
    let current := (s.cpus me).current
    pure (s.setPhase me (.chosen (if (s.tasks current).state = .runnable then current else me)))

/-- `proc_run` up to the point where `switch_to` has saved the old process. -/
def switchTo (s : State n) (me : Fin n) (next : ProcId) : State n :=
  let cpu := s.cpus me
  if next ≠ cpu.current then s.setCpu me { cpu with current := next, prev := cpu.current, phase := .switching }
  else s.setPhase me .running

def postSwitch (s : State n) (me : Fin n) : Kernel (State n) :=
  let prev := (s.cpus me).prev
  if (s.tasks prev).state = .runnable ∧ prev ≥ n ∧ ¬ s.Linked prev then
    schedClassEnqueue cls (s.setAffinity prev me) me prev
  else pure s

inductive Op (n : Nat) where
  | sleep (c : Fin n) (wait : UInt32)
  | exit (c : Fin n)
  | wake (c : Fin n) (p : ProcId)
  | balance (c : Fin n)
  | pick (c : Fin n)
  | dequeue (c : Fin n)
  | switch (c : Fin n)
  | post (c : Fin n)

def step (s : State n) : Op n → Kernel (State n × Unit)
  | .sleep c wait => pure (s.setProc (s.cpus c).current ⟨.sleeping, wait⟩, ())
  | .exit c => pure (s.setProc (s.cpus c).current ⟨.zombie, 0⟩, ())
  | .wake c p => do
    let s ← wakeupProc cls s c p
    pure (s, ())
  | .balance c => do
    let s ← loadBalance cls s c
    pure (s.setPhase c .balanced, ())
  | .pick c => pure (s.setPhase c (.picked (s.cpus c).runList.head?), ())
  | .dequeue c => do
    let s ← dequeueNext cls s c (match (s.cpus c).phase with | .picked next => next | _ => none)
    pure (s, ())
  | .switch c => pure (switchTo s c (match (s.cpus c).phase with | .chosen next => next | _ => (s.cpus c).current), ())
  | .post c => do
    let s ← postSwitch cls s c
    pure (s.setPhase c .running, ())

/-- Every CPU goes through `schedule` in order. Idle processes do not sleep or exit,
and only processes that exist and have not exited are woken. -/
def Allowed (s : State n) : Op n → Prop
  | .sleep c _ => (s.cpus c).phase = .running ∧ (s.cpus c).current ≥ n
  | .exit c => (s.cpus c).phase = .running ∧ (s.cpus c).current ≥ n
  | .wake c p => (s.cpus c).phase = .running ∧ p ≥ n ∧ (s.tasks p).state ≠ .zombie
  | .balance c => (s.cpus c).phase = .running
  | .pick c => (s.cpus c).phase = .balanced
  | .dequeue c => ∃ next, (s.cpus c).phase = .picked next
  | .switch c => ∃ next, (s.cpus c).phase = .chosen next
  | .post c => (s.cpus c).phase = .switching

/-- At boot every CPU runs its idle process, whose id is the number of the CPU, and
no other process has been queued yet. -/
def machine : Machine (State n) (Op n) Unit Fault where
  start s := ∀ c, (s.cpus c).current = c ∧ (s.cpus c).phase = .running ∧ (s.cpus c).runList = [] ∧ (s.cpus c).procNum = 0
  allowed := Allowed
  step := step cls

end

end Ucore.Sched
