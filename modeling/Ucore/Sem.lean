import Ucore.Error
import Ucore.Lib.Machine
import Ucore.Proc

/-! One semaphore and the processes that use it. Every section that holds the lock of
the semaphore is one step; between the two sections of `__down` a process sleeps, and
timers and signals can make it runnable there without touching the semaphore. -/

namespace Ucore.Sem
open Function

/-- Kernel semaphores are used through `up` and `down`, user semaphores through `usem_up` and
`usem_down`. -/
inductive Kind where
  | kernel
  | user
deriving Repr, DecidableEq

def Kind.waitState : Kind → UInt32
  | .kernel => wtKsem
  | .user => wtUsem

/-- What a process keeps on its stack between the two sections of `__down`. -/
structure Down where
  wakeupFlags : UInt32
  timeout : UInt32
  savedTicks : UInt64
  timer : Bool
deriving Repr, DecidableEq

/-- A wait is known by its process, and its link is empty when it is not in the queue. -/
structure State where
  value : Int32
  valid : Bool
  waitQueue : List ProcId
  downs : ProcId → Option Down
  procs : ProcId → Proc
  exiting : ProcId → Bool
  ticks : UInt64

inductive Event where
  /-- An up found nobody waiting. -/
  | incremented
  /-- An up released this waiter. -/
  | granted (p : ProcId)
  /-- A down of this process returned. -/
  | returned (p : ProcId) (result : Int)
  | acquired
  | quiet
deriving Repr, DecidableEq

namespace State

def setDown (s : State) (p : ProcId) (down : Option Down) : State := { s with downs := update s.downs p down }

def setProc (s : State) (p : ProcId) (proc : Proc) : State := { s with procs := update s.procs p proc }

end State

def wakeup (s : State) (p : ProcId) : Kernel State := do
  let proc ← wakeupProc (s.procs p)
  pure (s.setProc p proc)

def waitQueueDel (s : State) (p : ProcId) : Kernel State := do
  ensure (p ∈ s.waitQueue) "!list_empty(&(wait->wait_link)) && wait->wait_queue == queue"
  pure { s with waitQueue := s.waitQueue.erase p }

/-- `wakeup_wait` with `del` set. -/
def wakeupWait (s : State) (p : ProcId) (wakeupFlags : UInt32) : Kernel State := do
  let s ← waitQueueDel s p
  wakeup (s.setDown p ((s.downs p).map ({ · with wakeupFlags }))) p

/-- `wakeup_queue` with `del` set. -/
def wakeupQueue (wakeupFlags : UInt32) : Nat → State → Kernel State
  | 0, s => if s.waitQueue = [] then pure s else throw .exhausted
  | fuel + 1, s =>
    match s.waitQueue with
    | [] => pure s
    | p :: _ => do
      let s ← wakeupWait s p wakeupFlags
      wakeupQueue wakeupFlags fuel s

def waitCurrentSet (s : State) (p : ProcId) (waitState : UInt32) (timeout : UInt32) : State :=
  let down : Down := ⟨wtInterrupted, timeout, s.ticks, timeout != 0⟩
  { (s.setDown p (some down)).setProc p ⟨.sleeping, waitState⟩ with waitQueue := s.waitQueue ++ [p] }

def upFirst (waitState : UInt32) (s : State) : List ProcId → Kernel (State × Event)
  | [] => pure ({ s with value := s.value + 1 }, .incremented)
  | p :: _ => do
    ensure ((s.procs p).waitState = waitState) "wait->proc->wait_state == wait_state"
    let s ← wakeupWait s p waitState
    pure (s, .granted p)

/-- `__up` -/
def up (waitState : UInt32) (s : State) : Kernel (State × Event) := do
  ensure s.valid "sem->valid"
  upFirst waitState s s.waitQueue

/-- `__down` until it returns or calls `schedule`. A timeout of zero means no timer. -/
def down (waitState : UInt32) (s : State) (p : ProcId) (timeout : UInt32) : Kernel (State × Event) := do
  ensure s.valid "sem->valid"
  if s.value > 0 then pure ({ s with value := s.value - 1 }, .returned p 0)
  else pure (waitCurrentSet s p waitState timeout, .quiet)

def ipcCheckTimeout (timeout : UInt32) (savedTicks ticks : UInt64) : Int :=
  if timeout ≠ 0 ∧ ticks - savedTicks ≥ timeout.toUInt64 then -eTimeout else -1

/-- What `down` and `usem_down` make of the flags that `__down` returns. -/
def downResult : Kind → UInt32 → Down → UInt64 → Kernel Int
  | .kernel, flags, _, _ => do
    ensure (flags = 0) "flags == 0"
    pure 0
  | .user, flags, down, ticks =>
    if flags = 0 then pure 0
    else do
      ensure (flags = wtInterrupted) "flags == WT_INTERRUPTED"
      pure (ipcCheckTimeout down.timeout down.savedTicks ticks)

/-- The rest of `__down` once the process runs again, and the return to the caller. -/
def resume (kind : Kind) (s : State) (p : ProcId) : Option Down → Kernel (State × Event)
  | none => pure (s, .quiet)
  | some down => do
    let flags := if down.wakeupFlags ≠ kind.waitState then down.wakeupFlags else 0
    let result ← downResult kind flags down s.ticks
    pure ({ s.setDown p none with waitQueue := s.waitQueue.erase p }, .returned p result)

def tryDown (s : State) : State × Event :=
  if s.value > 0 then ({ s with value := s.value - 1 }, .acquired) else (s, .quiet)

/-- What `run_timer_list` does for an expired timer. -/
def expire (s : State) (p : ProcId) : Kernel State := do
  let waitState := (s.procs p).waitState
  ensure (waitState ≠ 0 → waitState &&& wtInterrupted ≠ 0) "proc->wait_state & WT_INTERRUPTED"
  wakeup (s.setDown p ((s.downs p).map ({ · with timer := false }))) p

/-- `__do_kill` -/
def kill (s : State) (p : ProcId) : Kernel State :=
  if s.exiting p then pure s
  else
    let s := { s with exiting := update s.exiting p true }
    if (s.procs p).waitState &&& wtInterrupted ≠ 0 then wakeup s p else pure s

def signalWakeup (s : State) (p : ProcId) (sigkill : Bool) : Kernel State :=
  if (s.procs p).state = .sleeping ∧ ((s.procs p).waitState &&& wtInterrupted ≠ 0 ∨ sigkill) then wakeup s p else pure s

/-- `ipc_sem_free` for a semaphore it has found. -/
def free (s : State) : Kernel State := wakeupQueue wtInterrupted s.waitQueue.length { s with valid := false }

inductive Op where
  | up
  | down (p : ProcId) (timeout : UInt32)
  | resume (p : ProcId)
  | tryDown
  | expire (p : ProcId)
  | kill (p : ProcId)
  | signal (p : ProcId) (sigkill : Bool)
  | free
  | tick
deriving Repr, DecidableEq

def silently (result : Kernel State) : Kernel (State × Event) := do
  let s ← result
  pure (s, .quiet)

def step (kind : Kind) (s : State) : Op → Kernel (State × Event)
  | .up => up kind.waitState s
  | .down p timeout => down kind.waitState s p timeout
  | .resume p => resume kind s p (s.downs p)
  | .tryDown => pure (tryDown s)
  | .expire p => silently (expire s p)
  | .kill p => silently (kill s p)
  | .signal p sigkill => silently (signalWakeup s p sigkill)
  | .free => silently (free s)
  | .tick => pure ({ s with ticks := s.ticks + 1 }, .quiet)

/-- A process is in one down at a time and goes on with it when it is runnable. Only
waits for user semaphores have timers, and only user semaphores are freed. Timers and
signals of processes that are not in a down do not concern the semaphore. -/
def Allowed (kind : Kind) (s : State) : Op → Prop
  | .down p timeout => s.downs p = none ∧ (kind = .kernel → timeout = 0)
  | .resume p => (s.downs p).isSome ∧ (s.procs p).state = .runnable
  | .expire p => (s.downs p).any (·.timer)
  | .kill p => (s.downs p).isSome
  | .signal p _ => (s.downs p).isSome
  | .free => kind = .user
  | .up => True
  | .tryDown => True
  | .tick => True

instance (kind : Kind) (s : State) (op : Op) : Decidable (Allowed kind s op) :=
  match op with
  | .up | .down _ _ | .resume _ | .tryDown | .expire _ | .kill _ | .signal _ _ | .free | .tick => by
    unfold Allowed; infer_instance

/-- `sem_init` has run and no process is in a down. -/
def machine (kind : Kind) (initial : Int32) : Lib.Machine State Op Event Fault where
  start s := s.value = initial ∧ s.valid = true ∧ s.waitQueue = [] ∧ ∀ p, s.downs p = none
  allowed := Allowed kind
  step := step kind

instance (kind : Kind) (initial : Int32) (s : State) (op : Op) : Decidable ((machine kind initial).allowed s op) :=
  inferInstanceAs (Decidable (Allowed kind s op))

end Ucore.Sem
