import Ucore.Lib.Machine
import Ucore.Proc

/-! The timer list of one CPU. A timer in the list stores the ticks left after
the timer before it, so the list is shared arithmetic between its timers. -/

namespace Ucore.TimerList

abbrev TimerId := Nat

/-- A `timer_t` of a process. Its address identifies it; the Linux callback is
empty, which is what `__ucore_is_linux_timer` tests. -/
structure Timer where
  id : TimerId
  expires : UInt32
  proc : ProcId
deriving Repr, DecidableEq

/-- A timer outside every list has an empty `timer_link`, so membership in the
list stands for the link itself. -/
structure State where
  tl : List Timer
  procs : ProcId → Proc

def pending (tl : List Timer) (id : TimerId) : Bool := tl.any (·.id == id)

/-- The insertion loop of `__add_timer`. -/
def insertTimer (timer : Timer) : List Timer → List Timer
  | [] => [timer]
  | next :: rest =>
    if timer.expires < next.expires then
      timer :: { next with expires := next.expires - timer.expires } :: rest
    else next :: insertTimer { timer with expires := timer.expires - next.expires } rest

def addTimer (timer : Timer) (tl : List Timer) : Kernel (List Timer) := do
  ensure (timer.expires > 0) "timer->expires > 0 && timer->proc != NULL"
  ensure (pending tl timer.id = false) "list_empty(&(timer->timer_link))"
  pure (insertTimer timer tl)

/-- Deleting a timer that is in no list does nothing. -/
def delTimer (id : TimerId) : List Timer → List Timer
  | [] => []
  | timer :: rest =>
    if timer.id = id then
      if timer.expires ≠ 0 then
        match rest with
        | [] => []
        | next :: rest => { next with expires := next.expires + timer.expires } :: rest
      else rest
    else timer :: delTimer id rest

/-- The wake-up loop of `run_timer_list`. The timer at hand is the first of the
list and has no ticks left, so `__del_timer` only unlinks it. -/
def wakeExpired (procs : ProcId → Proc) : List Timer → Kernel (State × List (TimerId × ProcId))
  | [] => pure (⟨[], procs⟩, [])
  | timer :: rest =>
    if timer.expires = 0 then do
      let proc := procs timer.proc
      ensure (proc.waitState ≠ 0 → proc.waitState &&& wtInterrupted ≠ 0) "proc->wait_state & WT_INTERRUPTED"
      let proc ← wakeupProc proc
      let (state, woken) ← wakeExpired (Function.update procs timer.proc proc) rest
      pure (state, (timer.id, timer.proc) :: woken)
    else pure (⟨timer :: rest, procs⟩, [])

/-- One clock tick, with the timers it fires and the processes it wakes. The
time slice that `sched_class_proc_tick` charges afterwards is not part of it. -/
def runTimerList (state : State) : Kernel (State × List (TimerId × ProcId)) :=
  match state.tl with
  | [] => pure (state, [])
  | timer :: rest => do
    ensure (timer.expires ≠ 0) "timer->expires != 0"
    wakeExpired state.procs ({ timer with expires := timer.expires - 1 } :: rest)

inductive Op where
  /-- `timer_init` and `add_timer`. -/
  | add (id : TimerId) (proc : ProcId) (expires : UInt32)
  | del (id : TimerId)
  | tick
  /-- Any other kernel path changes a process. -/
  | change (proc : ProcId) (value : Proc)

def step (state : State) : Op → Kernel (State × List (TimerId × ProcId))
  | .add id proc expires => do
    let tl ← addTimer ⟨id, expires, proc⟩ state.tl
    pure ({ state with tl }, [])
  | .del id => pure ({ state with tl := delTimer id state.tl }, [])
  | .tick => runTimerList state
  | .change proc value => pure ({ state with procs := Function.update state.procs proc value }, [])

/-- Callers initialise a timer that is in no list with a positive delay. A
process whose timer is pending stays alive and interruptible until it has
deleted the timer. -/
def Allowed (state : State) : Op → Prop
  | .add id proc expires => expires > 0 ∧ pending state.tl id = false ∧ (state.procs proc).Interruptible
  | .del _ => True
  | .tick => True
  | .change proc value => (∃ timer ∈ state.tl, timer.proc = proc) → value.Interruptible

def machine : Lib.Machine State Op (List (TimerId × ProcId)) Fault where
  start state := state.tl = []
  allowed := Allowed
  step := step

end Ucore.TimerList
