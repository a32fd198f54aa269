import Ucore.TimerList

/-! The timer lists of several CPUs. `add_timer` and `del_timer` take the list of the CPU
they are executed on, and a process may be on another CPU when it deletes its timer. -/

namespace Ucore.CpuTimers
open Lib TimerList Function

variable {n : Nat}

structure State (n : Nat) where
  lists : Fin n → List Timer
  procs : ProcId → Proc

def State.at (s : State n) (c : Fin n) : TimerList.State := ⟨s.lists c, s.procs⟩

/-- `__del_timer` on CPU `c` for a timer in the list of `d`. The end of the list is
recognised by the head of the list of `c`, so another head is taken for a timer. -/
def delTimer (s : State n) (c d : Fin n) (id : TimerId) : Kernel (State n) :=
  if c ≠ d ∧ (s.lists d).getLast?.any (fun timer => timer.id == id && timer.expires != 0) then
    .error (.misread "le2timer(le, timer_link)")
  else pure { s with lists := update s.lists d (TimerList.delTimer id (s.lists d)) }

def step (s : State n) : Fin n × Op → Kernel (State n × List (TimerId × ProcId))
  | (c, .add id proc expires) => do
    ensure (expires > 0) "timer->expires > 0 && timer->proc != NULL"
    ensure (∀ d, pending (s.lists d) id = false) "list_empty(&(timer->timer_link))"
    pure ({ s with lists := update s.lists c (insertTimer ⟨id, expires, proc⟩ (s.lists c)) }, [])
  | (c, .del id) =>
    match (List.finRange n).find? fun d => pending (s.lists d) id with
    | none => pure (s, [])
    | some d => do
      let s ← delTimer s c d id
      pure (s, [])
  | (c, .tick) => do
    let (list, woken) ← runTimerList (s.at c)
    pure (⟨update s.lists c list.tl, list.procs⟩, woken)
  | (_, .change proc value) => pure ({ s with procs := update s.procs proc value }, [])

def Allowed (s : State n) : Fin n × Op → Prop
  | (_, .add id proc expires) => expires > 0 ∧ (∀ d, pending (s.lists d) id = false) ∧ (s.procs proc).Interruptible
  | (_, .del _) => True
  | (_, .tick) => True
  | (_, .change proc value) => (∃ c, ∃ timer ∈ s.lists c, timer.proc = proc) → value.Interruptible

def machine : Machine (State n) (Fin n × Op) (List (TimerId × ProcId)) Fault where
  start s := ∀ c, s.lists c = []
  allowed := Allowed
  step := step

end Ucore.CpuTimers
