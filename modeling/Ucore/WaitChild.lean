import Ucore.Reap

/-! What a process in `do_wait` waits for. The system of exiting and waiting processes is
kept as it is; the `pid` of the last search is remembered for the CPU that made it, and
for the process once it has gone to sleep. -/

namespace Ucore.WaitChild
open Lib Reap Function

variable {n : Nat}

structure State (n : Nat) where
  sys : Reap.State n
  /-- The `pid` that `do_wait` on a CPU has searched for. -/
  searched : Fin n → ProcId
  /-- The `pid` that a process has gone to sleep for. -/
  awaited : ProcId → ProcId

/-- The process is one of those that the search of `do_wait(pid)` by `p` looks at. -/
def Awaits (s : Reap.State n) (pid p q : ProcId) : Prop :=
  if pid ≠ 0 then q = pid ∧ (s.tasks q).hashed = true ∧ (s.tasks q).parent ∈ threads s p
  else ∃ thread ∈ threads s p, q ∈ (s.tasks thread).children

/-- The process is asleep in `do_wait`. -/
def Sleeps (s : Reap.State n) (p : ProcId) : Prop := (s.tasks p).state = .sleeping ∧ (s.tasks p).waitState = wtChild

/-- The process is in `__do_exit` and has not yet looked for a waiting parent. -/
def Unannounced (s : Reap.State n) (q : ProcId) : Prop := ∃ c, s.current c = q ∧ (s.cpus c).phase = .zombie

/-- A process sleeps although a child it waits for is a zombie and has already looked for waiting
parents. -/
def Missed (w : State n) : Prop :=
  ∃ p q, Sleeps w.sys p ∧ Awaits w.sys (w.awaited p) p q ∧ (w.sys.tasks q).state = .zombie ∧ ¬ Unannounced w.sys q

/-- What is remembered of a step. -/
def note (w : State n) (op : Op n) (sys : Reap.State n) : State n :=
  match op with
  | .wait c pid => { w with sys, searched := update w.searched c pid }
  | .sleep c => { w with sys, awaited := update w.awaited (w.sys.current c) (w.searched c) }
  | _ => { w with sys }

def step (w : State n) (op : Op n) : Kernel (State n × Unit) := do
  let (sys, _) ← Reap.step w.sys op
  pure (note w op sys, ())

def machine (n : Nat) : Machine (State n) (Op n) Unit Fault where
  start w := w = ⟨boot n, fun _ => 0, fun _ => 0⟩
  allowed w op := Allowed w.sys op
  step := step

instance (w : State n) (op : Op n) : Decidable ((machine n).allowed w op) := inferInstanceAs (Decidable (Allowed w.sys op))

end Ucore.WaitChild
