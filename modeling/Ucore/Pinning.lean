import Ucore.RunQueues

/-! Processes that are pinned to a CPU. Balancing and signals do not look at `PF_PINCPU`. -/

namespace Ucore.Pinning
open Lib Sched RunQueues

variable {n : Nat}

structure State (n : Nat) where
  sched : Sched.State n
  /-- The processes with `PF_PINCPU`, with the `cpu_affinity` that they were created with. -/
  home : ProcId → Option (Fin n)

inductive Op (n : Nat) where
  /-- `do_fork` up to the wake-up. -/
  | fork (c : Fin n) (p : ProcId) (pinned : Bool)
  | run (op : RunQueues.Op n)

def step (cls : SchedClass) (s : State n) : Op n → Kernel (State n × Unit)
  | .fork c p pinned => pure (⟨allocProc s.sched c p, Function.update s.home p (if pinned then some c else none)⟩, ())
  | .run op => do
    let (sched, _) ← RunQueues.step cls s.sched op
    pure ({ s with sched }, ())

/-- No CPU knows a new process yet. -/
def Allowed (s : State n) : Op n → Prop
  | .fork _ p _ => p ≥ n ∧ ¬ s.sched.Linked p ∧ ∀ d, (s.sched.cpus d).current ≠ p ∧ (s.sched.cpus d).prev ≠ p
  | .run (.alloc _ _) => False
  | .run op => RunQueues.Allowed s.sched op

def machine (cls : SchedClass) : Machine (State n) (Op n) Unit Fault where
  start s := (RunQueues.machine cls).start s.sched ∧ ∀ p, s.home p = none
  allowed := Allowed
  step := step cls

instance (cls : SchedClass) (s : State n) : (op : Op n) → Decidable ((machine cls).allowed s op)
  | .fork _ _ _ => inferInstanceAs (Decidable (_ ∧ _ ∧ ∀ _, _ ∧ _))
  | .run (.alloc _ _) => instDecidableFalse
  | .run (.tryToWakeup _ _ _) | .run (.wakeup _ _) | .run (.stop _ _ _) | .run (.balance _) | .run (.next _)
  | .run (.post _) | .run (.tick _) | .run (.become _ _) => inferInstanceAs (Decidable (RunQueues.Allowed _ _))

/-- Pinned processes are queued and run on the CPU they were created for. -/
def Pinned (s : State n) : Prop :=
  ∀ p h, s.home p = some h → ∀ c, p ∈ (s.sched.cpus c).runList ∨ (s.sched.cpus c).current = p → c = h

end Ucore.Pinning
