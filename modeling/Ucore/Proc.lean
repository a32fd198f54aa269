import Ucore.Fault

/-! The part of a process that sleeping and waking act on. -/

namespace Ucore

abbrev ProcId := Nat

inductive ProcState where
  | uninit
  | sleeping
  | runnable
  | zombie
deriving Repr, DecidableEq

def wtInterrupted : UInt32 := 0x80000000
def wtTimer : UInt32 := 0x00000002 ||| wtInterrupted
def wtKsem : UInt32 := 0x00000100
def wtUsem : UInt32 := 0x00000101 ||| wtInterrupted

structure Proc where
  state : ProcState
  waitState : UInt32
deriving Repr, DecidableEq

/-- The effect of `wakeup_proc` on the process itself. Waking a process that is
already runnable only prints a warning. -/
def wakeupProc (proc : Proc) : Kernel Proc := do
  ensure (proc.state ≠ .zombie) "proc->state != PROC_ZOMBIE"
  if proc.state ≠ .runnable then pure ⟨.runnable, 0⟩ else pure proc

/-- What a process with a pending timer owes the timer interrupt: it has not
exited, and it is either awake or asleep in an interruptible wait. -/
def Proc.Interruptible (proc : Proc) : Prop :=
  proc.state ≠ .zombie ∧ (proc.waitState ≠ 0 → proc.waitState &&& wtInterrupted ≠ 0)
deriving Decidable

theorem wakeupProc_ok {proc : Proc} (alive : proc.state ≠ .zombie) :
    wakeupProc proc = .ok (if proc.state ≠ .runnable then ⟨.runnable, 0⟩ else proc) := by
  simp only [wakeupProc, ensure_bind, alive, ne_eq, not_false_eq_true, if_true]
  split <;> rfl

theorem wakeupProc_interruptible {proc after : Proc} (kept : proc.Interruptible)
    (woken : wakeupProc proc = .ok after) : after.Interruptible := by
  rw [wakeupProc_ok kept.1] at woken
  cases woken
  split
  · exact ⟨by simp, by simp⟩
  · exact kept

end Ucore
