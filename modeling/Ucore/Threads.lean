import Ucore.PageFault

/-! Threads that share an address space. An access that the page table does not allow
raises a fault at once; the fault is served later, when its thread has the lock. -/

namespace Ucore.Threads
open Vmm Pmm Function

structure Access where
  write : Bool
  tf : Trapframe

structure State where
  world : World
  raised : Nat → Option Access

inductive Op where
  | raise (thread : Nat) (access : Access)
  | serve (thread : Nat)
  /-- Others hold the lock or use memory in the meantime. -/
  | others (world : World)

/-- The area allows the access. Devices and the lowest page of a stack are not to be touched. -/
structure Permits (vma : Vma) (write : Bool) (addr : Nat) : Prop where
  flag : vma.vmFlags &&& (if write then vmWrite else vmRead ||| vmExec) ≠ 0
  device : vma.vmFlags &&& vmIO = 0
  above : vma.vmFlags &&& vmStack ≠ 0 → vma.vmStart + pgSize ≤ addr

def step (s : State) : Op → Kernel (State × Int)
  | .raise thread access => pure ({ s with raised := update s.raised thread (some access) }, 0)
  | .serve thread =>
    match s.raised thread with
    | none => pure (s, 0)
    | some access => do
      let (world, ret) ← pgfaultHandler s.world access.tf
      pure (⟨world, update s.raised thread none⟩, ret)
  | .others world => pure ({ s with world }, 0)

end Ucore.Threads
