import Ucore.PageFault

/-! A parent and the child that `dup_mmap` has made the address space of. Loads and stores
go through the page table of their process; where that does not let them through, the
page fault is served first and the access is repeated. -/

namespace Ucore.Pmm
open Vmm

/-- `copy_range` for an area, as `dup_mmap` calls it. -/
def copyArea (source : PageDir) (s : PageDir × Memory) (vma : Vma) : Kernel ((PageDir × Memory) × Int) := do
  let (dir, m, ret) ← copyRange s.1 source s.2 vma.vmStart vma.vmEnd (vma.vmFlags &&& vmShare ≠ 0)
  pure ((dir, m), ret)

namespace World

/-- The page table after the fault of an access, if there is one. -/
def prepare (w : World) (write : Bool) (tf : Trapframe) : Kernel World :=
  if Blocked (w.dir.entry (vpn tf.badvaddr)) write then do
    let (w, _) ← exceptionHandler w tf
    pure w
  else pure w

def frame (w : World) (addr : Nat) : Frame := pte2page (w.dir.entry (vpn addr))

/-- A load; `none` is the end of the process. -/
def load (w : World) (tf : Trapframe) : Kernel (World × Option (BitVec 8)) := do
  let w ← w.prepare false tf
  if Blocked (w.dir.entry (vpn tf.badvaddr)) false then pure (w, none)
  else pure (w, some (w.memory.data (w.frame tf.badvaddr) (tf.badvaddr % pgSize)))

def putByte (w : World) (addr : Nat) (value : BitVec 8) : World :=
  { w with
    memory := w.memory.setData (w.frame addr)
      (Function.update (w.memory.data (w.frame addr)) (addr % pgSize) value) }

/-- A store, which returns the byte it has written. -/
def store (w : World) (tf : Trapframe) (value : BitVec 8) : Kernel (World × Option (BitVec 8)) := do
  let w ← w.prepare true tf
  if Blocked (w.dir.entry (vpn tf.badvaddr)) true then pure (w, none)
  else pure (w.putByte tf.badvaddr value, some value)

end World

end Ucore.Pmm

namespace Ucore.ForkedSpaces
open Vmm Pmm

inductive Side where
  | parent
  | child
deriving DecidableEq

def Side.other : Side → Side
  | .parent => .child
  | .child => .parent

/-- Two address spaces that share memory and the shared objects. -/
structure State where
  mm : Side → MmStruct
  dir : Side → PageDir
  shmems : RbTree.Ptr → ShmemStruct
  memory : Memory

def State.world (s : State) (side : Side) : World := ⟨s.mm side, s.dir side, s.shmems, s.memory⟩

def State.setWorld (s : State) (side : Side) (w : World) : State :=
  ⟨Function.update s.mm side w.mm, Function.update s.dir side w.dir, w.shmems, w.memory⟩

inductive Op where
  | load (side : Side) (tf : Trapframe)
  | store (side : Side) (tf : Trapframe) (value : BitVec 8)

def Op.side : Op → Side
  | .load side _ => side
  | .store side _ _ => side

def Op.tf : Op → Trapframe
  | .load _ tf => tf
  | .store _ tf _ => tf

def step (s : State) (op : Op) : Kernel (State × Option (BitVec 8)) := do
  let (w, result) ← match op with
    | .load side tf => (s.world side).load tf
    | .store side tf value => (s.world side).store tf value
  pure (s.setWorld op.side w, result)

/-- Loads and stores of the two processes, in any order. -/
def machine (s : State) : Lib.Machine State Op (Option (BitVec 8)) Fault where
  start := (· = s)
  allowed _ op := op.tf.badvaddr < userTop
  step := step

/-- The parent `w` has called `dup_mmap`, which has returned 0. The references of shared objects
are counted in one place for both. -/
def Forks (w : World) (mm : MmStruct) (dir : PageDir) (allocs : List Alloc) (s : State) : Prop :=
  ∃ next pages, dupMmap (copyArea w.dir) allocs mm w.mm (dir, w.memory) = .ok (next, pages, 0) ∧
    s = ⟨fun side => match side with
      | .parent => { w.mm with shmems := next.shmems }
      | .child => next, fun side => match side with
      | .parent => w.dir
      | .child => pages.1, w.shmems, pages.2⟩

end Ucore.ForkedSpaces
