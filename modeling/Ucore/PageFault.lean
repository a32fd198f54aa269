import Ucore.Shmem

/-! The page fault handler: `do_pgfault` with the paths for first touches, shared pages,
pages in the swap space and copy-on-write, and the trap code that calls it. It runs
under the lock of the address space. -/

namespace Ucore.Pmm
open Lib Vmm RbTree

def vmExec : BitVec 32 := 0x4
def vmStack : BitVec 32 := 0x8
def vmIO : BitVec 32 := 0x4000

/-- What the handler works on: the areas of an address space, its page directory, the
tables of shared objects, and memory. -/
structure World where
  mm : MmStruct
  dir : PageDir
  shmems : Ptr → ShmemStruct
  memory : Memory

/-- The `switch` over the low bits of the error code: 0 is a read, 1 fails, and 2 and 3 are writes.
-/
def Permitted (flags : BitVec 32) (error : BitVec 64) : Prop :=
  error &&& 3 = 0 ∧ flags &&& (vmRead ||| vmExec) ≠ 0 ∨ error &&& 3 ≠ 0 ∧ error &&& 3 ≠ 1 ∧ flags &&& vmWrite ≠ 0
deriving Decidable

/-- The permissions of an area's pages. -/
def faultPerm (flags : BitVec 32) : Perm :=
  let perm : Perm := 0x12
  let perm := if flags &&& vmWrite ≠ 0 then perm ||| 0x16 else perm
  if flags &&& vmExec ≠ 0 then perm ||| 0x8 else perm

/-- `ptep_unset_s_write` on permissions. -/
def unsetWrite (perm : Perm) : Perm := perm &&& ~~~0x4

namespace World

/-- A first touch of a page of a private area. -/
def touchPrivate (w : World) (page : Nat) (perm : Perm) : Kernel (World × Int) := do
  let (dir, memory, given) ← pgdirAllocPage w.dir w.memory page perm
  match given with
  | none => pure ({ w with dir, memory }, -eNoMem)
  | some _ => pure ({ w with dir, memory }, 0)

/-- The page gets what the slot of the object has. The result of `page_insert` is ignored;
for an entry in the swap space the code duplicates the old entry of the page. -/
def mapSlot (w : World) (page : Nat) (perm : Perm) (entry : Pte) : Kernel (World × Int) :=
  if Present entry then do
    let (dir, memory, _) ← pageInsert w.dir w.memory (pte2page entry) page perm
    pure ({ w with dir, memory }, 0)
  else if w.memory.swap.enabled then do
    let memory ← swapDuplicate w.memory (w.dir.pte page)
    pure ({ w with dir := w.dir.setPte page entry, memory }, 0)
  else .error (.panic "NO SWAP\n")

/-- A first touch of a page of a shared area. -/
def touchShared (w : World) (vma : Vma) (addr : Nat) (perm : Perm) : Kernel (World × Int) :=
  match vma.shmem with
  | none => .error (.nullPointer "lock_shmem(vma->shmem)")
  | some object => do
    let (shmem, memory, slot) ← shmemGetEntry (w.shmems object) w.memory (wrap (addr - vma.vmStart + vma.shmemOff)) true
    let w := { w with shmems := Function.update w.shmems object shmem, memory }
    match slot with
    | none => pure (w, -eNoMem)
    | some slot => if shmem.entry slot = 0 then pure (w, -eNoMem) else mapSlot w (vpn addr) perm (shmem.entry slot)

/-- The frame goes into the page table, and the frame for a copy goes back if it was not used. -/
def insertFrame (w : World) (memory : Memory) (f : Frame) (newpage : Option Frame) (page : Nat)
    (perm : Perm) : Kernel (World × Int) := do
  let (dir, memory, _) ← pageInsert w.dir memory f page perm
  let memory ← freeUnused memory newpage
  pure ({ w with dir, memory }, 0)

/-- Copy-on-write: a frame with other references is copied first. Without a frame for
the copy the handler returns what `ret` has at this point. -/
def copyOnWrite (w : World) (memory : Memory) (f : Frame) (newpage : Option Frame) (page : Nat) (perm : Perm) (ret : Int) :
    Kernel (World × Int) := do
  let count ← swapPageCount memory f
  if memory.ref f + count > 1 then
    match newpage with
    | none => pure ({ w with memory }, ret)
    | some copy => insertFrame w (memory.setData copy (memory.data f)) copy none page perm
  else insertFrame w memory f newpage page perm

/-- `newpage` is taken from the allocator before it is known whether it will be needed. -/
def takeNewpage (memory : Memory) (cow : Bool) : Memory × Option Frame := if cow then memory.allocPage else (memory, none)

/-- A page whose entry is in the swap space. -/
def swapIn (w : World) (memory : Memory) (newpage : Option Frame) (error : BitVec 64) (page : Nat)
    (perm : Perm) (cow : Bool) :
    Kernel (World × Int) :=
  if w.memory.swap.enabled then do
    let (memory, ret, given) ← swapInPage memory (w.dir.pte page)
    match given with
    | none => do
      let memory ← freeUnused memory newpage
      pure ({ w with memory }, ret)
    | some f =>
      if error &&& 2 = 0 ∧ cow then insertFrame w memory f newpage page (unsetWrite perm)
      else if cow then copyOnWrite w memory f newpage page perm 0
      else insertFrame w memory f newpage page perm
  else .error (.assertion "0")

/-- A page that has an entry. -/
def replacePage (w : World) (vma : Vma) (error : BitVec 64) (page : Nat) (perm : Perm) : Kernel (World × Int) := do
  let cow := decide (vma.vmFlags &&& (vmShare ||| vmWrite) = vmWrite)
  let pte := w.dir.pte page
  ensure (¬ Present pte ∨ error &&& 2 ≠ 0 ∧ ¬ UWrite pte ∧ cow) "0"
  let (memory, newpage) := takeNewpage w.memory cow
  if Present pte then
    if cow then copyOnWrite w memory (pte2page pte) newpage page perm (-eNoMem)
    else insertFrame w memory (pte2page pte) newpage page perm
  else swapIn w memory newpage error page perm cow

/-- `do_pgfault` from `get_pte` on. -/
def faultPage (w : World) (vma : Vma) (error : BitVec 64) (addr : Nat) : Kernel (World × Int) :=
  let perm := faultPerm vma.vmFlags
  match getPte w.dir w.memory (vpn addr) true with
  | (dir, memory, false) => pure ({ w with dir, memory }, -eNoMem)
  | (dir, memory, true) =>
    let w := { w with dir, memory }
    if dir.pte (vpn addr) = 0 then
      if vma.vmFlags &&& vmShare = 0 then w.touchPrivate (vpn addr) perm else w.touchShared vma addr perm
    else w.replacePage vma error (vpn addr) perm

/-- The tests of `do_pgfault` on the area. -/
def Rejects (vma : Vma) (error : BitVec 64) (addr : Nat) : Prop :=
  vma.vmStart > addr ∨ vma.vmFlags &&& vmStack ≠ 0 ∧ addr < vma.vmStart + pgSize ∨ vma.vmFlags &&& vmIO ≠ 0 ∨
    ¬ Permitted vma.vmFlags error
deriving Decidable

/-- `do_pgfault` for an address space that is not `NULL`. -/
def doPgfault (w : World) (error : BitVec 64) (addr : Nat) : Kernel (World × Int) := do
  let (mm, found) ← findVma w.mm addr
  let w := { w with mm }
  match found with
  | none => pure (w, -eInval)
  | some p => if Rejects (mm.vmas p) error addr then pure (w, -eInval) else w.faultPage (mm.vmas p) error (roundDown addr)

end World

/-- The page table does not let an access through. -/
def Blocked (pte : Pte) (write : Bool) : Prop := ¬ (Present pte ∧ if write then UWrite pte else URead pte)
deriving Decidable

structure Trapframe where
  status : BitVec 64
  badvaddr : Nat

def Trapframe.InKernel (tf : Trapframe) : Prop := tf.status &&& 0x100 ≠ 0
deriving Decidable

/-- `pgfault_handler` for a process with an address space, after the self tests. -/
def pgfaultHandler (w : World) (tf : Trapframe) : Kernel (World × Int) :=
  if ¬ tf.InKernel ∧ ¬ UserAccess tf.badvaddr (wrap (tf.badvaddr + 1)) then pure (w, -1)
  else w.doPgfault (tf.status ||| 3) tf.badvaddr

/-- `exception_handler` for a page fault of a load or a store. The flag tells that the
process has been killed. -/
def exceptionHandler (w : World) (tf : Trapframe) : Kernel (World × Bool) := do
  let (w, ret) ← pgfaultHandler w tf
  if ret ≠ 0 then
    if tf.InKernel then .error (.panic "handle pgfault failed in kernel mode. ret=%d\n") else pure (w, true)
  else pure (w, false)

/-- The loop of `user_mem_check`. -/
def checkAreas (write : Bool) (stop : Nat) : Nat → MmStruct → Nat → Kernel (MmStruct × Bool)
  | 0, _, _ => .error .exhausted
  | fuel + 1, mm, start =>
    if start < stop then do
      let (mm, found) ← findVma mm start
      match found with
      | none => pure (mm, false)
      | some p =>
        let vma := mm.vmas p
        if start < vma.vmStart then pure (mm, false)
        else if vma.vmFlags &&& (if write then vmWrite else vmRead) = 0 then pure (mm, false)
        else if write ∧ vma.vmFlags &&& vmStack ≠ 0 ∧ start < vma.vmStart + pgSize then pure (mm, false)
        else checkAreas write stop fuel mm vma.vmEnd
    else pure (mm, true)

def userMemCheck (mm : MmStruct) (addr len : Nat) (write : Bool) : Kernel (MmStruct × Bool) :=
  if ¬ UserAccess addr (wrap (addr + len)) then pure (mm, false)
  else checkAreas write (wrap (addr + len)) (mm.mmapList.length + 2) mm addr

end Ucore.Pmm
