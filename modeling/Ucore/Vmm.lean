import Ucore.Error
import Ucore.RbTree
import Ucore.Lib.Ring
import Ucore.Lib.Spans

/-! Address spaces: the list of mapped areas with its search tree and its cache,
and the calls that map, unmap and grow ranges of user addresses. -/

namespace Ucore.Vmm
open Lib RbTree Function

def pgSize : Nat := 4096
def userBase : Nat := 0x200000
def userTop : Nat := 0x4000000000
def rbMinMapCount : Nat := 32

/-- Addresses and lengths are 64-bit words. -/
def wrap (value : Nat) : Nat := value % 2 ^ 64

def roundDown (addr : Nat) : Nat := addr - addr % pgSize
def roundUp (addr : Nat) : Nat := roundDown (wrap (addr + pgSize - 1))

def UserAccess (start stop : Nat) : Prop := userBase ≤ start ∧ start < stop ∧ stop ≤ userTop
deriving Decidable

def vmRead : BitVec 32 := 0x1
def vmWrite : BitVec 32 := 0x2
def vmShare : BitVec 32 := 0x10

structure Vma where
  vmStart : Nat
  vmEnd : Nat
  vmFlags : BitVec 32
  shmem : Option Ptr
  shmemOff : Nat
deriving DecidableEq

def Vma.span (vma : Vma) : Span := ⟨vma.vmStart, vma.vmEnd⟩

structure Shmem where
  len : Nat
  shmemRef : Int
  /-- How often `shmem_destroy` was called for the object. -/
  destroys : Nat

/-- An address space with the memory its areas live in. The red-black links are
fields of the areas; `pgdir` gives the entry of every user page. -/
structure MmStruct where
  vmas : Ptr → Vma
  links : RbTree.Heap
  shmems : Ptr → Shmem
  pgdir : Nat → BitVec 64
  mmapList : List Ptr
  mmapTree : Option Header
  mmapCache : Option Ptr
  mapCount : Nat
  brkStart : Nat
  brk : Nat

/-- What `kmalloc` returns during a call, in the places that ask for memory. -/
structure Alloc where
  nvma : Option Ptr
  vma : Option Ptr
  tree : Option Header

def MmStruct.span (mm : MmStruct) (p : Ptr) : Span := (mm.vmas p).span

def MmStruct.setVma (mm : MmStruct) (p : Ptr) (vma : Vma) : MmStruct :=
  { mm with vmas := update mm.vmas p vma }

/-- Bound of the loops over the tree. -/
def MmStruct.fuel (mm : MmStruct) : Nat := mm.mapCount + 2

def mmCreate (mm : MmStruct) : MmStruct :=
  { mm with mmapList := [], mmapTree := none, mmapCache := none, mapCount := 0, brkStart := 0, brk := 0 }

def vmaCreate (mm : MmStruct) (p : Ptr) (start stop : Nat) (flags : BitVec 32) : MmStruct :=
  mm.setVma p ⟨start, stop, flags, none, 0⟩

def shmemRefAdd (mm : MmStruct) (shmem : Ptr) (amount : Int) : MmStruct :=
  let object := mm.shmems shmem
  { mm with shmems := update mm.shmems shmem { object with shmemRef := object.shmemRef + amount } }

/-- `if (shmem_ref_dec(vma->shmem) == 0) shmem_destroy(vma->shmem)` -/
def shmemRelease (shmems : Ptr → Shmem) (shmem : Ptr) : Ptr → Shmem :=
  let object := shmems shmem
  let ref := object.shmemRef - 1
  update shmems shmem
    { object with shmemRef := ref, destroys := if ref = 0 then object.destroys + 1 else object.destroys }

/-- `vma_destroy`. A shared area without an object sends a null pointer to
`shmem_ref_dec`. -/
def vmaDestroy (mm : MmStruct) (p : Ptr) : Kernel MmStruct :=
  if (mm.vmas p).vmFlags &&& vmShare ≠ 0 then
    match (mm.vmas p).shmem with
    | none => .error (.nullPointer "shmem_ref_dec(vma->shmem)")
    | some shmem => pure { mm with shmems := shmemRelease mm.shmems shmem }
  else pure mm

def findVmaRb (tree : Header) (mm : MmStruct) (addr : Nat) : Nat → Ptr → Kernel (Option Ptr)
  | 0, _ => .error .exhausted
  | fuel + 1, node =>
    if node = tree.nil then pure none
    else if addr < (mm.vmas node).vmEnd then
      if (mm.vmas node).vmStart ≤ addr then pure (some node)
      else findVmaRb tree mm addr fuel (mm.links node).left
    else findVmaRb tree mm addr fuel (mm.links node).right

/-- The part of `find_vma` that runs when the cache does not have the answer. -/
def searchVma (mm : MmStruct) (addr : Nat) : Kernel (Option Ptr) :=
  match mm.mmapTree with
  | some tree => findVmaRb tree mm addr mm.fuel (mm.links tree.root).left
  | none => pure (mm.mmapList.find? fun p => decide ((mm.span p).Covers addr))

def lookupVma (mm : MmStruct) (addr : Nat) : Kernel (Option Ptr) :=
  match mm.mmapCache with
  | some p => if (mm.span p).Covers addr then pure (some p) else searchVma mm addr
  | none => searchVma mm addr

def findVma (mm : MmStruct) (addr : Nat) : Kernel (MmStruct × Option Ptr) := do
  let found ← lookupVma mm addr
  match found with
  | some p => pure ({ mm with mmapCache := some p }, some p)
  | none => pure (mm, none)

def findVmaIntersection (mm : MmStruct) (start stop : Nat) : Kernel (MmStruct × Option Ptr) := do
  let (mm, found) ← findVma mm start
  match found with
  | some p => pure (mm, if stop ≤ (mm.vmas p).vmStart then none else some p)
  | none => pure (mm, none)

def vmaCompare (vmas : Ptr → Vma) (a b : Ptr) : Int :=
  if (vmas a).vmStart < (vmas b).vmStart then -1 else if (vmas a).vmStart > (vmas b).vmStart then 1 else 0

def checkVmaOverlap (prev next : Vma) : Kernel Unit := do
  ensure (prev.vmStart < prev.vmEnd) "prev->vm_start < prev->vm_end"
  ensure (prev.vmEnd ≤ next.vmStart) "prev->vm_end <= next->vm_start"
  ensure (next.vmStart < next.vmEnd) "next->vm_start < next->vm_end"

/-- `insert_vma_rb` with a place for the previous area. -/
def insertVmaRb (mm : MmStruct) (tree : Header) (p : Ptr) : Kernel (RbTree.Heap × Option Ptr) := do
  let links ← RbTree.insert (vmaCompare mm.vmas) tree mm.fuel p mm.links
  let prev ← RbTree.predecessor tree mm.fuel links p
  pure (links, if prev = tree.nil then none else some prev)

/-- The loop over the list in `insert_vma_struct`. -/
def lastNotAfter (vmas : Ptr → Vma) (start : Nat) : List Ptr → Option Ptr → Option Ptr
  | [], prev => prev
  | p :: rest, prev => if (vmas p).vmStart > start then prev else lastNotAfter vmas start rest (some p)

def placeVma (mm : MmStruct) (p : Ptr) : Kernel (RbTree.Heap × Option Ptr) :=
  match mm.mmapTree with
  | some tree => insertVmaRb mm tree p
  | none => pure (mm.links, lastNotAfter mm.vmas (mm.vmas p).vmStart mm.mmapList none)

/-- `insert_vma_rb` for every area of the list, into a new tree. -/
def insertAll (mm : MmStruct) (tree : Header) : List Ptr → RbTree.Heap → Kernel RbTree.Heap
  | [], links => pure links
  | p :: rest, links => do
    let links ← RbTree.insert (vmaCompare mm.vmas) tree mm.fuel p links
    insertAll mm tree rest links

def buildTree (alloc : Alloc) (mm : MmStruct) : Kernel MmStruct :=
  if mm.mmapTree = none ∧ mm.mapCount ≥ rbMinMapCount then
    match alloc.tree with
    | none => pure mm
    | some tree => do
      let links ← insertAll mm tree mm.mmapList (treeCreate mm.links tree.nil tree.root)
      pure { mm with links, mmapTree := some tree }
  else pure mm

/-- `if (le != list)` around a check. -/
def unlessHead (place : Option Ptr) (check : Ptr → Kernel Unit) : Kernel Unit :=
  match place with
  | some q => check q
  | none => pure ()

/-- The overlap checks of `insert_vma_struct` against the neighbours of a place. -/
def checkNeighbours (mm : MmStruct) (p : Ptr) (prev next : Option Ptr) : Kernel Unit := do
  unlessHead prev fun q => checkVmaOverlap (mm.vmas q) (mm.vmas p)
  unlessHead next fun q => checkVmaOverlap (mm.vmas p) (mm.vmas q)

def insertVmaStruct (alloc : Alloc) (mm : MmStruct) (p : Ptr) : Kernel MmStruct := do
  ensure ((mm.vmas p).vmStart < (mm.vmas p).vmEnd) "vma->vm_start < vma->vm_end"
  let (links, prev) ← placeVma mm p
  checkNeighbours mm p prev (Ring.next mm.mmapList prev)
  buildTree alloc { mm with links, mmapList := Ring.addAfter mm.mmapList prev p, mapCount := mm.mapCount + 1 }

/-- The removal from the tree in `remove_vma_struct`. -/
def deleteVmaRb (mm : MmStruct) (p : Ptr) : Kernel RbTree.Heap :=
  match mm.mmapTree with
  | some tree => RbTree.delete tree mm.fuel p mm.links
  | none => pure mm.links

def removeVmaStruct (mm : MmStruct) (p : Ptr) : Kernel MmStruct := do
  let links ← deleteVmaRb mm p
  pure { mm with links, mmapList := mm.mmapList.erase p
                 mmapCache := if mm.mmapCache = some p then none else mm.mmapCache, mapCount := mm.mapCount - 1 }

/-- The end of `mm_map`, once the range is known to be free at its start. -/
def mapRange (alloc : Alloc) (mm : MmStruct) (start stop : Nat) (flags : BitVec 32) :
    Kernel (MmStruct × Int × Option Ptr) :=
  match alloc.vma with
  | none => pure (mm, -eNoMem, none)
  | some p => do
    let mm ← insertVmaStruct alloc (vmaCreate mm p start stop (flags &&& ~~~vmShare)) p
    pure (mm, 0, some p)

/-- `mm_map`, which also stores the new area. -/
def mmMap (alloc : Alloc) (mm : MmStruct) (addr len : Nat) (flags : BitVec 32) :
    Kernel (MmStruct × Int × Option Ptr) :=
  let start := roundDown addr
  let stop := roundUp (wrap (addr + len))
  if ¬ UserAccess start stop then pure (mm, -eInval, none)
  else do
    let (mm, found) ← findVma mm start
    match found with
    | some p => if stop > (mm.vmas p).vmStart then pure (mm, -eInval, none) else mapRange alloc mm start stop flags
    | none => mapRange alloc mm start stop flags

def mmMapShmem (alloc : Alloc) (mm : MmStruct) (addr : Nat) (flags : BitVec 32) (shmem : Option Ptr) :
    Kernel (MmStruct × Int) :=
  match shmem with
  | none => pure (mm, -eInval)
  | some shmem =>
    if addr % pgSize ≠ 0 then pure (mm, -eInval)
    else do
      let mm := shmemRefAdd mm shmem 1
      let (mm, ret, vma) ← mmMap alloc mm addr (mm.shmems shmem).len flags
      match vma with
      | none => pure (shmemRefAdd mm shmem (-1), ret)
      | some p =>
        pure (mm.setVma p { mm.vmas p with
          shmem := some shmem, shmemOff := 0, vmFlags := (mm.vmas p).vmFlags ||| vmShare }, 0)

/-- The assignments of `vma_resize`. -/
def Vma.resized (vma : Vma) (start stop : Nat) : Vma :=
  { vma with
    vmStart := start
    vmEnd := stop
    shmemOff := if vma.vmFlags &&& vmShare ≠ 0 then wrap (vma.shmemOff + (start - vma.vmStart)) else vma.shmemOff }

def vmaResize (mm : MmStruct) (p : Ptr) (start stop : Nat) : Kernel MmStruct := do
  let vma := mm.vmas p
  ensure (start % pgSize = 0 ∧ stop % pgSize = 0) "start % PGSIZE == 0 && end % PGSIZE == 0"
  ensure (vma.vmStart ≤ start ∧ start < stop ∧ stop ≤ vma.vmEnd)
    "vma->vm_start <= start && start < end && end <= vma->vm_end"
  pure (mm.setVma p (vma.resized start stop))

/-- The walk of `unmap_range` removes the entry of every page of the range. -/
def MmStruct.clearPages (mm : MmStruct) (start stop : Nat) : MmStruct :=
  { mm with pgdir := fun page => if start ≤ page * pgSize ∧ page * pgSize < stop then 0 else mm.pgdir page }

def unmapRange (mm : MmStruct) (start stop : Nat) : Kernel MmStruct := do
  ensure (start % pgSize = 0 ∧ stop % pgSize = 0) "start % PGSIZE == 0 && end % PGSIZE == 0"
  ensure (UserAccess start stop) "USER_ACCESS(start, end)"
  pure (mm.clearPages start stop)

/-- `mm_unmap` for a range strictly inside the area `p`. -/
def unmapInside (alloc : Alloc) (mm : MmStruct) (p : Ptr) (start stop : Nat) : Kernel (MmStruct × Int) :=
  match alloc.nvma with
  | none => pure (mm, -eNoMem)
  | some nvma => do
    let mm := vmaCreate mm nvma (mm.vmas p).vmStart start (mm.vmas p).vmFlags
    let mm ← vmaResize mm p stop (mm.vmas p).vmEnd
    let mm ← insertVmaStruct alloc mm nvma
    let mm ← unmapRange mm start stop
    pure (mm, 0)

/-- The first loop of `mm_unmap` moves the areas that start before `stop` to the
front of `freeList`. -/
def detachVmas (stop : Nat) : Nat → MmStruct → Ptr → List Ptr → Kernel (MmStruct × List Ptr)
  | 0, _, _, _ => .error .exhausted
  | fuel + 1, mm, p, freeList =>
    if (mm.vmas p).vmStart < stop then do
      let next := Ring.next mm.mmapList (some p)
      let mm ← removeVmaStruct mm p
      match next with
      | none => pure (mm, p :: freeList)
      | some q => detachVmas stop fuel mm q (p :: freeList)
    else pure (mm, freeList)

/-- What is left of a detached area goes back. -/
def reinsertVma (alloc : Alloc) (mm : MmStruct) (p : Ptr) (start stop : Nat) : Kernel MmStruct := do
  let mm ← vmaResize mm p start stop
  insertVmaStruct alloc mm p

/-- The body of the second loop of `mm_unmap`. -/
def restoreVma (alloc : Alloc) (start stop : Nat) (mm : MmStruct) (p : Ptr) : Kernel MmStruct :=
  let vma := mm.vmas p
  if vma.vmStart < start then do
    let mm ← reinsertVma alloc mm p vma.vmStart start
    unmapRange mm start vma.vmEnd
  else if stop < vma.vmEnd then do
    let mm ← reinsertVma alloc mm p stop vma.vmEnd
    unmapRange mm vma.vmStart stop
  else do
    let mm ← vmaDestroy mm p
    unmapRange mm vma.vmStart vma.vmEnd

def restoreVmas (alloc : Alloc) (start stop : Nat) : MmStruct → List Ptr → Kernel MmStruct
  | mm, [] => pure mm
  | mm, p :: rest => do
    let mm ← restoreVma alloc start stop mm p
    restoreVmas alloc start stop mm rest

/-- `mm_unmap` for a range that starts inside the area `p`. -/
def unmapFrom (alloc : Alloc) (mm : MmStruct) (p : Ptr) (start stop : Nat) : Kernel (MmStruct × Int) :=
  if (mm.vmas p).vmStart < start ∧ stop < (mm.vmas p).vmEnd then unmapInside alloc mm p start stop
  else do
    let (mm, freeList) ← detachVmas stop mm.fuel mm p []
    let mm ← restoreVmas alloc start stop mm freeList
    pure (mm, 0)

def mmUnmap (alloc : Alloc) (mm : MmStruct) (addr len : Nat) : Kernel (MmStruct × Int) :=
  let start := roundDown addr
  let stop := roundUp (wrap (addr + len))
  if ¬ UserAccess start stop then pure (mm, -eInval)
  else do
    let (mm, found) ← findVma mm start
    match found with
    | none => pure (mm, 0)
    | some p => if stop ≤ (mm.vmas p).vmStart then pure (mm, 0) else unmapFrom alloc mm p start stop

/-- The loop of `get_unmapped_area`, over the areas that are left in descending order. -/
def unmappedBelow (mm : MmStruct) (len : Nat) : List Ptr → Nat → Nat
  | [], start => if start ≥ userBase then start else 0
  | p :: rest, start =>
    if start ≥ (mm.vmas p).vmEnd then start
    else if start + len > (mm.vmas p).vmStart then
      if len ≥ (mm.vmas p).vmStart then 0 else unmappedBelow mm len rest ((mm.vmas p).vmStart - len)
    else unmappedBelow mm len rest start

def getUnmappedArea (mm : MmStruct) (len : Nat) : Nat :=
  if len = 0 ∨ len > userTop then 0 else unmappedBelow mm len mm.mmapList.reverse (userTop - len)

/-- The end of `mm_brk`: the area before the range grows over it, or a new one
is made. `prev` is the area that covers the address before the range. -/
def brkRange (alloc : Alloc) (mm : MmStruct) (prev : Option Ptr) (start stop : Nat) : Kernel (MmStruct × Int) :=
  match prev with
  | some p =>
    if (mm.vmas p).vmEnd = start ∧ (mm.vmas p).vmFlags = vmRead ||| vmWrite then
      pure (mm.setVma p { mm.vmas p with vmEnd := stop }, 0)
    else brkNew
  | none => brkNew
where
  brkNew : Kernel (MmStruct × Int) :=
    match alloc.vma with
    | none => pure (mm, -eNoMem)
    | some p => do
      let mm ← insertVmaStruct alloc (vmaCreate mm p start stop (vmRead ||| vmWrite)) p
      pure (mm, 0)

def mmBrk (alloc : Alloc) (mm : MmStruct) (addr len : Nat) : Kernel (MmStruct × Int) :=
  let start := roundDown addr
  let stop := roundUp (wrap (addr + len))
  if ¬ UserAccess start stop then pure (mm, -eInval)
  else do
    let (mm, ret) ← mmUnmap alloc mm start (stop - start)
    if ret ≠ 0 then pure (mm, ret)
    else do
      let (mm, prev) ← findVma mm (start - 1)
      brkRange alloc mm prev start stop

/-- `do_brk` after the requested value has been read from user memory. -/
def doBrk (alloc : Alloc) (mm : MmStruct) (brk : Nat) : Kernel (MmStruct × Int) :=
  if brk < mm.brkStart then pure (mm, 0)
  else do
    let newbrk := roundUp brk
    let oldbrk := mm.brk
    ensure (oldbrk % pgSize = 0) "oldbrk % PGSIZE == 0"
    if newbrk = oldbrk then pure (mm, 0)
    else if newbrk < oldbrk then do
      let (mm, ret) ← mmUnmap alloc mm newbrk (oldbrk - newbrk)
      pure (if ret ≠ 0 then mm else { mm with brk := newbrk }, 0)
    else do
      let (mm, found) ← findVmaIntersection mm oldbrk (wrap (newbrk + pgSize))
      if found.isSome then pure (mm, 0)
      else do
        let (mm, ret) ← mmBrk alloc mm oldbrk (newbrk - oldbrk)
        pure (if ret ≠ 0 then mm else { mm with brk := newbrk }, 0)

/-- The new area of `dup_mmap` before it is inserted. -/
def dupVma (mm : MmStruct) (nvma : Ptr) (vma : Vma) : Kernel MmStruct :=
  let mm := vmaCreate mm nvma vma.vmStart vma.vmEnd vma.vmFlags
  if vma.vmFlags &&& vmShare ≠ 0 then
    match vma.shmem with
    | none => .error (.nullPointer "shmem_ref_inc(vma->shmem)")
    | some shmem =>
      pure (shmemRefAdd (mm.setVma nvma
        { mm.vmas nvma with shmem := some shmem, shmemOff := vma.shmemOff }) shmem 1)
  else pure mm

/-- The loop of `dup_mmap` over areas that are given in its order. How pages are copied
is left to `copy`, which works on its own state and returns what `copy_range` returns. -/
def dupVmas {σ : Type} (copy : σ → Vma → Kernel (σ × Int)) : List Vma → List Alloc → MmStruct → σ →
    Kernel (MmStruct × σ × Int)
  | [], _, mm, s => pure (mm, s, 0)
  | _, [], mm, s => pure (mm, s, -eNoMem)
  | vma :: rest, alloc :: allocs, mm, s =>
    match alloc.vma with
    | none => pure (mm, s, -eNoMem)
    | some nvma => do
      let mm ← dupVma mm nvma vma
      let mm ← insertVmaStruct alloc mm nvma
      let (s, ret) ← copy s vma
      if ret ≠ 0 then pure (mm, s, -eNoMem) else dupVmas copy rest allocs mm s

/-- `dup_mmap` goes through the areas of the source from the last to the first. -/
def dupMmap {σ : Type} (copy : σ → Vma → Kernel (σ × Int)) (allocs : List Alloc) (mm source : MmStruct) (s : σ) :
    Kernel (MmStruct × σ × Int) :=
  dupVmas copy (source.mmapList.reverse.map source.vmas) allocs mm s

/-- `exit_mmap` without the freeing of the page tables. -/
def exitMmap (mm : MmStruct) : Kernel MmStruct :=
  mm.mmapList.foldlM (fun mm p => unmapRange mm (mm.vmas p).vmStart (mm.vmas p).vmEnd) mm

/-- The loop of `mm_destroy`. -/
def destroyVmas : MmStruct → List Ptr → Kernel MmStruct
  | mm, [] => pure mm
  | mm, p :: rest => do
    let mm ← vmaDestroy { mm with mmapList := rest } p
    destroyVmas mm rest

def mmDestroy (mm : MmStruct) : Kernel MmStruct := destroyVmas { mm with mmapTree := none } mm.mmapList

inductive Call where
  | map (addr len : Nat) (flags : BitVec 32)
  | mapShmem (addr : Nat) (flags : BitVec 32) (shmem : Option Ptr)
  | unmap (addr len : Nat)
  | brk (addr len : Nat)
  | doBrk (brk : Nat)
  /-- `load_icode` sets the break above the segments it has mapped. -/
  | loadBrk (top : Nat)

structure Op where
  call : Call
  alloc : Alloc

def step (mm : MmStruct) (op : Op) : Kernel (MmStruct × Int) :=
  match op.call with
  | .map addr len flags => do
    let (mm, ret, _) ← mmMap op.alloc mm addr len flags
    pure (mm, ret)
  | .mapShmem addr flags shmem => mmMapShmem op.alloc mm addr flags shmem
  | .unmap addr len => mmUnmap op.alloc mm addr len
  | .brk addr len => mmBrk op.alloc mm addr len
  | .doBrk brk => Vmm.doBrk op.alloc mm brk
  | .loadBrk top => pure ({ mm with brkStart := roundUp top, brk := roundUp top }, 0)

/-- Memory that a list or a tree of the address space occupies. -/
def MmStruct.inUse (mm : MmStruct) : List Ptr :=
  match mm.mmapTree with
  | none => mm.mmapList
  | some tree => tree.nil :: tree.root :: mm.mmapList

def Alloc.ptrs (alloc : Alloc) : List Ptr :=
  alloc.nvma.toList ++ alloc.vma.toList ++ alloc.tree.toList.flatMap fun tree => [tree.nil, tree.root]

/-- The allocator hands out distinct memory that is not in use. -/
def Allowed (mm : MmStruct) (op : Op) : Prop := (op.alloc.ptrs ++ mm.inUse).Nodup
deriving Decidable

def machine : Machine MmStruct Op Int Fault where
  start mm := ∃ memory, mm = mmCreate memory
  allowed := Allowed
  step := step

def MmStruct.headers (mm : MmStruct) (alloc : Alloc) : List Ptr :=
  match mm.mmapTree.or alloc.tree with
  | none => []
  | some tree => [tree.nil, tree.root]

/-- Areas outside the list and the tree are in separate memory. -/
def Separate (alloc : Alloc) (outside : List Ptr) (mm : MmStruct) : Prop :=
  (mm.headers alloc ++ (outside ++ mm.mmapList)).Nodup

/-- The changes of the set of areas and the lookups; a new area is at `p`, with the bounds of `vma`.
-/
inductive AreaOp where
  | insert (alloc : Alloc) (p : Ptr) (vma : Vma)
  | remove (p : Ptr)
  | resize (p : Ptr) (start stop : Nat)
  | find (addr : Nat)

/-- A new area is in memory of its own and overlaps no other; `vma_resize` makes an area smaller. -/
def AreaOp.Allowed (mm : MmStruct) : AreaOp → Prop
  | .insert alloc p vma => Separate alloc [p] mm ∧ vma.vmStart < vma.vmEnd ∧ ∀ q ∈ mm.mmapList, vma.span.Apart (mm.span q)
  | .remove p => p ∈ mm.mmapList
  | .resize p start stop => start % pgSize = 0 ∧ stop % pgSize = 0 ∧ Span.Within ⟨start, stop⟩ (mm.span p)
  | .find _ => True

def areas : Machine MmStruct AreaOp (Option Ptr) Fault where
  start mm := ∃ fresh, mm = mmCreate fresh
  allowed := AreaOp.Allowed
  step mm
    | .insert alloc p vma => do pure (← insertVmaStruct alloc (mm.setVma p vma) p, none)
    | .remove p => do pure (← removeVmaStruct mm p, none)
    | .resize p start stop => do pure (← vmaResize mm p start stop, none)
    | .find addr => findVma mm addr

end Ucore.Vmm
