import Ucore.Vmm

/-! The allocator of user programs: one circular list of free blocks in address order, of
private memory from `sys_brk` and of shared memory from `sys_shmem`. The header of a block
is the first of its units. -/

namespace Ucore.Malloc
open Lib

/-- `type` is true for shared memory. -/
structure Header where
  ptr : Nat
  size : Nat
  type : Bool
deriving Repr, DecidableEq

/-- `sizeof(header_t)` -/
def unit : Nat := 64

/-- The memory that the kernel has given to the process: its image, the heap behind it that
ends at `top`, and shared areas. -/
structure Vm where
  image : Nat
  brkStart : Nat
  top : Nat
  shared : List Span

/-- No area of the process meets the range. -/
def Vm.Free (vm : Vm) (start stop : Nat) : Prop :=
  (stop ≤ vm.image ∨ vm.top ≤ start) ∧ ∀ area ∈ vm.shared, stop ≤ area.start ∨ area.stop ≤ start
deriving Decidable

/-- `do_brk`, which reports the new end of the heap; `granted` tells whether there is memory for the
mapping.
Of the areas behind the heap it only sees one that contains its old end. -/
def sysBrk (vm : Vm) (brk : Nat) (granted : Bool) : Vm :=
  if brk < vm.brkStart then vm
  else
    let newbrk := Vmm.roundUp brk
    if newbrk < vm.top then if granted then { vm with top := newbrk } else vm
    else if granted ∧ newbrk ≤ Vmm.userTop ∧ ∀ area ∈ vm.shared, ¬ area.Covers vm.top then { vm with top := newbrk } else vm

/-- `do_shmem` for an address that the kernel chooses among those that are free. -/
def sysShmem (vm : Vm) (len : Nat) : Option Nat → Option (Nat × Vm)
  | none => none
  | some mem =>
    if len ≠ 0 ∧ Vmm.userBase ≤ mem ∧ mem % Vmm.pgSize = 0 ∧ mem + len ≤ Vmm.userTop ∧ vm.Free mem (mem + len) then
      some (mem, { vm with shared := ⟨mem, mem + len⟩ :: vm.shared })
    else none

structure Heap where
  mem : Nat → Header
  freep : Nat
  /-- The static variable of `morecore_brk_locked`. -/
  brk : Nat
  vm : Vm

def Heap.set (h : Heap) (a : Nat) (header : Header) : Heap := { h with mem := Function.update h.mem a header }

/-- The loop of `free_locked`. -/
def findPlace (mem : Nat → Header) (bp : Nat) : Nat → Nat → Kernel Nat
  | 0, _ => throw .exhausted
  | fuel + 1, p =>
    let next := (mem p).ptr
    if bp > p ∧ bp < next then pure p
    else if p ≥ next ∧ (bp > p ∨ bp < next) then pure p
    else findPlace mem bp fuel next

def stop (mem : Nat → Header) (p : Nat) : Nat := p + unit * (mem p).size

/-- `bp->s.type == p->s.ptr->s.type && bp + bp->s.size == p->s.ptr` -/
def Above (mem : Nat → Header) (bp p : Nat) : Prop := (mem bp).type = (mem (mem p).ptr).type ∧ stop mem bp = (mem p).ptr
deriving Decidable

def Below (mem : Nat → Header) (bp p : Nat) : Prop := (mem p).type = (mem bp).type ∧ stop mem p = bp
deriving Decidable

/-- What `free_locked` writes into the freed block. -/
def upper (mem : Nat → Header) (bp p : Nat) : Header :=
  let next := (mem p).ptr
  if Above mem bp p then { mem bp with size := (mem bp).size + (mem next).size, ptr := (mem next).ptr }
  else { mem bp with ptr := next }

/-- What it then writes into the block below. -/
def lower (mem : Nat → Header) (bp p : Nat) : Header :=
  if Below mem bp p then { mem p with size := (mem p).size + (mem bp).size, ptr := (mem bp).ptr }
  else { mem p with ptr := bp }

/-- The part of `free_locked` behind the loop. -/
def join (h : Heap) (bp p : Nat) : Heap :=
  let h := h.set bp (upper h.mem bp p)
  let h := h.set p (lower h.mem bp p)
  { h with freep := p }

section
variable (fuel : Nat)

def freeLocked (h : Heap) (bp : Nat) : Kernel Heap := do
  let p ← findPlace h.mem bp fuel h.freep
  pure (join h bp p)

def morecoreBrkLocked (h : Heap) (nu : Nat) (granted : Bool) : Kernel (Heap × Bool) :=
  let h := if h.brk = 0 then { h with brk := h.vm.top } else h
  let brk := h.brk
  let vm := sysBrk h.vm (Vmm.wrap (brk + nu * unit)) granted
  let h := { h with vm }
  if vm.top ≤ brk then pure (h, false)
  else do
    let h ← freeLocked fuel (h.set brk { h.mem brk with size := (vm.top - brk) / unit, type := false }) brk
    pure ({ h with brk := vm.top }, true)

def morecoreShmemLocked (h : Heap) (nu : Nat) (place : Option Nat) : Kernel (Heap × Bool) :=
  let size := Vmm.roundUp (Vmm.wrap (nu * unit))
  match sysShmem h.vm size place with
  | none => pure (h, false)
  | some (mem, vm) => do
    let h := { h with vm }
    let h ← freeLocked fuel (h.set mem { h.mem mem with size := size / unit, type := true }) mem
    pure (h, true)

/-- What the kernel does is chosen by `answer`: whether it grants memory, and for shared memory
where. -/
def morecore (h : Heap) (nu : Nat) (type : Bool) (answer : Option Nat) : Kernel (Heap × Bool) :=
  if type then morecoreShmemLocked fuel h nu answer else morecoreBrkLocked fuel h nu answer.isSome

/-- The block `p` is used, or the first part of it. -/
def carve (h : Heap) (prevp p nunits : Nat) (type : Bool) : Heap :=
  let block := h.mem p
  let h :=
    if block.size = nunits then h.set prevp { h.mem prevp with ptr := block.ptr }
    else
      let np := p + unit * nunits
      let h := h.set prevp { h.mem prevp with ptr := np }
      let h := h.set np ⟨block.ptr, block.size - nunits, type⟩
      h.set p { h.mem p with size := nunits }
  { h with freep := prevp }

/-- The test of the loop of `malloc_locked`. -/
def Fits (mem : Nat → Header) (nunits : Nat) (type : Bool) (p : Nat) : Prop := (mem p).type = type ∧ (mem p).size ≥ nunits
deriving Decidable

/-- The loop of `malloc_locked`. After `morecore` it goes on behind `p`, not behind the new `freep`.
-/
def mallocLoop (nunits : Nat) (type : Bool) : Nat → Heap → Nat → Nat → List (Option Nat) → Kernel (Heap × Option Nat)
  | 0, _, _, _, _ => throw .exhausted
  | steps + 1, h, prevp, p, answers =>
    if Fits h.mem nunits type p then pure (carve h prevp p nunits type, some (p + unit))
    else if p = h.freep then do
      let (h, more) ← morecore fuel h nunits type (answers.head?.getD none)
      if more then mallocLoop nunits type steps h p (h.mem p).ptr answers.tail
      else pure (h, none)
    else mallocLoop nunits type steps h p (h.mem p).ptr answers

def unitsFor (size : Nat) : Nat := Vmm.wrap (size + unit - 1) / unit + 1

/-- The first call makes a list of `base` alone. -/
def initList (base : Nat) (h : Heap) : Heap :=
  if h.freep = 0 then { h.set base { h.mem base with ptr := base, size := 0 } with freep := base } else h

def mallocLocked (base : Nat) (h : Heap) (size : Nat) (type : Bool) (answers : List (Option Nat)) :
    Kernel (Heap × Option Nat) :=
  let h := initList base h
  mallocLoop fuel (unitsFor size) type fuel h h.freep (h.mem h.freep).ptr answers

end

/-- A block that a caller has got and not freed yet; `addr` is its header. -/
structure Block where
  addr : Nat
  size : Nat
  type : Bool
deriving Repr, DecidableEq

structure Process where
  heap : Heap
  live : List Block

inductive Op where
  | malloc (size : Nat) (type : Bool) (answers : List (Option Nat))
  | free (block : Block)
  /-- The program writes into its blocks. -/
  | fill (mem : Nat → Header)

def step (base fuel : Nat) (s : Process) : Op → Kernel (Process × Option Nat)
  | .malloc size type answers => do
    let (heap, result) ← mallocLocked fuel base s.heap size type answers
    pure (⟨heap, (result.map fun ap => ⟨ap - unit, size, type⟩).toList ++ s.live⟩, result)
  | .free block => do
    let heap ← freeLocked fuel s.heap block.addr
    pure (⟨heap, s.live.erase block⟩, none)
  | .fill mem => pure ({ s with heap := { s.heap with mem } }, none)

/-- Sizes are words, blocks are freed while they are live, and a program keeps to the bytes it has
asked for. -/
def Allowed (s : Process) : Op → Prop
  | .malloc size _ _ => size < 2 ^ 64
  | .free block => block ∈ s.live
  | .fill mem =>
    ∀ a, (∀ block ∈ s.live, a + unit ≤ block.addr + unit ∨ block.addr + unit + block.size ≤ a) →
      mem a = s.heap.mem a

/-- A process starts with an empty heap behind its image, and has not called the allocator. -/
structure Starts (base : Nat) (s : Process) : Prop where
  live : s.live = []
  freep : s.heap.freep = 0
  brk : s.heap.brk = 0
  type : (s.heap.mem base).type = false
  inside : s.heap.vm.image ≤ base ∧ base + unit ≤ s.heap.vm.brkStart
  positive : 0 < base ∧ ∀ area ∈ s.heap.vm.shared, 0 < area.start
  order : s.heap.vm.brkStart ≤ s.heap.vm.top ∧ s.heap.vm.top ≤ Vmm.userTop
  aligned : s.heap.vm.top % Vmm.pgSize = 0

/-- The fuel is part of the input: what is said about a call holds for all sufficient fuel. -/
def machine (base : Nat) : Machine Process (Nat × Op) (Option Nat) Fault where
  start := Starts base
  allowed s input := Allowed s input.2
  step s input := step base input.1 s input.2

end Ucore.Malloc
