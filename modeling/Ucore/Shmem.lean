import Ucore.Pmm

/-! The pages of shared objects. An object has tables of entries in a list that is
ordered by the offsets they serve. As in page directories, all entries of an object
are indexed by the page they serve, so that a table is the entries of its range. -/

namespace Ucore.Pmm
open Lib Vmm

/-- The table of the offsets from `start` to `stop`, with the frame of its entries. -/
structure Shmn where
  start : Nat
  stop : Nat
  page : Frame
deriving DecidableEq

structure ShmemStruct where
  shmnList : List Shmn
  shmnCache : Option Shmn
  len : Nat
  entry : Nat → Pte

def Shmn.span (shmn : Shmn) : Span := ⟨shmn.start, shmn.stop⟩

/-- The slot lies in one of the tables. -/
def Tabled (shmem : ShmemStruct) (slot : Nat) : Prop := ∃ shmn ∈ shmem.shmnList, shmn.span.Covers (slot * pgSize)
deriving Decidable

/-- The entry of a slot, or zero where there is no table. -/
def slotEntry (shmem : ShmemStruct) (slot : Nat) : Pte := if Tabled shmem slot then shmem.entry slot else 0

def shmemCreate (len : Nat) : ShmemStruct := ⟨[], none, len, fun _ => 0⟩

def ShmemStruct.setEntry (shmem : ShmemStruct) (slot : Nat) (pte : Pte) : ShmemStruct :=
  { shmem with entry := Function.update shmem.entry slot pte }

/-- The entries of a new table are zero. -/
def ShmemStruct.clearTable (shmem : ShmemStruct) (start : Nat) : ShmemStruct :=
  { shmem with entry := fun slot => if slot / nPteEntry = start / ptSize then 0 else shmem.entry slot }

/-- `shmn_create`, where `none` stands for `NULL`. -/
def shmnCreate (shmem : ShmemStruct) (m : Memory) (start : Nat) : Kernel (ShmemStruct × Memory × Option Shmn) := do
  ensure (start % pgSize * nPteEntry = 0) "start % PGSIZE * SHMN_NENTRY == 0"
  match m.kmalloc with
  | (m, false) => pure (shmem, m, none)
  | (m, true) =>
    match m.allocPage with
    | (m, none) => pure (shmem, m, none)
    | (m, some f) => pure (shmem.clearTable start, m, some ⟨start, start + pgSize * nPteEntry, f⟩)

/-- `shmem_remove_entry_pte`: what losing an entry does to memory. -/
def shmemRemoveEntryPte (m : Memory) (pte : Pte) : Kernel Memory :=
  if Present pte then
    let f := pte2page pte
    if ¬ m.PageSwap f then
      let m := m.refAdd f (-1)
      if m.ref f = 0 then m.freePage f else pure m
    else
      let m := if Dirty pte then m.setPageDirty f else m
      pure (m.refAdd f (-1))
  else if pte ≠ 0 then
    if m.swap.enabled then swapRemoveEntry m pte else .error (.assertion "0")
  else pure m

/-- The same through the pointer to a slot. -/
def removeSlot (s : ShmemStruct × Memory) (slot : Nat) : Kernel (ShmemStruct × Memory) := do
  let m ← shmemRemoveEntryPte s.2 (s.1.entry slot)
  pure (s.1.setEntry slot 0, m)

def shmnDestroy (s : ShmemStruct × Memory) (shmn : Shmn) : Kernel (ShmemStruct × Memory) := do
  let s ← (List.range' (shmn.start / pgSize) nPteEntry).foldlM removeSlot s
  let m ← s.2.freePage shmn.page
  pure (s.1, m)

def findShmn (shmem : ShmemStruct) (addr : Nat) : ShmemStruct × Option Shmn :=
  match shmem.shmnCache.filter fun shmn => shmn.span.Covers addr with
  | some shmn => (shmem, some shmn)
  | none =>
    match shmem.shmnList.find? fun shmn => shmn.span.Covers addr with
    | some shmn => ({ shmem with shmnCache := some shmn }, some shmn)
    | none => (shmem, none)

def checkShmnOverlap (prev next : Shmn) : Kernel Unit := do
  ensure (prev.start < prev.stop) "prev->start < prev->end"
  ensure (prev.stop ≤ next.start) "prev->end <= next->start"
  ensure (next.start < next.stop) "next->start < next->end"

/-- A check that is left out where the place is the head of the list. -/
def unlessListHead (place : Option Shmn) (check : Shmn → Kernel Unit) : Kernel Unit :=
  match place with
  | none => pure ()
  | some shmn => check shmn

def insertShmn (list : List Shmn) (shmn : Shmn) : Kernel (List Shmn) := do
  let before := list.takeWhile fun prev => prev.start ≤ shmn.start
  let later := list.dropWhile fun prev => prev.start ≤ shmn.start
  unlessListHead before.getLast? fun prev => checkShmnOverlap prev shmn
  unlessListHead later.head? fun next => checkShmnOverlap shmn next
  pure (before ++ shmn :: later)

/-- The loop of `shmem_destroy`. -/
def destroyShmns : ShmemStruct × Memory → List Shmn → Kernel (ShmemStruct × Memory)
  | s, [] => pure s
  | s, shmn :: rest => do
    let s ← shmnDestroy ({ s.1 with shmnList := rest }, s.2) shmn
    destroyShmns s rest

/-- `shmem_destroy` without the freeing of the object itself. -/
def shmemDestroy (s : ShmemStruct × Memory) : Kernel (ShmemStruct × Memory) := destroyShmns s s.1.shmnList

/-- The part of `shmem_get_entry` that finds or makes the table. -/
def getShmn (shmem : ShmemStruct) (m : Memory) (addr : Nat) (create : Bool) : Kernel (ShmemStruct × Memory × Option Shmn) :=
  match findShmn shmem addr with
  | (shmem, some shmn) => do
    ensure (shmn.start ≤ addr ∧ addr < shmn.stop) "shmn == NULL || (shmn->start <= addr && addr < shmn->end)"
    pure (shmem, m, some shmn)
  | (shmem, none) =>
    if create = false then pure (shmem, m, none)
    else do
      match ← shmnCreate shmem m (addr - addr % (pgSize * nPteEntry)) with
      | (shmem, m, none) => pure (shmem, m, none)
      | (shmem, m, some shmn) => do
        let list ← insertShmn shmem.shmnList shmn
        pure ({ shmem with shmnList := list }, m, some shmn)

/-- The part of `shmem_get_entry` that gives an empty slot a page. -/
def fillSlot (shmem : ShmemStruct) (m : Memory) (slot : Nat) (create : Bool) : ShmemStruct × Memory :=
  if shmem.entry slot = 0 ∧ create then
    match m.allocPage with
    | (m, none) => (shmem, m)
    | (m, some f) => (shmem.setEntry slot (ptepMap (page2pa f)), m.refAdd f 1)
  else (shmem, m)

/-- `shmem_get_entry`, with the slot that the pointer is for. -/
def shmemGetEntry (shmem : ShmemStruct) (m : Memory) (addr : Nat) (create : Bool) :
    Kernel (ShmemStruct × Memory × Option Nat) := do
  ensure (addr < shmem.len) "addr < shmem->len"
  match ← getShmn shmem m (roundDown addr) create with
  | (shmem, m, none) => pure (shmem, m, none)
  | (shmem, m, some shmn) =>
    let slot := shmn.start / pgSize + (roundDown addr - shmn.start) / pgSize
    let (shmem, m) := fillSlot shmem m slot create
    pure (shmem, m, some slot)

/-- What `shmem_insert_entry` does for the frame or the swap entry it inserts. -/
def holdEntry (m : Memory) (pte : Pte) : Kernel Memory :=
  if Present pte then pure (m.refAdd (pte2page pte) 1)
  else if pte ≠ 0 then
    if m.swap.enabled then swapDuplicate m pte else .error (.assertion "0")
  else pure m

/-- `if (!ptep_invalid(ptep)) shmem_remove_entry_pte(ptep)` -/
def dropEntry (m : Memory) (pte : Pte) : Kernel Memory := if pte ≠ 0 then shmemRemoveEntryPte m pte else pure m

def shmemInsertEntry (shmem : ShmemStruct) (m : Memory) (addr : Nat) (pte : Pte) : Kernel (ShmemStruct × Memory × Int) := do
  match ← shmemGetEntry shmem m addr true with
  | (shmem, m, none) => pure (shmem, m, -eNoMem)
  | (shmem, m, some slot) => do
    let m ← dropEntry m (shmem.entry slot)
    let m ← holdEntry m pte
    pure (shmem.setEntry slot pte, m, 0)

def shmemRemoveEntry (shmem : ShmemStruct) (m : Memory) (addr : Nat) : Kernel (ShmemStruct × Memory × Int) :=
  shmemInsertEntry shmem m addr 0

inductive TableOp where
  | get (create : Bool)
  | insert (pte : Pte)
  | remove

/-- What a call returns: the slot that the pointer is for, or a number. -/
inductive Answer where
  | slot (slot : Option Nat)
  | ret (ret : Int)

/-- The calls on one object for an offset. -/
def tables : Machine (ShmemStruct × Memory) (Nat × TableOp) Answer Fault where
  start s := ∃ len, s.1 = shmemCreate len
  allowed s op := op.1 < s.1.len
  step s
    | (addr, .get create) => do
      let (shmem, m, slot) ← shmemGetEntry s.1 s.2 addr create
      pure ((shmem, m), .slot slot)
    | (addr, .insert pte) => do
      let (shmem, m, ret) ← shmemInsertEntry s.1 s.2 addr pte
      pure ((shmem, m), .ret ret)
    | (addr, .remove) => do
      let (shmem, m, ret) ← shmemRemoveEntry s.1 s.2 addr
      pure ((shmem, m), .ret ret)

end Ucore.Pmm
