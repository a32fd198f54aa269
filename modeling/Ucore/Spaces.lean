import Ucore.Vmm

/-! Several address spaces over the same shared objects. Every call works on one
address space with the common objects; `dup_mmap` reads another one. -/

namespace Ucore.Spaces
open Lib Vmm RbTree Function

structure System where
  live : Finset Nat
  space : Nat → MmStruct
  shmems : Ptr → Shmem

/-- An address space as a call sees it. -/
def System.load (s : System) (i : Nat) : MmStruct := { s.space i with shmems := s.shmems }

def System.store (s : System) (i : Nat) (mm : MmStruct) : System :=
  { s with space := update s.space i mm, shmems := mm.shmems }

inductive Op where
  | create (i : Nat)
  | map (i addr len : Nat) (flags : BitVec 32) (alloc : Alloc)
  | mapShmem (i addr : Nat) (flags : BitVec 32) (shmem : Option Ptr) (alloc : Alloc)
  | unmap (i addr len : Nat) (alloc : Alloc)
  /-- `dup_mmap(to, from)`, with what `copy_range` returns for each area. -/
  | dup (i source : Nat) (allocs : List Alloc) (copies : List Int)
  | exit (i : Nat)
  | destroy (i : Nat)

/-- The copying of pages may fail for any area. -/
def copyOutcome (copies : List Int) (_ : Vma) : Kernel (List Int × Int) := pure (copies.tail, copies.headD 0)

def step (s : System) : Op → Kernel (System × Int)
  | .create i => pure ({ s with live := insert i s.live, space := update s.space i (mmCreate (s.space i)) }, 0)
  | .map i addr len flags alloc => do
    let (mm, ret, _) ← mmMap alloc (s.load i) addr len flags
    pure (s.store i mm, ret)
  | .mapShmem i addr flags shmem alloc => do
    let (mm, ret) ← mmMapShmem alloc (s.load i) addr flags shmem
    pure (s.store i mm, ret)
  | .unmap i addr len alloc => do
    let (mm, ret) ← mmUnmap alloc (s.load i) addr len
    pure (s.store i mm, ret)
  | .dup i source allocs copies => do
    let (mm, _, ret) ← dupMmap copyOutcome allocs (s.load i) (s.load source) copies
    pure (s.store i mm, ret)
  | .exit i => do
    let mm ← exitMmap (s.load i)
    pure (s.store i mm, 0)
  | .destroy i => do
    let mm ← mmDestroy (s.load i)
    pure ({ s.store i mm with live := s.live.erase i }, 0)

/-- The allocator hands out distinct memory that the address space does not use. -/
def Fresh (mm : MmStruct) (allocs : List Alloc) : Prop := (allocs.flatMap Alloc.ptrs ++ mm.inUse).Nodup

instance (mm : MmStruct) (allocs : List Alloc) : Decidable (Fresh mm allocs) := inferInstanceAs (Decidable (List.Nodup _))

/-- Calls go to address spaces that exist, and map objects that have not been destroyed.
`do_shmem` makes objects of whole pages. -/
def Allowed (s : System) : Op → Prop
  | .create i => i ∉ s.live
  | .map i _ _ _ alloc => i ∈ s.live ∧ Fresh (s.space i) [alloc]
  | .mapShmem i _ _ shmem alloc => i ∈ s.live ∧ Fresh (s.space i) [alloc] ∧ ∀ object ∈ shmem, (s.shmems object).destroys = 0
  | .unmap i _ _ alloc => i ∈ s.live ∧ Fresh (s.space i) [alloc]
  | .dup i source allocs _ => i ∈ s.live ∧ source ∈ s.live ∧ i ≠ source ∧ Fresh (s.space i) allocs
  | .exit i => i ∈ s.live
  | .destroy i => i ∈ s.live

instance (s : System) : (op : Op) → Decidable (Allowed s op)
  | .create i => inferInstanceAs (Decidable (i ∉ s.live))
  | .map _ _ _ _ _ => inferInstanceAs (Decidable (_ ∧ _))
  | .mapShmem _ _ _ _ _ => inferInstanceAs (Decidable (_ ∧ _ ∧ _))
  | .unmap _ _ _ _ => inferInstanceAs (Decidable (_ ∧ _))
  | .dup _ _ _ _ => inferInstanceAs (Decidable (_ ∧ _ ∧ _ ∧ _))
  | .exit i => inferInstanceAs (Decidable (i ∈ s.live))
  | .destroy i => inferInstanceAs (Decidable (i ∈ s.live))

def machine : Machine System Op Int Fault where
  start s := s.live = ∅ ∧ ∀ object, (s.shmems object).shmemRef = 0 ∧ (s.shmems object).destroys =
    0 ∧ (s.shmems object).len % pgSize = 0
  allowed := Allowed
  step := step

instance (s : System) (op : Op) : Decidable (machine.allowed s op) := inferInstanceAs (Decidable (Allowed s op))

end Ucore.Spaces
