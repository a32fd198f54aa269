import Ucore.BuddyPmm

/-! The accounts of pages in use. Each CPU has a counter of its own, which `alloc_pages` and
`free_pages` change
after the allocator has returned. -/

namespace Ucore.PageAccounts
open Lib BuddyPmm Function

structure State (n : Nat) where
  state : BuddyPmm.State
  usedPages : Fin n → BitVec 64

inductive Op (n : Nat) where
  | alloc (cpu : Fin n) (pages : Nat)
  | free (cpu : Fin n) (base pages : Nat)

variable {n : Nat}

/-- What the call asks of the allocator. -/
def Op.request : Op n → BuddyPmm.Op
  | .alloc _ pages => .alloc pages
  | .free _ base pages => .free base pages

/-- `mycpu()->used_pages += n` and `-= n`, whatever was returned. -/
def Op.count (used : Fin n → BitVec 64) : Op n → Fin n → BitVec 64
  | .alloc cpu pages => update used cpu (used cpu + BitVec.ofNat 64 pages)
  | .free cpu _ pages => update used cpu (used cpu - BitVec.ofNat 64 pages)

def step (s : State n) (op : Op n) : Kernel (State n × Option Nat) := do
  let (state, page) ← BuddyPmm.step s.state op.request
  pure (⟨state, op.count s.usedPages⟩, page)

def nrUsedPages (s : State n) : BitVec 64 := ∑ cpu, s.usedPages cpu

def nrFreePages (pmm : Pmm) : Nat := ∑ order ∈ Finset.range (maxOrder + 1), pmm.nrFree order * 2 ^ order

def total (s : State n) : BitVec 64 := nrUsedPages s + BitVec.ofNat 64 (nrFreePages s.state.pmm)

/-- The calls from a state of the allocator on. -/
def machine (boot : State n) : Machine (State n) (Op n) (Option Nat) Fault where
  start s := s = boot
  allowed s op := BuddyPmm.Allowed s.state op.request
  step := step

/-- Before the call some list has a free block that is large enough. -/
def Served (s : State n) : Op n → Prop
  | .alloc _ pages => ∃ order, pages ≤ 2 ^ order ∧ s.state.pmm.freeList order ≠ []
  | .free _ _ _ => True

end Ucore.PageAccounts
