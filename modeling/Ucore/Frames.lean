import Ucore.Shmem
import Ucore.Lib.Tally

/-! The frames of user memory, in a kernel without swap space: all page directories and
all shared objects with the calls that put frames into them and take frames out. -/

namespace Ucore.Frames
open Lib Vmm Pmm Function

structure State where
  memory : Memory
  dirs : Nat → PageDir
  shmems : Nat → Option ShmemStruct

def State.setDir (s : State) (d : Nat) (dir : PageDir) (m : Memory) : State :=
  { s with dirs := update s.dirs d dir, memory := m }

def State.setShmem (s : State) (o : Nat) (shmem : Option ShmemStruct) (m : Memory) : State :=
  { s with shmems := update s.shmems o shmem, memory := m }

inductive Op where
  /-- A caller gets a frame, to map it with `page_insert`. -/
  | allocPage
  | pgdirAllocPage (d la : Nat) (perm : Perm)
  | pageInsert (d : Nat) (f : Frame) (la : Nat) (perm : Perm)
  | pageRemove (d la : Nat)
  | unmapRange (d start stop : Nat)
  | copyRange (d source start stop : Nat) (share : Bool)
  | shmemCreate (o len : Nat)
  | shmemGetEntry (o addr : Nat) (create : Bool)
  | shmemInsertEntry (o addr : Nat) (pte : Pte)
  | shmemRemoveEntry (o addr : Nat)
  | shmemDestroy (o : Nat)

/-- A call on an object; the pointer to the object is not `NULL`. -/
def State.onShmem (s : State) (o : Nat) (call : ShmemStruct → Memory →
    Kernel (ShmemStruct × Memory)) : Kernel (State × Unit) :=
  match s.shmems o with
  | none => .error (.nullPointer "shmem")
  | some shmem => do
    let (shmem, m) ← call shmem s.memory
    pure (s.setShmem o (some shmem) m, ())

def step (s : State) : Op → Kernel (State × Unit)
  | .allocPage => pure ({ s with memory := s.memory.allocPage.1 }, ())
  | .pgdirAllocPage d la perm => do
    let (dir, m, _) ← Pmm.pgdirAllocPage (s.dirs d) s.memory (vpn la) perm
    pure (s.setDir d dir m, ())
  | .pageInsert d f la perm => do
    let (dir, m, _) ← Pmm.pageInsert (s.dirs d) s.memory f (vpn la) perm
    pure (s.setDir d dir m, ())
  | .pageRemove d la => do
    let (dir, m) ← Pmm.pageRemove (s.dirs d) s.memory (vpn la)
    pure (s.setDir d dir m, ())
  | .unmapRange d start stop => do
    let (dir, m) ← Pmm.unmapRange (s.dirs d, s.memory) start stop
    pure (s.setDir d dir m, ())
  | .copyRange d source start stop share => do
    let (dir, m, _) ← Pmm.copyRange (s.dirs d) (s.dirs source) s.memory start stop share
    pure (s.setDir d dir m, ())
  | .shmemCreate o len =>
    match s.memory.kmalloc with
    | (m, false) => pure ({ s with memory := m }, ())
    | (m, true) => pure (s.setShmem o (some (Pmm.shmemCreate len)) m, ())
  | .shmemGetEntry o addr create => s.onShmem o fun shmem m => do
    let (shmem, m, _) ← Pmm.shmemGetEntry shmem m addr create
    pure (shmem, m)
  | .shmemInsertEntry o addr pte => s.onShmem o fun shmem m => do
    let (shmem, m, _) ← Pmm.shmemInsertEntry shmem m addr pte
    pure (shmem, m)
  | .shmemRemoveEntry o addr => s.onShmem o fun shmem m => do
    let (shmem, m, _) ← Pmm.shmemRemoveEntry shmem m addr
    pure (shmem, m)
  | .shmemDestroy o =>
    match s.shmems o with
    | none => .error (.nullPointer "shmem")
    | some shmem => do
      let (_, m) ← Pmm.shmemDestroy (shmem, s.memory)
      pure (s.setShmem o none m, ())

/-- A place that can map a frame: a page of a directory or a slot of an object. -/
inductive Place where
  | page (d page : Nat)
  | slot (o slot : Nat)
deriving DecidableEq

def State.entry (s : State) : Place → Pte
  | .page d page => (s.dirs d).entry page
  | .slot o slot => ((s.shmems o).map fun shmem => slotEntry shmem slot).getD 0

def State.maps (s : State) (place : Place) : Option Frame := frameOf (s.entry place)

/-- The frame holds a table of the page directory. -/
def HasTable (dir : PageDir) (f : Frame) : Prop :=
  (∃ i, Present (dir.pgd i) ∧ pte2page (dir.pgd i) = f) ∨ ∃ i, Present (dir.pmd i) ∧ pte2page (dir.pmd i) = f

def DirTable (s : State) (f : Frame) : Prop := ∃ d, HasTable (s.dirs d) f

/-- The frame holds a table of a shared object. -/
def ShmnTable (s : State) (f : Frame) : Prop := ∃ o shmem, s.shmems o = some shmem ∧ ∃ shmn ∈ shmem.shmnList, shmn.page = f

/-- A frame of user memory that the allocator has handed out: it holds no table and is
not a page for a device. -/
structure User (s : State) (f : Frame) : Prop where
  taken : s.memory.free f = false
  plain : s.memory.io f = false
  noDirTable : ¬ DirTable s f
  noShmnTable : ¬ ShmnTable s f

/-- Offsets lie in the object. -/
def Inside (s : State) (o addr : Nat) : Prop := ∃ shmem, s.shmems o = some shmem ∧ addr < shmem.len

/-- Callers map frames of user memory, and give the page directories of two different
address spaces to `copy_range`. -/
def Allowed (s : State) : Op → Prop
  | .allocPage | .pgdirAllocPage _ _ _ | .pageRemove _ _ => True
  | .pageInsert _ f _ _ => User s f
  | .unmapRange _ start stop => (start % pgSize = 0 ∧ stop % pgSize = 0) ∧ UserAccess start stop
  | .copyRange d source start stop _ => d ≠ source ∧ (start % pgSize = 0 ∧ stop % pgSize = 0) ∧ UserAccess start stop
  | .shmemCreate o _ => s.shmems o = none
  | .shmemGetEntry o addr _ | .shmemRemoveEntry o addr => Inside s o addr
  | .shmemInsertEntry o addr pte => Inside s o addr ∧ (pte = 0 ∨ Present pte ∧ User s (pte2page pte))
  | .shmemDestroy o => s.shmems o ≠ none

structure Start (s : State) : Prop where
  dirs : ∀ d i, (s.dirs d).pgd i = 0 ∧ (s.dirs d).pmd i = 0
  shmems : ∀ o, s.shmems o = none
  ref : ∀ f, s.memory.ref f = 0
  io : ∀ f, s.memory.io f = true → s.memory.free f = false
  swap : s.memory.swap.enabled = false ∧ s.memory.swap.pages = []

def machine : Machine State Op Unit Fault where
  start := Start
  allowed := Allowed
  step := step

end Ucore.Frames
