import Ucore.Error
import Ucore.Proc
import Ucore.Lib.Machine
import Ucore.Lib.RefCounts

/-! The counted objects that processes own: address spaces, semaphore queues, signals, signal
handlers and tables of open files. Every call is one step, and each of its allocations can
fail. -/

namespace Ucore.Resources
open Lib Function

inductive Kind where
  | mm
  | semQueue
  | signal
  | sighand
  | fs
deriving Repr, DecidableEq

/-- What the destructor of an object asserts. -/
def Kind.unused : Kind → String
  | .mm => "mm_count(mm) == 0"
  | .semQueue => "sem_queue != NULL && sem_queue_count(sem_queue) == 0"
  | .signal => "sig != NULL && signal_count(sig) == 0"
  | .sighand => "sh != NULL && sighand_count(sh) == 0"
  | .fs => "fs_struct != NULL && fs_count(fs_struct) == 0"

/-- The pointer of a process to its object is set to null when it gives the object up. -/
def Kind.cleared : Kind → Bool
  | .mm | .signal | .sighand => true
  | .semQueue | .fs => false

/-- The objects of one kind, and which one a process points to. -/
structure Pool where
  ptr : ProcId → Option Nat
  refs : RefCounts

inductive Life where
  /-- There is no such process, or it is not linked yet. -/
  | free
  | live
  | zombie
deriving Repr, DecidableEq

structure State where
  life : ProcId → Life
  procs : Nat
  pools : Kind → Pool

def setPool (s : State) (k : Kind) (pool : Pool) : State := { s with pools := update s.pools k pool }

def setPtr (k : Kind) (s : State) (p : ProcId) (o : Option Nat) : State :=
  setPool s k { s.pools k with ptr := update (s.pools k).ptr p o }

def setRefs (k : Kind) (s : State) (refs : RefCounts) : State := setPool s k { s.pools k with refs }

def destroy (k : Kind) (s : State) (o : Nat) : Kernel State := do
  ensure ((s.pools k).refs.count o = 0) k.unused
  pure (setRefs k s ((s.pools k).refs.destroy o))

def countDec (k : Kind) (s : State) (o : Nat) : Kernel State :=
  let s := setRefs k s ((s.pools k).refs.dec o)
  if (s.pools k).refs.count o = 0 then destroy k s o else pure s

/-- A process owns an object from now on. -/
def own (k : Kind) (s : State) (p : ProcId) (o : Nat) : State := setPtr k (setRefs k s ((s.pools k).refs.inc o)) p (some o)

def ownNew (k : Kind) (s : State) (p : ProcId) : State :=
  own k (setRefs k s (s.pools k).refs.create) p (s.pools k).refs.created

def giveUp (k : Kind) (s : State) (p : ProcId) : Kernel State :=
  match (s.pools k).ptr p with
  | some o => countDec k s o
  | none => pure s

/-- `put_sem_queue`, `put_signal`, `put_sighand` and `put_fs`, and what `__do_exit` does with the
address space. -/
def put (p : ProcId) (s : State) (k : Kind) : Kernel State := do
  let s ← giveUp k s p
  pure (if k.cleared then setPtr k s p none else s)

/-- How an allocation ends: it can also be undone because the copy fails half-way. -/
inductive Made where
  | fails
  | undone
  | made
deriving Repr, DecidableEq

/-- What `copy_mm`, `copy_sem`, `copy_signal` and `copy_sighand` have in common. -/
def copy (k : Kind) (share : Bool) (outcome : Made) (s : State) (p child : ProcId) : Kernel (State × Int) :=
  match (s.pools k).ptr p with
  | none => pure (s, 0)
  | some old =>
    if share then pure (own k s child old, 0)
    else
      match outcome with
      | .fails => pure (s, -eNoMem)
      | .undone => do
        let s ← destroy k (setRefs k s (s.pools k).refs.create) (s.pools k).refs.created
        pure (s, -eNoMem)
      | .made => pure (ownNew k s child, 0)

structure CloneFlags where
  vm : Bool
  fs : Bool
  sem : Bool
  sighand : Bool
  thread : Bool
deriving Repr, DecidableEq

/-- How the allocations of `do_fork` end, and what the memory that `alloc_proc` gets has in the
fields `signal` and
`sighand`, which are not initialised. -/
structure ForkMemory where
  /-- `nr_process < MAX_PROCESS` -/
  room : Bool
  proc : Bool
  kstack : Bool
  semQueue : Made
  fs : Bool
  signal : Bool
  sighand : Bool
  mm : Made
  oldSignal : Option Nat
  oldSighand : Option Nat
deriving Repr, DecidableEq

def Made.of : Bool → Made
  | true => .made
  | false => .fails

/-- `mm_create`, `setup_pgdir` and `dup_mmap` -/
def copyMm (flags : CloneFlags) (memory : ForkMemory) : State → ProcId → ProcId →
    Kernel (State × Int) := copy .mm flags.vm memory.mm

/-- `sem_queue_create` and `dup_sem_queue` -/
def copySem (flags : CloneFlags) (memory : ForkMemory) : State → ProcId → ProcId → Kernel (State × Int) :=
  copy .semQueue flags.sem memory.semQueue

def copySignal (memory : ForkMemory) : State → ProcId → ProcId → Kernel (State × Int) :=
  copy .signal false (.of memory.signal)

def copySighand (flags : CloneFlags) (memory : ForkMemory) : State → ProcId → ProcId → Kernel (State × Int) :=
  copy .sighand (flags.sighand || flags.thread) (.of memory.sighand)

/-- `dup_fs` cannot fail, but it checks the count of the table that it copies. -/
def copyFs (flags : CloneFlags) (memory : ForkMemory) (s : State) (p child : ProcId) : Kernel (State × Int) :=
  match (s.pools .fs).ptr p with
  | none => .error (.assertion "old_fs_struct != NULL")
  | some old => do
    if !flags.fs && memory.fs then ensure (0 < (s.pools .fs).refs.count old) "fs_count(to) == 0 && fs_count(from) > 0"
    copy .fs flags.fs (.of memory.fs) s p child

def allocProc (s : State) (child : ProcId) (memory : ForkMemory) : State :=
  setPtr .sighand (setPtr .signal (setPtr .fs (setPtr .semQueue (setPtr .mm s child none) child none) child none)
    child memory.oldSignal) child memory.oldSighand

/-- The labels at the end of `do_fork`. -/
def badFork (child : ProcId) (cleanup : List Kind) (s : State) : Kernel (State × Int) := do
  let s ← cleanup.foldlM (put child) s
  pure (s, -eNoMem)

/-- `copy_thread` always succeeds. -/
def doFork (s : State) (p : ProcId) (flags : CloneFlags) (memory : ForkMemory) : Kernel (State × Int) := do
  if !memory.room then return (s, -eNoFreeProc)
  if !memory.proc then return (s, -eNoMem)
  let child := s.procs
  let s := allocProc s child memory
  if !memory.kstack then return (s, -eNoMem)
  let (s, ret) ← copySem flags memory s p child
  if ret ≠ 0 then return ← badFork child [] s
  let (s, ret) ← copyFs flags memory s p child
  if ret ≠ 0 then return ← badFork child [.semQueue] s
  let (s, ret) ← copySignal memory s p child
  if ret ≠ 0 then return ← badFork child [.fs, .semQueue] s
  let (s, ret) ← copySighand flags memory s p child
  if ret ≠ 0 then return ← badFork child [.signal, .fs, .semQueue] s
  let (s, ret) ← copyMm flags memory s p child
  if ret ≠ 0 then return ← badFork child [.sighand, .signal, .fs, .semQueue] s
  return ({ s with life := update s.life child .live, procs := s.procs + 1 }, child)

variable (last : Nat)

/-- `initproc` is created after the idle processes. -/
def initproc : ProcId := last + 1

def doExit (s : State) (p : ProcId) : Kernel State :=
  if p ≤ last then .error (.panic "idleproc exit.\n")
  else if p = initproc last then .error (.panic "initproc exit.\n")
  else do
    let s ← [.mm, .sighand, .signal, .fs, .semQueue].foldlM (put p) s
    pure { s with life := update s.life p .zombie }

/-- How `load_icode` ends. The interpreter of a dynamic program must be there and readable. -/
inductive Load where
  | mm (outcome : Made)
  | interpreterFails
deriving Repr, DecidableEq

structure ExecResults where
  kargv : Int
  opened : Bool
  sighand : Bool
  signal : Bool
  semQueue : Bool
  load : Load
deriving Repr, DecidableEq

/-- `init_new_context` always succeeds. -/
def loadIcode (s : State) (p : ProcId) (load : Load) : Kernel (State × Int) := do
  if (s.pools .mm).ptr p ≠ none then .error (.panic "load_icode: current->mm must be empty.\n")
  match load with
  | .mm .fails => pure (s, -eNoMem)
  | .mm .undone => do
    let s ← destroy .mm (setRefs .mm s (s.pools .mm).refs.create) (s.pools .mm).refs.created
    pure (s, -eNoMem)
  | .mm .made => pure (ownNew .mm s p, 0)
  | .interpreterFails => .error (.assertion "interp_fd >= 0")

inductive Reply where
  | returned (ret : Int)
  | exited
deriving Repr, DecidableEq

/-- A new object for a field of the process itself; the field is null when there is no memory. -/
def renew (k : Kind) (s : State) (p : ProcId) (ok : Bool) : State := if ok then ownNew k s p else setPtr k s p none

def execveExit (s : State) (p : ProcId) : Kernel (State × Reply) := do
  let s ← doExit last s p
  pure (s, .exited)

def doExecve (s : State) (p : ProcId) (results : ExecResults) : Kernel (State × Reply) := do
  if results.kargv ≠ 0 then return (s, .returned results.kargv)
  if !results.opened then return ← execveExit last s p
  let s ← put p s .mm
  let s ← put p s .semQueue
  let s ← put p s .sighand
  let s := renew .sighand s p results.sighand
  if !results.sighand then return ← execveExit last s p
  let s ← put p s .signal
  let s := renew .signal s p results.signal
  if !results.signal then return ← execveExit last s p
  let s := renew .semQueue s p results.semQueue
  if !results.semQueue then return ← execveExit last s p
  let (s, ret) ← loadIcode s p results.load
  if ret ≠ 0 then return ← execveExit last s p
  return (s, .returned 0)

inductive Op where
  | fork (p : ProcId) (flags : CloneFlags) (memory : ForkMemory)
  | execve (p : ProcId) (results : ExecResults)
  | exit (p : ProcId)
deriving Repr

def Op.caller : Op → ProcId
  | .fork p _ _ => p
  | .execve p _ => p
  | .exit p => p

def step (s : State) : Op → Kernel (State × Reply)
  | .fork p flags memory => do
    let (s, ret) ← doFork s p flags memory
    pure (s, .returned ret)
  | .execve p results => doExecve last s p results
  | .exit p => execveExit last s p

/-- `proc_init` and `proc_init_ap`: an idle process for every CPU, each with a table of files. -/
def boot : State where
  life p := if p ≤ last then .live else .free
  procs := last + 1
  pools
    | .fs => ⟨fun p => if p ≤ last then some p else none, ⟨fun o => if o ≤ last then 1 else 0, fun _ => 0, last + 1⟩⟩
    | _ => ⟨fun _ => none, .empty⟩

def machine : Machine State Op Reply Fault where
  start s := s = boot last
  allowed s op := s.life op.caller = .live
  step := step last

/-- What the live processes point to. -/
def State.holds (s : State) (k : Kind) (p : ProcId) : Option Nat := if s.life p = .live then (s.pools k).ptr p else none

def Owned (s : State) : Prop := ∀ k, (s.pools k).refs.Counted (s.holds k)

end Ucore.Resources
