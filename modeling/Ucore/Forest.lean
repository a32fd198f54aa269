import Ucore.Error
import Ucore.Pid
import Ucore.Proc
import Ucore.Lib.Family
import Ucore.Lib.Links

/-! The structures that processes are linked into: the family pointers `parent`, `cptr`, `optr`
and `yptr`, the list `proc_list`, the hash table by pid and the rings `thread_group`. Every
call is one step. -/

namespace Ucore.Forest
open Lib Pid Function

inductive Life where
  /-- There is no `proc_struct`. -/
  | free
  | alive
  | zombie
deriving Repr, DecidableEq

/-- `group` numbers the thread groups, since the id of a group can be given out again as a pid. -/
structure Task where
  life : Life
  pid : Nat
  group : Nat
deriving Repr, DecidableEq

inductive HashEntry where
  | bucket (b : Nat)
  | link (p : ProcId)
deriving Repr, DecidableEq

def HashEntry.proc : HashEntry → Option ProcId
  | .link p => some p
  | .bucket _ => none

structure State where
  tasks : ProcId → Task
  /-- `cptr`, `optr` and `yptr` are the youngest child, the older and the younger sibling. -/
  family : Family ProcId
  /-- `none` is the list head. -/
  procList : Links (Option ProcId)
  hashList : Links HashEntry
  threadGroup : Links ProcId
  nrProcess : Nat
  groups : Nat

/-- `hash32(pid, HASH_SHIFT)` -/
def pidHashfn (pid : Nat) : Nat := pid * 0x9e370001 % 2 ^ 32 / 2 ^ 22

def setTask (s : State) (p : ProcId) (task : Task) : State := { s with tasks := update s.tasks p task }

def hashProc (s : State) (p : ProcId) : State :=
  { s with hashList := s.hashList.addAfter (.bucket (pidHashfn (s.tasks p).pid)) (.link p) }

def unhashProc (s : State) (p : ProcId) : State := { s with hashList := s.hashList.del (.link p) }

def findProc (s : State) (pid : Nat) : Option ProcId :=
  if 0 < pid ∧ pid < maxPid then
    let bucket := HashEntry.bucket (pidHashfn pid)
    ((s.hashList.walk bucket s.nrProcess bucket).filterMap HashEntry.proc).find? fun p => (s.tasks p).pid = pid
  else none

/-- `set_links` of a process whose parent is given. -/
def setLinks (s : State) (parent p : ProcId) : State :=
  { s with
    procList := s.procList.addAfter none (some p)
    family := s.family.adopt parent p
    nrProcess := s.nrProcess + 1 }

def removeLinks (s : State) (p : ProcId) : Kernel State :=
  match s.family.parent p with
  | some parent =>
    pure { s with
      procList := s.procList.del (some p)
      family := s.family.disown parent p
      nrProcess := s.nrProcess - 1 }
  | none => .error (.nullPointer "remove_links")

def allocProc (s : State) (p : ProcId) (pid group : Nat) : State :=
  { s with
    tasks := update s.tasks p ⟨.alive, pid, group⟩
    family := s.family.clear p
    threadGroup := s.threadGroup.init p }

/-- `do_fork` when all its allocations succeed. `get_pid` returns `pid`. -/
def doFork (s : State) (p child : ProcId) (pid : Nat) (thread : Bool) : State × Int :=
  if maxProcess ≤ s.nrProcess then (s, -eNoFreeProc)
  else
    let s := allocProc { s with groups := s.groups + 1 } child pid (if thread then (s.tasks p).group else s.groups)
    let s := setLinks (hashProc s child) p child
    (if thread then { s with threadGroup := s.threadGroup.addBefore p child } else s, pid)

/-- `list_del_init` of a process that is not alone. -/
def deThread (s : State) (p : ProcId) : State :=
  if s.threadGroup.next p = p then s else { s with threadGroup := (s.threadGroup.del p).init p }

variable (last : Nat)

/-- The idle processes come first. -/
def initproc : ProcId := last + 1

def doExit (s : State) (p : ProcId) : Kernel State :=
  if p ≤ last then .error (.panic "idleproc exit.\n")
  else if p = initproc last then .error (.panic "initproc exit.\n")
  else
    let s := setTask s p { s.tasks p with life := .zombie }
    let parent := if s.threadGroup.next p = p then initproc last else s.threadGroup.next p
    let s := deThread s p
    match s.family.handOver p parent s.nrProcess with
    | some family => pure { s with family }
    | none => .error .exhausted

/-- `p` and then the threads that `next_thread` leads to. -/
def threads (s : State) (p : ProcId) : List ProcId := p :: s.threadGroup.walk p s.nrProcess p

/-- The children that `cptr` and `optr` lead to. -/
def childList (s : State) (p : ProcId) : List ProcId := s.family.walk s.nrProcess (s.family.first p)

inductive Search where
  | found (p : ProcId)
  | unready
  | badProc
deriving Repr, DecidableEq

def search (s : State) (p : ProcId) (pid : Nat) : Search :=
  if pid ≠ 0 then
    match findProc s pid with
    | none => .badProc
    | some q =>
      if (threads s p).any (fun thread => s.family.parent q = some thread) then
        if (s.tasks q).life = .zombie then .found q else .unready
      else .badProc
  else
    let kids := (threads s p).flatMap (childList s)
    match kids.find? fun q => (s.tasks q).life = .zombie with
    | some q => .found q
    | none => if kids = [] then .badProc else .unready

inductive Reply where
  | forked (ret : Int)
  | exited
  /-- `do_wait` has freed a child with this pid, or sleeps, or fails. -/
  | reaped (pid : Nat)
  | sleeps
  | failed (ret : Int)
deriving Repr, DecidableEq

def doWait (s : State) (p : ProcId) (pid : Nat) : Kernel (State × Reply) :=
  match search s p pid with
  | .found q =>
    if q ≤ last ∨ q = initproc last then .error (.panic "wait idleproc or initproc.\n")
    else do
      let t ← removeLinks (unhashProc s q) q
      pure (setTask t q { t.tasks q with life := .free }, .reaped (s.tasks q).pid)
  | .unready => pure (s, .sleeps)
  | .badProc => pure (s, .failed (-eBadProc))

inductive Op where
  | fork (p child : ProcId) (pid : Nat) (thread : Bool)
  | exit (p : ProcId)
  | wait (p : ProcId) (pid : Nat)
deriving Repr

def step (s : State) : Op → Kernel (State × Reply)
  | .fork p child pid thread =>
    let (s, ret) := doFork s p child pid thread
    pure (s, .forked ret)
  | .exit p => do
    let s ← doExit last s p
    pure (s, .exited)
  | .wait p pid => doWait last s p pid

/-- `get_pid` returns an id that no process has. -/
def Allowed (s : State) : Op → Prop
  | .fork p child pid _ => (s.tasks p).life = .alive ∧ (s.tasks child).life = .free ∧ 0 < pid ∧ pid < maxPid ∧
      ∀ q, last < q → (s.tasks q).life ≠ .free → (s.tasks q).pid ≠ pid
  | .exit p => (s.tasks p).life = .alive
  | .wait p _ => (s.tasks p).life = .alive

/-- `proc_init`: an idle process for every CPU, which is counted but not linked. -/
def idle : State where
  tasks p := if p ≤ last then ⟨.alive, p, p⟩ else ⟨.free, 0, 0⟩
  family := ⟨fun _ => none, fun _ => none, fun _ => none, fun _ => none⟩
  procList := ⟨id, id⟩
  hashList := ⟨id, id⟩
  threadGroup := ⟨id, id⟩
  nrProcess := last + 1
  groups := last + 1

/-- The first idle process has created `initproc`. -/
def boot : State := (doFork (idle last) 0 (initproc last) (initproc last) false).1

def machine : Machine State Op Reply Fault where
  start s := s = boot last ∧ last + 2 < maxProcess
  allowed := Allowed last
  step := step last

/-- The children of every process are linked in order, the list of all processes and the hash table
hold the same
processes, and the rings hold the threads of a group that have not exited. -/
structure Linked (s : State) (counted : Nat) : Prop where
  children : ∀ p, (s.tasks p).life ≠ .free → ∃ kids, s.family.Holds p kids none ∧ kids.Nodup ∧
    ∀ q, q ∈ kids ↔ (s.tasks q).life ≠ .free ∧ s.family.parent q = some p
  listed : ∃ procs : List ProcId, s.procList.Circle none (procs.map some) ∧
    (∀ pid q, findProc s pid = some q ↔ q ∈ procs ∧ (s.tasks q).pid = pid) ∧ s.nrProcess = procs.length + counted
  rings : ∀ p, (s.tasks p).life = .alive → ∃ others, s.threadGroup.Circle p others ∧
    ∀ q, q ∈ p :: others ↔ (s.tasks q).life = .alive ∧ (s.tasks q).group = (s.tasks p).group

end Ucore.Forest
