import Ucore.Proc
import Ucore.Lib.Machine

/-! Exiting and waiting on several CPUs. `__do_exit` and `do_wait` are cut into the
steps between which other CPUs can act. A process is never reused, so that it can be
counted how often it was unlinked and freed. -/

namespace Ucore.Reap
open Lib Function

def wtChild : UInt32 := 0x00000001 ||| wtInterrupted

/-- `children` is the list from `cptr` on along `optr`, youngest first. `thread_group`
is the ring of the process's `gid`. -/
structure Task extends Proc where
  parent : ProcId
  children : List ProcId
  gid : ProcId
  hashed : Bool
  /-- How often `remove_links` was called for the process. -/
  unlinks : Nat
  /-- How often its kernel stack and its `proc_struct` were freed. -/
  frees : Nat
deriving Repr, DecidableEq

/-- Where a CPU is in `__do_exit`, `do_wait` or `schedule`. -/
inductive Phase where
  | running
  /-- The current process is a zombie; then its parent's group has been woken; then
  its children have a new parent. -/
  | zombie
  | notified
  | leaving
  /-- `do_wait` has found this zombie; then it has unlinked it. -/
  | found (p : ProcId)
  | unlinked (p : ProcId)
  /-- `do_wait` has found children but no zombie; then it has gone to sleep. -/
  | unready
  | asleep
  /-- `proc_run` has changed `current`, and the old process is still being left. -/
  | switching (prev : ProcId)
deriving Repr, DecidableEq

structure Cpu where
  current : ProcId
  phase : Phase
deriving Repr, DecidableEq

variable {n : Nat}

structure State (n : Nat) where
  tasks : ProcId → Task
  ring : ProcId → List ProcId
  cpus : Fin n → Cpu

/-- The first process that is not an idle process. -/
def initproc (n : Nat) : ProcId := n

namespace State

def setTask (s : State n) (p : ProcId) (task : Task) : State n := { s with tasks := update s.tasks p task }

def setCpu (s : State n) (c : Fin n) (cpu : Cpu) : State n := { s with cpus := update s.cpus c cpu }

def setPhase (s : State n) (c : Fin n) (phase : Phase) : State n := s.setCpu c { s.cpus c with phase }

def current (s : State n) (c : Fin n) : ProcId := (s.cpus c).current

end State

/-- The other threads of a ring, from the one after `p` on. -/
def others (ring : List ProcId) (p : ProcId) : List ProcId :=
  (ring.dropWhile fun q => q != p).tail ++ ring.takeWhile fun q => q != p

/-- `p` and then the threads that `next_thread` leads to. A process that has left its
group is alone. -/
def threads (s : State n) (p : ProcId) : List ProcId :=
  if p ∈ s.ring (s.tasks p).gid then p :: others (s.ring (s.tasks p).gid) p else [p]

def wakeupProc (s : State n) (p : ProcId) : Kernel (State n) := do
  let proc ← Ucore.wakeupProc (s.tasks p).toProc
  pure (s.setTask p { s.tasks p with toProc := proc })

/-- `if (proc->wait_state == WT_CHILD) wakeup_proc(proc)` -/
def wakeWaiter (s : State n) (p : ProcId) : Kernel (State n) :=
  if (s.tasks p).waitState = wtChild then wakeupProc s p else pure s

/-- The loop of `__do_exit` over the threads of the parent. -/
def wakeWaiters : State n → List ProcId → Kernel (State n)
  | s, [] => pure s
  | s, p :: rest => do
    let s ← wakeWaiter s p
    wakeWaiters s rest

/-- The links of a child under a new parent. -/
def setParent (s : State n) (parent p : ProcId) : State n :=
  let s := s.setTask p { s.tasks p with parent }
  s.setTask parent { s.tasks parent with children := p :: (s.tasks parent).children }

/-- A child goes over to a new parent, who may be waiting for it. -/
def reparentOne (parent : ProcId) (s : State n) (p : ProcId) : Kernel (State n) :=
  let s := setParent s parent p
  if (s.tasks p).state = .zombie then wakeWaiter s parent else pure s

/-- The loop of `__do_exit` over the children. -/
def reparent (parent : ProcId) : State n → List ProcId → Kernel (State n)
  | s, [] => pure s
  | s, p :: rest => do
    let s ← reparentOne parent s p
    reparent parent s rest

/-- The next thread of the group, or `initproc` for the last one. -/
def heir (s : State n) (p : ProcId) : ProcId := (threads s p).tail.headD (initproc n)

def deThread (s : State n) (p : ProcId) : State n :=
  { s with ring := update s.ring (s.tasks p).gid ((s.ring (s.tasks p).gid).erase p) }

/-- `__do_exit` from `de_thread` to the end of the reparenting. -/
def giveChildren (s : State n) (p : ProcId) : Kernel (State n) :=
  let parent := heir s p
  let s := deThread s p
  let children := (s.tasks p).children
  reparent parent (s.setTask p { s.tasks p with children := [] }) children

inductive Search where
  | found (p : ProcId)
  | unready
  | badProc
deriving Repr, DecidableEq

def searchPid (s : State n) (p pid : ProcId) : Search :=
  if (s.tasks pid).hashed ∧ (s.tasks pid).parent ∈ threads s p then
    if (s.tasks pid).state = .zombie then .found pid else .unready
  else .badProc

/-- The search of `do_wait` over all children of the group. -/
def searchAny (s : State n) (p : ProcId) : Search :=
  let kids := (threads s p).flatMap fun thread => (s.tasks thread).children
  match kids.find? fun kid => (s.tasks kid).state = .zombie with
  | some kid => .found kid
  | none => if kids = [] then .badProc else .unready

def search (s : State n) (p pid : ProcId) : Search := if pid ≠ 0 then searchPid s p pid else searchAny s p

/-- `do_wait` up to the point where it knows what it waits for. -/
def waitSearch (s : State n) (c : Fin n) (pid : ProcId) : Kernel (State n) :=
  match search s (s.current c) pid with
  | .found p =>
    if p < n ∨ p = initproc n then .error (.panic "wait idleproc or initproc.\n")
    else pure (s.setPhase c (.found p))
  | .unready => pure (s.setPhase c .unready)
  | .badProc => pure s

/-- `unhash_proc` and `remove_links` -/
def removeLinks (s : State n) (p : ProcId) : State n :=
  let parent := (s.tasks p).parent
  let s := s.setTask parent { s.tasks parent with children := (s.tasks parent).children.erase p }
  s.setTask p { s.tasks p with hashed := false, unlinks := (s.tasks p).unlinks + 1 }

/-- `put_kstack` and `kfree` -/
def freeProc (s : State n) (p : ProcId) : State n := s.setTask p { s.tasks p with frees := (s.tasks p).frees + 1 }

/-- The ring of a new process: with `CLONE_THREAD` it goes in front of its creator. -/
def joinRing (s : State n) (p child : ProcId) (thread : Bool) : State n :=
  if thread then
    let gid := (s.tasks p).gid
    { s with ring := update s.ring gid ((s.ring gid).insertIdx ((s.ring gid).idxOf p) child) }
  else { s with ring := update s.ring child [child] }

/-- `do_fork` from `get_pid` to `wakeup_proc`. -/
def fork (s : State n) (p child : ProcId) (thread : Bool) : State n :=
  let gid := if thread then (s.tasks p).gid else child
  let s := joinRing s p child thread
  let s := s.setTask child ⟨⟨.runnable, 0⟩, p, [], gid, true, 0, 0⟩
  s.setTask p { s.tasks p with children := child :: (s.tasks p).children }

inductive Op (n : Nat) where
  | fork (c : Fin n) (child : ProcId) (thread : Bool)
  /-- `__do_exit`: the process becomes a zombie, wakes its parent's group, and gives
  its children away. -/
  | exit (c : Fin n)
  | notify (c : Fin n)
  | reparent (c : Fin n)
  /-- `do_wait`: the search, and what follows it. -/
  | wait (c : Fin n) (pid : ProcId)
  | unlink (c : Fin n)
  | free (c : Fin n)
  | sleep (c : Fin n)
  /-- Another event wakes a sleeping process. -/
  | wake (p : ProcId)
  /-- `schedule` goes to another process, or goes on with the current one. -/
  | switch (c : Fin n) (next : ProcId)
  | switched (c : Fin n)
  | resume (c : Fin n)
deriving Repr

/-- The process that `do_wait` on a CPU is about to unlink or free, or that `proc_run`
is leaving. -/
def Phase.target : Phase → ProcId
  | .found p => p
  | .unlinked p => p
  | .switching p => p
  | _ => 0

def step (s : State n) : Op n → Kernel (State n × Unit)
  | .fork c child thread => pure (Reap.fork s (s.current c) child thread, ())
  | .exit c =>
    let p := s.current c
    pure ((s.setTask p { s.tasks p with state := .zombie }).setPhase c .zombie, ())
  | .notify c => do
    let s ← wakeWaiters s (threads s (s.tasks (s.current c)).parent)
    pure (s.setPhase c .notified, ())
  | .reparent c => do
    let s ← giveChildren s (s.current c)
    pure (s.setPhase c .leaving, ())
  | .wait c pid => do
    let s ← waitSearch s c pid
    pure (s, ())
  | .unlink c =>
    let p := (s.cpus c).phase.target
    pure ((removeLinks s p).setPhase c (.unlinked p), ())
  | .free c => pure ((freeProc s (s.cpus c).phase.target).setPhase c .running, ())
  | .sleep c =>
    let p := s.current c
    pure ((s.setTask p { s.tasks p with state := .sleeping, waitState := wtChild }).setPhase c .asleep, ())
  | .wake p => do
    let s ← wakeupProc s p
    pure (s, ())
  | .switch c next => pure (s.setCpu c ⟨next, .switching (s.current c)⟩, ())
  | .switched c => pure (s.setPhase c .running, ())
  | .resume c => pure (s.setPhase c .running, ())

/-- A CPU runs the process, or is still leaving it. -/
def Uses (s : State n) (c : Fin n) (p : ProcId) : Prop := s.current c = p ∨ (s.cpus c).phase = .switching p
deriving Decidable

/-- What `schedule` may choose: the idle process of the CPU, or a runnable process. -/
def Choice (s : State n) (c : Fin n) (next : ProcId) : Prop :=
  next = c ∨ n ≤ next ∧ (s.tasks next).state = .runnable
deriving Decidable

/-- Every CPU goes through its calls in order. Idle processes neither exit nor wait nor
have threads, and `initproc` does not exit and is a single kernel thread. -/
def Allowed (s : State n) : Op n → Prop
  | .fork c child thread => (s.cpus c).phase = .running ∧ n < child ∧ (s.tasks child).state = .uninit ∧
      (thread = true → initproc n < s.current c)
  | .exit c => (s.cpus c).phase = .running ∧ initproc n < s.current c
  | .notify c => (s.cpus c).phase = .zombie
  | .reparent c => (s.cpus c).phase = .notified
  | .wait c _ => (s.cpus c).phase = .running ∧ n ≤ s.current c
  | .unlink c => ∃ p, (s.cpus c).phase = .found p
  | .free c => ∃ p, (s.cpus c).phase = .unlinked p
  | .sleep c => (s.cpus c).phase = .unready ∧ n ≤ s.current c
  | .wake p => (s.tasks p).state = .sleeping
  | .switch c next => next ≠ s.current c ∧ Choice s c next ∧
      ((s.cpus c).phase = .leaving ∨ (s.cpus c).phase = .asleep ∨ (s.cpus c).phase = .running)
  | .switched c => ∃ prev, (s.cpus c).phase = .switching prev
  | .resume c => (s.cpus c).phase = .asleep ∧ (s.tasks (s.current c)).state = .runnable

/-- A phase that names a process names its target. -/
def Phase.decidableExists (at_ : Phase) (phase : ProcId → Phase) (target : ∀ p, (phase p).target = p) :
    Decidable (∃ p, at_ = phase p) :=
  decidable_of_iff (at_ = phase at_.target) ⟨fun same => ⟨_, same⟩, fun ⟨p, same⟩ => by rw [same, target]⟩

instance (s : State n) (op : Op n) : Decidable (Allowed s op) :=
  match op with
  | .fork .. => inferInstanceAs (Decidable (_ ∧ _))
  | .exit _ => inferInstanceAs (Decidable (_ ∧ _))
  | .notify _ => inferInstanceAs (Decidable (_ = _))
  | .reparent _ => inferInstanceAs (Decidable (_ = _))
  | .wait .. => inferInstanceAs (Decidable (_ ∧ _))
  | .unlink c => (s.cpus c).phase.decidableExists .found fun _ => rfl
  | .free c => (s.cpus c).phase.decidableExists .unlinked fun _ => rfl
  | .sleep _ => inferInstanceAs (Decidable (_ ∧ _))
  | .wake _ => inferInstanceAs (Decidable (_ = _))
  | .switch .. => inferInstanceAs (Decidable (_ ∧ _))
  | .switched c => (s.cpus c).phase.decidableExists .switching fun _ => rfl
  | .resume _ => inferInstanceAs (Decidable (_ ∧ _))

/-- Before any process but the idle processes and `initproc` exists. -/
def boot (n : Nat) : State n where
  tasks p :=
    if p < n then ⟨⟨.runnable, 0⟩, p, if p = 0 then [initproc n] else [], p, false, 0, 0⟩
    else if p = initproc n then ⟨⟨.runnable, 0⟩, 0, [], p, true, 0, 0⟩
    else ⟨⟨.uninit, 0⟩, 0, [], p, false, 0, 0⟩
  ring p := if p ≤ initproc n then [p] else []
  cpus c := ⟨c, .running⟩

def machine (n : Nat) : Machine (State n) (Op n) Unit Fault where
  start s := s = boot n
  allowed := Allowed
  step := step

instance (s : State n) (op : Op n) : Decidable ((machine n).allowed s op) := inferInstanceAs (Decidable (Allowed s op))

end Ucore.Reap
