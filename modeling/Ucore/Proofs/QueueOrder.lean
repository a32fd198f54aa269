import Ucore.RunQueues
import Ucore.Proofs.SchedSafety

/-! Queue membership is recorded four times: in the list, in `proc->rq`, in
`proc->cpu_affinity` and in `proc_num`. All operations keep the four in step except the
first wake-up of a process from another CPU than the one that created it. -/

namespace Ucore.RunQueues
open Lib Sched List Function

variable {n : Nat} {cls : SchedClass} {s t : State n} {c : Fin n} {p : ProcId} {post : State n → Prop}

structure Ordered (s : State n) : Prop where
  once : ∀ c, (s.cpus c).runList.Nodup
  home : ∀ c, ∀ p ∈ (s.cpus c).runList, (s.tasks p).rq = some c ∧ (s.tasks p).cpuAffinity = c ∧ p ≥ n
  counted : ∀ c, (s.cpus c).procNum = (s.cpus c).runList.length

theorem Ordered.single (ordered : Ordered s) {d : Fin n} (first : p ∈ (s.cpus c).runList)
    (second : p ∈ (s.cpus d).runList) : c = d :=
    (ordered.home c p first).2.1.symm.trans (ordered.home d p second).2.1

structure SameQueues (s t : State n) : Prop where
  queues : ∀ c, (t.cpus c).runList = (s.cpus c).runList ∧ (t.cpus c).procNum = (s.cpus c).procNum
  records : ∀ p, s.Linked p → (t.tasks p).rq = (s.tasks p).rq ∧ (t.tasks p).cpuAffinity = (s.tasks p).cpuAffinity

theorem SameQueues.ordered (same : SameQueues s t) (ordered : Ordered s) : Ordered t := by
  refine ⟨fun c => (same.queues c).1 ▸ ordered.once c, ?_, ?_⟩
  · intro c p member
    rw [(same.queues c).1] at member
    obtain ⟨queue, affinity⟩ := same.records p ⟨c, member⟩
    rw [queue, affinity]
    exact ordered.home c p member
  · intro c
    rw [(same.queues c).1, (same.queues c).2]
    exact ordered.counted c

theorem SameQueues.linked (same : SameQueues s t) (p : ProcId) : t.Linked p ↔ s.Linked p := by
  simp only [State.Linked, same.queues]

theorem sameQueues_setTask (task : Task n) (unlinked : ¬ s.Linked p) : SameQueues s (s.setTask p task) := by
  refine ⟨fun _ => ⟨rfl, rfl⟩, ?_⟩
  intro q linked
  have different : q ≠ p := fun same => unlinked (same ▸ linked)
  simp [State.setTask, update_of_ne different]

theorem sameQueues_record {task : Task n} (queue : task.rq = (s.tasks p).rq)
    (affinity : task.cpuAffinity = (s.tasks p).cpuAffinity) : SameQueues s (s.setTask p task) := by
  refine ⟨fun _ => ⟨rfl, rfl⟩, ?_⟩
  intro q _
  by_cases here : q = p
  · simp [here, State.setTask, queue, affinity]
  · simp [State.setTask, update_of_ne here]

theorem sameQueues_setProc (s : State n) (p : ProcId) (proc : Proc) :
    SameQueues s (s.setProc p proc) := sameQueues_record rfl rfl

theorem sameQueues_setCpu {cpu : Cpu} (queue : cpu.runList = (s.cpus c).runList)
    (count : cpu.procNum = (s.cpus c).procNum) : SameQueues s (s.setCpu c cpu) := by
  refine ⟨?_, fun _ _ => ⟨rfl, rfl⟩⟩
  intro d
  obtain rfl | here := eq_or_ne d c
  · simp [State.setCpu, queue, count]
  · simp [State.setCpu, update_of_ne here]

theorem sameQueues_setPhase (s : State n) (c : Fin n) (phase : Phase) :
    SameQueues s (s.setPhase c phase) := sameQueues_setCpu rfl rfl

theorem sameQueues_switchTo (s : State n) (c : Fin n) (next : ProcId) : SameQueues s (switchTo s c next) := by
  rw [switchTo]
  split <;> exact sameQueues_setCpu rfl rfl

theorem procNum_link (s : State n) (c d : Fin n) (p : ProcId) : ((s.link c p).cpus d).procNum = if d =
    c then (s.cpus d).procNum + 1 else (s.cpus d).procNum := by
  by_cases here : d = c
  · simp [here, State.link, State.setCpu, State.setTask]
  · simp [State.link, State.setCpu, State.setTask, here]

theorem procNum_unlink (s : State n) (c d : Fin n) (p : ProcId) :
    ((s.unlink c p).cpus d).procNum = if d = c then (s.cpus d).procNum - 1 else
    (s.cpus d).procNum := by
  by_cases here : d = c
  · simp [here, State.unlink, State.setCpu]
  · simp [State.unlink, State.setCpu, here]

theorem affinity_link (s : State n) (c : Fin n) (p : ProcId) : ((s.link c p).tasks p).cpuAffinity =
    (s.tasks p).cpuAffinity := by simp [State.link, State.setCpu, State.setTask]

theorem affinity_setAffinity (s : State n) (p : ProcId) (c : Fin n) :
    ((s.setAffinity p c).tasks p).cpuAffinity = c := by simp [State.setAffinity, State.setTask]

theorem Ordered.link (ordered : Ordered s) (unlinked : ¬ s.Linked p)
    (affinity : (s.tasks p).cpuAffinity = c) (large : p ≥ n) : Ordered (s.link c p) := by
  constructor
  · exact nodup_link ordered.once unlinked
  · intro d q member
    rcases mem_link.mp member with before | ⟨rfl, rfl⟩
    · have different : q ≠ p := fun same => unlinked ⟨d, same ▸ before⟩
      rw [tasks_link_other different]
      exact ordered.home d q before
    · exact ⟨(tasks_link_same s d q).1, (affinity_link s d q).trans affinity, large⟩
  · intro d
    rw [procNum_link, runList_link]
    split
    · rw [length_append, ordered.counted d, length_singleton]
    · exact ordered.counted d

theorem Ordered.unlink (ordered : Ordered s) (member : p ∈ (s.cpus c).runList) : Ordered (s.unlink c p) := by
  constructor
  · intro d
    rw [runList_unlink]
    exact (ordered.once d).erase p
  · intro d q left
    rw [runList_unlink] at left
    exact ordered.home d q (mem_of_mem_erase left)
  · intro d
    rw [procNum_unlink, runList_unlink]
    split
    next here => rw [here, length_erase_of_mem member, ordered.counted c]
    next other =>
      have absent : p ∉ (s.cpus d).runList := fun again => other (ordered.single again member)
      rw [erase_of_not_mem absent]
      exact ordered.counted d

theorem Ordered.not_linked_unlink (ordered : Ordered s) (c : Fin n) (p : ProcId) : ¬ (s.unlink c p).Linked p := by
  intro ⟨d, member⟩
  rw [runList_unlink, (ordered.once d).mem_erase_iff] at member
  exact member.1 rfl

/-- The kernel stops at an assertion. -/
def Asserts (fault : Fault) : Prop := ∃ text, fault = .assertion text

/-- A CPU waits for the lock that another one keeps for good. -/
def Hangs (s : State n) (fault : Fault) : Prop :=
  fault = .deadlock "spinlock_acquire(&stupid_lock)" ∧ s.stupidLock ≠ none

def Stops (s : State n) (fault : Fault) : Prop := Asserts fault ∨ Hangs s fault

theorem acquire_hangs (s : State n) : Ends (Hangs s) (acquire s) fun _ => True := by
  rw [acquire]
  split
  · trivial
  · next taken => exact ⟨rfl, taken⟩

theorem acquire_ends (s : State n) : Ends (Stops s) (acquire s) fun _ => True :=
  (acquire_hangs s).excuse fun _ => .inr

theorem enqueue_linked (linked : s.Linked p) : Ends Asserts (enqueue cls s c p) post := by
  cases cls with
  | rr =>
    simp only [enqueue, rrEnqueue, ensure_bind, if_neg (not_not.mpr linked)]
    exact ⟨_, rfl⟩
  | mlfq =>
    simp only [enqueue, mlfqEnqueue, ensure_bind, if_neg (not_not.mpr linked)]
    exact ⟨_, rfl⟩

/-- A process whose affinity is set and that is then queued there; if it was queued already
the assertion of the class stops the kernel before anybody sees the new affinity. -/
theorem enqueue_ends (ordered : Ordered s) (c : Fin n) (large : p ≥ n) :
    Ends Asserts (enqueue cls (s.setAffinity p c) c p) Ordered := by
  by_cases linked : s.Linked p
  · exact enqueue_linked linked
  · have same := sameQueues_setTask { s.tasks p with cpuAffinity := c } linked
    have unlinked : ¬ (s.setAffinity p c).Linked p := fun again => linked ((same.linked p).mp again)
    exact .of_ok (enqueue_ok unlinked) ((same.ordered ordered).link unlinked (affinity_setAffinity s p c) large)

theorem dequeue_refused (refused : ¬ (s.Linked p ∧ (s.tasks p).rq = some c)) : Ends Asserts (dequeue cls s c p) post := by
  cases cls with
  | rr =>
    simp only [dequeue, rrDequeue, ensure_bind, if_neg refused]
    exact ⟨_, rfl⟩
  | mlfq =>
    simp only [dequeue, mlfqDequeue, ensure_bind, if_neg refused]
    exact ⟨_, rfl⟩

theorem dequeue_ends (ordered : Ordered s) (c : Fin n) (p : ProcId) : Ends Asserts (dequeue cls s c p) Ordered := by
  by_cases held : s.Linked p ∧ (s.tasks p).rq = some c
  · obtain ⟨⟨d, member⟩, queue⟩ := held
    obtain rfl : d = c := Option.some.inj ((ordered.home d p member).1.symm.trans queue)
    exact .of_ok (dequeue_ok ⟨d, member⟩ queue) (ordered.unlink member)
  · exact dequeue_refused held

/-- Only a process without a queue is put by its affinity, and then it has to be the caller's. -/
theorem schedClassEnqueueAfterWakeup_ends (ordered : Ordered s) (large : p ≥ n)
    (born : (s.tasks p).rq = none → (s.tasks p).cpuAffinity = c) :
    Ends Asserts (schedClassEnqueueAfterWakeup cls s c p) Ordered := by
  rw [schedClassEnqueueAfterWakeup]
  split
  · split
    next fresh =>
      rw [born fresh]
      exact enqueue_ends ordered c large
    next queue _ => exact enqueue_ends ordered queue large
  · exact ordered

theorem wakeupProc_ends (ordered : Ordered s) (born : (s.tasks p).state ≠ .runnable →
    p ≠ (s.cpus c).current → (s.tasks p).rq = none → (s.tasks p).cpuAffinity = c) :
    Ends Asserts (Sched.wakeupProc cls s c p) Ordered := by
  simp only [Sched.wakeupProc, ensure_bind]
  split
  · split
    next asleep =>
      have woken := (sameQueues_setProc s p ⟨.runnable, 0⟩).ordered ordered
      split
      next away =>
        split
        next large =>
          apply schedClassEnqueueAfterWakeup_ends woken large
          simpa [State.setProc, State.setTask] using born asleep away
        next => exact ⟨_, rfl⟩
      next => exact woken
    next => exact ordered
  · exact ⟨_, rfl⟩

section
variable (ordered : Ordered s) {group : List ProcId}
include ordered

theorem wakeThread_ends (c : Fin n) (large : p ≥ n) : Ends Asserts (wakeThread cls s c p) Ordered := by
  have same := sameQueues_setProc s p ⟨.runnable, 0⟩
  rw [wakeThread]
  split
  · by_cases linked : s.Linked p
    · have different := Nat.ne_of_gt (c.isLt.trans_le large)
      rw [schedClassEnqueueAfterWakeup, if_pos different]
      split <;> exact enqueue_linked linked
    · have unlinked : ¬ (s.setProc p ⟨.runnable, 0⟩).Linked p := linked
      have moved := sameQueues_setTask { (s.setProc p ⟨.runnable, 0⟩).tasks p with cpuAffinity := c } unlinked
      exact schedClassEnqueueAfterWakeup_ends (moved.ordered (same.ordered ordered)) large fun _ =>
        affinity_setAffinity _ p c
  · exact same.ordered ordered

theorem wakeGroup_ends (c : Fin n) (large : ∀ p ∈ group, p ≥ n) : Ends Asserts (wakeGroup cls c s group) Ordered := by
  induction group generalizing s with
  | nil => exact ordered
  | cons next rest ih =>
    have rest_large : ∀ p ∈ rest, p ≥ n := fun p member => large p (mem_cons_of_mem _ member)
    rw [wakeGroup]
    split
    · apply (wakeThread_ends ordered c (large next (mem_cons_self ..))).bind
      intro after kept
      exact ih kept rest_large
    · exact ih ordered rest_large

theorem tryToWakeup_ends (c : Fin n) (large : ∀ q ∈ p :: group, q ≥ n) :
    Ends (Stops s) (tryToWakeup cls s c p group) fun result => Ordered result.1 := by
  have others : ∀ q ∈ group, q ≥ n := fun q member => large q (mem_cons_of_mem _ member)
  refine (acquire_ends s).bind fun _ _ => (show Ends Asserts _ _ from ?_).excuse fun _ => .inl
  simp only [ensure_bind]
  split
  · split
    · apply (wakeThread_ends ordered c (large p (mem_cons_self ..))).bind
      intro woken kept
      apply (wakeGroup_ends kept c others).bind
      intro after kept
      exact kept
    · apply (wakeGroup_ends ordered c others).bind
      intro after kept
      exact kept
  · exact ⟨_, rfl⟩

theorem stopProc_ends (c : Fin n) (p : ProcId) (wait : UInt32) :
    Ends (Stops s) (stopProc cls s c p wait) Ordered := by
  have stopped := (sameQueues_setProc s p ⟨.sleeping, wait⟩).ordered ordered
  refine (acquire_ends s).bind fun _ _ => ?_
  have dequeued : Ends (Stops s) (dequeueLinked cls (s.setProc p ⟨.sleeping, wait⟩) c p) Ordered := by
    rw [dequeueLinked]
    split
    · exact (dequeue_ends stopped c p).excuse fun _ => .inl
    · exact stopped
  refine dequeued.bind ?_
  intro after kept
  have same : SameQueues after { after with stupidLock := some c } :=
    ⟨fun _ => ⟨rfl, rfl⟩, fun _ _ => ⟨rfl, rfl⟩⟩
  exact same.ordered kept

theorem scheduleNext_ends (c : Fin n) : Ends (fun _ => False) (scheduleNext cls s c) Ordered := by
  have chosen : Ends (fun _ => False) (dequeueNext cls s c (s.cpus c).runList.head?) Ordered := by
    cases first : (s.cpus c).runList.head? with
    | none => exact (sameQueues_setPhase s c _).ordered ordered
    | some p =>
      have member := mem_of_mem_head? first
      rw [dequeueNext, dequeue_ok ⟨c, member⟩ (ordered.home c p member).1]
      exact (sameQueues_setPhase _ c (.chosen p)).ordered (ordered.unlink member)
  apply chosen.bind
  intro after kept
  exact (sameQueues_switchTo after c _).ordered kept

theorem postSwitch_ends (c : Fin n) : Ends (fun _ => False) (postSwitch cls s c) Ordered := by
  rw [postSwitch]
  split
  next ready =>
    obtain ⟨_, large, unlinked⟩ := ready
    have different := Nat.ne_of_gt (c.isLt.trans_le large)
    have affine := affinity_setAffinity s (s.cpus c).prev c
    have same := sameQueues_setTask { s.tasks (s.cpus c).prev with cpuAffinity := c } unlinked
    rw [schedClassEnqueue, if_pos different, ensure_bind, if_pos affine]
    exact .of_ok (enqueue_ok unlinked) ((same.ordered ordered).link unlinked affine large)
  next => exact ordered

end

theorem procTick_ends (s : State n) (c : Fin n) (p : ProcId) :
    Ends (Hangs s) (schedClassProcTick s c p) fun result => SameQueues s result.1 := by
  refine (acquire_hangs s).bind fun _ _ => ?_
  show SameQueues s (if p ≠ c then rrProcTick s p else (s, true)).1
  split
  · exact sameQueues_record rfl rfl
  · exact ⟨fun _ => ⟨rfl, rfl⟩, fun _ _ => ⟨rfl, rfl⟩⟩

/-- The same processes are queued, and all but those in the list where they were. -/
structure Moves (moved : List ProcId) (s t : State n) : Prop where
  linked : ∀ p, t.Linked p ↔ s.Linked p
  others : ∀ p, p ∉ moved → ∀ c, p ∈ (t.cpus c).runList ↔ p ∈ (s.cpus c).runList

theorem moves_one {src : Fin n} (dst : Fin n) (member : p ∈ (s.cpus src).runList) :
    Moves [p] s (((s.unlink src p).setAffinity p dst).link dst p) := by
  refine ⟨fun q => ?_, fun q other c => mem_move src dst c fun same => other (mem_singleton.mpr same)⟩
  obtain rfl | here := eq_or_ne q p
  · exact ⟨fun _ => ⟨src, member⟩, fun _ => ⟨dst, mem_link.mpr (.inr ⟨rfl, rfl⟩)⟩⟩
  · exact exists_congr fun c => mem_move src dst c here

theorem moveAll_ends {src dst : Fin n} {procs : List ProcId} (ordered : Ordered s)
    (members : ∀ p ∈ procs, p ∈ (s.cpus src).runList) (once : procs.Nodup) :
    Ends (fun _ => False) (moveAll cls src dst s procs) fun t => Ordered t ∧ Moves procs s t := by
  induction procs generalizing s with
  | nil => exact ⟨ordered, fun _ => Iff.rfl, fun _ _ _ => Iff.rfl⟩
  | cons p rest ih =>
    have member := members p (mem_cons_self ..)
    obtain ⟨queue, _, large⟩ := ordered.home src p member
    have unlinked := ordered.not_linked_unlink src p
    have taken := sameQueues_setTask { (s.unlink src p).tasks p with cpuAffinity := dst } unlinked
    have moved := (taken.ordered (ordered.unlink member)).link unlinked (affinity_setAffinity _ p dst) large
    have one := moves_one dst member
    obtain ⟨notHere, once⟩ := nodup_cons.mp once
    have members : ∀ q ∈ rest, q ∈ ((((s.unlink src p).setAffinity p dst).link dst p).cpus src).runList := by
      intro q other
      have different : q ∉ [p] := fun single => notHere (mem_singleton.mp single ▸ other)
      exact (one.others q different src).mpr (members q (mem_cons_of_mem _ other))
    have step : moveRunQueue cls src dst s p = .ok (((s.unlink src p).setAffinity p dst).link dst p) := by
      rw [moveRunQueue, dequeue_ok ⟨src, member⟩ queue]
      exact enqueue_ok unlinked
    rw [moveAll, ensure_bind, if_pos large]
    apply Ends.bind_ok step
    apply (ih moved members once).mono
    intro t ⟨kept, later⟩
    refine ⟨kept, fun q => (later.linked q).trans (one.linked q), ?_⟩
    intro q other c
    obtain ⟨apart, away⟩ := not_or.mp fun either => other (mem_cons.mpr either)
    exact (later.others q away c).trans (one.others q (fun single => apart (mem_singleton.mp single)) c)

theorem stolen_length (s : State n) (c : Fin n) : (stolen s c).length ≤ maxMoveProcNum := by
  rw [stolen]
  split
  · have bounded : needs s c ≤ maxMoveProcNum := min_le_right ..
    rw [length_take]
    omega
  · exact Nat.zero_le _

theorem loadBalance_ends (ordered : Ordered s) (c : Fin n) :
    Ends (fun _ => False) (loadBalance cls s c) fun t => Ordered t ∧ Moves (stolen s c) s t := by
  exact moveAll_ends ordered (fun _ => mem_of_stolen) (nodup_stolen ordered.once c)

/-- What a queue and the processes in it record about each other. -/
structure Consistent (s : State n) : Prop where
  single : ∀ c d p, p ∈ (s.cpus c).runList → p ∈ (s.cpus d).runList → c = d
  once : ∀ c, (s.cpus c).runList.Nodup
  queue : ∀ c, ∀ p ∈ (s.cpus c).runList, (s.tasks p).rq = some c
  affinity : ∀ c, ∀ p ∈ (s.cpus c).runList, (s.tasks p).cpuAffinity = c
  counted : ∀ c, (s.cpus c).procNum = (s.cpus c).runList.length

theorem Ordered.consistent (ordered : Ordered s) : Consistent s where
  single _ _ _ first second := ordered.single first second
  once := ordered.once
  queue c p member := (ordered.home c p member).1
  affinity c p member := (ordered.home c p member).2.1
  counted := ordered.counted

/-- Balancing moves at most `MAX_MOVE_PROC_NUM` processes and loses none. -/
def Balances (s : State n) : Op n → State n → Prop
  | .balance _, t => ∃ moved : List ProcId, moved.length ≤ maxMoveProcNum ∧ Moves moved s t
  | _, _ => True

/-- Waking and stopping a process are guarded by assertions, and what takes `stupid_lock` waits for
good once a CPU has called `stop_proc`; the other operations complete. -/
def Guarded (s : State n) : Op n → Fault → Prop
  | .wakeup _ _, fault => Asserts fault
  | .tryToWakeup _ _ _, fault | .stop _ _ _, fault => Stops s fault
  | .tick _, fault => Hangs s fault
  | _, _ => False

/-- A process that has never been queued is woken on the CPU of its affinity, where it was created.
-/
def AtHome (s : State n) : Op n → Prop
  | .wakeup c p =>
    (s.tasks p).state ≠ .runnable → p ≠ (s.cpus c).current → (s.tasks p).rq = none → (s.tasks p).cpuAffinity = c
  | _ => True

theorem ordered_step {op : Op n} (ordered : Ordered s) (allowed : Allowed s op)
    (atHome : AtHome s op) : Ends (Guarded s op) (step cls s op) fun result => Ordered result.1 ∧
    Balances s op result.1 := by
  cases op with
  | wakeup => exact (wakeupProc_ends ordered atHome).bind fun after kept => ⟨kept, trivial⟩
  | tryToWakeup c => exact (tryToWakeup_ends ordered c allowed.1).bind fun after kept => ⟨kept, trivial⟩
  | stop c p wait => exact (stopProc_ends ordered c p wait).bind fun after kept => ⟨kept, trivial⟩
  | balance c => exact (loadBalance_ends ordered c).bind fun after kept => ⟨kept.1, _, stolen_length s c, kept.2⟩
  | next c => exact (scheduleNext_ends ordered c).bind fun after kept => ⟨kept, trivial⟩
  | post c => exact (postSwitch_ends ordered c).bind fun after kept => ⟨kept, trivial⟩
  | tick c => exact (procTick_ends s c _).bind fun after same => ⟨same.ordered ordered, trivial⟩
  | become p proc => exact ⟨(sameQueues_setProc s p proc).ordered ordered, trivial⟩
  | alloc => exact ⟨(sameQueues_setTask _ allowed.1).ordered ordered, trivial⟩

theorem ordered_start (cls : SchedClass) (begins : (machine cls).start s) : Ordered s := by
  have empty : ∀ c, (s.cpus c).runList = [] := fun c => (begins c).1
  refine ⟨fun c => empty c ▸ nodup_nil, ?_, ?_⟩
  · intro c p member
    exact absurd (empty c ▸ member) not_mem_nil
  · intro c
    rw [(begins c).2, empty c]
    rfl

/-- While first wake-ups happen at home, the queues and what processes record about them
agree in every state, balancing only moves processes, and nothing but the assertions in
the wake-ups and in `stop_proc` and the lock that `stop_proc` keeps can stop the kernel. -/
theorem run_queues_consistent_when_at_home (n : Nat) (cls : SchedClass) (s : State n)
    (reachable : ((machine cls).restrict AtHome).Reachable s) : Consistent s ∧ ∀ op, Allowed s op → AtHome s op →
      Ends (Guarded s op) (step cls s op) fun result => Consistent result.1 ∧ Balances s op result.1 := by
  have ordered : Ordered s := by
    have always : ((machine cls).restrict (AtHome (n := n))).Always Ordered := by
      refine Machine.always_of_invariant (fun _ begins => ordered_start cls begins) ?_ fun _ kept => kept
      intro state op after output kept allowed executed
      exact ((ordered_step kept allowed.1 allowed.2).value executed).1
    exact always s reachable
  refine ⟨ordered.consistent, ?_⟩
  intro op allowed atHome
  exact (ordered_step ordered allowed atHome).mono fun result kept => ⟨kept.1.consistent, kept.2⟩

def booted : State 2 where
  tasks _ := ⟨⟨.runnable, 0⟩, none, ⟨0, Nat.zero_lt_two⟩, 0⟩
  cpus c := ⟨c, c, .running, [], 0⟩

/-- Two processes wait for CPU 0 and one for CPU 1. -/
theorem queues_filled_at_home : ∃ s : State 2, (s.cpus 0).runList = [2, 3] ∧ (s.cpus 1).runList = [4] ∧
    Consistent s := by
  have start : ((machine (n := 2) .rr).restrict AtHome).Run [] booted := .start fun _ => ⟨rfl, rfl⟩
  have first := (start.next (.alloc 0 2) ⟨show Allowed _ _ by decide, trivial⟩ rfl).next (.wakeup 0 2)
    ⟨show Allowed _ _ by decide, fun _ _ _ => by decide⟩ rfl
  have second := (first.next (.alloc 0 3) ⟨show Allowed _ _ by decide, trivial⟩ rfl).next (.wakeup 0 3)
    ⟨show Allowed _ _ by decide, fun _ _ _ => by decide⟩ rfl
  have third := (second.next (.alloc 1 4) ⟨show Allowed _ _ by decide, trivial⟩ rfl).next (.wakeup 1 4)
    ⟨show Allowed _ _ by decide, fun _ _ _ => by decide⟩ rfl
  exact ⟨_, by decide, by decide, (run_queues_consistent_when_at_home 2 .rr _ ⟨_, third⟩).1⟩

/-- Process 2 is created on CPU 0; its creator has moved to CPU 1 when it wakes it. The
process is queued on CPU 0 and its affinity is 1. -/
theorem affinity_not_the_queue_after_first_wakeup : ∃ s, (machine (n := 2) .rr).Reachable s ∧ ¬ Consistent s := by
  have start : (machine (n := 2) .rr).Run [] booted := .start fun _ => ⟨rfl, rfl⟩
  have created := start.next (.alloc 0 2) (show Allowed _ _ by decide) rfl
  have woken := created.next (.wakeup 1 2) (show Allowed _ _ by decide) rfl
  exact ⟨_, ⟨_, woken⟩, fun consistent => absurd (consistent.affinity 0 2 (by decide)) (by decide)⟩

end Ucore.RunQueues
