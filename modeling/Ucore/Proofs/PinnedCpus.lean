import Ucore.Pinning
import Ucore.Proofs.QueueOrder

/-! A pinned process stays on its CPU as long as balancing does not take it and no signal
queues it for the first time elsewhere. -/

namespace Ucore.Pinning
open Lib Sched RunQueues List

variable {n : Nat} {cls : SchedClass}

/-- Balancing takes no pinned process, and no signal wakes one that has never been queued on another
CPU. -/
def Unmoved (s : State n) : Op n → Prop
  | .run (.balance c) => ∀ p ∈ stolen s.sched c, s.home p = none
  | .run (.tryToWakeup c p group) => ∀ q ∈ p :: group, ∀ h, s.home q = some h → (s.sched.tasks q).rq = none → c = h
  | _ => True

/-- Whatever the scheduler has recorded about the process names the CPU `h`, and `more` holds until
the process is queued for the first time. -/
structure Held (p : ProcId) (h : Fin n) (more : Prop) (s : Sched.State n) : Prop where
  large : p ≥ n
  queued : ∀ c, p ∈ (s.cpus c).runList → c = h
  current : ∀ c, (s.cpus c).current = p → c = h
  prev : ∀ c, (s.cpus c).prev = p → c = h
  queue : ∀ c, (s.tasks p).rq = some c → c = h
  fresh : (s.tasks p).rq = none → (s.tasks p).cpuAffinity = h ∧ more

namespace Held
variable {s : Sched.State n} {p q : ProcId} {h c : Fin n} {more : Prop} {group : List ProcId}
    (held : Held p h more s) {next : ProcId}
include held

theorem setTask {task : Task n} (queue : q = p → ∀ c, task.rq = some c → c = h) (fresh : q = p →
    task.rq = none → task.cpuAffinity = h ∧ more) : Held p h more (s.setTask q task) := by
  refine { held with queue := ?_, fresh := ?_ } <;> by_cases here : p = q
  · simpa [State.setTask, here] using queue here.symm
  · simpa [State.setTask, here] using held.queue
  · simpa [State.setTask, here] using fresh here.symm
  · simpa [State.setTask, here] using held.fresh

theorem setProc (q : ProcId) (proc : Proc) : Held p h more (s.setProc q proc) :=
  held.setTask (fun same => same ▸ held.queue) fun same => same ▸ held.fresh

theorem setAffinity {a : Fin n} (fresh : q = p → (s.tasks p).rq = none → a = h) :
    Held p h more (s.setAffinity q a) :=
    held.setTask (fun same => same ▸ held.queue) fun same none =>
      ⟨fresh same (same ▸ none), (held.fresh (same ▸ none)).2⟩

theorem setCpu {cpu : Cpu} (queued : p ∈ cpu.runList → c = h) (current : cpu.current = p → c = h)
    (prev : cpu.prev = p → c = h) : Held p h more (s.setCpu c cpu) := by
  refine { held with queued := ?_, current := ?_, prev := ?_ } <;> intro d <;> by_cases here : d = c
  · simpa [State.setCpu, here] using queued
  · simpa [State.setCpu, here] using held.queued d
  · simpa [State.setCpu, here] using current
  · simpa [State.setCpu, here] using held.current d
  · simpa [State.setCpu, here] using prev
  · simpa [State.setCpu, here] using held.prev d

theorem setPhase (c : Fin n) (phase : Phase) : Held p h more (s.setPhase c phase) :=
  held.setCpu (held.queued c) (held.current c) (held.prev c)

theorem place (a : Fin n) (place : q = p → c = h) : Held p h more ((s.setAffinity q a).link c q) := by
  obtain ⟨task, linked, queue⟩ : ∃ task, (s.setAffinity q a).link c q = (s.setTask q task).setCpu c
    { s.cpus c with runList := (s.cpus c).runList ++ [q], procNum := (s.cpus c).procNum + 1 } ∧
    task.rq = some c := by
    simp only [State.link, State.setAffinity, State.setTask, Function.update_idem]
    exact ⟨_, rfl, rfl⟩
  rw [linked]
  refine (held.setTask (fun own d found => ?_) fun _ none => ?_).setCpu (fun member => ?_) (held.current c) (held.prev c)
  · exact Option.some.inj (found.symm.trans queue) ▸ place own
  · cases queue.symm.trans none
  · rcases mem_append.mp member with old | new
    · exact held.queued c old
    · exact place (mem_singleton.mp new).symm

theorem unlink : Held p h more (s.unlink c q) := by
  have erased : Held p h more
    { s with cpus := fun d => { s.cpus d with runList := (s.cpus d).runList.erase q } } :=
    { held with queued := fun d member => held.queued d (mem_of_mem_erase member) }
  exact erased.setCpu (erased.queued c) (held.current c) (held.prev c)

theorem enqueue (a : Fin n) (place : q = p → c = h) :
    Ends Asserts (Sched.enqueue cls (s.setAffinity q a) c q) (Held p h more) := by
  by_cases linked : s.Linked q
  · exact enqueue_linked linked
  · exact .of_ok (enqueue_ok linked) (held.place a place)

theorem dequeue (c : Fin n) (q : ProcId) : Ends Asserts (Sched.dequeue cls s c q) (Held p h more) := by
  by_cases linked : s.Linked q ∧ (s.tasks q).rq = some c
  · exact .of_ok (dequeue_ok linked.1 linked.2) held.unlink
  · exact dequeue_refused linked

theorem afterWakeup (c : Fin n) (q : ProcId) : Ends Asserts (schedClassEnqueueAfterWakeup cls s c q) (Held p h more) := by
  rw [schedClassEnqueueAfterWakeup]
  split
  · split
    next fresh => exact held.enqueue c fun same => same ▸ (held.fresh (same ▸ fresh)).1
    next queue found => exact held.enqueue queue fun same => held.queue queue (same ▸ found)
  · exact held

theorem wakeupProc (c : Fin n) (q : ProcId) : Ends Asserts (Sched.wakeupProc cls s c q) (Held p h more) := by
  simp only [Sched.wakeupProc, ensure_bind]
  split
  · split
    · split
      · split
        · exact (held.setProc q _).afterWakeup c q
        · exact ⟨_, rfl⟩
      · exact held.setProc q _
    · exact held
  · exact ⟨_, rfl⟩

theorem wakeThread (here : q = p → more → c = h) : Ends Asserts (RunQueues.wakeThread cls s c q) (Held p h more) := by
  have woken := held.setProc q ⟨.runnable, 0⟩
  rw [RunQueues.wakeThread]
  split
  · exact (woken.setAffinity fun same none => here same (woken.fresh none).2).afterWakeup c q
  · exact woken

theorem wakeGroup (here : p ∈ group → more → c = h) : Ends Asserts (RunQueues.wakeGroup cls c s group) (Held p h more) := by
  induction group generalizing s with
  | nil => exact held
  | cons next rest ih =>
    have others (member : p ∈ rest) := here (mem_cons_of_mem next member)
    rw [RunQueues.wakeGroup]
    split
    · exact (held.wakeThread fun same => here (by simp [same])).bind fun _ kept => ih kept others
    · exact ih held others

theorem tryToWakeup (here : p ∈ q :: group → more → c = h) :
    Ends (Stops s) (RunQueues.tryToWakeup cls s c q group) fun result => Held p h more result.1 := by
  have others (member : p ∈ group) := here (mem_cons_of_mem _ member)
  refine (acquire_ends s).bind fun _ _ => (show Ends Asserts _ _ from ?_).excuse fun _ => .inl
  simp only [ensure_bind]
  split
  · split
    · apply (held.wakeThread fun same => here (by simp [same])).bind
      exact fun _ woken => (woken.wakeGroup others).bind fun _ kept => kept
    · exact (held.wakeGroup others).bind fun _ kept => kept
  · exact ⟨_, rfl⟩

theorem stopProc (c : Fin n) (q : ProcId) (wait : UInt32) :
    Ends (Stops s) (RunQueues.stopProc cls s c q wait) (Held p h more) := by
  have stopped := held.setProc q ⟨.sleeping, wait⟩
  refine (acquire_ends s).bind fun _ _ => ?_
  have dequeued : Ends (Stops s) (dequeueLinked cls (s.setProc q ⟨.sleeping, wait⟩) c q) (Held p h more) := by
    rw [dequeueLinked]
    split
    · exact (stopped.dequeue c q).excuse fun _ => .inl
    · exact stopped
  exact dequeued.bind fun after kept => { kept with }

theorem moveAll {src : Fin n} (absent : p ∉ group) : Ends Asserts (Sched.moveAll cls src c s group) (Held p h more) := by
  induction group generalizing s with
  | nil => exact held
  | cons next rest ih =>
    obtain ⟨other, absent⟩ := not_or.mp (mem_cons.not.mp absent)
    rw [Sched.moveAll, ensure_bind]
    split
    · have moved : Ends Asserts (moveRunQueue cls src c s next) (Held p h more) :=
        (held.dequeue src next).bind fun _ kept => kept.enqueue c fun same => absurd same.symm other
      exact moved.bind fun _ kept => ih kept absent
    · exact ⟨_, rfl⟩

theorem switchTo (here : next = p → c = h) : Held p h more (Sched.switchTo s c next) := by
  rw [Sched.switchTo]
  split
  · exact held.setCpu (held.queued c) here (held.current c)
  · exact held.setPhase c _

theorem choose (here : next = p → c = h) : Held p h more (Sched.switchTo (s.setPhase c (.chosen next)) c
    (match ((s.setPhase c (.chosen next)).cpus c).phase with
      | .chosen next => next
      | _ => ((s.setPhase c (.chosen next)).cpus c).current)) := by
  rw [cpus_setPhase_same]
  exact (held.setPhase c _).switchTo here

theorem scheduleNext (c : Fin n) : Ends Asserts (RunQueues.scheduleNext cls s c) (Held p h more) := by
  rw [RunQueues.scheduleNext]
  cases first : (s.cpus c).runList.head? with
  | none =>
    refine held.choose ?_
    split
    · exact held.current c
    · exact fun same => absurd held.large (same ▸ not_le.mpr c.isLt)
  | some next =>
    rw [dequeueNext, bind_assoc]
    apply (held.dequeue c next).bind
    exact fun _ kept => kept.choose fun same => held.queued c (same ▸ mem_of_mem_head? first)

theorem postSwitch (c : Fin n) : Ends Asserts (Sched.postSwitch cls s c) (Held p h more) := by
  rw [Sched.postSwitch]
  split
  · rw [schedClassEnqueue, ensure_bind]
    split
    · split
      · exact held.enqueue c fun same => held.prev c same
      · exact ⟨_, rfl⟩
    · exact held.setAffinity fun same _ => held.prev c same
  · exact held

theorem procTick (c : Fin n) (q : ProcId) :
    Ends (Stops s) (schedClassProcTick s c q) fun result => Held p h more result.1 := by
  refine (acquire_ends s).bind fun _ _ => ?_
  show Held p h more (if q ≠ c then rrProcTick s q else (s, true)).1
  split
  · exact held.setTask (fun same => same ▸ held.queue) fun same => same ▸ held.fresh
  · exact held

end Held

theorem held_alloc {s : Sched.State n} {c : Fin n} {p : ProcId} (large : p ≥ n)
    (unlinked : ¬ s.Linked p) (free : ∀ d, (s.cpus d).current ≠ p ∧ (s.cpus d).prev ≠ p) :
    Held p c True (allocProc s c p) := by
  refine ⟨large, fun d member => absurd ⟨d, member⟩ unlinked, fun d at_ => absurd at_ (free d).1,
    fun d at_ => absurd at_ (free d).2, ?_, ?_⟩
  all_goals simp [allocProc, State.setTask]

theorem held_step {s : State n} {op : RunQueues.Op n} {p : ProcId} {h : Fin n}
    (held : Held p h True s.sched) (pinned : s.home p = some h) (allowed : Allowed s (.run op))
    (unmoved : Unmoved s (.run op)) :
    Ends (Stops s.sched) (RunQueues.step cls s.sched op) fun result => Held p h True result.1 := by
  cases op with
  | wakeup c q => exact ((held.wakeupProc c q).excuse fun _ => .inl).bind fun _ kept => kept
  | tryToWakeup c q group =>
    have signalled : Held p h (p ∈ q :: group → c = h) s.sched :=
      { held with
      fresh := fun none => ⟨(held.fresh none).1, fun member => unmoved p member h pinned none⟩ }
    refine (signalled.tryToWakeup fun member more => more member).bind fun result kept => ?_
    exact { kept with fresh := fun none => ⟨(kept.fresh none).1, trivial⟩ }
  | stop c q wait => exact (held.stopProc c q wait).bind fun _ kept => kept
  | balance c =>
    have absent : p ∉ stolen s.sched c := fun member => by simpa [pinned] using unmoved p member
    exact ((held.moveAll absent).excuse fun _ => .inl).bind fun _ kept => kept
  | next c => exact ((held.scheduleNext c).excuse fun _ => .inl).bind fun _ kept => kept
  | post c => exact ((held.postSwitch c).excuse fun _ => .inl).bind fun _ kept => kept
  | tick c => exact (held.procTick c _).bind fun _ kept => kept
  | become q proc => exact held.setProc q proc
  | alloc => exact absurd allowed id

def Holds (s : State n) : Prop := ∀ p h, s.home p = some h → Held p h True s.sched

theorem holds_step {s after : State n} {op : Op n} {output : Unit} (holds : Holds s)
    (allowed : Allowed s op) (unmoved : Unmoved s op) (ran : step cls s op = .ok (after, output)) :
    Holds after := by
  intro p h pinned
  cases op with
  | fork c q pin =>
    obtain ⟨large, unlinked, free⟩ := allowed
    cases ran
    obtain rfl | here := eq_or_ne p q
    · have home : (if pin then some c else none) = some h := by simpa using pinned
      obtain ⟨_, same⟩ := Option.ite_none_right_eq_some.mp home
      exact Option.some.inj same ▸ held_alloc large unlinked free
    · have before : s.home p = some h := by simpa [here] using pinned
      exact (holds p h before).setTask (fun same => absurd same.symm here) fun same => absurd same.symm here
  | run =>
    obtain ⟨result, stepped, ran⟩ := exists_of_bind ran
    cases ran
    exact (held_step (holds p h pinned) pinned allowed unmoved).value stepped

/-- In every run in which balancing and signals leave pinned processes where they are, these
stay on the CPU they were created for. -/
theorem pinned_when_unmoved (n : Nat) (cls : SchedClass) : ((machine cls).restrict (Unmoved (n := n))).Always Pinned := by
  refine Machine.always_of_invariant (fun s begins p h pinned => ?_)
    (fun s op after output holds allowed executed => holds_step holds allowed.1 allowed.2 executed)
      fun s holds p h pinned c at_ => ?_
  · rw [begins.2 p] at pinned
    cases pinned
  · exact at_.elim ((holds p h pinned).queued c) ((holds p h pinned).current c)

/-- Eight pinned processes are created on CPU 0. CPU 1 has nothing to do and takes four of them. -/
theorem balancing_moves_pinned_processes : ¬ (machine (n := 2) .rr).Always Pinned := by
  intro always
  obtain ⟨s, reachable, home, member⟩ : ∃ s, (machine (n := 2) .rr).Reachable s ∧
    s.home 2 = some 0 ∧ 2 ∈ (s.sched.cpus 1).runList :=
    Machine.exists_of_replay (show (machine .rr).start ⟨RunQueues.booted, fun _ =>
      none⟩ from ⟨fun _ => ⟨rfl, rfl⟩, fun _ => rfl⟩)
      ((range' 2 8).flatMap (fun p => [Op.fork 0 p true, .run (.wakeup 0 p)]) ++ [.run (.balance 1)]) (by decide +kernel)
  exact absurd (always s reachable 2 0 home 1 (.inl member)) (by decide)

end Ucore.Pinning
