import Ucore.Proofs.ReapSafety
import Ucore.WaitChild

/-! No exit goes unnoticed when no child looks for waiting parents between a parent's
search and its going to sleep. -/

namespace Ucore.WaitChild
open Lib Reap Function List

variable {n : Nat} {s after : Reap.State n} {c : Fin n} {p q r pid : ProcId} {thread : Bool}
    {phase : Phase} {child : ProcId} {parent : ProcId}
  {between : Reap.State n}

theorem mem_others_iff {ring : List ProcId} (member : p ∈ ring) : r = p ∨ r ∈ others ring p ↔ r ∈ ring := by
  obtain ⟨earlier, later, rfl, same⟩ := others_split member
  rw [same]
  simp only [mem_append, mem_cons]
  tauto

theorem mem_threads : r ∈ threads s p ↔ r = p ∨ p ∈ s.ring (s.tasks p).gid ∧ r ∈ s.ring (s.tasks p).gid := by
  rw [threads]
  split
  · next member =>
    rw [mem_cons, mem_others_iff member]
    exact ⟨fun listed => .inr ⟨member, listed⟩, by rintro (rfl | ⟨_, listed⟩) <;> assumption⟩
  · next absent =>
    rw [mem_singleton]
    exact ⟨.inl, fun either => either.resolve_right fun both => absent both.1⟩

/-- Some processes that were not zombies have become runnable. -/
def Stirred (s after : Reap.State n) : Prop :=
  ∀ p, (after.tasks p).toProc = (s.tasks p).toProc ∨ (s.tasks p).state ≠ .zombie ∧ (after.tasks p).toProc = ⟨.runnable, 0⟩

theorem Stirred.refl (s : Reap.State n) : Stirred s s := fun _ => .inl rfl

theorem Stirred.zombie (stirred : Stirred s after) (p : ProcId) : (after.tasks p).state = .zombie ↔
    (s.tasks p).state = .zombie := by
  rcases stirred p with same | ⟨alive, awake⟩
  · rw [same]
  · rw [awake]
    exact iff_of_false (fun never => by cases never) alive

theorem Stirred.born (stirred : Stirred s after) (born : (s.tasks p).state ≠ .uninit) : (after.tasks p).state ≠ .uninit := by
  rcases stirred p with same | ⟨_, awake⟩
  · rwa [same]
  · rw [awake]
    exact fun never => by cases never

theorem Stirred.sleeps (stirred : Stirred s after) (sleeps : Sleeps after p) : Sleeps s p := by
  rcases stirred p with same | ⟨_, awake⟩
  · rwa [Sleeps, same] at sleeps
  · rw [Sleeps, awake] at sleeps
    cases sleeps.1

theorem Stirred.trans (first : Stirred s between) (second : Stirred between after) : Stirred s after := by
  intro p
  rcases second p with same | ⟨alive, awake⟩
  · rw [same]
    exact first p
  · exact .inr ⟨fun dead => alive ((first.zombie p).mpr dead), awake⟩

structure SameLinks (s after : Reap.State n) : Prop where
  links : ∀ p, (after.tasks p).parent = (s.tasks p).parent ∧ (after.tasks p).children = (s.tasks p).children ∧
    (after.tasks p).gid = (s.tasks p).gid ∧ (after.tasks p).hashed = (s.tasks p).hashed
  ring : after.ring = s.ring

theorem SameLinks.refl (s : Reap.State n) : SameLinks s s := ⟨fun _ => ⟨rfl, rfl, rfl, rfl⟩, rfl⟩

theorem SameLinks.trans (first : SameLinks s between) (second : SameLinks between after) : SameLinks s after := by
  refine ⟨fun p => ?_, second.ring.trans first.ring⟩
  obtain ⟨parent, children, gid, hashed⟩ := first.links p
  obtain ⟨parent', children', gid', hashed'⟩ := second.links p
  exact ⟨parent'.trans parent, children'.trans children, gid'.trans gid, hashed'.trans hashed⟩

theorem SameLinks.threads (same : SameLinks s after) (p : ProcId) :
    threads after p = threads s p := by
      rw [Reap.threads, Reap.threads, same.ring, (same.links p).2.2.1]

theorem SameLinks.awaits (same : SameLinks s after) : Awaits after pid p q ↔ Awaits s pid p q := by
  rw [Awaits, Awaits, same.threads, (same.links q).1, (same.links q).2.2.2]
  simp only [(same.links _).2.1]

theorem sameLinks_setProc (s : Reap.State n) (p : ProcId) (proc : Proc) (frees : Nat) :
    SameLinks s (s.setTask p { s.tasks p with toProc := proc, frees }) := by
  refine ⟨fun q => ?_, rfl⟩
  by_cases here : q = p
  · rw [here, tasks_setTask_same]
    exact ⟨rfl, rfl, rfl, rfl⟩
  · rw [tasks_setTask_other _ here]
    exact ⟨rfl, rfl, rfl, rfl⟩

structure Wakes (s after : Reap.State n) : Prop where
  stirred : Stirred s after
  same : SameLinks s after
  cpus : after.cpus = s.cpus

theorem Wakes.refl (s : Reap.State n) : Wakes s s := ⟨.refl s, .refl s, rfl⟩

theorem Wakes.trans (first : Wakes s between) (second : Wakes between after) : Wakes s after :=
  ⟨first.stirred.trans second.stirred, first.same.trans second.same, second.cpus.trans first.cpus⟩

theorem wakeupProc_wakes (ran : Reap.wakeupProc s p = .ok after) : Wakes s after ∧ ¬ Sleeps after p := by
  rw [Reap.wakeupProc] at ran
  by_cases alive : (s.tasks p).state ≠ .zombie
  · rw [wakeupProc_ok alive] at ran
    cases ran
    refine ⟨⟨fun q => ?_, sameLinks_setProc .., rfl⟩, ?_⟩
    · by_cases here : q = p
      · rw [here, tasks_setTask_same]
        split
        · exact .inr ⟨alive, rfl⟩
        · exact .inl rfl
      · rw [tasks_setTask_other _ here]
        exact .inl rfl
    · rw [Sleeps, tasks_setTask_same]
      split
      · exact fun sleeps => by cases sleeps.1
      · next runnable => exact fun sleeps => by cases (not_not.mp runnable).symm.trans sleeps.1
  · rw [Ucore.wakeupProc, ensure_bind, if_neg alive] at ran
    cases ran

theorem wakeWaiter_wakes (ran : wakeWaiter s p = .ok after) : Wakes s after ∧ ¬ Sleeps after p := by
  rw [wakeWaiter] at ran
  split at ran
  · exact wakeupProc_wakes ran
  · next other =>
    cases ran
    exact ⟨.refl s, fun sleeps => other sleeps.2⟩

theorem wakeWaiters_wakes {sleepers : List ProcId} (ran : wakeWaiters s sleepers = .ok after) :
    Wakes s after ∧ ∀ p ∈ sleepers, ¬ Sleeps after p := by
  induction sleepers generalizing s with
  | nil =>
    cases ran
    exact ⟨.refl _, fun _ never => by cases never⟩
  | cons head rest ih =>
    obtain ⟨between, woken, ran⟩ := exists_of_bind ran
    obtain ⟨first, awake⟩ := wakeWaiter_wakes woken
    obtain ⟨later, others⟩ := ih ran
    refine ⟨first.trans later, fun p listed => ?_⟩
    rcases mem_cons.mp listed with rfl | listed
    · exact fun sleeps => awake (later.stirred.sleeps sleeps)
    · exact others p listed

structure Moved (parent : ProcId) (kids : List ProcId) (s after : Reap.State n) : Prop where
  stirred : Stirred s after
  parents : ∀ q, (after.tasks q).parent = if q ∈ kids then parent else (s.tasks q).parent
  children : ∀ r q, q ∈ (after.tasks r).children ↔ q ∈ (s.tasks r).children ∨ r = parent ∧ q ∈ kids
  same : ∀ q, (after.tasks q).gid = (s.tasks q).gid ∧ (after.tasks q).hashed = (s.tasks q).hashed
  ring : after.ring = s.ring
  cpus : after.cpus = s.cpus
  awake : (∃ q ∈ kids, (s.tasks q).state = .zombie) → ¬ Sleeps after parent

theorem setParent_moves (s : Reap.State n) (parent q : ProcId) :
    (∀ r, ((setParent s parent q).tasks r).toProc = (s.tasks r).toProc) ∧
    (∀ r, ((setParent s parent q).tasks r).parent = if r = q then parent else (s.tasks r).parent) ∧
    (∀ r, ((setParent s parent q).tasks r).children = if r = parent then q ::
      (s.tasks r).children else (s.tasks r).children) ∧
    ∀ r, ((setParent s parent q).tasks r).gid = (s.tasks r).gid ∧
      ((setParent s parent q).tasks r).hashed = (s.tasks r).hashed := by
  simp only [setParent, State.setTask, update_apply]
  refine ⟨fun r => ?_, fun r => ?_, fun r => ?_, fun r => ?_⟩
  all_goals by_cases first : r = parent <;> by_cases second : r = q <;> by_cases third : parent = q <;> simp_all

theorem reparentOne_moves (ran : reparentOne parent s q = .ok after) : Moved parent [q] s after := by
  obtain ⟨procs, parents, children, same⟩ := setParent_moves s parent q
  have listed : ∀ r x, x ∈ ((setParent s parent q).tasks r).children ↔ x ∈ (s.tasks r).children ∨ r = parent ∧ x ∈ [q] := by
    intro r x
    rw [children]
    split
    · next here => simp [here, or_comm]
    · next other => simp [other]
  have stirred : Stirred s (setParent s parent q) := fun r => .inl (procs r)
  rw [reparentOne] at ran
  split at ran
  · obtain ⟨wakes, awake⟩ := wakeWaiter_wakes ran
    refine ⟨stirred.trans wakes.stirred, fun r => ?_, fun r x => ?_, fun r => ?_, wakes.same.ring,
      wakes.cpus, fun _ => awake⟩
    · rw [(wakes.same.links r).1, parents]
      simp
    · rw [(wakes.same.links r).2.1, listed]
    · rw [(wakes.same.links r).2.2.1, (wakes.same.links r).2.2.2]
      exact same r
  · next alive =>
    cases ran
    refine ⟨stirred, fun r => by rw [parents]; simp, listed, same, rfl, rfl, ?_⟩
    rintro ⟨x, only, dead⟩
    rw [mem_singleton.mp only, ← stirred.zombie q] at dead
    exact absurd dead alive

theorem reparent_moves {kids : List ProcId} (ran : reparent parent s kids = .ok after) : Moved parent kids s after := by
  induction kids generalizing s with
  | nil =>
    cases ran
    exact ⟨.refl _, fun _ => rfl, fun r q => by simp, fun _ => ⟨rfl, rfl⟩, rfl, rfl, fun ⟨_, never, _⟩ => by cases never⟩
  | cons head rest ih =>
    obtain ⟨between, one, ran⟩ := exists_of_bind ran
    have first := reparentOne_moves one
    have later := ih ran
    refine ⟨first.stirred.trans later.stirred, fun q => ?_, fun r q => ?_, fun q => ?_,
      later.ring.trans first.ring, later.cpus.trans first.cpus, ?_⟩
    · rw [later.parents, first.parents]
      by_cases here : q ∈ rest <;> simp [here]
    · rw [later.children, first.children, mem_singleton, mem_cons]
      rw [or_assoc, ← and_or_left]
    · rw [(later.same q).1, (later.same q).2]
      exact first.same q
    · rintro ⟨q, listed, dead⟩
      rcases mem_cons.mp listed with rfl | listed
      · exact fun sleeps => first.awake ⟨q, mem_singleton_self q, dead⟩ (later.stirred.sleeps sleeps)
      · exact later.awake ⟨q, listed, (first.stirred.zombie q).mpr dead⟩

/-- The links of processes and of groups fit together, and only processes that have been created are
linked. -/
structure Linked (s : Reap.State n) : Prop where
  child : ∀ r q, q ∈ (s.tasks r).children → (s.tasks q).parent = r ∧ (s.tasks q).state ≠ .uninit
  member : ∀ g r, r ∈ s.ring g → (s.tasks r).gid = g ∧ (s.tasks r).state ≠ .uninit
  hashed : ∀ q, (s.tasks q).hashed = true → (s.tasks (s.tasks q).parent).state ≠ .uninit
  single : ∀ r, (s.tasks r).gid = initproc n ↔ r = initproc n
  booted : ∀ p ≤ initproc n, (s.tasks p).state ≠ .uninit
  started : ∀ c, (s.tasks (s.current c)).state ≠ .uninit
  exiting : ∀ c, (s.cpus c).phase = .zombie ∨ (s.cpus c).phase = .notified → initproc n < s.current c

theorem Linked.threads_symm (linked : Linked s) (listed : r ∈ threads s p) : p ∈ threads s r := by
  rcases mem_threads.mp listed with rfl | ⟨here, there⟩
  · exact mem_threads.mpr (.inl rfl)
  · have gid := (linked.member _ r there).1
    exact mem_threads.mpr (.inr ⟨gid.symm ▸ there, gid.symm ▸ here⟩)

theorem Linked.parent_of_awaits (linked : Linked s) (awaits : Awaits s pid p q) : (s.tasks q).parent ∈ threads s p := by
  rw [Awaits] at awaits
  split at awaits
  · exact awaits.2.2
  · obtain ⟨thread, listed, kid⟩ := awaits
    rwa [(linked.child thread q kid).1]

/-- A process is waiting for children, or has searched in vain and is about to. -/
inductive Watches (w : State n) (p : ProcId) : ProcId → Prop where
  | asleep (sleeps : Sleeps w.sys p) : Watches w p (w.awaited p)
  | unready (c : Fin n) (current : w.sys.current c = p) (at_ : (w.sys.cpus c).phase = .unready) : Watches w p (w.searched c)

/-- No zombie that is waited for has looked for waiting parents. -/
def Attended (w : State n) : Prop :=
  ∀ p pid q, Watches w p pid → Awaits w.sys pid p q → (w.sys.tasks q).state = .zombie → Unannounced w.sys q

structure Inv (w : State n) : Prop where
  linked : Linked w.sys
  attended : Attended w

/-- No child looks for waiting parents, and no exiting process hands a zombie over, while the
parent is between its search and its going to sleep. -/
def Attentive (w : State n) : Op n → Prop
  | .notify c =>
    ∀ d, (w.sys.cpus d).phase = .unready → w.sys.current d ∉ threads w.sys
      (w.sys.tasks (w.sys.current c)).parent
  | .reparent c => ∀ d, (w.sys.cpus d).phase = .unready → w.sys.current d = heir w.sys (w.sys.current c) →
      ∀ q ∈ (w.sys.tasks (w.sys.current c)).children, (w.sys.tasks q).state ≠ .zombie
  | _ => True

variable {w next : State n} {new : ProcId} {g : ProcId} {d : Fin n}

theorem Attended.mono (attended : Attended w) (watches : ∀ p pid, Watches next p pid →
    Watches w p pid) (fewer : ∀ p pid q, Watches next p pid → Awaits next.sys pid p q →
    (next.sys.tasks q).state = .zombie →
      Awaits w.sys pid p q ∧ (w.sys.tasks q).state = .zombie ∨ Unannounced next.sys q)
        (still : ∀ q, Unannounced w.sys q → Unannounced next.sys q) : Attended next := by
  intro p pid q watching awaits dead
  rcases fewer p pid q watching awaits dead with ⟨before, was⟩ | pending
  · exact still q (attended p pid q (watches p pid watching) before was)
  · exact pending

section
variable (linked : Linked s)
include linked

theorem Linked.mono (same : SameLinks s after) (born : ∀ p, (s.tasks p).state ≠ .uninit →
    (after.tasks p).state ≠ .uninit) (started : ∀ c, (s.tasks (after.current c)).state ≠ .uninit)
    (exiting : ∀ c, (after.cpus c).phase = .zombie ∨ (after.cpus c).phase = .notified →
      initproc n < after.current c) : Linked after := by
  refine ⟨fun r q listed => ?_, fun g r listed => ?_, fun q hashed => ?_, fun r => ?_, fun p old =>
    born p (linked.booted p old), fun c => born _ (started c), exiting⟩
  · rw [(same.links r).2.1] at listed
    rw [(same.links q).1]
    exact ⟨(linked.child r q listed).1, born q (linked.child r q listed).2⟩
  · rw [same.ring] at listed
    rw [(same.links r).2.2.1]
    exact ⟨(linked.member g r listed).1, born r (linked.member g r listed).2⟩
  · rw [(same.links q).2.2.2] at hashed
    rw [(same.links q).1]
    exact born _ (linked.hashed q hashed)
  · rw [(same.links _).2.2.1]
    exact linked.single r

theorem Linked.setPhase {phase : Phase} (young : phase = .zombie ∨ phase = .notified →
    initproc n < s.current c) : Linked (s.setPhase c phase) := by
  refine linked.mono ⟨fun _ => ⟨rfl, rfl, rfl, rfl⟩, rfl⟩ (fun _ => id)
    (fun d => by rw [current_setPhase]; exact linked.started d) fun d at_ => ?_
  rw [current_setPhase]
  by_cases here : d = c
  · rw [here, phase_setPhase_same] at at_
    exact here ▸ young at_
  · rw [phase_setPhase_other phase here] at at_
    exact linked.exiting d at_

theorem Linked.wakes (wakes : Wakes s after) : Linked after := by
  refine linked.mono wakes.same (fun p => wakes.stirred.born) (fun c => ?_) fun c at_ => ?_
  · rw [Reap.State.current, wakes.cpus]
    exact linked.started c
  · rw [wakes.cpus] at at_
    rw [Reap.State.current, wakes.cpus]
    exact linked.exiting c at_

theorem Linked.setProc {proc : Proc} (born : proc.state ≠ .uninit) :
    Linked (s.setTask p { s.tasks p with toProc := proc }) := by
  refine linked.mono (sameLinks_setProc s p proc _) (fun q was => ?_) linked.started linked.exiting
  by_cases here : q = p
  · rwa [here, tasks_setTask_same]
  · rwa [tasks_setTask_other _ here]

theorem Linked.switch {prev : ProcId} (born : (s.tasks new).state ≠ .uninit) :
    Linked (s.setCpu c ⟨new, .switching prev⟩) := by
  refine linked.mono ⟨fun _ => ⟨rfl, rfl, rfl, rfl⟩, rfl⟩ (fun _ => id) (fun d => ?_) fun d at_ => ?_
  · obtain rfl | here := eq_or_ne d c
    · simpa [Reap.State.current, State.setCpu] using born
    · simpa [Reap.State.current, State.setCpu, here] using linked.started d
  · obtain rfl | here := eq_or_ne d c
    · simp [State.setCpu] at at_
    · simp only [State.setCpu, update_of_ne here] at at_
      simpa [Reap.State.current, State.setCpu, here] using linked.exiting d at_

theorem Linked.removeLinks (p : ProcId) : Linked (removeLinks s p) := by
  have kids : ∀ r q, q ∈ ((Reap.removeLinks s p).tasks r).children → q ∈ (s.tasks r).children := by
    intro r q listed
    simp only [tasks_removeLinks] at listed
    split at listed
    · exact mem_of_mem_erase listed
    · exact listed
  refine ⟨fun r q listed => ?_, fun g r listed => ?_, fun q hashed => ?_, fun q => ?_, fun q old =>
    ?_, fun c => ?_, linked.exiting⟩
  · simp only [tasks_removeLinks s p q]
    exact linked.child r q (kids r q listed)
  · simp only [tasks_removeLinks]
    exact linked.member g r listed
  · simp only [tasks_removeLinks] at hashed ⊢
    split at hashed
    · cases hashed
    · exact linked.hashed q hashed
  · simp only [tasks_removeLinks]
    exact linked.single q
  · simp only [tasks_removeLinks]
    exact linked.booted q old
  · simp only [tasks_removeLinks]
    exact linked.started c

end

theorem mem_ring_fork (listed : r ∈ (fork s p child thread).ring g) : r = child ∧
    g = s.joins p child thread ∨ r ∈ s.ring g := by
  rw [ring_fork] at listed
  split at listed
  · next here =>
    rw [State.joined] at listed
    split at listed
    · next threaded =>
      rcases (mem_insertIdx (idxOf_le_length)).mp listed with new | old
      · exact .inl ⟨new, here⟩
      · refine .inr ?_
        rwa [here, State.joins, if_pos threaded]
    · exact .inl ⟨mem_singleton.mp listed, here⟩
  · exact .inr listed

section
variable {child : ProcId} {thread : Bool} (linked : Linked s) (fresh : (s.tasks child).state = .uninit)
include linked fresh

theorem Linked.different : s.current c ≠ child := fun same => linked.started c (same ▸ fresh)

theorem Linked.task_fork (c : Fin n) (thread : Bool) (q : ProcId) (other : q ≠ child) :
    ((fork s (s.current c) child thread).tasks q).toProc = (s.tasks q).toProc ∧
    ((fork s (s.current c) child thread).tasks q).parent = (s.tasks q).parent ∧
      ((fork s (s.current c) child thread).tasks q).gid = (s.tasks q).gid ∧
      ((fork s (s.current c) child thread).tasks q).hashed = (s.tasks q).hashed := by
  rw [tasks_fork thread (linked.different fresh)]
  split
  · next here => exact here ▸ ⟨rfl, rfl, rfl, rfl⟩
  · exact ⟨rfl, rfl, rfl, rfl⟩

theorem Linked.child_fork (c : Fin n) (thread : Bool) : (fork s (s.current c) child thread).tasks
    child = ⟨⟨.runnable, 0⟩, s.current c, [], s.joins (s.current c) child thread, true, 0, 0⟩ := by
  rw [tasks_fork thread (linked.different fresh), if_neg (linked.different fresh).symm, if_pos rfl]

theorem Linked.children_fork (listed : q ∈ ((fork s (s.current c) child thread).tasks r).children) :
    q = child ∧ r = s.current c ∨ q ≠ child ∧ r ≠ child ∧ q ∈ (s.tasks r).children := by
  have old : ∀ {q r}, q ∈ (s.tasks r).children → q ≠ child := fun listed same => (linked.child _ _ listed).2 (same ▸ fresh)
  rw [tasks_fork thread (linked.different fresh)] at listed
  split at listed
  · next here =>
    rcases mem_cons.mp listed with new | kid
    · exact .inl ⟨new, here⟩
    · exact .inr ⟨old kid, here ▸ linked.different fresh, here ▸ kid⟩
  · split at listed
    · cases listed
    · next other => exact .inr ⟨old listed, other, listed⟩

theorem Linked.fork (young : initproc n < child) (grown : thread = true → initproc n < s.current c) :
    Linked (fork s (s.current c) child thread) := by
  have born : ∀ q, (s.tasks q).state ≠ .uninit → ((Reap.fork s (s.current c) child thread).tasks q).state ≠ .uninit := by
    intro q was
    rwa [(linked.task_fork fresh c thread q fun same => was (same ▸ fresh)).1]
  have new := linked.child_fork fresh c thread
  have cpus : (Reap.fork s (s.current c) child thread).cpus = s.cpus := by cases thread <;> rfl
  have current : ∀ d, (Reap.fork s (s.current c) child thread).current d = s.current d :=
    fun d => by rw [Reap.State.current, cpus]; rfl
  refine ⟨fun r q listed => ?_, fun g r listed => ?_, fun q hashed => ?_, fun r => ?_, fun p old =>
    born p (linked.booted p old),
    fun d => by
      rw [current]; exact born _ (linked.started d), fun d at_ =>
        by rw [cpus] at at_; rw [current]; exact linked.exiting d at_⟩
  · rcases linked.children_fork fresh listed with ⟨rfl, rfl⟩ | ⟨other, _, kid⟩
    · rw [new]
      exact ⟨rfl, fun never => by cases never⟩
    · rw [(linked.task_fork fresh c thread q other).2.1]
      exact ⟨(linked.child r q kid).1, born q (linked.child r q kid).2⟩
  · rcases mem_ring_fork listed with ⟨rfl, rfl⟩ | old
    · rw [new]
      exact ⟨rfl, fun never => by cases never⟩
    · obtain ⟨gid, was⟩ := linked.member g r old
      rw [(linked.task_fork fresh c thread r fun same => was (same ▸ fresh)).2.2.1]
      exact ⟨gid, born r was⟩
  · by_cases here : q = child
    · rw [here, new]
      exact born _ (linked.started c)
    · obtain ⟨_, parent, _, same⟩ := linked.task_fork fresh c thread q here
      rw [same] at hashed
      rw [parent]
      exact born _ (linked.hashed q hashed)
  · by_cases here : r = child
    · rw [here, new]
      refine iff_of_false ?_ young.ne'
      rw [State.joins]
      split
      · next threaded => exact fun same => Nat.ne_of_gt (grown threaded) ((linked.single _).mp same)
      · exact young.ne'
    · rw [(linked.task_fork fresh c thread r here).2.2.1]
      exact linked.single r

end

theorem heir_cases (s : Reap.State n) (p : ProcId) : heir s p ∈ threads s p ∨ heir s p = initproc n := by
  rw [heir]
  cases rest : (threads s p).tail with
  | nil => exact .inr rfl
  | cons =>
    refine .inl (mem_of_mem_tail ?_)
    rw [rest]
    exact mem_cons_self

theorem ring_subset_deThread (listed : r ∈ (deThread s p).ring g) : r ∈ s.ring g := by
  rw [ring_deThread] at listed
  split at listed
  · exact mem_of_mem_erase listed
  · exact listed

structure Given (s : Reap.State n) (p : ProcId) (after : Reap.State n) : Prop where
  stirred : Stirred s after
  parents : ∀ q, (after.tasks q).parent = if q ∈ (s.tasks p).children then heir s p else (s.tasks q).parent
  children : ∀ r q, q ∈ (after.tasks r).children → r ≠ p ∧ q ∈ (s.tasks r).children ∨ r = heir s p ∧
    q ∈ (s.tasks p).children
  same : ∀ q, (after.tasks q).gid = (s.tasks q).gid ∧ (after.tasks q).hashed = (s.tasks q).hashed
  ring : ∀ g r, r ∈ after.ring g → r ∈ s.ring g
  cpus : after.cpus = s.cpus
  awake : (∃ q ∈ (s.tasks p).children, (s.tasks q).state = .zombie) → ¬ Sleeps after (heir s p)

theorem giveChildren_gives (ran : giveChildren s p = .ok after) : Given s p after := by
  have moved := reparent_moves ran
  generalize startIs : (deThread s p).setTask p { (deThread s p).tasks p with children := [] } = start at moved ⊢
  have own : start.tasks p = { s.tasks p with children := [] } := by rw [← startIs, tasks_setTask_same]; rfl
  have others : ∀ q, q ≠ p → start.tasks q = s.tasks q := fun q other => by rw [← startIs, tasks_setTask_other _ other]; rfl
  have same : ∀ q, (start.tasks q).toProc = (s.tasks q).toProc ∧
    (start.tasks q).parent = (s.tasks q).parent ∧ (start.tasks q).gid = (s.tasks q).gid ∧
    (start.tasks q).hashed = (s.tasks q).hashed := by
    intro q
    by_cases here : q = p
    · rw [here, own]
      exact ⟨rfl, rfl, rfl, rfl⟩
    · rw [others q here]
      exact ⟨rfl, rfl, rfl, rfl⟩
  have stirred : Stirred s start := fun q => .inl (same q).1
  refine ⟨stirred.trans moved.stirred, fun q => ?_, fun r q listed => ?_, fun q => ?_, fun g r listed => ?_, ?_, ?_⟩
  · rw [moved.parents, (same q).2.1]
    rfl
  · rcases (moved.children r q).mp listed with old | new
    · refine .inl ?_
      by_cases here : r = p
      · rw [here, own] at old
        cases old
      · rw [others r here] at old
        exact ⟨here, old⟩
    · exact .inr new
  · rw [(moved.same q).1, (moved.same q).2]
    exact (same q).2.2
  · rw [moved.ring, ← startIs] at listed
    exact ring_subset_deThread listed
  · rw [moved.cpus, ← startIs]
    rfl
  · rintro ⟨q, kid, dead⟩
    exact moved.awake ⟨q, kid, (stirred.zombie q).mpr dead⟩

theorem Linked.given (linked : Linked s) (given : Given s p after) (born : (s.tasks p).state ≠ .uninit) : Linked after := by
  have heirBorn : (s.tasks (heir s p)).state ≠ .uninit := by
    rcases heir_cases s p with thread | init
    · rcases mem_threads.mp thread with same | ⟨_, listed⟩
      · rwa [same]
      · exact (linked.member _ _ listed).2
    · rw [init]
      exact linked.booted _ le_rfl
  refine ⟨fun r q listed => ?_, fun g r listed => ?_, fun q hashed => ?_, fun r => ?_, fun q old =>
    given.stirred.born (linked.booted q old), fun c => ?_, fun c at_ => ?_⟩
  · rw [given.parents]
    rcases given.children r q listed with ⟨other, old⟩ | ⟨rfl, kid⟩
    · obtain ⟨parent, was⟩ := linked.child r q old
      have elsewhere : q ∉ (s.tasks p).children := fun kid => other (parent.symm.trans (linked.child p q kid).1)
      rw [if_neg elsewhere]
      exact ⟨parent, given.stirred.born was⟩
    · rw [if_pos kid]
      exact ⟨rfl, given.stirred.born (linked.child p q kid).2⟩
  · rw [(given.same r).1]
    obtain ⟨gid, was⟩ := linked.member g r (given.ring g r listed)
    exact ⟨gid, given.stirred.born was⟩
  · rw [(given.same q).2] at hashed
    rw [given.parents]
    split
    · exact given.stirred.born heirBorn
    · exact given.stirred.born (linked.hashed q hashed)
  · rw [(given.same r).1]
    exact linked.single r
  · rw [Reap.State.current, given.cpus]
    exact given.stirred.born (linked.started c)
  · rw [given.cpus] at at_
    rw [Reap.State.current, given.cpus]
    exact linked.exiting c at_

theorem Unannounced.mono (pending : Unannounced s q) (kept : ∀ d, (s.cpus d).phase = .zombie →
    after.cpus d = s.cpus d) : Unannounced after q := by
  obtain ⟨d, current, at_⟩ := pending
  have same := kept d at_
  exact ⟨d, by rwa [Reap.State.current, same], by rwa [same]⟩

theorem Watches.mono (watches : Watches { w with sys := after } p pid) (sleeps : ∀ p, Sleeps after p →
    Sleeps w.sys p) (kept : ∀ d, (after.cpus d).phase = .unready → w.sys.cpus d = after.cpus d) :
    Watches w p pid := by
  cases watches with
  | asleep sleeping => exact .asleep (sleeps p sleeping)
  | unready d current at_ =>
    have same := kept d at_
    exact .unready d (by rwa [Reap.State.current, same]) (by rwa [same])

theorem ne_of_setPhase {other : Phase} (at_ : ((s.setPhase c phase).cpus d).phase = other)
    (differs : phase ≠ other) : d ≠ c := by
  rintro rfl
  rw [phase_setPhase_same] at at_
  exact differs at_

theorem cpus_setPhase_other (different : d ≠ c) : (s.setPhase c phase).cpus d = s.cpus d := update_of_ne different ..

/-- A step that moves one CPU on, which was not in the middle of its announcement and is not about
to sleep. -/
theorem Attended.setPhase (attended : Attended w) (cpus : after.cpus = w.sys.cpus)
    (sleeps : ∀ p, Sleeps after p → Sleeps w.sys p) (busy : phase ≠ .unready)
    (announced : (w.sys.cpus c).phase ≠ .zombie)
    (fewer : ∀ p pid q, Watches { w with sys := after.setPhase c phase } p pid →
      Awaits after pid p q → (after.tasks q).state = .zombie →
      Awaits w.sys pid p q ∧ (w.sys.tasks q).state = .zombie ∨ Unannounced (after.setPhase c phase)
        q) : Attended { w with sys := after.setPhase c phase } := by
  refine attended.mono (fun p pid watches => watches.mono sleeps fun d at_ => ?_) fewer
    fun q pending => pending.mono fun d at_ => ?_
  · rw [cpus_setPhase_other (ne_of_setPhase at_ busy), cpus]
  · have different : d ≠ c := fun same => announced (same ▸ at_)
    rw [cpus_setPhase_other different, cpus]

theorem Awaits.of_fork (linked : Linked s) (fresh : (s.tasks child).state = .uninit)
    (other : p ≠ child) (awaits : Awaits (fork s (s.current c) child thread) pid p q) : q = child ∨
    Awaits s pid p q := by
  have group : ∀ r, r ∈ threads (fork s (s.current c) child thread) p → r = child ∨ r ∈ threads s p := by
    intro r listed
    rcases mem_threads.mp listed with same | ⟨own, there⟩
    · exact .inr (mem_threads.mpr (.inl same))
    rw [(linked.task_fork fresh c thread p other).2.2.1] at own there
    rcases mem_ring_fork there with ⟨new, _⟩ | there
    · exact .inl new
    · rcases mem_ring_fork own with ⟨new, _⟩ | own
      · exact absurd new other
      · exact .inr (mem_threads.mpr (.inr ⟨own, there⟩))
  by_cases new : q = child
  · exact .inl new
  refine .inr ?_
  rw [Awaits] at awaits ⊢
  split at awaits
  · next some =>
    rw [if_pos some]
    obtain ⟨same, hashed, parent⟩ := awaits
    obtain ⟨_, sameParent, _, sameHash⟩ := linked.task_fork fresh c thread q new
    rw [sameHash] at hashed
    rw [sameParent] at parent
    exact ⟨same, hashed, (group _ parent).resolve_left fun unborn => linked.hashed q hashed (unborn ▸ fresh)⟩
  · next any =>
    rw [if_neg any]
    obtain ⟨r, listed, kid⟩ := awaits
    rcases linked.children_fork fresh kid with ⟨same, _⟩ | ⟨_, otherThread, old⟩
    · exact absurd same new
    · exact ⟨r, (group r listed).resolve_left otherThread, old⟩

theorem Inv.fork (inv : Inv w) (young : initproc n < child)
    (fresh : (w.sys.tasks child).state = .uninit) (grown : thread = true →
    initproc n < w.sys.current c) :
    Inv { w with sys := fork w.sys (w.sys.current c) child thread } := by
  have linked := inv.linked
  have new := linked.child_fork fresh c thread
  have cpus : (Reap.fork w.sys (w.sys.current c) child thread).cpus = w.sys.cpus := by cases thread <;> rfl
  have watches : ∀ p pid, Watches { w with sys := Reap.fork w.sys (w.sys.current c) child thread } p
    pid → Watches w p pid := by
    refine fun p pid watches => watches.mono (fun q sleeping => ?_) fun d _ => by rw [cpus]
    by_cases here : q = child
    · rw [here, Sleeps, new] at sleeping
      cases sleeping.1
    · rwa [Sleeps, (linked.task_fork fresh c thread q here).1] at sleeping
  refine ⟨linked.fork fresh young grown, inv.attended.mono watches ?_ fun q pending => pending.mono fun d _ => by rw [cpus]⟩
  intro p pid q watching awaits dead
  have born : (w.sys.tasks p).state ≠ .uninit := by
    cases watches p pid watching with
    | asleep sleeping => rw [sleeping.1]; exact fun never => by cases never
    | unready d current => exact current ▸ linked.started d
  have existed : p ≠ child := fun same => born (same ▸ fresh)
  rcases awaits.of_fork linked fresh existed with rfl | before
  · dsimp only at dead
    rw [new] at dead
    cases dead
  left
  refine ⟨before, ?_⟩
  have other : q ≠ child := by
    rintro rfl
    dsimp only at dead
    rw [new] at dead
    cases dead
  rwa [← (linked.task_fork fresh c thread q other).1]

theorem Inv.exit (inv : Inv w) (running : (w.sys.cpus c).phase = .running) (young : initproc n < w.sys.current c) :
    Inv { w with
      sys := (w.sys.setTask (w.sys.current c) { w.sys.tasks (w.sys.current c) with
        state := .zombie }).setPhase c .zombie } := by
  have linked : Linked (w.sys.setTask (w.sys.current c) { w.sys.tasks (w.sys.current c) with
    state := .zombie }) := inv.linked.setProc (fun never => by cases never)
  have same := sameLinks_setProc w.sys (w.sys.current c)
    ⟨.zombie, (w.sys.tasks (w.sys.current c)).waitState⟩ (w.sys.tasks (w.sys.current c)).frees
  refine ⟨linked.setPhase fun _ => young, inv.attended.setPhase rfl (fun p sleeping => ?_)
    (fun never => by cases never) (by rw [running]; simp) ?_⟩
  · by_cases here : p = w.sys.current c
    · rw [here, Sleeps, tasks_setTask_same] at sleeping
      cases sleeping.1
    · rwa [Sleeps, tasks_setTask_other _ here] at sleeping
  · intro p pid q _ awaits dead
    by_cases here : q = w.sys.current c
    · exact .inr ⟨c, by rw [current_setPhase]; exact here.symm, phase_setPhase_same ..⟩
    · rw [tasks_setTask_other _ here] at dead
      exact .inl ⟨same.awaits.mp awaits, dead⟩

theorem Inv.notify (inv : Inv w) (at_ : (w.sys.cpus c).phase = .zombie) (attentive : ∀ d,
    (w.sys.cpus d).phase = .unready → w.sys.current d ∉ threads w.sys
    (w.sys.tasks (w.sys.current c)).parent)
    (ran : wakeWaiters w.sys (threads w.sys (w.sys.tasks (w.sys.current c)).parent) = .ok after) :
      Inv { w with sys := after.setPhase c .notified } := by
  obtain ⟨wakes, awake⟩ := wakeWaiters_wakes ran
  have linked := inv.linked.wakes wakes
  have young : initproc n < after.current c := by
    rw [Reap.State.current, wakes.cpus]
    exact inv.linked.exiting c (.inl at_)
  refine ⟨linked.setPhase fun _ => young, ?_⟩
  intro p pid q watches awaits dead
  have before := watches.mono (fun r sleeping => wakes.stirred.sleeps sleeping) fun d unready =>
    by rw [cpus_setPhase_other (ne_of_setPhase unready (by simp)), wakes.cpus]
  have earlier := wakes.same.awaits.mp awaits
  have dead := (wakes.stirred.zombie q).mp dead
  obtain ⟨d, current, pending⟩ := inv.attended p pid q before earlier dead
  by_cases here : d = c
  · -- The announcement reaches every thread that waits for this child.
    subst here
    have reached : p ∈ threads w.sys (w.sys.tasks (w.sys.current d)).parent := by
      rw [current]
      exact inv.linked.threads_symm (inv.linked.parent_of_awaits earlier)
    cases watches with
    | asleep sleeping => exact absurd sleeping (awake p reached)
    | unready e at_e unready =>
      rw [cpus_setPhase_other (ne_of_setPhase unready (by simp)), wakes.cpus] at unready
      rw [current_setPhase, Reap.State.current, wakes.cpus] at at_e
      rw [← at_e] at reached
      exact absurd reached (attentive e unready)
  · refine ⟨d, ?_, ?_⟩
    · rwa [current_setPhase, Reap.State.current, wakes.cpus]
    · rwa [cpus_setPhase_other here, wakes.cpus]

/-- Who waits for a child of an exiting process after it has been given away: a thread of that
process's group, who waited for it before, or `initproc`. -/
theorem Awaits.of_given (linked : Linked s) (given : Given s r after)
    (awaits : Awaits after pid p q) : Awaits s pid p q ∨ p = heir s r ∧
    q ∈ (s.tasks r).children := by
  have group : ∀ t, t ∈ threads after p → t ∈ threads s p := by
    intro t listed
    rcases mem_threads.mp listed with same | ⟨own, there⟩
    · exact mem_threads.mpr (.inl same)
    · rw [(given.same p).1] at own there
      exact mem_threads.mpr (.inr ⟨given.ring _ _ own, given.ring _ _ there⟩)
  have taken : heir s r ∈ threads after p → r ∈ threads s p ∨ p = heir s r := by
    intro listed
    have listed := group _ listed
    rcases heir_cases s r with thread | init
    · left
      rcases mem_threads.mp listed with same | ⟨own, there⟩
      · exact same ▸ linked.threads_symm thread
      rcases mem_threads.mp thread with same | ⟨own', there'⟩
      · rwa [same] at listed
      · have equal := (linked.member _ _ there).1.symm.trans (linked.member _ _ there').1
        rw [← equal] at own'
        exact mem_threads.mpr (.inr ⟨own, own'⟩)
    · right
      rw [init] at listed ⊢
      rcases mem_threads.mp listed with same | ⟨_, there⟩
      · exact same.symm
      · exact (linked.single p).mp ((linked.member _ _ there).1.symm.trans ((linked.single _).mpr rfl))
  rw [Awaits] at awaits ⊢
  split at awaits
  · next some =>
    obtain ⟨same, hashed, parent⟩ := awaits
    rw [(given.same q).2] at hashed
    rw [given.parents] at parent
    rw [if_pos some]
    split at parent
    · next kid =>
      rcases taken parent with before | now
      · exact .inl ⟨same, hashed, by rwa [(linked.child r q kid).1]⟩
      · exact .inr ⟨now, kid⟩
    · exact .inl ⟨same, hashed, group _ parent⟩
  · next any =>
    obtain ⟨t, listed, kid⟩ := awaits
    rw [if_neg any]
    rcases given.children t q kid with ⟨_, old⟩ | ⟨rfl, moved⟩
    · exact .inl ⟨t, group t listed, old⟩
    · rcases taken listed with before | now
      · exact .inl ⟨r, before, moved⟩
      · exact .inr ⟨now, moved⟩

theorem Inv.reparent (inv : Inv w) (at_ : (w.sys.cpus c).phase = .notified) (attentive : ∀ d,
    (w.sys.cpus d).phase = .unready → w.sys.current d = heir w.sys (w.sys.current c) →
      ∀ q ∈ (w.sys.tasks (w.sys.current c)).children, (w.sys.tasks q).state ≠ .zombie)
        (ran : giveChildren w.sys (w.sys.current c) = .ok after) :
        Inv { w with sys := after.setPhase c .leaving } := by
  have given := giveChildren_gives ran
  have linked := inv.linked.given given (inv.linked.started c)
  refine ⟨linked.setPhase (by simp), inv.attended.setPhase given.cpus (fun p sleeping =>
    given.stirred.sleeps sleeping) (fun never => by cases never) (by rw [at_]; simp) ?_⟩
  intro p pid q watches awaits dead
  have dead := (given.stirred.zombie q).mp dead
  rcases awaits.of_given inv.linked given with before | ⟨now, kid⟩
  · exact .inl ⟨before, dead⟩
  exfalso
  cases watches with
  | asleep sleeping => exact given.awake ⟨q, kid, dead⟩ (now ▸ sleeping)
  | unready d current unready =>
    rw [cpus_setPhase_other (ne_of_setPhase unready (by simp)), given.cpus] at unready
    rw [current_setPhase, Reap.State.current, given.cpus] at current
    exact attentive d unready (current.trans now) q kid dead

theorem search_unready (unready : search s p pid = .unready) (awaits : Awaits s pid p q) : (s.tasks q).state ≠ .zombie := by
  rw [search] at unready
  rw [Awaits] at awaits
  split at unready
  · next some =>
    rw [if_pos some] at awaits
    obtain ⟨rfl, hashed, parent⟩ := awaits
    rw [searchPid, if_pos ⟨hashed, parent⟩] at unready
    intro dead
    rw [if_pos dead] at unready
    cases unready
  · next any =>
    rw [if_neg any] at awaits
    obtain ⟨thread, listed, kid⟩ := awaits
    intro dead
    rw [searchAny] at unready
    split at unready
    · cases unready
    · next none =>
      have alive := find?_eq_none.mp none q (mem_flatMap.mpr ⟨thread, listed, kid⟩)
      simp [dead] at alive

theorem Inv.setPhase (inv : Inv w) (calm : phase ≠ .zombie ∧ phase ≠ .notified ∧ phase ≠ .unready)
    (announced : (w.sys.cpus c).phase ≠ .zombie) : Inv { w with sys := w.sys.setPhase c phase } :=
      ⟨inv.linked.setPhase fun either => absurd either (not_or.mpr ⟨calm.1, calm.2.1⟩),
    inv.attended.setPhase rfl (fun _ => id) calm.2.2 announced fun _ _ _ _ awaits dead => .inl ⟨awaits, dead⟩⟩

theorem Inv.wait (inv : Inv w) (running : (w.sys.cpus c).phase = .running)
    (ran : waitSearch w.sys c pid = .ok after) :
    Inv { w with sys := after, searched := update w.searched c pid } := by
  -- Nothing depends on what this CPU searched for before.
  have forgets : ∀ {state : Reap.State n}, (state.cpus c).phase ≠ .unready →
    Inv { w with sys := state } →
    Inv { w with sys := state, searched := update w.searched c pid } := by
    intro state busy kept
    refine ⟨kept.linked, fun p pid' q watches => kept.attended p pid' q ?_⟩
    cases watches with
    | asleep sleeping => exact .asleep sleeping
    | unready d current at_ =>
      have different : d ≠ c := fun same => busy (same ▸ at_)
      dsimp only
      rw [update_of_ne different]
      exact Watches.unready (w := { w with sys := state }) d current at_
  have announced : (w.sys.cpus c).phase ≠ .zombie := by rw [running]; simp
  rw [waitSearch] at ran
  cases outcome : search w.sys (w.sys.current c) pid with
  | found =>
    rw [outcome] at ran
    dsimp only at ran
    split at ran
    · cases ran
    · cases ran
      exact forgets (by rw [phase_setPhase_same]; simp) (inv.setPhase (by simp) announced)
  | badProc =>
    rw [outcome] at ran
    cases ran
    exact forgets (by rw [running]; simp) inv
  | unready =>
    rw [outcome] at ran
    cases ran
    refine ⟨inv.linked.setPhase (by simp), fun p pid' q watches awaits dead => ?_⟩
    have pending : ∀ {r}, Unannounced w.sys r → Unannounced (w.sys.setPhase c .unready) r := fun pending =>
      pending.mono fun d at_ => cpus_setPhase_other fun same => announced (same ▸ at_)
    cases watches with
    | asleep sleeping => exact pending (inv.attended p _ q (.asleep sleeping) awaits dead)
    | unready d current at_ =>
      dsimp only at awaits
      obtain rfl | here := eq_or_ne d c
      · rw [update_self] at awaits
        rw [current_setPhase] at current
        subst current
        exact absurd dead (search_unready outcome awaits)
      · rw [update_of_ne here] at awaits
        rw [cpus_setPhase_other here] at at_
        rw [current_setPhase] at current
        exact pending (inv.attended p _ q (.unready d current at_) awaits dead)

theorem Awaits.of_removeLinks (awaits : Awaits (removeLinks s r) pid p q) : Awaits s pid p q := by
  have group : threads (removeLinks s r) p = threads s p := by
    simp only [threads, tasks_removeLinks]
    rfl
  rw [Awaits, group] at awaits
  rw [Awaits]
  simp only [tasks_removeLinks] at awaits
  split at awaits
  · next some =>
    rw [if_pos some]
    refine ⟨awaits.1, ?_, awaits.2.2⟩
    have hashed := awaits.2.1
    split at hashed
    · cases hashed
    · exact hashed
  · next any =>
    rw [if_neg any]
    obtain ⟨thread, listed, kid⟩ := awaits
    refine ⟨thread, listed, ?_⟩
    split at kid
    · exact mem_of_mem_erase kid
    · exact kid

theorem Inv.unlink (inv : Inv w) (at_ : (w.sys.cpus c).phase = .found p) :
    Inv { w with sys := (removeLinks w.sys p).setPhase c (.unlinked p) } := by
  refine ⟨(inv.linked.removeLinks p).setPhase (by simp),
    inv.attended.setPhase rfl (fun q sleeping => ?_) (by simp) (by rw [at_]; simp) ?_⟩
  · simpa only [Sleeps, tasks_removeLinks] using sleeping
  · intro r pid q _ awaits dead
    simp only [tasks_removeLinks] at dead
    exact .inl ⟨awaits.of_removeLinks, dead⟩

theorem Inv.free (inv : Inv w) (at_ : (w.sys.cpus c).phase = .unlinked p) :
    Inv { w with sys := (freeProc w.sys p).setPhase c .running } := by
  have same : SameLinks w.sys (freeProc w.sys p) := sameLinks_setProc ..
  have procs : ∀ q, ((freeProc w.sys p).tasks q).toProc = (w.sys.tasks q).toProc := by
    intro q
    by_cases here : q = p
    · rw [here, freeProc, tasks_setTask_same]
    · rw [freeProc, tasks_setTask_other _ here]
  have wakes : Wakes w.sys (freeProc w.sys p) := ⟨fun q => .inl (procs q), same, rfl⟩
  refine ⟨(inv.linked.wakes wakes).setPhase (by simp), inv.attended.setPhase rfl (fun q =>
    wakes.stirred.sleeps) (by simp) (by rw [at_]; simp) ?_⟩
  exact fun _ _ q _ awaits dead => .inl ⟨same.awaits.mp awaits, (wakes.stirred.zombie q).mp dead⟩

theorem Inv.sleep (inv : Inv w) (at_ : (w.sys.cpus c).phase = .unready) : Inv { w with
      sys := (w.sys.setTask (w.sys.current c) { w.sys.tasks (w.sys.current c) with
        state := .sleeping, waitState := wtChild }).setPhase c .asleep
      awaited := update w.awaited (w.sys.current c) (w.searched c) } := by
  have linked : Linked (w.sys.setTask (w.sys.current c) { w.sys.tasks (w.sys.current c) with
    state := .sleeping, waitState := wtChild }) := inv.linked.setProc (fun never => by cases never)
  have same := sameLinks_setProc w.sys (w.sys.current c) ⟨.sleeping, wtChild⟩ (w.sys.tasks (w.sys.current c)).frees
  refine ⟨linked.setPhase (by simp), fun p pid q watches awaits dead => ?_⟩
  have before : Watches w p pid := by
    cases watches with
    | asleep sleeping =>
      by_cases here : p = w.sys.current c
      · subst here
        dsimp only
        rw [update_self]
        exact .unready c rfl at_
      · dsimp only
        rw [update_of_ne here]
        rw [Sleeps, tasks_setPhase, tasks_setTask_other _ here] at sleeping
        exact .asleep sleeping
    | unready d current unready =>
      rw [cpus_setPhase_other (ne_of_setPhase unready (by simp))] at unready
      rw [current_setPhase] at current
      exact .unready d current unready
  have dead : (w.sys.tasks q).state = .zombie := by
    rw [tasks_setPhase] at dead
    by_cases here : q = w.sys.current c
    · rw [here, tasks_setTask_same] at dead
      cases dead
    · rwa [tasks_setTask_other _ here] at dead
  refine (inv.attended p pid q before (same.awaits.mp awaits) dead).mono fun d zombie => ?_
  exact cpus_setPhase_other fun here => by rw [here, at_] at zombie; cases zombie

theorem Inv.wakes (inv : Inv w) (wakes : Wakes w.sys after) : Inv { w with sys := after } :=
  ⟨inv.linked.wakes wakes, inv.attended.mono (fun _ _ watches =>
    watches.mono (fun _ => wakes.stirred.sleeps) fun d _ => by rw [wakes.cpus])
    (fun _ _ q _ awaits dead => .inl ⟨wakes.same.awaits.mp awaits,
      (wakes.stirred.zombie q).mp dead⟩) fun _ pending => pending.mono fun d _ =>
        by rw [wakes.cpus]⟩

theorem Inv.switch (inv : Inv w) (choice : Choice w.sys c new)
    (announced : (w.sys.cpus c).phase ≠ .zombie) :
    Inv { w with sys := w.sys.setCpu c ⟨new, .switching (w.sys.current c)⟩ } := by
  have born : (w.sys.tasks new).state ≠ .uninit := by
    rcases choice with rfl | ⟨_, runnable⟩
    · exact inv.linked.booted _ c.isLt.le
    · rw [runnable]
      exact fun never => by cases never
  have others : ∀ d, d ≠ c → (w.sys.setCpu c ⟨new, .switching (w.sys.current c)⟩).cpus d =
    w.sys.cpus d := fun d different => update_of_ne different ..
  refine ⟨inv.linked.switch born, inv.attended.mono (fun p pid watches =>
    watches.mono (fun _ => id) fun d unready => ?_) (fun _ _ _ _ awaits dead => .inl ⟨awaits, dead⟩)
    fun q pending => pending.mono fun d zombie => ?_⟩
  · obtain rfl | here := eq_or_ne d c
    · simp [State.setCpu] at unready
    · rw [others d here]
  · exact others d fun here => announced (here ▸ zombie)

theorem inv_step (op : Op n) (inv : Inv w) (allowed : Allowed w.sys op) (attentive : Attentive w op)
    (ran : step w op = .ok (next, ())) : Inv next := by
  obtain ⟨⟨sys, _⟩, finished, ran⟩ := exists_of_bind ran
  cases ran
  cases op with
  | fork =>
    cases finished
    exact inv.fork allowed.2.1 allowed.2.2.1 allowed.2.2.2
  | exit =>
    cases finished
    exact inv.exit allowed.1 allowed.2
  | notify =>
    obtain ⟨after, woken, finished⟩ := exists_of_bind finished
    cases finished
    exact inv.notify allowed attentive woken
  | reparent =>
    obtain ⟨after, moved, finished⟩ := exists_of_bind finished
    cases finished
    exact inv.reparent allowed attentive moved
  | wait =>
    obtain ⟨after, searched, finished⟩ := exists_of_bind finished
    cases finished
    exact inv.wait allowed.1 searched
  | unlink =>
    obtain ⟨p, at_⟩ := allowed
    cases finished
    rw [at_]
    exact inv.unlink at_
  | free =>
    obtain ⟨p, at_⟩ := allowed
    cases finished
    rw [at_]
    exact inv.free at_
  | sleep =>
    cases finished
    exact inv.sleep allowed.1
  | wake =>
    obtain ⟨after, woken, finished⟩ := exists_of_bind finished
    cases finished
    exact inv.wakes (wakeupProc_wakes woken).1
  | switch =>
    cases finished
    refine inv.switch allowed.2.1 ?_
    rcases allowed.2.2 with at_ | at_ | at_
    all_goals
      rw [at_]
      simp
  | switched =>
    cases finished
    obtain ⟨prev, at_⟩ := allowed
    exact inv.setPhase (by simp) (by rw [at_]; simp)
  | resume =>
    cases finished
    exact inv.setPhase (by simp) (by rw [allowed.1]; simp)

theorem inv_boot (n : Nat) : Inv (⟨boot n, fun _ => 0, fun _ => 0⟩ : State n) := by
  have alive : ∀ q, ((boot n).tasks q).state ≠ .zombie := by
    intro q
    by_cases old : q ≤ n
    · simp [boot_runnable old]
    · simp [boot_uninit (Nat.lt_of_not_le old)]
  have born : ∀ q, q ≤ n → ((boot n).tasks q).state ≠ .uninit := fun q old => by simp [boot_runnable old]
  have gid : ∀ q, ((boot n).tasks q).gid = q := by
    intro q
    simp only [boot]
    split
    · rfl
    · split <;> rfl
  have parent : ∀ q, ((boot n).tasks q).parent ≤ n := by
    intro q
    simp only [boot]
    split
    · next below => exact below.le
    · split <;> exact Nat.zero_le n
  refine ⟨⟨fun r q listed => ?_, fun g r listed => ?_, fun q _ => born _ (parent q), fun r =>
    by rw [gid], born, fun c => born _ c.isLt.le, fun c at_ => ?_⟩, fun p pid q _ _ dead => absurd dead (alive q)⟩
  · rw [boot_children] at listed
    split at listed
    · next zero =>
      rw [mem_singleton.mp listed, zero.1]
      refine ⟨?_, born n le_rfl⟩
      simp [boot, initproc]
    · cases listed
  · rw [gid]
    simp only [boot] at listed
    split at listed
    · next old =>
      rw [mem_singleton.mp listed]
      exact ⟨rfl, born g old⟩
    · cases listed
  · rcases at_ with at_ | at_ <;> cases at_

/-- No process sleeps while a child it waits for is a zombie that has already looked for waiting
parents, when no child does so between a parent's search and its going to sleep. -/
theorem exits_noticed_when_attentive (n : Nat) : ((machine n).restrict Attentive).Always fun w => ¬ Missed w := by
  refine Machine.always_of_invariant (show ∀ w, _ → Inv w from ?_) ?_ ?_
  · intro w begins
    rw [show w = _ from begins]
    exact inv_boot n
  · exact fun _ op _ _ inv allowed executed => inv_step op inv allowed.1 allowed.2 executed
  · rintro w inv ⟨p, q, sleeping, awaits, dead, announced⟩
    exact announced (inv.attended p _ q (.asleep sleeping) awaits dead)

/-- The child exits between the search of its parent on another CPU and the parent's going to sleep.
-/
theorem exit_missed_between_search_and_sleep : ∃ w, (machine 2).Reachable w ∧ Missed w := by
  obtain ⟨w, reachable, asleep, waiting, any, kid, dead, announced⟩ : ∃ w, (machine 2).Reachable w ∧
    (w.sys.tasks 2).state = .sleeping ∧
      (w.sys.tasks 2).waitState = wtChild ∧ w.awaited 2 = 0 ∧ 3 ∈ (w.sys.tasks 2).children ∧
        (w.sys.tasks 3).state = .zombie ∧
      ∀ c, ¬ (w.sys.current c = 3 ∧ (w.sys.cpus c).phase = .zombie) :=
    Machine.exists_of_replay rfl [.switch 0 2, .switched 0, .fork 0 3 false, .switch 1 3,
      .switched 1, .wait 0 0, .exit 1, .notify 1, .sleep 0] (by decide +kernel)
  refine ⟨w, reachable, 2, 3, ⟨asleep, waiting⟩, ?_, dead, fun ⟨c, pending⟩ => announced c pending⟩
  rw [any]
  exact ⟨2, mem_threads.mpr (.inl rfl), kid⟩

end Ucore.WaitChild
