import Ucore.Sched

/-! No process runs on two CPUs. A CPU is busy with the process it runs, the one it
has chosen and the one it is leaving; a queued process must be none of these. The
code keeps to this only while wake-ups and balancing respect it. -/

namespace Ucore.Sched
open Lib Function List

variable {n : Nat} {cls : SchedClass} {s : State n} {c : Fin n} {p : ProcId} {d : Fin n} {t : State n} {q : ProcId}

/-- The CPU runs the process, is about to, or has not finished leaving it. -/
def Cpu.Engaged (cpu : Cpu) (p : ProcId) : Prop :=
  cpu.current = p ∨ cpu.phase = .chosen p ∨ (cpu.phase = .switching ∧ cpu.prev = p)

def Busy (s : State n) (c : Fin n) (p : ProcId) : Prop := (s.cpus c).Engaged p

structure Inv (s : State n) : Prop where
  exclusive : ∀ c d p, Busy s c p → Busy s d p → c = d
  idle : ∀ c d : Fin n, Busy s d c → d = c
  queued : ∀ c, ∀ p ∈ (s.cpus c).runList,
    (s.tasks p).rq = some c ∧ (s.tasks p).state = .runnable ∧ p ≥ n ∧ ∀ d, ¬ Busy s d p
  once : ∀ c, (s.cpus c).runList.Nodup
  picked : ∀ c p, (s.cpus c).phase = .picked (some p) → p ∈ (s.cpus c).runList
  leaving : ∀ c, (s.cpus c).phase = .switching → (s.cpus c).prev ≠ (s.cpus c).current
  ready : ∀ c p, (s.cpus c).phase = .chosen p → p ≥ n → (s.tasks p).state = .runnable

theorem Inv.unlinked (inv : Inv s) (busy : Busy s c p) : ¬ s.Linked p :=
  fun ⟨d, member⟩ => (inv.queued d p member).2.2.2 c busy

theorem Inv.linked_once (inv : Inv s) (first : p ∈ (s.cpus c).runList)
    (second : p ∈ (s.cpus d).runList) : c = d :=
    Option.some.inj ((inv.queued c p first).1.symm.trans (inv.queued d p second).1)

theorem cpus_setPhase_same (s : State n) (c : Fin n) (phase : Phase) :
    (s.setPhase c phase).cpus c = { s.cpus c with phase } := update_self ..

theorem cpus_setPhase_other (phase : Phase) (different : d ≠ c) :
    (s.setPhase c phase).cpus d = s.cpus d := update_of_ne different ..

theorem runList_setPhase (s : State n) (c d : Fin n) (phase : Phase) :
    ((s.setPhase c phase).cpus d).runList = (s.cpus d).runList := by
  by_cases here : d = c
  · rw [here, cpus_setPhase_same]
  · rw [cpus_setPhase_other phase here]

theorem Inv.setTask (inv : Inv s) {task : Task n} (unlinked : ¬ s.Linked p)
    (ready : ∀ c, (s.cpus c).phase = .chosen p → task.state = .runnable) :
    Inv (s.setTask p task) := by
  refine { inv with queued := ?_, ready := ?_ }
  · intro c q member
    have different : q ≠ p := fun same => unlinked ⟨c, same ▸ member⟩
    simp only [State.setTask, update_of_ne different]
    exact inv.queued c q member
  · intro c q chosen large
    obtain rfl | here := eq_or_ne q p
    · simp only [State.setTask, update_self]
      exact ready c chosen
    · simp only [State.setTask, update_of_ne here]
      exact inv.ready c q chosen large

theorem Inv.setAffinity (inv : Inv s) (p : ProcId) (c : Fin n) : Inv (s.setAffinity p c) := by
  have fields : ∀ q, ((s.setAffinity p c).tasks q).rq = (s.tasks q).rq ∧
    ((s.setAffinity p c).tasks q).state = (s.tasks q).state := by
    intro q
    by_cases here : q = p
    · simp [here, State.setAffinity, State.setTask]
    · simp [State.setAffinity, State.setTask, update_of_ne here]
  refine { inv with queued := ?_, ready := ?_ }
  · intro d q member
    rw [(fields q).1, (fields q).2]
    exact inv.queued d q member
  · intro d q chosen large
    rw [(fields q).2]
    exact inv.ready d q chosen large

/-- The CPUs are where they were in `schedule`; only queues and tasks differ. -/
def SameCpus (s t : State n) : Prop :=
  ∀ c, (t.cpus c).current = (s.cpus c).current ∧ (t.cpus c).prev = (s.cpus c).prev ∧ (t.cpus c).phase = (s.cpus c).phase

theorem SameCpus.busy (same : SameCpus s t) (c : Fin n) (p : ProcId) : Busy t c p ↔ Busy s c p := by
  obtain ⟨current, prev, phase⟩ := same c
  rw [Busy, Busy, Cpu.Engaged, Cpu.Engaged, current, prev, phase]

theorem Inv.requeue (inv : Inv s) (same : SameCpus s t)
    (states : ∀ p, (t.tasks p).state = (s.tasks p).state) (queued : ∀ c, ∀ p ∈ (t.cpus c).runList,
    (t.tasks p).rq = some c ∧ (s.tasks p).state = .runnable ∧ p ≥ n ∧ ∀ d, ¬ Busy s d p)
    (once : ∀ c, (t.cpus c).runList.Nodup) (picked : ∀ c p, (s.cpus c).phase = .picked (some p) →
      p ∈ (t.cpus c).runList) : Inv t := by
  constructor
  case exclusive =>
    exact fun c d p first second => inv.exclusive c d p ((same.busy c p).mp first) ((same.busy d p).mp second)
  case idle => exact fun c d busy => inv.idle c d ((same.busy d c).mp busy)
  case queued =>
    intro c p member
    obtain ⟨queue, state, large, free⟩ := queued c p member
    exact ⟨queue, (states p).trans state, large, fun d busy => free d ((same.busy d p).mp busy)⟩
  case once => exact once
  case picked => exact fun c p phase => picked c p ((same c).2.2 ▸ phase)
  case leaving =>
    intro c phase
    obtain ⟨current, prev, samePhase⟩ := same c
    rw [current, prev]
    exact inv.leaving c (samePhase ▸ phase)
  case ready =>
    intro c p phase large
    rw [states]
    exact inv.ready c p ((same c).2.2 ▸ phase) large

theorem sameCpus_link (s : State n) (c : Fin n) (p : ProcId) : SameCpus s (s.link c p) := by
  intro d
  by_cases here : d = c
  · simp [here, State.link, State.setCpu, State.setTask]
  · simp [State.link, State.setCpu, State.setTask, update_of_ne here]

theorem sameCpus_unlink (s : State n) (c : Fin n) (p : ProcId) : SameCpus s (s.unlink c p) := by
  intro d
  by_cases here : d = c
  · simp [here, State.unlink, State.setCpu]
  · simp [State.unlink, State.setCpu, update_of_ne here]

theorem runList_link (s : State n) (c d : Fin n) (p : ProcId) : ((s.link c p).cpus d).runList = if d =
    c then (s.cpus d).runList ++ [p] else (s.cpus d).runList := by
  by_cases here : d = c
  · simp [here, State.link, State.setCpu, State.setTask]
  · simp [State.link, State.setCpu, State.setTask, here]

theorem runList_unlink (s : State n) (c d : Fin n) (p : ProcId) :
    ((s.unlink c p).cpus d).runList = (s.cpus d).runList.erase p := by
  by_cases here : d = c
  · simp [here, State.unlink, State.setCpu]
  · simp [State.unlink, State.setCpu, update_of_ne here]

theorem mem_link : q ∈ ((s.link c p).cpus d).runList ↔ q ∈ (s.cpus d).runList ∨ d = c ∧ q = p := by
  rw [runList_link]
  split <;> simp_all

theorem nodup_link (once : ∀ d, (s.cpus d).runList.Nodup) (unlinked : ¬ s.Linked p) (d : Fin n) :
    ((s.link c p).cpus d).runList.Nodup := by
  rw [runList_link]
  split
  · exact (once d).append (nodup_singleton p) fun q member single => unlinked ⟨d, mem_singleton.mp single ▸ member⟩
  · exact once d

theorem mem_move (src dst d : Fin n) (different : q ≠ p) :
    q ∈ ((((s.unlink src p).setAffinity p dst).link dst p).cpus d).runList ↔
    q ∈ (s.cpus d).runList := by
  rw [mem_link, or_iff_left fun single => different single.2, State.setAffinity, State.setTask, runList_unlink]
  exact mem_erase_of_ne different

theorem mem_of_stolen (member : p ∈ stolen s c) : p ∈ (s.cpus (busiest s c).2).runList := by
  rw [stolen] at member
  split at member
  · exact mem_of_mem_take member
  · cases member

theorem nodup_stolen (once : ∀ d, (s.cpus d).runList.Nodup) (c : Fin n) : (stolen s c).Nodup := by
  rw [stolen]
  split
  · exact (once _).sublist (take_sublist _ _)
  · exact nodup_nil

theorem tasks_link_other (different : q ≠ p) : (s.link c p).tasks q = s.tasks q := by
  simp [State.link, State.setCpu, State.setTask, update_of_ne different]

theorem tasks_link_same (s : State n) (c : Fin n) (p : ProcId) : ((s.link c p).tasks p).rq = some c ∧
    ((s.link c p).tasks p).state = (s.tasks p).state := by
  simp [State.link, State.setCpu, State.setTask]

theorem Inv.link (inv : Inv s) (c : Fin n) (large : p ≥ n) (unlinked : ¬ s.Linked p)
    (runnable : (s.tasks p).state = .runnable) (free : ∀ d, ¬ Busy s d p) : Inv (s.link c p) := by
  apply inv.requeue (sameCpus_link s c p)
  · intro q
    by_cases here : q = p
    · rw [here]
      exact (tasks_link_same s c p).2
    · rw [tasks_link_other here]
  · intro d q member
    rcases mem_link.mp member with before | ⟨rfl, rfl⟩
    · have different : q ≠ p := fun same => unlinked ⟨d, same ▸ before⟩
      rw [tasks_link_other different]
      exact inv.queued d q before
    · exact ⟨(tasks_link_same s d q).1, runnable, large, free⟩
  · exact nodup_link inv.once unlinked
  · exact fun d q phase => mem_link.mpr (.inl (inv.picked d q phase))

theorem Inv.unlink (inv : Inv s) (c : Fin n) (unpicked : ∀ d, (s.cpus d).phase ≠ .picked (some p)) : Inv (s.unlink c p) := by
  apply inv.requeue (sameCpus_unlink s c p) (fun _ => rfl)
  · intro d q member
    rw [runList_unlink] at member
    exact inv.queued d q (mem_of_mem_erase member)
  · intro d
    rw [runList_unlink]
    exact (inv.once d).erase p
  · intro d q phase
    have different : q ≠ p := fun same => unpicked d (same ▸ phase)
    rw [runList_unlink]
    exact (mem_erase_of_ne different).mpr (inv.picked d q phase)

theorem unlinked_unlink (inv : Inv s) (c : Fin n) (p : ProcId) : ¬ (s.unlink c p).Linked p := by
  intro ⟨d, member⟩
  rw [runList_unlink, (inv.once d).mem_erase_iff] at member
  exact member.1 rfl

theorem enqueue_ok (unlinked : ¬ s.Linked p) : enqueue cls s c p = .ok (s.link c p) := by
  cases cls with
  | rr => simp [enqueue, rrEnqueue, ensure_bind, unlinked, pure, Except.pure]
  | mlfq => simp [enqueue, mlfqEnqueue, rrEnqueue, ensure_bind, unlinked, pure, Except.pure]

theorem dequeue_ok (linked : s.Linked p) (queue : (s.tasks p).rq = some c) : dequeue cls s c p = .ok (s.unlink c p) := by
  cases cls with
  | rr => simp [dequeue, rrDequeue, ensure_bind, linked, queue, pure, Except.pure]
  | mlfq => simp [dequeue, mlfqDequeue, rrDequeue, ensure_bind, linked, queue, pure, Except.pure]

end Ucore.Sched
