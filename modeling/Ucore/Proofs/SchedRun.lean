import Ucore.Proofs.SchedSafety

/-! The steps of `schedule` and of waking a process keep the invariant, as long as no
process is woken or stolen that another CPU is still busy with. The run at the end
shows that the code itself does not see to that. -/

namespace Ucore.Sched
open Lib Function List

variable {n : Nat} (cls : SchedClass) {s : State n} {c : Fin n} {p : ProcId}

theorem unlink_setPhase (s : State n) (c : Fin n) (phase : Phase) (p : ProcId) :
    (s.setPhase c phase).unlink c p = (s.unlink c p).setPhase c phase := by
  have cpus : ((s.setPhase c phase).unlink c p).cpus = ((s.unlink c p).setPhase c phase).cpus := by
    funext d
    obtain rfl | here := eq_or_ne d c
    · simp [State.unlink, State.setPhase, State.setCpu]
    · simp [State.unlink, State.setPhase, State.setCpu, update_of_ne here]
  exact congrArg (fun cpus => (⟨s.tasks, cpus, s.stupidLock⟩ : State n)) cpus

theorem link_setPhase (s : State n) (c : Fin n) (phase : Phase) (p : ProcId) :
    (s.setPhase c phase).link c p = (s.link c p).setPhase c phase := by
  simp [State.link, State.setPhase, State.setCpu, State.setTask, update_idem]

theorem setPhase_setPhase (s : State n) (c : Fin n) (first second : Phase) :
    (s.setPhase c first).setPhase c second = s.setPhase c second := by
      simp [State.setPhase, State.setCpu, update_idem]

/-- A CPU may turn to a process that is queued nowhere and that no other CPU is busy with. -/
structure Owned (s : State n) (c : Fin n) (p : ProcId) : Prop where
  mine : ∀ d, Busy s d p → d = c
  unlinked : ¬ s.Linked p
  own : ∀ d : Fin n, p = d → c = d

section
variable (inv : Inv s)
include inv

theorem Inv.owned (busy : Busy s c p) : Owned s c p where
  mine d other := inv.exclusive d c p other busy
  unlinked := inv.unlinked busy
  own d same := inv.idle d c (same ▸ busy)

theorem Inv.advance (c : Fin n) {cpu : Cpu} (queue : cpu.runList = (s.cpus c).runList)
    (owned : ∀ p, cpu.Engaged p → Owned s c p)
    (picked : ∀ p, cpu.phase = .picked (some p) → p ∈ (s.cpus c).runList)
      (leaving : cpu.phase = .switching → cpu.prev ≠ cpu.current)
      (ready : ∀ p, cpu.phase = .chosen p → p ≥ n → (s.tasks p).state = .runnable) :
      Inv (s.setCpu c cpu) := by
  have here : (s.setCpu c cpu).cpus c = cpu := update_self ..
  have there : ∀ {d}, d ≠ c → (s.setCpu c cpu).cpus d = s.cpus d := fun other => update_of_ne other ..
  have queues : ∀ d, ((s.setCpu c cpu).cpus d).runList = (s.cpus d).runList := by
    intro d
    by_cases same : d = c
    · rw [same, here, queue]
    · rw [there same]
  have busier : ∀ d p, Busy (s.setCpu c cpu) d p → Busy s d p ∨ (d = c ∧ Owned s c p) := by
    intro d p busy
    obtain rfl | same := eq_or_ne d c
    · rw [Busy, here] at busy
      exact .inr ⟨rfl, owned p busy⟩
    · rw [Busy, there same] at busy
      exact .inl busy
  constructor
  case exclusive =>
    intro d e p first second
    obtain old | ⟨rfl, held⟩ := busier d p first
    · obtain other | ⟨rfl, held⟩ := busier e p second
      · exact inv.exclusive d e p old other
      · exact held.mine d old
    · obtain other | ⟨rfl, _⟩ := busier e p second
      · exact (held.mine e other).symm
      · rfl
  case idle =>
    intro d e busy
    obtain old | ⟨rfl, held⟩ := busier e d busy
    · exact inv.idle d e old
    · exact held.own d rfl
  case queued =>
    intro d p queued
    rw [queues] at queued
    obtain ⟨rq, state, large, free⟩ := inv.queued d p queued
    refine ⟨rq, state, large, ?_⟩
    intro e busy
    obtain old | ⟨_, held⟩ := busier e p busy
    · exact free e old
    · exact held.unlinked ⟨d, queued⟩
  case once =>
    intro d
    rw [queues]
    exact inv.once d
  case picked =>
    intro d p phase
    rw [queues]
    obtain rfl | same := eq_or_ne d c
    · exact picked p (here ▸ phase)
    · exact inv.picked d p (there same ▸ phase)
  case leaving =>
    intro d phase
    obtain rfl | same := eq_or_ne d c
    · rw [here] at phase ⊢
      exact leaving phase
    · rw [there same] at phase ⊢
      exact inv.leaving d phase
  case ready =>
    intro d p phase
    obtain rfl | same := eq_or_ne d c
    · exact ready p (here ▸ phase)
    · exact inv.ready d p (there same ▸ phase)

theorem Inv.relax (c : Fin n) {phase : Phase} (unchosen : ∀ p, phase ≠ .chosen p)
    (settled : phase ≠ .switching) (member : ∀ p, phase = .picked (some p) →
    p ∈ (s.cpus c).runList) : Inv (s.setPhase c phase) := by
  refine inv.advance c rfl ?_ member settled.elim fun p chosen => absurd chosen (unchosen p)
  intro p engaged
  obtain current | chosen | leaving := engaged
  · exact inv.owned (.inl current)
  · exact absurd chosen (unchosen p)
  · exact absurd leaving.1 settled

theorem Inv.run (c : Fin n) : Inv (s.setPhase c .running) := inv.relax c (by simp) (by simp) (by simp)

theorem Inv.balance (c : Fin n) : Inv (s.setPhase c .balanced) := inv.relax c (by simp) (by simp) (by simp)

theorem Inv.pick (c : Fin n) : Inv (s.setPhase c (.picked (s.cpus c).runList.head?)) := by
  apply inv.relax c (by simp) (by simp)
  intro p picked
  exact mem_of_mem_head? (Phase.picked.inj picked)

theorem Inv.choose (c : Fin n) (owned : Owned s c p) (runnable : p ≥ n →
    (s.tasks p).state = .runnable) : Inv (s.setPhase c (.chosen p)) := by
  refine inv.advance c rfl ?_ (fun _ picked => nomatch picked) (fun switching => nomatch switching) ?_
  · intro q engaged
    obtain current | chosen | leaving := engaged
    · exact inv.owned (.inl current)
    · exact Phase.chosen.inj chosen ▸ owned
    · exact nomatch leaving.1
  · intro q chosen large
    obtain rfl := Phase.chosen.inj chosen
    exact runnable large

theorem Inv.switch (c : Fin n) (chosen : (s.cpus c).phase = .chosen p) : Inv (switchTo s c p) := by
  rw [switchTo]
  split
  next different =>
    refine inv.advance c rfl ?_ (fun _ picked => nomatch picked) (fun _ => different.symm) fun _ again => nomatch again
    intro q engaged
    obtain current | again | leaving := engaged
    · exact inv.owned (.inr (.inl (current ▸ chosen)))
    · exact nomatch again
    · exact inv.owned (.inl leaving.2)
  next => exact inv.run c

theorem dequeueNext_spec {next : Option ProcId} (picked : (s.cpus c).phase = .picked next) :
    ∃ t, dequeueNext cls s c next = .ok t ∧ Inv t := by
  cases next with
  | none =>
    refine ⟨_, rfl, ?_⟩
    split
    next runnable => exact inv.choose c (inv.owned (.inl rfl)) fun _ => runnable
    next =>
      apply inv.choose c
      · refine ⟨inv.idle c, ?_, fun d same => Fin.ext same⟩
        intro ⟨d, member⟩
        exact absurd (inv.queued d c member).2.2.1 (Nat.not_le_of_lt c.isLt)
      · intro large
        exact absurd large (Nat.not_le_of_lt c.isLt)
  | some p =>
    have member := inv.picked c p picked
    obtain ⟨queue, runnable, large, free⟩ := inv.queued c p member
    refine ⟨(s.unlink c p).setPhase c (.chosen p), ?_, ?_⟩
    · rw [dequeueNext, dequeue_ok ⟨c, member⟩ queue]
      rfl
    -- The pick is over as far as this CPU goes, and no other CPU can have picked from its queue.
    · have settled := inv.balance c
      have unpicked : ∀ d, ((s.setPhase c .balanced).cpus d).phase ≠ .picked (some p) := by
        intro d again
        by_cases here : d = c
        · rw [here, cpus_setPhase_same] at again
          cases again
        · rw [cpus_setPhase_other _ here] at again
          exact here (inv.linked_once (inv.picked d p again) member)
      have taken := settled.unlink c unpicked
      have idle : ∀ d, ¬ Busy ((s.setPhase c .balanced).unlink c p) d p := by
        intro d busy
        have before := (settled.queued c p (by rwa [runList_setPhase])).2.2.2 d
        exact before (((sameCpus_unlink _ c p).busy d p).mp busy)
      rw [← setPhase_setPhase (s.unlink c p) c .balanced, ← unlink_setPhase]
      apply taken.choose c
      · refine ⟨fun d busy => absurd busy (idle d), unlinked_unlink settled c p, ?_⟩
        intro d same
        exact absurd large (Nat.not_le_of_lt (same ▸ d.isLt))
      · intro _
        exact runnable

theorem postSwitch_spec (switching : (s.cpus c).phase = .switching) :
    ∃ t, postSwitch cls s c = .ok t ∧ Inv (t.setPhase c .running) := by
  rw [postSwitch]
  split
  next ready =>
    obtain ⟨runnable, large, unlinked⟩ := ready
    have different := Nat.ne_of_gt (c.isLt.trans_le large)
    have affine : ((s.setAffinity (s.cpus c).prev c).tasks (s.cpus c).prev).cpuAffinity = c := by
      simp [State.setAffinity, State.setTask]
    refine ⟨(s.setAffinity (s.cpus c).prev c).link c (s.cpus c).prev, ?_, ?_⟩
    · simp only [schedClassEnqueue, if_pos different, ensure_bind, if_pos affine]
      exact enqueue_ok unlinked
    rw [← link_setPhase]
    apply ((inv.setAffinity _ c).run c).link c large
    · rintro ⟨d, member⟩
      rw [runList_setPhase] at member
      exact unlinked ⟨d, member⟩
    · simp [State.setAffinity, State.setPhase, State.setCpu, State.setTask, runnable]
    -- Only this CPU was busy with the process, and it no longer is.
    · intro d busy
      obtain rfl | here := eq_or_ne d c
      · rw [Busy, cpus_setPhase_same] at busy
        obtain current | chosen | leaving := busy
        · exact inv.leaving d switching current.symm
        · cases chosen
        · cases leaving.1
      · rw [Busy, cpus_setPhase_other _ here] at busy
        exact here (inv.exclusive d c _ busy (.inr (.inr ⟨switching, rfl⟩)))
  next => exact ⟨s, rfl, inv.run c⟩

theorem schedClassEnqueueAfterWakeup_spec (c : Fin n) (large : p ≥ n) (unlinked : ¬ s.Linked p)
    (runnable : (s.tasks p).state = .runnable) (free : ∀ d, ¬ Busy s d p) :
    ∃ t, schedClassEnqueueAfterWakeup cls s c p = .ok t ∧ Inv t := by
  have different := Nat.ne_of_gt (c.isLt.trans_le large)
  have queued : ∀ d e, Inv ((s.setAffinity p d).link e p) := by
    intro d e
    apply (inv.setAffinity p d).link e large unlinked _ free
    simpa [State.setAffinity, State.setTask] using runnable
  rw [schedClassEnqueueAfterWakeup, if_pos different]
  split
  next => exact ⟨_, enqueue_ok unlinked, queued _ _⟩
  next => exact ⟨_, enqueue_ok unlinked, queued _ _⟩

end

def Unattended (s : State n) (c : Fin n) (p : ProcId) : Prop :=
  ∀ d, d ≠ c → (s.cpus d).current ≠ p ∧ ¬ ((s.cpus d).phase = .switching ∧ (s.cpus d).prev = p)

theorem wakeupProc_spec (inv : Inv s) (running : (s.cpus c).phase = .running) (large : p ≥ n)
    (alive : (s.tasks p).state ≠ .zombie) (unattended : (s.tasks p).state ≠ .runnable →
      Unattended s c p) : ∃ t, wakeupProc cls s c p = .ok t ∧ Inv t := by
  simp only [wakeupProc, ensure_bind, if_pos alive]
  split
  next asleep =>
    have unlinked : ¬ s.Linked p := by
      rintro ⟨d, member⟩
      exact asleep (inv.queued d p member).2.1
    have woken : Inv (s.setProc p ⟨.runnable, 0⟩) := inv.setTask unlinked fun _ _ => rfl
    split
    next away =>
      apply schedClassEnqueueAfterWakeup_spec cls woken c large unlinked
      · simp [State.setProc, State.setTask]
      intro d busy
      obtain current | chosen | leaving := busy
      · obtain rfl | here := eq_or_ne d c
        · exact away current.symm
        · exact (unattended asleep d here).1 current
      · exact asleep (inv.ready d p chosen large)
      · obtain rfl | here := eq_or_ne d c
        · cases running.symm.trans leaving.1
        · exact (unattended asleep d here).2 leaving
    next => exact ⟨_, rfl, woken⟩
  next => exact ⟨s, rfl, inv⟩

theorem moveAll_spec {src dst : Fin n} {procs : List ProcId} (inv : Inv s) (members : ∀ p ∈ procs, p ∈ (s.cpus src).runList)
    (once : procs.Nodup) (unpicked : ∀ p ∈ procs, ∀ d, (s.cpus d).phase ≠ .picked (some p)) :
      ∃ t, moveAll cls src dst s procs = .ok t ∧ Inv t := by
  induction procs generalizing s with
  | nil => exact ⟨s, rfl, inv⟩
  | cons p rest ih =>
    have member := members p (mem_cons_self ..)
    obtain ⟨queue, runnable, large, free⟩ := inv.queued src p member
    have taken := inv.unlink src (unpicked p (mem_cons_self ..))
    have unlinked : ¬ ((s.unlink src p).setAffinity p dst).Linked p := unlinked_unlink inv src p
    have moved : Inv (((s.unlink src p).setAffinity p dst).link dst p) := by
      apply (taken.setAffinity p dst).link dst large unlinked
      · simpa [State.setAffinity, State.setTask, State.unlink, State.setCpu] using runnable
      · intro d busy
        exact free d (((sameCpus_unlink s src p).busy d p).mp busy)
    obtain ⟨notHere, once⟩ := nodup_cons.mp once
    have members : ∀ q ∈ rest, q ∈ ((((s.unlink src p).setAffinity p dst).link dst p).cpus src).runList := by
      intro q other
      have different : q ≠ p := fun same => notHere (same ▸ other)
      exact (mem_move src dst src different).mpr (members q (mem_cons_of_mem _ other))
    have phases : ∀ d, ((((s.unlink src p).setAffinity p dst).link dst p).cpus d).phase =
      (s.cpus d).phase := fun d => (sameCpus_link _ dst p d).2.2.trans
      (sameCpus_unlink s src p d).2.2
    obtain ⟨t, ran, kept⟩ := ih moved members once fun q other d =>
      phases d ▸ unpicked q (mem_cons_of_mem _ other) d
    refine ⟨t, ?_, kept⟩
    rw [moveAll, ensure_bind, if_pos large, moveRunQueue, dequeue_ok ⟨src, member⟩ queue]
    show (enqueue cls _ dst p >>= fun s => moveAll cls src dst s rest) = _
    rwa [enqueue_ok unlinked]

theorem loadBalance_spec (inv : Inv s) (unpicked : ∀ p ∈ stolen s c, ∀ d,
    (s.cpus d).phase ≠ .picked (some p)) : ∃ t, loadBalance cls s c = .ok t ∧ Inv t := by
  exact moveAll_spec cls inv (fun _ => mem_of_stolen) (nodup_stolen inv.once c) unpicked

/-- What the code relies on without ensuring it: nobody wakes a sleeping process that
another CPU has not left yet, and balancing steals no process that its CPU has already
picked. -/
def Considerate (s : State n) : Op n → Prop
  | .wake c p => (s.tasks p).state ≠ .runnable → Unattended s c p
  | .balance c => ∀ p ∈ stolen s c, ∀ d, (s.cpus d).phase ≠ .picked (some p)
  | _ => True

def Separate (s : State n) : Prop := ∀ c d, (s.cpus c).current = (s.cpus d).current → c = d

theorem Inv.separate (inv : Inv s) : Separate s := fun c d same => inv.exclusive c d _ (.inl rfl) (.inl same.symm)

theorem Inv.stop (inv : Inv s) (running : (s.cpus c).phase = .running) (proc : Proc) :
    Inv (s.setProc (s.cpus c).current proc) := by
  apply inv.setTask (inv.unlinked (.inl rfl))
  intro d chosen
  obtain rfl := inv.exclusive d c _ (.inr (.inl chosen)) (.inl rfl)
  exact nomatch running.symm.trans chosen

theorem inv_start (begins : (machine cls).start s) : Inv s := by
  have busy : ∀ c p, Busy s c p → p = c := by
    intro c p engaged
    obtain ⟨current, phase, _⟩ := begins c
    obtain here | chosen | leaving := engaged
    · exact here.symm.trans current
    · exact nomatch phase.symm.trans chosen
    · exact nomatch phase.symm.trans leaving.1
  have empty : ∀ c, (s.cpus c).runList = [] := fun c => (begins c).2.2.1
  constructor
  case exclusive => exact fun c d p first second => Fin.ext ((busy c p first).symm.trans (busy d p second))
  case idle => exact fun c d engaged => Fin.ext (busy d c engaged).symm
  case queued => exact fun c p member => absurd (empty c ▸ member) not_mem_nil
  case once => exact fun c => empty c ▸ nodup_nil
  case picked => exact fun c p picked => nomatch (begins c).2.1.symm.trans picked
  case leaving => exact fun c switching => nomatch (begins c).2.1.symm.trans switching
  case ready => exact fun c p chosen => nomatch (begins c).2.1.symm.trans chosen

theorem inv_step {op : Op n} (inv : Inv s) (allowed : Allowed s op) (considerate : Considerate s op) :
    ∃ after output, step cls s op = .ok (after, output) ∧ Inv after := by
  cases op with
  | sleep | exit => exact ⟨_, _, rfl, inv.stop allowed.1 _⟩
  | wake =>
    obtain ⟨t, ran, kept⟩ := wakeupProc_spec cls inv allowed.1 allowed.2.1 allowed.2.2 considerate
    exact ⟨t, (), by rw [step, ran]; rfl, kept⟩
  | balance c =>
    obtain ⟨t, ran, kept⟩ := loadBalance_spec cls inv considerate
    exact ⟨t.setPhase c .balanced, (), by rw [step, ran]; rfl, kept.balance c⟩
  | pick c => exact ⟨_, _, rfl, inv.pick c⟩
  | dequeue =>
    obtain ⟨next, picked⟩ := allowed
    obtain ⟨t, ran, kept⟩ := dequeueNext_spec cls inv picked
    exact ⟨t, (), by rw [step, picked]; simp only [ran]; rfl, kept⟩
  | switch c =>
    obtain ⟨next, chosen⟩ := allowed
    exact ⟨switchTo s c next, (), by rw [step, chosen]; rfl, inv.switch c chosen⟩
  | post c =>
    obtain ⟨t, ran, kept⟩ := postSwitch_spec cls inv allowed
    exact ⟨t.setPhase c .running, (), by rw [step, ran]; rfl, kept⟩

/-- With considerate wake-ups and balancing no process ever runs on two CPUs, and no
assertion of the scheduler or its classes fails. -/
theorem one_cpu_per_process_when_considerate (n : Nat) (cls : SchedClass) :
    ((machine cls).restrict (Considerate (n := n))).Safe Separate :=
  Machine.safe_of_invariant (fun _ => inv_start cls) (fun _ _ inv allowed =>
    inv_step cls inv allowed.1 allowed.2) fun _ => Inv.separate

/-- No process is queued twice, or queued while a CPU is at work with it. -/
theorem queued_processes_wait_when_considerate (n : Nat) (cls : SchedClass) :
    ((machine cls).restrict (Considerate (n := n))).Always fun s => ∀ c, (s.cpus c).runList.Nodup ∧
    ∀ p ∈ (s.cpus c).runList, (s.tasks p).state = .runnable ∧ (s.tasks p).rq = some c ∧
      (∀ d, p ∈ (s.cpus d).runList → d = c) ∧ ∀ d, ¬ (s.cpus d).Engaged p := by
  refine Machine.always_of_invariant (fun _ => inv_start cls) ?_ ?_
  · intro s op after output inv allowed ran
    obtain ⟨_, _, same, kept⟩ := inv_step cls inv allowed.1 allowed.2
    cases same.symm.trans ran
    exact kept
  · intro s inv c
    refine ⟨inv.once c, fun p listed => ?_⟩
    obtain ⟨here, runnable, _, idle⟩ := inv.queued c p listed
    exact ⟨runnable, here, fun d other => inv.linked_once other listed, idle⟩

instance (s : State n) (op : Op n) : Decidable ((machine cls).allowed s op) :=
  match op with
  | .sleep _ _ | .exit _ | .wake _ _ | .balance _ | .pick _ | .post _ => by unfold machine Allowed; infer_instance
  | .dequeue c =>
    match phase : (s.cpus c).phase with
    | .picked next => .isTrue ⟨next, phase⟩
    | .running | .balanced | .chosen _ | .switching => .isFalse fun ⟨_, picked⟩ => nomatch phase.symm.trans picked
  | .switch c =>
    match phase : (s.cpus c).phase with
    | .chosen next => .isTrue ⟨next, phase⟩
    | .running | .balanced | .picked _ | .switching => .isFalse fun ⟨_, chosen⟩ => nomatch phase.symm.trans chosen

def booted : State 2 :=
  ⟨fun p => ⟨⟨if p < 2 then .runnable else .uninit, 0⟩, none, 0, 0⟩, fun c => ⟨c, c, .running, [], 0⟩, none⟩

/-- Process 2 goes to sleep on CPU 0, is woken from CPU 1 while CPU 0 is in `schedule`,
and stays current there although it is queued. When it is woken once more it is still
in the queue; and when CPU 1 balances, it takes the process and runs it as well. -/
theorem wakeup_of_a_running_process_breaks_scheduling :
    (∃ s op, (machine (n := 2) .rr).Reachable s ∧ (machine .rr).allowed s op ∧
      (machine .rr).step s op = .error (.assertion "list_empty(&(proc->run_link))")) ∧ ∃ s,
        (machine (n := 2) .rr).Reachable s ∧ ¬ Separate s := by
  have start : (machine .rr).Reachable booted := ⟨[], .start fun _ => ⟨rfl, rfl, rfl, rfl⟩⟩
  have resumed := start.replay [.wake 1 2, .balance 0, .pick 0, .dequeue 0, .switch 0, .post 0,
    .sleep 0 wtTimer, .balance 0, .pick 0, .wake 1 2, .dequeue 0, .switch 0] rfl
  constructor
  · exact ⟨_, .wake 1 2, resumed.replay [.sleep 0 wtTimer] rfl, by decide, rfl⟩
  · have twice := resumed.replay [.wake 1 3, .wake 1 4, .wake 1 5, .wake 1 6, .wake 1 7, .wake 1 8,
      .wake 1 9, .balance 1, .pick 1, .dequeue 1, .switch 1] rfl
    exact ⟨_, twice, fun separate => absurd (separate 0 1 rfl) (by decide)⟩

end Ucore.Sched
