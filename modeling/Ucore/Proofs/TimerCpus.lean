import Ucore.CpuTimers
import Ucore.Proofs.TimerTrace

/-! Each CPU keeps its timers by its own clock, as long as timers are deleted where they were added.
-/

namespace Ucore.CpuTimers
open Lib TimerList Function List

/-- A timer is deleted on the CPU that has it in its list. -/
def Stationary {n : Nat} (s : State n) : Fin n × Op → Prop
  | (c, .del id) => ∀ d, pending (s.lists d) id = true → d = c
  | _ => True

variable {n : Nat} {s after : State n} {c : Fin n} {op : Op} {id : TimerId} {woken : List (TimerId × ProcId)}

theorem delTimer_of_not_pending {tl : List Timer} {id : TimerId} (absent : pending tl id = false) :
    TimerList.delTimer id tl = tl := by
  induction tl with
  | nil => rfl
  | cons timer rest ih =>
    obtain ⟨other, absent⟩ := Bool.or_eq_false_iff.mp absent
    unfold TimerList.delTimer
    rw [if_neg (by simpa using other), ih absent]

theorem del_at (stationary : Stationary s (c, .del id)) : step s (c, .del id) = .ok
    (⟨update s.lists c (TimerList.delTimer id (s.lists c)), s.procs⟩, []) := by
  rw [step]
  split
  next none =>
    have absent : pending (s.lists c) id = false := by simpa using find?_eq_none.mp none c (mem_finRange c)
    rw [delTimer_of_not_pending absent, update_eq_self]
    rfl
  next d found =>
    have here : d = c := stationary d (by simpa using find?_some found)
    rw [delTimer, if_neg (fun away => away.1 here.symm), here]
    rfl

/-- What happens on a CPU is what happens to its list, and no process with a timer is harmed. -/
theorem step_at (allowed : Allowed s (c, op)) (stationary : Stationary s (c, op))
    (valid : ∀ c, Valid (s.at c)) : TimerList.Allowed (s.at c) op ∧ ∃ list woken,
    TimerList.step (s.at c) op = .ok (list, woken) ∧
      step s (c, op) = .ok (⟨update s.lists c list.tl, list.procs⟩, woken) ∧ ∀ d,
        ∀ timer ∈ s.lists d, (list.procs timer.proc).Interruptible := by
  have ready : ∀ d, ∀ timer ∈ s.lists d, (s.procs timer.proc).Interruptible := fun d => (valid d).interruptible
  cases op with
  | add id proc expires =>
    obtain ⟨positive, absent, interruptible⟩ := allowed
    refine ⟨⟨positive, absent c, interruptible⟩, ⟨insertTimer ⟨id, expires, proc⟩ (s.lists c), s.procs⟩, [], ?_, ?_, ready⟩
    · simp [TimerList.step, addTimer, State.at, positive, absent]
      rfl
    · simp only [step, ensure_bind, if_pos positive, if_pos absent]
      rfl
  | del id => exact ⟨trivial, ⟨TimerList.delTimer id (s.lists c), s.procs⟩, [], rfl, del_at stationary, ready⟩
  | tick =>
    obtain ⟨list, ran, _, _, kept⟩ := runTimerList_spec (valid c)
    refine ⟨trivial, list, _, ran, ?_, fun d timer member => kept _ (ready d timer member)⟩
    rw [step, ran]
    rfl
  | change proc value =>
    refine ⟨?_, ⟨s.lists c, update s.procs proc value⟩, [], rfl, ?_, ?_⟩
    · rintro ⟨timer, member, same⟩
      exact allowed ⟨c, timer, member, same⟩
    · rw [update_eq_self]
      rfl
    · intro d timer member
      by_cases same : timer.proc = proc
      · simpa [same] using allowed ⟨d, timer, member, same⟩
      · simpa [same] using ready d timer member

def onCpu (c : Fin n) (trace : List ((Fin n × Op) × List (TimerId × ProcId))) : Trace :=
  trace.filterMap fun event => if event.1.1 = c then some (event.1.2, event.2) else none

/-- Each CPU keeps its own timers by its own clock. -/
def Local (trace : List ((Fin n × Op) × List (TimerId × ProcId))) (s : State n) : Prop :=
  ∀ c, Tracks (onCpu c trace) (s.at c) ∧ OnTime (onCpu c trace)

theorem local_step {trace : List ((Fin n × Op) × List (TimerId × ProcId))} (locals : Local trace s)
    (allowed : Allowed s (c, op))
    (stationary : Stationary s (c, op)) (ran : step s (c, op) = .ok (after, woken)) :
      Local (trace ++ [((c, op), woken)]) after := by
  obtain ⟨permitted, list, rings, stepped, same, kept⟩ := step_at allowed stationary fun c => (locals c).1.valid
  cases ran.symm.trans same
  intro d
  obtain ⟨tracks, timely⟩ := locals d
  obtain rfl | here := eq_or_ne c d
  · have grown : onCpu c (trace ++ [((c, op), woken)]) = onCpu c trace ++ [(op, woken)] := by simp [onCpu]
    have view : State.at ⟨update s.lists c list.tl, list.procs⟩ c = list := by simp [State.at]
    rw [grown, view]
    exact ⟨tracks.step permitted stepped, timely.step tracks permitted stepped⟩
  · have same : onCpu d (trace ++ [((c, op), woken)]) = onCpu d trace := by simp [onCpu, here]
    have view : State.at ⟨update s.lists c list.tl, list.procs⟩ d = ⟨s.lists d, list.procs⟩ := by
      simp [State.at, Ne.symm here]
    rw [same, view]
    exact ⟨⟨{ tracks.valid with interruptible := kept d }, tracks.due⟩, timely⟩

/-- In every run in which timers are deleted on the CPU that has them, every operation completes,
and on each CPU timers fire at their ticks and at no others. -/
theorem timers_fire_on_their_cpu {n : Nat} {trace : List ((Fin n × Op) × List (TimerId × ProcId))} {s : State n}
    (run : (machine.restrict Stationary).Run trace s) :
      (∀ op, Allowed s op → Stationary s op → machine.Accepts s op) ∧ ∀ c, OnTime (onCpu c trace) := by
  have locals : Local trace s := by
    refine Machine.Run.invariant (fun s begins c => ⟨.start (begins c), onTime_nil⟩) ?_ run
    exact fun _ _ op _ _ locals allowed executed => local_step locals allowed.1 allowed.2 executed
  refine ⟨?_, fun c => (locals c).2⟩
  intro ⟨c, op⟩ allowed stationary
  obtain ⟨_, _, _, _, executed, _⟩ := step_at allowed stationary fun c => (locals c).1.valid
  exact ⟨_, _, executed⟩

def quiet : State 2 := ⟨fun _ => [], fun _ => ⟨.sleeping, wtTimer⟩⟩

theorem timers_fire_on_two_cpus : OnTime (onCpu 0 [((0, .add 1 7 2), []), ((1, .add 2 8 1), []), ((1, .tick), [(2, 8)]),
    ((0, .tick), []), ((0, .tick), [(1, 7)]), (((1 : Fin 2), .del 2), [])]) := by
  have started : (machine.restrict Stationary).Run [] quiet := .start fun _ => rfl
  have first := started.next (0, .add 1 7 2) ⟨⟨by decide, fun _ => rfl, by decide⟩, trivial⟩ rfl
  have second := first.next (1, .add 2 8 1) ⟨⟨by decide, by decide, by decide⟩, trivial⟩ rfl
  have ticked := second.next (1, .tick) ⟨trivial, trivial⟩ rfl
  have again := (ticked.next (0, .tick) ⟨trivial, trivial⟩ rfl).next (0, .tick) ⟨trivial, trivial⟩ rfl
  exact (timers_fire_on_their_cpu (again.next (1, .del 2) ⟨trivial, by unfold Stationary; decide⟩ rfl)).2 0

/-- A process goes to sleep on CPU 0, is woken early and runs on CPU 1 when it deletes its timer. -/
theorem deletion_takes_a_list_head_for_a_timer : ∃ s : State 2, machine.Reachable s ∧
    Allowed s (1, .del 1) ∧ step s (1, .del 1) = .error (.misread "le2timer(le, timer_link)") := by
  have started : machine.Run [] quiet := .start fun _ => rfl
  have armed := started.next (0, .add 1 7 2) ⟨by decide, fun _ => rfl, by decide⟩ rfl
  exact ⟨_, ⟨_, armed.next (1, .change 7 ⟨.runnable, 0⟩) (fun _ => by decide) rfl⟩, trivial, rfl⟩

end Ucore.CpuTimers
