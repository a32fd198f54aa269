import Ucore.Proofs.TimerDeltas
import Ucore.Lib.History

/-! Timers against the history of operations. A timer is due a number of ticks
after the operation that armed it, and nothing that happens to other timers in
between appears in that statement. -/

namespace Ucore.TimerList
open Lib

def touches (id : TimerId) : Op → Bool
  | .add other _ _ => other == id
  | .del other => other == id
  | .tick => false
  | .change _ _ => false

def isTick : Op → Bool
  | .tick => true
  | _ => false

def ticks (ops : List Op) : Nat := ops.countP isTick

/-- The timer was last armed for `proc`, has not been deleted since, and `left`
of its ticks are still to come. -/
def Due (ops : List Op) (id : TimerId) (proc : ProcId) (left : Nat) : Prop :=
  ∃ older expires younger, ops = older ++ .add id proc expires :: younger ∧
    (∀ op ∈ younger, touches id op = false) ∧ ticks younger + left = expires.toNat

theorem due_nil (id : TimerId) (proc : ProcId) (left : Nat) : ¬ Due [] id proc left := by
  rintro ⟨older, expires, younger, same, _⟩
  simp at same

/-- The last operation either arms the timer or leaves it alone; a tick takes
one of the remaining ticks. -/
theorem due_snoc (ops : List Op) (op : Op) (id : TimerId) (proc : ProcId) (left : Nat) : Due (ops ++ [op]) id proc left ↔
      (∃ expires, op = .add id proc expires ∧ left = expires.toNat) ∨
        (touches id op = false ∧ Due ops id proc (left + if isTick op then 1 else 0)) := by
  constructor
  · rintro ⟨older, expires, younger, same, quiet, count⟩
    rcases snoc_cases same with ⟨rfl, rfl, rfl⟩ | ⟨earlier, rfl, rfl⟩
    · exact .inl ⟨expires, rfl, by simpa [ticks] using count⟩
    · refine .inr ⟨quiet op (by simp), older, expires, earlier, rfl, fun other member => quiet other (by simp [member]), ?_⟩
      simp only [ticks, List.countP_append, List.countP_singleton] at count ⊢
      omega
  · rintro (⟨expires, rfl, rfl⟩ | ⟨quiet, older, expires, younger, rfl, silent, count⟩)
    · exact ⟨ops, expires, [], rfl, by simp, by simp [ticks]⟩
    refine ⟨older, expires, younger ++ [op], by simp, ?_, ?_⟩
    · intro other member
      rcases List.mem_append.mp member with member | member
      · exact silent other member
      · rwa [List.mem_singleton.mp member]
    · simp only [ticks, List.countP_append, List.countP_singleton] at count ⊢
      omega

variable {state : State} {id : TimerId}

theorem due_without_delete (before after : List Op) {gone : TimerId} (other : id ≠ gone)
    (proc : ProcId) (left : Nat) : Due (before ++ .del gone :: after) id proc left ↔
    Due (before ++ after) id proc left := by
  induction after using List.reverseRecOn generalizing left with
  | nil =>
    rw [due_snoc]
    simp [touches, isTick, Ne.symm other]
  | append_singleton after op ih =>
    have reassociate : before ++ .del gone :: (after ++ [op]) = (before ++ .del gone :: after) ++ [op] := by simp
    rw [reassociate, ← List.append_assoc, due_snoc, due_snoc, ih]

theorem not_due_after_delete (before after : List Op) {proc : ProcId} {left : Nat}
    (quiet : ∀ op ∈ after, touches id op = false) : ¬ Due (before ++ .del id :: after) id proc
    left := by
  induction after using List.reverseRecOn generalizing left with
  | nil =>
    rw [due_snoc]
    simp [touches]
  | append_singleton after op ih =>
    have reassociate : before ++ .del id :: (after ++ [op]) = (before ++ .del id :: after) ++ [op] := by simp
    rw [reassociate, due_snoc]
    rintro (⟨expires, rfl, _⟩ | ⟨_, due⟩)
    · simpa [touches] using quiet (.add id proc expires) (by simp)
    · exact ih (fun other member => quiet other (by simp [member])) due

abbrev Trace := List (Op × List (TimerId × ProcId))

def ops (trace : Trace) : List Op := trace.map Prod.fst

@[simp] theorem ops_append (first second : Trace) : ops (first ++ second) = ops first ++ ops second := List.map_append ..

@[simp] theorem ops_cons (event : Op × List (TimerId × ProcId)) (trace : Trace) :
    ops (event :: trace) = event.1 :: ops trace := rfl

@[simp] theorem ops_nil : ops [] = [] := rfl

/-- The state agrees with the history: the timers in the list are those that are
still due, with exactly the ticks the history leaves them. -/
structure Tracks (trace : Trace) (state : State) : Prop where
  valid : Valid state
  due : ∀ id proc left, remaining state.tl id = some (proc, left) ↔ 0 < left ∧ Due (ops trace) id proc left

theorem Tracks.start (begins : machine.start state) : Tracks [] state := by
  refine ⟨valid_start begins, ?_⟩
  intro id proc left
  have empty : state.tl = [] := begins
  simp [remaining, queue, empty, DeltaQueue.due, due_nil]

variable {trace : Trace} {after : State} {op : Op} {woken : List (TimerId × ProcId)}

theorem Tracks.step (tracks : Tracks trace state) (allowed : Allowed state op)
    (ran : TimerList.step state op = .ok (after, woken)) :
    Tracks (trace ++ [(op, woken)]) after := by
  obtain ⟨final, result, stepped, kept, spec⟩ := step_spec tracks.valid op allowed
  cases ran.symm.trans stepped
  refine ⟨kept, ?_⟩
  intro id proc left
  simp only [ops_append, ops_cons, ops_nil, due_snoc]
  cases op with
  | add armed target expires =>
    rw [spec.2 id]
    have positive := UInt32.lt_iff_toNat_lt.mp allowed.1
    obtain rfl | same := eq_or_ne armed id
    · simp only [if_true, Option.some.injEq, Prod.mk.injEq, Op.add.injEq, touches, beq_self_eq_true]
      constructor
      · rintro ⟨rfl, rfl⟩
        exact ⟨positive, .inl ⟨expires, by simp, rfl⟩⟩
      · rintro ⟨_, ⟨other, ⟨_, rfl, rfl⟩, rfl⟩ | ⟨impossible, _⟩⟩
        · exact ⟨rfl, rfl⟩
        · cases impossible
    · simp only [same, if_false, tracks.due, touches, isTick, Op.add.injEq, false_and, exists_false, false_or]
      simp [same]
  | del gone =>
    rw [spec.2 id]
    by_cases same : gone = id
    · simp [same, touches]
    · simp [same, touches, tracks.due, isTick]
  | change =>
    rw [spec.2, tracks.due]
    simp [touches, isTick]
  | tick =>
    rw [spec.2.2 id]
    simp only [touches, isTick, if_true, true_and, reduceCtorEq, false_and, exists_false, false_or]
    constructor
    · intro found
      obtain ⟨found, nonzero⟩ := Option.filter_eq_some_iff.mp found
      obtain ⟨⟨held, ahead⟩, before, same⟩ := Option.map_eq_some_iff.mp found
      cases same
      have nonzero : ahead - 1 ≠ 0 := by simpa using nonzero
      have later := ((tracks.due id held ahead).mp before).2
      exact ⟨by omega, by rwa [show ahead - 1 + 1 = ahead by omega]⟩
    · rintro ⟨positive, later⟩
      have before := (tracks.due id proc (left + 1)).mpr ⟨by omega, later⟩
      rw [before]
      simp [Option.filter]
      omega

theorem Tracks.of_run (run : machine.Run trace state) : Tracks trace state :=
  Machine.Run.invariant (fun _ begins => Tracks.start begins) (fun _ _ _ _ _ tracks allowed ran =>
    tracks.step allowed ran) run

/-- Every recorded operation woke exactly the timers on their last tick, and
only ticks wake anything. -/
def OnTime (trace : Trace) : Prop :=
  ∀ before op woken after, trace = before ++ (op, woken) :: after →
    (woken.map Prod.fst).Nodup ∧
    ∀ id proc, (id, proc) ∈ woken ↔ op = .tick ∧ Due (ops before) id proc 1

theorem onTime_nil : OnTime [] := by
  intro before op woken after same
  simp at same

theorem OnTime.step (timely : OnTime trace) (tracks : Tracks trace state) (allowed : Allowed state op)
    (ran : TimerList.step state op = .ok (after, woken)) : OnTime (trace ++ [(op, woken)]) := by
  intro before current others later same
  rcases snoc_cases same with ⟨_, rfl, equal⟩ | ⟨earlier, _, rfl⟩
  · cases equal
    obtain ⟨next, result, stepped, _, spec⟩ := step_spec tracks.valid op allowed
    cases ran.symm.trans stepped
    cases op with
    | tick =>
      refine ⟨spec.1, fun id proc => ?_⟩
      rw [spec.2.1 id proc, tracks.due]
      simp
    | add | del | change => simp [spec.1]
  · exact timely before current others earlier rfl

theorem onTime_of_run (run : machine.Run trace state) : OnTime trace := by
  induction run with
  | start => exact onTime_nil
  | step prior allowed ran ih => exact ih.step (Tracks.of_run prior) allowed ran

private theorem runnable_wakeupProc {proc after : Proc} (woken : wakeupProc proc = .ok after) :
    after.state = .runnable := by
  rw [wakeupProc, ensure_bind] at woken
  split at woken
  · split at woken
    · cases woken
      rfl
    · next awake =>
      cases woken
      exact not_not.mp awake
  · cases woken

/-- The loop makes runnable whom it wakes, and leaves runnable who is. -/
private theorem runnable_wakeExpired {tl : List Timer} {procs : ProcId → Proc} {woken : List (TimerId × ProcId)}
    (ran : wakeExpired procs tl = .ok (state, woken)) :
    (∀ p, (procs p).state = .runnable → (state.procs p).state = .runnable) ∧
      ∀ id p, (id, p) ∈ woken → (state.procs p).state = .runnable := by
  induction tl generalizing procs woken with
  | nil =>
    cases ran
    exact ⟨fun _ => id, nofun⟩
  | cons timer rest ih =>
    rw [wakeExpired] at ran
    split at ran
    · rw [ensure_bind] at ran
      split at ran
      · obtain ⟨proc, awake, ran⟩ := exists_of_bind ran
        obtain ⟨⟨final, others⟩, looped, ran⟩ := exists_of_bind ran
        cases ran
        obtain ⟨kept, made⟩ := ih looped
        have here := kept timer.proc (by rw [Function.update_self]; exact runnable_wakeupProc awake)
        constructor
        · intro p runs
          obtain rfl | other := eq_or_ne p timer.proc
          · exact here
          · exact kept p (by rwa [Function.update_of_ne other])
        · intro id p member
          rcases List.mem_cons.mp member with same | later
          · cases same
            exact here
          · exact made id p later
      · cases ran
    · cases ran
      exact ⟨fun _ => id, nofun⟩

private theorem runnable_of_step {op : Op} {woken : List (TimerId × ProcId)} (ran : step state op = .ok (after, woken))
    (id : TimerId) (proc : ProcId) (member : (id, proc) ∈ woken) : (after.procs proc).state = .runnable := by
  cases op with
  | tick =>
    rw [step, runTimerList] at ran
    split at ran
    · cases ran
      cases member
    · rw [ensure_bind] at ran
      split at ran
      · exact (runnable_wakeExpired ran).2 id proc member
      · cases ran
  | add =>
    obtain ⟨_, _, ran⟩ := exists_of_bind ran
    cases ran
    cases member
  | del | change =>
    cases ran
    cases member

/-- A pending timer armed for `expires` ticks wakes its process at the tick with
that number and at no other, a deleted timer never does, deleting one timer
changes no other, who is woken is runnable afterwards, and no assertion on the
way can fail. -/
theorem timers_fire_exactly_when_due {trace : Trace} {state : State} (run : machine.Run trace state) :
    (∀ op, Allowed state op → machine.Accepts state op) ∧ (∀ timer rest, state.tl = timer :: rest →
      timer.expires ≠ 0) ∧ OnTime trace ∧
    (∀ before id older middle woken after, trace = before ++ (.del id, older) :: middle ++ (.tick, woken) :: after →
      (∀ event ∈ middle, touches id event.1 = false) → ∀ proc, (id, proc) ∉ woken) ∧
    (∀ before gone older after, trace = before ++ (.del gone, older) :: after →
      ∀ kept final, machine.Run (before ++ kept) final → ops kept = ops after →
      ∀ (index : Nat) op woken others, after[index]? = some (op, woken) → kept[index]? = some (op, others) →
      ∀ id ≠ gone, ∀ proc, (id, proc) ∈ woken ↔ (id, proc) ∈ others) ∧
    ∀ op after woken, step state op = .ok (after, woken) →
      ∀ id proc, (id, proc) ∈ woken → (after.procs proc).state = .runnable := by
  have tracks := Tracks.of_run run
  have timely := onTime_of_run run
  refine ⟨?_, ?_, timely, ?_, ?_, fun _ _ _ => runnable_of_step⟩
  · intro op allowed
    obtain ⟨after, woken, executed, _⟩ := step_spec tracks.valid op allowed
    exact ⟨after, woken, executed⟩
  · intro timer rest shape zero
    have live := tracks.valid.live
    simp only [shape, queue, List.map_cons, DeltaQueue.Live, entry, zero] at live
    exact live rfl
  · intro before id older middle woken after shape quiet proc member
    obtain ⟨_, due⟩ := ((timely _ _ _ _ shape).2 id proc).mp member
    exact not_due_after_delete _ _ (fun op inside => by
      obtain ⟨event, present, rfl⟩ := List.mem_map.mp inside
      exact quiet event present) (by simpa [ops] using due)
  · intro before gone older after shape kept final other same index op woken others found foundKept id different proc
    have position := List.getElem?_eq_some_iff.mp found
    have positionKept := List.getElem?_eq_some_iff.mp foundKept
    obtain ⟨inside, value⟩ := position
    obtain ⟨insideKept, valueKept⟩ := positionKept
    have splitAfter : after = after.take index ++ (op, woken) :: after.drop (index + 1) := by
      rw [← value, List.getElem_cons_drop, List.take_append_drop]
    have splitKept : kept = kept.take index ++ (op, others) :: kept.drop (index + 1) := by
      rw [← valueKept, List.getElem_cons_drop, List.take_append_drop]
    have first := (timely (before ++ (.del gone, older) :: after.take index) op woken (after.drop (index + 1))
      (by rw [shape, List.append_assoc, List.cons_append, ← splitAfter])).2 id proc
    have second := (onTime_of_run other (before ++ kept.take index) op others
      (kept.drop (index + 1)) (by rw [List.append_assoc, ← splitKept])).2 id proc
    have sameTake : ops (kept.take index) = ops (after.take index) := by
      simp only [ops, List.map_take] at same ⊢
      rw [same]
    rw [first, second]
    simp only [ops_append, ops_cons, sameTake, due_without_delete _ _ different]

/-- Timer 1 is armed for two ticks and timer 2 for one; timer 2 is deleted and
timer 1 still fires at the second tick. -/
theorem timers_fire_second_tick : OnTime [(.add 1 7 2, []), (.add 2 8 1, []), (.tick, [(2, 8)]),
    (.del 2, []), (.tick, [(1, 7)])] := by
  have started : machine.Run [] ⟨[], fun _ => ⟨.sleeping, wtTimer⟩⟩ := .start rfl
  have first := started.next (.add 1 7 2) ⟨by decide, rfl, by decide⟩ rfl
  have second := first.next (.add 2 8 1) ⟨by decide, rfl, by decide⟩ rfl
  have ticked := second.next .tick trivial rfl
  have deleted := ticked.next (.del 2) trivial rfl
  exact (timers_fire_exactly_when_due (deleted.next .tick trivial rfl)).2.2.1

end Ucore.TimerList
