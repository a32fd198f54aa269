import Ucore.Sem
import Ucore.Lib.History

/-! Accounts of a semaphore. Every up is in the value, has been used by a down that
returned zero, or is owed to one waiter that has been released but has not run yet.
The code keeps these accounts as long as an up never meets a waiter that a timer or
a signal has already made runnable. -/

namespace Ucore.Sem
open Lib Function List Option

variable {kind : Kind} {s : State} {p : ProcId}

theorem waitState_ne_interrupted (kind : Kind) : kind.waitState ≠ wtInterrupted := by cases kind <;> decide

structure Waiting (kind : Kind) (s : State) (p : ProcId) (down : Down) : Prop where
  flags : down.wakeupFlags = wtInterrupted ∨ down.wakeupFlags = kind.waitState
  released : down.wakeupFlags = kind.waitState → p ∉ s.waitQueue
  state : s.procs p = ⟨.sleeping, kind.waitState⟩ ∨ s.procs p = ⟨.runnable, 0⟩
  timer : down.timer = true → kind = .user

structure Inv (kind : Kind) (s : State) : Prop where
  waiting : ∀ p down, s.downs p = some down → Waiting kind s p down
  members : ∀ p ∈ s.waitQueue, ∃ down, s.downs p = some down
  once : s.waitQueue.Nodup
  value : 0 ≤ s.value.toInt

theorem wakeup_ok (state : s.procs p = ⟨.sleeping, kind.waitState⟩ ∨ s.procs p = ⟨.runnable, 0⟩) :
    wakeup s p = .ok (s.setProc p ⟨.runnable, 0⟩) := by
  obtain asleep | awake := state
  · rw [wakeup, asleep]
    rfl
  · rw [wakeup, awake]
    rfl

theorem Inv.change (inv : Inv kind s) {t : State} (p : ProcId) (downs : ∀ q, q ≠ p →
    t.downs q = s.downs q) (procs : ∀ q, q ≠ p → t.procs q = s.procs q) (queue : ∀ q, q ≠ p →
    q ∈ t.waitQueue → q ∈ s.waitQueue)
    (member : p ∈ t.waitQueue → ∃ down, t.downs p = some down) (once : t.waitQueue.Nodup)
      (waiting : ∀ down, t.downs p = some down → Waiting kind t p down)
      (value : 0 ≤ t.value.toInt) : Inv kind t := by
  refine ⟨?_, ?_, once, value⟩
  · intro q down entered
    obtain rfl | here := eq_or_ne q p
    · exact waiting down entered
    · obtain ⟨flags, released, state, timer⟩ := inv.waiting q down (downs q here ▸ entered)
      exact ⟨flags, fun granted queued => released granted (queue q here queued), procs q here ▸ state, timer⟩
  · intro q queued
    obtain rfl | here := eq_or_ne q p
    · exact member queued
    · rw [downs q here]
      exact inv.members q (queue q here queued)

def Granted (kind : Kind) (s : State) (p : ProcId) : Prop := ∃ down, s.downs p = some down ∧
    down.wakeupFlags = kind.waitState

theorem Inv.queued_not_granted (inv : Inv kind s) (queued : p ∈ s.waitQueue) : ¬ Granted kind s p :=
  fun ⟨down, entered, granted⟩ => (inv.waiting p down entered).released granted queued

theorem wakeupWait_spec (inv : Inv kind s) {flags : UInt32} (queued : p ∈ s.waitQueue)
    (known : flags = wtInterrupted ∨ flags = kind.waitState) :
    ∃ t, wakeupWait s p flags = .ok t ∧ Inv kind t ∧ t.value = s.value ∧
      t.waitQueue = s.waitQueue.erase p ∧ ∀ q, Granted kind t q ↔ Granted kind s q ∨
      (q = p ∧ flags = kind.waitState) := by
  obtain ⟨down, entered⟩ := inv.members p queued
  obtain ⟨_, _, state, timer⟩ := inv.waiting p down entered
  let released : State := { s.setDown p (some { down with wakeupFlags := flags }) with waitQueue := s.waitQueue.erase p }
  have downs : ∀ q, q ≠ p → released.downs q = s.downs q := fun q other => update_of_ne other ..
  have here : released.downs p = some { down with wakeupFlags := flags } := update_self ..
  refine ⟨released.setProc p ⟨.runnable, 0⟩, ?_, ?_, rfl, rfl, ?_⟩
  · simp only [wakeupWait, waitQueueDel, ensure_bind, if_pos queued]
    show wakeup _ p = _
    rw [entered]
    exact wakeup_ok (s := released) state
  · apply inv.change (t := released.setProc p ⟨.runnable, 0⟩) p downs
    · exact fun q other => update_of_ne other ..
    · exact fun q _ left => mem_of_mem_erase left
    · exact fun _ => ⟨_, here⟩
    · exact inv.once.erase p
    · intro after same
      obtain rfl := some.inj (here.symm.trans same)
      exact ⟨known, fun _ left => (inv.once.mem_erase_iff.mp left).1 rfl, .inr (update_self ..), timer⟩
    · exact inv.value
  · intro q
    show (∃ after, released.downs q = some after ∧ _) ↔ _
    obtain rfl | same := eq_or_ne q p
    · rw [here]
      simp [inv.queued_not_granted queued]
    · rw [downs q same]
      simp [same, Granted]

theorem wakeupQueue_spec (fuel : Nat) (inv : Inv kind s) (enough : s.waitQueue.length ≤ fuel) :
    ∃ t, wakeupQueue wtInterrupted fuel s = .ok t ∧ Inv kind t ∧ t.value = s.value ∧ ∀ q,
    Granted kind t q ↔ Granted kind s q := by
  induction fuel generalizing s with
  | zero =>
    have empty := eq_nil_of_length_eq_zero (Nat.le_zero.mp enough)
    exact ⟨s, by simp [wakeupQueue, empty, pure, Except.pure], inv, rfl, fun _ => Iff.rfl⟩
  | succ fuel ih =>
    cases queue : s.waitQueue with
    | nil => exact ⟨s, by simp [wakeupQueue, queue, pure, Except.pure], inv, rfl, fun _ => Iff.rfl⟩
    | cons =>
      obtain ⟨t, woken, kept, value, left, granted⟩ := wakeupWait_spec inv (queue ▸ mem_cons_self) (.inl rfl)
      have shorter : t.waitQueue.length ≤ fuel := by
        rw [queue, erase_cons_head] at left
        rw [queue] at enough
        rw [left]
        exact Nat.le_of_succ_le_succ enough
      obtain ⟨last, ran, kept, sameValue, sameGranted⟩ := ih kept shorter
      refine ⟨last, ?_, kept, sameValue.trans value, ?_⟩
      · simp only [wakeupQueue, queue, woken]
        exact ran
      · intro q
        rw [sameGranted, granted]
        simp [(waitState_ne_interrupted kind).symm]

abbrev Trace := List (Op × Event)

def ups (trace : Trace) : Nat := trace.countP fun entry => decide (entry.1 = .up)

def Event.success : Event → Bool
  | .returned _ result => result == 0
  | .acquired => true
  | _ => false

/-- The downs that have returned zero, and the `try_down`s that have succeeded. -/
def successes (trace : Trace) : Nat := trace.countP fun entry => entry.2.success

def settle (waiters : List ProcId) : Event → List ProcId
  | .granted p => p :: waiters
  | .returned p _ => waiters.erase p
  | _ => waiters

/-- The waiters that an up has released and whose down has not returned since. -/
def owed (trace : Trace) : List ProcId := trace.foldl (fun waiters entry => settle waiters entry.2) []

/-- An up increments the value or releases one waiter that was owed nothing, and a wait
ends with zero exactly if it was owed. -/
def Settles (older : Trace) : Op × Event → Prop
  | (.up, event) => event = .incremented ∨ ∃ p, event = .granted p ∧ p ∉ owed older
  | (.resume p, event) => ∃ result, event = .returned p result ∧ (result = 0 ↔ p ∈ owed older)
  | _ => True

structure NoUpLost (initial : Int32) (trace : Trace) (s : State) : Prop where
  value : 0 ≤ s.value.toInt
  bound : successes trace ≤ initial.toInt + ups trace
  ledger : initial.toInt + ups trace = s.value.toInt + successes trace + (owed trace).length
  once : (owed trace).Nodup
  settled : Throughout Settles trace

structure Accounted (kind : Kind) (initial : Int32) (trace : Trace) (s : State) : Prop where
  inv : Inv kind s
  ledger : initial.toInt + ups trace = s.value.toInt + successes trace + (owed trace).length
  once : (owed trace).Nodup
  granted : ∀ p, p ∈ owed trace ↔ Granted kind s p
  settled : Throughout Settles trace

theorem Accounted.noUpLost {initial : Int32} {trace : Trace}
    (accounted : Accounted kind initial trace s) : NoUpLost initial trace s := by
  refine { accounted with value := accounted.inv.value, bound := ?_ }
  have value := accounted.inv.value
  have ledger := accounted.ledger
  omega

section
variable (trace : Trace) (op : Op) (event : Event)
include trace op event

theorem ups_snoc : ups (trace ++ [(op, event)]) = ups trace + if op = .up then 1 else 0 := by
  simp [ups, countP_append, countP_singleton]

theorem owed_snoc : owed (trace ++ [(op, event)]) = settle (owed trace) event := by simp [owed]

theorem successes_snoc : successes (trace ++ [(op, event)]) = successes trace + if event.success then
    1 else 0 := by simp [successes, countP_append, countP_singleton]

end

section
variable {initial : Int32} {trace : Trace} {t : State} {p : ProcId} {value : Int32}

section
variable (accounted : Accounted kind initial trace s) (op : Op)
include accounted op

theorem Accounted.next (event : Event) (inv : Inv kind t)
    (balance : t.value.toInt + (if event.success then 1 else 0) +
    (settle (owed trace) event).length =
      s.value.toInt + (owed trace).length + if op = .up then 1 else 0)
        (once : (settle (owed trace) event).Nodup) (granted : ∀ p, p ∈ settle (owed trace) event ↔
        Granted kind t p)
    (settles : Settles trace (op, event)) : Accounted kind initial (trace ++ [(op, event)]) t := by
  refine ⟨inv, ?_, owed_snoc trace op event ▸ once, owed_snoc trace op event ▸ granted, accounted.settled.snoc settles⟩
  have ledger := accounted.ledger
  rw [ups_snoc, successes_snoc, owed_snoc]
  split at balance <;> split at balance <;> simp_all <;> omega

theorem Accounted.quiet (inv : Inv kind t) (value : t.value = s.value) (granted : ∀ p,
    Granted kind t p ↔ Granted kind s p) (other : op ≠ .up) (settles : Settles trace (op, .quiet)) :
    Accounted kind initial (trace ++ [(op, .quiet)]) t := by
  apply accounted.next op .quiet inv _ accounted.once (fun p => (accounted.granted p).trans (granted p).symm) settles
  simp [value, Event.success, settle, other]

theorem Accounted.roused {down after : Down} (entered : s.downs p = some down)
    (here : t.downs p = some after) (flags : after.wakeupFlags = down.wakeupFlags)
    (timer : after.timer = true → down.timer = true) (awake : t.procs p = ⟨.runnable, 0⟩)
      (downs : ∀ q, q ≠ p → t.downs q = s.downs q) (procs : ∀ q, q ≠ p → t.procs q = s.procs q)
    (queue : t.waitQueue = s.waitQueue) (value : t.value = s.value) (other : op ≠ .up)
      (settles : Settles trace (op, .quiet)) : Accounted kind initial (trace ++ [(op, .quiet)])
      t := by
  obtain ⟨known, released, _, user⟩ := accounted.inv.waiting p down entered
  have inv : Inv kind t := by
    apply accounted.inv.change p downs procs
    · exact fun q _ member => queue ▸ member
    · exact fun _ => ⟨after, here⟩
    · exact queue ▸ accounted.inv.once
    · intro d same
      obtain rfl := some.inj (here.symm.trans same)
      exact ⟨flags ▸ known, fun granted => queue ▸ released (flags ▸ granted), .inr awake, fun set => user (timer set)⟩
    · exact value ▸ accounted.inv.value
  apply accounted.quiet op inv value _ other settles
  intro q
  obtain rfl | same := eq_or_ne q p
  · simp [Granted, here, entered, flags]
  · rw [Granted, Granted, downs q same]

end

theorem toInt_succ (nonneg : 0 ≤ value.toInt) (room : value.toInt < 2 ^ 31 - 1) : (value + 1).toInt = value.toInt + 1 := by
  rw [Int32.toInt_add]
  exact Int.bmod_eq_of_le (by simp; omega) (by simp; omega)

theorem toInt_pred (positive : value > 0) : (value - 1).toInt = value.toInt - 1 ∧ 0 < value.toInt := by
  have bound := value.toInt_lt
  have above : 0 < value.toInt := Int32.lt_iff_toInt_lt.mp positive
  rw [Int32.toInt_sub]
  exact ⟨Int.bmod_eq_of_le (by simp; omega) (by simp; omega), above⟩

/-- An up finds nobody waiting and room for one more, or a first waiter that is still asleep. -/
def Orderly (s : State) : Op → Prop
  | .up =>
    match s.waitQueue with
    | [] => s.value.toInt < 2 ^ 31 - 1
    | p :: _ => (s.procs p).state = .sleeping
  | _ => True

/-- Assertions about callers: the semaphore has been freed, or a kernel wait was killed. -/
def Excused (fault : Fault) : Prop := fault = .assertion "sem->valid" ∨ fault = .assertion "flags == 0"

theorem Inv.setValue (inv : Inv kind s) (nonneg : 0 ≤ value.toInt) : Inv kind { s with value } :=
  ⟨fun p down entered => ⟨(inv.waiting p down entered).flags, (inv.waiting p down entered).released,
    (inv.waiting p down entered).state, (inv.waiting p down entered).timer⟩, inv.members, inv.once, nonneg⟩

section
variable (accounted : Accounted kind initial trace s) {timeout : UInt32}
include accounted

theorem up_ends (orderly : Orderly s .up) : Ends Excused (up kind.waitState s) fun result =>
    Accounted kind initial (trace ++ [(.up, result.2)]) result.1 := by
  have inv := accounted.inv
  rw [up, ensure_bind]
  split
  next =>
    rw [Orderly] at orderly
    cases queue : s.waitQueue with
    | nil =>
      simp only [queue] at orderly
      have more := toInt_succ inv.value orderly
      have kept : Inv kind { s with value := s.value + 1 } := inv.setValue (by have := inv.value; omega)
      apply accounted.next .up .incremented kept _ accounted.once accounted.granted (.inl rfl)
      simp only [more, Event.success, settle]
      simp
      omega
    | cons p =>
      simp only [queue] at orderly
      have queued := queue ▸ mem_cons_self
      obtain ⟨down, entered⟩ := inv.members p queued
      have state : (s.procs p).waitState = kind.waitState := by
        obtain asleep | awake := (inv.waiting p down entered).state
        · rw [asleep]
        · rw [awake] at orderly
          cases orderly
      obtain ⟨t, woken, kept, value, _, granted⟩ := wakeupWait_spec inv queued (.inr rfl)
      have notOwed : p ∉ owed trace := fun member => inv.queued_not_granted queued ((accounted.granted p).mp member)
      simp only [upFirst, ensure_bind, if_pos state, woken]
      apply accounted.next .up (.granted p) kept _ (nodup_cons.mpr ⟨notOwed, accounted.once⟩)
      · intro q
        rw [granted, settle, mem_cons, accounted.granted]
        simp [or_comm]
      · exact .inr ⟨p, rfl, notOwed⟩
      · simp only [value, Event.success, settle, length_cons]
        simp
        omega
  next => exact .inl rfl

theorem Accounted.absent (outside : s.downs p = none) : p ∉ owed trace := by
  intro member
  obtain ⟨down, entered, _⟩ := (accounted.granted p).mp member
  cases outside.symm.trans entered

theorem Accounted.block (outside : s.downs p = none) (untimed : kind = .kernel → timeout = 0) :
    Accounted kind initial (trace ++ [(.down p timeout, .quiet)])
    (waitCurrentSet s p kind.waitState timeout) := by
  have inv := accounted.inv
  have unqueued : p ∉ s.waitQueue := by
    intro queued
    obtain ⟨down, entered⟩ := inv.members p queued
    cases outside.symm.trans entered
  generalize tIs : waitCurrentSet s p kind.waitState timeout = t
  have here : t.downs p = some ⟨wtInterrupted, timeout, s.ticks, timeout != 0⟩ := tIs ▸ update_self ..
  have downs : ∀ q, q ≠ p → t.downs q = s.downs q := fun q other => tIs ▸ update_of_ne other ..
  have procs : ∀ q, q ≠ p → t.procs q = s.procs q := fun q other => tIs ▸ update_of_ne other ..
  have queue : t.waitQueue = s.waitQueue ++ [p] := tIs ▸ rfl
  have value : t.value = s.value := tIs ▸ rfl
  have asleep : t.procs p = ⟨.sleeping, kind.waitState⟩ := tIs ▸ update_self ..
  have kept : Inv kind t := by
    apply inv.change p downs procs
    · intro q other member
      rw [queue] at member
      simpa [other] using member
    · exact fun _ => ⟨_, here⟩
    · rw [queue]
      exact nodup_append.mpr ⟨inv.once, nodup_singleton p, fun a member b single clash => by
        rw [mem_singleton.mp single] at clash
        exact unqueued (clash ▸ member)⟩
    · intro down same
      obtain rfl := some.inj (here.symm.trans same)
      refine ⟨.inl rfl, fun granted => absurd granted.symm (waitState_ne_interrupted kind), .inl asleep, ?_⟩
      intro timed
      cases kind with
      | kernel => simp [untimed rfl] at timed
      | user => rfl
    · exact value ▸ inv.value
  apply accounted.quiet (.down p timeout) kept value _ (by simp) trivial
  intro q
  obtain rfl | same := eq_or_ne q p
  · simp [Granted, here, outside, (waitState_ne_interrupted kind).symm]
  · rw [Granted, Granted, downs q same]

theorem down_ends (outside : s.downs p = none) (untimed : kind = .kernel → timeout = 0) :
    Ends Excused (down kind.waitState s p timeout) fun result =>
      Accounted kind initial (trace ++ [(.down p timeout, result.2)]) result.1 := by
  rw [down, ensure_bind]
  split
  next =>
    split
    next positive =>
      obtain ⟨less, above⟩ := toInt_pred positive
      have notOwed := accounted.absent outside
      have same : settle (owed trace) (.returned p 0) = owed trace := erase_of_not_mem notOwed
      have kept : Inv kind { s with value := s.value - 1 } := accounted.inv.setValue (by omega)
      refine accounted.next (.down p timeout) (.returned p 0) kept ?_ ?_ ?_ trivial
      · simp only [same, less, Event.success]
        simp
      · rw [same]
        exact accounted.once
      · rw [same]
        exact accounted.granted
    next => exact accounted.block outside untimed
  next => exact .inl rfl

theorem tryDown_accounted : Accounted kind initial (trace ++ [(.tryDown, (tryDown s).2)]) (tryDown s).1 := by
  rw [tryDown]
  split
  next positive =>
    obtain ⟨less, above⟩ := toInt_pred positive
    have kept : Inv kind { s with value := s.value - 1 } := accounted.inv.setValue (by omega)
    apply accounted.next .tryDown .acquired kept _ accounted.once accounted.granted trivial
    simp only [settle, less, Event.success]
    simp
  next => exact accounted.quiet .tryDown accounted.inv rfl (fun _ => Iff.rfl) (by simp) trivial

theorem Accounted.leave {down : Down} {result : Int} (entered : s.downs p = some down)
    (fair : result = 0 ↔ down.wakeupFlags = kind.waitState) :
    Accounted kind initial (trace ++ [(.resume p, .returned p result)])
      { s.setDown p none with waitQueue := s.waitQueue.erase p } := by
  have inv := accounted.inv
  have due : p ∈ owed trace ↔ down.wakeupFlags = kind.waitState := by
    rw [accounted.granted, Granted, entered]
    simp
  obtain ⟨t, tIs⟩ : ∃ t : State, t = { s.setDown p none with waitQueue := s.waitQueue.erase p } := ⟨_, rfl⟩
  have here : t.downs p = none := tIs ▸ update_self ..
  have downs : ∀ q, q ≠ p → t.downs q = s.downs q := fun q other => tIs ▸ update_of_ne other ..
  have queue : t.waitQueue = s.waitQueue.erase p := tIs ▸ rfl
  have value : t.value = s.value := tIs ▸ rfl
  rw [← tIs]
  have kept : Inv kind t := by
    apply inv.change p downs
    · exact fun _ _ => tIs ▸ rfl
    · exact fun q _ member => mem_of_mem_erase (queue ▸ member)
    · intro member
      rw [queue, inv.once.mem_erase_iff] at member
      exact absurd rfl member.1
    · exact queue ▸ inv.once.erase p
    · intro down same
      cases here.symm.trans same
    · exact value ▸ inv.value
  apply accounted.next (.resume p) (.returned p result) kept _ (accounted.once.erase p)
  · intro q
    rw [settle, accounted.once.mem_erase_iff, accounted.granted]
    obtain rfl | same := eq_or_ne q p
    · simp [Granted, here]
    · simp [Granted, downs q same, same]
  · exact ⟨result, rfl, fair.trans due.symm⟩
  · simp only [value, settle, Event.success]
    by_cases granted : p ∈ owed trace
    · have zero := fair.mpr (due.mp granted)
      have length := length_erase_add_one granted
      simp [zero]
      omega
    · have nonzero : result ≠ 0 := fun zero => granted (due.mpr (fair.mp zero))
      rw [erase_of_not_mem granted]
      simp [nonzero]

end

theorem ipcCheckTimeout_ne_zero (timeout : UInt32) (savedTicks ticks : UInt64) :
    ipcCheckTimeout timeout savedTicks ticks ≠ 0 := by
  rw [ipcCheckTimeout]
  split <;> decide

section
variable (accounted : Accounted kind initial trace s) {down : Down}
include accounted

theorem resume_ends (entered : s.downs p = some down) : Ends Excused (resume kind s p (some down)) fun result =>
      Accounted kind initial (trace ++ [(.resume p, result.2)]) result.1 := by
  rw [resume]
  by_cases granted : down.wakeupFlags = kind.waitState
  · have result : downResult kind (if down.wakeupFlags ≠ kind.waitState then down.wakeupFlags else
      0) down s.ticks = .ok 0 := by
      cases kind <;> simp [granted, downResult, pure, Except.pure]
    exact .bind_ok result (accounted.leave entered (by simp [granted]))
  have flags := ((accounted.inv.waiting p down entered).flags).resolve_right granted
  rw [flags]
  cases kind with
  | kernel => exact .inr rfl
  | user =>
    have result : downResult .user wtInterrupted down s.ticks = .ok
      (ipcCheckTimeout down.timeout down.savedTicks s.ticks) := rfl
    apply Ends.bind_ok result
    apply accounted.leave entered
    simp [granted, ipcCheckTimeout_ne_zero]

theorem expire_spec (entered : s.downs p = some down) (timed : down.timer = true) :
    ∃ t, expire s p = .ok t ∧ Accounted kind initial (trace ++ [(.expire p, .quiet)]) t := by
  obtain ⟨_, _, state, user⟩ := accounted.inv.waiting p down entered
  obtain rfl := user timed
  have interruptible : (s.procs p).waitState ≠ 0 → (s.procs p).waitState &&& wtInterrupted ≠ 0 := by
    obtain asleep | awake := state
    · rw [asleep]
      decide
    · rw [awake]
      simp
  let unlinked := s.setDown p (some { down with timer := false })
  refine ⟨unlinked.setProc p ⟨.runnable, 0⟩, ?_, ?_⟩
  · rw [expire, ensure_bind, if_pos interruptible, entered]
    exact wakeup_ok (s := unlinked) state
  · refine accounted.roused (.expire p) entered (update_self ..) rfl (by simp) (update_self ..) ?_
      ?_ rfl rfl (by simp) trivial
    all_goals exact fun q other => update_of_ne other ..

theorem wakeup_spec (op : Op) (exiting : ProcId → Bool) (entered : s.downs p = some down)
    (other : op ≠ .up) (settles : Settles trace (op, .quiet)) :
    ∃ t, wakeup { s with exiting } p = .ok t ∧ Accounted kind initial (trace ++ [(op, .quiet)]) t := by
  have state := (accounted.inv.waiting p down entered).state
  refine ⟨_, wakeup_ok (s := { s with exiting }) state, ?_⟩
  exact accounted.roused op entered entered rfl id (update_self ..) (fun _ _ => rfl) (fun q other =>
    update_of_ne other ..) rfl rfl other settles

theorem Accounted.frame (op : Op) (exiting : ProcId → Bool) (ticks : UInt64) (other : op ≠ .up)
    (settles : Settles trace (op, .quiet)) : Accounted kind initial (trace ++ [(op, .quiet)])
    { s with exiting, ticks } := by
  have inv := accounted.inv
  refine accounted.quiet op ⟨?_, inv.members, inv.once, inv.value⟩ rfl (fun _ => Iff.rfl) other settles
  intro p down entered
  obtain ⟨flags, released, state, timer⟩ := inv.waiting p down entered
  exact ⟨flags, released, state, timer⟩

theorem kill_spec (entered : s.downs p = some down) : ∃ t, kill s p = .ok t ∧ Accounted kind initial
    (trace ++ [(.kill p, .quiet)]) t := by
  rw [kill]
  split
  next => exact ⟨s, rfl, accounted.frame (.kill p) s.exiting s.ticks (by simp) trivial⟩
  next =>
    dsimp only
    split
    next => exact wakeup_spec accounted (.kill p) _ entered (by simp) trivial
    next => exact ⟨_, rfl, accounted.frame (.kill p) _ s.ticks (by simp) trivial⟩

theorem signalWakeup_spec (sigkill : Bool) (entered : s.downs p = some down) :
    ∃ t, signalWakeup s p sigkill = .ok t ∧ Accounted kind initial
    (trace ++ [(.signal p sigkill, .quiet)]) t := by
  rw [signalWakeup]
  split
  next => exact wakeup_spec accounted (.signal p sigkill) s.exiting entered (by simp) trivial
  next => exact ⟨s, rfl, accounted.frame (.signal p sigkill) s.exiting s.ticks (by simp) trivial⟩

theorem free_spec : ∃ t, free s = .ok t ∧ Accounted kind initial (trace ++ [(.free, .quiet)]) t := by
  have inv := accounted.inv
  have invalid : Inv kind { s with valid := false } := by
    refine ⟨?_, inv.members, inv.once, inv.value⟩
    intro p down entered
    obtain ⟨flags, released, state, timer⟩ := inv.waiting p down entered
    exact ⟨flags, released, state, timer⟩
  obtain ⟨t, ran, kept, value, granted⟩ := wakeupQueue_spec s.waitQueue.length invalid le_rfl
  exact ⟨t, ran, accounted.quiet .free kept value granted (by simp) trivial⟩

end

theorem silently_ends {result : Kernel State} {op : Op} (ran : ∃ t, result = .ok t ∧
    Accounted kind initial (trace ++ [(op, .quiet)]) t) :
    Ends Excused (silently result) fun final => Accounted kind initial (trace ++ [(op, final.2)]) final.1 := by
  obtain ⟨t, ran, kept⟩ := ran
  exact .bind_ok ran kept

theorem step_accounted {op : Op} (accounted : Accounted kind initial trace s)
    (allowed : Allowed kind s op) (orderly : Orderly s op) :
    Ends Excused (step kind s op) fun result => Accounted kind initial (trace ++ [(op, result.2)]) result.1 := by
  cases op with
  | up => exact up_ends accounted orderly
  | down => exact down_ends accounted allowed.1 allowed.2
  | resume =>
    obtain ⟨down, entered⟩ := isSome_iff_exists.mp allowed.1
    rw [step, entered]
    exact resume_ends accounted entered
  | tryDown => exact tryDown_accounted accounted
  | expire =>
    obtain ⟨down, entered, timed⟩ := (any_eq_true _ _).mp allowed
    exact silently_ends (expire_spec accounted entered timed)
  | kill =>
    obtain ⟨down, entered⟩ := isSome_iff_exists.mp allowed
    exact silently_ends (kill_spec accounted entered)
  | signal p sigkill =>
    obtain ⟨down, entered⟩ := isSome_iff_exists.mp allowed
    exact silently_ends (signalWakeup_spec accounted sigkill entered)
  | free => exact silently_ends (free_spec accounted)
  | tick => exact accounted.frame .tick s.exiting (s.ticks + 1) (by simp) trivial

theorem accounted_start (nonneg : 0 ≤ initial.toInt) (begins : (machine kind initial).start s) :
    Accounted kind initial [] s := by
  obtain ⟨value, _, empty, outside⟩ := begins
  refine ⟨⟨?_, ?_, ?_, value ▸ nonneg⟩, by simp [value, ups, successes, owed], by simp [owed], ?_, throughout_nil _⟩
  · intro p down entered
    rw [outside] at entered
    cases entered
  · intro p member
    rw [empty] at member
    cases member
  · exact empty ▸ nodup_nil
  · intro p
    simp [owed, Granted, outside]

end

/-- In every run from a non-negative value in which each up finds room in the value or a
first waiter that is still asleep, no up is lost and none is used twice, and apart from
the excused assertions none fails. -/
theorem no_up_lost_when_orderly (kind : Kind) (initial : Int32) (nonneg : 0 ≤ initial.toInt) :
    ((machine kind initial).restrict Orderly).AlwaysExcept Excused (NoUpLost initial) :=
      Machine.alwaysExcept_of_invariant (fun _ begins => accounted_start nonneg begins)
    (fun _ _ _ accounted allowed => step_accounted accounted allowed.1 allowed.2) fun _ _ => Accounted.noUpLost

theorem no_up_lost_from_one : (0 : Int) ≤ (1 : Int32).toInt ∧
    ((machine .user 1).restrict Orderly).AlwaysExcept Excused (NoUpLost 1) :=
  ⟨by decide, no_up_lost_when_orderly .user 1 (by decide)⟩

/-- A waiter whose timer has fired is still the first in the queue when the up comes. -/
theorem up_after_a_timeout_stops : ∃ s op, (machine .user 0).Reachable s ∧ (machine .user 0).allowed s op ∧
    (machine .user 0).step s op = .error (.assertion "wait->proc->wait_state == wait_state") := by
  have start : (machine .user 0).Run [] ⟨0, true, [], fun _ => none, fun _ => ⟨.runnable, 0⟩,
    fun _ => false, 0⟩ := .start ⟨rfl, rfl, rfl, fun _ => rfl⟩
  have asleep := start.next (.down 1 5) (by decide) rfl
  have expired := asleep.next (.expire 1) (by decide) rfl
  exact ⟨_, .up, ⟨_, expired⟩, trivial, rfl⟩

end Ucore.Sem
