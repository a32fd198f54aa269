import Ucore.TimerList
import Ucore.Lib.DeltaQueue

/-! The timer list is a delta queue with 32-bit distances. The sum of all
distances is the delay of the last timer, so it fits in 32 bits and no
operation wraps around. -/

namespace Ucore.TimerList
open Lib List Function

def entry (timer : Timer) : DeltaQueue.Entry TimerId ProcId :=
  ⟨timer.id, timer.proc, timer.expires.toNat⟩

def queue (tl : List Timer) : List (DeltaQueue.Entry TimerId ProcId) := tl.map entry

/-- The process a timer wakes and the number of ticks until it does. -/
def remaining (tl : List Timer) (id : TimerId) : Option (ProcId × Nat) := DeltaQueue.due (queue tl) id

structure Valid (state : State) : Prop where
  live : DeltaQueue.Live (queue state.tl)
  distinct : (DeltaQueue.keys (queue state.tl)).Nodup
  fits : DeltaQueue.total (queue state.tl) < 2 ^ 32
  interruptible : ∀ timer ∈ state.tl, (state.procs timer.proc).Interruptible

theorem pending_iff (tl : List Timer) (id : TimerId) : pending tl id = true ↔ id ∈ DeltaQueue.keys
    (queue tl) := by simp [pending, DeltaQueue.keys, queue, entry]

theorem queue_insert (timer : Timer) (tl : List Timer) :
    queue (insertTimer timer tl) = DeltaQueue.insert (entry timer) (queue tl) := by
  induction tl generalizing timer with
  | nil => rfl
  | cons next rest ih =>
    simp only [insertTimer, queue, map_cons, DeltaQueue.insert]
    by_cases earlier : timer.expires < next.expires
    · have below : (entry timer).delta < (entry next).delta := UInt32.lt_iff_toNat_lt.mp earlier
      have exact_sub := UInt32.toNat_sub_of_le next.expires timer.expires (UInt32.le_of_lt earlier)
      simp only [earlier, below, if_true, map_cons]
      simp [entry, exact_sub]
    · have above : ¬ (entry timer).delta < (entry next).delta := fun below => earlier (UInt32.lt_iff_toNat_lt.mpr below)
      have exact_sub := UInt32.toNat_sub_of_le timer.expires next.expires (UInt32.not_lt.mp earlier)
      have rest := ih { timer with expires := timer.expires - next.expires }
      simp only [queue] at rest
      simp only [earlier, above, if_false, map_cons, rest]
      simp [entry, exact_sub]

theorem queue_delete (id : TimerId) (tl : List Timer) (fits : DeltaQueue.total (queue tl) < 2 ^ 32) :
    queue (delTimer id tl) = DeltaQueue.remove id (queue tl) := by
  induction tl with
  | nil => rfl
  | cons timer rest ih =>
    simp only [queue, map_cons, DeltaQueue.total, sum_cons] at fits ih
    simp only [delTimer, queue, map_cons, DeltaQueue.remove]
    by_cases same : timer.id = id
    · have first : (entry timer).key = id := same
      simp only [same, first, if_true]
      cases rest with
      | nil => simp [DeltaQueue.absorb]
      | cons next =>
        simp only [map_cons, sum_cons, entry] at fits
        have sum : (next.expires + timer.expires).toNat = next.expires.toNat + timer.expires.toNat := by
          rw [UInt32.toNat_add]
          exact Nat.mod_eq_of_lt (by omega)
        by_cases zero : timer.expires = 0
        · simp [zero, DeltaQueue.absorb, entry]
        · simp [zero, DeltaQueue.absorb, entry, sum]
    · have other : (entry timer).key ≠ id := same
      simp only [same, other, if_false, map_cons]
      rw [ih (by omega)]

/-- The wake-up loop removes what the queue expires, provided every process it
reaches is alive and interruptible. -/
theorem wakeExpired_spec (tl : List Timer) (procs : ProcId → Proc) (interruptible : ∀ timer ∈ tl,
    (procs timer.proc).Interruptible) :
    ∃ after, wakeExpired procs tl = .ok (after, (DeltaQueue.expire (queue tl)).2) ∧
      queue after.tl = (DeltaQueue.expire (queue tl)).1 ∧ (∀ timer ∈ after.tl, timer ∈ tl) ∧
      ∀ proc, (procs proc).Interruptible → (after.procs proc).Interruptible := by
  induction tl generalizing procs with
  | nil => exact ⟨⟨[], procs⟩, rfl, rfl, fun _ member => member, fun _ kept => kept⟩
  | cons timer rest ih =>
    simp only [wakeExpired, queue, map_cons, DeltaQueue.expire]
    by_cases zero : timer.expires = 0
    · have delta : (entry timer).delta = 0 := by simp [entry, zero]
      have ready := interruptible timer (by simp)
      obtain ⟨proc, woken⟩ : ∃ proc, wakeupProc (procs timer.proc) = .ok proc := ⟨_, wakeupProc_ok ready.1⟩
      have kept : ∀ other, (procs other).Interruptible → (update procs timer.proc proc other).Interruptible := by
        intro other same
        obtain rfl | own := eq_or_ne other timer.proc
        · simpa using wakeupProc_interruptible same woken
        · simpa [own] using same
      obtain ⟨after, ran, expired, subset, later⟩ :=
        ih (update procs timer.proc proc) (fun other member =>
          kept _ (interruptible other (by simp [member])))
      refine ⟨after, ?_, by simpa [delta, queue] using expired, fun other member =>
        by simp [subset other member], fun other same => later other (kept other same)⟩
      simp only [zero, delta, if_true, ensure_bind]
      rw [if_pos ready.2, woken]
      simp only [bind, Except.bind, ran, pure, Except.pure]
      rfl
    · have delta : (entry timer).delta ≠ 0 := by simpa [entry, ← UInt32.toNat_inj] using zero
      refine ⟨⟨timer :: rest, procs⟩, ?_, ?_, fun _ member => member, fun _ same => same⟩
      · simp [zero, delta, pure, Except.pure]
      · simp [delta]

variable {state : State}

theorem runTimerList_spec (valid : Valid state) : ∃ after, runTimerList state = .ok
    (after, (DeltaQueue.advance (queue state.tl)).2) ∧
      queue after.tl = (DeltaQueue.advance (queue state.tl)).1 ∧ Valid after ∧ ∀ proc,
        (state.procs proc).Interruptible → (after.procs proc).Interruptible := by
  obtain ⟨tl, procs⟩ := state
  cases tl with
  | nil => exact ⟨⟨[], procs⟩, rfl, rfl, valid, fun _ same => same⟩
  | cons timer rest =>
    have live := valid.live
    have positive : timer.expires ≠ 0 := fun zero => live (by simp [entry, zero])
    have one : (1 : UInt32) ≤ timer.expires := by
      rw [UInt32.le_iff_toNat_le]
      have : timer.expires.toNat ≠ 0 := live
      simp only [UInt32.toNat_one]
      omega
    have ticked : queue ({ timer with expires := timer.expires - 1 } :: rest) =
      { entry timer with delta := (entry timer).delta - 1 } :: queue rest := by
      simp [queue, entry, UInt32.toNat_sub_of_le _ _ one]
    obtain ⟨after, ran, expired, subset, kept⟩ :=
      wakeExpired_spec ({ timer with expires := timer.expires - 1 } :: rest) procs (by
        intro other member
        rcases mem_cons.mp member with rfl | member
        · exact valid.interruptible timer (by simp)
        · exact valid.interruptible other (by simp [member]))
    rw [ticked] at ran expired
    have advanced : DeltaQueue.advance (queue (timer :: rest)) = DeltaQueue.expire
      ({ entry timer with delta := (entry timer).delta - 1 } :: queue rest) := rfl
    refine ⟨after, ?_, by rw [expired, advanced], ?_, kept⟩
    · rw [advanced]
      simpa [runTimerList, positive] using ran
    have order := DeltaQueue.advance_keys (queue (timer :: rest))
    constructor
    · rw [expired]
      exact DeltaQueue.live_expire _
    · have distinct := valid.distinct
      rw [order, advanced, ← expired] at distinct
      exact (nodup_append.mp distinct).2.1
    · rw [expired, ← advanced]
      exact Nat.lt_of_le_of_lt (DeltaQueue.total_advance_le _) valid.fits
    · intro other member
      apply kept
      rcases mem_cons.mp (subset other member) with rfl | member
      · exact valid.interruptible timer (by simp)
      · exact valid.interruptible other (by simp [member])

theorem valid_start (begins : machine.start state) : Valid state := by
  have empty : state.tl = [] := begins
  constructor <;> simp [empty, queue, DeltaQueue.Live, DeltaQueue.keys, DeltaQueue.total]

private theorem mem_insertTimer {timer other : Timer} {tl : List Timer}
    (member : other ∈ insertTimer timer tl) : other.proc = timer.proc ∨ ∃ old ∈ tl,
    old.proc = other.proc := by
  induction tl generalizing timer with
  | nil =>
    rw [insertTimer, mem_singleton] at member
    exact .inl (congrArg Timer.proc member)
  | cons next rest ih =>
    unfold insertTimer at member
    split at member
    · rcases mem_cons.mp member with rfl | member
      · exact .inl rfl
      · rcases mem_cons.mp member with rfl | member
        · exact .inr ⟨next, by simp, rfl⟩
        · exact .inr ⟨other, by simp [member], rfl⟩
    · rcases mem_cons.mp member with rfl | member
      · exact .inr ⟨other, by simp, rfl⟩
      · rcases ih member with same | ⟨old, inside, same⟩
        · exact .inl same
        · exact .inr ⟨old, by simp [inside], same⟩

private theorem mem_delTimer {id : TimerId} {other : Timer} {tl : List Timer}
    (member : other ∈ delTimer id tl) : ∃ old ∈ tl, old.proc = other.proc := by
  induction tl with
  | nil => simp [delTimer] at member
  | cons timer rest ih =>
    unfold delTimer at member
    split at member
    · split at member
      · cases rest with
        | nil => simp at member
        | cons next =>
          rcases mem_cons.mp member with rfl | member
          · exact ⟨next, by simp, rfl⟩
          · exact ⟨other, by simp [member], rfl⟩
      · exact ⟨other, by simp [member], rfl⟩
    · rcases mem_cons.mp member with rfl | member
      · exact ⟨other, by simp, rfl⟩
      · obtain ⟨old, inside, same⟩ := ih member
        exact ⟨old, by simp [inside], same⟩

/-- What one allowed operation does to the remaining times: it completes, wakes
exactly the timers on their last tick, and keeps the invariant. -/
theorem step_spec (valid : Valid state) (op : Op) (allowed : Allowed state op) : ∃ after woken,
    step state op = .ok (after, woken) ∧ Valid after ∧ match op with
      | .add id proc expires => woken = [] ∧ ∀ other, remaining after.tl other =
          if id = other then some (proc, expires.toNat) else remaining state.tl other
      | .del id => woken = [] ∧ ∀ other, remaining after.tl other =
          if id = other then none else remaining state.tl other
      | .change _ _ => woken = [] ∧ after.tl = state.tl
      | .tick => (woken.map Prod.fst).Nodup ∧
          (∀ id proc, (id, proc) ∈ woken ↔ remaining state.tl id = some (proc, 1)) ∧
          ∀ id, remaining after.tl id =
            ((remaining state.tl id).map fun found => (found.1, found.2 - 1)).filter fun found => found.2 ≠ 0 := by
  cases op with
  | add id proc expires =>
    obtain ⟨positive, absent, ready⟩ := allowed
    have fresh : id ∉ DeltaQueue.keys (queue state.tl) := by
      rw [← pending_iff]
      simp [absent]
    have inserted := queue_insert ⟨id, expires, proc⟩ state.tl
    refine ⟨{ state with tl := insertTimer ⟨id, expires, proc⟩ state.tl }, [], ?_, ?_, rfl, ?_⟩
    · simp [step, addTimer, positive, absent]
      rfl
    · constructor
      · rw [inserted]
        apply DeltaQueue.live_insert valid.live
        have nonzero := UInt32.lt_iff_toNat_lt.mp positive
        simp only [entry]
        omega
      · rw [inserted]
        exact (DeltaQueue.keys_insert _ _).nodup_iff.mpr (nodup_cons.mpr ⟨fresh, valid.distinct⟩)
      · rw [inserted, DeltaQueue.total_insert]
        exact Nat.max_lt.mpr ⟨valid.fits, expires.toNat_lt⟩
      · intro timer member
        rcases mem_insertTimer member with same | ⟨old, inside, same⟩
        · rwa [same]
        · rw [← same]
          exact valid.interruptible old inside
    · intro other
      simp only [remaining, inserted]
      exact DeltaQueue.due_insert fresh other
  | del id =>
    have deleted := queue_delete id state.tl valid.fits
    refine ⟨{ state with tl := delTimer id state.tl }, [], rfl, ?_, rfl, ?_⟩
    · constructor
      · rw [deleted]
        exact DeltaQueue.live_remove valid.live id
      · rw [deleted, DeltaQueue.keys_remove]
        exact valid.distinct.erase id
      · rw [deleted]
        exact Nat.lt_of_le_of_lt (DeltaQueue.total_remove_le _ _) valid.fits
      · intro timer member
        obtain ⟨old, inside, same⟩ := mem_delTimer member
        rw [← same]
        exact valid.interruptible old inside
    · intro other
      simp only [remaining, deleted]
      exact DeltaQueue.due_remove valid.distinct id other
  | tick =>
    obtain ⟨after, ran, ticked, kept, _⟩ := runTimerList_spec valid
    refine ⟨after, _, ran, kept, ?_, ?_, ?_⟩
    · have distinct := valid.distinct
      rw [DeltaQueue.advance_keys] at distinct
      exact (nodup_append.mp distinct).1
    · exact DeltaQueue.mem_advanced valid.live valid.distinct
    · intro id
      simp only [remaining, ticked]
      exact DeltaQueue.due_advance valid.live valid.distinct id
  | change proc value =>
    refine ⟨{ state with procs := update state.procs proc value }, [], rfl, ?_, rfl, rfl⟩
    refine ⟨valid.live, valid.distinct, valid.fits, ?_⟩
    intro timer member
    by_cases same : timer.proc = proc
    · simpa [same] using allowed ⟨timer, member, same⟩
    · simpa [same] using valid.interruptible timer member

end Ucore.TimerList
