import Ucore.MmLock

/-! `locked_by` names the process that has the lock, unless a process writes its name while
another one is still about to clear the field. -/

namespace Ucore.MmLock
open Lib Function

/-- A process that has the lock is the one that `locked_by` names, and none waits for what it has.
-/
def Owned (s : State) : Prop := ∀ p, (s.places p = .holding → s.lockedBy = p) ∧ s.places p ≠ .stuck

/-- No process writes its name between the two steps of an `unlock_mm`. -/
def Undisturbed (s : State) : Op → Prop
  | .mark _ => ∀ q, s.places q ≠ .released
  | _ => True

def Place.Owns (place : Place) : Prop := place = .acquired ∨ place = .holding

/-- The semaphore is free, or it has one owner. -/
structure Inv (s : State) : Prop where
  free : s.value > 0 → s.value = 1 ∧ ∀ p, ¬ (s.places p).Owns
  single : ∀ p q, (s.places p).Owns → (s.places q).Owns → p = q
  queued : ∀ p ∈ s.waitQueue, s.places p = .waiting
  once : s.waitQueue.Nodup
  marked : ∀ p, s.places p = .holding → s.lockedBy = p
  apart : ∀ p q, s.places p = .released → s.places q ≠ .holding
  loose : ∀ p, s.places p ≠ .stuck

variable {s : State} {p : ProcId}

section
variable (inv : Inv s) (place : s.places p = .out)
include inv place

theorem Inv.take (positive : s.value > 0) : Inv ({ s with value := s.value - 1 }.move p .acquired) := by
  obtain ⟨one, nobody⟩ := inv.free positive
  have single := inv.single
  have queued := inv.queued
  have marked := inv.marked
  have apart := inv.apart
  have loose := inv.loose
  refine ⟨?_, ?_, ?_, inv.once, ?_, ?_, ?_⟩
  all_goals
    simp only [State.move, update_apply, Place.Owns] at *
    grind

theorem Inv.wait : Inv ({ s with waitQueue := s.waitQueue ++ [p] }.move p .waiting) := by
  obtain ⟨free, single, queued, once, marked, apart, loose⟩ := inv
  have fresh : p ∉ s.waitQueue := fun member => by simp [queued p member] at place
  refine ⟨?_, ?_, ?_, List.Nodup.append once (List.nodup_singleton p) (by simpa using fresh), ?_, ?_, ?_⟩
  all_goals
    simp only [State.move, update_apply, Place.Owns] at *
    grind

theorem Inv.down : Inv (down s p) := by
  rw [MmLock.down, tryDown]
  split
  · next positive => exact inv.take place positive
  · rw [place]
    exact inv.wait place

end

theorem Inv.unlock (inv : Inv s) (place : s.places p = .holding) : Inv ((up s).move p .released) := by
  have closed : s.value = 0 := by
    by_contra positive
    exact (inv.free (Nat.pos_of_ne_zero positive)).2 p (.inr place)
  obtain ⟨free, single, queued, once, marked, apart, loose⟩ := inv
  rw [up]
  split
  · refine ⟨?_, ?_, ?_, once, ?_, ?_, ?_⟩
    all_goals
      simp only [State.move, update_apply, Place.Owns] at *
      grind
  · next q rest queue =>
    rw [queue] at once queued
    refine ⟨?_, ?_, ?_, once.of_cons, ?_, ?_, ?_⟩
    all_goals
      simp only [State.move, update_apply, Place.Owns, List.nodup_cons] at *
      grind

theorem Inv.step (inv : Inv s) {op : Op} (allowed : Allowed s op) (undisturbed : Undisturbed s op) : Inv (step s op) := by
  cases op with
  | lock => exact inv.down allowed
  | tryLock =>
    rw [MmLock.step, tryDown]
    split
    · next positive => exact inv.take allowed positive
    · exact inv
  | mark =>
    obtain ⟨free, single, queued, once, marked, apart, loose⟩ := inv
    refine ⟨?_, ?_, ?_, once, ?_, ?_, ?_⟩
    all_goals
      simp only [MmLock.step, State.move, update_apply, Place.Owns, Allowed, Undisturbed] at *
      grind
  | unlock => exact inv.unlock allowed
  | clear =>
    obtain ⟨free, single, queued, once, marked, apart, loose⟩ := inv
    refine ⟨?_, ?_, ?_, once, ?_, ?_, ?_⟩
    all_goals
      simp only [MmLock.step, State.move, update_apply, Place.Owns, Allowed] at *
      grind
  | fault p =>
    rw [MmLock.step, doPgfault, tryDown]
    split
    · next positive =>
      have out : s.places p = .out := allowed.resolve_right fun holding => (inv.free positive).2 p (.inr holding)
      exact inv.take out positive
    · rw [Option.getD_none]
      split
      · exact inv
      · next unnamed => exact inv.down (allowed.resolve_right fun holding => unnamed (inv.marked p holding))

/-- In every run in which no process writes its name between the two steps of an
`unlock_mm`, a process that has the lock is named and no page fault waits for it. -/
theorem owner_is_named_when_undisturbed (s : (machine.restrict Undisturbed).Reached) : Owned s := by
  refine Machine.always_of_invariant (show ∀ s, _ → Inv s from ?_) ?_ ?_ s s.2
  · intro s ⟨one, empty, out⟩
    constructor <;> simp [one, empty, out, Place.Owns]
  · intro s op t _ inv allowed executed
    cases executed
    exact inv.step allowed.1 allowed.2
  · exact fun s inv p => ⟨inv.marked p, inv.loose p⟩

/-- The first process clears `locked_by` after the second has got the lock and written its name. -/
theorem release_clears_the_next_owner : ¬ machine.Always Owned := by
  intro always
  obtain ⟨s, reached, stuck⟩ : ∃ s, machine.Reachable s ∧ s.places 2 = .stuck :=
    Machine.exists_of_replay (show machine.start ⟨1, [], 0, fun _ => .out⟩ from ⟨rfl, rfl, fun _ =>
      rfl⟩)
      [.lock 1, .mark 1, .lock 2, .unlock 1, .mark 2, .clear 1, .fault 2] (by decide)
  exact (always s reached 2).2 stuck

end Ucore.MmLock
