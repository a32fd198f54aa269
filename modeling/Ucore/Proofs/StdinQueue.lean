import Ucore.Lib.Window
import Ucore.Stdin

/-! The characters that readers get. A character that arrives when the buffer is full is
written over the oldest one before the test for room. -/

namespace Ucore.Stdin
open Lib Function

variable {s : State}

/-- Readers have got the first characters of those that were accepted, and the buffer holds the
others. -/
structure Fifo (s : State) : Prop where
  taken : s.returned = s.accepted.take s.rpos
  order : s.rpos ≤ s.wpos
  count : s.wpos = s.accepted.length
  queued : Window s.buf stdinBufsize s.accepted s.rpos

/-- Characters arrive while there is room, and the positions fit into an `off_t`. -/
def Roomy (s : State) : Op → Prop
  | .write _ => s.wpos - s.rpos < stdinBufsize ∧ s.wpos + 1 < 2 ^ 63
  | _ => True

theorem Fifo.write (fifo : Fifo s) (room : s.wpos - s.rpos < stdinBufsize) (c : UInt8) : Fifo (devStdinWrite s c) := by
  obtain ⟨taken, order, count, queued⟩ := fifo
  rw [devStdinWrite]
  split
  · simp only [if_pos room, wakeupQueue]
    refine ⟨?_, Nat.le_succ_of_le order, by simp [count], ?_⟩
    · rwa [List.take_append_of_le_length (count ▸ order)]
    · rw [count]
      exact queued.push (by omega) c
  · exact ⟨taken, order, count, queued⟩

theorem Fifo.readLoop (fifo : Fifo s) (present : s.rpos < s.wpos) (n : Nat) : Fifo (readLoop n s) := by
  induction n generalizing s with
  | zero => exact fifo
  | succ n ih =>
    have inside : s.rpos < s.accepted.length := fifo.count ▸ present
    have oldest : s.buf (s.rpos % stdinBufsize) = s.accepted[s.rpos] :=
      fifo.queued s.rpos le_rfl _ (List.getElem?_eq_getElem inside)
    have one : Fifo { s with rpos := s.rpos + 1, returned := s.returned ++ [s.buf (s.rpos % stdinBufsize)] } := by
      refine ⟨?_, present, fifo.count, fifo.queued.drop (Nat.le_succ _)⟩
      rw [oldest, fifo.taken, List.take_succ_eq_append_getElem inside]
    rw [Stdin.readLoop]
    split
    · exact one
    · next more => exact ih one (not_le.mp more)

theorem Fifo.tryAgain (fifo : Fifo s) (id len : Nat) : Fifo (tryAgain s id len) := by
  rw [Stdin.tryAgain]
  split
  · next present => exact Fifo.readLoop (s := { s with readers := update s.readers id none }) { fifo with } present len
  · exact { fifo with }

theorem Fifo.next (fifo : Fifo s) {op : Op} (roomy : Roomy s op) : Fifo (next s op) := by
  cases op with
  | write c => exact fifo.write roomy.1 c
  | read id len =>
    rw [Stdin.next]
    split
    · exact fifo
    · exact fifo.tryAgain id len
  | interrupt => exact { fifo with }
  | resume id =>
    have erased : Fifo { s with waitQueue := s.waitQueue.erase id } := { fifo with }
    rw [Stdin.next]
    split
    · exact erased.tryAgain id _
    · exact { erased with }

/-- When characters arrive only while there is room, readers get them all in order. -/
theorem characters_in_order_when_roomy (s : (machine.restrict Roomy).Reached) : Fifo s := by
  refine Machine.always_of_invariant (show ∀ s, _ → Fifo s from ?_) ?_ (fun _ fifo => fifo) s s.2
  · intro s ⟨read, written, _, _, accepted, returned⟩
    constructor <;> simp [read, written, accepted, returned, Window]
  · intro s op t _ fifo allowed executed
    cases executed
    exact fifo.next allowed.2

def typed (n : Nat) : State :=
  ⟨fun i => if i < n then 97 else 0, 0, n, [], fun _ => none, List.replicate n 97, []⟩

theorem reachable_typed {n : Nat} (small : n ≤ stdinBufsize) : machine.Reachable (typed n) := by
  induction n with
  | zero => exact ⟨[], .start ⟨rfl, rfl, rfl, fun _ => rfl, rfl, rfl⟩⟩
  | succ n ih =>
    obtain ⟨trace, run⟩ := ih (Nat.le_of_succ_le small)
    have written : update (fun i => if i < n then (97 : UInt8) else 0) n 97 = fun i => if i < n + 1 then 97 else 0 := by
      funext i
      rw [update_apply]
      grind
    have room : n < stdinBufsize := small
    have typedNext : next (typed n) (.write 97) = typed (n + 1) := by
      simp [next, devStdinWrite, wakeupQueue, typed, Nat.mod_eq_of_lt room, written, room,
        List.replicate_succ']
    exact ⟨_, run.next (.write 97) trivial (congrArg (fun s => pure (s, ())) typedNext)⟩

/-- The character that finds the buffer full replaces the oldest one. -/
theorem overflow_replaces_the_oldest : ¬ machine.Always Fifo := by
  intro always
  obtain ⟨trace, run⟩ := reachable_typed le_rfl
  have fifo := always _ ⟨_, run.next (.write 98) trivial rfl⟩
  have oldest := fifo.queued 0 le_rfl 97 rfl
  exact absurd oldest (by decide)

end Ucore.Stdin
