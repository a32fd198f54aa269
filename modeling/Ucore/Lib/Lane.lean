import Mathlib

/-! A line in which everyone leaves in the order of arrival. Whoever has left last can be put
back to the head. -/

namespace Ucore.Lib
open List

universe u

/-- Everyone who has ever been accepted, and how many of them have left. -/
structure Lane (α : Type u) where
  accepted : List α
  left : Nat
  left_le : left ≤ accepted.length

namespace Lane
variable {α : Type u} {lane : Lane α} {a x : α} {rest : List α}

def empty : Lane α := ⟨[], 0, Nat.le_refl 0⟩

def waiting (lane : Lane α) : List α := lane.accepted.drop lane.left

def gone (lane : Lane α) : List α := lane.accepted.take lane.left

def accept (lane : Lane α) (a : α) : Lane α :=
  ⟨lane.accepted ++ [a], lane.left, by rw [length_append]; exact Nat.le_add_right_of_le lane.left_le⟩

def leave (lane : Lane α) : Lane α := ⟨lane.accepted, min (lane.left + 1) lane.accepted.length, Nat.min_le_right _ _⟩

def back (lane : Lane α) : Lane α := ⟨lane.accepted, lane.left - 1, Nat.le_trans (Nat.sub_le _ _) lane.left_le⟩

def clear (lane : Lane α) : Lane α := ⟨lane.accepted, lane.accepted.length, Nat.le_refl _⟩

theorem gone_append_waiting (lane : Lane α) : lane.gone ++ lane.waiting = lane.accepted := take_append_drop _ _

theorem mem_accepted_of_gone (member : x ∈ lane.gone) : x ∈ lane.accepted := mem_of_mem_take member

theorem waiting_accept (lane : Lane α) (a : α) : (lane.accept a).waiting = lane.waiting ++ [a] :=
  drop_append_of_le_length lane.left_le

theorem gone_accept (lane : Lane α) (a : α) : (lane.accept a).gone = lane.gone := take_append_of_le_length lane.left_le

theorem leave_head (head : lane.waiting = x :: rest) : lane.leave.waiting = rest ∧ lane.leave.gone = lane.gone ++ [x] := by
  have room : lane.left < lane.accepted.length := by
    by_contra full
    rw [waiting, drop_of_length_le (not_lt.mp full)] at head
    cases head
  obtain ⟨first, tail⟩ := cons.inj ((drop_eq_getElem_cons room).symm.trans head)
  have next : lane.leave.left = lane.left + 1 := Nat.min_eq_left room
  constructor
  · rwa [waiting, next]
  · rw [gone, next, ← first]
    exact take_succ_eq_append_getElem room

theorem back_last (last : lane.gone.getLast? = some x) : lane.back.waiting = x :: lane.waiting ∧
    lane.gone = lane.back.gone ++ [x] := by
  obtain ⟨before, split⟩ := getLast?_eq_some_iff.mp last
  have length : before.length + 1 = lane.left := by
    have counted := congrArg length split
    simpa [gone, Nat.min_eq_left lane.left_le] using counted.symm
  have whole : lane.accepted = before ++ x :: lane.waiting := by
    rw [← lane.gone_append_waiting, split, append_assoc]
    rfl
  have back : lane.back.left = before.length := by
    rw [← Nat.add_sub_cancel before.length 1, length]
    rfl
  have same : lane.back.accepted = lane.accepted := rfl
  constructor
  · rw [waiting, back, same, whole]
    simp
  · rw [split, gone, back, same, whole]
    simp

theorem waiting_clear (lane : Lane α) : lane.clear.waiting = [] := drop_length

theorem gone_clear (lane : Lane α) : lane.clear.gone = lane.gone ++ lane.waiting := by
  rw [gone_append_waiting]
  exact take_length

end Lane

end Ucore.Lib
