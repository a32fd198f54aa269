import Mathlib

/-! Circular lists with a head that is not an element. The elements stand in a
list; `none` names the head. -/

namespace Ucore.Lib.Ring
open List

variable {α : Type} [DecidableEq α] {after before : List α} {place : α}

/-- The element after a place of the ring; `none` when that is the head again. -/
def next : List α → Option α → Option α
  | ring, none => ring.head?
  | [], some _ => none
  | first :: rest, some place => if first = place then rest.head? else next rest (some place)

def addAfter : List α → Option α → α → List α
  | ring, none, new => new :: ring
  | [], some _, new => [new]
  | first :: rest, some place, new =>
    if first = place then first :: new :: rest else first :: addAfter rest (some place) new

@[simp] theorem next_none (ring : List α) : next ring none = ring.head? := by cases ring <;> rfl

@[simp] theorem addAfter_none (ring : List α) (new : α) : addAfter ring none new = new :: ring := by
  cases ring <;> rfl

theorem next_of_split (absent : place ∉ before) : next (before ++ place :: after) (some place) = after.head? := by
  induction before with
  | nil => simp [next]
  | cons first rest ih =>
    simp only [mem_cons, not_or] at absent
    rw [cons_append, next, if_neg (Ne.symm absent.1)]
    exact ih absent.2

theorem addAfter_of_split (new : α) (absent : place ∉ before) : addAfter (before ++ place :: after)
    (some place) new = before ++ place :: new :: after := by
  induction before with
  | nil => simp [addAfter]
  | cons first rest ih =>
    simp only [mem_cons, not_or] at absent
    rw [cons_append, addAfter, if_neg (Ne.symm absent.1), ih absent.2]
    rfl

theorem next_cut (distinct : before.Nodup) : next (before ++ after) before.getLast? = after.head? := by
  rcases eq_nil_or_concat before with rfl | ⟨start, last, rfl⟩
  · simp
  · have absent := (nodup_concat _ _).mp distinct |>.1
    rw [concat_eq_append, getLast?_concat, append_assoc]
    exact next_of_split absent

theorem addAfter_cut (new : α) (distinct : before.Nodup) : addAfter (before ++ after) before.getLast?
    new = before ++ new :: after := by
  rcases eq_nil_or_concat before with rfl | ⟨start, last, rfl⟩
  · simp
  · have absent := (nodup_concat _ _).mp distinct |>.1
    rw [concat_eq_append, getLast?_concat, append_assoc, append_assoc]
    exact addAfter_of_split new absent

end Ucore.Lib.Ring
