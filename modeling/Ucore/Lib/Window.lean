import Mathlib

/-! The last part of a stream in a circular buffer: the element with number `i` stands at
`i % size`, as long as no more elements than the size are kept. -/

namespace Ucore.Lib
open Function

variable {α : Type}

/-- The buffer holds the stream from a number on. -/
def Window (buf : Nat → α) (size : Nat) (stream : List α) (start : Nat) : Prop :=
  ∀ i, start ≤ i → ∀ value ∈ stream[i]?, buf (i % size) = value

namespace Window
variable {buf : Nat → α} {size start : Nat} {stream : List α}

theorem drop (window : Window buf size stream start) {later : Nat} (after : start ≤ later) :
    Window buf size stream later :=
    fun i from_ value held => window i (Nat.le_trans after from_) value held

theorem mod_ne {i j : Nat} (before : i < j) (near : j < i + size) : i % size ≠ j % size := by
  intro same
  have divides := (Nat.modEq_iff_dvd' before.le).mp same
  have small := Nat.le_of_dvd (Nat.sub_pos_of_lt before) divides
  omega

theorem push (window : Window buf size stream start) (room : stream.length < start + size)
    (value : α) : Window (update buf (stream.length % size) value) size (stream ++ [value])
    start := by
  intro i from_ other held
  rw [List.getElem?_append] at held
  split at held
  · next old =>
    have apart : i % size ≠ stream.length % size := mod_ne old (by omega)
    rw [update_of_ne apart]
    exact window i from_ other held
  · next new =>
    have last : i = stream.length := by
      have inside := (List.getElem?_eq_some_iff.mp held).1
      rw [List.length_singleton] at inside
      omega
    subst last
    rw [Nat.sub_self] at held
    cases held
    exact update_self ..

end Window

end Ucore.Lib
