import Mathlib

/-! Free lists threaded through an array. Each entry of the array holds the index of
the next free element, and a value that is no index ends the list. -/

namespace Ucore.Lib
open List Function

/-- Following `next` from `first` visits exactly these indices and ends at `stop`. -/
def Chain (next : Nat → Nat) (stop : Nat) : Nat → List Nat → Prop
  | first, [] => first = stop
  | first, index :: rest => first = index ∧ Chain next stop (next index) rest

namespace Chain
variable {next other : Nat → Nat} {stop first : Nat} {indices : List Nat}

section
variable (chain : Chain next stop first indices)
include chain

theorem congr (same : ∀ index ∈ indices, other index = next index) : Chain other stop first indices := by
  induction indices generalizing first with
  | nil => exact chain
  | cons index rest ih =>
    obtain ⟨here, chain⟩ := chain
    refine ⟨here, ?_⟩
    rw [same index (mem_cons_self ..)]
    exact ih chain fun index member => same index (mem_cons_of_mem _ member)

theorem push {index : Nat} (fresh : index ∉ indices) : Chain (update next index first) stop index (index :: indices) := by
  refine ⟨rfl, ?_⟩
  rw [update_self]
  apply chain.congr
  intro other member
  have different : other ≠ index := fun same => fresh (same ▸ member)
  exact update_of_ne different ..

theorem ends_iff (proper : ∀ index ∈ indices, index ≠ stop) : first = stop ↔ indices = [] := by
  cases indices with
  | nil => exact ⟨fun _ => rfl, fun _ => chain⟩
  | cons index =>
    obtain ⟨here, _⟩ := chain
    simp [here, proper index (mem_cons_self ..)]

end

theorem range (count : Nat) (positive : 0 < count) (steps : ∀ index, index + 1 < count →
    next index = index + 1) (last : next (count - 1) = stop) : Chain next stop 0 (range count) := by
  have from_end : ∀ left first, first + left = count → 0 < left → Chain next stop first (range' first left) := by
    intro left
    induction left with
    | zero => exact fun first _ positive => absurd positive (lt_irrefl 0)
    | succ left ih =>
      intro first total _
      refine ⟨rfl, ?_⟩
      cases left with
      | zero =>
        have : first = count - 1 := by omega
        exact this ▸ last
      | succ =>
        rw [steps first (by omega)]
        exact ih (first + 1) (by omega) (Nat.succ_pos _)
  rw [range_eq_range']
  exact from_end count 0 (zero_add _) positive

end Chain

end Ucore.Lib
