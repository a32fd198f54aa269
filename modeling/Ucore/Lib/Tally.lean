import Mathlib

/-! Counting the places that hold a thing, where a place holds at most one. -/

namespace Ucore.Lib
open Function

universe u v
variable {κ : Type u} {φ : Type v} {holds : κ → Option φ} {place : κ} {thing : φ} {new : Option φ}

def places (holds : κ → Option φ) (thing : φ) : Set κ := {place | holds place = some thing}

noncomputable def tally (holds : κ → Option φ) (thing : φ) : Nat := (places holds thing).ncard

theorem mem_places : place ∈ places holds thing ↔ holds place = some thing := Iff.rfl

theorem tally_pos (finite : (places holds thing).Finite) (present : holds place = some thing) :
    0 < tally holds thing := (Set.ncard_pos finite).mpr ⟨place, present⟩

theorem tally_none (thing : φ) : tally (fun _ : κ => (none : Option φ)) thing = 0 := by simp [tally, places]

variable [DecidableEq κ]

theorem places_gain (holds : κ → Option φ) (place : κ) (thing : φ) :
    places (update holds place (some thing)) thing = insert place (places holds thing) := by
  ext other
  rw [mem_places, Set.mem_insert_iff, mem_places]
  by_cases same : other = place <;> simp [same]

theorem places_lose (different : new ≠ some thing) : places (update holds place new) thing = places
    holds thing \ {place} := by
  ext other
  rw [mem_places, Set.mem_sdiff, mem_places, update_apply]
  by_cases same : other = place <;> simp [same, different]

section
variable (finite : (places holds thing).Finite)
include finite

theorem finite_update : (places (update holds place new) thing).Finite := by
  by_cases same : new = some thing
  · rw [same, places_gain]
    exact finite.insert place
  · rw [places_lose same]
    exact finite.subset Set.sdiff_subset

theorem tally_gain (absent : holds place ≠ some thing) :
    tally (update holds place (some thing)) thing = tally holds thing + 1 := by
  rw [tally, places_gain]
  exact Set.ncard_insert_of_notMem absent finite

theorem tally_lose (present : holds place = some thing) (different : new ≠ some thing) :
    tally (update holds place new) thing + 1 = tally holds thing := by
  rw [tally, places_lose different]
  exact Set.ncard_sdiff_singleton_add_one present finite

end

theorem tally_same (absent : holds place ≠ some thing) (different : new ≠ some thing) :
    tally (update holds place new) thing = tally holds thing := by
  rw [tally, places_lose different, Set.sdiff_singleton_eq_self]
  · rfl
  · exact absent

theorem tally_update [DecidableEq φ] (finite : (places holds thing).Finite) (place : κ) (new : Option φ) :
    tally (update holds place new) thing + (if holds place = some thing then 1 else 0) = tally holds
      thing + if new = some thing then 1 else 0 := by
  by_cases gives : holds place = some thing <;> by_cases takes : new = some thing
  · rw [if_pos gives, if_pos takes, takes, ← gives, update_eq_self]
  · rw [if_pos gives, if_neg takes, tally_lose finite gives takes, add_zero]
  · rw [if_neg gives, if_pos takes, takes, tally_gain finite gives]
  · rw [if_neg gives, if_neg takes, tally_same gives takes]

end Ucore.Lib
