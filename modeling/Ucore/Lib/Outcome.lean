import Mathlib

/-! Postconditions of computations that may fault. Some faults may be excused:
the computation is then allowed to stop there. -/

namespace Ucore.Lib

universe u v w
variable {φ : Type u} {α : Type v} {β : Type v} {next : α → Except φ β}

/-- The computation returns a value that satisfies `post`, or stops at an excused fault. -/
def Ends (excused : φ → Prop) (result : Except φ α) (post : α → Prop) : Prop :=
  match result with
  | .ok value => post value
  | .error fault => excused fault

namespace Ends
variable {excused : φ → Prop} {result : Except φ α} {post : α → Prop} {final : β → Prop}

theorem of_ok {value : α} (ran : result = .ok value) (holds : post value) : Ends excused result post := by rwa [ran]

theorem bind (first : Ends excused result post) (rest : ∀ value, post value →
    Ends excused (next value) final) : Ends excused (result >>= next) final := by
  cases result with
  | ok value => exact rest value first
  | error => exact first

theorem mono {weaker : α → Prop} (ends : Ends excused result post) (implies : ∀ value, post value →
    weaker value) : Ends excused result weaker := by
  cases result with
  | ok value => exact implies value ends
  | error => exact ends

theorem excuse {more : φ → Prop} (ends : Ends excused result post) (implies : ∀ fault, excused fault →
    more fault) : Ends more result post := by
  cases result with
  | ok => exact ends
  | error fault => exact implies fault ends

theorem bind_ok {value : α} (ran : result = .ok value) (rest : Ends excused (next value) final) :
    Ends excused (result >>= next) final := by rwa [ran]

variable (ends : Ends excused result post)
include ends

theorem fault {stopped : φ} (stops : result = .error stopped) : excused stopped := by rwa [stops] at ends

theorem exists_ok (never : ∀ fault, ¬ excused fault) : ∃ value, result = .ok value ∧ post value := by
  cases result with
  | ok value => exact ⟨value, rfl, ends⟩
  | error fault => exact absurd ends (never fault)

theorem value {returned : α} (returns : result = .ok returned) : post returned := by rwa [returns] at ends

end Ends

theorem exists_of_bind {first : Except φ α} {value : β} (returns : (first >>= next) = .ok value) :
    ∃ between, first = .ok between ∧ next between = .ok value := by
  cases first with
  | ok between => exact ⟨between, rfl, returns⟩
  | error => cases returns

/-- What the first computation returns, the second returns as well. -/
def Extends (first second : Except φ α) : Prop := ∀ value, first = .ok value → second = .ok value

namespace Extends

theorem refl (result : Except φ α) : Extends result result := fun _ finished => finished

theorem bind {first second : Except φ α} {next next' : α → Except φ β}
    (extends_ : Extends first second) (onward : ∀ value, Extends (next value) (next' value)) :
    Extends (first >>= next) (second >>= next') := by
  intro value finished
  obtain ⟨between, result, finished⟩ := exists_of_bind finished
  rw [extends_ between result]
  exact onward between value finished

end Extends

end Ucore.Lib
