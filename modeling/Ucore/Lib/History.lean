import Mathlib

/-! Histories that grow at the end. A property that relates each entry to the entries
before it is extended one entry at a time. -/

namespace Ucore.Lib
open List

universe u
variable {α : Type u}

theorem snoc_cases {history older younger : List α} {last entry : α} (same : history ++ [last] = older ++ entry :: younger) :
    (younger = [] ∧ history = older ∧ last = entry) ∨ ∃ between, younger = between ++ [last] ∧
      history = older ++ entry :: between := by
  rcases eq_nil_or_concat' younger with rfl | ⟨between, final, rfl⟩
  · obtain ⟨prefixes, single⟩ := append_inj' same rfl
    exact .inl ⟨rfl, prefixes, singleton_inj.mp single⟩
  have shifted : history ++ [last] = (older ++ entry :: between) ++ [final] := by simpa using same
  obtain ⟨prefixes, single⟩ := append_inj' shifted rfl
  obtain rfl := singleton_inj.mp single
  exact .inr ⟨between, rfl, prefixes⟩

/-- Every entry fits the history before it. -/
def Throughout (fits : List α → α → Prop) (history : List α) : Prop :=
  ∀ older entry younger, history = older ++ entry :: younger → fits older entry

theorem throughout_nil (fits : List α → α → Prop) : Throughout fits [] := by
  intro older entry younger same
  simp at same

theorem Throughout.snoc {fits : List α → α → Prop} {history : List α} {last : α}
    (before : Throughout fits history) (fit : fits history last) :
    Throughout fits (history ++ [last]) := by
  intro older entry younger same
  obtain ⟨_, rfl, rfl⟩ | ⟨between, _, rfl⟩ := snoc_cases same
  · exact fit
  · exact before older entry between rfl

end Ucore.Lib
