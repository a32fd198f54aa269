import Ucore.Lib.Tally

/-! Reference counts. An object is numbered when it is created, starts with count 0 and is
destroyed by the one who takes its count back to 0. -/

namespace Ucore.Lib
open Function

structure RefCounts where
  count : Nat → Int
  destroyed : Nat → Nat
  created : Nat

namespace RefCounts

def empty : RefCounts := ⟨fun _ => 0, fun _ => 0, 0⟩

def create (r : RefCounts) : RefCounts :=
  { count := update r.count r.created 0, destroyed := update r.destroyed r.created 0, created := r.created + 1 }

def inc (r : RefCounts) (o : Nat) : RefCounts := { r with count := update r.count o (r.count o + 1) }

def dec (r : RefCounts) (o : Nat) : RefCounts := { r with count := update r.count o (r.count o - 1) }

def destroy (r : RefCounts) (o : Nat) : RefCounts := { r with destroyed := update r.destroyed o (r.destroyed o + 1) }

/-- Every count is the number of holders, and exactly the objects without one are destroyed, once.
-/
structure Counted {κ : Type} (r : RefCounts) (holds : κ → Option Nat) : Prop where
  finite : ∀ o, (places holds o).Finite
  known : ∀ p o, holds p = some o → o < r.created
  count : ∀ o, o < r.created → r.count o = tally holds o
  destroyed : ∀ o, o < r.created → r.destroyed o = if tally holds o = 0 then 1 else 0

variable {κ : Type} {r : RefCounts} {holds : κ → Option Nat}

theorem Counted.fresh (counted : r.Counted holds) : tally holds r.created = 0 := by
  have none : places holds r.created = ∅ := by
    rw [Set.eq_empty_iff_forall_notMem]
    exact fun p held => lt_irrefl _ (counted.known p _ held)
  rw [tally, none, Set.ncard_empty]

theorem counted_empty : empty.Counted fun _ : κ => none := by
  refine ⟨fun o => ?_, by simp, fun o known => absurd known (Nat.not_lt_zero o), fun o known =>
    absurd known (Nat.not_lt_zero o)⟩
  simp [places]

variable [DecidableEq κ] {o : Nat} {p : κ}

theorem Counted.tally_put (counted : r.Counted holds) (absent : holds p = none) (o x : Nat) :
    tally (update holds p (some o)) x = tally holds x + if x = o then 1 else 0 := by
  simpa [absent, eq_comm] using tally_update (counted.finite x) p (some o)

theorem Counted.take (counted : r.Counted holds) {p q : κ} (held : holds q = some o)
    (absent : holds p = none) : (r.inc o).Counted (update holds p (some o)) := by
  have change := counted.tally_put absent o
  refine ⟨fun x => finite_update (counted.finite x), fun s x held' => ?_, fun x known => ?_, fun x known => ?_⟩
  · rw [update_apply] at held'
    split at held'
    · cases held'
      exact counted.known q o held
    · exact counted.known s x held'
  · rw [change]
    obtain rfl | same := eq_or_ne x o
    · simp [inc, counted.count x known]
    · simp [inc, same, counted.count x known]
  · rw [change, inc, counted.destroyed x known]
    obtain rfl | same := eq_or_ne x o
    · have positive := tally_pos (counted.finite x) held
      simp [Nat.pos_iff_ne_zero.mp positive]
    · simp [same]

theorem Counted.make (counted : r.Counted holds) (absent : holds p = none) :
    (r.create.inc r.created).Counted (update holds p (some r.created)) := by
  have change := counted.tally_put absent r.created
  refine ⟨fun x => finite_update (counted.finite x), fun s x held => ?_, fun x known => ?_, fun x known => ?_⟩
  · rw [update_apply] at held
    split at held
    · cases held
      exact Nat.lt_succ_self _
    · exact Nat.lt_succ_of_lt (counted.known s x held)
  · rw [change]
    obtain rfl | same := eq_or_ne x r.created
    · simp [inc, create, counted.fresh]
    · have before := lt_of_le_of_ne (Nat.le_of_lt_succ known) same
      simp [inc, create, same, counted.count x before]
  · rw [change]
    obtain rfl | same := eq_or_ne x r.created
    · simp [inc, create]
    · have before := lt_of_le_of_ne (Nat.le_of_lt_succ known) same
      simp [inc, create, same, counted.destroyed x before]

omit [DecidableEq κ] in
theorem Counted.waste (counted : r.Counted holds) : (r.create.destroy r.created).Counted holds := by
  refine ⟨counted.finite, fun s x held => Nat.lt_succ_of_lt (counted.known s x held), fun x known => ?_, fun x known => ?_⟩
  · obtain rfl | same := eq_or_ne x r.created
    · simp [destroy, create, counted.fresh]
    · have before : x < r.created := lt_of_le_of_ne (Nat.le_of_lt_succ known) same
      simp [destroy, create, same, counted.count x before]
  · obtain rfl | same := eq_or_ne x r.created
    · simp [destroy, create, counted.fresh]
    · have before : x < r.created := lt_of_le_of_ne (Nat.le_of_lt_succ known) same
      simp [destroy, create, same, counted.destroyed x before]

theorem Counted.release (counted : r.Counted holds) (held : holds p = some o) :
    (if (r.dec o).count o = 0 then (r.dec o).destroy o else r.dec o).Counted
    (update holds p none) := by
  have change : ∀ x, tally (update holds p none) x + (if x = o then 1 else 0) = tally holds x := by
    intro x
    simpa [held, eq_comm] using tally_update (counted.finite x) p none
  have known := counted.known p o held
  have own : tally (update holds p none) o + 1 = tally holds o := by simpa using change o
  have left : (r.dec o).count o = (tally (update holds p none) o : Int) := by
    simp only [dec, update_self, counted.count o known]
    omega
  have counts : ∀ x, x < r.created → (r.dec o).count x = tally (update holds p none) x := by
    intro x before
    by_cases same : x = o
    · exact same ▸ left
    · have equal := change x
      rw [if_neg same, add_zero] at equal
      simp [dec, same, counted.count x before, equal]
  have holders : ∀ s x, update holds p none s = some x → x < r.created := by
    intro s x still
    rw [update_apply] at still
    split at still
    · cases still
    · exact counted.known s x still
  split
  · refine ⟨fun x => finite_update (counted.finite x), holders, counts, fun x before => ?_⟩
    obtain rfl | same := eq_or_ne x o
    · have none : tally (update holds p none) x = 0 := by omega
      simp [destroy, dec, counted.destroyed x before, none, ← own]
    · have equal := change x
      rw [if_neg same, add_zero] at equal
      simp [destroy, dec, same, counted.destroyed x before, equal]
  · refine ⟨fun x => finite_update (counted.finite x), holders, counts, fun x before => ?_⟩
    obtain rfl | same := eq_or_ne x o
    · have some : tally (update holds p none) x ≠ 0 := by omega
      simp [dec, counted.destroyed x before, some, ← own]
    · have equal := change x
      rw [if_neg same, add_zero] at equal
      simp [dec, counted.destroyed x before, equal]

end RefCounts

end Ucore.Lib
