import Ucore.Lib.Outcome

/-! Systems driven by inputs. A step either completes with an output or stops at
a fault, and the callers' obligations are part of the system. Safety is proved
once from an inductive invariant and then read off every run. -/

namespace Ucore.Lib

universe u v w x

structure Machine (σ : Type u) (ι : Type v) (ω : Type w) (φ : Type x) where
  start : σ → Prop
  allowed : σ → ι → Prop
  step : σ → ι → Except φ (σ × ω)

namespace Machine

variable {σ : Type u} {ι : Type v} {ω : Type w} {φ : Type x} (m : Machine σ ι ω φ)

/-- A run records every input with the output it produced, oldest first. -/
inductive Run : List (ι × ω) → σ → Prop where
  | start {state : σ} (begins : m.start state) : Run [] state
  | step {trace : List (ι × ω)} {state after : σ} {input : ι} {output : ω}
      (prior : Run trace state) (allowed : m.allowed state input)
      (executed : m.step state input = .ok (after, output)) :
      Run (trace ++ [(input, output)]) after

def Reachable (state : σ) : Prop := ∃ trace, m.Run trace state

/-- A state that some run reaches. -/
abbrev Reached := {state // m.Reachable state}

def Accepts (state : σ) (input : ι) : Prop :=
  ∃ after output, m.step state input = .ok (after, output)

/-- Every reachable state is good; a step may stop at any fault. -/
def Always (good : σ → Prop) : Prop := ∀ state, m.Reachable state → good state

/-- Every reachable state is good and no allowed input faults there. -/
def Safe (good : σ → Prop) : Prop :=
  ∀ state, m.Reachable state → good state ∧ ∀ input, m.allowed state input → m.Accepts state input

/-- Every reachable state is good, and an allowed input can only stop at an excused fault. -/
def SafeExcept (excused : φ → Prop) (good : σ → Prop) : Prop :=
  ∀ state, m.Reachable state → good state ∧
    ∀ input, m.allowed state input → Ends excused (m.step state input) fun result => good result.1

/-- The same for what a run has led to together with how it went. -/
def AlwaysExcept (excused : φ → Prop) (good : List (ι × ω) → σ → Prop) : Prop :=
  ∀ trace state, m.Run trace state → good trace state ∧
    ∀ input, m.allowed state input →
      Ends excused (m.step state input) fun result => good (trace ++ [(input, result.2)]) result.1

/-- The same together with what each step does. -/
def ConformsExcept (excused : φ → Prop) (good : σ → Prop) (does : σ → ι → σ × ω → Prop) : Prop :=
  ∀ state, m.Reachable state → good state ∧
    ∀ input, m.allowed state input → Ends excused (m.step state input) fun result => good result.1 ∧ does state input result

/-- The same system with a further condition on its inputs. -/
def restrict (condition : σ → ι → Prop) : Machine σ ι ω φ :=
  { m with allowed := fun state input => m.allowed state input ∧ condition state input }

/-- The state after a list of inputs, if each is allowed and completes. -/
def replay [∀ state input, Decidable (m.allowed state input)] : σ → List ι → Option σ
  | state, [] => some state
  | state, input :: rest =>
    if m.allowed state input then
      match m.step state input with
      | .ok (after, _) => replay after rest
      | .error _ => none
    else none

variable {m} {state : σ} {good inv : σ → Prop} {excused : φ → Prop} {after : σ}

theorem Run.next {trace : List (ι × ω)} (run : m.Run trace state) (input : ι) {output : ω}
    (allowed : m.allowed state input) (ran : m.step state input = .ok (after, output)) :
    m.Run (trace ++ [(input, output)]) after := .step run allowed ran

theorem Reachable.replay [∀ state input, Decidable (m.allowed state input)] (inputs : List ι)
    (reachable : m.Reachable state) (finished : m.replay state inputs = some after) :
    m.Reachable after := by
  induction inputs generalizing state with
  | nil =>
    cases finished
    exact reachable
  | cons input rest ih =>
    rw [Machine.replay] at finished
    split at finished
    · next allowed =>
      split at finished
      · next between output ran =>
        obtain ⟨trace, run⟩ := reachable
        exact ih ⟨_, run.next input allowed ran⟩ finished
      · cases finished
    · cases finished

theorem exists_of_replay [∀ state input, Decidable (m.allowed state input)] {goal : σ → Prop} [DecidablePred goal]
    (begins : m.start state) (inputs : List ι) (shown : (m.replay state inputs).any (fun after =>
      goal after) = true) : ∃ after, m.Reachable after ∧ goal after := by
  rw [Option.any_eq_true] at shown
  obtain ⟨after, finished, holds⟩ := shown
  exact ⟨after, Reachable.replay inputs ⟨[], .start begins⟩ finished, of_decide_eq_true holds⟩

theorem Run.invariant {inv : List (ι × ω) → σ → Prop} (starts : ∀ state, m.start state → inv [] state)
    (keeps : ∀ trace state input after output, inv trace state → m.allowed state input →
      m.step state input = .ok (after, output) → inv (trace ++ [(input, output)]) after)
    {trace : List (ι × ω)} (run : m.Run trace state) : inv trace state := by
  induction run with
  | start begins => exact starts _ begins
  | step prior allowed ran ih => exact keeps _ _ _ _ _ ih allowed ran

theorem always_of_invariant (starts : ∀ state, m.start state → inv state)
    (keeps : ∀ state input after output, inv state → m.allowed state input →
    m.step state input = .ok (after, output) → inv after)
    (implies : ∀ state, inv state → good state) : m.Always good := by
  intro state ⟨trace, run⟩
  have holds : inv state := by
    induction run with
    | start begins => exact starts _ begins
    | step prior allowed ran ih => exact keeps _ _ _ _ ih allowed ran
  exact implies state holds

theorem alwaysExcept_of_invariant {inv good : List (ι × ω) → σ → Prop} (starts : ∀ state, m.start state → inv [] state)
    (keeps : ∀ trace state input, inv trace state → m.allowed state input →
      Ends excused (m.step state input) fun result => inv (trace ++ [(input, result.2)]) result.1)
    (implies : ∀ trace state, inv trace state → good trace state) : m.AlwaysExcept excused good := by
  intro trace state run
  have holds : inv trace state := by
    apply run.invariant starts
    intro trace state input after output kept allowed ran
    exact (keeps trace state input kept allowed).value ran
  refine ⟨implies trace state holds, ?_⟩
  intro input allowed
  exact (keeps trace state input holds allowed).mono fun result kept => implies _ result.1 kept

theorem safeExcept_of_invariant (starts : ∀ state, m.start state → inv state) (keeps : ∀ state input,
    inv state → m.allowed state input →
      Ends excused (m.step state input) fun result => inv result.1) (implies : ∀ state, inv state →
        good state) : m.SafeExcept excused good := by
  have always := alwaysExcept_of_invariant starts (fun _ => keeps) fun _ => implies
  intro state ⟨trace, run⟩
  exact always trace state run

theorem conformsExcept_of_invariant {does : σ → ι → σ × ω → Prop} (starts : ∀ state, m.start state → inv state)
    (keeps : ∀ state input, inv state → m.allowed state input → Ends excused (m.step state input)
      fun result => inv result.1 ∧ does state input result) (implies : ∀ state, inv state →
      good state) : m.ConformsExcept excused good does := by
  have always : m.SafeExcept excused inv := by
    refine safeExcept_of_invariant starts ?_ fun _ kept => kept
    intro state input kept allowed
    exact (keeps state input kept allowed).mono fun result both => both.1
  intro state reachable
  have holds := (always state reachable).1
  refine ⟨implies state holds, ?_⟩
  intro input allowed
  exact (keeps state input holds allowed).mono fun result kept => ⟨implies result.1 kept.1, kept.2⟩

theorem safe_of_invariant (starts : ∀ state, m.start state → inv state) (keeps : ∀ state input,
    inv state → m.allowed state input →
      ∃ after output, m.step state input = .ok (after, output) ∧
        inv after) (implies : ∀ state, inv state → good state) : m.Safe good := by
  have total : m.SafeExcept (fun _ => False) good := by
    apply safeExcept_of_invariant starts _ implies
    intro state input kept allowed
    obtain ⟨after, output, ran, kept⟩ := keeps state input kept allowed
    exact .of_ok ran kept
  intro state reachable
  obtain ⟨holds, steps⟩ := total state reachable
  refine ⟨holds, ?_⟩
  intro input allowed
  cases ran : m.step state input with
  | ok result => exact ⟨result.1, result.2, ran⟩
  | error => exact ((steps input allowed).fault ran).elim

end Machine

end Ucore.Lib
