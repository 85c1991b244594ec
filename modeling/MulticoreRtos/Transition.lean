import Mathlib.Data.List.Basic

/-!
Runs of a partial step function. A step answers `none` when the action cannot
complete in the given state. `guard` restricts the steps of a run: a guard that
always holds gives every run. Nothing here depends on what a state is.
-/

namespace MulticoreRtos.Transition

universe u v
variable {State : Type u} {Action : Type v}

inductive Reaches (step : State → Action → Option State)
    (guard : State → Action → Prop) (start : State → Prop) : State → Prop where
  | start {state : State} : start state → Reaches step guard start state
  | next {before after : State} (action : Action) :
      Reaches step guard start before → guard before action →
      step before action = some after → Reaches step guard start after

def free (_ : State) (_ : Action) : Prop := True

/-- The step lemma of an invariant gives its run lemma. -/
theorem Reaches.invariant {step : State → Action → Option State}
    {guard : State → Action → Prop} {start : State → Prop}
    (holds : State → Prop) (initial : ∀ state, start state → holds state)
    (preserved : ∀ before action after, holds before → guard before action →
      step before action = some after → holds after)
    {state : State} (reached : Reaches step guard start state) : holds state := by
  induction reached with
  | start begun => exact initial _ begun
  | next action _ allowed stepped ih => exact preserved _ action _ ih allowed stepped

theorem Reaches.from_start {step : State → Action → Option State}
    {guard : State → Action → Prop} {start : State → Prop} {state : State}
    (reached : Reaches step guard start state) :
    ∃ before, start before ∧ Reaches step guard (· = before) state := by
  induction reached with
  | start begun => exact ⟨_, begun, .start rfl⟩
  | next action _ allowed stepped ih =>
      obtain ⟨before, begun, reached⟩ := ih
      exact ⟨before, begun, .next action reached allowed stepped⟩

theorem Reaches.weaken {step : State → Action → Option State}
    {strong weak : State → Action → Prop} {start : State → Prop}
    (implied : ∀ state action, strong state action → weak state action)
    {state : State} (reached : Reaches step strong start state) :
    Reaches step weak start state := by
  induction reached with
  | start begun => exact .start begun
  | next action _ allowed stepped ih => exact .next action ih (implied _ _ allowed) stepped

theorem Reaches.weaken_under {step : State → Action → Option State}
    {strong weak : State → Action → Prop} {start : State → Prop} (holds : State → Prop)
    (initial : ∀ state, start state → holds state)
    (preserved : ∀ before action after, holds before → strong before action →
      step before action = some after → holds after)
    (implied : ∀ before action after, holds before → strong before action →
      step before action = some after → weak before action)
    {state : State} (reached : Reaches step strong start state) :
    Reaches step weak start state := by
  have both : holds state ∧ Reaches step weak start state := by
    induction reached with
    | start begun => exact ⟨initial _ begun, .start begun⟩
    | next action _ allowed stepped ih =>
        exact ⟨preserved _ _ _ ih.1 allowed stepped,
          .next action ih.2 (implied _ _ _ ih.1 allowed stepped) stepped⟩
  exact both.2

def exec (step : State → Action → Option State) : State → List Action → Option State
  | state, [] => some state
  | state, action :: rest =>
      match step state action with
      | some next => exec step next rest
      | none => none

def Allowed (step : State → Action → Option State) (guard : State → Action → Prop) :
    State → List Action → Prop
  | _, [] => True
  | state, action :: rest =>
      guard state action ∧
        match step state action with
        | some next => Allowed step guard next rest
        | none => True

def decideAllowed (step : State → Action → Option State) (guard : State → Action → Prop)
    [∀ state action, Decidable (guard state action)] :
    ∀ (state : State) (actions : List Action), Decidable (Allowed step guard state actions)
  | _, [] => isTrue trivial
  | state, action :: rest =>
      match stepped : step state action with
      | some next =>
          have := decideAllowed step guard next rest
          decidable_of_iff (guard state action ∧ Allowed step guard next rest) (by
            simp only [Allowed, stepped])
      | none => decidable_of_iff (guard state action) (by simp [Allowed, stepped])

instance (step : State → Action → Option State) (guard : State → Action → Prop)
    [∀ state action, Decidable (guard state action)] (state : State) (actions : List Action) :
    Decidable (Allowed step guard state actions) :=
  decideAllowed step guard state actions

theorem allowed_free (step : State → Action → Option State) (state : State)
    (actions : List Action) : Allowed step free state actions := by
  induction actions generalizing state with
  | nil => trivial
  | cons action rest ih =>
      constructor
      · trivial
      · split
        · exact ih _
        · trivial

theorem exec_reaches {step : State → Action → Option State} {guard : State → Action → Prop}
    {start : State → Prop} (actions : List Action) {before after : State}
    (reached : Reaches step guard start before) (allowed : Allowed step guard before actions)
    (executed : exec step before actions = some after) : Reaches step guard start after := by
  induction actions generalizing before with
  | nil =>
      cases executed
      exact reached
  | cons action rest ih =>
      cases stepped : step before action with
      | none => simp [exec, stepped] at executed
      | some next =>
          simp only [exec, stepped] at executed
          simp only [Allowed, stepped] at allowed
          exact ih (.next action reached allowed.1 stepped) allowed.2 executed

end MulticoreRtos.Transition
