import Mathlib.Data.List.Basic

/-! Machines given by an executable step function, their runs, and the invariant rule.
A side condition restricts a run to steps that meet it in the state before the step.
-/

namespace Glean.Machine

variable {State Event : Type*}

/-- The states that runs from some initial state reach with steps that all meet `sound`. -/
inductive Run (step : State → Event → Option State) (sound : State → Event → Prop)
    (initial : State → Prop) : State → Prop where
  | start {state : State} (isInitial : initial state) : Run step sound initial state
  | step {before after : State} (run : Run step sound initial before) (event : Event)
      (isSound : sound before event) (next : step before event = some after)
      : Run step sound initial after

/-- What holds initially and is kept by every step holds in every state of a run. -/
theorem Run.invariant {step : State → Event → Option State} {sound : State → Event → Prop}
    {initial invariant : State → Prop} {state : State} (run : Run step sound initial state)
    (start : ∀ state, initial state → invariant state)
    (keeps : ∀ before event after, invariant before → sound before event →
      step before event = some after → invariant after)
    : invariant state := by
  induction run with
  | start isInitial => exact start _ isInitial
  | step run event isSound next ih => exact keeps _ _ _ ih isSound next

/-- The state after a list of events. -/
def runEvents (step : State → Event → Option State) (state : State) (events : List Event)
    : Option State :=
  events.foldlM step state

/-- Every event of a list is sound in the state in which it happens. -/
def SoundEvents (step : State → Event → Option State) (sound : State → Event → Prop)
    : State → List Event → Prop
  | _, [] => True
  | state, event :: rest =>
      sound state event
        ∧ match step state event with
          | some next => SoundEvents step sound next rest
          | none => True

/-- Executed events continue a run. -/
theorem Run.of_runEvents {step : State → Event → Option State} {sound : State → Event → Prop}
    {initial : State → Prop} {before after : State} (run : Run step sound initial before)
    {events : List Event} (areSound : SoundEvents step sound before events)
    (executed : runEvents step before events = some after)
    : Run step sound initial after := by
  induction events generalizing before with
  | nil =>
      obtain rfl := Option.some.inj executed
      exact run
  | cons event rest ih =>
      rw [runEvents, List.foldlM_cons] at executed
      obtain ⟨middle, next, restExecuted⟩ := Option.bind_eq_some_iff.mp executed
      have restSound := areSound.2
      rw [next] at restSound
      exact ih (.step run event areSound.1 next) restSound restExecuted

theorem soundEvents_true (step : State → Event → Option State) (state : State)
    (events : List Event)
    : SoundEvents step (fun _ _ => True) state events := by
  induction events generalizing state with
  | nil => trivial
  | cons event rest ih =>
      refine ⟨trivial, ?_⟩
      cases step state event with
      | none => trivial
      | some next => exact ih next

end Glean.Machine
