import Mathlib.Logic.Relation

/-! Deterministic machines that go on to a state or stop with an outcome, the rule of forward
simulation for their halting runs, and that of simulations which cannot lag behind forever for
all their runs.
-/

namespace Glean.Halting

variable {State Target Outcome : Type*}

/-- The run from a state stops with an outcome. A machine without a next step is stuck. -/
inductive Halts (step : State → Option (State ⊕ Outcome)) : State → Outcome → Prop where
  | step {state next : State} {outcome : Outcome} (goes : step state = some (.inl next))
      (rest : Halts step next outcome)
      : Halts step state outcome
  | stop {state : State} {outcome : Outcome} (stops : step state = some (.inr outcome))
      : Halts step state outcome

/-- A machine stops with one outcome only. -/
theorem Halts.unique {step : State → Option (State ⊕ Outcome)} {state : State}
    {left right : Outcome} (isLeft : Halts step state left) (isRight : Halts step state right)
    : left = right := by
  induction isLeft with
  | step goes _ ih =>
      cases isRight with
      | step goesRight rest =>
          rw [goes] at goesRight
          obtain rfl := Sum.inl.inj (Option.some.inj goesRight)
          exact ih rest
      | stop stops =>
          rw [goes] at stops
          cases stops
  | stop stops =>
      cases isRight with
      | step goesRight _ =>
          rw [stops] at goesRight
          cases goesRight
      | stop stopsRight =>
          rw [stops] at stopsRight
          exact Sum.inr.inj (Option.some.inj stopsRight)

/-- Every step is matched by one step of the other machine, or by none. -/
structure Simulates (step : State → Option (State ⊕ Outcome))
    (target : Target → Option (Target ⊕ Outcome)) (related : State → Target → Prop) : Prop where
  goes
    : ∀ {state next other}, related state other → step state = some (.inl next) →
        related next other ∨ ∃ after, target other = some (.inl after) ∧ related next after
  stops
    : ∀ {state other outcome}, related state other → step state = some (.inr outcome) →
        target other = some (.inr outcome)

/-- A simulated run stops with the same outcome. -/
theorem Simulates.halts {step : State → Option (State ⊕ Outcome)}
    {target : Target → Option (Target ⊕ Outcome)} {related : State → Target → Prop}
    (simulates : Simulates step target related) {state : State} {other : Target}
    {outcome : Outcome} (isRelated : related state other) (halts : Halts step state outcome)
    : Halts target other outcome := by
  induction halts generalizing other with
  | step goes _ ih =>
      rcases simulates.goes isRelated goes with stays | ⟨after, goesOn, nextRelated⟩
      · exact ih stays
      · exact .step goesOn (ih nextRelated)
  | stop stops => exact .stop (simulates.stops isRelated stops)

/-- The run from a state passes another state. -/
def Reaches (step : State → Option (State ⊕ Outcome)) : State → State → Prop :=
  Relation.ReflTransGen (fun state next => step state = some (.inl next))

/-- The run from a state does not get stuck. -/
def Live (step : State → Option (State ⊕ Outcome)) (state : State) : Prop :=
  ∀ last, Reaches step state last → step last ≠ none

/-- The run from a state goes on forever. -/
def Diverges (step : State → Option (State ⊕ Outcome)) (state : State) : Prop :=
  ∀ last, Reaches step state last → ∃ next, step last = some (.inl next)

section Runs

variable {step : State → Option (State ⊕ Outcome)} {state last : State} {outcome : Outcome}

theorem Halts.of_reaches (reaches : Reaches step state last) (halts : Halts step last outcome)
    : Halts step state outcome := by
  induction reaches using Relation.ReflTransGen.head_induction_on with
  | refl => exact halts
  | head goes _ ih => exact .step goes ih

theorem Live.of_reaches (live : Live step state) (reaches : Reaches step state last)
    : Live step last :=
  fun final more => live final (reaches.trans more)

/-- An invariant whose states are not stuck. -/
theorem Live.of_invariant {property : State → Prop}
    (kept : ∀ {current next}, property current → step current = some (.inl next) → property next)
    (goesOn : ∀ {current}, property current → step current ≠ none) (holds : property state)
    : Live step state := by
  intro last reaches
  have holdsLast : property last := by
    induction reaches with
    | refl => exact holds
    | tail _ goes ih => exact kept ih goes
  exact goesOn holdsLast

theorem Diverges.not_halts (diverges : Diverges step state) : ¬ Halts step state outcome := by
  intro halts
  induction halts with
  | step goes _ ih => exact ih (fun last more => diverges last (.head goes more))
  | stop stops =>
      obtain ⟨next, goes⟩ := diverges _ .refl
      rw [stops] at goes
      cases goes

/-- A run that does not get stuck halts or goes on forever. -/
theorem Live.diverges_iff (live : Live step state)
    : Diverges step state ↔ ∀ outcome, ¬ Halts step state outcome := by
  refine ⟨fun diverges _ => diverges.not_halts, fun never last reaches => ?_⟩
  rcases isNext : step last with - | next | outcome
  · exact absurd isNext (live last reaches)
  · exact ⟨next, rfl⟩
  · exact absurd (Halts.of_reaches reaches (.stop isNext)) (never outcome)

end Runs

/-- Two machines run alike from related states: each passes what the other passes, they stop
with the same outcome, and go on forever together.
-/
structure RunsAlike (step : State → Option (State ⊕ Outcome))
    (target : Target → Option (Target ⊕ Outcome)) (related : State → Target → Prop) : Prop where
  forth
    : ∀ {state other next}, related state other → Reaches step state next →
        ∃ after, Reaches target other after ∧ related next after
  back
    : ∀ {state other after}, related state other → Reaches target other after →
        ∃ next, Reaches step state next ∧ related next after
  halts
    : ∀ {state other}, related state other →
        ∀ outcome, Halts step state outcome ↔ Halts target other outcome
  diverges : ∀ {state other}, related state other → (Diverges step state ↔ Diverges target other)

theorem RunsAlike.trans {Middle : Type*} {step : State → Option (State ⊕ Outcome)}
    {middle : Middle → Option (Middle ⊕ Outcome)} {target : Target → Option (Target ⊕ Outcome)}
    {related : State → Middle → Prop} {relatedNext : Middle → Target → Prop}
    (first : RunsAlike step middle related) (second : RunsAlike middle target relatedNext)
    : RunsAlike step target (Relation.Comp related relatedNext) where
  forth := by
    rintro state other next ⟨between, isRelated, isNext⟩ reaches
    obtain ⟨passed, middleReaches, middleRelated⟩ := first.forth isRelated reaches
    obtain ⟨after, targetReaches, afterRelated⟩ := second.forth isNext middleReaches
    exact ⟨after, targetReaches, passed, middleRelated, afterRelated⟩
  back := by
    rintro state other after ⟨between, isRelated, isNext⟩ reaches
    obtain ⟨passed, middleReaches, afterRelated⟩ := second.back isNext reaches
    obtain ⟨next, stepReaches, middleRelated⟩ := first.back isRelated middleReaches
    exact ⟨next, stepReaches, passed, middleRelated, afterRelated⟩
  halts := by
    rintro state other ⟨between, isRelated, isNext⟩ outcome
    exact (first.halts isRelated outcome).trans (second.halts isNext outcome)
  diverges := by
    rintro state other ⟨between, isRelated, isNext⟩
    exact (first.diverges isRelated).trans (second.diverges isNext)

/-- Every step is matched by one step of the other machine, or by none, which happens only as
often in a row as the other machine is ahead.
-/
structure CatchesUp (step : State → Option (State ⊕ Outcome))
    (target : Target → Option (Target ⊕ Outcome)) (related : Nat → State → Target → Prop)
    : Prop where
  goes
    : ∀ {lead state next other}, related lead state other → step state = some (.inl next) →
        (∃ less < lead, related less next other)
          ∨ ∃ after more, target other = some (.inl after) ∧ related more next after
  stops
    : ∀ {lead state other outcome}, related lead state other → step state = some (.inr outcome) →
        target other = some (.inr outcome)

namespace CatchesUp

variable {step : State → Option (State ⊕ Outcome)}
  {target : Target → Option (Target ⊕ Outcome)} {related : Nat → State → Target → Prop}
  {lead : Nat} {state next : State} {other after : Target} {outcome : Outcome}

theorem simulates (catchesUp : CatchesUp step target related)
    : Simulates step target (fun state other => ∃ lead, related lead state other) where
  goes := by
    rintro state next other ⟨lead, isRelated⟩ goes
    rcases catchesUp.goes isRelated goes with ⟨less, -, stays⟩ | ⟨after, more, moves, isNext⟩
    · exact .inl ⟨less, stays⟩
    · exact .inr ⟨after, moves, more, isNext⟩
  stops := by
    rintro state other outcome ⟨lead, isRelated⟩ stops
    exact catchesUp.stops isRelated stops

/-- The machine runs to the step that the other one makes. By induction on the lead. -/
theorem meets (catchesUp : CatchesUp step target related) (isRelated : related lead state other)
    (live : Live step state)
    : (∃ outcome, target other = some (.inr outcome) ∧ Halts step state outcome)
      ∨ ∃ next after more, target other = some (.inl after) ∧ Reaches step state next
          ∧ related more next after := by
  induction lead using Nat.strongRecOn generalizing state with
  | ind lead ih =>
      rcases isStep : step state with - | next | outcome
      · exact absurd isStep (live state .refl)
      · rcases catchesUp.goes isRelated isStep with ⟨less, below, stays⟩ | ⟨after, more, moves, isNext⟩
        · rcases ih less below stays (live.of_reaches (.single isStep)) with
            ⟨outcome, stops, halts⟩ | ⟨last, after, more, moves, reaches, isLast⟩
          · exact .inl ⟨outcome, stops, .step isStep halts⟩
          · exact .inr ⟨last, after, more, moves, .head isStep reaches, isLast⟩
        · exact .inr ⟨next, after, more, moves, .single isStep, isNext⟩
      · exact .inl ⟨outcome, catchesUp.stops isRelated isStep, .stop isStep⟩

theorem back (catchesUp : CatchesUp step target related) (isRelated : related lead state other)
    (live : Live step state) (reaches : Reaches target other after)
    : ∃ next more, Reaches step state next ∧ related more next after := by
  induction reaches using Relation.ReflTransGen.head_induction_on generalizing lead state with
  | refl => exact ⟨state, lead, .refl, isRelated⟩
  | head moves _ ih =>
      rcases catchesUp.meets isRelated live with
        ⟨outcome, stops, -⟩ | ⟨next, after, more, moved, reaches, isNext⟩
      · rw [stops] at moves
        cases moves
      · rw [moves] at moved
        obtain rfl := Sum.inl.inj (Option.some.inj moved)
        obtain ⟨last, least, more, isLast⟩ := ih isNext (live.of_reaches reaches)
        exact ⟨last, least, reaches.trans more, isLast⟩

/-- The other machine does not get stuck either. -/
theorem live (catchesUp : CatchesUp step target related) (isRelated : related lead state other)
    (live : Live step state)
    : Live target other := by
  intro after reaches isStuck
  obtain ⟨next, more, stepReaches, isNext⟩ := catchesUp.back isRelated live reaches
  rcases catchesUp.meets isNext (live.of_reaches stepReaches) with
    ⟨outcome, stops, -⟩ | ⟨_, last, _, moves, -⟩
  · rw [isStuck] at stops
    cases stops
  · rw [isStuck] at moves
    cases moves

theorem halts_iff (catchesUp : CatchesUp step target related) (isRelated : related lead state other)
    (live : Live step state)
    : Halts step state outcome ↔ Halts target other outcome := by
  refine ⟨catchesUp.simulates.halts ⟨lead, isRelated⟩, fun halts => ?_⟩
  induction halts generalizing lead state with
  | step moves _ ih =>
      obtain ⟨next, more, reaches, isNext⟩ := catchesUp.back isRelated live (.single moves)
      exact .of_reaches reaches (ih isNext (live.of_reaches reaches))
  | stop stops =>
      rcases catchesUp.meets isRelated live with
        ⟨outcome, stopped, halts⟩ | ⟨_, after, _, moves, -⟩
      · rw [stops] at stopped
        obtain rfl := Sum.inr.inj (Option.some.inj stopped)
        exact halts
      · rw [stops] at moves
        cases moves

/-- From related states where the machine does not get stuck, both run alike. -/
theorem runsAlike (catchesUp : CatchesUp step target related)
    : RunsAlike step target
        (fun state other => (∃ lead, related lead state other) ∧ Live step state) where
  forth := by
    rintro state other next ⟨⟨lead, isRelated⟩, live⟩ reaches
    have alive := live.of_reaches reaches
    induction reaches with
    | refl => exact ⟨other, .refl, ⟨lead, isRelated⟩, alive⟩
    | tail before goes ih =>
        obtain ⟨passed, targetReaches, ⟨less, isPassed⟩, -⟩ := ih (live.of_reaches before)
        rcases catchesUp.goes isPassed goes with ⟨least, -, stays⟩ | ⟨after, more, moves, isNext⟩
        · exact ⟨passed, targetReaches, ⟨least, stays⟩, alive⟩
        · exact ⟨after, targetReaches.tail moves, ⟨more, isNext⟩, alive⟩
  back := by
    rintro state other after ⟨⟨lead, isRelated⟩, live⟩ reaches
    obtain ⟨next, more, stepReaches, isNext⟩ := catchesUp.back isRelated live reaches
    exact ⟨next, stepReaches, ⟨more, isNext⟩, live.of_reaches stepReaches⟩
  halts := by
    rintro state other ⟨⟨lead, isRelated⟩, live⟩ outcome
    exact catchesUp.halts_iff isRelated live
  diverges := by
    rintro state other ⟨⟨lead, isRelated⟩, live⟩
    have otherLive := catchesUp.live isRelated live
    rw [live.diverges_iff, otherLive.diverges_iff]
    exact forall_congr' (fun outcome => not_congr (catchesUp.halts_iff isRelated live))

end CatchesUp

end Glean.Halting
