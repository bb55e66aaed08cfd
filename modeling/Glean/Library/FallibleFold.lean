import Mathlib.Tactic.Common

/-! Folds and loops whose steps may fail: what holds when none did. -/

namespace FallibleFold

variable {State Input Error : Type} {step : State → Input → Except Error State}
  {state after : State} {input : Input} {inputs : List Input}

theorem bind_eq_ok {α β : Type} {first : Except Error α} {next : α → Except Error β} {result : β}
    : (first >>= next) = .ok result ↔ ∃ value, first = .ok value ∧ next value = .ok result := by
  cases first with
  | error failure => exact ⟨nofun, nofun⟩
  | ok value => exact ⟨fun finished => ⟨value, rfl, finished⟩, fun ⟨_, rfl, finished⟩ => finished⟩

theorem foldlM_nil_ok : ([].foldlM step state = .ok after) ↔ after = state := by
  constructor
  · rintro ⟨⟩
    rfl
  · rintro rfl
    rfl

theorem foldlM_cons_ok
    : ((input :: inputs).foldlM step state = .ok after)
      ↔ ∃ middle, step state input = .ok middle ∧ inputs.foldlM step middle = .ok after := by
  rw [List.foldlM_cons, bind_eq_ok]

/-- A loop finishes when each of its steps does. -/
theorem forM_ok {check : Input → Except Error Unit}
    : inputs.forM check = .ok () ↔ ∀ input ∈ inputs, check input = .ok () := by
  induction inputs with
  | nil => exact ⟨fun _ => nofun, fun _ => rfl⟩
  | cons input inputs ih =>
      change (check input >>= fun _ => inputs.forM check) = _ ↔ _
      rw [bind_eq_ok, List.forall_mem_cons, ← ih]
      exact ⟨fun ⟨⟨⟩, first, others⟩ => ⟨first, others⟩, fun both => ⟨⟨⟩, both⟩⟩

/-- The results of a loop are those of its steps. -/
theorem mem_of_mapM_ok {α : Type} {convert : Input → Except Error α} {results : List α}
    (finished : inputs.mapM convert = .ok results) {result : α}
    : result ∈ results ↔ ∃ input ∈ inputs, convert input = .ok result := by
  induction inputs generalizing results with
  | nil =>
      cases finished
      simp
  | cons input inputs ih =>
      rw [List.mapM_cons, bind_eq_ok] at finished
      obtain ⟨first, isFirst, finished⟩ := finished
      obtain ⟨others, areOthers, finished⟩ := bind_eq_ok.mp finished
      cases finished
      rw [List.mem_cons, ih areOthers]
      simp only [List.mem_cons, exists_eq_or_imp, isFirst, Except.ok.injEq]
      rw [eq_comm]

theorem ok_of_mapM_ok {α : Type} {convert : Input → Except Error α} {results : List α}
    (finished : inputs.mapM convert = .ok results)
    : ∀ input ∈ inputs, ∃ result ∈ results, convert input = .ok result := by
  induction inputs generalizing results with
  | nil => nofun
  | cons input inputs ih =>
      rw [List.mapM_cons, bind_eq_ok] at finished
      obtain ⟨first, isFirst, finished⟩ := finished
      obtain ⟨others, areOthers, finished⟩ := bind_eq_ok.mp finished
      cases finished
      intro other member
      rcases List.mem_cons.mp member with rfl | later
      · exact ⟨first, List.mem_cons_self, isFirst⟩
      · obtain ⟨result, inOthers, isResult⟩ := ih areOthers other later
        exact ⟨result, List.mem_cons_of_mem _ inOthers, isResult⟩

/-- Every step of a fold meets a condition in the state it starts from. -/
def Meets (step : State → Input → Except Error State) (condition : State → Input → Prop)
    : State → List Input → Prop
  | _, [] => True
  | state, input :: inputs =>
      condition state input
      ∧ ∀ after, step state input = .ok after → Meets step condition after inputs

/-- What every step that meets a condition preserves holds after a fold of such steps. -/
theorem foldlM_preserves {condition : State → Input → Prop} {Invariant : State → Prop}
    (preserves
      : ∀ state input after,
          condition state input → step state input = .ok after → Invariant state
          → Invariant after)
    (meets : Meets step condition state inputs)
    (holds : Invariant state)
    (finished : inputs.foldlM step state = .ok after)
    : Invariant after := by
  induction inputs generalizing state with
  | nil => exact foldlM_nil_ok.mp finished ▸ holds
  | cons input inputs ih =>
      obtain ⟨middle, isStep, finished⟩ := foldlM_cons_ok.mp finished
      exact ih (meets.2 middle isStep) (preserves _ _ _ meets.1 isStep holds) finished

end FallibleFold
