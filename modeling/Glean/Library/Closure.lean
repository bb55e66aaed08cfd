import Mathlib.Data.Finset.Card
import Mathlib.Logic.Relation
import Glean.Library.AssocMap
import Glean.Library.Halting

/-! The closure of a list of items under their successors. Items are told apart by their keys; of
each key the item that is found first is kept.
-/

namespace Glean.Closure

variable {Item Key : Type} [DecidableEq Key]

/-- What is still to be visited, and the items kept so far. -/
structure State (Item Key : Type) where
  todo : List Item
  kept : AssocMap Key Item

def start (roots : List Item) : State Item Key := ⟨roots, .empty⟩

/-- Visit one item. Nothing happens when its key is known already. -/
def step (key : Item → Key) (next : Item → List Item) (state : State Item Key)
    : Option (State Item Key ⊕ AssocMap Key Item) :=
  match state.todo with
  | [] => some (.inr state.kept)
  | item :: rest =>
      if (state.kept.lookup (key item)).isSome then
        some (.inl ⟨rest, state.kept⟩)
      else
        some (.inl ⟨next item ++ rest, state.kept.insert (key item) item⟩)

/-- An item leads to another one over any number of successors. -/
def Leads (next : Item → List Item) : Item → Item → Prop :=
  Relation.ReflTransGen (fun source target => target ∈ next source)

variable {key : Item → Key} {next : Item → List Item} {roots : List Item}
variable {state : State Item Key} {kept : AssocMap Key Item}

theorem step_known {item : Item} {rest : List Item} (known : (kept.lookup (key item)).isSome)
    : step key next ⟨item :: rest, kept⟩ = some (.inl ⟨rest, kept⟩) :=
  if_pos known

theorem step_new {item : Item} {rest : List Item} (new : ¬ (kept.lookup (key item)).isSome)
    : step key next ⟨item :: rest, kept⟩
      = some (.inl ⟨next item ++ rest, kept.insert (key item) item⟩) :=
  if_neg new

/-- The keys of the roots are kept, and with an item the keys of its successors. Nothing else
is kept.
-/
structure IsClosure (key : Item → Key) (next : Item → List Item) (roots : List Item)
    (kept : AssocMap Key Item) : Prop where
  keyed : ∀ {found item}, kept.lookup found = some item → key item = found
  contains : ∀ root ∈ roots, ∃ item, kept.lookup (key root) = some item
  closed
    : ∀ {found item}, kept.lookup found = some item → ∀ other ∈ next item,
        ∃ target, kept.lookup (key other) = some target
  reached
    : ∀ {found item}, kept.lookup found = some item → ∃ root ∈ roots, Leads next root item

/-- A key is kept, or an item with it will be visited. -/
def Covers (key : Item → Key) (state : State Item Key) (found : Key) : Prop :=
  (∃ item, state.kept.lookup found = some item) ∨ ∃ item ∈ state.todo, key item = found

/-- What holds all along the search. -/
structure Searches (key : Item → Key) (next : Item → List Item) (roots : List Item)
    (state : State Item Key) : Prop where
  keyed : ∀ {found item}, state.kept.lookup found = some item → key item = found
  contains : ∀ root ∈ roots, Covers key state (key root)
  closed
    : ∀ {found item}, state.kept.lookup found = some item → ∀ other ∈ next item,
        Covers key state (key other)
  reached
    : ∀ {found item}, state.kept.lookup found = some item → ∃ root ∈ roots, Leads next root item
  pending : ∀ item ∈ state.todo, ∃ root ∈ roots, Leads next root item

theorem searches_start : Searches key next roots (start roots) where
  keyed := nofun
  contains := fun root member => .inr ⟨root, member, rfl⟩
  closed := nofun
  reached := nofun
  pending := fun item member => ⟨item, member, .refl⟩

/-- A key that is known already is not visited again. -/
private theorem Searches.skip {item : Item} {rest : List Item}
    (searches : Searches key next roots ⟨item :: rest, kept⟩)
    (known : (kept.lookup (key item)).isSome)
    : Searches key next roots ⟨rest, kept⟩ := by
  have covers
      : ∀ {found}, Covers key ⟨item :: rest, kept⟩ found → Covers key ⟨rest, kept⟩ found := by
    intro found covered
    rcases covered with isKept | ⟨other, member, rfl⟩
    · exact .inl isKept
    · rcases List.mem_cons.mp member with rfl | later
      · exact .inl (Option.isSome_iff_exists.mp known)
      · exact .inr ⟨other, later, rfl⟩
  exact
    { keyed := searches.keyed
      contains := fun root member => covers (searches.contains root member)
      closed := fun found other member => covers (searches.closed found other member)
      reached := searches.reached
      pending := fun other member => searches.pending other (List.mem_cons_of_mem _ member) }

/-- The successors of an item that is kept will be visited. -/
private theorem Searches.keep {item : Item} {rest : List Item}
    (searches : Searches key next roots ⟨item :: rest, kept⟩)
    : Searches key next roots ⟨next item ++ rest, kept.insert (key item) item⟩ := by
  have covers
      : ∀ {found}, Covers key ⟨item :: rest, kept⟩ found →
          Covers key ⟨next item ++ rest, kept.insert (key item) item⟩ found := by
    intro found covered
    by_cases same : found = key item
    · exact .inl ⟨item, same ▸ AssocMap.lookup_insert_self⟩
    · rcases covered with ⟨old, isOld⟩ | ⟨other, member, rfl⟩
      · exact .inl ⟨old, (AssocMap.lookup_insert_of_ne same).trans isOld⟩
      · rcases List.mem_cons.mp member with rfl | later
        · exact absurd rfl same
        · exact .inr ⟨other, List.mem_append_right _ later, rfl⟩
  obtain ⟨root, isRoot, leads⟩ := searches.pending item List.mem_cons_self
  have cases_of_found
      : ∀ {found entry}, (kept.insert (key item) item).lookup found = some entry →
          found = key item ∧ entry = item ∨ kept.lookup found = some entry := by
    intro found entry isEntry
    rw [AssocMap.lookup_insert] at isEntry
    split at isEntry
    next same => exact .inl ⟨same, (Option.some.inj isEntry).symm⟩
    next => exact .inr isEntry
  refine
    { keyed := ?keyed
      contains := fun root member => covers (searches.contains root member)
      closed := ?closed
      reached := ?reached
      pending := ?pending }
  case keyed =>
    intro found entry isEntry
    rcases cases_of_found isEntry with ⟨rfl, rfl⟩ | old
    · rfl
    · exact searches.keyed old
  case closed =>
    intro found entry isEntry other member
    rcases cases_of_found isEntry with ⟨rfl, rfl⟩ | old
    · exact .inr ⟨other, List.mem_append_left _ member, rfl⟩
    · exact covers (searches.closed old other member)
  case reached =>
    intro found entry isEntry
    rcases cases_of_found isEntry with ⟨rfl, rfl⟩ | old
    · exact ⟨root, isRoot, leads⟩
    · exact searches.reached old
  case pending =>
    intro other member
    rcases List.mem_append.mp member with successor | later
    · exact ⟨root, isRoot, leads.tail successor⟩
    · exact searches.pending other (List.mem_cons_of_mem _ later)

/-- A search that stops has found the closure. -/
theorem isClosure_of_halts (searches : Searches key next roots state)
    (halts : Halting.Halts (step key next) state kept)
    : IsClosure key next roots kept := by
  induction halts with
  | @step state after kept goes _ ih =>
      obtain ⟨todo, old⟩ := state
      cases todo with
      | nil => cases goes
      | cons item rest =>
          apply ih
          by_cases known : (old.lookup (key item)).isSome
          · rw [step_known known, Option.some.injEq, Sum.inl.injEq] at goes
            exact goes ▸ searches.skip known
          · rw [step_new known, Option.some.injEq, Sum.inl.injEq] at goes
            exact goes ▸ searches.keep
  | @stop state kept stops =>
      obtain ⟨todo, old⟩ := state
      cases todo with
      | nil =>
          obtain rfl : old = kept := Sum.inr.inj (Option.some.inj stops)
          have isKept
              : ∀ {found}, Covers key ⟨[], old⟩ found → ∃ item, old.lookup found = some item :=
            fun covered => covered.resolve_right (fun ⟨_, member, _⟩ => nomatch member)
          exact
            { keyed := searches.keyed
              contains := fun root member => isKept (searches.contains root member)
              closed := fun found other member => isKept (searches.closed found other member)
              reached := searches.reached }
      | cons item rest =>
          by_cases known : (old.lookup (key item)).isSome
          · rw [step_known known] at stops
            cases stops
          · rw [step_new known] at stops
            cases stops

/-- The keys of a finite set that are not kept yet. -/
private def unknown (keys : Finset Key) (kept : AssocMap Key Item) : Finset Key :=
  keys.filter (fun key => (kept.lookup key).isNone)

private theorem card_unknown_insert {keys : Finset Key} {found : Key} (item : Item)
    (isKey : found ∈ keys) (new : kept.lookup found = none)
    : (unknown keys (kept.insert found item)).card < (unknown keys kept).card := by
  apply Finset.card_lt_card
  refine Finset.ssubset_iff_of_subset ?_ |>.mpr ⟨found, ?_, ?_⟩
  · intro other member
    rw [unknown, Finset.mem_filter, AssocMap.lookup_insert] at member
    rw [unknown, Finset.mem_filter]
    by_cases same : other = found
    · exact ⟨member.1, same ▸ Option.isNone_iff_eq_none.mpr new⟩
    · exact ⟨member.1, by simpa [same] using member.2⟩
  · exact Finset.mem_filter.mpr ⟨isKey, Option.isNone_iff_eq_none.mpr new⟩
  · intro member
    rw [unknown, Finset.mem_filter, AssocMap.lookup_insert_self] at member
    exact absurd member.2 Bool.false_ne_true

/-- Where the keys are finitely many the search stops, whatever the cycles. -/
theorem exists_halts (keys : Finset Key) (inRoots : ∀ root ∈ roots, key root ∈ keys)
    (inNext : ∀ item, ∀ other ∈ next item, key other ∈ keys)
    : ∃ kept, Halting.Halts (step key next) (start roots) kept := by
  suffices all
      : ∀ measure (todo : List Item) (old : AssocMap Key Item),
          (unknown keys old).card ≤ measure → (∀ item ∈ todo, key item ∈ keys) →
            ∃ kept, Halting.Halts (step key next) ⟨todo, old⟩ kept from
    all _ roots .empty le_rfl inRoots
  intro measure
  induction measure with
  | zero =>
      intro todo old bounded inTodo
      induction todo with
      | nil => exact ⟨old, .stop rfl⟩
      | cons item rest ih =>
          obtain ⟨kept, halts⟩ := ih (fun other member => inTodo other (List.mem_cons_of_mem _ member))
          refine ⟨kept, .step (step_known (by_contra fun fresh => ?_)) halts⟩
          have isNew := Option.not_isSome_iff_eq_none.mp fresh
          have smaller := card_unknown_insert item (inTodo item List.mem_cons_self) isNew
          omega
  | succ measure ihMeasure =>
      intro todo old bounded inTodo
      induction todo with
      | nil => exact ⟨old, .stop rfl⟩
      | cons item rest ih =>
          have inRest : ∀ other ∈ rest, key other ∈ keys :=
            fun other member => inTodo other (List.mem_cons_of_mem _ member)
          by_cases known : (old.lookup (key item)).isSome
          · obtain ⟨kept, halts⟩ := ih inRest
            exact ⟨kept, .step (step_known known) halts⟩
          · have isNew := Option.not_isSome_iff_eq_none.mp known
            have smaller :=
              card_unknown_insert item (inTodo item List.mem_cons_self) isNew
            obtain ⟨kept, halts⟩ :=
              ihMeasure (next item ++ rest) (old.insert (key item) item) (by omega) (by
                intro other member
                rcases List.mem_append.mp member with successor | later
                · exact inNext item other successor
                · exact inRest other later)
            exact ⟨kept, .step (step_new known) halts⟩

end Glean.Closure
