import Mathlib.Data.List.Forall2
import Mathlib.Tactic.Common

/-! Cursors as state machines, and the sequence of items a cursor delivers.
A cursor shows its current item on demand and moves forward; showing may change its state.
What it delivers is stated by simulation against a list, so that it covers every pattern of
calls a protocol allows and not only one draining loop.
-/

/-- A forward cursor over items of type `Item`, shown at a chosen level of `Demand`.
An absent result of `get` or `next` is undefined behaviour; `get` giving `(none, _)` is
exhaustion. `size` bounds the number of items still to come.
-/
structure Cursor (Demand Item : Type) where
  State : Type
  state : State
  get : Demand → State → Option (Option Item × State)
  next : State → Option State
  size : State → Nat

namespace Cursor

variable {Demand Item : Type}

/-- When a client may call `next`: only right after a `get` that showed an item, or also
without looking first.
-/
inductive Protocol where
  | getFirst
  | anyOrder
  deriving DecidableEq

/-- The relation `R` between states and remaining items is kept by every allowed call, and
every call answers as the list of remaining items does. What is shown has to agree with the
current item at the demanded level.
-/
structure Simulates (agrees : Demand → Item → Item → Prop) (protocol : Protocol)
    (cursor : Cursor Demand Item) (R : cursor.State → List Item → Prop)
    : Prop where
  bounded : ∀ {state items}, R state items → items.length ≤ cursor.size state
  done
    : ∀ {state}, R state [] → ∀ demand,
        ∃ after, cursor.get demand state = some (none, after) ∧ R after []
  shows
    : ∀ {state item rest}, R state (item :: rest) → ∀ demand,
        ∃ shown after moved,
          cursor.get demand state = some (some shown, after)
          ∧ agrees demand shown item
          ∧ R after (item :: rest)
          ∧ cursor.next after = some moved
          ∧ R moved rest
  moves
    : protocol = .anyOrder → ∀ {state item rest}, R state (item :: rest) →
        ∃ moved, cursor.next state = some moved ∧ R moved rest

/-- The cursor delivers exactly the listed items, in this order. -/
def Delivers (agrees : Demand → Item → Item → Prop) (protocol : Protocol)
    (cursor : Cursor Demand Item) (items : List Item)
    : Prop :=
  ∃ R, Simulates agrees protocol cursor R ∧ R cursor.state items

/-- The draining loop `for (; item = get(); next())` with an explicit bound on its rounds.
`none` is undefined behaviour inside the loop.
-/
def drainFrom (cursor : Cursor Demand Item) (demand : Demand)
    : Nat → cursor.State → Option (List Item)
  | 0, _ => some []
  | rounds + 1, state =>
      (cursor.get demand state).bind fun (shown, after) =>
        match shown with
        | none => some []
        | some item =>
            (cursor.next after).bind fun moved =>
              (cursor.drainFrom demand rounds moved).map (item :: ·)

/-- Drain a cursor from its initial state; its size bounds the rounds. -/
def drain (cursor : Cursor Demand Item) (demand : Demand) : Option (List Item) :=
  cursor.drainFrom demand (cursor.size cursor.state + 1) cursor.state

/-- The draining loop runs into undefined behaviour from this state. -/
inductive Stuck (cursor : Cursor Demand Item) (demand : Demand) : cursor.State → Prop where
  | atGet {state : cursor.State} (undefined : cursor.get demand state = none) : Stuck cursor demand state
  | atNext {state after : cursor.State} {item : Item}
      (gets : cursor.get demand state = some (some item, after))
      (undefined : cursor.next after = none)
      : Stuck cursor demand state
  | later {state after moved : cursor.State} {item : Item}
      (gets : cursor.get demand state = some (some item, after))
      (moves : cursor.next after = some moved)
      (stuck : Stuck cursor demand moved)
      : Stuck cursor demand state

section Facts

variable {agrees : Demand → Item → Item → Prop} {protocol : Protocol}
  {cursor : Cursor Demand Item}

/-- Looking before every move is the weaker promise. -/
theorem Delivers.getFirst {items : List Item}
    (delivers : Delivers agrees protocol cursor items)
    : Delivers agrees .getFirst cursor items := by
  obtain ⟨R, simulates, start⟩ := delivers
  exact ⟨R, ⟨simulates.bounded, simulates.done, simulates.shows, by simp⟩, start⟩

/-- Two simulations from one state agree on the remaining items when some demand shows
items in full. Witness: induction on the first list; both relations follow the same calls.
-/
theorem Simulates.unique {R S : cursor.State → List Item → Prop}
    (left : Simulates agrees protocol cursor R) (right : Simulates agrees protocol cursor S)
    (full : Demand) (exact : ∀ {shown item}, agrees full shown item → shown = item)
    {state : cursor.State} {items others : List Item} (first : R state items)
    (second : S state others)
    : items = others := by
  induction items generalizing state others with
  | nil =>
      obtain ⟨after, gets, -⟩ := left.done first full
      cases others with
      | nil => rfl
      | cons other rest =>
          obtain ⟨shown, after', moved, gets', -⟩ := right.shows second full
          rw [gets] at gets'
          simp at gets'
  | cons item rest ih =>
      obtain ⟨shown, after, moved, gets, agree, -, moves, next⟩ := left.shows first full
      cases others with
      | nil =>
          obtain ⟨after', gets', -⟩ := right.done second full
          rw [gets] at gets'
          simp at gets'
      | cons other more =>
          obtain ⟨shown', after', moved', gets', agree', -, moves', next'⟩ :=
            right.shows second full
          rw [gets] at gets'
          obtain ⟨rfl, rfl⟩ : shown = shown' ∧ after = after' := by simpa using gets'
          rw [moves] at moves'
          obtain rfl : moved = moved' := by simpa using moves'
          rw [← exact agree, ← exact agree', ih next next']

/-- A cursor delivers at most one sequence. -/
theorem Delivers.unique (full : Demand)
    (exact : ∀ {shown item}, agrees full shown item → shown = item)
    {items others : List Item} (left : Delivers agrees protocol cursor items)
    (right : Delivers agrees protocol cursor others)
    : items = others := by
  obtain ⟨R, simulatesR, startR⟩ := left
  obtain ⟨S, simulatesS, startS⟩ := right
  exact simulatesR.unique simulatesS full exact startR startS

/-- The draining loop returns the delivered items, once its rounds exceed their number. -/
theorem Simulates.drainFrom {R : cursor.State → List Item → Prop}
    (simulates : Simulates agrees protocol cursor R)
    (full : Demand) (exact : ∀ {shown item}, agrees full shown item → shown = item)
    {rounds : Nat} {state : cursor.State} {items : List Item} (start : R state items)
    (enough : items.length < rounds)
    : cursor.drainFrom full rounds state = some items := by
  induction items generalizing rounds state with
  | nil =>
      obtain ⟨rounds, rfl⟩ := Nat.exists_eq_succ_of_ne_zero (Nat.pos_iff_ne_zero.mp enough)
      obtain ⟨after, gets, -⟩ := simulates.done start full
      simp [Cursor.drainFrom, gets]
  | cons item rest ih =>
      obtain ⟨rounds, rfl⟩ :=
        Nat.exists_eq_succ_of_ne_zero (Nat.pos_iff_ne_zero.mp (Nat.zero_lt_of_lt enough))
      obtain ⟨shown, after, moved, gets, agree, -, moves, next⟩ := simulates.shows start full
      have tail := ih next (Nat.lt_of_succ_lt_succ (by simpa using enough))
      simp [Cursor.drainFrom, gets, moves, tail, exact agree]

/-- Draining a cursor gives exactly what it delivers. -/
theorem Delivers.drain (full : Demand)
    (exact : ∀ {shown item}, agrees full shown item → shown = item)
    {items : List Item} (delivers : Delivers agrees protocol cursor items)
    : cursor.drain full = some items := by
  obtain ⟨R, simulates, start⟩ := delivers
  exact simulates.drainFrom full exact start (Nat.lt_succ_of_le (simulates.bounded start))

/-- No simulation covers a stuck state, by induction on the calls that lead to the
undefined one.
-/
theorem Stuck.not_related {demand : Demand} {state : cursor.State}
    (stuck : Stuck cursor demand state) {R : cursor.State → List Item → Prop}
    (simulates : Simulates agrees protocol cursor R) (items : List Item)
    : ¬ R state items := by
  induction stuck generalizing items with
  | atGet undefined =>
      intro related
      cases items with
      | nil =>
          obtain ⟨after, gets, -⟩ := simulates.done related demand
          simp [undefined] at gets
      | cons item rest =>
          obtain ⟨shown, after, moved, gets, -⟩ := simulates.shows related demand
          simp [undefined] at gets
  | atNext shows undefined =>
      intro related
      cases items with
      | nil =>
          obtain ⟨after, gets, -⟩ := simulates.done related demand
          simp [shows] at gets
      | cons item rest =>
          obtain ⟨shown, after, moved, gets, -, -, moves, -⟩ := simulates.shows related demand
          obtain ⟨-, rfl⟩ : _ ∧ _ = after := by simpa [shows] using gets
          simp [undefined] at moves
  | later shows advances _ ih =>
      intro related
      cases items with
      | nil =>
          obtain ⟨after, gets, -⟩ := simulates.done related demand
          simp [shows] at gets
      | cons item rest =>
          obtain ⟨shown, after, moved, gets, -, -, moves, next⟩ := simulates.shows related demand
          obtain ⟨-, rfl⟩ : _ ∧ _ = after := by simpa [shows] using gets
          obtain rfl : _ = moved := by simpa [advances] using moves
          exact ih rest next

/-- A cursor that gets stuck delivers no sequence. -/
theorem Stuck.not_delivers {demand : Demand} (stuck : Stuck cursor demand cursor.state)
    (items : List Item)
    : ¬ Delivers agrees protocol cursor items := by
  intro delivers
  obtain ⟨R, simulates, start⟩ := delivers
  exact stuck.not_related simulates items start

end Facts

end Cursor
