import Glean.Library.Cursor
import Glean.RTS.Fact

/-! Fact iterators and their combinators (`lookup.h`, `lookup.cpp`).
Each iterator class of the source is a cursor whose state is the object's mutable fields.
-/

namespace Glean.RTS

/-- How much of the current fact a client asks for. -/
inductive Demand where
  | keyOnly
  | keyValue
  deriving DecidableEq

/-- What may be shown for a fact: at `KeyOnly` the value is unspecified. -/
def Fact.ShownAs : Demand → Fact → Fact → Prop
  | .keyOnly, shown, fact => shown.id = fact.id ∧ shown.type = fact.type ∧ shown.key = fact.key
  | .keyValue, shown, fact => shown = fact

/-- `FactIterator`: `get` may be undefined, exhausted (`Fact::Ref::invalid`) or show a fact. -/
abbrev FactIterator := Cursor Demand Fact

/-- The iterator yields exactly these facts in this order. -/
def FactIterator.Yields (protocol : Cursor.Protocol) (iter : FactIterator)
    (facts : List Fact)
    : Prop :=
  Cursor.Delivers Fact.ShownAs protocol iter facts

/-- A fact shown at any demand has the id of the current fact. -/
theorem Fact.ShownAs.id_eq {demand : Demand} {shown fact : Fact}
    (agrees : Fact.ShownAs demand shown fact)
    : shown.id = fact.id := by
  cases demand with
  | keyOnly => exact agrees.1
  | keyValue => exact congrArg Fact.id agrees

/-- A fact shown at any demand has the key of the current fact. -/
theorem Fact.ShownAs.key_eq {demand : Demand} {shown fact : Fact}
    (agrees : Fact.ShownAs demand shown fact)
    : shown.key = fact.key := by
  cases demand with
  | keyOnly => exact agrees.2.2
  | keyValue => exact congrArg Fact.key agrees

/-- A full view also answers a lesser demand. -/
theorem Fact.ShownAs.of_keyValue {demand : Demand} {shown fact : Fact}
    (agrees : Fact.ShownAs .keyValue shown fact)
    : Fact.ShownAs demand shown fact := by
  cases demand with
  | keyOnly => exact agrees ▸ ⟨rfl, rfl, rfl⟩
  | keyValue => exact agrees

/-- An iterator yields at most one sequence. -/
theorem FactIterator.Yields.unique {protocol : Cursor.Protocol} {iter : FactIterator}
    {facts others : List Fact} (left : iter.Yields protocol facts)
    (right : iter.Yields protocol others)
    : facts = others :=
  Cursor.Delivers.unique Demand.keyValue id left right

/-- The loop over an iterator collects what it yields. -/
theorem FactIterator.Yields.drain {protocol : Cursor.Protocol} {iter : FactIterator}
    {facts : List Fact} (yields : iter.Yields protocol facts)
    : iter.drain .keyValue = some facts :=
  Cursor.Delivers.drain Demand.keyValue id yields

/-- `EmptyIterator`. -/
def EmptyIterator : FactIterator where
  State := Unit
  state := ()
  get := fun _ state => some (none, state)
  next := some
  size := fun _ => 0

/-- An iterator that cannot be used at all, the result of undefined behaviour. -/
def undefinedIterator : FactIterator where
  State := Unit
  state := ()
  get := fun _ _ => none
  next := fun _ => none
  size := fun _ => 0

/-- What an ordered-map or rocksdb position shows for each demand. Showing the value may
need a further lookup, and that lookup may fail.
-/
structure Cell where
  keyOnly : Fact
  keyValue : Option Fact

namespace Cell

/-- A position that holds the whole fact. -/
def ofFact (fact : Fact) : Cell := ⟨fact, some fact⟩

def shown (cell : Cell) : Demand → Option Fact
  | .keyOnly => some cell.keyOnly
  | .keyValue => cell.keyValue

/-- The position shows `fact` at every demand. -/
def Holds (cell : Cell) (fact : Fact) : Prop :=
  Fact.ShownAs .keyOnly cell.keyOnly fact ∧ cell.keyValue = some fact

theorem Holds.shown {cell : Cell} {fact : Fact} (holds : cell.Holds fact) (demand : Demand)
    : ∃ shown, cell.shown demand = some shown ∧ Fact.ShownAs demand shown fact := by
  cases demand with
  | keyOnly => exact ⟨cell.keyOnly, rfl, holds.1⟩
  | keyValue => exact ⟨fact, holds.2, rfl⟩

theorem holds_ofFact (fact : Fact) : (ofFact fact).Holds fact :=
  ⟨⟨rfl, rfl, rfl⟩, rfl⟩

end Cell

/-- An iterator between two positions of an ordered map, given by the positions still
ahead. Moving past the end is excluded by an assertion in the source.
-/
def rangeIterator (cells : List Cell) : FactIterator where
  State := List Cell
  state := cells
  get := fun demand state =>
    match state with
    | [] => some (none, [])
    | cell :: rest => (cell.shown demand).map (fun fact => (some fact, cell :: rest))
  next := fun state =>
    match state with
    | [] => none
    | _ :: rest => some rest
  size := List.length

/-- The empty iterator yields nothing. -/
theorem EmptyIterator.yields (protocol : Cursor.Protocol)
    : EmptyIterator.Yields protocol [] := by
  refine ⟨fun _ items => items = [], ⟨?_, ?_, ?_, ?_⟩, rfl⟩
  · intro state items empty
    simp [empty]
  · intro state empty demand
    exact ⟨(), rfl, rfl⟩
  · intro state item rest impossible
    cases impossible
  · intro _ state item rest impossible
    cases impossible

/-- A range iterator yields the facts its positions hold, by following the list. -/
theorem rangeIterator.yields (protocol : Cursor.Protocol) {cells : List Cell}
    {facts : List Fact} (holds : List.Forall₂ Cell.Holds cells facts)
    : (rangeIterator cells).Yields protocol facts := by
  refine ⟨fun state items => List.Forall₂ Cell.Holds state items, ⟨?_, ?_, ?_, ?_⟩, holds⟩
  · intro state items related
    exact le_of_eq related.length_eq.symm
  · intro state related demand
    cases related
    exact ⟨[], rfl, .nil⟩
  · intro state fact rest related demand
    cases related with
    | @cons cell _ cells _ head tail =>
        obtain ⟨shown, eq, agrees⟩ := head.shown demand
        exact ⟨shown, cell :: cells, cells, by simp [rangeIterator, eq], agrees,
          .cons head tail, rfl, tail⟩
  · intro _ state fact rest related
    cases related with
    | cons _ tail => exact ⟨_, rfl, tail⟩

/-- Positions built from whole facts hold those facts. -/
theorem Cell.holds_map_ofFact (facts : List Fact)
    : List.Forall₂ Cell.Holds (facts.map Cell.ofFact) facts := by
  induction facts with
  | nil => exact .nil
  | cons fact rest ih => exact .cons (holds_ofFact fact) ih

/-- Which of the two merged iterators is current. -/
inductive Side where
  | left
  | right
  deriving DecidableEq

/-- Fields of `MergeIterator`; an absent iterator is a reset `unique_ptr`, and an absent
`current` is the null pointer.
-/
structure MergeState (Left Right : Type) where
  left : Option Left
  right : Option Right
  current : Option Side

/-- The bytes of a key behind the seek prefix. -/
def suffix (prefixSize : Nat) (fact : Fact) : Bytes :=
  fact.key.drop prefixSize

/-- `MergeIterator::tryGet`: an exhausted iterator is dropped. -/
def tryGet (iter : FactIterator) (demand : Demand)
    : Option iter.State → Option (Option Fact × Option iter.State)
  | none => some (none, none)
  | some state =>
      (iter.get demand state).map fun (shown, after) =>
        match shown with
        | none => (none, none)
        | some fact => (some fact, some after)

/-- `MergeIterator::get`. -/
def mergeGet (left right : FactIterator) (prefixSize : Nat) (demand : Demand)
    (state : MergeState left.State right.State)
    : Option (Option Fact × MergeState left.State right.State) :=
  match state.current with
  | some .left =>
      state.left.bind fun inner =>
        (left.get demand inner).map fun (shown, after) =>
          (shown, { state with left := some after })
  | some .right =>
      state.right.bind fun inner =>
        (right.get demand inner).map fun (shown, after) =>
          (shown, { state with right := some after })
  | none =>
      (tryGet left demand state.left).bind fun (l, left') =>
        (tryGet right demand state.right).map fun (r, right') =>
          match l, r with
          | some lfact, some rfact =>
              if suffix prefixSize rfact < suffix prefixSize lfact then
                (some rfact, ⟨left', right', some .right⟩)
              else
                (some lfact, ⟨left', right', some .left⟩)
          | some lfact, none => (some lfact, ⟨left', right', some .left⟩)
          | none, _ => (r, ⟨left', right', right'.map (fun _ => .right)⟩)

/-- `MergeIterator::next`: look first if nothing is current, then advance the current one. -/
def mergeNext (left right : FactIterator) (prefixSize : Nat)
    (state : MergeState left.State right.State)
    : Option (MergeState left.State right.State) :=
  let looked :=
    match state.current with
    | some _ => some state
    | none => (mergeGet left right prefixSize .keyOnly state).map Prod.snd
  looked.bind fun state =>
    match state.current with
    | some .left =>
        (state.left.bind left.next).map fun moved =>
          { state with left := some moved, current := none }
    | some .right =>
        (state.right.bind right.next).map fun moved =>
          { state with right := some moved, current := none }
    | none => none

/-- `MergeIterator`. -/
def MergeIterator (left right : FactIterator) (prefixSize : Nat) : FactIterator where
  State := MergeState left.State right.State
  state := ⟨some left.state, some right.state, none⟩
  get := mergeGet left right prefixSize
  next := mergeNext left right prefixSize
  size := fun state =>
    (state.left.map left.size).getD 0 + (state.right.map right.size).getD 0

/-- `FactIterator::merge`: a side that is exhausted at the start is left out. -/
def FactIterator.merge (left right : FactIterator) (prefixSize : Nat) : FactIterator :=
  match left.get .keyOnly left.state with
  | none => undefinedIterator
  | some (none, _) => right
  | some (some _, leftAfter) =>
      match right.get .keyOnly right.state with
      | none => undefinedIterator
      | some (none, _) => { left with state := leftAfter }
      | some (some _, rightAfter) =>
          MergeIterator { left with state := leftAfter } { right with state := rightAfter }
            prefixSize

/-- Fields of `AppendIterator`: `current` is the first or, once `other` was swapped in and
reset, the second iterator.
-/
inductive AppendState (First Second : Type) where
  | first (current : First) (other : Second) (checked : Bool)
  | second (current : Second) (checked : Bool)

/-- `AppendIterator::get`, which always asks for key and value. -/
def appendGet (first second : FactIterator)
    : AppendState first.State second.State
      → Option (Option Fact × AppendState first.State second.State)
  | .first current other _ =>
      (first.get .keyValue current).bind fun (shown, after) =>
        match shown with
        | some fact => some (some fact, .first after other true)
        | none =>
            (second.get .keyValue other).map fun (shown, after) =>
              (shown, .second after true)
  | .second current _ =>
      (second.get .keyValue current).map fun (shown, after) => (shown, .second after true)

/-- `current->next(); checked = false;` -/
def appendAdvance (first second : FactIterator)
    : AppendState first.State second.State → Option (AppendState first.State second.State)
  | .first current other _ =>
      (first.next current).map fun moved => .first moved other false
  | .second current _ => (second.next current).map fun moved => .second moved false

/-- `AppendIterator::next`. -/
def appendNext (first second : FactIterator)
    (state : AppendState first.State second.State)
    : Option (AppendState first.State second.State) :=
  let checked :=
    match state with
    | .first _ _ checked => checked
    | .second _ checked => checked
  if checked then
    appendAdvance first second state
  else
    (appendGet first second state).bind fun (_, after) => appendAdvance first second after

/-- `AppendIterator`. -/
def AppendIterator (first second : FactIterator) : FactIterator where
  State := AppendState first.State second.State
  state := .first first.state second.state false
  get := fun _ => appendGet first second
  next := appendNext first second
  size
    | .first current other _ => first.size current + second.size other
    | .second current _ => second.size current

/-- `FactIterator::append`. -/
def FactIterator.append (first second : FactIterator) : FactIterator :=
  AppendIterator first second

/-- The loop of `FilterIterator::get`: skip facts that are not visible. -/
def filterLoop (base : FactIterator) (visible : Id → Bool) (demand : Demand)
    : Nat → base.State → Option (Option Fact × base.State)
  | 0, _ => none
  | rounds + 1, state =>
      (base.get demand state).bind fun (shown, after) =>
        match shown with
        | none => some (none, after)
        | some fact =>
            if visible fact.id then
              some (some fact, after)
            else
              (base.next after).bind (filterLoop base visible demand rounds)

/-- `FilterIterator`. Its `next` advances the base without looking for a visible fact. -/
def FilterIterator (base : FactIterator) (visible : Id → Bool) : FactIterator where
  State := base.State
  state := base.state
  get := fun demand state => filterLoop base visible demand (base.size state + 1) state
  next := base.next
  size := base.size

/-- `FactIterator::filter`. -/
def FactIterator.filter (base : FactIterator) (visible : Id → Bool) : FactIterator :=
  FilterIterator base visible

/-- The iterator of `Snapshot::seek`: a fact at or above the boundary is reported as the
end.
-/
def SnapshotIterator (base : FactIterator) (boundary : Id) : FactIterator where
  State := base.State
  state := base.state
  get := fun demand state =>
    (base.get demand state).map fun (shown, after) =>
      (shown.filter (fun fact => fact.id < boundary), after)
  next := base.next
  size := base.size

end Glean.RTS
