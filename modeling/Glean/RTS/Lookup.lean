import Glean.Library.SortedMap
import Glean.RTS.Binary
import Glean.RTS.IteratorYields

/-! The lookup interface and its combinators (`lookup.h`, `stacked.h`).
A lookup object is the record of its operations; combinators are functions on such records.
-/

namespace Glean.RTS

/-- An interval of `size_t` bounds. -/
structure Interval where
  low : Nat
  high : Nat
  deriving DecidableEq

namespace Interval

def sizeMax : Nat := 2 ^ 64 - 1

def exactly (n : Nat) : Interval := ⟨n, n⟩

def satAdd (x y : Nat) : Nat :=
  if sizeMax - x < y then sizeMax else x + y

def add (left right : Interval) : Interval :=
  ⟨satAdd left.low right.low, satAdd left.high right.high⟩

def asHigh (interval : Interval) : Interval := ⟨0, interval.high⟩

end Interval

/-- `Lookup`. The callback of `factById` receives the type and the clause of the fact. -/
structure Lookup where
  idByKey : Pid → Bytes → Id
  typeById : Id → Pid
  factById : Id → Option (Pid × Clause)
  startingId : Id
  firstFreeId : Id
  count : Pid → Interval
  enumerate : Id → Id → FactIterator
  enumerateBack : Id → Id → FactIterator
  seek : Pid → Bytes → Nat → FactIterator

/-- `EmptyLookup`. -/
def EmptyLookup : Lookup where
  idByKey _ _ := Id.invalid
  typeById _ := Pid.invalid
  factById _ := none
  startingId := Id.lowest
  firstFreeId := Id.lowest
  count _ := .exactly 0
  enumerate _ _ := EmptyIterator
  enumerateBack _ _ := EmptyIterator
  seek _ _ _ := EmptyIterator

/-- `upto ? std::min(upto, boundary()) : boundary()` -/
def clampTo (boundary upto : Id) : Id :=
  if upto ≠ Id.invalid then min upto boundary else boundary

/-- `Snapshot`: the facts of `base` with ids below `boundary`. -/
def Snapshot (base : Lookup) (boundary : Id) : Lookup where
  idByKey type key :=
    let id := base.idByKey type key
    if id < boundary then id else Id.invalid
  typeById id := if id < boundary then base.typeById id else Pid.invalid
  factById id := if id < boundary then base.factById id else none
  startingId := min base.startingId boundary
  firstFreeId := min boundary base.firstFreeId
  count pid := (base.count pid).asHigh
  enumerate first upto :=
    if boundary ≤ first then
      EmptyIterator
    else
      base.enumerate first (clampTo boundary upto)
  -- The source enumerates the base forwards here.
  enumerateBack first downto :=
    if boundary ≤ downto then
      EmptyIterator
    else
      base.enumerate (clampTo boundary first) downto
  seek type start prefixSize := SnapshotIterator (base.seek type start prefixSize) boundary

/-- `StackedBase`: a lookup on top of `base`, whose facts count below the starting id of the
upper lookup only.
-/
def Stacked (base stacked : Lookup) : Lookup :=
  let mid := stacked.startingId
  { idByKey := fun type key =>
      let id := stacked.idByKey type key
      if id ≠ Id.invalid then
        id
      else
        let bid := base.idByKey type key
        if bid < mid then bid else Id.invalid
    typeById := fun id => if id < mid then base.typeById id else stacked.typeById id
    factById := fun id => if id < mid then base.factById id else stacked.factById id
    startingId := base.startingId
    firstFreeId := stacked.firstFreeId
    count := fun pid => (base.count pid).add (stacked.count pid)
    enumerate := fun first upto =>
      if first < mid then
        if upto ≠ Id.invalid ∧ upto ≤ mid then
          base.enumerate first upto
        else
          FactIterator.append (base.enumerate first mid) (stacked.enumerate mid upto)
      else
        stacked.enumerate first upto
    enumerateBack := fun first downto =>
      if first ≠ Id.invalid ∧ first ≤ mid then
        base.enumerateBack first downto
      else if mid ≤ downto then
        stacked.enumerateBack first downto
      else
        FactIterator.append (stacked.enumerateBack first mid) (base.enumerateBack mid downto)
    seek := fun type start prefixSize =>
      FactIterator.merge ((Snapshot base mid).seek type start prefixSize)
        (stacked.seek type start prefixSize) prefixSize }

/-- Ids from `first` up to and not including `upto`; an absent bound is `Id.invalid`. -/
def InRange (first upto id : Id) : Prop :=
  first ≤ id ∧ (upto = Id.invalid ∨ id < upto)

instance (first upto id : Id) : Decidable (InRange first upto id) :=
  inferInstanceAs (Decidable (_ ∧ _))

/-- The facts of a list with ids in a range. -/
def factsInRange (facts : List Fact) (first upto : Id) : List Fact :=
  facts.filter (fun fact => InRange first upto fact.id)

theorem mem_factsInRange {facts : List Fact} {first upto : Id} {fact : Fact}
    : fact ∈ factsInRange facts first upto ↔ fact ∈ facts ∧ InRange first upto fact.id := by
  simp [factsInRange]

theorem factsInRange_eq_nil {facts : List Fact} {first upto : Id}
    (outside : ∀ fact ∈ facts, ¬ InRange first upto fact.id)
    : factsInRange facts first upto = [] :=
  List.eq_nil_iff_forall_not_mem.mpr (fun fact member =>
    outside fact (mem_factsInRange.mp member).1 (mem_factsInRange.mp member).2)

/-- Without bounds a range is all of the facts. -/
theorem factsInRange_unbounded (facts : List Fact)
    : factsInRange facts Id.invalid Id.invalid = facts :=
  List.filter_eq_self.mpr (fun _ _ => decide_eq_true ⟨Nat.zero_le _, Or.inl rfl⟩)

/-- Ranges with swapped bounds have no id in common, unless both bounds are absent. -/
theorem inRange_swap {first upto id : Id} (bounded : first ≠ Id.invalid ∨ upto ≠ Id.invalid)
    (inside : InRange first upto id)
    : ¬ InRange upto first id := by
  simp only [InRange, Id.invalid] at *
  lia

/-- Ranges with swapped bounds hold the same facts only if they hold none. -/
theorem factsInRange_swap_iff {facts : List Fact} {first upto : Id}
    (bounded : first ≠ Id.invalid ∨ upto ≠ Id.invalid)
    : factsInRange facts first upto = (factsInRange facts upto first).reverse
      ↔ ∀ fact ∈ facts, ¬ InRange first upto fact.id ∧ ¬ InRange upto first fact.id := by
  constructor
  · intro equal fact member
    have alike : fact ∈ factsInRange facts first upto
        ↔ fact ∈ (factsInRange facts upto first).reverse := by rw [equal]
    rw [List.mem_reverse, mem_factsInRange, mem_factsInRange] at alike
    refine ⟨fun inside => ?_, fun inside => ?_⟩
    · exact inRange_swap bounded inside (alike.mp ⟨member, inside⟩).2
    · exact inRange_swap bounded (alike.mpr ⟨member, inside⟩).2 inside
  · intro nothing
    rw [factsInRange_eq_nil (fun fact member => (nothing fact member).1),
      factsInRange_eq_nil (fun fact member => (nothing fact member).2)]
    rfl

/-- The positions of a map by keys that a prefix seek goes through, from `lower_bound(start)`
up to the bound of the prefix.
-/
def seekEntries {V : Type} (map : SortedMap Bytes V) (start : Bytes) (prefixSize : Nat)
    : List (Bytes × V) :=
  let next := lexicographicallyNext (start.take prefixSize)
  (map.entries.dropWhile (fun entry => entry.1 < start)).takeWhile
    (fun entry => next = [] ∨ entry.1 < next)

/-- Since the map is sorted, the positions are the entries that the seek looks for. -/
theorem seekEntries_eq {V : Type} (map : SortedMap Bytes V) (start : Bytes) (prefixSize : Nat)
    : seekEntries map start prefixSize
      = map.entries.filter (fun entry => start.Matches prefixSize entry.1) := by
  unfold seekEntries
  dsimp only
  rw [takeWhile_dropWhile_eq_filter]
  · refine List.filter_congr (fun entry _ => ?_)
    rw [Bool.eq_iff_iff]
    simp only [Bool.and_eq_true, Bool.not_eq_eq_eq_not, Bool.not_true, decide_eq_true_eq,
      decide_eq_false_iff_not, not_lt, Bytes.matches_iff]
  · refine map.sorted.imp (fun less below => ?_)
    simpa using less.trans (by simpa using below)
  · refine map.sorted.imp (fun less below => ?_)
    rcases of_decide_eq_true below with unbounded | inside
    · simp [unbounded]
    · simp [less.trans inside]

/-- The listed facts are exactly those of `facts` that a prefix seek looks for, each once and
in ascending key order.
-/
structure IsSeek (facts : Set Fact) (type : Pid) (start : Bytes) (prefixSize : Nat)
    (answer : List Fact)
    : Prop where
  ascending : answer.Pairwise (fun left right => left.key < right.key)
  mem_iff
    : ∀ fact, fact ∈ answer
        ↔ fact ∈ facts ∧ fact.type = type ∧ start.Matches prefixSize fact.key

/-- A seek has one answer, since ascending lists with the same members are equal. -/
theorem IsSeek.unique {facts : Set Fact} {type : Pid} {start : Bytes} {prefixSize : Nat}
    {left right : List Fact} (isLeft : IsSeek facts type start prefixSize left)
    (isRight : IsSeek facts type start prefixSize right)
    : left = right :=
  eq_of_ascending isLeft.ascending isRight.ascending
    (fun fact => (isLeft.mem_iff fact).trans (isRight.mem_iff fact).symm)

/-- Every prefix seek of the lookup answers for the set of facts. -/
def Lookup.Seeks (protocol : Cursor.Protocol) (lookup : Lookup) (facts : Set Fact) : Prop :=
  ∀ type start prefixSize, prefixSize ≤ start.length →
    ∃ answer, (lookup.seek type start prefixSize).Yields protocol answer
      ∧ IsSeek facts type start prefixSize answer

end Glean.RTS
