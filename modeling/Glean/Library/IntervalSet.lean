import Mathlib.Data.List.Basic
import Mathlib.Order.Lattice

/-! Sets of numbers as lists of intervals whose ends may be open or closed. Adding an interval joins it
with those that it overlaps or touches.
-/

namespace Glean.IntervalSet

/-- An end of an interval, and whether it is in it. -/
structure End where
  value : Nat
  closed : Bool
  deriving DecidableEq

structure Span where
  left : End
  right : End
  deriving DecidableEq

namespace Span

/-- The default bounds. -/
def rightOpen (lower upper : Nat) : Span :=
  ⟨⟨lower, true⟩, ⟨upper, false⟩⟩

def singleton (element : Nat) : Span :=
  ⟨⟨element, true⟩, ⟨element, true⟩⟩

/-- The first element, if there is one. -/
def first (interval : Span) : Nat :=
  if interval.left.closed then interval.left.value else interval.left.value + 1

/-- The number after the last element. -/
def stop (interval : Span) : Nat :=
  if interval.right.closed then interval.right.value + 1 else interval.right.value

def Contains (interval : Span) (element : Nat) : Prop :=
  interval.first ≤ element ∧ element < interval.stop

def hull (one other : Span) : Span where
  left := if one.first < other.first then one.left else other.left
  right := if one.stop < other.stop then other.right else one.right

theorem first_hull (one other : Span) : (one.hull other).first = min one.first other.first := by
  by_cases less : one.first < other.first
  · rw [min_eq_left less.le, first, hull, if_pos less]
    rfl
  · rw [min_eq_right (Nat.le_of_not_lt less), first, hull, if_neg less]
    rfl

theorem stop_hull (one other : Span) : (one.hull other).stop = max one.stop other.stop := by
  by_cases less : one.stop < other.stop
  · rw [max_eq_right less.le, stop, hull, if_pos less]
    rfl
  · rw [max_eq_left (Nat.le_of_not_lt less), stop, hull, if_neg less]
    rfl

end Span

/-- One segment comes before another one, and does not touch it. -/
def Separate (one other : Span) : Prop :=
  one.stop ≤ other.first ∧ (one.right.closed = false → other.left.closed = true →
    one.right.value ≠ other.left.value)

/-- What a library of interval sets promises: the elements of a set are those of the intervals that
were added, its segments are not empty and separate, and their ends are those of added intervals.
-/
structure Sets where
  Carrier : Type
  empty : Carrier
  add : Carrier → Span → Carrier
  segments : Carrier → List Span
  segments_empty : segments empty = []
  contains_add
    : ∀ set interval element, (∃ segment ∈ segments (add set interval), segment.Contains element)
        ↔ (∃ segment ∈ segments set, segment.Contains element) ∨ interval.Contains element
  nonempty : ∀ set, ∀ segment ∈ segments set, segment.first < segment.stop
  separate : ∀ set, (segments set).Pairwise Separate
  left_add
    : ∀ set interval, ∀ segment ∈ segments (add set interval),
        (interval.first < interval.stop ∧ segment.left = interval.left)
          ∨ ∃ old ∈ segments set, segment.left = old.left
  right_add
    : ∀ set interval, ∀ segment ∈ segments (add set interval),
        (interval.first < interval.stop ∧ segment.right = interval.right)
          ∨ ∃ old ∈ segments set, segment.right = old.right

namespace Sets

variable (sets : Sets)

def Mem (set : sets.Carrier) (element : Nat) : Prop :=
  ∃ segment ∈ sets.segments set, segment.Contains element

def addAll (set : sets.Carrier) (intervals : List Span) : sets.Carrier :=
  intervals.foldl sets.add set

theorem mem_addAll (set : sets.Carrier) (intervals : List Span) (element : Nat)
    : sets.Mem (sets.addAll set intervals) element
      ↔ sets.Mem set element ∨ ∃ interval ∈ intervals, interval.Contains element := by
  induction intervals generalizing set with
  | nil => simp [addAll]
  | cons interval intervals ih =>
      have isAdded : sets.Mem (sets.add set interval) element
          ↔ sets.Mem set element ∨ interval.Contains element := sets.contains_add set interval element
      rw [addAll, List.foldl_cons]
      change sets.Mem (sets.addAll _ intervals) element ↔ _
      rw [ih, isAdded, or_assoc, List.exists_mem_cons_iff]

/-- The ends of segments are ends of intervals that were added. -/
theorem ends_addAll {set : sets.Carrier} {intervals : List Span} {segment : Span}
    (member : segment ∈ sets.segments (sets.addAll set intervals))
    : ((∃ interval ∈ intervals, interval.first < interval.stop ∧ segment.left = interval.left)
        ∨ ∃ old ∈ sets.segments set, segment.left = old.left)
      ∧ ((∃ interval ∈ intervals, interval.first < interval.stop ∧ segment.right = interval.right)
        ∨ ∃ old ∈ sets.segments set, segment.right = old.right) := by
  induction intervals generalizing set with
  | nil => exact ⟨.inr ⟨segment, member, rfl⟩, .inr ⟨segment, member, rfl⟩⟩
  | cons interval intervals ih =>
      obtain ⟨left, right⟩ := ih member
      constructor
      · rcases left with ⟨other, isOther, rest⟩ | ⟨old, isOld, isLeft⟩
        · exact .inl ⟨other, List.mem_cons_of_mem _ isOther, rest⟩
        · rcases sets.left_add set interval old isOld with ⟨some_, same⟩ | ⟨older, isOlder, same⟩
          · exact .inl ⟨interval, List.mem_cons_self, some_, isLeft.trans same⟩
          · exact .inr ⟨older, isOlder, isLeft.trans same⟩
      · rcases right with ⟨other, isOther, rest⟩ | ⟨old, isOld, isRight⟩
        · exact .inl ⟨other, List.mem_cons_of_mem _ isOther, rest⟩
        · rcases sets.right_add set interval old isOld with ⟨some_, same⟩ | ⟨older, isOlder, same⟩
          · exact .inl ⟨interval, List.mem_cons_self, some_, isRight.trans same⟩
          · exact .inr ⟨older, isOlder, isRight.trans same⟩

end Sets

/-- Segments in order, with a number between each two of them. -/
structure Segments where
  list : List Span
  nonempty : ∀ segment ∈ list, segment.first < segment.stop
  apart : list.Pairwise (fun one other => one.stop < other.first)

/-- Join an interval with the segments that it overlaps or touches. -/
def insert : List Span → Span → List Span
  | [], interval => [interval]
  | segment :: rest, interval =>
      if segment.stop < interval.first then segment :: insert rest interval
      else if interval.stop < segment.first then interval :: segment :: rest
      else insert rest (interval.hull segment)

variable {list : List Span} {interval segment : Span}

theorem contains_insert (nonempty : ∀ segment ∈ list, segment.first < segment.stop)
    (some_ : interval.first < interval.stop) (element : Nat)
    : (∃ segment ∈ insert list interval, segment.Contains element)
      ↔ (∃ segment ∈ list, segment.Contains element) ∨ interval.Contains element := by
  induction list generalizing interval with
  | nil => simp [insert]
  | cons segment rest ih =>
      have segmentSome := nonempty segment List.mem_cons_self
      have restSome := fun other member => nonempty other (List.mem_cons_of_mem _ member)
      rw [insert]
      split
      next => rw [List.exists_mem_cons_iff, ih restSome some_, List.exists_mem_cons_iff, or_assoc]
      next notBefore =>
        split
        next => rw [List.exists_mem_cons_iff, or_comm]
        next notAfter =>
          have isHull : (interval.hull segment).Contains element
              ↔ segment.Contains element ∨ interval.Contains element := by
            simp only [Span.Contains, Span.first_hull, Span.stop_hull]
            omega
          have hullSome : (interval.hull segment).first < (interval.hull segment).stop := by
            rw [Span.first_hull, Span.stop_hull]
            omega
          rw [ih restSome hullSome, isHull, List.exists_mem_cons_iff, or_assoc, or_left_comm]

/-- Where the segments of the result begin and end. -/
theorem ends_insert (member : segment ∈ insert list interval)
    : (segment.left = interval.left ∨ ∃ old ∈ list, segment.left = old.left)
      ∧ (segment.right = interval.right ∨ ∃ old ∈ list, segment.right = old.right) := by
  induction list generalizing interval with
  | nil =>
      obtain rfl := List.mem_singleton.mp member
      exact ⟨.inl rfl, .inl rfl⟩
  | cons head rest ih =>
      have later : ∀ {same : Span → Prop}, (∃ old ∈ rest, same old) → ∃ old ∈ head :: rest, same old :=
        fun ⟨old, isOld, isSame⟩ => ⟨old, List.mem_cons_of_mem _ isOld, isSame⟩
      rw [insert] at member
      split at member
      next =>
        rcases List.mem_cons.mp member with rfl | isRest
        · exact ⟨.inr ⟨segment, List.mem_cons_self, rfl⟩, .inr ⟨segment, List.mem_cons_self, rfl⟩⟩
        · obtain ⟨left, right⟩ := ih isRest
          exact ⟨left.imp_right later, right.imp_right later⟩
      next =>
        split at member
        next =>
          rcases List.mem_cons.mp member with rfl | isOld
          · exact ⟨.inl rfl, .inl rfl⟩
          · exact ⟨.inr ⟨segment, isOld, rfl⟩, .inr ⟨segment, isOld, rfl⟩⟩
        next =>
          obtain ⟨left, right⟩ := ih member
          constructor
          · rcases left with isHull | older
            · rw [isHull, Span.hull]
              dsimp only
              split
              · exact .inl rfl
              · exact .inr ⟨head, List.mem_cons_self, rfl⟩
            · exact .inr (later older)
          · rcases right with isHull | older
            · rw [isHull, Span.hull]
              dsimp only
              split
              · exact .inr ⟨head, List.mem_cons_self, rfl⟩
              · exact .inl rfl
            · exact .inr (later older)

theorem apart_insert (nonempty : ∀ segment ∈ list, segment.first < segment.stop)
    (apart : list.Pairwise (fun one other => one.stop < other.first))
    (some_ : interval.first < interval.stop)
    : (insert list interval).Pairwise (fun one other => one.stop < other.first)
      ∧ (∀ segment ∈ insert list interval, segment.first < segment.stop)
      ∧ ∀ bound, bound < interval.first → (∀ segment ∈ list, bound < segment.first) →
        ∀ segment ∈ insert list interval, bound < segment.first := by
  induction list generalizing interval with
  | nil =>
      refine ⟨List.pairwise_singleton _ _, fun segment member => ?_, fun bound less _ segment member => ?_⟩
      · rwa [List.mem_singleton.mp member]
      · rwa [List.mem_singleton.mp member]
  | cons head rest ih =>
      obtain ⟨headApart, restApart⟩ := List.pairwise_cons.mp apart
      have restSome := fun other member => nonempty other (List.mem_cons_of_mem _ member)
      rw [insert]
      split
      next before =>
        obtain ⟨isApart, isSome, isBound⟩ := ih restSome restApart some_
        refine ⟨List.pairwise_cons.mpr ⟨isBound head.stop before headApart, isApart⟩, ?_, ?_⟩
        · intro segment member
          rcases List.mem_cons.mp member with rfl | isRest
          · exact nonempty segment List.mem_cons_self
          · exact isSome segment isRest
        · intro bound less all segment member
          rcases List.mem_cons.mp member with rfl | isRest
          · exact all segment List.mem_cons_self
          · exact isBound bound less (fun other isOther => all other (List.mem_cons_of_mem _ isOther))
              segment isRest
      next notBefore =>
        split
        next after =>
          refine ⟨List.pairwise_cons.mpr ⟨fun segment member => ?_, apart⟩, ?_, ?_⟩
          · rcases List.mem_cons.mp member with rfl | isRest
            · exact after
            · have headSome := nonempty head List.mem_cons_self
              have less := headApart segment isRest
              omega
          · intro segment member
            rcases List.mem_cons.mp member with rfl | isOld
            · exact some_
            · exact nonempty segment isOld
          · intro bound less all segment member
            rcases List.mem_cons.mp member with rfl | isOld
            · exact less
            · exact all segment isOld
        next notAfter =>
          have headSome := nonempty head List.mem_cons_self
          have hullSome : (interval.hull head).first < (interval.hull head).stop := by
            rw [Span.first_hull, Span.stop_hull]
            omega
          obtain ⟨isApart, isSome, isBound⟩ := ih restSome restApart hullSome
          refine ⟨isApart, isSome, fun bound less all => isBound bound ?_ ?_⟩
          · have headLess := all head List.mem_cons_self
            rw [Span.first_hull]
            omega
          · exact fun other isOther => all other (List.mem_cons_of_mem _ isOther)

def Segments.add (segments : Segments) (interval : Span) : Segments :=
  if some_ : interval.first < interval.stop then
    have result := apart_insert segments.nonempty segments.apart some_
    ⟨insert segments.list interval, result.2.1, result.1⟩
  else
    segments

/-- Lists of segments are interval sets. -/
def segmentSets : Sets where
  Carrier := Segments
  empty := ⟨[], by rintro _ ⟨⟩, .nil⟩
  add := Segments.add
  segments := Segments.list
  segments_empty := rfl
  contains_add set interval element := by
    rw [Segments.add]
    split
    next some_ => exact contains_insert set.nonempty some_ element
    next empty =>
      refine (or_iff_left (fun inside => empty ?_)).symm
      exact inside.1.trans_lt inside.2
  nonempty set := set.nonempty
  separate set := by
    refine set.apart.imp (fun {one other} less => ⟨less.le, fun isOpen isClosed same => ?_⟩)
    rw [Span.stop, Span.first, isOpen, isClosed] at less
    simp only [Bool.false_eq_true, if_false, if_true] at less
    omega
  left_add set interval segment member := by
    rw [Segments.add] at member
    split at member
    next some_ => exact (ends_insert member).1.imp_left (fun same => ⟨some_, same⟩)
    next => exact .inr ⟨segment, member, rfl⟩
  right_add set interval segment member := by
    rw [Segments.add] at member
    split at member
    next some_ => exact (ends_insert member).2.imp_left (fun same => ⟨some_, same⟩)
    next => exact .inr ⟨segment, member, rfl⟩

end Glean.IntervalSet
