import Glean.Library.IntervalSet
import Glean.RTS.Define

/-! Substituting the ids of ranges of facts (`Substitution::substIntervals`). -/

namespace Glean.RTS

open IntervalSet

-- Definitions

namespace Substitution

section Definitions

variable (sets : Sets) (subst : Substitution)

/-- The ids that are added for a range, one by one. -/
def images (start finish : Id) : List Span :=
  (List.range' start (finish + 1 - start)).map (fun id => .singleton (subst.subst id))

/-- The loop `for (Id id = start; id <= finish; ++id)`. It does not end if `finish` is the last word. -/
def addImages (set : sets.Carrier) (start finish : Id) : Option sets.Carrier :=
  if finish + 1 < 2 ^ 64 then
    some (sets.addAll set (subst.images start finish))
  else
    none

/-- The loop over a list of ranges; a failed check ends the process. -/
def addIntervals (set : sets.Carrier) : List Id → Option sets.Carrier
  | [] => some set
  | [_] => none
  | start :: finish :: rest =>
      if start ≤ finish then
        if finish < subst.base then
          addIntervals (sets.add set (.rightOpen start finish)) rest
        else
          (subst.addImages sets set start finish).bind (fun set => addIntervals set rest)
      else
        none

/-- `substIntervals` on a list of ranges. The result has the raw ends of the segments. -/
def substIntervals (intervals : List Id) : Option (List Id) :=
  (subst.addIntervals sets sets.empty intervals).map (fun set =>
    (sets.segments set).flatMap (fun segment => [segment.left.value, segment.right.value]))

/-- The loop of the overload over the segments of a set. -/
def addSegments (set : sets.Carrier) : List Span → Option sets.Carrier
  | [] => some set
  | segment :: rest =>
      if segment.right.value < subst.base then
        addSegments (sets.add set segment) rest
      else
        (subst.addImages sets set segment.left.value segment.right.value).bind (fun set =>
          addSegments set rest)

/-- `substIntervals` on an interval set. -/
def substIntervalSet (intervals : sets.Carrier) : Option sets.Carrier :=
  subst.addSegments sets sets.empty (sets.segments intervals)

end Definitions

-- What is added

/-- A list of ranges. -/
def ranges (pairs : List (Id × Id)) : List Id :=
  pairs.flatMap (fun pair => [pair.1, pair.2])

/-- The intervals that are added for a range. -/
def added (subst : Substitution) (pair : Id × Id) : List Span :=
  if pair.2 < subst.base then
    [.rightOpen pair.1 pair.2]
  else
    subst.images pair.1 pair.2

variable {sets : Sets} {subst : Substitution} {pairs : List (Id × Id)} {pair : Id × Id}

theorem subst_of_lt {id : Id} (low : id < subst.base) : subst.subst id = id :=
  if_neg (fun inside => Nat.not_lt.mpr inside.1 low)

/-- A range that reaches the base ends before the last word. -/
def Ends (subst : Substitution) (pair : Id × Id) : Prop :=
  pair.2 < subst.base ∨ pair.2 + 1 < 2 ^ 64

theorem addIntervals_ranges (set : sets.Carrier) (ordered : ∀ pair ∈ pairs, pair.1 ≤ pair.2)
    (ends : ∀ pair ∈ pairs, subst.Ends pair)
    : subst.addIntervals sets set (ranges pairs) = some (sets.addAll set (pairs.flatMap subst.added)) := by
  induction pairs generalizing set with
  | nil => rfl
  | cons pair rest ih =>
      have restOrdered := fun other member => ordered other (List.mem_cons_of_mem _ member)
      have restEnds := fun other member => ends other (List.mem_cons_of_mem _ member)
      change addIntervals sets subst set (pair.1 :: pair.2 :: ranges rest) = _
      rw [addIntervals, if_pos (ordered pair List.mem_cons_self), List.flatMap_cons, Sets.addAll,
        List.foldl_append, added]
      split
      next => exact ih _ restOrdered restEnds
      next notBelow =>
        have isEnd := (ends pair List.mem_cons_self).resolve_left notBelow
        rw [addImages, if_pos isEnd]
        exact ih _ restOrdered restEnds

/-- A range that reaches the base and ends in the last word is never done. -/
theorem addIntervals_endless (set : sets.Carrier) (member : pair ∈ pairs) (endless : ¬ subst.Ends pair)
    : subst.addIntervals sets set (ranges pairs) = none := by
  induction pairs generalizing set with
  | nil => cases member
  | cons head rest ih =>
      change addIntervals sets subst set (head.1 :: head.2 :: ranges rest) = none
      rw [addIntervals]
      split
      next =>
        rcases List.mem_cons.mp member with rfl | isRest
        · rw [Ends, not_or] at endless
          rw [if_neg endless.1, addImages, if_neg endless.2]
          rfl
        · split
          next => exact ih _ isRest
          next =>
            cases subst.addImages sets set head.1 head.2 with
            | none => rfl
            | some after => exact ih after isRest
      next => rfl

theorem contains_rightOpen {lower upper id : Id}
    : (Span.rightOpen lower upper).Contains id ↔ lower ≤ id ∧ id < upper :=
  Iff.rfl

theorem contains_singleton {element id : Id} : (Span.singleton element).Contains id ↔ id = element := by
  change element ≤ id ∧ id < element + 1 ↔ id = element
  lia

theorem mem_images {start finish : Id} {span : Span}
    : span ∈ subst.images start finish
      ↔ ∃ source, start ≤ source ∧ source ≤ finish ∧ span = .singleton (subst.subst source) := by
  constructor
  · intro member
    obtain ⟨source, isSource, rfl⟩ := List.mem_map.mp member
    obtain ⟨least, most⟩ := List.mem_range'_1.mp isSource
    exact ⟨source, least, by lia, rfl⟩
  · rintro ⟨source, least, most, rfl⟩
    exact List.mem_map.mpr ⟨source, List.mem_range'_1.mpr ⟨least, by lia⟩, rfl⟩

theorem contains_images {start finish id : Id}
    : (∃ span ∈ subst.images start finish, span.Contains id)
      ↔ ∃ source, start ≤ source ∧ source ≤ finish ∧ id = subst.subst source := by
  constructor
  · rintro ⟨span, member, inside⟩
    obtain ⟨source, least, most, rfl⟩ := mem_images.mp member
    exact ⟨source, least, most, contains_singleton.mp inside⟩
  · rintro ⟨source, least, most, rfl⟩
    exact ⟨_, mem_images.mpr ⟨source, least, most, rfl⟩, contains_singleton.mpr rfl⟩

theorem contains_added {id : Id}
    : (∃ interval ∈ subst.added pair, interval.Contains id)
      ↔ if pair.2 < subst.base then pair.1 ≤ id ∧ id < pair.2
        else ∃ source, pair.1 ≤ source ∧ source ≤ pair.2 ∧ id = subst.subst source := by
  rw [added]
  split
  next => simp [contains_rightOpen]
  next => exact contains_images

-- Images

/-- An id that an id of some range is mapped to. -/
def Image (subst : Substitution) (pairs : List (Id × Id)) (id : Id) : Prop :=
  ∃ pair ∈ pairs, ∃ source, pair.1 ≤ source ∧ source ≤ pair.2 ∧ id = subst.subst source

/-- The result is sorted, disjoint, and has the images of all ids. -/
def IsImage (subst : Substitution) (pairs : List (Id × Id)) (result : Option (List Id)) : Prop :=
  ∃ images, result = some (ranges images) ∧ (∀ image ∈ images, image.1 ≤ image.2)
    ∧ images.Pairwise (fun one other => one.2 < other.1)
    ∧ ∀ id, (∃ image ∈ images, image.1 ≤ id ∧ id ≤ image.2) ↔ subst.Image pairs id

/-- An id of a range that reaches the base is mapped to this id. -/
def FromAbove (subst : Substitution) (pairs : List (Id × Id)) (id : Id) : Prop :=
  ∃ pair ∈ pairs, subst.base ≤ pair.2 ∧ ∃ source, pair.1 ≤ source ∧ source ≤ pair.2
    ∧ id = subst.subst source

/-- An id is in the set to which ranges are added without their ends. -/
def Inside (subst : Substitution) (pairs : List (Id × Id)) (id : Id) : Prop :=
  subst.FromAbove pairs id ∨ ∃ pair ∈ pairs, pair.2 < subst.base ∧ pair.1 ≤ id ∧ id < pair.2

/-- The end of a range below the base is still in the result: it is inside of another one, or it is
the open end of a segment that no image has closed.
-/
def EndKept (subst : Substitution) (pairs : List (Id × Id)) (finish : Id) : Prop :=
  subst.Inside pairs finish
    ∨ (∃ pair ∈ pairs, pair.2 = finish ∧ pair.1 < finish) ∧ ¬ subst.FromAbove pairs (finish - 1)

/-- The end of a range below the base is the only id of all ranges that have it. -/
def EndLost (subst : Substitution) (pairs : List (Id × Id)) (finish : Id) : Prop :=
  ¬ subst.Inside pairs finish ∧ ∀ pair ∈ pairs, pair.2 = finish → pair.1 = finish

section Images

variable {id : Id}

theorem mem_addAll_added
    : sets.Mem (sets.addAll sets.empty (pairs.flatMap subst.added)) id ↔ subst.Inside pairs id := by
  have noneBefore : ¬ sets.Mem sets.empty id := by
    rintro ⟨segment, member, -⟩
    rw [sets.segments_empty] at member
    cases member
  rw [sets.mem_addAll, or_iff_right noneBefore]
  constructor
  · rintro ⟨interval, member, inside⟩
    obtain ⟨pair, isPair, isAdded⟩ := List.mem_flatMap.mp member
    have contained := contains_added.mp ⟨interval, isAdded, inside⟩
    split at contained
    next below => exact .inr ⟨pair, isPair, below, contained⟩
    next above => exact .inl ⟨pair, isPair, Nat.le_of_not_lt above, contained⟩
  · rintro (⟨pair, isPair, above, image⟩ | ⟨pair, isPair, below, inside⟩)
    · obtain ⟨interval, isAdded, contains⟩ := contains_added.mpr
        (by rw [if_neg (Nat.not_lt.mpr above)]; exact image)
      exact ⟨interval, List.mem_flatMap.mpr ⟨pair, isPair, isAdded⟩, contains⟩
    · obtain ⟨interval, isAdded, contains⟩ := contains_added.mpr (by rw [if_pos below]; exact inside)
      exact ⟨interval, List.mem_flatMap.mpr ⟨pair, isPair, isAdded⟩, contains⟩

/-- The ends of the segments: they start at an element, and stop behind an image of an id of a range
that reaches the base, or before the end of a range below it.
-/
theorem ends_added {segment : Span}
    (member : segment ∈ sets.segments (sets.addAll sets.empty (pairs.flatMap subst.added)))
    : segment.left.closed = true
      ∧ (segment.right.closed = true ∧ subst.FromAbove pairs segment.right.value
        ∨ segment.right.closed = false ∧ ∃ pair ∈ pairs, pair.2 < subst.base
          ∧ pair.2 = segment.right.value ∧ pair.1 < pair.2) := by
  obtain ⟨left, right⟩ := sets.ends_addAll member
  have noneBefore : ∀ {same : Span → Prop}, ¬ ∃ old ∈ sets.segments sets.empty, same old := by
    rintro same ⟨old, isOld, -⟩
    rw [sets.segments_empty] at isOld
    cases isOld
  obtain ⟨leftSpan, isLeft, -, sameLeft⟩ := left.resolve_right noneBefore
  obtain ⟨rightSpan, isRight, some_, sameRight⟩ := right.resolve_right noneBefore
  obtain ⟨leftPair, -, leftAdded⟩ := List.mem_flatMap.mp isLeft
  obtain ⟨pair, isPair, rightAdded⟩ := List.mem_flatMap.mp isRight
  rw [sameLeft, sameRight]
  refine ⟨?_, ?_⟩
  · rw [added] at leftAdded
    split at leftAdded
    next =>
      rw [List.mem_singleton.mp leftAdded]
      rfl
    next =>
      obtain ⟨_, _, _, rfl⟩ := mem_images.mp leftAdded
      rfl
  · rw [added] at rightAdded
    split at rightAdded
    next below =>
      obtain rfl := List.mem_singleton.mp rightAdded
      exact .inr ⟨rfl, pair, isPair, below, rfl, some_⟩
    next above =>
      obtain ⟨source, least, most, rfl⟩ := mem_images.mp rightAdded
      exact .inl ⟨rfl, pair, isPair, Nat.le_of_not_lt above, source, least, most, rfl⟩

theorem image_of_inside (inside : subst.Inside pairs id) : subst.Image pairs id := by
  rcases inside with ⟨pair, isPair, -, image⟩ | ⟨pair, isPair, below, least, less⟩
  · exact ⟨pair, isPair, image⟩
  · exact ⟨pair, isPair, id, least, less.le, (subst_of_lt (less.trans below)).symm⟩

theorem image_cases (image : subst.Image pairs id)
    : subst.Inside pairs id ∨ ∃ pair ∈ pairs, pair.2 < subst.base ∧ pair.2 = id := by
  obtain ⟨pair, isPair, source, least, most, rfl⟩ := image
  by_cases below : pair.2 < subst.base
  · rw [subst_of_lt (most.trans_lt below)]
    rcases most.lt_or_eq with less | same
    · exact .inl (.inr ⟨pair, isPair, below, least, less⟩)
    · exact .inr ⟨pair, isPair, below, same.symm⟩
  · exact .inl (.inl ⟨pair, isPair, Nat.le_of_not_lt below, source, least, most, rfl⟩)

end Images

-- Lists of ranges

/-- The raw ends of the segments. -/
def rawEnds (sets : Sets) (subst : Substitution) (pairs : List (Id × Id)) : List (Id × Id) :=
  (sets.segments (sets.addAll sets.empty (pairs.flatMap subst.added))).map
    (fun segment => (segment.left.value, segment.right.value))

theorem ranges_injective {one other : List (Id × Id)} (same : ranges one = ranges other) : one = other := by
  induction one generalizing other with
  | nil =>
      cases other with
      | nil => rfl
      | cons pair rest => cases same
  | cons pair rest ih =>
      cases other with
      | nil => cases same
      | cons otherPair otherRest =>
          obtain ⟨isFirst, same⟩ := List.cons.inj same
          obtain ⟨isSecond, same⟩ := List.cons.inj same
          rw [ih same, Prod.ext isFirst isSecond]

theorem substIntervals_ranges (ordered : ∀ pair ∈ pairs, pair.1 ≤ pair.2)
    (ends : ∀ pair ∈ pairs, subst.Ends pair)
    : subst.substIntervals sets (ranges pairs) = some (ranges (rawEnds sets subst pairs)) := by
  rw [substIntervals, addIntervals_ranges sets.empty ordered ends, rawEnds, ranges, List.flatMap_map]
  rfl

section Segments

variable {segment : Span}

/-- Reading both ends as closed adds the open end of a range below the base. -/
theorem between_ends
    (member : segment ∈ sets.segments (sets.addAll sets.empty (pairs.flatMap subst.added))) {id : Id}
    : segment.left.value ≤ id ∧ id ≤ segment.right.value
      ↔ segment.Contains id ∨ segment.right.closed = false ∧ id = segment.right.value := by
  obtain ⟨leftClosed, right⟩ := ends_added member
  have some_ := sets.nonempty _ segment member
  rw [Span.first, if_pos leftClosed] at some_
  rw [Span.Contains, Span.first, if_pos leftClosed]
  rcases right with ⟨isClosed, -⟩ | ⟨isOpen, -⟩
  · rw [Span.stop, isClosed] at some_ ⊢
    simp only [if_true, Bool.true_eq_false, false_and, or_false] at some_ ⊢
    lia
  · rw [Span.stop, isOpen] at some_ ⊢
    simp only [Bool.false_eq_true, if_false, true_and] at some_ ⊢
    lia

theorem rawEnds_ordered : ∀ image ∈ rawEnds sets subst pairs, image.1 ≤ image.2 := by
  intro image isImage
  obtain ⟨segment, member, rfl⟩ := List.mem_map.mp isImage
  have some_ := sets.nonempty _ segment member
  have isFirst := (between_ends member).mpr (.inl ⟨le_rfl, some_⟩)
  exact isFirst.1.trans isFirst.2

theorem rawEnds_sorted : (rawEnds sets subst pairs).Pairwise (fun one other => one.2 < other.1) := by
  refine List.pairwise_map.mpr ((sets.separate _).imp_of_mem ?_)
  intro one other isOne isOther separate
  obtain ⟨-, right⟩ := ends_added isOne
  obtain ⟨leftClosed, -⟩ := ends_added isOther
  obtain ⟨before, notTouching⟩ := separate
  rw [Span.first, if_pos leftClosed] at before
  rcases right with ⟨isClosed, -⟩ | ⟨isOpen, -⟩
  · rw [Span.stop, if_pos isClosed] at before
    exact before
  · rw [Span.stop, if_neg (by rw [isOpen]; exact Bool.false_ne_true)] at before
    exact lt_of_le_of_ne before (notTouching isOpen leftClosed)

/-- All ids of the result are images. -/
theorem rawEnds_image {id : Id}
    (isResult : ∃ image ∈ rawEnds sets subst pairs, image.1 ≤ id ∧ id ≤ image.2)
    : subst.Inside pairs id ∨ ∃ pair ∈ pairs, pair.2 < subst.base ∧ pair.2 = id ∧ pair.1 < pair.2 := by
  obtain ⟨image, isImage, between⟩ := isResult
  obtain ⟨segment, member, rfl⟩ := List.mem_map.mp isImage
  rcases (between_ends member).mp between with inside | ⟨isOpen, rfl⟩
  · exact .inl (mem_addAll_added.mp ⟨segment, member, inside⟩)
  · rcases (ends_added member).2 with ⟨isClosed, -⟩ | ⟨-, pair, isPair, below, isEnd, less⟩
    · rw [isOpen] at isClosed
      cases isClosed
    · exact .inr ⟨pair, isPair, below, isEnd, less⟩

theorem image_rawEnds_of_inside {id : Id} (inside : subst.Inside pairs id)
    : ∃ image ∈ rawEnds sets subst pairs, image.1 ≤ id ∧ id ≤ image.2 := by
  obtain ⟨segment, member, contains⟩ := mem_addAll_added.mpr inside
  exact ⟨_, List.mem_map_of_mem member, (between_ends member).mpr (.inl contains)⟩

/-- The end of a range below the base is in the result if the number before it is the last element
of a segment that ends openly.
-/
theorem image_rawEnds_of_end {finish : Id} (below : finish < subst.base)
    (kept : subst.EndKept pairs finish)
    : ∃ image ∈ rawEnds sets subst pairs, image.1 ≤ finish ∧ finish ≤ image.2 := by
  rcases kept with inside | ⟨⟨pair, isPair, rfl, less⟩, notAbove⟩
  · exact image_rawEnds_of_inside inside
  · have inside : subst.Inside pairs (pair.2 - 1) := .inr ⟨pair, isPair, below, by lia, by lia⟩
    obtain ⟨segment, member, contains⟩ := mem_addAll_added.mpr inside
    refine ⟨_, List.mem_map_of_mem member, (between_ends member).mpr ?_⟩
    by_cases further : pair.2 < segment.stop
    · exact .inl ⟨contains.1.trans (Nat.sub_le _ _), further⟩
    · have isStop : segment.stop = pair.2 := by
        have isLess := contains.2
        lia
      rcases (ends_added member).2 with ⟨isClosed, fromAbove⟩ | ⟨isOpen, -⟩
      · rw [Span.stop, if_pos isClosed] at isStop
        rw [← isStop, Nat.add_sub_cancel] at notAbove
        exact absurd fromAbove notAbove
      · rw [Span.stop, if_neg (by rw [isOpen]; exact Bool.false_ne_true)] at isStop
        exact .inr ⟨isOpen, isStop.symm⟩

end Segments

theorem isImage_of_kept (ordered : ∀ pair ∈ pairs, pair.1 ≤ pair.2)
    (ends : ∀ pair ∈ pairs, subst.Ends pair)
    (kept : ∀ pair ∈ pairs, pair.2 < subst.base → subst.EndKept pairs pair.2)
    : subst.IsImage pairs (subst.substIntervals sets (ranges pairs)) := by
  refine ⟨_, substIntervals_ranges ordered ends, rawEnds_ordered, rawEnds_sorted, fun id => ?_⟩
  constructor
  · intro isResult
    rcases rawEnds_image isResult with inside | ⟨pair, isPair, below, rfl, -⟩
    · exact image_of_inside inside
    · exact ⟨pair, isPair, pair.2, ordered pair isPair, le_rfl, (subst_of_lt below).symm⟩
  · intro image
    rcases image_cases image with inside | ⟨pair, isPair, below, rfl⟩
    · exact image_rawEnds_of_inside inside
    · exact image_rawEnds_of_end below (kept pair isPair below)

theorem not_isImage_of_lost (ordered : ∀ pair ∈ pairs, pair.1 ≤ pair.2) (member : pair ∈ pairs)
    (lost : ¬ subst.Ends pair ∨ pair.2 < subst.base ∧ subst.EndLost pairs pair.2)
    : ¬ subst.IsImage pairs (subst.substIntervals sets (ranges pairs)) := by
  rintro ⟨images, isResult, -, -, all⟩
  by_cases ends : ∀ pair ∈ pairs, subst.Ends pair
  · obtain ⟨below, notInside, onlyId⟩ := lost.resolve_left (fun endless => endless (ends pair member))
    rw [substIntervals_ranges ordered ends] at isResult
    rw [← ranges_injective (Option.some.inj isResult)] at all
    have isImage : subst.Image pairs pair.2 :=
      ⟨pair, member, pair.2, ordered pair member, le_rfl, (subst_of_lt below).symm⟩
    rcases rawEnds_image ((all pair.2).mpr isImage) with inside | ⟨other, isOther, -, isEnd, less⟩
    · exact notInside inside
    · rw [onlyId other isOther isEnd, isEnd] at less
      exact Nat.lt_irrefl _ less
  · push Not at ends
    obtain ⟨other, isOther, endless⟩ := ends
    rw [substIntervals, addIntervals_endless sets.empty isOther endless] at isResult
    cases isResult

-- Interval sets

/-- The result has the images of all ids of a set. -/
def IsSetImage (sets : Sets) (subst : Substitution) (set : sets.Carrier) (result : Option sets.Carrier)
    : Prop :=
  ∃ images, result = some images
    ∧ ∀ id, sets.Mem images id ↔ ∃ source, sets.Mem set source ∧ id = subst.subst source

/-- A segment that reaches the base ends before the last word, and if one of its ends is not in it,
its image is one of another id of the set.
-/
def SegmentOk (sets : Sets) (subst : Substitution) (set : sets.Carrier) (segment : Span) : Prop :=
  segment.right.value < subst.base
    ∨ segment.right.value + 1 < 2 ^ 64
      ∧ ∀ end_, end_ = segment.left.value ∨ end_ = segment.right.value →
        ∃ source, sets.Mem set source ∧ subst.subst end_ = subst.subst source

/-- The intervals that are added for a segment. -/
def addedFor (subst : Substitution) (segment : Span) : List Span :=
  if segment.right.value < subst.base then
    [segment]
  else
    subst.images segment.left.value segment.right.value

section Overload

variable {segments : List Span} {segment : Span}

theorem addSegments_eq (set : sets.Carrier)
    (ends : ∀ segment ∈ segments, segment.right.value < subst.base ∨ segment.right.value + 1 < 2 ^ 64)
    : subst.addSegments sets set segments
      = some (sets.addAll set (segments.flatMap subst.addedFor)) := by
  induction segments generalizing set with
  | nil => rfl
  | cons segment rest ih =>
      have restEnds := fun other member => ends other (List.mem_cons_of_mem _ member)
      rw [addSegments, List.flatMap_cons, Sets.addAll, List.foldl_append, addedFor]
      split
      next => exact ih _ restEnds
      next notBelow =>
        rw [addImages, if_pos ((ends segment List.mem_cons_self).resolve_left notBelow)]
        exact ih _ restEnds

theorem addSegments_endless (set : sets.Carrier) (member : segment ∈ segments)
    (endless : ¬ (segment.right.value < subst.base ∨ segment.right.value + 1 < 2 ^ 64))
    : subst.addSegments sets set segments = none := by
  induction segments generalizing set with
  | nil => cases member
  | cons head rest ih =>
      rw [addSegments]
      rcases List.mem_cons.mp member with rfl | isRest
      · rw [not_or] at endless
        rw [if_neg endless.1, addImages, if_neg endless.2]
        rfl
      · split
        next => exact ih _ isRest
        next =>
          cases subst.addImages sets set head.left.value head.right.value with
          | none => rfl
          | some after => exact ih after isRest

/-- The elements of a segment are between its ends. -/
theorem between_of_contains {id : Id} (contains : segment.Contains id)
    : segment.left.value ≤ id ∧ id ≤ segment.right.value := by
  obtain ⟨least, most⟩ := contains
  rw [Span.first] at least
  rw [Span.stop] at most
  split at least <;> split at most <;> lia

/-- What is between the ends of a segment is in it, or is an end. -/
theorem contains_of_between {id : Id} (least : segment.left.value ≤ id) (most : id ≤ segment.right.value)
    : segment.Contains id ∨ id = segment.left.value ∨ id = segment.right.value := by
  rw [Span.Contains, Span.first, Span.stop]
  split <;> split <;> lia

theorem contains_addedFor {id : Id}
    : (∃ span ∈ subst.addedFor segment, span.Contains id)
      ↔ if segment.right.value < subst.base then segment.Contains id
        else ∃ source, segment.left.value ≤ source ∧ source ≤ segment.right.value
          ∧ id = subst.subst source := by
  rw [addedFor]
  split
  next => simp
  next => exact contains_images

theorem isSetImage_iff (set : sets.Carrier)
    : IsSetImage sets subst set (subst.substIntervalSet sets set)
      ↔ ∀ segment ∈ sets.segments set, SegmentOk sets subst set segment := by
  have noneBefore : ∀ id, ¬ sets.Mem sets.empty id := by
    rintro id ⟨segment, member, -⟩
    rw [sets.segments_empty] at member
    cases member
  constructor
  · rintro ⟨images, isResult, all⟩ segment member
    rw [SegmentOk]
    by_cases ends : ∀ segment ∈ sets.segments set,
        segment.right.value < subst.base ∨ segment.right.value + 1 < 2 ^ 64
    · refine or_iff_not_imp_left.mpr (fun notBelow => ⟨(ends segment member).resolve_left notBelow, ?_⟩)
      intro end_ isEnd
      rw [substIntervalSet, addSegments_eq sets.empty ends] at isResult
      refine (all (subst.subst end_)).mp ?_
      rw [← Option.some.inj isResult, sets.mem_addAll]
      have some_ := sets.nonempty set segment member
      have isFirst : segment.left.value ≤ segment.first ∧ segment.first ≤ segment.right.value :=
        between_of_contains ⟨le_rfl, some_⟩
      obtain ⟨span, isSpan, contains⟩ : ∃ span ∈ subst.addedFor segment,
          span.Contains (subst.subst end_) := by
        rw [contains_addedFor, if_neg notBelow]
        exact ⟨end_, by lia, by lia, rfl⟩
      exact .inr ⟨span, List.mem_flatMap.mpr ⟨segment, member, isSpan⟩, contains⟩
    · push Not at ends
      obtain ⟨other, isOther, endless⟩ := ends
      rw [substIntervalSet, addSegments_endless sets.empty isOther
        (fun isEnd => isEnd.elim (fun below => Nat.not_le.mpr below endless.1)
          (fun less => Nat.not_le.mpr less endless.2))] at isResult
      cases isResult
  · intro ok
    refine ⟨_, addSegments_eq sets.empty (fun segment member => (ok segment member).imp_right And.left),
      fun id => ?_⟩
    rw [sets.mem_addAll, or_iff_right (noneBefore id)]
    constructor
    · rintro ⟨span, isSpan, contains⟩
      obtain ⟨segment, member, isAdded⟩ := List.mem_flatMap.mp isSpan
      have contained := contains_addedFor.mp ⟨span, isAdded, contains⟩
      split at contained
      next below =>
        have most := (between_of_contains contained).2
        exact ⟨id, ⟨segment, member, contained⟩, (subst_of_lt (most.trans_lt below)).symm⟩
      next notBelow =>
        obtain ⟨source, least, most, rfl⟩ := contained
        rcases contains_of_between least most with inside | isEnd
        · exact ⟨source, ⟨segment, member, inside⟩, rfl⟩
        · exact ((ok segment member).resolve_left notBelow).2 source isEnd
    · rintro ⟨source, ⟨segment, member, inside⟩, rfl⟩
      obtain ⟨least, most⟩ := between_of_contains inside
      obtain ⟨span, isSpan, contains⟩ : ∃ span ∈ subst.addedFor segment,
          span.Contains (subst.subst source) := by
        rw [contains_addedFor]
        split
        next below => rwa [subst_of_lt (most.trans_lt below)]
        next => exact ⟨source, least, most, rfl⟩
      exact ⟨span, List.mem_flatMap.mpr ⟨segment, member, isSpan⟩, contains⟩

end Overload

-- When the result is the image

/-- For ranges, the result is the image if the ends of all ranges below the base are kept, and it is
not if one is lost. For interval sets, it is the image exactly if all segments are as they should be.
-/
theorem substIntervals_isImage (sets : Sets) (subst : Substitution) (pairs : List (Id × Id))
    (ordered : ∀ pair ∈ pairs, pair.1 ≤ pair.2) (set : sets.Carrier)
    : ((∀ pair ∈ pairs, subst.Ends pair ∧ (pair.2 < subst.base → subst.EndKept pairs pair.2)) →
        subst.IsImage pairs (subst.substIntervals sets (ranges pairs)))
      ∧ ((∃ pair ∈ pairs, ¬ subst.Ends pair ∨ pair.2 < subst.base ∧ subst.EndLost pairs pair.2) →
        ¬ subst.IsImage pairs (subst.substIntervals sets (ranges pairs)))
      ∧ (IsSetImage sets subst set (subst.substIntervalSet sets set)
        ↔ ∀ segment ∈ sets.segments set, SegmentOk sets subst set segment) := by
  refine ⟨fun kept => ?_, ?_, isSetImage_iff set⟩
  · exact isImage_of_kept ordered (fun pair member => (kept pair member).1)
      (fun pair member => (kept pair member).2)
  · rintro ⟨pair, member, lost⟩
    exact not_isImage_of_lost ordered member lost

/-- A range below the base and one that is renamed. -/
theorem substIntervals_isImage_twoRanges
    : (∀ pair ∈ [((1000 : Id), (1010 : Id)), (1024, 1025)], pair.1 ≤ pair.2)
      ∧ IsImage ⟨1024, [1030, 1020]⟩ [(1000, 1010), (1024, 1025)]
        (substIntervals segmentSets ⟨1024, [1030, 1020]⟩ (ranges [(1000, 1010), (1024, 1025)])) := by
  have ordered : ∀ pair ∈ [((1000 : Id), (1010 : Id)), (1024, 1025)], pair.1 ≤ pair.2 := by decide
  refine ⟨ordered, (substIntervals_isImage segmentSets ⟨1024, [1030, 1020]⟩ _ ordered
    segmentSets.empty).1 (fun pair member => ?_)⟩
  rcases List.mem_cons.mp member with rfl | isSecond
  · refine ⟨.inl (by decide), fun _ => .inr ⟨⟨_, member, rfl, by decide⟩, ?_⟩⟩
    rintro ⟨other, isOther, above, source, least, most, isImage⟩
    rcases List.mem_cons.mp isOther with rfl | isLast
    · exact absurd above (by decide)
    · obtain rfl := List.mem_singleton.mp isLast
      change 1024 ≤ source at least
      change source ≤ 1025 at most
      obtain rfl | rfl : source = 1024 ∨ source = 1025 := by lia
      · exact absurd isImage (by decide)
      · exact absurd isImage (by decide)
  · obtain rfl := List.mem_singleton.mp isSecond
    exact ⟨.inr (by decide), fun below => absurd below (by decide)⟩

/-- A single id below the base is lost. And: the end of a half-open interval is renamed with it. -/
theorem substIntervals_not_image
    : ¬ IsImage ⟨1024, [1030, 1020]⟩ [(1000, 1000)]
        (substIntervals segmentSets ⟨1024, [1030, 1020]⟩ (ranges [(1000, 1000)]))
      ∧ ¬ IsSetImage segmentSets ⟨1024, [1030, 1020]⟩
        (segmentSets.add segmentSets.empty (.rightOpen 1024 1025))
        (substIntervalSet segmentSets ⟨1024, [1030, 1020]⟩
          (segmentSets.add segmentSets.empty (.rightOpen 1024 1025))) := by
  constructor
  · rintro ⟨images, isResult, -, -, all⟩
    have isEmpty : images = [] := by
      cases images with
      | nil => rfl
      | cons image rest => cases isResult
    obtain ⟨image, member, -⟩ := (all 1000).mpr
      ⟨(1000, 1000), List.mem_singleton_self _, 1000, le_rfl, le_rfl, rfl⟩
    rw [isEmpty] at member
    cases member
  · rintro ⟨images, isResult, all⟩
    cases isResult
    obtain ⟨source, ⟨segment, member, inside⟩, isImage⟩ := (all 1020).mp ⟨_, List.mem_cons_self,
      by decide, by decide⟩
    obtain rfl := List.mem_singleton.mp member
    obtain ⟨least, most⟩ := contains_rightOpen.mp inside
    obtain rfl : source = 1024 := by lia
    exact absurd isImage (by decide)

end Substitution

end Glean.RTS
