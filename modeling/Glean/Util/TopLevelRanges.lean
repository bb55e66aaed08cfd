import Mathlib.Data.Prod.Lex
import Mathlib.Order.Compare
import Glean.Library.Intervals
import Glean.Util.SourceRange

/-! Ranges that no other range of a list contains (`topLevelRanges` in `Glean.Util.Range`). -/

namespace Glean.Util
open GroupedInterval

/-- `compareLineCol` -/
def compareLineCol {A : Type} (line col : A → Nat) (a b : A) : Ordering :=
  (compare (line a) (line b)).then (compare (col a) (col b))

/-- `rangeContains` -/
def rangeContains (big small : SrcRange) : Bool :=
  big.file = small.file
  && compareLineCol SrcRange.lineBegin SrcRange.columnBegin big small ≠ .gt
  && compareLineCol SrcRange.lineEnd SrcRange.columnEnd small big ≠ .gt

/-- `compareRange`: by file, ascending begin and descending end. -/
def compareRange (r1 r2 : SrcRange) : Ordering :=
  (compare r1.file.id r2.file.id).then
    ((compareLineCol SrcRange.lineBegin SrcRange.columnBegin r1 r2).then
      (compareLineCol SrcRange.lineEnd SrcRange.columnEnd r2 r1))

section Items

variable {A : Type}

/-- `groupBy` compares each element with the first one of the group. -/
def groupBy (eq : A → A → Bool) : List A → List (List A)
  | [] => []
  | x :: xs => (x :: xs.takeWhile (eq x)) :: groupBy eq (xs.dropWhile (eq x))
termination_by xs => xs.length
decreasing_by exact Nat.lt_succ_of_le (List.length_dropWhile_le _ _)

/-- `sortBy` is a stable merge sort. -/
def sortBy (cmp : A → A → Ordering) (xs : List A) : List A :=
  xs.mergeSort fun a b => cmp a b ≠ .gt

/-- `topLevelRanges` -/
def topLevelRanges (f : A → SrcRange) (items : List A) : List A :=
  (groupBy (fun a b => rangeContains (f a) (f b))
    (sortBy (fun a b => compareRange (f a) (f b)) items)).filterMap List.head?

/-- What a range covers: the fact of its file and its positions. -/
def place (range : SrcRange) : GroupedInterval Nat (Nat ×ₗ Nat) where
  group := range.file.id
  first := toLex (range.lineBegin, range.columnBegin)
  last := toLex (range.lineEnd, range.columnEnd)

theorem compareLineCol_ne_gt_iff {line col : A → Nat} {a b : A}
    : compareLineCol line col a b ≠ .gt ↔ toLex (line a, col a) ≤ toLex (line b, col b) := by
  rw [compareLineCol, Ne, Ordering.then_eq_gt, Prod.Lex.toLex_le_toLex, compare_gt_iff_gt,
    compare_gt_iff_gt, compare_eq_iff_eq]
  constructor
  · intro notAfter
    simp only
    omega
  · intro before
    simp only at before
    omega

theorem rangeContains_iff {big small : SrcRange}
    : rangeContains big small = true
      ↔ (place big).Contains (place small) ∧ big.file = small.file := by
  rw [rangeContains, Bool.and_eq_true, Bool.and_eq_true, decide_eq_true_eq, decide_eq_true_eq,
    decide_eq_true_eq, compareLineCol_ne_gt_iff, compareLineCol_ne_gt_iff]
  constructor
  · rintro ⟨⟨sameFile, begins⟩, ends⟩
    exact ⟨⟨congrArg File.id sameFile, begins, ends⟩, sameFile⟩
  · rintro ⟨⟨_, begins, ends⟩, sameFile⟩
    exact ⟨⟨sameFile, begins⟩, ends⟩

theorem compareLineCol_eq_iff {line col : A → Nat} {a b : A}
    : compareLineCol line col a b = .eq ↔ toLex (line a, col a) = toLex (line b, col b) := by
  rw [compareLineCol, Ordering.then_eq_eq, compare_eq_iff_eq, compare_eq_iff_eq, toLex_inj,
    Prod.mk.injEq]

theorem compareLineCol_eq_gt_iff {line col : A → Nat} {a b : A}
    : compareLineCol line col a b = .gt ↔ toLex (line b, col b) < toLex (line a, col a) := by
  rw [← not_le, ← compareLineCol_ne_gt_iff, not_not]

theorem compareRange_ne_gt_iff {r1 r2 : SrcRange}
    : compareRange r1 r2 ≠ .gt ↔ (place r1).Le (place r2) := by
  rw [compareRange, Ne, Ordering.then_eq_gt, Ordering.then_eq_gt, compare_gt_iff_gt,
    compare_eq_iff_eq, compareLineCol_eq_gt_iff, compareLineCol_eq_iff, compareLineCol_eq_gt_iff,
    not_or, not_and, not_or, not_and, not_lt, not_lt, not_lt]
  constructor
  · rintro ⟨groups, starts⟩
    rcases lt_or_eq_of_le groups with less | same
    · exact .inl less
    · obtain ⟨first, ends⟩ := starts same
      rcases lt_or_eq_of_le first with less | equal
      · exact .inr ⟨same, .inl less⟩
      · exact .inr ⟨same, .inr ⟨equal, ends equal⟩⟩
  · exact fun le => ⟨le.group_le, fun same => ⟨le.first_le same, le.last_le same⟩⟩

theorem compareRange_eq_lt_iff {r1 r2 : SrcRange}
    : compareRange r1 r2 = .lt ↔ (place r1).Lt (place r2) := by
  rw [GroupedInterval.Lt, ← compareRange_ne_gt_iff]
  have equal : compareRange r1 r2 = .eq ↔ place r1 = place r2 := by
    rw [compareRange, Ordering.then_eq_eq, Ordering.then_eq_eq, compare_eq_iff_eq,
      compareLineCol_eq_iff, compareLineCol_eq_iff, place, place, GroupedInterval.mk.injEq]
    exact and_congr_right fun _ => and_congr_right fun _ => eq_comm
  rw [Ne, Ne, ← equal]
  cases compareRange r1 r2 <;> simp

theorem heads_groupBy (eq : A → A → Bool) (xs : List A)
    : (groupBy eq xs).filterMap List.head? = heads eq xs := by
  induction xs using groupBy.induct eq with
  | case1 => rw [groupBy, heads, List.filterMap_nil]
  | case2 x xs ih =>
      rw [groupBy, heads]
      exact congrArg (List.cons x) ih

variable {f : A → SrcRange} {items : List A}

theorem sorted_sortBy (f : A → SrcRange) (items : List A)
    : (sortBy (fun a b => compareRange (f a) (f b)) items).Pairwise fun left right =>
        (place (f left)).Le (place (f right)) := by
  have sorted : (sortBy (fun a b => compareRange (f a) (f b)) items).Pairwise fun a b =>
      decide (compareRange (f a) (f b) ≠ .gt) = true := by
    refine List.pairwise_mergeSort (fun a b c => ?_) (fun a b => ?_) items
    · simp only [decide_eq_true_eq, compareRange_ne_gt_iff]
      exact Le.trans
    · simp only [Bool.or_eq_true, decide_eq_true_eq, compareRange_ne_gt_iff]
      exact Le.total _ _
  exact sorted.imp fun le => compareRange_ne_gt_iff.mp (of_decide_eq_true le)

theorem mem_sortBy (f : A → SrcRange) (items : List A) (item : A)
    : item ∈ sortBy (fun a b => compareRange (f a) (f b)) items ↔ item ∈ items :=
  List.mem_mergeSort

theorem isTops_topLevelRanges_iff
    : IsTops (fun item => place (f item)) items (topLevelRanges f items)
      ↔ SameTags (fun item => place (f item)) (fun item => (f item).file) items := by
  rw [topLevelRanges, heads_groupBy, ← isTops_congr (mem_sortBy f items),
    ← sameTags_congr (mem_sortBy f items)]
  have related (left right : A) : rangeContains (f left) (f right) = true
      ↔ (place (f left)).Contains (place (f right)) ∧ (f left).file = (f right).file :=
    rangeContains_iff
  exact isTops_heads_iff related (sorted_sortBy f items)

/-- A range is strictly inside another one of its file. -/
def StrictlyInside (small big : SrcRange) : Prop :=
  (place big).Contains (place small) ∧ place big ≠ place small

/-- The ranges that are not strictly inside another one, each once and in order, whatever the
order of the list.
-/
structure IsTopLevel (f : A → SrcRange) (items : List A) : Prop where
  among : ∀ top ∈ topLevelRanges f items, top ∈ items
  maximal : ∀ top ∈ topLevelRanges f items, ∀ item ∈ items, ¬ StrictlyInside (f top) (f item)
  all : ∀ item ∈ items, (∀ other ∈ items, ¬ StrictlyInside (f item) (f other)) →
    ∃ top ∈ topLevelRanges f items, place (f top) = place (f item)
  apart : (topLevelRanges f items).Pairwise fun left right =>
    ¬ (place (f left)).Contains (place (f right)) ∧ ¬ (place (f right)).Contains (place (f left))
  covers : ∀ item ∈ items, ∃ top ∈ topLevelRanges f items,
    (place (f top)).Contains (place (f item))
  ordered : (topLevelRanges f items).Pairwise fun left right =>
    compareRange (f left) (f right) = .lt
  independent : ∀ others, others.Perm items →
    (topLevelRanges f others).map (fun item => place (f item))
      = (topLevelRanges f items).map (fun item => place (f item))

/-- The range of an item is, of all ranges around another one that are not strictly inside others,
the one that begins last.
-/
def IsEnclosing (f : A → SrcRange) (items : List A) (around item : A) : Prop :=
  IsLastAround (fun item => place (f item)) items (place (f around)) (place (f item))

theorem isMaximal_iff {range : SrcRange}
    : IsMaximal (fun item => place (f item)) items (place range)
      ↔ ∀ item ∈ items, ¬ StrictlyInside range (f item) := by
  refine forall_congr' fun item => forall_congr' fun member => ?_
  rw [StrictlyInside, not_and, not_not]

/-- The ranges are the maximal ones exactly if each of them gives its file as the ranges inside do
for which it is the enclosing one.
-/
theorem topLevelRanges_maximal_iff (f : A → SrcRange) (items : List A)
    : IsTopLevel f items
      ↔ ∀ item ∈ items, ∀ around ∈ items, IsEnclosing f items around item →
          (f around).file = (f item).file := by
  constructor
  · intro isTopLevel
    refine isTops_topLevelRanges_iff.mp ⟨isTopLevel.among, ?_, ?_, ?_⟩
    · exact fun top isTop => isMaximal_iff.mpr (isTopLevel.maximal top isTop)
    · exact fun item member maximal => isTopLevel.all item member (isMaximal_iff.mp maximal)
    · exact isTopLevel.ordered.imp fun less => compareRange_eq_lt_iff.mp less
  · intro sameFiles
    have isTops := isTops_topLevelRanges_iff.mpr sameFiles
    have maximal top (isTop : top ∈ topLevelRanges f items) :=
      isMaximal_iff.mp (isTops.isMaximal top isTop)
    refine ⟨isTops.among, maximal, ?_, ?_, ?_, ?_, ?_⟩
    · exact fun item member notInside => isTops.all item member (isMaximal_iff.mpr notInside)
    · refine isTops.ordered.imp_of_mem fun {left right} isLeft isRight less => ⟨?_, ?_⟩
      · intro contains
        have isAmong := isTops.among left isLeft
        exact less.2 (isTops.isMaximal right isRight left isAmong contains)
      · intro contains
        have isAmong := isTops.among right isRight
        exact less.2 (isTops.isMaximal left isLeft right isAmong contains).symm
    · intro item member
      let interval := fun item => place (f item)
      have related (left right : A) (contains : rangeContains (f left) (f right) = true)
          : (interval left).Contains (interval right) :=
        (rangeContains_iff.mp contains).1
      rw [topLevelRanges, heads_groupBy]
      exact exists_head_contains related ((mem_sortBy f items item).mpr member)
    · exact isTops.ordered.imp fun less => compareRange_eq_lt_iff.mpr less
    · intro others perm
      have same := fun item => perm.mem_iff (a := item)
      have isTopsOthers := isTops_topLevelRanges_iff.mpr ((sameTags_congr same).mpr sameFiles)
      exact ((isTops_congr same).mp isTopsOthers).unique isTops

end Items

/-- Two ranges inside another one, where the first gives the key of the file as well. -/
def mixedFiles : List SrcRange :=
  [⟨⟨1024, none⟩, 1, 1, 10, 1⟩, ⟨⟨1024, some "A.hs"⟩, 2, 1, 3, 1⟩, ⟨⟨1024, none⟩, 4, 1, 5, 1⟩]

theorem topLevelRanges_mixedFiles : topLevelRanges id mixedFiles = mixedFiles := by
  have sorted : sortBy (fun a b => compareRange (id a) (id b)) mixedFiles = mixedFiles :=
    List.mergeSort_of_pairwise (by decide)
  rw [topLevelRanges, sorted]
  simp [mixedFiles, groupBy, rangeContains, compareLineCol]

theorem mixedFiles_not_topLevel : ¬ IsTopLevel id mixedFiles := by
  intro isTopLevel
  have maximal := isTopLevel.maximal ⟨⟨1024, none⟩, 4, 1, 5, 1⟩
    (by rw [topLevelRanges_mixedFiles]; simp [mixedFiles]) ⟨⟨1024, none⟩, 1, 1, 10, 1⟩
    (by simp [mixedFiles])
  refine maximal ⟨⟨rfl, by decide, by decide⟩, fun same => ?_⟩
  exact absurd (congrArg (fun one => (ofLex one.first).1) same) (by decide)

end Glean.Util
