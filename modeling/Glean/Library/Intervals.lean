import Mathlib.Data.List.Nodup
import Mathlib.Data.List.TakeWhile
import Mathlib.Order.Defs.LinearOrder
import Mathlib.Tactic.Common
import Glean.Library.Byte

/-! Closed intervals in several groups, ordered by group, ascending start and descending end. The
maximal ones of a sorted list are the first elements of its runs of intervals that the first
one of the run contains.
-/

structure GroupedInterval (K P : Type*) where
  group : K
  first : P
  last : P

namespace GroupedInterval

variable {K P : Type*} [LinearOrder K] [LinearOrder P]

def Contains {K : Type*} (big small : GroupedInterval K P) : Prop :=
  big.group = small.group ∧ big.first ≤ small.first ∧ small.last ≤ big.last

/-- Order by group, ascending start and descending end. -/
def Le (left right : GroupedInterval K P) : Prop :=
  left.group < right.group
  ∨ left.group = right.group
    ∧ (left.first < right.first ∨ left.first = right.first ∧ right.last ≤ left.last)

def Lt (left right : GroupedInterval K P) : Prop := left.Le right ∧ left ≠ right

variable {one two three : GroupedInterval K P}

theorem Le.refl (one : GroupedInterval K P) : one.Le one := .inr ⟨rfl, .inr ⟨rfl, le_refl _⟩⟩

theorem Le.group_le (le : one.Le two) : one.group ≤ two.group := by
  rcases le with less | ⟨same, _⟩
  · exact le_of_lt less
  · exact le_of_eq same

theorem Le.first_le (le : one.Le two) (same : one.group = two.group) : one.first ≤ two.first := by
  rcases le with less | ⟨_, less | ⟨equal, _⟩⟩
  · exact absurd same (ne_of_lt less)
  · exact le_of_lt less
  · exact le_of_eq equal

theorem Le.last_le (le : one.Le two) (same : one.group = two.group)
    (starts : one.first = two.first)
    : two.last ≤ one.last := by
  rcases le with less | ⟨_, less | ⟨_, ends⟩⟩
  · exact absurd same (ne_of_lt less)
  · exact absurd starts (ne_of_lt less)
  · exact ends

theorem Le.trans (oneTwo : one.Le two) (twoThree : two.Le three) : one.Le three := by
  rcases lt_or_eq_of_le (le_trans oneTwo.group_le twoThree.group_le) with less | same
  · exact .inl less
  · have middle : one.group = two.group := le_antisymm oneTwo.group_le (same ▸ twoThree.group_le)
    have later : two.group = three.group := middle.symm.trans same
    have start := oneTwo.first_le middle
    have startLater := twoThree.first_le later
    refine .inr ⟨same, ?_⟩
    rcases lt_or_eq_of_le (le_trans start startLater) with less | starts
    · exact .inl less
    · have starts' : one.first = two.first := le_antisymm start (starts ▸ startLater)
      have ends := oneTwo.last_le middle starts'
      have endsLater := twoThree.last_le later (starts'.symm.trans starts)
      exact .inr ⟨starts, le_trans endsLater ends⟩

theorem Le.antisymm (oneTwo : one.Le two) (twoOne : two.Le one) : one = two := by
  have groups := le_antisymm oneTwo.group_le twoOne.group_le
  have starts := le_antisymm (oneTwo.first_le groups) (twoOne.first_le groups.symm)
  have ends := le_antisymm (twoOne.last_le groups.symm starts.symm) (oneTwo.last_le groups starts)
  cases one
  cases two
  simp_all

theorem Le.total (one two : GroupedInterval K P) : one.Le two ∨ two.Le one := by
  rcases lt_trichotomy one.group two.group with less | same | greater
  · exact .inl (.inl less)
  · rcases lt_trichotomy one.first two.first with less | starts | greater
    · exact .inl (.inr ⟨same, .inl less⟩)
    · rcases le_total two.last one.last with ends | ends
      · exact .inl (.inr ⟨same, .inr ⟨starts, ends⟩⟩)
      · exact .inr (.inr ⟨same.symm, .inr ⟨starts.symm, ends⟩⟩)
    · exact .inr (.inr ⟨same.symm, .inl greater⟩)
  · exact .inr (.inl greater)

theorem Lt.trans_le (less : one.Lt two) (le : two.Le three) : one.Lt three := by
  refine ⟨less.1.trans le, ?_⟩
  rintro rfl
  exact less.2 (less.1.antisymm le)

theorem Contains.refl {K : Type*} (one : GroupedInterval K P) : one.Contains one :=
  ⟨rfl, le_refl _, le_refl _⟩

theorem Contains.trans {K : Type*} {one two three : GroupedInterval K P}
    (outer : one.Contains two) (inner : two.Contains three)
    : one.Contains three :=
  ⟨outer.1.trans inner.1, le_trans outer.2.1 inner.2.1, le_trans inner.2.2 outer.2.2⟩

theorem Contains.le (contains : one.Contains two) : one.Le two := by
  refine .inr ⟨contains.1, ?_⟩
  rcases lt_or_eq_of_le contains.2.1 with less | starts
  · exact .inl less
  · exact .inr ⟨starts, contains.2.2⟩

/-- An interval behind another one that does not contain it contains whatever both precede and the
first one contains.
-/
theorem Contains.of_between (outer : one.Contains three) (oneTwo : one.Le two)
    (twoThree : two.Le three) (apart : ¬ one.Contains two)
    : two.Contains three := by
  have groups : one.group = two.group :=
    le_antisymm oneTwo.group_le (outer.1 ▸ twoThree.group_le)
  have groups' : two.group = three.group := groups.symm.trans outer.1
  refine ⟨groups', twoThree.first_le groups', le_trans outer.2.2 ?_⟩
  by_contra shorter
  exact apart ⟨groups, oneTwo.first_le groups, le_of_lt (not_le.mp shorter)⟩

section Items

variable {A T : Type*} (interval : A → GroupedInterval K P) (tag : A → T)

def IsMaximal (items : List A) (one : GroupedInterval K P) : Prop :=
  ∀ item ∈ items, (interval item).Contains one → interval item = one

/-- Of the maximal intervals around an interval the one that starts last. -/
structure IsLastAround (items : List A) (around one : GroupedInterval K P) : Prop where
  isMaximal : IsMaximal interval items around
  contains : around.Contains one
  last : ∀ item ∈ items, IsMaximal interval items (interval item) →
    (interval item).Contains one → (interval item).first ≤ around.first

/-- Every interval has the tag of the last maximal interval around it. -/
def SameTags (items : List A) : Prop :=
  ∀ item ∈ items, ∀ around ∈ items,
    IsLastAround interval items (interval around) (interval item) → tag around = tag item

/-- Each maximal interval once, in order. -/
structure IsTops (items tops : List A) : Prop where
  among : ∀ item ∈ tops, item ∈ items
  isMaximal : ∀ item ∈ tops, IsMaximal interval items (interval item)
  all : ∀ item ∈ items, IsMaximal interval items (interval item) →
    ∃ top ∈ tops, interval top = interval item
  ordered : tops.Pairwise fun left right => (interval left).Lt (interval right)

/-- The first elements of the runs of a list that are related to them. -/
def heads (related : A → A → Bool) : List A → List A
  | [] => []
  | item :: items => item :: heads related (items.dropWhile (related item))
termination_by items => items.length
decreasing_by exact Nat.lt_succ_of_le (List.length_dropWhile_le _ _)

variable {interval tag}

theorem isMaximal_head {item : A} {items : List A}
    (sorted : (item :: items).Pairwise fun left right => (interval left).Le (interval right))
    : IsMaximal interval (item :: items) (interval item) := by
  intro other member contains
  rcases List.mem_cons.mp member with rfl | later
  · rfl
  · exact contains.le.antisymm (List.rel_of_pairwise_cons sorted later)

/-- A sorted list is cut behind intervals that the first one contains, in front of one that it
does not contain.
-/
structure Cut (interval : A → GroupedInterval K P) (item : A) (front : List A) (next : A)
    (back : List A) : Prop where
  sorted : (item :: (front ++ next :: back)).Pairwise fun left right =>
    (interval left).Le (interval right)
  inside : ∀ other ∈ item :: front, (interval item).Contains (interval other)
  apart : ¬ (interval item).Contains (interval next)

theorem mem_cut {item next other : A} {front back : List A}
    : other ∈ item :: (front ++ next :: back) ↔ other ∈ item :: front ∨ other ∈ next :: back := by
  rw [← List.cons_append, List.mem_append]

namespace Cut

variable {item next : A} {front back : List A} (cut : Cut interval item front next back)

include cut

theorem le {left right : A} (isLeft : left ∈ item :: front) (isRight : right ∈ next :: back)
    : (interval left).Le (interval right) := by
  have sorted := cut.sorted
  rw [← List.cons_append, List.pairwise_append] at sorted
  exact sorted.2.2 left isLeft right isRight

theorem restSorted
    : (next :: back).Pairwise fun left right => (interval left).Le (interval right) := by
  have sorted := cut.sorted
  rw [← List.cons_append, List.pairwise_append] at sorted
  exact sorted.2.1

theorem next_le {right : A} (isRight : right ∈ next :: back)
    : (interval next).Le (interval right) := by
  rcases List.mem_cons.mp isRight with rfl | later
  · exact .refl _
  · exact List.rel_of_pairwise_cons cut.restSorted later

/-- What is contained in the front is contained in the next interval, too. -/
theorem next_contains {left right : A} (isLeft : left ∈ item :: front)
    (isRight : right ∈ next :: back) (contains : (interval left).Contains (interval right))
    : (interval next).Contains (interval right) :=
  ((cut.inside left isLeft).trans contains).of_between
    (cut.le List.mem_cons_self List.mem_cons_self) (cut.next_le isRight) cut.apart

/-- The front does not matter for what is maximal behind it. -/
theorem isMaximal_iff {right : A} (isRight : right ∈ next :: back)
    : IsMaximal interval (next :: back) (interval right)
      ↔ IsMaximal interval (item :: (front ++ next :: back)) (interval right) := by
  constructor
  · intro maximal other member contains
    rcases mem_cut.mp member with isLeft | isOther
    · have same := maximal next List.mem_cons_self (cut.next_contains isLeft isRight contains)
      exact absurd ((cut.inside other isLeft).trans (same ▸ contains)) cut.apart
    · exact maximal other isOther contains
  · exact fun maximal other member => maximal other (mem_cut.mpr (.inr member))

theorem isLastAround_iff {around right : A} (isAround : around ∈ next :: back)
    : IsLastAround interval (next :: back) (interval around) (interval right)
      ↔ IsLastAround interval (item :: (front ++ next :: back)) (interval around)
          (interval right) := by
  constructor
  · intro last
    refine ⟨(cut.isMaximal_iff isAround).mp last.isMaximal, last.contains, ?_⟩
    intro other member maximal contains
    rcases mem_cut.mp member with isLeft | isOther
    · exact (cut.le isLeft isAround).first_le (contains.1.trans last.contains.1.symm)
    · exact last.last other isOther ((cut.isMaximal_iff isOther).mpr maximal) contains
  · intro last
    refine ⟨(cut.isMaximal_iff isAround).mpr last.isMaximal, last.contains, ?_⟩
    intro other member maximal contains
    exact last.last other (mem_cut.mpr (.inr member)) ((cut.isMaximal_iff member).mp maximal)
      contains

/-- A maximal interval in the front is the first one. -/
theorem eq_of_front {left : A} (isLeft : left ∈ item :: front)
    (maximal : IsMaximal interval (item :: (front ++ next :: back)) (interval left))
    : interval item = interval left :=
  maximal item List.mem_cons_self (cut.inside left isLeft)

theorem lt {right : A} (isRight : right ∈ next :: back)
    : (interval item).Lt (interval right) := by
  refine Lt.trans_le ⟨cut.le List.mem_cons_self List.mem_cons_self, ?_⟩ (cut.next_le isRight)
  intro same
  have contains := Contains.refl (interval item)
  rw [same] at contains
  exact cut.apart (same ▸ contains)

theorem isTops_iff {tops : List A}
    : IsTops interval (item :: (front ++ next :: back)) (item :: tops)
      ↔ IsTops interval (next :: back) tops := by
  constructor
  · intro isTops
    have later : ∀ top ∈ tops, top ∈ next :: back := by
      intro top isTop
      refine (mem_cut.mp (isTops.among top (List.mem_cons_of_mem _ isTop))).resolve_left ?_
      intro isLeft
      have same := cut.eq_of_front isLeft (isTops.isMaximal top (List.mem_cons_of_mem _ isTop))
      exact (List.rel_of_pairwise_cons isTops.ordered isTop).2 same
    refine ⟨later, ?_, ?_, isTops.ordered.of_cons⟩
    · intro top isTop
      exact (cut.isMaximal_iff (later top isTop)).mpr
        (isTops.isMaximal top (List.mem_cons_of_mem _ isTop))
    · intro right isRight maximal
      obtain ⟨top, isTop, same⟩ := isTops.all right (mem_cut.mpr (.inr isRight))
        ((cut.isMaximal_iff isRight).mp maximal)
      rcases List.mem_cons.mp isTop with rfl | isTop
      · exact absurd same (cut.lt isRight).2
      · exact ⟨top, isTop, same⟩
  · intro isTops
    refine ⟨?_, ?_, ?_, ?_⟩
    · intro top isTop
      rcases List.mem_cons.mp isTop with rfl | isTop
      · exact List.mem_cons_self
      · exact mem_cut.mpr (.inr (isTops.among top isTop))
    · intro top isTop
      rcases List.mem_cons.mp isTop with rfl | isTop
      · exact isMaximal_head cut.sorted
      · exact (cut.isMaximal_iff (isTops.among top isTop)).mp (isTops.isMaximal top isTop)
    · intro other member maximal
      rcases mem_cut.mp member with isLeft | isRight
      · exact ⟨item, List.mem_cons_self, cut.eq_of_front isLeft maximal⟩
      · obtain ⟨top, isTop, same⟩ := isTops.all other isRight
          ((cut.isMaximal_iff isRight).mpr maximal)
        exact ⟨top, List.mem_cons_of_mem _ isTop, same⟩
    · exact List.pairwise_cons.mpr
        ⟨fun top isTop => cut.lt (isTops.among top isTop), isTops.ordered⟩

/-- Tags agree in the whole list if they do in the front and behind it. -/
theorem sameTags_iff (same : ∀ left ∈ item :: front, tag left = tag item)
    : SameTags interval tag (item :: (front ++ next :: back))
      ↔ SameTags interval tag (next :: back) := by
  constructor
  · intro sameTags right isRight around isAround last
    exact sameTags right (mem_cut.mpr (.inr isRight)) around (mem_cut.mpr (.inr isAround))
      ((cut.isLastAround_iff isAround).mp last)
  · intro sameTags right isRight around isAround last
    rcases mem_cut.mp isAround with aroundLeft | aroundRight
    · rcases mem_cut.mp isRight with isLeft | isRight
      · rw [same right isLeft, same around aroundLeft]
      · -- the next interval is maximal, is around this one and does not start before `around`
        exfalso
        have first := cut.eq_of_front aroundLeft last.isMaximal
        have maximal := (cut.isMaximal_iff List.mem_cons_self).mp (isMaximal_head cut.restSorted)
        have contains := cut.next_contains aroundLeft isRight last.contains
        have starts := last.last next (mem_cut.mpr (.inr List.mem_cons_self)) maximal contains
        have groups : (interval item).group = (interval next).group := by
          rw [first, last.contains.1, contains.1]
        have le := cut.le List.mem_cons_self List.mem_cons_self
        have equal := le_antisymm (le.first_le groups) (first ▸ starts)
        exact cut.apart ⟨groups, le_of_eq equal, le.last_le groups equal⟩
    · rcases mem_cut.mp isRight with isLeft | isRight
      · exfalso
        have equal := last.contains.le.antisymm (cut.le isLeft aroundRight)
        have next_le := cut.next_le aroundRight
        rw [equal] at next_le
        have isNext := (cut.le isLeft List.mem_cons_self).antisymm next_le
        exact cut.apart (isNext ▸ cut.inside right isLeft)
      · exact sameTags right isRight around aroundRight
          ((cut.isLastAround_iff aroundRight).mpr last)

end Cut

theorem isTops_nil : IsTops interval [] [] where
  among _ member := by cases member
  isMaximal _ member := by cases member
  all _ member := by cases member
  ordered := .nil

/-- A list of what its first element contains has that one as its only maximal one. -/
theorem isTops_single {item : A} {items : List A}
    (sorted : (item :: items).Pairwise fun left right => (interval left).Le (interval right))
    (inside : ∀ other ∈ item :: items, (interval item).Contains (interval other))
    : IsTops interval (item :: items) [item] where
  among top isTop := by
    rw [List.mem_singleton.mp isTop]
    exact List.mem_cons_self
  isMaximal top isTop := by
    rw [List.mem_singleton.mp isTop]
    exact isMaximal_head sorted
  all other member maximal :=
    ⟨item, List.mem_singleton_self _, maximal item List.mem_cons_self (inside other member)⟩
  ordered := List.pairwise_singleton _ _

/-- The first element of a sorted list is the last maximal one around each element that follows
only elements that the first one contains.
-/
theorem isLastAround_head {item next : A} {front back : List A}
    (sorted : (item :: (front ++ next :: back)).Pairwise fun left right =>
      (interval left).Le (interval right))
    (inside : ∀ other ∈ item :: front, (interval item).Contains (interval other))
    (contains : (interval item).Contains (interval next))
    : IsLastAround interval (item :: (front ++ next :: back)) (interval item)
        (interval next) := by
  refine ⟨isMaximal_head sorted, contains, fun other member maximal around => le_of_eq ?_⟩
  have isItem : (interval item).Contains (interval other) := by
    rcases mem_cut.mp member with isLeft | isRight
    · exact inside other isLeft
    · rw [← List.cons_append, List.pairwise_append] at sorted
      have le : (interval next).Le (interval other) := by
        rcases List.mem_cons.mp isRight with rfl | later
        · exact .refl _
        · exact List.rel_of_pairwise_cons sorted.2.1 later
      rwa [around.le.antisymm le]
  rw [maximal item List.mem_cons_self isItem]

/-- The heads of a sorted list are its maximal intervals if tags do not tell apart what is
contained.
-/
theorem isTops_heads_iff {related : A → A → Bool}
    (isRelated : ∀ left right, related left right = true
      ↔ (interval left).Contains (interval right) ∧ tag left = tag right)
    {items : List A}
    (sorted : items.Pairwise fun left right => (interval left).Le (interval right))
    : IsTops interval items (heads related items) ↔ SameTags interval tag items := by
  induction items using heads.induct related with
  | case1 =>
      rw [heads]
      exact ⟨fun _ _ member => (List.not_mem_nil member).elim, fun _ => isTops_nil⟩
  | case2 item items ih =>
      have front : ∀ left ∈ item :: items.takeWhile (related item),
          (interval item).Contains (interval left) ∧ tag left = tag item := by
        intro left isLeft
        rcases List.mem_cons.mp isLeft with rfl | isLeft
        · exact ⟨.refl _, rfl⟩
        · obtain ⟨contains, same⟩ := (isRelated item left).mp (List.mem_takeWhile_imp isLeft)
          exact ⟨contains, same.symm⟩
      have split : items.takeWhile (related item) ++ items.dropWhile (related item) = items :=
        List.takeWhile_append_dropWhile
      have later := ih (sorted.of_cons.sublist (List.dropWhile_sublist _))
      rw [heads]
      cases rest : items.dropWhile (related item) with
      | nil =>
          rw [rest, List.append_nil] at split
          rw [split] at front
          rw [heads]
          refine ⟨fun _ right isRight around isAround _ => ?_, fun _ => ?_⟩
          · rw [(front right isRight).2, (front around isAround).2]
          · exact isTops_single sorted fun other member => (front other member).1
      | cons next back =>
          have notEmpty : items.dropWhile (related item) ≠ [] := by
            rw [rest]
            exact List.cons_ne_nil _ _
          have notRelated := List.head_dropWhile_not (related item) notEmpty
          simp only [rest, List.head_cons] at notRelated
          rw [rest] at later split
          rw [← split] at sorted ⊢
          have cutIf (apart : ¬ (interval item).Contains (interval next))
              : Cut interval item (items.takeWhile (related item)) next back :=
            ⟨sorted, fun other member => (front other member).1, apart⟩
          constructor
          · intro isTops
            have apart : ¬ (interval item).Contains (interval next) := by
              intro contains
              rw [heads] at isTops
              have isTop : next ∈ next :: heads related (back.dropWhile (related next)) :=
                List.mem_cons_self
              have same := isTops.isMaximal next (List.mem_cons_of_mem _ isTop) item
                List.mem_cons_self contains
              exact (List.rel_of_pairwise_cons isTops.ordered isTop).2 same
            have cut := cutIf apart
            exact (cut.sameTags_iff fun left isLeft => (front left isLeft).2).mpr
              (later.mp (cut.isTops_iff.mp isTops))
          · intro sameTags
            have apart : ¬ (interval item).Contains (interval next) := by
              intro contains
              have last := isLastAround_head sorted (fun other member => (front other member).1)
                contains
              have same := sameTags next (mem_cut.mpr (.inr List.mem_cons_self)) item
                List.mem_cons_self last
              rw [(isRelated item next).mpr ⟨contains, same⟩] at notRelated
              cases notRelated
            have cut := cutIf apart
            have sameBack :=
              (cut.sameTags_iff fun left isLeft => (front left isLeft).2).mp sameTags
            exact cut.isTops_iff.mpr (later.mpr sameBack)

omit [LinearOrder K] in
theorem exists_head_contains {related : A → A → Bool}
    (isRelated : ∀ left right, related left right = true →
      (interval left).Contains (interval right))
    {items : List A} {item : A} (member : item ∈ items)
    : ∃ top ∈ heads related items, (interval top).Contains (interval item) := by
  induction items using heads.induct related with
  | case1 => cases member
  | case2 first items ih =>
      have split : items.takeWhile (related first) ++ items.dropWhile (related first) = items :=
        List.takeWhile_append_dropWhile
      rw [heads]
      rcases List.mem_cons.mp member with rfl | later
      · exact ⟨item, List.mem_cons_self, .refl _⟩
      · rw [← split, List.mem_append] at later
        rcases later with inside | behind
        · exact ⟨first, List.mem_cons_self, isRelated _ _ (List.mem_takeWhile_imp inside)⟩
        · obtain ⟨top, isTop, contains⟩ := ih behind
          exact ⟨top, List.mem_cons_of_mem _ isTop, contains⟩

variable {items others : List A}

omit [LinearOrder K] in
theorem isMaximal_congr (same : ∀ item, item ∈ items ↔ item ∈ others) {one : GroupedInterval K P}
    : IsMaximal interval items one ↔ IsMaximal interval others one := by
  simp only [IsMaximal, same]

theorem isTops_congr (same : ∀ item, item ∈ items ↔ item ∈ others) {tops : List A}
    : IsTops interval items tops ↔ IsTops interval others tops := by
  constructor
  · rintro ⟨among, isMaximal, all, ordered⟩
    simp only [same, isMaximal_congr same] at among isMaximal all
    exact ⟨among, isMaximal, all, ordered⟩
  · rintro ⟨among, isMaximal, all, ordered⟩
    simp only [← same, ← isMaximal_congr same] at among isMaximal all
    exact ⟨among, isMaximal, all, ordered⟩

omit [LinearOrder K] in
theorem sameTags_congr (same : ∀ item, item ∈ items ↔ item ∈ others)
    : SameTags interval tag items ↔ SameTags interval tag others := by
  have around (one other : GroupedInterval K P)
      : IsLastAround interval items one other ↔ IsLastAround interval others one other := by
    constructor
    · rintro ⟨isMaximal, contains, last⟩
      simp only [same, isMaximal_congr same] at isMaximal last
      exact ⟨isMaximal, contains, last⟩
    · rintro ⟨isMaximal, contains, last⟩
      simp only [← same, ← isMaximal_congr same] at isMaximal last
      exact ⟨isMaximal, contains, last⟩
  simp only [SameTags, same, around]

/-- The maximal intervals of a list are determined up to the choice among equal ones. -/
theorem IsTops.unique {tops tops' : List A} (isTops : IsTops interval items tops)
    (isTops' : IsTops interval items tops')
    : tops.map interval = tops'.map interval := by
  refine List.Perm.eq_of_pairwise (fun _ _ _ _ less greater => less.1.antisymm greater.1)
    (List.pairwise_map.mpr isTops.ordered) (List.pairwise_map.mpr isTops'.ordered) ?_
  have distinct {tops : List A} (ordered : tops.Pairwise fun left right =>
      (interval left).Lt (interval right)) : (tops.map interval).Nodup :=
    List.pairwise_map.mpr (ordered.imp fun less => less.2)
  rw [List.perm_ext_iff_of_nodup (distinct isTops.ordered) (distinct isTops'.ordered)]
  intro one
  rw [List.mem_map, List.mem_map]
  constructor
  · rintro ⟨top, isTop, rfl⟩
    exact isTops'.all top (isTops.among top isTop) (isTops.isMaximal top isTop)
  · rintro ⟨top, isTop, rfl⟩
    exact isTops.all top (isTops'.among top isTop) (isTops'.isMaximal top isTop)

end Items

end GroupedInterval
