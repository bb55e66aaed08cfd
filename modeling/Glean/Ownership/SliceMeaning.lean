import Glean.Ownership.SliceSets

/-! What the sets of a slice mean: a set is visible if and only if its expression is true, where
a unit is true if it is included, or not excluded.
-/

namespace Glean.RTS

/-- Whether an expression is true, given which of its elements are. -/
def SetExpr.Holds (expr : SetExpr) (holds : UsetId → Prop) : Prop :=
  match expr.op with
  | .or => ∃ element ∈ expr.set, holds element
  | .and => ∀ element ∈ expr.set, holds element

theorem SetExpr.holds_congr {expr : SetExpr} {left right : UsetId → Prop}
    (same : ∀ element ∈ expr.set, (left element ↔ right element))
    : expr.Holds left ↔ expr.Holds right := by
  unfold SetExpr.Holds
  cases expr.op with
  | or => exact exists_congr fun element => and_congr_right (same element)
  | and => exact forall₂_congr same

namespace SliceSets

/-- The elements of a set are units and ids of earlier sets. -/
def Stratified (first : UsetId) (sets : List SetExpr) : Prop :=
  ∀ index expr, sets[index]? = some expr → ∀ element ∈ expr.set, element < first + index

/-- A unit is true if it is included, or not excluded. -/
def UnitHolds (units : List UnitId) (exclude : Bool) (unit : UnitId) : Prop :=
  if exclude then unit ∉ units else unit ∈ units

/-- Whether a unit or a set is true. -/
def Evaluates (first : UsetId) (sets : List SetExpr) (units : List UnitId) (exclude : Bool)
    (id : UsetId)
    : Prop :=
  if id < first then
    UnitHolds units exclude id
  else
    ∃ expr, sets[id - first]? = some expr
      ∧ expr.Holds (fun element => ∃ _ : element < id, Evaluates first sets units exclude element)
termination_by id

/-- The set has elements, and so have all the sets below it. -/
inductive Solid (first : UsetId) (sets : List SetExpr) : UsetId → Prop
  | unit {unit : UnitId} (below : unit < first) : Solid first sets unit
  | set {index : Nat} {expr : SetExpr} (stored : sets[index]? = some expr)
      (nonempty : expr.set.Nonempty) (elements : ∀ element ∈ expr.set, Solid first sets element)
      : Solid first sets (first + index)

variable {first : UsetId} {sets : List SetExpr} {units : List UnitId} {exclude : Bool}

theorem evaluates_unit {unit : UnitId} (below : unit < first)
    : Evaluates first sets units exclude unit ↔ UnitHolds units exclude unit := by
  rw [Evaluates, if_pos below]

theorem evaluates_set {index : Nat} {expr : SetExpr} (stratified : Stratified first sets)
    (stored : sets[index]? = some expr)
    : Evaluates first sets units exclude (first + index)
      ↔ expr.Holds (Evaluates first sets units exclude) := by
  rw [Evaluates, if_neg (by lia), Nat.add_sub_cancel_left]
  have same := SetExpr.holds_congr (fun element member =>
    exists_prop_of_true (p := element < first + index)
      (q := fun _ => Evaluates first sets units exclude element)
      (stratified index expr stored element member))
  constructor
  · rintro ⟨found, isStored, holds⟩
    obtain rfl := Option.some.inj (stored.symm.trans isStored)
    exact same.mp holds
  · intro holds
    exact ⟨expr, stored, same.mpr holds⟩

/-- A pass that finds no true unit, then a pass over the sets. -/
theorem or_passes_iff {holds : UsetId → Prop} {members : List Bool} {set : Finset UsetId}
    {noUnit : Bool} {reader : Reader}
    (decides : noUnit = true ↔ ∀ element ∈ set, element < first → ¬ holds element)
    (passed : noUnit = true → Passed first set.sort reader)
    (setRight
      : ∀ element ∈ set, first ≤ element →
          (member first members element = true ↔ holds element))
    : (!noUnit || orVisible first members reader) = true ↔ ∃ element ∈ set, holds element := by
  have sorted : set.sort.Pairwise (· < ·) := set.sortedLT_sort.pairwise
  cases noUnit with
  | false =>
      have unit : ∃ element ∈ set, element < first ∧ holds element := by simpa using decides
      obtain ⟨element, inSet, -, isTrue⟩ := unit
      exact iff_of_true rfl ⟨element, inSet, isTrue⟩
  | true =>
      have none := decides.mp rfl
      rw [Bool.not_true, Bool.false_or, orVisible_iff members sorted (passed rfl)]
      simp only [Finset.mem_sort]
      constructor
      · rintro ⟨element, inSet, isSet, visible⟩
        exact ⟨element, inSet, (setRight element inSet isSet).mp visible⟩
      · rintro ⟨element, inSet, isTrue⟩
        have isSet : first ≤ element := not_lt.mp fun isUnit => none element inSet isUnit isTrue
        exact ⟨element, inSet, isSet, (setRight element inSet isSet).mpr isTrue⟩

/-- A pass that finds only true units, then a pass over the sets. -/
theorem and_passes_iff {holds : UsetId → Prop} {members : List Bool} {set : Finset UsetId}
    {allUnits : Bool} {reader : Reader}
    (decides : allUnits = true ↔ ∀ element ∈ set, element < first → holds element)
    (passed : allUnits = true → Passed first set.sort reader)
    (setRight
      : ∀ element ∈ set, first ≤ element →
          (member first members element = true ↔ holds element))
    : (allUnits && andVisible first members reader) = true
      ↔ ∀ element ∈ set, holds element := by
  have sorted : set.sort.Pairwise (· < ·) := set.sortedLT_sort.pairwise
  cases allUnits with
  | false =>
      have unit : ∃ element ∈ set, element < first ∧ ¬ holds element := by simpa using decides
      obtain ⟨element, inSet, -, isFalse⟩ := unit
      exact iff_of_false (by simp) fun all => isFalse (all element inSet)
  | true =>
      have all := decides.mp rfl
      rw [Bool.true_and, andVisible_iff members sorted (passed rfl)]
      simp only [Finset.mem_sort]
      constructor
      · intro visible element inSet
        rcases lt_or_ge element first with isUnit | isSet
        · exact all element inSet isUnit
        · exact (setRight element inSet isSet).mp (visible element inSet isSet)
      · intro holdsAll element inSet isSet
        exact (setRight element inSet isSet).mpr (holdsAll element inSet)

/-- One round of the loop evaluates the expression, if the bits of its elements are right. -/
theorem setVisible_iff {holds : UsetId → Prop} {members : List Bool} {expr : SetExpr}
    (ascending : units.Pairwise (· < ·)) (areUnits : ∀ unit ∈ units, unit < first)
    (listed : units ≠ [])
    (unitRight : ∀ unit < first, (holds unit ↔ UnitHolds units exclude unit))
    (setRight
      : ∀ element ∈ expr.set, first ≤ element →
          (member first members element = true ↔ holds element))
    : setVisible first units exclude members expr = true ↔ expr.Holds holds := by
  have sorted : expr.set.sort.Pairwise (· < ·) := expr.set.sortedLT_sort.pairwise
  obtain ⟨subset, subsetPassed⟩ := isSubset_spec first ascending sorted
  obtain ⟨disjoint, disjointPassed⟩ := emptyIntersection_spec ascending areUnits listed sorted
  simp only [Finset.mem_sort] at subset disjoint
  -- elements in the list are units, so it does not matter that `emptyIntersection` does not ask
  have disjointUnits : (∀ element ∈ expr.set, element ∉ units)
      ↔ ∀ element ∈ expr.set, element < first → element ∉ units :=
    ⟨fun all element inSet _ => all element inSet,
      fun all element inSet inUnits => all element inSet (areUnits element inUnits) inUnits⟩
  rw [disjointUnits] at disjoint
  unfold setVisible SetExpr.Holds
  cases expr.op with
  | or =>
      cases exclude with
      | true =>
          refine or_passes_iff (subset.trans ?_) subsetPassed setRight
          refine forall₃_congr fun element _ isUnit => ?_
          simp [unitRight element isUnit, UnitHolds]
      | false =>
          refine or_passes_iff (disjoint.trans ?_) disjointPassed setRight
          refine forall₃_congr fun element _ isUnit => ?_
          simp [unitRight element isUnit, UnitHolds]
  | and =>
      cases exclude with
      | true =>
          refine and_passes_iff (disjoint.trans ?_) disjointPassed setRight
          refine forall₃_congr fun element _ isUnit => ?_
          simp [unitRight element isUnit, UnitHolds]
      | false =>
          refine and_passes_iff (subset.trans ?_) subsetPassed setRight
          refine forall₃_congr fun element _ isUnit => ?_
          simp [unitRight element isUnit, UnitHolds]

/-- The bits of the first `count` sets are right. -/
structure Marked (first : UsetId) (sets : List SetExpr) (units : List UnitId) (exclude : Bool)
    (members : List Bool) (count : Nat)
    : Prop where
  size : members.length = sets.length
  right
    : ∀ index < count, index < sets.length →
        (members[index]? = some true ↔ Evaluates first sets units exclude (first + index))

/-- A round of the loop marks one more set. -/
theorem Marked.step {members : List Bool} {index : Nat} {expr : SetExpr}
    (stratified : Stratified first sets)
    (ascending : units.Pairwise (· < ·)) (areUnits : ∀ unit ∈ units, unit < first)
    (listed : units ≠ []) (stored : sets[index]? = some expr)
    (marked : Marked first sets units exclude members index)
    : Marked first sets units exclude
        (members.set index (setVisible first units exclude members expr)) (index + 1) := by
  have inRange : index < sets.length := (List.getElem?_eq_some_iff.mp stored).1
  refine ⟨by simpa using marked.size, fun other below otherInRange => ?_⟩
  rcases Nat.lt_succ_iff_lt_or_eq.mp below with earlier | rfl
  · rw [List.getElem?_set_ne (by lia)]
    exact marked.right other earlier otherInRange
  · rw [List.getElem?_set_self (by rw [marked.size]; exact inRange), Option.some_inj,
      evaluates_set stratified stored]
    refine setVisible_iff ascending areUnits listed (fun unit => evaluates_unit) ?_
    intro element inSet isSet
    have before := stratified other expr stored element inSet
    have bit := marked.right (element - first) (by lia) (by lia)
    rw [Nat.add_sub_cancel' isSet] at bit
    rw [← bit, member, List.getD_eq_getElem?_getD]
    have present : element - first < members.length := by
      rw [marked.size]
      lia
    simp [List.getElem?_eq_getElem present]

/-- The whole loop marks all sets. -/
theorem sliceLoop_marked {done rest : List SetExpr} {members : List Bool}
    (split : sets = done ++ rest) (stratified : Stratified first sets)
    (ascending : units.Pairwise (· < ·)) (areUnits : ∀ unit ∈ units, unit < first)
    (listed : units ≠ [])
    (marked : Marked first sets units exclude members done.length)
    : Marked first sets units exclude
        (sliceLoop first units exclude members (rest.zipIdx (first + done.length)))
        sets.length := by
  induction rest generalizing done members with
  | nil =>
      obtain rfl : sets = done := by simpa using split
      exact marked
  | cons expr rest ih =>
      have stored : sets[done.length]? = some expr := by simp [split]
      have next := marked.step stratified ascending areUnits listed stored
      have moved : sets = (done ++ [expr]) ++ rest := by simpa using split
      have whole := ih moved (by simpa using next)
      simpa [sliceLoop, Nat.add_assoc] using whole

/-- Without units in the list, a set that has elements all the way down is true if and only if
all units are.
-/
theorem Solid.evaluates_iff {id : UsetId} (stratified : Stratified first sets)
    (solid : Solid first sets id)
    : Evaluates first sets [] exclude id ↔ exclude = true := by
  induction solid with
  | unit below =>
      rw [evaluates_unit below]
      cases exclude <;> simp [UnitHolds]
  | @set _ expr stored nonempty _ ih =>
      rw [evaluates_set stratified stored, SetExpr.holds_congr ih]
      obtain ⟨element, inSet⟩ := nonempty
      unfold SetExpr.Holds
      cases expr.op with
      | or => exact ⟨fun ⟨_, _, holds⟩ => holds, fun holds => ⟨element, inSet, holds⟩⟩
      | and => exact ⟨fun all => all element inSet, fun holds _ _ => holds⟩

/-- The slice marks every set that is true. The empty list is not looked up in the sets, so
for it the sets must not be empty.
-/
theorem slice_marks_iff_evaluates (first : UsetId) (sets : List SetExpr) (units : List UnitId)
    (exclude : Bool) (stratified : Stratified first sets)
    (ascending : units.Pairwise (· < ·)) (areUnits : ∀ unit ∈ units, unit < first)
    : (slice first sets units exclude).first = first
      ∧ (slice first sets units exclude).set.length = sets.length
      ∧ ∀ index < sets.length, (units = [] → Solid first sets (first + index)) →
          ((slice first sets units exclude).set[index]? = some true
            ↔ Evaluates first sets units exclude (first + index)) := by
  by_cases listed : units = []
  · subst listed
    cases exclude with
    | false =>
        refine ⟨rfl, by simp [slice], fun index inRange solid => ?_⟩
        rw [(solid rfl).evaluates_iff stratified]
        simp [slice, List.getElem?_replicate]
    | true =>
        refine ⟨rfl, by simp [slice], fun index inRange solid => ?_⟩
        rw [(solid rfl).evaluates_iff stratified]
        simp [slice, inRange]
  · have start : Marked first sets units exclude (List.replicate sets.length false) 0 :=
      ⟨by simp, by simp⟩
    have shape : slice first sets units exclude
        = ⟨first, sliceLoop first units exclude (List.replicate sets.length false)
            (sets.zipIdx first)⟩ := by
      simp [slice, listed]
    have split : sets = [] ++ sets := rfl
    obtain ⟨size, right⟩ := sliceLoop_marked split stratified ascending areUnits listed start
    rw [shape]
    exact ⟨rfl, size, fun index inRange _ => right index inRange inRange⟩

/-- A set of two units, and a set of one of them and the first set. -/
def twoSets : List SetExpr := [⟨.or, {0, 1}⟩, ⟨.and, {1, 2}⟩]

theorem twoSets_stratified : Stratified 2 twoSets := by
  intro index expr stored element member
  match index with
  | 0 =>
      obtain rfl : ⟨.or, {0, 1}⟩ = expr := Option.some.inj stored
      revert element
      decide
  | 1 =>
      obtain rfl : ⟨.and, {1, 2}⟩ = expr := Option.some.inj stored
      revert element
      decide
  | _ + 2 => simp [twoSets] at stored

/-- Witness: excluding unit 1 leaves the first set visible. -/
theorem slice_marks_iff_evaluates_twoSets
    : Stratified 2 twoSets ∧ (slice 2 twoSets [1] true).set.length = 2
      ∧ ((slice 2 twoSets [1] true).set[0]? = some true
          ↔ Evaluates 2 twoSets [1] true (2 + 0)) := by
  obtain ⟨-, size, marks⟩ := slice_marks_iff_evaluates 2 twoSets [1] true twoSets_stratified
    (List.pairwise_singleton ..) (by simp)
  exact ⟨twoSets_stratified, size, marks 0 (by decide) (by simp)⟩

/-- A conjunction of nothing, and a set of that. -/
def emptyConjunction : List SetExpr := [⟨.and, ∅⟩, ⟨.or, {1}⟩]

theorem emptyConjunction_stratified : Stratified 1 emptyConjunction := by
  intro index expr stored element member
  match index with
  | 0 =>
      obtain rfl : ⟨.and, ∅⟩ = expr := Option.some.inj stored
      simp at member
  | 1 =>
      obtain rfl : ⟨.or, {1}⟩ = expr := Option.some.inj stored
      simp_all
  | _ + 2 => simp [emptyConjunction] at stored

/-- The empty list of units is not looked up in the sets: the conjunction of nothing is true,
so the set that has it as its element is true, but including no units shows no set.
-/
theorem slice_shows_no_emptyConjunction
    : ¬ ∀ (first : UsetId) (sets : List SetExpr) (units : List UnitId) (exclude : Bool),
        Stratified first sets → units.Pairwise (· < ·) → (∀ unit ∈ units, unit < first) →
          ∀ index expr, sets[index]? = some expr → (units = [] → expr.set.Nonempty) →
            ((slice first sets units exclude).set[index]? = some true
              ↔ Evaluates first sets units exclude (first + index)) := by
  intro claimed
  have same := claimed 1 emptyConjunction [] false emptyConjunction_stratified .nil (by simp) 1 ⟨.or, {1}⟩ rfl
    (fun _ => Finset.singleton_nonempty 1)
  have conjunction : Evaluates 1 emptyConjunction [] false (1 + 0) := by
    rw [evaluates_set emptyConjunction_stratified (show emptyConjunction[0]? = some ⟨.and, ∅⟩ from rfl)]
    simp [SetExpr.Holds]
  have evaluates : Evaluates 1 emptyConjunction [] false (1 + 1) := by
    rw [evaluates_set emptyConjunction_stratified (show emptyConjunction[1]? = some ⟨.or, {1}⟩ from rfl)]
    exact ⟨1, Finset.mem_singleton_self 1, conjunction⟩
  exact absurd (same.mpr evaluates) (by decide)

end SliceSets

end Glean.RTS
