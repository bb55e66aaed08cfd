import Glean.Library.AscendingReader
import Glean.Ownership.Slice
import Mathlib.Data.Finset.Sort

/-! The construction of a slice (`slice.cpp`): which ownership sets are visible when a list of
units is included or excluded. Every set is read in two passes over one reader of its elements,
which are ascending: the units first, then the sets, from where the first pass stopped.
-/

namespace Glean.RTS

/-- The reader of an Elias-Fano encoded set. -/
abbrev Reader := AscendingReader UsetId

namespace SliceSets

/-- The value of a reader that stands on no element is the largest one. -/
def value (reader : Reader) : UsetId := reader.current.getD invalidUset

/-- The search for an element of a set in the units that the iterator `it` has not passed: what
is left behind the element, if it is there.
-/
def findUnit (units : List UnitId) (value : UsetId) : Option (List UnitId) :=
  match units.dropWhile (· < value) with
  | [] => none
  | unit :: units => if value < unit then none else some units

/-- The loop of `isSubset`, with the reader on an element `value` below `first`. -/
def isSubsetLoop (first : UsetId) (units : List UnitId) (value : UsetId)
    : List UsetId → Bool × Reader
  | [] =>
      match findUnit units value with
      | none => (false, ⟨some value, []⟩)
      | some _ => (true, .done)
  | next :: rest =>
      match findUnit units value with
      | none => (false, ⟨some value, next :: rest⟩)
      | some units =>
          if next < first then
            isSubsetLoop first units next rest
          else
            (true, ⟨some next, rest⟩)

/-- `isSubset`: whether all units of a set are in the list. -/
def isSubset (first : UsetId) (units : List UnitId) (reader : Reader) : Bool × Reader :=
  let (moved, reader) := reader.next
  if !moved ∨ first ≤ value reader then
    (true, reader)
  else
    isSubsetLoop first units (value reader) reader.rest

/-- The step that moves the reader to a bound it has not reached yet. -/
def skipBelow (bound : UsetId) (reader : Reader) : Bool × Reader :=
  if value reader < bound then reader.skipTo bound else (true, reader)

/-- The loop of `emptyIntersection` over the units that are still to be checked. -/
def emptyIntersectionLoop : List UnitId → Reader → Bool × Reader
  | [], reader => (true, reader)
  | unit :: units, reader =>
      let (found, reader) := skipBelow unit reader
      if !found then
        (true, reader)
      else if value reader = unit then
        (false, reader)
      else
        emptyIntersectionLoop units reader

/-- `emptyIntersection`: whether no unit of a set is in the list, which is not empty. -/
def emptyIntersection (units : List UnitId) (reader : Reader) : Bool × Reader :=
  let (found, reader) := reader.skipTo (units.headD invalidUset)
  if !found then (true, reader) else emptyIntersectionLoop units reader

/-- Whether a set was found visible. -/
def member (first : UsetId) (members : List Bool) (id : UsetId) : Bool :=
  members.getD (id - first) false

/-- `orVisible`: whether one of the sets from the reader on is visible. -/
def orVisible (first : UsetId) (members : List Bool) (reader : Reader) : Bool :=
  if !reader.valid then
    false
  else
    let (found, reader) := skipBelow first reader
    if !found then false else reader.remaining.any (member first members)

/-- `andVisible`: whether all of the sets from the reader on are visible. -/
def andVisible (first : UsetId) (members : List Bool) (reader : Reader) : Bool :=
  if !reader.valid then
    true
  else
    let (found, reader) := skipBelow first reader
    if !found then true else reader.remaining.all (member first members)

/-- Where the first pass leaves the reader: in the elements, with all the sets still to come. -/
def Passed (first : UsetId) (elements : List UsetId) (reader : Reader) : Prop :=
  ∃ suffix, reader = .onFirst suffix ∧ suffix <:+ elements
    ∧ ∀ element ∈ elements, first ≤ element → element ∈ suffix

theorem Passed.skip {first skipped : UsetId} {elements : List UsetId} {reader : Reader}
    (passed : Passed first elements reader) (below : skipped < first)
    : Passed first (skipped :: elements) reader := by
  obtain ⟨suffix, rfl, isSuffix, kept⟩ := passed
  refine ⟨suffix, rfl, isSuffix.trans (List.suffix_cons ..), fun element member isSet => ?_⟩
  rcases List.mem_cons.mp member with rfl | later
  · lia
  · exact kept element later isSet

theorem findUnit_cases {units : List UnitId} (ascending : units.Pairwise (· < ·))
    (value : UsetId)
    : (findUnit units value = none ∧ value ∉ units)
      ∨ ∃ left, findUnit units value = some left ∧ value ∈ units
          ∧ left.Pairwise (· < ·) ∧ ∀ unit, value < unit → (unit ∈ left ↔ unit ∈ units) := by
  have found (unit : UnitId) : unit ∈ units.dropWhile (· < value) ↔ unit ∈ units ∧ value ≤ unit :=
    AscendingReader.mem_dropWhile_lt ascending
  have sorted := ascending.sublist (List.dropWhile_sublist (· < value))
  unfold findUnit
  cases shape : units.dropWhile (· < value) with
  | nil =>
      rw [shape] at found
      exact .inl ⟨rfl, fun member => by simpa using (found value).mpr ⟨member, le_rfl⟩⟩
  | cons unit left =>
      rw [shape] at found sorted
      obtain ⟨least, sorted⟩ := List.pairwise_cons.mp sorted
      obtain ⟨inUnits, reached⟩ := (found unit).mp (List.mem_cons_self ..)
      by_cases missing : value < unit
      · refine .inl ⟨if_pos missing, fun member => ?_⟩
        rcases List.mem_cons.mp ((found value).mpr ⟨member, le_rfl⟩) with rfl | later
        · lia
        · exact absurd (least value later) (by lia)
      · obtain rfl : unit = value := by lia
        refine .inr ⟨left, if_neg missing, inUnits, sorted, fun other above => ?_⟩
        have same := found other
        simp only [List.mem_cons, show other ≠ unit by lia, false_or] at same
        rw [same]
        exact and_iff_left above.le

/-- The loop of `isSubset` stops at the first unit that is not in the list, or behind the
units.
-/
theorem isSubsetLoop_spec {first value : UsetId} {units : List UnitId} {rest : List UsetId}
    (ascending : units.Pairwise (· < ·)) (elements : (value :: rest).Pairwise (· < ·))
    (below : value < first)
    : ((isSubsetLoop first units value rest).1 = true
        → (∀ element ∈ value :: rest, element < first → element ∈ units)
          ∧ Passed first (value :: rest) (isSubsetLoop first units value rest).2)
      ∧ ((isSubsetLoop first units value rest).1 = false
        → ∃ element ∈ value :: rest, element < first ∧ element ∉ units) := by
  induction rest generalizing units value with
  | nil =>
      rcases findUnit_cases ascending value with ⟨search, absent⟩ | ⟨left, search, present, -, -⟩
      · simp [isSubsetLoop, search, absent, below]
      · simp only [isSubsetLoop, search]
        refine ⟨fun _ => ⟨by simp [present], [], rfl, List.nil_suffix, ?_⟩, by simp⟩
        intro element member isSet
        simp only [List.mem_singleton] at member
        lia
  | cons next rest ih =>
      obtain ⟨least, later⟩ := List.pairwise_cons.mp elements
      rcases findUnit_cases ascending value
        with ⟨search, absent⟩ | ⟨left, search, present, sorted, same⟩
      · simp only [isSubsetLoop, search]
        exact ⟨by simp, fun _ => ⟨value, List.mem_cons_self .., below, absent⟩⟩
      · by_cases isUnit : next < first
        · simp only [isSubsetLoop, search, if_pos isUnit]
          obtain ⟨subset, counter⟩ := ih sorted later isUnit
          constructor
          · intro result
            obtain ⟨all, passed⟩ := subset result
            refine ⟨fun element member unit => ?_, passed.skip below⟩
            rcases List.mem_cons.mp member with rfl | member
            · exact present
            · exact (same element (least element member)).mp (all element member unit)
          · intro result
            obtain ⟨element, member, unit, absent⟩ := counter result
            refine ⟨element, List.mem_cons_of_mem _ member, unit, fun inUnits => absent ?_⟩
            exact (same element (least element member)).mpr inUnits
        · simp only [isSubsetLoop, search, if_neg isUnit]
          refine ⟨fun _ => ⟨fun element member unit => ?_, ?_⟩, by simp⟩
          · rcases List.mem_cons.mp member with rfl | member
            · exact present
            · rcases List.mem_cons.mp member with rfl | member
              · exact absurd unit isUnit
              · have := List.rel_of_pairwise_cons later member
                lia
          · exact Passed.skip ⟨next :: rest, rfl, List.suffix_rfl, fun _ member _ => member⟩ below

/-- `isSubset` decides whether the units of a set are all in the list, and then leaves the
reader before its sets.
-/
theorem isSubset_spec (first : UsetId) {units : List UnitId} {elements : List UsetId}
    (ascending : units.Pairwise (· < ·)) (sorted : elements.Pairwise (· < ·))
    : ((isSubset first units (.ofList elements)).1 = true
        ↔ ∀ element ∈ elements, element < first → element ∈ units)
      ∧ ((isSubset first units (.ofList elements)).1 = true
        → Passed first elements (isSubset first units (.ofList elements)).2) := by
  cases elements with
  | nil =>
      refine ⟨by simp [isSubset], fun _ => ⟨[], rfl, List.nil_suffix, by simp⟩⟩
  | cons element rest =>
      by_cases below : element < first
      · have shape : isSubset first units (.ofList (element :: rest))
            = isSubsetLoop first units element rest := by
          simp [isSubset, AscendingReader.onFirst, AscendingReader.valid, value, below]
        obtain ⟨subset, counter⟩ := isSubsetLoop_spec ascending sorted below
        rw [shape]
        refine ⟨⟨fun result => (subset result).1, fun all => ?_⟩, fun result => (subset result).2⟩
        by_contra missed
        obtain ⟨unit, member, isUnit, absent⟩ := counter (Bool.eq_false_iff.mpr missed)
        exact absent (all unit member isUnit)
      · have shape : isSubset first units (.ofList (element :: rest))
            = (true, .onFirst (element :: rest)) := by
          simp [isSubset, AscendingReader.onFirst, AscendingReader.valid, value, below]
        rw [shape]
        refine ⟨iff_of_true rfl fun other member isUnit => ?_, fun _ => ?_⟩
        · rcases List.mem_cons.mp member with rfl | later
          · exact absurd isUnit below
          · have := List.rel_of_pairwise_cons sorted later
            lia
        · exact ⟨_, rfl, List.suffix_rfl, fun _ member _ => member⟩

/-- Skipping loses only what lies below the bound. -/
theorem skip_keeps {elements suffix : List UsetId} {kept : UsetId → Prop} (bound : UsetId)
    (sorted : elements.Pairwise (· < ·)) (isSuffix : suffix <:+ elements)
    (keeps : ∀ element ∈ elements, kept element → element ∈ suffix)
    (above : ∀ element ∈ elements, kept element → bound ≤ element)
    : suffix.dropWhile (· < bound) <:+ elements
      ∧ ∀ element ∈ elements, kept element → element ∈ suffix.dropWhile (· < bound) := by
  refine ⟨(List.dropWhile_suffix _).trans isSuffix, fun element member isKept => ?_⟩
  have ascending := sorted.sublist isSuffix.sublist
  refine (AscendingReader.mem_dropWhile_lt ascending).mpr ?_
  exact ⟨keeps element member isKept, above element member isKept⟩

/-- The first unit is below the other units and below the sets. -/
theorem le_of_unit_or_set {first element : UsetId} {unit : UnitId} {units : List UnitId}
    (ascending : (unit :: units).Pairwise (· < ·)) (isUnit : unit < first)
    (kept : element ∈ unit :: units ∨ first ≤ element)
    : unit ≤ element := by
  rcases kept with member | isSet
  · rcases List.mem_cons.mp member with rfl | later
    · exact le_rfl
    · exact (List.rel_of_pairwise_cons ascending later).le
  · exact isUnit.le.trans isSet

theorem skipBelow_onFirst {suffix : List UsetId} (bound : UsetId) (placed : suffix ≠ [])
    : skipBelow bound (.onFirst suffix)
      = (!(suffix.dropWhile (· < bound)).isEmpty, .onFirst (suffix.dropWhile (· < bound))) := by
  obtain ⟨element, rest, rfl⟩ := List.exists_cons_of_ne_nil placed
  have stands : value (.onFirst (element :: rest)) = element := rfl
  unfold skipBelow
  rw [stands]
  by_cases below : element < bound
  · rw [if_pos below]
    simp [AscendingReader.skipTo]
  · rw [if_neg below, List.dropWhile_cons_of_neg (by simpa using below)]
    rfl

/-- The loop of `emptyIntersection` stops at the first unit of the set, with the reader where
no unit still to be checked and no set lies behind it.
-/
theorem emptyIntersectionLoop_spec {first : UsetId} {units : List UnitId}
    {elements suffix : List UsetId}
    (ascending : units.Pairwise (· < ·)) (areUnits : ∀ unit ∈ units, unit < first)
    (sorted : elements.Pairwise (· < ·)) (isSuffix : suffix <:+ elements) (placed : suffix ≠ [])
    (keeps : ∀ element ∈ elements, (element ∈ units ∨ first ≤ element) → element ∈ suffix)
    : ((emptyIntersectionLoop units (.onFirst suffix)).1 = true
        ↔ ∀ element ∈ elements, element ∉ units)
      ∧ ((emptyIntersectionLoop units (.onFirst suffix)).1 = true
        → Passed first elements (emptyIntersectionLoop units (.onFirst suffix)).2) := by
  induction units generalizing suffix with
  | nil =>
      refine ⟨by simp [emptyIntersectionLoop], fun _ => ⟨suffix, rfl, isSuffix, ?_⟩⟩
      exact fun element member isSet => keeps element member (.inr isSet)
  | cons unit units ih =>
      obtain ⟨isUnit, areUnits⟩ := List.forall_mem_cons.mp areUnits
      obtain ⟨isSuffix', keeps'⟩ := skip_keeps unit sorted isSuffix keeps
        (fun _ _ => le_of_unit_or_set ascending isUnit)
      have ascending' := sorted.sublist isSuffix'.sublist
      have notBelow : ∀ element ∈ suffix.dropWhile (· < unit), unit ≤ element := fun element member =>
        ((AscendingReader.mem_dropWhile_lt (sorted.sublist isSuffix.sublist)).mp member).2
      simp only [emptyIntersectionLoop, skipBelow_onFirst unit placed]
      generalize suffix.dropWhile (· < unit) = after at *
      cases after with
      | nil =>
          -- nothing from the unit on: neither units of the list nor sets are left
          refine ⟨iff_of_true rfl fun element member inUnits => ?_, fun _ => ?_⟩
          · simpa using keeps' element member (.inl inUnits)
          · refine ⟨[], rfl, List.nil_suffix, fun element member isSet => ?_⟩
            exact keeps' element member (.inr isSet)
      | cons next rest =>
          have stands : value (.onFirst (next :: rest)) = next := rfl
          simp only [List.isEmpty_cons, Bool.not_false, Bool.not_true, Bool.false_eq_true,
            if_false, stands]
          by_cases hit : next = unit
          · subst hit
            simp only [if_true, Bool.false_eq_true, false_iff, false_imp_iff, and_true]
            intro disjoint
            exact disjoint next (isSuffix'.mem (List.mem_cons_self ..)) (List.mem_cons_self ..)
          · rw [if_neg hit]
            have above : unit < next :=
              lt_of_le_of_ne (notBelow next (List.mem_cons_self ..)) (Ne.symm hit)
            have absent : unit ∉ elements := by
              intro member
              rcases List.mem_cons.mp (keeps' unit member (.inl (List.mem_cons_self ..)))
                with rfl | later
              · exact absurd above (lt_irrefl _)
              · exact absurd (above.trans (List.rel_of_pairwise_cons ascending' later))
                  (lt_irrefl _)
            obtain ⟨decides, passes⟩ := ih ascending.of_cons areUnits isSuffix' (by simp)
              (fun element member kept =>
                keeps' element member (kept.imp_left (List.mem_cons_of_mem _)))
            refine ⟨decides.trans ⟨fun disjoint element member inUnits => ?_, ?_⟩, passes⟩
            · rcases List.mem_cons.mp inUnits with rfl | later
              · exact absent member
              · exact disjoint element member later
            · exact fun disjoint element member later =>
                disjoint element member (List.mem_cons_of_mem _ later)

/-- `emptyIntersection` decides whether no unit of a set is in the list, and then leaves the
reader where all its sets are still to come.
-/
theorem emptyIntersection_spec {first : UsetId} {units : List UnitId} {elements : List UsetId}
    (ascending : units.Pairwise (· < ·)) (areUnits : ∀ unit ∈ units, unit < first)
    (some : units ≠ []) (sorted : elements.Pairwise (· < ·))
    : ((emptyIntersection units (.ofList elements)).1 = true
        ↔ ∀ element ∈ elements, element ∉ units)
      ∧ ((emptyIntersection units (.ofList elements)).1 = true
        → Passed first elements (emptyIntersection units (.ofList elements)).2) := by
  obtain ⟨unit, units, rfl⟩ := List.exists_cons_of_ne_nil some
  obtain ⟨isSuffix, keeps⟩ :=
    skip_keeps unit sorted List.suffix_rfl (fun _ member _ => member)
      (fun _ _ => le_of_unit_or_set ascending (areUnits unit (List.mem_cons_self ..)))
  have shape : emptyIntersection (unit :: units) (.ofList elements)
      = if (elements.dropWhile (· < unit)).isEmpty then
          (true, .onFirst (elements.dropWhile (· < unit)))
        else
          emptyIntersectionLoop (unit :: units) (.onFirst (elements.dropWhile (· < unit))) := by
    simp [emptyIntersection, AscendingReader.skipTo, AscendingReader.remaining,
      AscendingReader.ofList]
  rw [shape]
  by_cases nothing : elements.dropWhile (· < unit) = []
  · rw [nothing] at keeps ⊢
    refine ⟨iff_of_true rfl fun element member inUnits => ?_, fun _ => ?_⟩
    · simpa using keeps element member (.inl inUnits)
    · refine ⟨[], rfl, List.nil_suffix, fun element member isSet => ?_⟩
      exact keeps element member (.inr isSet)
  · rw [if_neg (by simpa using nothing)]
    exact emptyIntersectionLoop_spec ascending areUnits sorted isSuffix nothing keeps

/-- `orVisible` looks at all sets of a reader that was left behind the units. -/
theorem orVisible_iff {first : UsetId} {elements : List UsetId} {reader : Reader}
    (members : List Bool) (sorted : elements.Pairwise (· < ·))
    (passed : Passed first elements reader)
    : orVisible first members reader = true
      ↔ ∃ element ∈ elements, first ≤ element ∧ member first members element = true := by
  obtain ⟨suffix, rfl, isSuffix, keeps⟩ := passed
  have found : orVisible first members (.onFirst suffix)
      = (suffix.dropWhile (· < first)).any (member first members) := by
    by_cases placed : suffix = []
    · rw [placed]
      rfl
    · simp only [orVisible, skipBelow_onFirst first placed]
      cases suffix.dropWhile (· < first) <;> simp [placed]
  simp only [found, List.any_eq_true,
    AscendingReader.mem_dropWhile_lt (sorted.sublist isSuffix.sublist)]
  constructor
  · rintro ⟨element, ⟨inSuffix, isSet⟩, visible⟩
    exact ⟨element, isSuffix.mem inSuffix, isSet, visible⟩
  · rintro ⟨element, inElements, isSet, visible⟩
    exact ⟨element, ⟨keeps element inElements isSet, isSet⟩, visible⟩

/-- `andVisible` looks at all sets of a reader that was left behind the units. -/
theorem andVisible_iff {first : UsetId} {elements : List UsetId} {reader : Reader}
    (members : List Bool) (sorted : elements.Pairwise (· < ·))
    (passed : Passed first elements reader)
    : andVisible first members reader = true
      ↔ ∀ element ∈ elements, first ≤ element → member first members element = true := by
  obtain ⟨suffix, rfl, isSuffix, keeps⟩ := passed
  have found : andVisible first members (.onFirst suffix)
      = (suffix.dropWhile (· < first)).all (member first members) := by
    by_cases placed : suffix = []
    · rw [placed]
      rfl
    · simp only [andVisible, skipBelow_onFirst first placed]
      cases suffix.dropWhile (· < first) <;> simp [placed]
  simp only [found, List.all_eq_true,
    AscendingReader.mem_dropWhile_lt (sorted.sublist isSuffix.sublist)]
  constructor
  · intro all element inElements isSet
    exact all element ⟨keeps element inElements isSet, isSet⟩
  · rintro all element ⟨inSuffix, isSet⟩
    exact all element (isSuffix.mem inSuffix) isSet

/-- The body of the loop: whether a set is visible, given the sets before it. -/
def setVisible (first : UsetId) (units : List UnitId) (exclude : Bool) (members : List Bool)
    (expr : SetExpr)
    : Bool :=
  let reader := .ofList expr.set.sort
  match expr.op with
  | .or =>
      if exclude then
        -- invisible if all entries are excluded
        let (subset, reader) := isSubset first units reader
        !subset || orVisible first members reader
      else
        -- visible if any entry is included
        let (disjoint, reader) := emptyIntersection units reader
        !disjoint || orVisible first members reader
  | .and =>
      if exclude then
        -- visible if none of the entries are excluded
        let (disjoint, reader) := emptyIntersection units reader
        disjoint && andVisible first members reader
      else
        -- visible if all entries are included
        let (subset, reader) := isSubset first units reader
        subset && andVisible first members reader

/-- The loop over the sets, which the iterator delivers with their ids. -/
def sliceLoop (first : UsetId) (units : List UnitId) (exclude : Bool) (members : List Bool)
    (sets : List (SetExpr × UsetId))
    : List Bool :=
  sets.foldl
    (fun members (expr, id) =>
      members.set (id - first) (setVisible first units exclude members expr))
    members

end SliceSets

open SliceSets in
/-- `slice`. The set iterator delivers the sets with their ids, from `first` on. -/
def slice (first : UsetId) (sets : List SetExpr) (units : List UnitId) (exclude : Bool) : Slice :=
  let members := List.replicate sets.length false
  if units.isEmpty then
    ⟨first, if exclude then List.replicate sets.length true else members⟩
  else
    ⟨first, sliceLoop first units exclude members (sets.zipIdx first)⟩

end Glean.RTS
