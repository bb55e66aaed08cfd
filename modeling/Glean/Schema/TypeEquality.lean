import Glean.Query.Evolve

/-! Equality of types (`eqType` in `RTS/Types.hs`) is an equivalence of their representations as
long as a name stands for one type.
-/

namespace Glean.Schema

namespace RtsType

mutual

/-- A reference to a named type stands for the same type everywhere. -/
def Expands (expand : TypeRef → RtsType) : RtsType → Prop
  | .byte | .nat | .string | .boolean | .predicate _ | .enumerated _ => True
  | .array element => element.Expands expand
  | .maybe element => element.Expands expand
  | .namedType ref expanded => expanded = expand ref ∧ expanded.Expands expand
  | .record fields => fieldsExpand expand fields
  | .sum fields => fieldsExpand expand fields

def fieldsExpand (expand : TypeRef → RtsType) : List FieldDef → Prop
  | [] => True
  | .mk _ type :: fields => type.Expands expand ∧ fieldsExpand expand fields

end

/-- Of two types the one with the greater precedence is unfolded first. -/
def precedence : RtsType → Nat
  | .namedType _ _ => 4
  | .maybe _ => 3
  | .enumerated _ => 2
  | .boolean => 1
  | _ => 0

/-- One step of unfolding or lowering. -/
def unfolded : RtsType → RtsType
  | .namedType _ expanded => expanded
  | .maybe element => lowerMaybe element
  | .enumerated names => lowerEnum names
  | .boolean => lowerBool
  | type => type

/-- The types that the values of a type consist of. -/
def parts : RtsType → List RtsType
  | .array element => [element]
  | .record fields => fields.map FieldDef.type
  | .sum fields => fields.map FieldDef.type
  | _ => []

theorem eqType_unfold_left {left right : RtsType} (first : right.precedence < left.precedence)
    : left.eqType right = left.unfolded.eqType right := by
  cases left with
  | byte | nat | string | array _ | record _ | sum _ | predicate _ =>
      exact absurd first (Nat.not_lt_zero _)
  | namedType ref expanded =>
      cases right with
      | namedType _ _ => exact absurd first (lt_irrefl _)
      | _ => rw [eqType, unfolded]; simp
  | maybe element =>
      cases right with
      | namedType _ _ | maybe _ => simp [precedence] at first
      | _ => rw [eqType, unfolded] <;> simp
  | enumerated names =>
      cases right with
      | namedType _ _ | maybe _ | enumerated _ => simp [precedence] at first
      | _ => rw [eqType, unfolded] <;> simp
  | boolean =>
      cases right with
      | namedType _ _ | maybe _ | enumerated _ | boolean => simp [precedence] at first
      | _ => rw [eqType, unfolded] <;> simp

theorem eqType_unfold_right {left right : RtsType} (second : left.precedence < right.precedence)
    : left.eqType right = left.eqType right.unfolded := by
  cases right with
  | byte | nat | string | array _ | record _ | sum _ | predicate _ =>
      exact absurd second (Nat.not_lt_zero _)
  | namedType ref expanded =>
      cases left with
      | namedType _ _ => exact absurd second (lt_irrefl _)
      | _ => rw [eqType, unfolded]; simp
  | maybe element =>
      cases left with
      | namedType _ _ | maybe _ => simp [precedence] at second
      | _ => rw [eqType, unfolded] <;> simp
  | enumerated names =>
      cases left with
      | namedType _ _ | maybe _ | enumerated _ => simp [precedence] at second
      | _ => rw [eqType, unfolded] <;> simp
  | boolean =>
      cases left with
      | namedType _ _ | maybe _ | enumerated _ | boolean => simp [precedence] at second
      | _ => rw [eqType, unfolded] <;> simp

theorem weight_unfolded {type : RtsType} (unfolds : 0 < type.precedence)
    : type.unfolded.weight < type.weight := by
  cases type with
  | byte | nat | string | array _ | record _ | sum _ | predicate _ =>
      exact absurd unfolds (lt_irrefl _)
  | namedType ref expanded => exact Nat.lt_succ_self _
  | maybe element =>
      rw [unfolded, weight_lowerMaybe, weight]
      exact Nat.lt_succ_self _
  | enumerated names =>
      rw [unfolded, weight_lowerEnum, weight]
      exact Nat.lt_succ_self _
  | boolean =>
      rw [unfolded, weight_lowerBool, weight]
      exact Nat.lt_succ_self _

theorem weight_le_weights {fields : List FieldDef} {field : FieldDef} (member : field ∈ fields)
    : field.type.weight ≤ weights fields := by
  induction fields with
  | nil => cases member
  | cons first rest ih =>
      obtain ⟨name, type⟩ := first
      rw [weights]
      rcases List.mem_cons.mp member with rfl | later
      · rw [FieldDef.type]
        omega
      · have below := ih later
        omega

theorem weight_parts {type part : RtsType} (isPart : part ∈ type.parts)
    : part.weight < type.weight := by
  cases type with
  | byte | nat | string | predicate _ | namedType _ _ | maybe _ | enumerated _ | boolean =>
      cases isPart
  | array element =>
      rw [List.mem_singleton.mp isPart]
      exact Nat.lt_succ_self _
  | record fields | sum fields =>
      obtain ⟨field, member, rfl⟩ := List.mem_map.mp isPart
      exact Nat.lt_succ_of_le (weight_le_weights member)

/-- What holds of two types if it holds whichever of them is unfolded first, of equal names,
`maybe`s and enumerations, and of types of the representation if it holds of their parts.
-/
theorem pair_induction {motive : RtsType → RtsType → Prop}
    (unfoldLeft : ∀ left right, right.precedence < left.precedence →
      motive left.unfolded right → motive left right)
    (unfoldRight : ∀ left right, left.precedence < right.precedence →
      motive left right.unfolded → motive left right)
    (named : ∀ ref left other right, motive left right →
      motive (.namedType ref left) (.namedType other right))
    (maybe : ∀ left right, motive left right → motive (.maybe left) (.maybe right))
    (enumerated : ∀ left right, motive (.enumerated left) (.enumerated right))
    (boolean : motive .boolean .boolean)
    (base : ∀ left right, left.precedence = 0 → right.precedence = 0 →
      (∀ part ∈ left.parts, ∀ other ∈ right.parts, motive part other) → motive left right)
    (left right : RtsType)
    : motive left right := by
  -- the induction is on the weight of both types together
  suffices below : ∀ bound left right, left.weight + right.weight < bound → motive left right from
    below _ left right (Nat.lt_succ_self _)
  intro bound
  induction bound with
  | zero => exact fun left right small => absurd small (Nat.not_lt_zero _)
  | succ bound ih =>
      intro left right small
      rcases Nat.lt_trichotomy left.precedence right.precedence with less | same | greater
      · have lighter := weight_unfolded (Nat.zero_lt_of_lt less)
        exact unfoldRight left right less (ih left right.unfolded (by omega))
      · by_cases isBase : right.precedence = 0
        · refine base left right (same.trans isBase) isBase fun part isPart other isOther => ?_
          have lighter := weight_parts isPart
          have otherLighter := weight_parts isOther
          exact ih part other (by omega)
        · cases left with
          | byte | nat | string | array _ | record _ | sum _ | predicate _ =>
              exact absurd same.symm isBase
          | namedType ref expanded =>
              cases right with
              | namedType other otherExpanded =>
                  simp only [weight] at small
                  exact named _ _ _ _ (ih _ _ (by omega))
              | _ => cases same
          | maybe element =>
              cases right with
              | maybe other =>
                  simp only [weight] at small
                  exact maybe _ _ (ih _ _ (by omega))
              | _ => cases same
          | enumerated names =>
              cases right with
              | enumerated others => exact enumerated _ _
              | _ => cases same
          | boolean =>
              cases right with
              | boolean => exact boolean
              | _ => cases same
      · have lighter := weight_unfolded (Nat.zero_lt_of_lt greater)
        exact unfoldLeft left right greater (ih left.unfolded right (by omega))

theorem eqFields_comm {left right : List FieldDef}
    (same : ∀ part ∈ left.map FieldDef.type, ∀ other ∈ right.map FieldDef.type,
      part.eqType other = other.eqType part)
    : eqFields left right = eqFields right left := by
  induction left generalizing right with
  | nil =>
      cases right with
      | nil => rfl
      | cons field rest => simp only [eqFields]
  | cons field rest ih =>
      obtain ⟨name, type⟩ := field
      cases right with
      | nil => simp only [eqFields]
      | cons otherField others =>
          obtain ⟨otherName, other⟩ := otherField
          have first := same type List.mem_cons_self other List.mem_cons_self
          have later := @ih others fun part isPart other isOther =>
            same part (List.mem_cons_of_mem _ isPart) other (List.mem_cons_of_mem _ isOther)
          rw [eqFields, eqFields, first, later]

theorem fieldReps_eq {left right : List FieldDef}
    (sound : ∀ part ∈ left.map FieldDef.type, ∀ other ∈ right.map FieldDef.type,
      part.eqType other → part.repType = other.repType)
    (same : eqFields left right)
    : fieldReps left = fieldReps right := by
  induction left generalizing right with
  | nil =>
      cases right with
      | nil => rfl
      | cons field rest => simp [eqFields] at same
  | cons field rest ih =>
      obtain ⟨name, type⟩ := field
      cases right with
      | nil => simp [eqFields] at same
      | cons otherField others =>
          obtain ⟨otherName, other⟩ := otherField
          rw [eqFields, Bool.and_eq_true] at same
          have first := sound type List.mem_cons_self other List.mem_cons_self same.1
          have later := @ih others (fun part isPart other isOther =>
            sound part (List.mem_cons_of_mem _ isPart) other (List.mem_cons_of_mem _ isOther)) same.2
          rw [fieldReps, fieldReps, first, later]

theorem fieldsExpand_iff {expand : TypeRef → RtsType} {fields : List FieldDef}
    : fieldsExpand expand fields ↔ ∀ part ∈ fields.map FieldDef.type, part.Expands expand := by
  induction fields with
  | nil => simp [fieldsExpand]
  | cons field rest ih =>
      obtain ⟨name, type⟩ := field
      rw [fieldsExpand, ih, List.map_cons, List.forall_mem_cons, FieldDef.type]

theorem Expands.parts {expand : TypeRef → RtsType} {type : RtsType} (expands : type.Expands expand)
    : ∀ part ∈ type.parts, part.Expands expand := by
  cases type with
  | byte | nat | string | predicate _ | namedType _ _ | maybe _ | enumerated _ | boolean =>
      exact fun part isPart => by cases isPart
  | array element =>
      intro part isPart
      rw [List.mem_singleton.mp isPart]
      exact expands
  | record fields | sum fields => exact fieldsExpand_iff.mp expands

theorem Expands.unfolded {expand : TypeRef → RtsType} {type : RtsType}
    (expands : type.Expands expand)
    : type.unfolded.Expands expand := by
  cases type with
  | byte | nat | string | array _ | record _ | sum _ | predicate _ => exact expands
  | namedType ref expanded => exact expands.2
  | maybe element => exact ⟨trivial, expands, trivial⟩
  | enumerated names =>
      refine fieldsExpand_iff.mpr fun part isPart => ?_
      obtain ⟨field, isField, rfl⟩ := List.mem_map.mp isPart
      obtain ⟨name, _, rfl⟩ := List.mem_map.mp isField
      exact trivial
  | boolean => exact ⟨trivial, trivial, trivial⟩

theorem repType_unfolded (type : RtsType) : type.unfolded.repType = type.repType := by
  cases type with
  | byte | nat | string | array _ | record _ | sum _ | predicate _ | namedType _ _ => rfl
  | maybe element => exact repType_lowerMaybe element
  | enumerated names => exact repType_lowerEnum names
  | boolean => rfl

theorem eqType_comm (left right : RtsType) : left.eqType right = right.eqType left := by
  induction left, right using pair_induction with
  | unfoldLeft left right greater ih =>
      rw [eqType_unfold_left greater, eqType_unfold_right greater, ih]
  | unfoldRight left right less ih =>
      rw [eqType_unfold_right less, eqType_unfold_left less, ih]
  | named ref left other right ih =>
      rw [eqType, eqType, ih]
      congr 1
      exact decide_eq_decide.mpr eq_comm
  | maybe left right ih =>
      rw [eqType, eqType, ih]
  | enumerated left right =>
      rw [eqType, eqType]
      exact decide_eq_decide.mpr eq_comm
  | boolean => rfl
  | base left right leftBase rightBase ih =>
      cases left with
      | namedType _ _ | maybe _ | enumerated _ | boolean => cases leftBase
      | array element =>
          cases right with
          | namedType _ _ | maybe _ | enumerated _ | boolean => cases rightBase
          | array other =>
              rw [eqType, eqType]
              exact ih element (List.mem_singleton_self _) other (List.mem_singleton_self _)
          | _ => simp only [eqType]
      | record fields =>
          cases right with
          | namedType _ _ | maybe _ | enumerated _ | boolean => cases rightBase
          | record others =>
              rw [eqType, eqType]
              exact eqFields_comm ih
          | _ => simp only [eqType]
      | sum fields =>
          cases right with
          | namedType _ _ | maybe _ | enumerated _ | boolean => cases rightBase
          | sum others =>
              rw [eqType, eqType]
              exact eqFields_comm ih
          | _ => simp only [eqType]
      | predicate pred =>
          cases right with
          | namedType _ _ | maybe _ | enumerated _ | boolean => cases rightBase
          | predicate other =>
              rw [eqType, eqType]
              exact decide_eq_decide.mpr eq_comm
          | _ => simp only [eqType]
      | _ =>
          cases right with
          | namedType _ _ | maybe _ | enumerated _ | boolean => cases rightBase
          | _ => simp only [eqType]

theorem repType_eq_of_eqType {expand : TypeRef → RtsType} {left right : RtsType}
    (leftExpands : left.Expands expand) (rightExpands : right.Expands expand)
    (equal : left.eqType right)
    : left.repType = right.repType := by
  induction left, right using pair_induction with
  | unfoldLeft left right greater ih =>
      rw [← repType_unfolded left]
      exact ih leftExpands.unfolded rightExpands (eqType_unfold_left greater ▸ equal)
  | unfoldRight left right less ih =>
      rw [← repType_unfolded right]
      exact ih leftExpands rightExpands.unfolded (eqType_unfold_right less ▸ equal)
  | named ref left other right ih =>
      rw [eqType, Bool.or_eq_true, decide_eq_true_eq] at equal
      rw [repType, repType]
      rcases equal with rfl | equal
      · rw [leftExpands.1, rightExpands.1]
      · exact ih leftExpands.2 rightExpands.2 equal
  | maybe left right ih =>
      rw [eqType] at equal
      rw [repType, repType, ih leftExpands rightExpands equal]
  | enumerated left right =>
      rw [eqType, decide_eq_true_eq] at equal
      rw [equal]
  | boolean => rfl
  | base left right leftBase rightBase ih =>
      have sound part isPart other isOther equalParts :=
        ih part isPart other isOther (leftExpands.parts part isPart)
          (rightExpands.parts other isOther) equalParts
      cases left with
      | namedType _ _ | maybe _ | enumerated _ | boolean => cases leftBase
      | array element =>
          cases right with
          | namedType _ _ | maybe _ | enumerated _ | boolean => cases rightBase
          | array other =>
              rw [eqType] at equal
              rw [repType, repType, sound element (List.mem_singleton_self _) other
                (List.mem_singleton_self _) equal]
          | _ => simp [eqType] at equal
      | record fields =>
          cases right with
          | namedType _ _ | maybe _ | enumerated _ | boolean => cases rightBase
          | record others =>
              rw [eqType] at equal
              rw [repType, repType, fieldReps_eq sound equal]
          | _ => simp [eqType] at equal
      | sum fields =>
          cases right with
          | namedType _ _ | maybe _ | enumerated _ | boolean => cases rightBase
          | sum others =>
              rw [eqType] at equal
              rw [repType, repType, fieldReps_eq sound equal]
          | _ => simp [eqType] at equal
      | predicate pred =>
          cases right with
          | namedType _ _ | maybe _ | enumerated _ | boolean => cases rightBase
          | predicate other =>
              rw [eqType, decide_eq_true_eq] at equal
              rw [repType, repType, equal]
          | _ => simp [eqType] at equal
      | _ =>
          cases right with
          | namedType _ _ | maybe _ | enumerated _ | boolean => cases rightBase
          | _ => first | rfl | simp [eqType] at equal

theorem eqFields_refl {fields : List FieldDef}
    (same : ∀ part ∈ fields.map FieldDef.type, part.eqType part)
    : eqFields fields fields := by
  induction fields with
  | nil => simp [eqFields]
  | cons field rest ih =>
      obtain ⟨name, type⟩ := field
      rw [List.map_cons, List.forall_mem_cons] at same
      rw [eqFields, Bool.and_eq_true]
      exact ⟨same.1, ih same.2⟩

theorem eqType_refl (type : RtsType) : type.eqType type := by
  -- the induction is on the weight of the type
  suffices below : ∀ bound (type : RtsType), type.weight < bound → type.eqType type from
    below _ type (Nat.lt_succ_self _)
  intro bound
  induction bound with
  | zero => exact fun type small => absurd small (Nat.not_lt_zero _)
  | succ bound ih =>
      intro type small
      have ofParts : ∀ part ∈ type.parts, part.eqType part := fun part isPart =>
        ih part (Nat.lt_of_lt_of_le (weight_parts isPart) (Nat.le_of_lt_succ small))
      cases type with
      | byte | nat | string | boolean | enumerated _ | predicate _ | namedType _ _ => simp [eqType]
      | array element =>
          rw [eqType]
          exact ofParts element (List.mem_singleton_self _)
      | record fields | sum fields =>
          rw [eqType]
          exact eqFields_refl ofParts
      | maybe element =>
          rw [eqType]
          rw [weight] at small
          exact ih element (by omega)

/-- A type is equal to itself, equality does not depend on the order of the two types, and where
names stand for one type each equal types have one representation.
-/
theorem equal_types_share_representation (expand : TypeRef → RtsType) (left right : RtsType)
    (leftExpands : left.Expands expand) (rightExpands : right.Expands expand)
    : left.eqType left
      ∧ left.eqType right = right.eqType left
      ∧ (left.eqType right → left.repType = right.repType) :=
  ⟨eqType_refl left, eqType_comm left right, repType_eq_of_eqType leftExpands rightExpands⟩

/-- A named optional number, and the sum that it is lowered to. -/
theorem equal_types_share_representation_lowered
    : (namedType ⟨"Limit", 1⟩ (maybe nat)).repType = (lowerMaybe nat).repType :=
  (equal_types_share_representation (fun _ => maybe nat) (namedType ⟨"Limit", 1⟩ (maybe nat))
    (lowerMaybe nat) ⟨rfl, trivial⟩ ⟨trivial, trivial, trivial⟩).2.2
    (by simp [eqType, lowerMaybe, maybeFields, eqFields, unit])

end RtsType

end Glean.Schema
