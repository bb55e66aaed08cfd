import Glean.Schema.SchemaStep

/-! The types of stored derived predicates: which predicates they mention, and what the check of
them, which follows named types through the table of types, says about these.
-/

namespace Glean.Schema

open Glean.RTS FallibleFold

def DerivingInfo.derivedAndStored {Q : Type} : DerivingInfo Q → Bool
  | .derive .derivedAndStored _ => true
  | _ => false

/-- There is a derivation, and its facts are not stored. -/
def DerivingInfo.derivedNotStored {Q : Type} : DerivingInfo Q → Bool
  | .derive .deriveOnDemand _ | .derive .deriveIfEmpty _ => true
  | _ => false

/-- The predicates that the key or value of a predicate refer to. -/
def PredicateDetails.typeDeps (details : PredicateDetails) : List PredicateRef :=
  Schema.typeDeps details.keyType ++ Schema.typeDeps details.valueType

/-- No stored derived predicate refers to a derived predicate that is not stored. -/
def StoredReferToStored (preds : AssocMap PredicateRef PredicateDetails) : Prop :=
  ∀ ref details, preds.lookup ref = some details → details.deriving_.derivedAndStored = true →
    ∀ dep ∈ details.typeDeps, ∀ target, preds.lookup dep = some target →
      target.deriving_.derivedNotStored = false

mutual

/-- The named types in a type, outside of their expansions. -/
def namedTypes : RtsType → List (TypeRef × RtsType)
  | .byte | .nat | .string | .enumerated _ | .boolean | .predicate _ => []
  | .array element => namedTypes element
  | .record fields => namedTypesOf fields
  | .sum fields => namedTypesOf fields
  | .namedType ref expanded => [(ref, expanded)]
  | .maybe element => namedTypes element

def namedTypesOf : List FieldDef → List (TypeRef × RtsType)
  | [] => []
  | .mk _ type :: fields => namedTypes type ++ namedTypesOf fields

end

theorem mem_namedTypesOf {fields : List FieldDef} {named : TypeRef × RtsType}
    : named ∈ namedTypesOf fields ↔ ∃ field ∈ fields, named ∈ namedTypes field.type := by
  induction fields with
  | nil => simp [namedTypesOf]
  | cons field fields ih =>
      obtain ⟨name, type⟩ := field
      rw [namedTypesOf, List.mem_append, ih, List.exists_mem_cons_iff]
      rfl

theorem mem_fieldsDeps {fields : List FieldDef} {dep : PredicateRef}
    : dep ∈ fieldsDeps fields ↔ ∃ field ∈ fields, dep ∈ typeDeps field.type := by
  induction fields with
  | nil => simp [fieldsDeps]
  | cons field fields ih =>
      obtain ⟨name, type⟩ := field
      rw [fieldsDeps, List.mem_append, ih, List.exists_mem_cons_iff]
      rfl

/-- Two types mention the same predicates. -/
def SameDeps (left right : RtsType) : Prop := ∀ dep, dep ∈ typeDeps left ↔ dep ∈ typeDeps right

theorem SameDeps.refl (type : RtsType) : SameDeps type type := fun _ => Iff.rfl

theorem SameDeps.symm {left right : RtsType} (same : SameDeps left right)
    : SameDeps right left :=
  fun dep => (same dep).symm

theorem SameDeps.trans {left middle right : RtsType} (first : SameDeps left middle)
    (second : SameDeps middle right)
    : SameDeps left right :=
  fun dep => (first dep).trans (second dep)

/-- The table has a type under a name, which mentions the predicates that an expansion does. -/
def Stands (types : AssocMap TypeRef RtsType) (ref : TypeRef) (expanded : RtsType) : Prop :=
  ∃ type, types.lookup ref = some type ∧ SameDeps expanded type

def Closed (types : AssocMap TypeRef RtsType) (type : RtsType) : Prop :=
  ∀ named ∈ namedTypes type, Stands types named.1 named.2

/-- All types of one table stand in another. -/
def Extends (types later : AssocMap TypeRef RtsType) : Prop :=
  ∀ ref type, types.lookup ref = some type → Stands later ref type

theorem Stands.mono {types later : AssocMap TypeRef RtsType} {ref : TypeRef} {expanded : RtsType}
    (stands : Stands types ref expanded) (extended : Extends types later)
    : Stands later ref expanded := by
  obtain ⟨type, found, same⟩ := stands
  obtain ⟨type', found', same'⟩ := extended ref type found
  exact ⟨type', found', same.trans same'⟩

theorem Closed.mono {types later : AssocMap TypeRef RtsType} {type : RtsType}
    (closed : Closed types type) (extended : Extends types later)
    : Closed later type :=
  fun named member => (closed named member).mono extended

/-- A type that passes the check refers to predicates of the table only, none of them derived and
not stored. The induction follows the check, into the types of the table.
-/
theorem refers_of_checkStoredType {preds : AssocMap PredicateRef PredicateDetails}
    {types : AssocMap TypeRef RtsType} {ref : PredicateRef} {fuel : Nat} {type : RtsType}
    (tableClosed : ∀ ref type, types.lookup ref = some type → Closed types type)
    (closed : Closed types type)
    (checked : checkStoredType preds types ref fuel type = .ok ())
    : ∀ dep ∈ typeDeps type,
        ∃ target, preds.lookup dep = some target
          ∧ target.deriving_.derivedNotStored = false := by
  induction fuel generalizing type with
  | zero => cases checked
  | succ fuel ih =>
      intro dep member
      have ofFields {fields : List FieldDef}
          (closed : ∀ named ∈ namedTypesOf fields, Stands types named.1 named.2)
          (checked
            : (fields.forM fun field => checkStoredType preds types ref fuel field.type) = .ok ())
          (member : dep ∈ fieldsDeps fields)
          : ∃ target, preds.lookup dep = some target
            ∧ target.deriving_.derivedNotStored = false := by
        obtain ⟨field, inFields, member⟩ := mem_fieldsDeps.mp member
        have fieldClosed : Closed types field.type :=
          fun named inField => closed named (mem_namedTypesOf.mpr ⟨field, inFields, inField⟩)
        exact ih fieldClosed (forM_ok.mp checked field inFields) dep member
      cases type with
      | byte | nat | string | enumerated _ | boolean => cases member
      | array element =>
          have elementClosed : Closed types element := closed
          exact ih elementClosed checked dep member
      | maybe element =>
          have elementClosed : Closed types element := closed
          exact ih elementClosed checked dep member
      | record fields => exact ofFields closed checked member
      | sum fields => exact ofFields closed checked member
      | predicate pred =>
          obtain rfl := List.mem_singleton.mp member
          simp only [checkStoredType] at checked
          cases found : preds.lookup pred.ref with
          | none =>
              rw [found] at checked
              cases checked
          | some target =>
              rw [found] at checked
              refine ⟨target, rfl, ?_⟩
              cases isDeriving : target.deriving_ with
              | noDeriving => rfl
              | derive when query =>
                  simp only [isDeriving] at checked
                  cases when with
                  | derivedAndStored => rfl
                  | deriveOnDemand => cases checked
                  | deriveIfEmpty => cases checked
      | namedType typeRef expanded =>
          obtain ⟨standing, found, same⟩ := closed _ List.mem_cons_self
          simp only [checkStoredType, found] at checked
          exact ih (tableClosed _ _ found) checked dep ((same dep).mp member)

section Expansion

variable {lookupType later : TypeRef → Option RtsType} {lookupPid : PredicateRef → Option Pid}

mutual

/-- The named types of an expanded type are those that were looked up. -/
theorem namedTypes_mkRtsType {type : SourceType} {expanded : RtsType}
    (expands : mkRtsType lookupType lookupPid type = some expanded) {ref : TypeRef} {inner : RtsType}
    (member : (ref, inner) ∈ namedTypes expanded)
    : lookupType ref = some inner := by
  cases type with
  | byte | nat | string | enumerated _ | boolean =>
      cases expands
      cases member
  | array element =>
      obtain ⟨element', expandsElement, ⟨⟩⟩ := Option.bind_eq_some_iff.mp expands
      exact namedTypes_mkRtsType expandsElement member
  | maybe element =>
      obtain ⟨element', expandsElement, ⟨⟩⟩ := Option.bind_eq_some_iff.mp expands
      exact namedTypes_mkRtsType expandsElement member
  | record fields =>
      obtain ⟨fields', expandsFields, ⟨⟩⟩ := Option.bind_eq_some_iff.mp expands
      exact namedTypes_mkFieldDefs expandsFields member
  | sum fields =>
      obtain ⟨fields', expandsFields, ⟨⟩⟩ := Option.bind_eq_some_iff.mp expands
      exact namedTypes_mkFieldDefs expandsFields member
  | predicate pred =>
      obtain ⟨pid, -, ⟨⟩⟩ := Option.bind_eq_some_iff.mp expands
      cases member
  | namedType name =>
      obtain ⟨type, isType, ⟨⟩⟩ := Option.bind_eq_some_iff.mp expands
      cases List.mem_singleton.mp member
      exact isType

theorem namedTypes_mkFieldDefs {fields : List SourceFieldDef} {expanded : List FieldDef}
    (expands : mkFieldDefs lookupType lookupPid fields = some expanded) {ref : TypeRef}
    {inner : RtsType} (member : (ref, inner) ∈ namedTypesOf expanded)
    : lookupType ref = some inner := by
  cases fields with
  | nil =>
      cases expands
      cases member
  | cons field fields =>
      obtain ⟨name, type⟩ := field
      obtain ⟨type', expandsType, expands⟩ := Option.bind_eq_some_iff.mp expands
      obtain ⟨types', expandsTypes, ⟨⟩⟩ := Option.bind_eq_some_iff.mp expands
      rcases List.mem_append.mp member with first | others
      · exact namedTypes_mkRtsType expandsType first
      · exact namedTypes_mkFieldDefs expandsTypes others

end

mutual

/-- What can be expanded does not change when more types can be looked up. -/
theorem mkRtsType_mono (extended : ∀ ref type, lookupType ref = some type → later ref = some type)
    {type : SourceType} {expanded : RtsType}
    (expands : mkRtsType lookupType lookupPid type = some expanded)
    : mkRtsType later lookupPid type = some expanded := by
  cases type with
  | byte | nat | string | enumerated _ | boolean => exact expands
  | array element =>
      obtain ⟨element', expandsElement, ⟨⟩⟩ := Option.bind_eq_some_iff.mp expands
      exact Option.bind_eq_some_iff.mpr ⟨_, mkRtsType_mono extended expandsElement, rfl⟩
  | maybe element =>
      obtain ⟨element', expandsElement, ⟨⟩⟩ := Option.bind_eq_some_iff.mp expands
      exact Option.bind_eq_some_iff.mpr ⟨_, mkRtsType_mono extended expandsElement, rfl⟩
  | record fields =>
      obtain ⟨fields', expandsFields, ⟨⟩⟩ := Option.bind_eq_some_iff.mp expands
      exact Option.bind_eq_some_iff.mpr ⟨_, mkFieldDefs_mono extended expandsFields, rfl⟩
  | sum fields =>
      obtain ⟨fields', expandsFields, ⟨⟩⟩ := Option.bind_eq_some_iff.mp expands
      exact Option.bind_eq_some_iff.mpr ⟨_, mkFieldDefs_mono extended expandsFields, rfl⟩
  | predicate pred => exact expands
  | namedType name =>
      obtain ⟨type, isType, ⟨⟩⟩ := Option.bind_eq_some_iff.mp expands
      exact Option.bind_eq_some_iff.mpr ⟨_, extended _ _ isType, rfl⟩

theorem mkFieldDefs_mono (extended : ∀ ref type, lookupType ref = some type → later ref = some type)
    {fields : List SourceFieldDef} {expanded : List FieldDef}
    (expands : mkFieldDefs lookupType lookupPid fields = some expanded)
    : mkFieldDefs later lookupPid fields = some expanded := by
  cases fields with
  | nil => exact expands
  | cons field fields =>
      obtain ⟨name, type⟩ := field
      obtain ⟨type', expandsType, expands⟩ := Option.bind_eq_some_iff.mp expands
      obtain ⟨types', expandsTypes, ⟨⟩⟩ := Option.bind_eq_some_iff.mp expands
      refine Option.bind_eq_some_iff.mpr ⟨_, mkRtsType_mono extended expandsType, ?_⟩
      exact Option.bind_eq_some_iff.mpr ⟨_, mkFieldDefs_mono extended expandsTypes, rfl⟩

end

end Expansion

section Schema

variable {Q : Type} {refToPid : PredicateRef → Option Pid} {env : TcEnv}
  {schema : ResolvedSchema Q} {ref : TypeRef} {type : RtsType}

theorem lookupTypeWithin_succ {fuel : Nat}
    (found : lookupTypeWithin refToPid env schema fuel ref = some type)
    : lookupTypeWithin refToPid env schema (fuel + 1) ref = some type := by
  induction fuel generalizing ref type with
  | zero => cases found
  | succ fuel ih =>
      unfold lookupTypeWithin at found ⊢
      cases isDefined : schema.types.lookup ref with
      | none => simpa only [isDefined] using found
      | some definition =>
          simp only [isDefined] at found ⊢
          exact mkRtsType_mono (fun _ _ => ih) found

/-- What is looked up is the expansion of a type of the schema, or comes from the environment. -/
theorem lookupType_cases (found : lookupType refToPid env schema ref = some type)
    : (ref, type) ∈ schemaTypes refToPid env schema ∨ env.types.lookup ref = some type := by
  unfold lookupType at found
  have expands := found
  unfold lookupTypeWithin at found
  cases isDefined : schema.types.lookup ref with
  | none =>
      simp only [isDefined] at found
      exact .inr found
  | some definition =>
      simp only [isDefined] at found
      refine .inl (List.mem_filterMap.mpr ⟨(ref, definition), AssocMap.mem_of_lookup isDefined, ?_⟩)
      have whole : rtsType refToPid env schema definition = some type :=
        mkRtsType_mono (fun _ _ => lookupTypeWithin_succ) found
      exact Option.map_eq_some_iff.mpr ⟨type, whole, rfl⟩

/-- The schema has one expansion of each of its types. -/
theorem schemaTypes_unique {other : RtsType}
    (member : (ref, type) ∈ schemaTypes refToPid env schema)
    (isOther : (ref, other) ∈ schemaTypes refToPid env schema)
    : type = other := by
  have expansion {type : RtsType} (member : (ref, type) ∈ schemaTypes refToPid env schema)
      : ∃ definition, schema.types.lookup ref = some definition
        ∧ rtsType refToPid env schema definition = some type := by
    obtain ⟨⟨name, definition⟩, inSchema, isExpansion⟩ := List.mem_filterMap.mp member
    obtain ⟨expanded, expands, ⟨⟩⟩ := Option.map_eq_some_iff.mp isExpansion
    exact ⟨definition, AssocMap.lookup_of_mem inSchema, expands⟩
  obtain ⟨definition, isDefinition, expands⟩ := expansion member
  obtain ⟨definition', isDefinition', expands'⟩ := expansion isOther
  rw [isDefinition] at isDefinition'
  cases isDefinition'
  rw [expands] at expands'
  exact Option.some.inj expands'

/-- The types of a schema mention the predicates that types of these names mention already. -/
def KeepsTypes (refToPid : PredicateRef → Option Pid) (env : TcEnv) (schema : ResolvedSchema Q)
    : Prop :=
  ∀ ref type old, (ref, type) ∈ schemaTypes refToPid env schema → env.types.lookup ref = some old →
    SameDeps type old

variable {override : Override} {types : AssocMap TypeRef RtsType}

section Merged

variable (keeps : KeepsTypes refToPid env schema)
  (merged : mergeTypes override refToPid env schema = .ok types)

include keeps merged

theorem mergeTypes_extends : Extends env.types types := by
  intro ref old isOld
  obtain ⟨type, found⟩ := mergeDefinitions_grows merged isOld
  refine ⟨type, found, ?_⟩
  rcases mergeDefinitions_source merged found with same | fromSchema
  · rw [isOld] at same
    cases same
    exact SameDeps.refl _
  · exact (keeps ref type old fromSchema isOld).symm

theorem mergeTypes_defines (member : (ref, type) ∈ schemaTypes refToPid env schema)
    : Stands types ref type := by
  obtain ⟨standing, found⟩ := mergeDefinitions_defines merged member
  refine ⟨standing, found, ?_⟩
  rcases mergeDefinitions_source merged found with isOld | fromSchema
  · exact keeps ref type standing member isOld
  · rw [schemaTypes_unique member fromSchema]
    exact SameDeps.refl _

/-- The types that a schema expands are closed in the merged table. -/
theorem closed_of_rtsType {source : SourceType}
    (expands : rtsType refToPid env schema source = some type)
    : Closed types type := by
  intro named member
  rcases lookupType_cases (namedTypes_mkRtsType expands member) with fromSchema | fromEnv
  · exact mergeTypes_defines keeps merged fromSchema
  · exact mergeTypes_extends keeps merged named.1 named.2 fromEnv

/-- The merged table is closed when the one before is. -/
theorem mergeTypes_closed
    (tableClosed : ∀ ref type, env.types.lookup ref = some type → Closed env.types type)
    : ∀ ref type, types.lookup ref = some type → Closed types type := by
  intro ref type found
  rcases mergeDefinitions_source merged found with isOld | fromSchema
  · exact (tableClosed ref type isOld).mono (mergeTypes_extends keeps merged)
  · obtain ⟨⟨name, definition⟩, -, isExpansion⟩ := List.mem_filterMap.mp fromSchema
    obtain ⟨expanded, expands, ⟨⟩⟩ := Option.map_eq_some_iff.mp isExpansion
    exact closed_of_rtsType keeps merged expands

end Merged

end Schema

end Glean.Schema
