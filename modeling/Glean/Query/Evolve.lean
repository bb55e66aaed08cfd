import Glean.RTS.ValueCodec
import Glean.Schema.TypecheckSchema

/-! Facts of an evolved predicate as facts of the predicate that a query asked for
(`Query/Evolve.hs`, `unEvolveResults`).
-/

namespace Glean.Schema

open Glean.RTS

namespace RtsType

/-- `derefType` -/
def derefType : RtsType → RtsType
  | .namedType _ expanded => expanded.derefType
  | type => type

theorem weight_derefType_le (type : RtsType) : type.derefType.weight ≤ type.weight := by
  cases type with
  | namedType ref expanded =>
      have inner := weight_derefType_le expanded
      simp only [derefType, weight]
      omega
  | byte | nat | string | array _ | record _ | sum _ | predicate _ | maybe _ | enumerated _
  | boolean => exact Nat.le_refl _

mutual

/-- `repType` -/
def repType : RtsType → Rep
  | .byte => .byte
  | .nat => .nat
  | .string => .string
  | .array element => .array element.repType
  | .record fields => .tuple (fieldReps fields)
  | .sum fields => .sum (fieldReps fields)
  | .predicate pred => .predicate pred.pid
  | .namedType _ expanded => expanded.repType
  | .maybe element => .sum [.tuple [], element.repType]
  | .enumerated names => .sum (names.map fun _ => .tuple [])
  | .boolean => .sum [.tuple [], .tuple []]

def fieldReps : List FieldDef → List Rep
  | [] => []
  | .mk _ type :: fields => type.repType :: fieldReps fields

end

theorem fieldReps_eq_map (fields : List FieldDef)
    : fieldReps fields = fields.map fun field => field.type.repType := by
  induction fields with
  | nil => rfl
  | cons field fields ih =>
      obtain ⟨name, type⟩ := field
      rw [fieldReps, ih]
      rfl

theorem repType_lowerMaybe (type : RtsType) : (lowerMaybe type).repType = (maybe type).repType :=
  rfl

theorem repType_lowerEnum (names : List Name)
    : (lowerEnum names).repType = (enumerated names).repType := by
  rw [lowerEnum, repType, repType, fieldReps_eq_map, enumFields, List.map_map]
  rfl

end RtsType

/-- What is done to a value: nothing, or a function that fails for values of other types. -/
abbrev Transformation := Option (Term → Outcome Term)

/-- The change of a field; others stay as they are. -/
def changeOf (transforms : AssocMap Name (Term → Outcome Term)) (name : Name)
    : Term → Outcome Term :=
  (transforms.lookup name).getD .ok

/-- The terms of a tuple, each changed as one of the fields. -/
def changeFields (change : Name → Term → Outcome Term) : List Name → List Term → Outcome (List Term)
  | field :: fields, content :: contents => do
      return (← change field content) :: (← changeFields change fields contents)
  | _, _ => .ok []

/-- The alternatives of two sums that have the same names. -/
def altMap (fromNames toNames : List Name) (change : Name → Term → Outcome Term)
    : AssocMap Nat (Nat × (Term → Outcome Term)) :=
  .fromList (fromNames.zipIdx.flatMap fun (nameFrom, fromAlt) =>
    toNames.zipIdx.filterMap fun (nameTo, toAlt) =>
      if nameFrom = nameTo then some (fromAlt, (toAlt, change nameFrom)) else none)

def transformRecord (fromNames toNames : List Name)
    (transforms : AssocMap Name (Term → Outcome Term))
    : Transformation :=
  if fromNames = toNames ∧ transforms.entries.isEmpty then
    none
  else
    some fun
      | .tuple contents => do
          return .tuple (← changeFields (changeOf transforms) toNames contents)
      | _ => .error "expected Tuple"

def transformSum (fromNames toNames : List Name)
    (transforms : AssocMap Name (Term → Outcome Term))
    : Transformation :=
  if fromNames = toNames ∧ transforms.entries.isEmpty then
    none
  else
    some fun
      | .alt selector content =>
          match (altMap fromNames toNames (changeOf transforms)).lookup selector with
          | none => .ok (.alt selector content)
          | some (selector', change) => do return .alt selector' (← change content)
      | _ => .error "expected Alt"

def transformArray (transformation : Transformation) : Transformation :=
  transformation.map fun change term =>
    match term with
    | .array elements => do return .array (← elements.mapM change)
    | _ => .error "expected Array"

mutual

/-- `mkValueTransformation` -/
def mkValueTransformation : RtsType → RtsType → Outcome Transformation
  | .namedType _ expanded, toType => mkValueTransformation expanded.derefType toType
  | fromType, .namedType _ expanded => mkValueTransformation fromType expanded.derefType
  | .byte, .byte => .ok none
  | .nat, .nat => .ok none
  | .string, .string => .ok none
  | .boolean, .boolean => .ok none
  | .maybe fromType, .maybe toType =>
      mkValueTransformation (RtsType.lowerMaybe fromType) (RtsType.lowerMaybe toType)
  | .predicate _, .predicate _ => .ok none
  | .enumerated fromNames, .enumerated toNames =>
      mkValueTransformation (RtsType.lowerEnum fromNames) (RtsType.lowerEnum toNames)
  | .array fromType, .array toType => do
      return transformArray (← mkValueTransformation fromType toType)
  | .record fromFields, .record toFields => do
      return transformRecord (fromFields.map FieldDef.name) (toFields.map FieldDef.name)
        (.fromList (← transformsFor fromFields toFields))
  | .sum fromFields, .sum toFields => do
      return transformSum (fromFields.map FieldDef.name) (toFields.map FieldDef.name)
        (.fromList (← transformsFor fromFields toFields))
  | _, _ => .error "invalid type conversion"
termination_by fromType toType => fromType.weight + toType.weight
decreasing_by
  all_goals
    simp only [RtsType.weight, RtsType.weight_lowerMaybe, RtsType.weight_lowerEnum]
    try have := RtsType.weight_derefType_le expanded
    omega

/-- The transformations of the fields that have one. -/
def transformsFor : List FieldDef → List FieldDef → Outcome (List (Name × (Term → Outcome Term)))
  | [], _ => .ok []
  | .mk name type :: fields, toFields => do
      return (← transformsForField name type toFields) ++ (← transformsFor fields toFields)
termination_by fromFields toFields => RtsType.weights fromFields + RtsType.weights toFields
decreasing_by
  all_goals
    simp only [RtsType.weights]
    omega

def transformsForField (name : Name) (type : RtsType)
    : List FieldDef → Outcome (List (Name × (Term → Outcome Term)))
  | [] => .ok []
  | .mk nameTo typeTo :: toFields => do
      let others ← transformsForField name type toFields
      if name = nameTo then
        match ← mkValueTransformation type typeTo with
        | some change => return (name, change) :: others
        | none => return others
      else
        return others
termination_by toFields => type.weight + RtsType.weights toFields
decreasing_by
  all_goals
    simp only [RtsType.weights]
    omega

end

/-- `Thrift.Fact` -/
structure ResultFact where
  pid : Pid
  key : Bytes
  value : Bytes

/-- `QueryResults`, the facts of it. -/
structure QueryResults where
  facts : List (Id × ResultFact)
  nestedFacts : List (Id × ResultFact)

section Facts

variable (varint : Varint) (u8 : U8Next)

/-- The encoding of a value after a transformation, if there is one. -/
def transformBytes (rep : Rep) (transformation : Transformation) (bytes : Bytes)
    : Outcome Bytes := do
  let term ← ValueCodec.toValue varint u8 rep bytes
  return ValueCodec.fromValue varint (← transformation.getD .ok term)

/-- `mkFactTransformation` -/
def mkFactTransformation (detailsFrom detailsTo : PredicateDetails)
    : Outcome (Option (ResultFact → Outcome ResultFact)) := do
  let transformKey ← mkValueTransformation detailsFrom.keyType detailsTo.keyType
  let transformValue ← mkValueTransformation detailsFrom.valueType detailsTo.valueType
  if transformKey.isNone && transformValue.isNone then
    return none
  else
    return some fun fact => do
      let key ← transformBytes varint u8 detailsFrom.keyType.repType transformKey fact.key
      let value ← transformBytes varint u8 detailsFrom.valueType.repType transformValue fact.value
      return ⟨detailsTo.pid, key, value⟩

variable (lookupPid : Pid → Option PredicateDetails)

/-- The transformation of the facts of a predicate, for a map of evolved predicates to those that
the query asked for.
-/
def transformationOf (mappings : AssocMap Pid Pid) (pid : Pid)
    : Outcome (Option (ResultFact → Outcome ResultFact)) :=
  match mappings.lookup pid with
  | none => .ok none
  | some pidTo =>
      match lookupPid pid, lookupPid pidTo with
      | some detailsFrom, some detailsTo => mkFactTransformation varint u8 detailsFrom detailsTo
      | _, _ => .ok none

def unEvolveFact (mappings : AssocMap Pid Pid) (fact : ResultFact) : Outcome ResultFact := do
  match ← transformationOf varint u8 lookupPid mappings fact.pid with
  | none => return fact
  | some change => change fact

def unEvolveFacts (mappings : AssocMap Pid Pid) (facts : List (Id × ResultFact))
    : Outcome (List (Id × ResultFact)) :=
  facts.mapM fun (id, fact) => do return (id, ← unEvolveFact varint u8 lookupPid mappings fact)

/-- `unEvolveResults` -/
def unEvolveResults (mappings : AssocMap Pid Pid) (results : QueryResults)
    : Outcome QueryResults :=
  if mappings.entries.isEmpty then
    .ok results
  else do
    return ⟨← unEvolveFacts varint u8 lookupPid mappings results.facts,
      ← unEvolveFacts varint u8 lookupPid mappings results.nestedFacts⟩

end Facts

end Glean.Schema
