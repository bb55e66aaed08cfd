import Glean.Library.AssocMap
import Glean.Schema.Query
import Mathlib.Data.Finset.Basic
import Mathlib.Data.Finset.Insert

/-! Schemas are typechecked one after the other, in dependency order, each in the environment that
the ones before it have built (`Database/Schema.hs`).
-/

namespace Glean.Schema

open Glean.RTS

/-- `DeriveWhen` -/
inductive DeriveWhen where
  | deriveOnDemand
  | derivedAndStored
  | deriveIfEmpty
  deriving DecidableEq

/-- `DerivingInfo` -/
inductive DerivingInfo (Q : Type) where
  | noDeriving
  | derive (when : DeriveWhen) (query : Q)

structure PredicateDef where
  keyType : SourceType
  valueType : SourceType

/-- `PredicateDetails`, without the compiled subroutines. -/
structure PredicateDetails where
  pid : Pid
  ref : PredicateRef
  keyType : RtsType
  valueType : RtsType
  deriving_ : DerivingInfo TcQuery
  inStoredSchema : Bool

structure TcEnv where
  types : AssocMap TypeRef RtsType
  predicates : AssocMap PredicateRef PredicateDetails
  usesNegation : Finset PredicateRef

def emptyTcEnv : TcEnv := ⟨.empty, .empty, ∅⟩

/-- The parts of a `ResolvedSchema` that are typechecked. -/
structure ResolvedSchema (Q : Type) where
  predicates : AssocMap PredicateRef PredicateDef
  types : AssocMap TypeRef SourceType
  deriving_ : AssocMap PredicateRef (DerivingInfo Q)

inductive Override where
  | takeOld
  | takeNew
  | mustBeEqual

/-- `DbContent`: the number of facts of each predicate is known of a database that is read only. -/
inductive DbContent where
  | dbWritable
  | dbReadOnly (stats : Pid → Option Nat)

/-- What the typechecker of queries and the library of graphs give: the query of a derivation for a
predicate, and the vertices of a graph in topological order.
-/
structure Checker (Q : Type) where
  typecheckQuery : TcEnv → ResolvedSchema Q → PredicateDetails → Q → Except String TcQuery
  topSort : List (PredicateRef × List PredicateRef) → List PredicateRef

def showPredicateRef (ref : PredicateRef) : String := ref.name ++ "." ++ toString ref.version

def showTypeRef (ref : TypeRef) : String := ref.name ++ "." ++ toString ref.version

section Schema

variable {Q : Type} (checker : Checker Q) (override : Override)
  (refToPid : PredicateRef → Option Pid) (dbContent : DbContent) (stored : Bool) (env : TcEnv)
  (schema : ResolvedSchema Q)

/-- `lookupType`: a type of the schema, expanded, or one of the environment. Types are not
recursive, so the number of types of the schema bounds the depth of the expansion.
-/
def lookupTypeWithin : Nat → TypeRef → Option RtsType
  | 0, _ => none
  | fuel + 1, ref =>
      match schema.types.lookup ref with
      | none => env.types.lookup ref
      | some type => mkRtsType (lookupTypeWithin fuel) refToPid type

def lookupType (ref : TypeRef) : Option RtsType :=
  lookupTypeWithin refToPid env schema (schema.types.entries.length + 1) ref

def rtsType (type : SourceType) : Option RtsType :=
  mkRtsType (lookupType refToPid env schema) refToPid type

/-- The predicates that the schema defines and the database has. -/
def schemaPredicates : List PredicateDetails :=
  schema.predicates.entries.filterMap fun (ref, predicate) =>
    match refToPid ref, rtsType refToPid env schema predicate.keyType,
        rtsType refToPid env schema predicate.valueType with
    | some pid, some keyType, some valueType =>
        some ⟨pid, ref, keyType, valueType, .noDeriving, stored⟩
    | _, _, _ => none

/-- The types that the schema defines, of predicates that the database has. -/
def schemaTypes : List (TypeRef × RtsType) :=
  schema.types.entries.filterMap fun (ref, type) =>
    (rtsType refToPid env schema type).map fun type => (ref, type)

/-- `insert`: which of two definitions is taken. -/
def insertDefinition {K V : Type} [DecidableEq K] (compare : V → V → Except String Unit)
    (map : AssocMap K V) (entry : K × V)
    : Except String (AssocMap K V) :=
  match override with
  | .takeOld => .ok (map.insertNew entry.1 entry.2)
  | .takeNew => .ok (map.insert entry.1 entry.2)
  | .mustBeEqual =>
      match map.lookup entry.1 with
      | some old => do
          compare old entry.2
          return map
      | none => .ok (map.insert entry.1 entry.2)

def comparePredicates (left right : PredicateDetails) : Except String Unit :=
  if !left.keyType.eqType right.keyType || !left.valueType.eqType right.valueType then
    .error ("predicate " ++ showPredicateRef left.ref ++ " has changed")
  else
    .ok ()

def compareTypes (ref : TypeRef) (left right : RtsType) : Except String Unit :=
  if !left.eqType right then .error ("type " ++ showTypeRef ref ++ " has changed") else .ok ()

def mergePredicates : Except String (AssocMap PredicateRef PredicateDetails) :=
  (schemaPredicates refToPid stored env schema).foldlM
    (fun preds details =>
      insertDefinition override comparePredicates preds (details.ref, details))
    env.predicates

def mergeTypes : Except String (AssocMap TypeRef RtsType) :=
  (schemaTypes refToPid env schema).foldlM
    (fun types entry => insertDefinition override (compareTypes entry.1) types entry)
    env.types

/-- `typecheckDeriving` -/
def typecheckDeriving (tcEnv : TcEnv) (details : PredicateDetails) (info : DerivingInfo Q)
    : Except String (DerivingInfo TcQuery) :=
  match info with
  | .noDeriving => .ok .noDeriving
  | .derive when query => do
      let query ← checker.typecheckQuery tcEnv schema details query
      return .derive when query

/-- The predicates that have derivations in the schema, with them. -/
def typecheckDerivings (tcEnv : TcEnv) : Except String (List PredicateDetails) :=
  (schema.deriving_.entries.filterMap fun (ref, info) =>
    (tcEnv.predicates.lookup ref).map fun details => (details, info)).mapM
      fun (details, info) => do
        let info ← typecheckDeriving checker schema tcEnv details info
        return { details with deriving_ := info }

/-- `addDeriving`: whether a derivation is attached to its predicate. -/
def addDeriving (details : PredicateDetails) : Bool :=
  match details.deriving_, override with
  | .derive .deriveIfEmpty _, _ =>
      match dbContent with
      | .dbWritable => false
      | .dbReadOnly stats => (stats details.pid).all (· == 0)
  | _, .takeNew => true
  | _, _ => details.inStoredSchema == stored

def mergeDeriving (preds : AssocMap PredicateRef PredicateDetails) (details : PredicateDetails)
    : AssocMap PredicateRef PredicateDetails :=
  if addDeriving override dbContent stored details then
    preds.insert details.ref details
  else
    preds.insertNew details.ref details

/-- `checkStoredType`. Named types are looked up; as they are not recursive, the types of the
environment bound the depth.
-/
def checkStoredType (preds : AssocMap PredicateRef PredicateDetails)
    (types : AssocMap TypeRef RtsType) (ref : PredicateRef)
    : Nat → RtsType → Except String Unit
  | 0, _ => .error "checkStoredType"
  | fuel + 1, type =>
      match type with
      | .array element => checkStoredType preds types ref fuel element
      | .maybe element => checkStoredType preds types ref fuel element
      | .record fields => fields.forM fun field => checkStoredType preds types ref fuel field.type
      | .sum fields => fields.forM fun field => checkStoredType preds types ref fuel field.type
      | .predicate pred =>
          match preds.lookup pred.ref with
          | none => .error "checkStoredType"
          | some details =>
              match details.deriving_ with
              | .derive .derivedAndStored _ => .ok ()
              | .derive _ _ =>
                  .error ("stored predicate " ++ showPredicateRef ref
                    ++ " refers to non-stored derived predicate " ++ showPredicateRef pred.ref)
              | .noDeriving => .ok ()
      | .namedType typeRef _ =>
          match types.lookup typeRef with
          | some type => checkStoredType preds types ref fuel type
          | none => .error "checkStoredType"
      | _ => .ok ()

/-- The depth to which types are checked. -/
def depth (types : AssocMap TypeRef RtsType) (type : RtsType) : Nat :=
  type.weight + (types.entries.map (fun entry => entry.2.weight)).sum

/-- The check of one predicate of those that the schema defines or derives. -/
def checkStored (preds : AssocMap PredicateRef PredicateDetails)
    (types : AssocMap TypeRef RtsType) (ref : PredicateRef)
    : Except String Unit :=
  match preds.lookup ref with
  | none => .ok ()
  | some details =>
      match details.deriving_ with
      | .derive .derivedAndStored _ => do
          checkStoredType preds types ref (depth types details.keyType) details.keyType
          checkStoredType preds types ref (depth types details.valueType) details.valueType
      | _ => .ok ()

/-- `recordUseOfNegation` -/
def recordUseOfNegation (usesNegation : Finset PredicateRef)
    (derivation : Bool × PredicateRef × List PredicateRef)
    : Finset PredicateRef :=
  let (predUsesNegation, ref, deps) := derivation
  if predUsesNegation || deps.any (· ∈ usesNegation) then
    insert ref usesNegation
  else
    usesNegation.erase ref

/-- The derivations of a table: whether they use negation, and what they depend on. -/
def derivationOf (preds : AssocMap PredicateRef PredicateDetails) (ref : PredicateRef)
    : Option (Bool × PredicateRef × List PredicateRef) :=
  match preds.lookup ref with
  | some ⟨_, _, _, _, .derive _ query, _⟩ => some (tcQueryUsesNegation query, ref, tcQueryDeps query)
  | _ => none

/-- `usesOfNegation` -/
def usesOfNegation (inheritedUses : Finset PredicateRef)
    (preds : AssocMap PredicateRef PredicateDetails)
    : Finset PredicateRef :=
  let edges := (preds.keys.filterMap (derivationOf preds)).map fun (_, ref, deps) => (ref, deps)
  ((checker.topSort edges).reverse.filterMap (derivationOf preds)).foldl recordUseOfNegation
    inheritedUses

def isStored : DerivingInfo TcQuery → Bool
  | .noDeriving => true
  | .derive .deriveOnDemand _ => false
  | .derive .derivedAndStored _ => true
  | .derive .deriveIfEmpty _ => true

def checkNegation (usingNegation : Finset PredicateRef) (details : PredicateDetails)
    : Except String Unit :=
  if isStored details.deriving_ && details.ref ∈ usingNegation then
    .error ("negation is not allowed in a stored predicate: " ++ showPredicateRef details.ref)
  else
    .ok ()

/-- `typecheckSchema` -/
def typecheckSchema : Except String TcEnv := do
  let preds ← mergePredicates override refToPid stored env schema
  let types ← mergeTypes override refToPid env schema
  let typechecked ← typecheckDerivings checker schema ⟨types, preds, env.usesNegation⟩
  let finalPreds := typechecked.foldl (mergeDeriving override dbContent stored) preds
  ((schemaPredicates refToPid stored env schema).map (·.ref) ++ typechecked.map (·.ref)).forM
    (checkStored finalPreds types)
  let usingNegation := usesOfNegation checker env.usesNegation finalPreds
  finalPreds.entries.forM fun entry => checkNegation usingNegation entry.2
  return ⟨types, finalPreds, usingNegation⟩

end Schema

section Database

variable {Q : Type} (checker : Checker Q) (override : Override)
  (getPids : List PredicateRef → List Pid) (dbContent : DbContent)
  (base addition : List (ResolvedSchema Q))

/-- The ids of the predicates of all schemas; some may have no valid one. -/
def schemaPids (ref : PredicateRef) : Option Pid :=
  let refs := ((base ++ addition).flatMap (fun schema => schema.predicates.keys)).dedup
  (AssocMap.fromList ((refs.zip (getPids refs)).filter (fun entry => entry.2 ≠ Pid.invalid))).lookup
    ref

/-- `mkDbSchema`, up to the environment with the tables of predicates and types: the schemas that
are stored in the database, then those that are merged in.
-/
def mkDbSchema : Except String TcEnv := do
  let refToPid := schemaPids getPids base addition
  let envStored ← base.foldlM (typecheckSchema checker override refToPid dbContent true) emptyTcEnv
  addition.foldlM (typecheckSchema checker override refToPid dbContent false) envStored

end Database

end Glean.Schema
