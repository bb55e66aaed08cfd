import Glean.RTS.Fact

/-! Types of a schema (`Angle/Types.hs`, `RTS/Types.hs`): resolved types, with references to
predicates and named types, and those of the run time, with ids and expansions.
-/

namespace Glean.Schema

open Glean.RTS

abbrev Name := String

structure PredicateRef where
  name : Name
  version : Nat
  deriving DecidableEq

structure TypeRef where
  name : Name
  version : Nat
  deriving DecidableEq

structure PidRef where
  pid : Pid
  ref : PredicateRef
  deriving DecidableEq

mutual

/-- `Schema.Type` -/
inductive SourceType where
  | byte
  | nat
  | string
  | array (element : SourceType)
  | record (fields : List SourceFieldDef)
  | sum (fields : List SourceFieldDef)
  | predicate (ref : PredicateRef)
  | namedType (ref : TypeRef)
  | maybe (element : SourceType)
  | enumerated (names : List Name)
  | boolean

inductive SourceFieldDef where
  | mk (name : Name) (type : SourceType)

end

mutual

/-- `RTS.Type` -/
inductive RtsType where
  | byte
  | nat
  | string
  | array (element : RtsType)
  | record (fields : List FieldDef)
  | sum (fields : List FieldDef)
  | predicate (pred : PidRef)
  | namedType (ref : TypeRef) (expanded : RtsType)
  | maybe (element : RtsType)
  | enumerated (names : List Name)
  | boolean

inductive FieldDef where
  | mk (name : Name) (type : RtsType)

end

namespace FieldDef

def name : FieldDef → Name
  | .mk name _ => name

def type : FieldDef → RtsType
  | .mk _ type => type

end FieldDef

namespace SourceFieldDef

def name : SourceFieldDef → Name
  | .mk name _ => name

def type : SourceFieldDef → SourceType
  | .mk _ type => type

end SourceFieldDef

section Expansion

variable (lookupType : TypeRef → Option RtsType) (lookupPid : PredicateRef → Option Pid)

mutual

/-- `mkRtsType` -/
def mkRtsType : SourceType → Option RtsType
  | .byte => some .byte
  | .nat => some .nat
  | .string => some .string
  | .array element => do return .array (← mkRtsType element)
  | .record fields => do return .record (← mkFieldDefs fields)
  | .sum fields => do return .sum (← mkFieldDefs fields)
  | .predicate ref => do return .predicate ⟨← lookupPid ref, ref⟩
  | .namedType ref => do return .namedType ref (← lookupType ref)
  | .maybe element => do return .maybe (← mkRtsType element)
  | .enumerated names => some (.enumerated names)
  | .boolean => some .boolean

def mkFieldDefs : List SourceFieldDef → Option (List FieldDef)
  | [] => some []
  | .mk name type :: fields => do return .mk name (← mkRtsType type) :: (← mkFieldDefs fields)

end

end Expansion

namespace RtsType

def unit : RtsType := .record []

def maybeFields (type : RtsType) : List FieldDef := [.mk "nothing" unit, .mk "just" type]

def lowerMaybe (type : RtsType) : RtsType := .sum (maybeFields type)

def enumFields (names : List Name) : List FieldDef := names.map fun name => .mk name unit

def lowerEnum (names : List Name) : RtsType := .sum (enumFields names)

def boolFields : List FieldDef := [.mk "false" unit, .mk "true" unit]

def lowerBool : RtsType := .sum boolFields

mutual

/-- A size that lowering decreases. -/
def weight : RtsType → Nat
  | .byte | .nat | .string | .predicate _ => 1
  | .array element => element.weight + 1
  | .record fields => weights fields + 1
  | .sum fields => weights fields + 1
  | .namedType _ expanded => expanded.weight + 1
  | .maybe element => element.weight + 5
  | .enumerated names => 2 * names.length + 2
  | .boolean => 6

def weights : List FieldDef → Nat
  | [] => 0
  | .mk _ type :: fields => type.weight + weights fields + 1

end

theorem weight_lowerMaybe (type : RtsType) : (lowerMaybe type).weight = type.weight + 4 := by
  simp only [lowerMaybe, maybeFields, unit, weight, weights]
  omega

theorem weight_lowerEnum (names : List Name) : (lowerEnum names).weight = 2 * names.length + 1 := by
  have units : weights (enumFields names) = 2 * names.length := by
    induction names with
    | nil => rfl
    | cons name names ih =>
        rw [enumFields, unit] at ih
        simp only [enumFields, List.map_cons, weights, unit, weight, ih, List.length_cons]
        omega
  rw [lowerEnum, weight, units]

theorem weight_lowerBool : lowerBool.weight = 5 := rfl

mutual

/-- `eqType` -/
def eqType : RtsType → RtsType → Bool
  | .byte, .byte => true
  | .nat, .nat => true
  | .string, .string => true
  | .array left, .array right => eqType left right
  | .record left, .record right => eqFields left right
  | .sum left, .sum right => eqFields left right
  | .predicate left, .predicate right => left.pid = right.pid
  | .namedType leftRef left, .namedType rightRef right => leftRef = rightRef || eqType left right
  | .namedType _ left, right => eqType left right
  | left, .namedType _ right => eqType left right
  | .maybe left, .maybe right => eqType left right
  | .maybe left, right => eqType (lowerMaybe left) right
  | left, .maybe right => eqType left (lowerMaybe right)
  | .enumerated left, .enumerated right => left = right
  | .enumerated left, right => eqType (lowerEnum left) right
  | left, .enumerated right => eqType left (lowerEnum right)
  | .boolean, .boolean => true
  | .boolean, right => eqType lowerBool right
  | left, .boolean => eqType left lowerBool
  | _, _ => false
termination_by left right => left.weight + right.weight
decreasing_by
  all_goals simp only [weight, weight_lowerMaybe, weight_lowerEnum, weight_lowerBool]
  all_goals omega

/-- Fields are compared one by one, whatever their names, and there have to be as many. -/
def eqFields : List FieldDef → List FieldDef → Bool
  | [], [] => true
  | .mk _ left :: lefts, .mk _ right :: rights => eqType left right && eqFields lefts rights
  | _, _ => false
termination_by lefts rights => weights lefts + weights rights
decreasing_by
  all_goals simp only [weights]
  all_goals omega

end

end RtsType

end Glean.Schema
