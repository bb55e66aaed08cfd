import Glean.Library.AssocMap
import Glean.Library.FallibleFold
import Glean.Schema.Types

/-! When a type can stand in for an older one (`backCompatible` in `Schema/Resolve.hs`), and what
this says about the types of the run time.
-/

namespace Glean.Schema

open FallibleFold

inductive FieldMatching where
  | exactMatch
  | allowNew
  deriving DecidableEq

inductive Opt where
  | option
  | field

def showOpt : Opt → String
  | .option => "option"
  | .field => "field"

def plural (opt : Opt) : List Name → String
  | [_] => showOpt opt
  | _ => showOpt opt ++ "s"

def compareFieldList (go : SourceType → SourceType → Except String Unit)
    (fieldMatching : FieldMatching) (optName : Opt) (new old : List SourceFieldDef)
    : Except String Unit :=
  let oldByName := AssocMap.fromList (old.map fun field => (field.name, field))
  let newByName := new.map SourceFieldDef.name
  let removedFields := (old.map SourceFieldDef.name).filter (· ∉ newByName)
  let addedFields :=
    (new.map SourceFieldDef.name).filter fun name => (oldByName.lookup name).isNone
  let matchingFields := new.filterMap fun field =>
    (oldByName.lookup field.name).map fun oldField => (field, oldField)
  if fieldMatching = .exactMatch ∧ addedFields ≠ [] then
    .error (plural optName addedFields ++ " added: " ++ " ".intercalate addedFields)
  else if removedFields ≠ [] then
    .error (plural optName removedFields ++ " missing: " ++ " ".intercalate removedFields)
  else
    matchingFields.forM fun (field, oldField) =>
      (go field.type oldField.type).mapError fun failure =>
        "in " ++ plural optName [] ++ " '" ++ field.name ++ "', " ++ failure

/-- The most evolved version of a predicate, after at most so many evolutions. -/
def evolved (evolvedBy : AssocMap PredicateRef PredicateRef) : Nat → PredicateRef → PredicateRef
  | 0, pred => pred
  | fuel + 1, pred =>
      match evolvedBy.lookup pred with
      | none => pred
      | some newer => evolved evolvedBy fuel newer

def unitOpt (name : Name) : SourceFieldDef := .mk name (.record [])

/-- `backCompatible`: no error if the new type can stand in for the old one. Named types are looked
up, which ends as they are not recursive.
-/
def backCompatible (evolvedBy : AssocMap PredicateRef PredicateRef)
    (newTypes oldTypes : AssocMap TypeRef SourceType)
    : Nat → SourceType → SourceType → Except String Unit
  | 0, _, _ => .error "backCompatible"
  | fuel + 1, new, old =>
      match new, old with
      | .namedType ref, old =>
          match newTypes.lookup ref with
          | none => .error "HashMap.!: key not found"
          | some type => backCompatible evolvedBy newTypes oldTypes fuel type old
      | new, .namedType ref =>
          match oldTypes.lookup ref with
          | none => .error "HashMap.!: key not found"
          | some type => backCompatible evolvedBy newTypes oldTypes fuel new type
      | .maybe new, .maybe old => backCompatible evolvedBy newTypes oldTypes fuel new old
      | .byte, .byte => .ok ()
      | .nat, .nat => .ok ()
      | .string, .string => .ok ()
      | .boolean, .boolean => .ok ()
      | .array new, .array old => backCompatible evolvedBy newTypes oldTypes fuel new old
      | .predicate new, .predicate old =>
          if evolved evolvedBy evolvedBy.entries.length new
              ≠ evolved evolvedBy evolvedBy.entries.length old then
            .error ("type changed from " ++ old.name ++ " to " ++ new.name)
          else
            .ok ()
      | .enumerated new, .enumerated old =>
          compareFieldList (backCompatible evolvedBy newTypes oldTypes fuel) .exactMatch .option
            (new.map unitOpt) (old.map unitOpt)
      | .sum new, .sum old =>
          compareFieldList (backCompatible evolvedBy newTypes oldTypes fuel) .exactMatch .option
            new old
      | .record new, .record old =>
          compareFieldList (backCompatible evolvedBy newTypes oldTypes fuel) .allowNew .field
            new old
      | _, _ => .error "type changed"

/-- Two types are the same up to named types and the names of fields, which are related in records
and in sums, and fields of the same name are so too.
-/
inductive Matches (records sums : List Name → List Name → Prop) : RtsType → RtsType → Prop where
  | byte : Matches records sums .byte .byte
  | nat : Matches records sums .nat .nat
  | string : Matches records sums .string .string
  | boolean : Matches records sums .boolean .boolean
  | predicate {new old : PidRef} : Matches records sums (.predicate new) (.predicate old)
  | array {new old : RtsType} (element : Matches records sums new old)
    : Matches records sums (.array new) (.array old)
  | maybe {new old : RtsType} (element : Matches records sums new old)
    : Matches records sums (.maybe new) (.maybe old)
  | enumerated {new old : List Name} (names : sums new old)
    : Matches records sums (.enumerated new) (.enumerated old)
  | record {new old : List FieldDef}
    (names : records (new.map FieldDef.name) (old.map FieldDef.name))
    (fields
      : ∀ newField ∈ new, ∀ oldField ∈ old, newField.name = oldField.name →
          Matches records sums newField.type oldField.type)
    : Matches records sums (.record new) (.record old)
  | sum {new old : List FieldDef}
    (names : sums (new.map FieldDef.name) (old.map FieldDef.name))
    (fields
      : ∀ newField ∈ new, ∀ oldField ∈ old, newField.name = oldField.name →
          Matches records sums newField.type oldField.type)
    : Matches records sums (.sum new) (.sum old)
  | newNamed {ref : TypeRef} {new old : RtsType} (expanded : Matches records sums new old)
    : Matches records sums (.namedType ref new) old
  | oldNamed {ref : TypeRef} {new old : RtsType} (expanded : Matches records sums new old)
    : Matches records sums new (.namedType ref old)

section Named

variable {records sums : List Name → List Name → Prop} {ref : TypeRef}
  {new old expanded : RtsType}

theorem Matches.of_newNamed (matching : Matches records sums (.namedType ref expanded) old)
    : Matches records sums expanded old := by
  generalize isNamed : RtsType.namedType ref expanded = type at matching
  induction matching with
  | newNamed matching =>
      cases isNamed
      exact matching
  | oldNamed _ ih => exact .oldNamed (ih isNamed)
  | byte | nat | string | boolean | predicate | array | maybe | enumerated | record | sum =>
      cases isNamed

theorem Matches.of_oldNamed (matching : Matches records sums new (.namedType ref expanded))
    : Matches records sums new expanded := by
  generalize isNamed : RtsType.namedType ref expanded = type at matching
  induction matching with
  | oldNamed matching =>
      cases isNamed
      exact matching
  | newNamed _ ih => exact .newNamed (ih isNamed)
  | byte | nat | string | boolean | predicate | array | maybe | enumerated | record | sum =>
      cases isNamed

theorem Matches.mono {records' sums' : List Name → List Name → Prop}
    (matching : Matches records sums new old) (ofRecords : ∀ new old, records new old → records' new old)
    (ofSums : ∀ new old, sums new old → sums' new old)
    : Matches records' sums' new old := by
  induction matching with
  | byte => exact .byte
  | nat => exact .nat
  | string => exact .string
  | boolean => exact .boolean
  | predicate => exact .predicate
  | array _ ih => exact .array ih
  | maybe _ ih => exact .maybe ih
  | enumerated names => exact .enumerated (ofSums _ _ names)
  | record names _ ih => exact .record (ofRecords _ _ names) ih
  | sum names _ ih => exact .sum (ofSums _ _ names) ih
  | newNamed _ ih => exact .newNamed ih
  | oldNamed _ ih => exact .oldNamed ih

end Named

/-- The two lists have the same names. -/
def SameNames (new old : List Name) : Prop := ∀ name, name ∈ new ↔ name ∈ old

/-- The new type has all fields of the old one, and no other alternatives. -/
def Compatible : RtsType → RtsType → Prop := Matches (fun new old => old ⊆ new) SameNames

namespace RtsType

mutual

/-- The fields of a type have different names, and there are not more than can be counted. -/
def WellFormed : RtsType → Prop
  | .byte | .nat | .string | .boolean | .predicate _ => True
  | .enumerated names => names.length < 2 ^ 63
  | .array element => element.WellFormed
  | .maybe element => element.WellFormed
  | .namedType _ expanded => expanded.WellFormed
  | .record fields => (fields.map FieldDef.name).Nodup ∧ fieldsWellFormed fields
  | .sum fields =>
      (fields.map FieldDef.name).Nodup ∧ fields.length < 2 ^ 63 ∧ fieldsWellFormed fields

def fieldsWellFormed : List FieldDef → Prop
  | [] => True
  | .mk _ type :: fields => type.WellFormed ∧ fieldsWellFormed fields

end

theorem fieldsWellFormed_iff {fields : List FieldDef}
    : fieldsWellFormed fields ↔ ∀ field ∈ fields, field.type.WellFormed := by
  induction fields with
  | nil => exact ⟨fun _ => nofun, fun _ => trivial⟩
  | cons field fields ih =>
      obtain ⟨name, type⟩ := field
      rw [fieldsWellFormed, ih, List.forall_mem_cons]
      rfl

end RtsType

/-- A table of expansions: a type of the schema is the expansion of its definition. -/
def Expands (types : AssocMap TypeRef SourceType) (lookupType : TypeRef → Option RtsType)
    (lookupPid : PredicateRef → Option RTS.Pid)
    : Prop :=
  ∀ ref type expanded, types.lookup ref = some type → lookupType ref = some expanded →
    mkRtsType lookupType lookupPid type = some expanded

section Expansion

variable {lookupType : TypeRef → Option RtsType} {lookupPid : PredicateRef → Option RTS.Pid}

theorem names_mkFieldDefs {fields : List SourceFieldDef} {expanded : List FieldDef}
    (expands : mkFieldDefs lookupType lookupPid fields = some expanded)
    : expanded.map FieldDef.name = fields.map SourceFieldDef.name := by
  induction fields generalizing expanded with
  | nil =>
      cases expands
      rfl
  | cons field fields ih =>
      obtain ⟨name, type⟩ := field
      obtain ⟨type', -, expands⟩ := Option.bind_eq_some_iff.mp expands
      obtain ⟨types', expandsTypes, ⟨⟩⟩ := Option.bind_eq_some_iff.mp expands
      rw [List.map_cons, List.map_cons, ih expandsTypes]
      rfl

/-- An expanded field comes from a field of its name. -/
theorem mem_mkFieldDefs {fields : List SourceFieldDef} {expanded : List FieldDef}
    (expands : mkFieldDefs lookupType lookupPid fields = some expanded) {expandedField : FieldDef}
    (member : expandedField ∈ expanded)
    : ∃ field ∈ fields, field.name = expandedField.name
        ∧ mkRtsType lookupType lookupPid field.type = some expandedField.type := by
  induction fields generalizing expanded with
  | nil =>
      cases expands
      cases member
  | cons field fields ih =>
      obtain ⟨name, type⟩ := field
      obtain ⟨type', expandsType, expands⟩ := Option.bind_eq_some_iff.mp expands
      obtain ⟨types', expandsTypes, ⟨⟩⟩ := Option.bind_eq_some_iff.mp expands
      rcases List.mem_cons.mp member with rfl | later
      · exact ⟨_, List.mem_cons_self, rfl, expandsType⟩
      · obtain ⟨field, inFields, sameName, expandsField⟩ := ih expandsTypes later
        exact ⟨field, List.mem_cons_of_mem _ inFields, sameName, expandsField⟩

end Expansion

section Check

variable {go : SourceType → SourceType → Except String Unit} {fieldMatching : FieldMatching}
  {optName : Opt} {new old : List SourceFieldDef}

/-- When lists of fields pass, the new one has all old names, and fields with the same name pass. -/
theorem compareFieldList_ok (accepted : compareFieldList go fieldMatching optName new old = .ok ())
    : old.map SourceFieldDef.name ⊆ new.map SourceFieldDef.name
      ∧ (fieldMatching = .exactMatch → new.map SourceFieldDef.name ⊆ old.map SourceFieldDef.name)
      ∧ ((old.map SourceFieldDef.name).Nodup →
          ∀ field ∈ new, ∀ oldField ∈ old, field.name = oldField.name →
            go field.type oldField.type = .ok ()) := by
  unfold compareFieldList at accepted
  dsimp only at accepted
  split at accepted
  next => cases accepted
  next noneAdded =>
    split at accepted
    next => cases accepted
    next noneRemoved =>
      refine ⟨?_, ?_, ?_⟩
      · intro name member
        by_contra missing
        exact noneRemoved (List.ne_nil_of_mem
          (List.mem_filter.mpr ⟨member, by simpa using missing⟩))
      · intro exact name member
        by_contra added
        refine noneAdded ⟨exact, List.ne_nil_of_mem (List.mem_filter.mpr ⟨member, ?_⟩)⟩
        rw [AssocMap.lookup_fromList_of_notMem, Option.isNone_none]
        rwa [List.map_map]
      · intro different field inNew oldField inOld sameName
        have found
            : (AssocMap.fromList (old.map fun field => (field.name, field))).lookup field.name
              = some oldField := by
          refine AssocMap.lookup_fromList (by rwa [List.map_map]) ?_
          exact List.mem_map.mpr ⟨oldField, inOld, by rw [sameName]⟩
        have passes := forM_ok.mp accepted (field, oldField)
          (List.mem_filterMap.mpr ⟨field, inNew, Option.map_eq_some_iff.mpr ⟨oldField, found, rfl⟩⟩)
        dsimp only at passes
        cases result : go field.type oldField.type with
        | ok _ => rfl
        | error failure =>
            rw [result] at passes
            cases passes

end Check

section Matching

variable {evolvedBy : AssocMap PredicateRef PredicateRef}
  {newTypes oldTypes : AssocMap TypeRef SourceType}
  {lookupNew lookupOld : TypeRef → Option RtsType} {lookupPid : PredicateRef → Option RTS.Pid}

/-- Where the check finds no error, the types of the run time are compatible. -/
theorem compatible_of_backCompatible (expandsNew : Expands newTypes lookupNew lookupPid)
    (expandsOld : Expands oldTypes lookupOld lookupPid) {fuel : Nat} {new old : SourceType}
    {newType oldType : RtsType}
    (isNew : mkRtsType lookupNew lookupPid new = some newType)
    (isOld : mkRtsType lookupOld lookupPid old = some oldType)
    (wellFormed : oldType.WellFormed)
    (accepted : backCompatible evolvedBy newTypes oldTypes fuel new old = .ok ())
    : Compatible newType oldType := by
  induction fuel generalizing new old newType oldType with
  | zero => cases accepted
  | succ fuel ih =>
      have ofFields {optName : Opt} {fieldMatching : FieldMatching} {new old : List SourceFieldDef}
          {newFields oldFields : List FieldDef}
          (isNew : mkFieldDefs lookupNew lookupPid new = some newFields)
          (isOld : mkFieldDefs lookupOld lookupPid old = some oldFields)
          (different : (oldFields.map FieldDef.name).Nodup)
          (wellFormed : RtsType.fieldsWellFormed oldFields)
          (accepted
            : compareFieldList (backCompatible evolvedBy newTypes oldTypes fuel) fieldMatching
                optName new old
              = .ok ())
          : oldFields.map FieldDef.name ⊆ newFields.map FieldDef.name
            ∧ (fieldMatching = .exactMatch →
                SameNames (newFields.map FieldDef.name) (oldFields.map FieldDef.name))
            ∧ ∀ newField ∈ newFields, ∀ oldField ∈ oldFields, newField.name = oldField.name →
                Compatible newField.type oldField.type := by
        obtain ⟨noneMissing, noneAdded, passes⟩ := compareFieldList_ok accepted
        rw [names_mkFieldDefs isOld] at different
        rw [names_mkFieldDefs isNew, names_mkFieldDefs isOld]
        refine ⟨noneMissing, fun exact name => ⟨fun added => noneAdded exact added,
          fun kept => noneMissing kept⟩, ?_⟩
        intro newField inNew oldField inOld sameName
        obtain ⟨field, inFields, isName, expandsField⟩ := mem_mkFieldDefs isNew inNew
        obtain ⟨field', inFields', isName', expandsField'⟩ := mem_mkFieldDefs isOld inOld
        refine ih expandsField expandsField'
          (RtsType.fieldsWellFormed_iff.mp wellFormed oldField inOld) ?_
        exact passes different field inFields field' inFields'
          (isName.trans (sameName.trans isName'.symm))
      unfold backCompatible at accepted
      split at accepted
      next ref =>
        obtain ⟨expanded, isExpanded, ⟨⟩⟩ := Option.bind_eq_some_iff.mp isNew
        split at accepted
        next => cases accepted
        next type isType =>
          exact .newNamed (ih (expandsNew ref type expanded isType isExpanded) isOld wellFormed
            accepted)
      next new ref _ =>
        obtain ⟨expanded, isExpanded, ⟨⟩⟩ := Option.bind_eq_some_iff.mp isOld
        split at accepted
        next => cases accepted
        next type isType =>
          exact .oldNamed (ih isNew (expandsOld ref type expanded isType isExpanded) wellFormed
            accepted)
      next new old =>
        obtain ⟨newElement, newExpands, ⟨⟩⟩ := Option.bind_eq_some_iff.mp isNew
        obtain ⟨oldElement, oldExpands, ⟨⟩⟩ := Option.bind_eq_some_iff.mp isOld
        exact .maybe (ih newExpands oldExpands wellFormed accepted)
      next =>
        cases isNew
        cases isOld
        exact .byte
      next =>
        cases isNew
        cases isOld
        exact .nat
      next =>
        cases isNew
        cases isOld
        exact .string
      next =>
        cases isNew
        cases isOld
        exact .boolean
      next new old =>
        obtain ⟨newElement, newExpands, ⟨⟩⟩ := Option.bind_eq_some_iff.mp isNew
        obtain ⟨oldElement, oldExpands, ⟨⟩⟩ := Option.bind_eq_some_iff.mp isOld
        exact .array (ih newExpands oldExpands wellFormed accepted)
      next new old =>
        obtain ⟨newPid, -, ⟨⟩⟩ := Option.bind_eq_some_iff.mp isNew
        obtain ⟨oldPid, -, ⟨⟩⟩ := Option.bind_eq_some_iff.mp isOld
        exact .predicate
      next new old =>
        cases isNew
        cases isOld
        obtain ⟨noneMissing, noneAdded, -⟩ := compareFieldList_ok accepted
        have names (names : List Name)
            : (names.map unitOpt).map SourceFieldDef.name = names := by
          rw [List.map_map]
          exact List.map_id names
        rw [names, names] at noneMissing noneAdded
        exact .enumerated fun name => ⟨fun added => noneAdded rfl added,
          fun kept => noneMissing kept⟩
      next new old =>
        obtain ⟨newFields, newExpands, ⟨⟩⟩ := Option.bind_eq_some_iff.mp isNew
        obtain ⟨oldFields, oldExpands, ⟨⟩⟩ := Option.bind_eq_some_iff.mp isOld
        obtain ⟨-, same, fields⟩ := ofFields newExpands oldExpands wellFormed.1 wellFormed.2.2 accepted
        exact .sum (same rfl) fields
      next new old =>
        obtain ⟨newFields, newExpands, ⟨⟩⟩ := Option.bind_eq_some_iff.mp isNew
        obtain ⟨oldFields, oldExpands, ⟨⟩⟩ := Option.bind_eq_some_iff.mp isOld
        obtain ⟨kept, -, fields⟩ := ofFields newExpands oldExpands wellFormed.1 wellFormed.2 accepted
        exact .record kept fields
      next => cases accepted

end Matching

end Glean.Schema
