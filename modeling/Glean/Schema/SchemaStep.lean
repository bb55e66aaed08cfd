import Glean.Library.FallibleFold
import Glean.Schema.TypecheckSchema

/-! What typechecking one schema does to the tables of types and predicates. -/

namespace Glean.Schema

open Glean.RTS FallibleFold

section Definitions

variable {K V : Type} [DecidableEq K] {override : Override} {compare : K × V → V → V → Except String Unit}
  {map after : AssocMap K V} {entry : K × V} {entries : List (K × V)} {key : K} {value : V}

/-- A definition is either taken, or there is an older one, which stays. -/
theorem insertDefinition_cases
    (inserted : insertDefinition override (compare entry) map entry = .ok after)
    : after = map.insert entry.1 entry.2
      ∨ after = map ∧ (∃ old, map.lookup entry.1 = some old) ∧ override ≠ .takeNew := by
  cases override with
  | takeOld =>
      cases inserted
      unfold AssocMap.insertNew
      split
      next present =>
        exact .inr ⟨rfl, Option.isSome_iff_exists.mp present, fun same => (by cases same)⟩
      next => exact .inl rfl
  | takeNew =>
      cases inserted
      exact .inl rfl
  | mustBeEqual =>
      simp only [insertDefinition] at inserted
      cases present : map.lookup entry.1 with
      | none =>
          rw [present] at inserted
          cases inserted
          exact .inl rfl
      | some old =>
          rw [present] at inserted
          obtain ⟨_, _, unchanged⟩ := bind_eq_ok.mp inserted
          cases unchanged
          exact .inr ⟨rfl, ⟨old, rfl⟩, fun same => (by cases same)⟩

/-- Where there is a definition already, it stays unless new ones are taken. -/
theorem insertDefinition_takeOld {old : V} (present : map.lookup key = some old)
    (keepsOld : override ≠ .takeNew)
    (inserted : insertDefinition override (compare entry) map entry = .ok after)
    : after.lookup key = some old := by
  cases override with
  | takeOld =>
      cases inserted
      rw [AssocMap.lookup_insertNew]
      split
      next same => rw [← same, present, Option.getD_some]
      next => exact present
  | takeNew => exact absurd rfl keepsOld
  | mustBeEqual =>
      simp only [insertDefinition] at inserted
      cases isOld : map.lookup entry.1 with
      | none =>
          rw [isOld] at inserted
          cases inserted
          rw [AssocMap.lookup_insert]
          split
          next same =>
            rw [← same, present] at isOld
            cases isOld
          next => exact present
      | some other =>
          rw [isOld] at inserted
          obtain ⟨_, _, unchanged⟩ := bind_eq_ok.mp inserted
          cases unchanged
          exact present

variable
  (merged
    : entries.foldlM (fun map entry => insertDefinition override (compare entry) map entry) map
      = .ok after)

include merged

/-- What stands in the table then stood there before or is one of the new definitions. -/
theorem mergeDefinitions_source (found : after.lookup key = some value)
    : map.lookup key = some value ∨ (key, value) ∈ entries := by
  induction entries generalizing map with
  | nil =>
      rw [foldlM_nil_ok.mp merged] at found
      exact .inl found
  | cons entry entries ih =>
      obtain ⟨middle, inserted, others⟩ := foldlM_cons_ok.mp merged
      rcases ih others with inMiddle | later
      · rcases insertDefinition_cases inserted with rfl | ⟨rfl, -, -⟩
        · rw [AssocMap.lookup_insert] at inMiddle
          split at inMiddle
          next same =>
            cases inMiddle
            exact .inr (same ▸ List.mem_cons_self)
          next => exact .inl inMiddle
        · exact .inl inMiddle
      · exact .inr (List.mem_cons_of_mem _ later)

/-- Nothing is lost. -/
theorem mergeDefinitions_grows {old : V} (present : map.lookup key = some old)
    : ∃ value, after.lookup key = some value := by
  induction entries generalizing map old with
  | nil => exact ⟨old, foldlM_nil_ok.mp merged ▸ present⟩
  | cons entry entries ih =>
      obtain ⟨middle, inserted, others⟩ := foldlM_cons_ok.mp merged
      rcases insertDefinition_cases inserted with rfl | ⟨rfl, -, -⟩
      · by_cases same : key = entry.1
        · subst same
          exact ih others AssocMap.lookup_insert_self
        · exact ih others ((AssocMap.lookup_insert_of_ne same).trans present)
      · exact ih others present

/-- Every definition is there, if not with its new value. -/
theorem mergeDefinitions_defines (member : (key, value) ∈ entries)
    : ∃ value, after.lookup key = some value := by
  induction entries generalizing map with
  | nil => cases member
  | cons entry entries ih =>
      obtain ⟨middle, inserted, others⟩ := foldlM_cons_ok.mp merged
      rcases List.mem_cons.mp member with rfl | later
      · rcases insertDefinition_cases inserted with rfl | ⟨rfl, ⟨old, present⟩, -⟩
        · exact mergeDefinitions_grows others AssocMap.lookup_insert_self
        · exact mergeDefinitions_grows others present
      · exact ih others later

/-- Where no new definitions are taken the old ones stay. -/
theorem mergeDefinitions_takeOld {old : V} (present : map.lookup key = some old)
    (keepsOld : override ≠ .takeNew)
    : after.lookup key = some old := by
  induction entries generalizing map with
  | nil => exact foldlM_nil_ok.mp merged ▸ present
  | cons entry entries ih =>
      obtain ⟨middle, inserted, others⟩ := foldlM_cons_ok.mp merged
      exact ih others (insertDefinition_takeOld present keepsOld inserted)

/-- What is not defined stays as it was. -/
theorem mergeDefinitions_frame (undefined : key ∉ entries.map Prod.fst)
    : after.lookup key = map.lookup key := by
  induction entries generalizing map with
  | nil => rw [foldlM_nil_ok.mp merged]
  | cons entry entries ih =>
      obtain ⟨middle, inserted, others⟩ := foldlM_cons_ok.mp merged
      rw [List.map_cons, List.mem_cons, not_or] at undefined
      rw [ih others undefined.2]
      rcases insertDefinition_cases inserted with rfl | ⟨rfl, -, -⟩
      · exact AssocMap.lookup_insert_of_ne undefined.1
      · rfl

end Definitions

section Schema

variable {Q : Type} {checker : Checker Q} {override : Override}
  {refToPid : PredicateRef → Option Pid} {dbContent : DbContent} {stored : Bool} {env after : TcEnv}
  {schema : ResolvedSchema Q} {preds : AssocMap PredicateRef PredicateDetails}
  {types : AssocMap TypeRef RtsType} {typechecked : List PredicateDetails} {ref : PredicateRef}
  {details : PredicateDetails}

/-- What typechecking a schema has done when it succeeds. -/
structure Typechecked (checker : Checker Q) (override : Override)
    (refToPid : PredicateRef → Option Pid) (dbContent : DbContent) (stored : Bool) (env : TcEnv)
    (schema : ResolvedSchema Q) (preds : AssocMap PredicateRef PredicateDetails)
    (typechecked : List PredicateDetails) (after : TcEnv)
    : Prop where
  mergedPreds : mergePredicates override refToPid stored env schema = .ok preds
  mergedTypes : mergeTypes override refToPid env schema = .ok after.types
  derivings
    : typecheckDerivings checker schema ⟨after.types, preds, env.usesNegation⟩ = .ok typechecked
  finalPreds
    : after.predicates = typechecked.foldl (mergeDeriving override dbContent stored) preds
  checked
    : ∀ ref ∈ (schemaPredicates refToPid stored env schema).map (·.ref)
        ++ typechecked.map (·.ref),
        checkStored after.predicates after.types ref = .ok ()
  usingNegation : after.usesNegation = usesOfNegation checker env.usesNegation after.predicates
  negation
    : ∀ entry ∈ after.predicates.entries, checkNegation after.usesNegation entry.2 = .ok ()

theorem typecheckSchema_cases
    (accepted : typecheckSchema checker override refToPid dbContent stored env schema = .ok after)
    : ∃ preds typechecked,
        Typechecked checker override refToPid dbContent stored env schema preds typechecked
          after := by
  unfold typecheckSchema at accepted
  obtain ⟨preds, isPreds, accepted⟩ := bind_eq_ok.mp accepted
  obtain ⟨types, isTypes, accepted⟩ := bind_eq_ok.mp accepted
  obtain ⟨typechecked, isTypechecked, accepted⟩ := bind_eq_ok.mp accepted
  obtain ⟨⟨⟩, checked, accepted⟩ := bind_eq_ok.mp accepted
  obtain ⟨⟨⟩, negation, accepted⟩ := bind_eq_ok.mp accepted
  cases accepted
  exact ⟨preds, typechecked, {
    mergedPreds := isPreds
    mergedTypes := isTypes
    derivings := isTypechecked
    finalPreds := rfl
    checked := forM_ok.mp checked
    usingNegation := rfl
    negation := forM_ok.mp negation
  }⟩

theorem mergePredicates_eq_foldlM
    : mergePredicates override refToPid stored env schema
      = ((schemaPredicates refToPid stored env schema).map fun details =>
          (details.ref, details)).foldlM
            (fun preds entry => insertDefinition override comparePredicates preds entry)
            env.predicates := by
  rw [List.foldlM_map]
  rfl

theorem mem_schemaPredicates (member : details ∈ schemaPredicates refToPid stored env schema)
    : (∃ keyType, rtsType refToPid env schema keyType = some details.keyType)
      ∧ (∃ valueType, rtsType refToPid env schema valueType = some details.valueType)
      ∧ refToPid details.ref = some details.pid
      ∧ details.deriving_ = .noDeriving
      ∧ details.inStoredSchema = stored := by
  obtain ⟨⟨ref, predicate⟩, -, isDetails⟩ := List.mem_filterMap.mp member
  dsimp only at isDetails
  split at isDetails
  next pid keyType valueType hasPid hasKey hasValue =>
    cases isDetails
    exact ⟨⟨_, hasKey⟩, ⟨_, hasValue⟩, hasPid, rfl, rfl⟩
  next => cases isDetails

/-- Predicates stand in tables under their names. -/
def Keyed (preds : AssocMap PredicateRef PredicateDetails) : Prop :=
  ∀ ref details, preds.lookup ref = some details → details.ref = ref

variable (override dbContent stored preds details) in
theorem mergeDeriving_cases
    : mergeDeriving override dbContent stored preds details = preds.insert details.ref details
        ∧ (addDeriving override dbContent stored details = true
          ∨ preds.lookup details.ref = none)
      ∨ mergeDeriving override dbContent stored preds details = preds
        ∧ addDeriving override dbContent stored details = false := by
  unfold mergeDeriving
  split
  next adds => exact .inl ⟨rfl, .inl adds⟩
  next keeps =>
    unfold AssocMap.insertNew
    split
    next => exact .inr ⟨rfl, eq_false_of_ne_true keeps⟩
    next absent => exact .inl ⟨rfl, .inr (Option.not_isSome_iff_eq_none.mp absent)⟩

/-- The derivation of a predicate of the final table was attached to it now, or the predicate is
as it was merged.
-/
theorem mergeDerivings_source
    (present : ∀ details ∈ typechecked, ∃ old, preds.lookup details.ref = some old)
    (found
      : (typechecked.foldl (mergeDeriving override dbContent stored) preds).lookup ref
        = some details)
    : preds.lookup ref = some details
      ∨ details ∈ typechecked ∧ details.ref = ref
        ∧ addDeriving override dbContent stored details = true := by
  induction typechecked generalizing preds with
  | nil => exact .inl found
  | cons first others ih =>
      obtain ⟨old, isOld⟩ := present first List.mem_cons_self
      rcases mergeDeriving_cases override dbContent stored preds first with ⟨inserted, adds⟩ | ⟨unchanged, -⟩
      · rw [List.foldl_cons, inserted] at found
        have adds : addDeriving override dbContent stored first = true := by
          refine adds.resolve_right fun absent => ?_
          rw [isOld] at absent
          cases absent
        have stillPresent
            : ∀ details ∈ others, ∃ old, (preds.insert first.ref first).lookup details.ref
              = some old := by
          intro details member
          rw [AssocMap.lookup_insert]
          split
          next => exact ⟨_, rfl⟩
          next => exact present details (List.mem_cons_of_mem _ member)
        rcases ih stillPresent found with inMiddle | ⟨later, isRef, attached⟩
        · rw [AssocMap.lookup_insert] at inMiddle
          split at inMiddle
          next same =>
            cases inMiddle
            exact .inr ⟨List.mem_cons_self, same.symm, adds⟩
          next => exact .inl inMiddle
        · exact .inr ⟨List.mem_cons_of_mem _ later, isRef, attached⟩
      · rw [List.foldl_cons, unchanged] at found
        rcases ih (fun details member => present details (List.mem_cons_of_mem _ member)) found
          with same | ⟨later, isRef, attached⟩
        · exact .inl same
        · exact .inr ⟨List.mem_cons_of_mem _ later, isRef, attached⟩

theorem mergeDerivings_frame (underived : ref ∉ typechecked.map (·.ref))
    : (typechecked.foldl (mergeDeriving override dbContent stored) preds).lookup ref
      = preds.lookup ref := by
  induction typechecked generalizing preds with
  | nil => rfl
  | cons first others ih =>
      rw [List.map_cons, List.mem_cons, not_or] at underived
      rw [List.foldl_cons, ih underived.2]
      rcases mergeDeriving_cases override dbContent stored preds first with ⟨inserted, -⟩ | ⟨unchanged, -⟩
      · rw [inserted, AssocMap.lookup_insert_of_ne underived.1]
      · rw [unchanged]

theorem mergeDerivings_grows {old : PredicateDetails} (present : preds.lookup ref = some old)
    : ∃ details,
        (typechecked.foldl (mergeDeriving override dbContent stored) preds).lookup ref
          = some details := by
  induction typechecked generalizing preds old with
  | nil => exact ⟨old, present⟩
  | cons first others ih =>
      rw [List.foldl_cons]
      rcases mergeDeriving_cases override dbContent stored preds first with ⟨inserted, -⟩ | ⟨unchanged, -⟩
      · rw [inserted]
        by_cases same : ref = first.ref
        · subst same
          exact ih AssocMap.lookup_insert_self
        · exact ih ((AssocMap.lookup_insert_of_ne same).trans present)
      · rw [unchanged]
        exact ih present

section Merged

variable (merged : mergePredicates override refToPid stored env schema = .ok preds)

include merged

theorem mergePredicates_source (found : preds.lookup ref = some details)
    : env.predicates.lookup ref = some details
      ∨ details ∈ schemaPredicates refToPid stored env schema ∧ details.ref = ref := by
  rw [mergePredicates_eq_foldlM] at merged
  refine (mergeDefinitions_source merged found).imp_right ?_
  intro fromSchema
  obtain ⟨_, member, ⟨⟩⟩ := List.mem_map.mp fromSchema
  exact ⟨member, rfl⟩

theorem mergePredicates_keyed (keyed : Keyed env.predicates) : Keyed preds := by
  intro ref details found
  rcases mergePredicates_source merged found with fromEnv | ⟨-, isRef⟩
  · exact keyed ref details fromEnv
  · exact isRef

theorem mergePredicates_grows {old : PredicateDetails}
    (present : env.predicates.lookup ref = some old)
    : ∃ details, preds.lookup ref = some details := by
  rw [mergePredicates_eq_foldlM] at merged
  exact mergeDefinitions_grows merged present

theorem mergePredicates_takeOld {old : PredicateDetails}
    (present : env.predicates.lookup ref = some old) (keepsOld : override ≠ .takeNew)
    : preds.lookup ref = some old := by
  rw [mergePredicates_eq_foldlM] at merged
  exact mergeDefinitions_takeOld merged present keepsOld

theorem mergePredicates_frame
    (undefined : ref ∉ (schemaPredicates refToPid stored env schema).map (·.ref))
    : preds.lookup ref = env.predicates.lookup ref := by
  rw [mergePredicates_eq_foldlM] at merged
  refine mergeDefinitions_frame merged ?_
  rwa [List.map_map]

end Merged

/-- A typechecked derivation is one of the schema, for a predicate of the table. -/
theorem mem_typecheckDerivings {tcEnv : TcEnv}
    (finished : typecheckDerivings checker schema tcEnv = .ok typechecked)
    : details ∈ typechecked
      ↔ ∃ ref old info result,
          (ref, info) ∈ schema.deriving_.entries ∧ tcEnv.predicates.lookup ref = some old
          ∧ typecheckDeriving checker schema tcEnv old info = .ok result
          ∧ details = { old with deriving_ := result } := by
  rw [mem_of_mapM_ok finished]
  constructor
  · rintro ⟨⟨old, info⟩, member, isDetails⟩
    obtain ⟨⟨ref, info⟩, inSchema, isOld⟩ := List.mem_filterMap.mp member
    obtain ⟨old, found, ⟨⟩⟩ := Option.map_eq_some_iff.mp isOld
    obtain ⟨result, isResult, isDetails⟩ := bind_eq_ok.mp isDetails
    cases isDetails
    exact ⟨ref, old, info, result, inSchema, found, isResult, rfl⟩
  · rintro ⟨ref, old, info, result, inSchema, isOld, isResult, rfl⟩
    refine ⟨(old, info), List.mem_filterMap.mpr ⟨(ref, info), inSchema, ?_⟩, ?_⟩
    · exact Option.map_eq_some_iff.mpr ⟨old, isOld, rfl⟩
    · exact bind_eq_ok.mpr ⟨result, isResult, rfl⟩

/-- A derivation of the schema is typechecked when the table has its predicate. -/
theorem typecheckDerivings_derives {tcEnv : TcEnv} {info : DerivingInfo Q} {old : PredicateDetails}
    (finished : typecheckDerivings checker schema tcEnv = .ok typechecked)
    (inSchema : (ref, info) ∈ schema.deriving_.entries)
    (found : tcEnv.predicates.lookup ref = some old)
    : ∃ result, { old with deriving_ := result } ∈ typechecked := by
  obtain ⟨details, isTypechecked, isDetails⟩ :=
    ok_of_mapM_ok finished (old, info) (List.mem_filterMap.mpr
      ⟨(ref, info), inSchema, Option.map_eq_some_iff.mpr ⟨old, found, rfl⟩⟩)
  obtain ⟨result, -, isDetails⟩ := bind_eq_ok.mp isDetails
  cases isDetails
  exact ⟨result, isTypechecked⟩

section Steps

variable
  (steps
    : Typechecked checker override refToPid dbContent stored env schema preds typechecked after)

include steps

/-- Derivations are typechecked for predicates of the merged table. -/
theorem Typechecked.source (keyed : Keyed preds) (member : details ∈ typechecked)
    : ∃ old info result,
        preds.lookup details.ref = some old ∧ (details.ref, info) ∈ schema.deriving_.entries
        ∧ typecheckDeriving checker schema ⟨after.types, preds, env.usesNegation⟩ old info
          = .ok result
        ∧ details = { old with deriving_ := result } := by
  obtain ⟨ref, old, info, result, inSchema, isOld, isResult, rfl⟩ :=
    (mem_typecheckDerivings steps.derivings).mp member
  obtain rfl := keyed ref old isOld
  exact ⟨old, info, result, isOld, inSchema, isResult, rfl⟩

/-- A predicate of the final table is one of the merged table, or has got a derivation. -/
theorem Typechecked.final_source (keyed : Keyed preds)
    (found : after.predicates.lookup ref = some details)
    : preds.lookup ref = some details
      ∨ details ∈ typechecked ∧ details.ref = ref
        ∧ addDeriving override dbContent stored details = true := by
  rw [steps.finalPreds] at found
  refine mergeDerivings_source (fun details member => ?_) found
  obtain ⟨old, _, _, isOld, _⟩ := steps.source keyed member
  exact ⟨old, isOld⟩

/-- Derivations change nothing else of a predicate. -/
theorem Typechecked.final_merged (keyed : Keyed preds)
    (found : after.predicates.lookup ref = some details)
    : ∃ old, preds.lookup ref = some old ∧ details = { old with deriving_ := details.deriving_ } := by
  rcases steps.final_source keyed found with same | ⟨member, rfl, -⟩
  · exact ⟨details, same, rfl⟩
  · obtain ⟨old, info, result, isOld, -, -, rfl⟩ := steps.source keyed member
    exact ⟨old, isOld, rfl⟩

/-- Predicates of the final table have their names. -/
theorem Typechecked.final_keyed (keyed : Keyed env.predicates) : Keyed after.predicates := by
  have mergedKeyed := mergePredicates_keyed steps.mergedPreds keyed
  intro ref details found
  rcases steps.final_source mergedKeyed found with isMerged | ⟨-, isRef, -⟩
  · exact mergedKeyed ref details isMerged
  · exact isRef

end Steps

end Schema

end Glean.Schema
