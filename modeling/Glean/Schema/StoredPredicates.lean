import Glean.Schema.StoredTypes

/-! When stored derived predicates refer to stored predicates only.

A schema is checked for the predicates that it defines or derives. It can attach a derivation to a
predicate of an earlier schema, which others refer to that are not checked again.
-/

namespace Glean.Schema

open Glean.RTS FallibleFold

section Step

variable {Q : Type} {checker : Checker Q} {override : Override}
  {refToPid : PredicateRef → Option Pid} {dbContent : DbContent} {stored : Bool} {env after : TcEnv}
  {schema : ResolvedSchema Q} {preds : AssocMap PredicateRef PredicateDetails}
  {typechecked : List PredicateDetails} {ref : PredicateRef} {details : PredicateDetails}

/-- What a schema has to leave alone: the types it redefines still mention the same predicates,
and it attaches no derivation whose facts are not stored to what a stored derived predicate refers
to, unless it defines or derives that predicate as well.
-/
structure KeepsStored (override : Override) (refToPid : PredicateRef → Option Pid)
    (dbContent : DbContent) (stored : Bool) (env : TcEnv) (schema : ResolvedSchema Q)
    : Prop where
  types : KeepsTypes refToPid env schema
  derivings
    : ∀ ref details, env.predicates.lookup ref = some details →
        details.deriving_.derivedAndStored = true →
        ref ∉ (schemaPredicates refToPid stored env schema).map (·.ref) →
        schema.deriving_.lookup ref = none →
        ∀ dep ∈ details.typeDeps, ∀ target when query result,
          env.predicates.lookup dep = some target →
          schema.deriving_.lookup dep = some (.derive when query) →
          when ≠ .derivedAndStored →
          addDeriving override dbContent stored { target with deriving_ := .derive when result }
            = false

/-- The tables of an environment: predicates have their names and ids, types are closed, and
stored derived predicates refer to predicates that are there and not derived without being stored.
-/
structure StoredTables (refToPid : PredicateRef → Option Pid) (env : TcEnv) : Prop where
  keyed : Keyed env.predicates
  pids
    : ∀ ref details, env.predicates.lookup ref = some details → refToPid ref = some details.pid
  typesClosed : ∀ ref type, env.types.lookup ref = some type → Closed env.types type
  predicatesClosed
    : ∀ ref details, env.predicates.lookup ref = some details →
        Closed env.types details.keyType ∧ Closed env.types details.valueType
  refers
    : ∀ ref details, env.predicates.lookup ref = some details →
        details.deriving_.derivedAndStored = true →
        ∀ dep ∈ details.typeDeps,
          ∃ target, env.predicates.lookup dep = some target
            ∧ target.deriving_.derivedNotStored = false

theorem StoredTables.empty : StoredTables refToPid emptyTcEnv where
  keyed := nofun
  pids := nofun
  typesClosed := nofun
  predicatesClosed := nofun
  refers := nofun

theorem StoredTables.storedReferToStored (tables : StoredTables refToPid env)
    : StoredReferToStored env.predicates := by
  intro ref details found isStored dep member target isTarget
  obtain ⟨target', isTarget', notDerived⟩ := tables.refers ref details found isStored dep member
  rw [isTarget] at isTarget'
  cases isTarget'
  exact notDerived

/-- Whether a derivation is attached depends on its kind, and on the id of the predicate and the
schema it comes from.
-/
theorem addDeriving_congr {left right : PredicateDetails} {when : DeriveWhen} {query : TcQuery}
    (samePid : left.pid = right.pid)
    (sameSchema : override = .takeNew ∨ left.inStoredSchema = right.inStoredSchema)
    : addDeriving override dbContent stored { left with deriving_ := .derive when query }
      = addDeriving override dbContent stored { right with deriving_ := .derive when query } := by
  unfold addDeriving
  cases when with
  | deriveIfEmpty => simp only [samePid]
  | deriveOnDemand | derivedAndStored =>
      rcases sameSchema with rfl | sameSchema
      · rfl
      · cases override with
        | takeNew => rfl
        | takeOld | mustBeEqual => simp only [sameSchema]

theorem mem_refs_iff {preds : List PredicateDetails}
    : ref ∈ preds.map (·.ref) ↔ ∃ details ∈ preds, details.ref = ref :=
  List.mem_map

/-- The check of a stored derived predicate has looked at both of its types. -/
theorem checkedTypes_of_checkStored {types : AssocMap TypeRef RtsType}
    (found : preds.lookup ref = some details)
    (isStored : details.deriving_.derivedAndStored = true)
    (checked : checkStored preds types ref = .ok ())
    : (∃ fuel, checkStoredType preds types ref fuel details.keyType = .ok ())
      ∧ ∃ fuel, checkStoredType preds types ref fuel details.valueType = .ok () := by
  unfold checkStored at checked
  rw [found] at checked
  cases isDeriving : details.deriving_ with
  | noDeriving =>
      rw [isDeriving] at isStored
      cases isStored
  | derive when query =>
      rw [isDeriving] at isStored
      cases when with
      | deriveOnDemand | deriveIfEmpty => cases isStored
      | derivedAndStored =>
          simp only [isDeriving] at checked
          obtain ⟨⟨⟩, keyChecked, valueChecked⟩ := bind_eq_ok.mp checked
          exact ⟨⟨_, keyChecked⟩, ⟨_, valueChecked⟩⟩

variable
  (steps
    : Typechecked checker override refToPid dbContent stored env schema preds typechecked after)

include steps

/-- The derivation of what a stored derived predicate refers to stays one that is stored, when
that predicate is not checked again.
-/
theorem Typechecked.target_kept (tables : StoredTables refToPid env)
    (keeps : KeepsStored override refToPid dbContent stored env schema)
    (isOld : env.predicates.lookup ref = some details)
    (isStored : details.deriving_.derivedAndStored = true)
    (undefined : ref ∉ (schemaPredicates refToPid stored env schema).map (·.ref))
    (underived : schema.deriving_.lookup ref = none)
    {dep : PredicateRef} (member : dep ∈ details.typeDeps) {target : PredicateDetails}
    (found : after.predicates.lookup dep = some target)
    : target.deriving_.derivedNotStored = false := by
  have keyed := mergePredicates_keyed steps.mergedPreds tables.keyed
  obtain ⟨old, isTarget, notDerived⟩ := tables.refers ref details isOld isStored dep member
  have merged {new : PredicateDetails} (isNew : preds.lookup dep = some new)
      : new = old ∨ new.deriving_ = .noDeriving := by
    rcases mergePredicates_source steps.mergedPreds isNew with fromEnv | ⟨fromSchema, -⟩
    · rw [isTarget] at fromEnv
      cases fromEnv
      exact .inl rfl
    · exact .inr (mem_schemaPredicates fromSchema).2.2.2.1
  rcases steps.final_source keyed found with isMerged | ⟨isDerived, rfl, attached⟩
  · rcases merged isMerged with rfl | none
    · exact notDerived
    · rw [none]
      rfl
  · obtain ⟨new, info, result, isNew, inSchema, isResult, sameTarget⟩ :=
      steps.source keyed isDerived
    cases info with
    | noDeriving =>
        cases isResult
        rw [sameTarget]
        rfl
    | derive when query =>
        obtain ⟨query', -, isResult⟩ := bind_eq_ok.mp isResult
        cases isResult
        by_cases storedKind : when = .derivedAndStored
        · rw [sameTarget, storedKind]
          rfl
        -- the schema does not attach such a derivation to the old predicate, nor to the new one
        have unattached := keeps.derivings ref details isOld isStored undefined underived target.ref
          member old when query query' isTarget (AssocMap.lookup_of_mem inSchema) storedKind
        have samePid : new.pid = old.pid := by
          rcases mergePredicates_source steps.mergedPreds isNew with fromEnv | ⟨fromSchema, isRef⟩
          · rw [isTarget] at fromEnv
            cases fromEnv
            rfl
          · have newPid := (mem_schemaPredicates fromSchema).2.2.1
            rw [isRef, tables.pids _ _ isTarget] at newPid
            exact (Option.some.inj newPid).symm
        have sameSchema : override = .takeNew ∨ new.inStoredSchema = old.inStoredSchema := by
          by_cases takesNew : override = .takeNew
          · exact .inl takesNew
          · have stays := mergePredicates_takeOld steps.mergedPreds isTarget takesNew
            rw [isNew] at stays
            cases stays
            exact .inr rfl
        rw [sameTarget, addDeriving_congr samePid sameSchema, unattached] at attached
        cases attached

/-- A schema that leaves stored derived predicates alone keeps the tables as they should be. -/
theorem Typechecked.storedTables (tables : StoredTables refToPid env)
    (keeps : KeepsStored override refToPid dbContent stored env schema)
    : StoredTables refToPid after := by
  have keyed := mergePredicates_keyed steps.mergedPreds tables.keyed
  have typesClosed := mergeTypes_closed keeps.types steps.mergedTypes tables.typesClosed
  have predsClosed {ref : PredicateRef} {details : PredicateDetails}
      (found : preds.lookup ref = some details)
      : Closed after.types details.keyType ∧ Closed after.types details.valueType := by
    rcases mergePredicates_source steps.mergedPreds found with fromEnv | ⟨fromSchema, -⟩
    · have extended := mergeTypes_extends keeps.types steps.mergedTypes
      have closed := tables.predicatesClosed ref details fromEnv
      exact ⟨closed.1.mono extended, closed.2.mono extended⟩
    · obtain ⟨⟨_, keyExpands⟩, ⟨_, valueExpands⟩, -⟩ := mem_schemaPredicates fromSchema
      exact ⟨closed_of_rtsType keeps.types steps.mergedTypes keyExpands,
        closed_of_rtsType keeps.types steps.mergedTypes valueExpands⟩
  have finalClosed {ref : PredicateRef} {details : PredicateDetails}
      (found : after.predicates.lookup ref = some details)
      : Closed after.types details.keyType ∧ Closed after.types details.valueType := by
    obtain ⟨old, isOld, same⟩ := steps.final_merged keyed found
    have closed := predsClosed isOld
    rw [same]
    exact closed
  exact {
    keyed := steps.final_keyed tables.keyed
    pids := by
      intro ref details found
      obtain ⟨old, isOld, same⟩ := steps.final_merged keyed found
      rw [same]
      rcases mergePredicates_source steps.mergedPreds isOld with fromEnv | ⟨fromSchema, rfl⟩
      · exact tables.pids ref old fromEnv
      · exact (mem_schemaPredicates fromSchema).2.2.1
    typesClosed := typesClosed
    predicatesClosed := fun _ _ => finalClosed
    refers := by
      intro ref details found isStored dep member
      by_cases touched
        : ref ∈ (schemaPredicates refToPid stored env schema).map (·.ref) ++ typechecked.map (·.ref)
      -- the check has been made in this environment
      · obtain ⟨⟨_, keyChecked⟩, ⟨_, valueChecked⟩⟩ :=
          checkedTypes_of_checkStored found isStored (steps.checked ref touched)
        rcases List.mem_append.mp member with inKey | inValue
        · exact refers_of_checkStoredType typesClosed (finalClosed found).1 keyChecked dep inKey
        · exact refers_of_checkStoredType typesClosed (finalClosed found).2 valueChecked dep inValue
      -- the predicate is as it was before
      · rw [List.mem_append, not_or] at touched
        obtain ⟨undefined, untypechecked⟩ := touched
        have isMerged : preds.lookup ref = some details := by
          rw [steps.finalPreds, mergeDerivings_frame untypechecked] at found
          exact found
        have isOld : env.predicates.lookup ref = some details := by
          rw [← mergePredicates_frame steps.mergedPreds undefined]
          exact isMerged
        have underived : schema.deriving_.lookup ref = none := by
          rw [Option.eq_none_iff_forall_ne_some]
          intro info isInfo
          obtain ⟨result, isTypechecked⟩ := typecheckDerivings_derives steps.derivings
            (AssocMap.mem_of_lookup isInfo) isMerged
          exact untypechecked (mem_refs_iff.mpr ⟨_, isTypechecked, keyed ref details isMerged⟩)
        obtain ⟨old, isTarget, -⟩ := tables.refers ref details isOld isStored dep member
        obtain ⟨new, isNew⟩ := mergePredicates_grows steps.mergedPreds isTarget
        obtain ⟨target, isFinal⟩ : ∃ target, after.predicates.lookup dep = some target := by
          rw [steps.finalPreds]
          exact mergeDerivings_grows isNew
        exact ⟨target, isFinal,
          steps.target_kept tables keeps isOld isStored undefined underived member isFinal⟩
  }

end Step

section Run

variable {Q : Type} {checker : Checker Q} {override : Override}
  {getPids : List PredicateRef → List Pid} {dbContent : DbContent}
  {base addition : List (ResolvedSchema Q)} {env : TcEnv}

/-- Every schema leaves the stored derived predicates of the ones before it alone. -/
def EverySchemaKeepsStored (checker : Checker Q) (override : Override)
    (getPids : List PredicateRef → List Pid) (dbContent : DbContent)
    (base addition : List (ResolvedSchema Q))
    : Prop :=
  let refToPid := schemaPids getPids base addition
  Meets (typecheckSchema checker override refToPid dbContent true)
    (KeepsStored override refToPid dbContent true) emptyTcEnv base
  ∧ ∀ envStored,
      base.foldlM (typecheckSchema checker override refToPid dbContent true) emptyTcEnv
        = .ok envStored →
      Meets (typecheckSchema checker override refToPid dbContent false)
        (KeepsStored override refToPid dbContent false) envStored addition

theorem mkDbSchema_storedReferToStored
    (keeps : EverySchemaKeepsStored checker override getPids dbContent base addition)
    (accepted : mkDbSchema checker override getPids dbContent base addition = .ok env)
    : StoredReferToStored env.predicates := by
  have step (stored : Bool) (env : TcEnv) (schema : ResolvedSchema Q) (after : TcEnv)
      (keeps
        : KeepsStored override (schemaPids getPids base addition) dbContent stored env schema)
      (accepted
        : typecheckSchema checker override (schemaPids getPids base addition) dbContent stored env
            schema
          = .ok after)
      (tables : StoredTables (schemaPids getPids base addition) env)
      : StoredTables (schemaPids getPids base addition) after := by
    obtain ⟨preds, typechecked, steps⟩ := typecheckSchema_cases accepted
    exact steps.storedTables tables keeps
  obtain ⟨envStored, isStored, accepted⟩ := bind_eq_ok.mp accepted
  have tables := foldlM_preserves (step true) keeps.1 .empty isStored
  exact (foldlM_preserves (step false) (keeps.2 envStored isStored) tables accepted)
    |>.storedReferToStored

end Run

/-- Queries are written as they are typechecked, and predicates that come later depend on those
that come earlier.
-/
def plainChecker : Checker TcQuery := ⟨fun _ _ _ query => .ok query, fun edges => edges.map Prod.fst⟩

namespace LaterDerived

def target : PidRef := ⟨1, ⟨"A", 1⟩⟩

def referring : PidRef := ⟨2, ⟨"B", 1⟩⟩

def getPids (refs : List PredicateRef) : List Pid :=
  refs.map fun ref => if ref = target.ref then target.pid else referring.pid

/-- `X where X = A _` -/
def everyTarget : TcQuery :=
  let found : Var := ⟨.predicate target, 0⟩
  .mk found.type (.ref (.var found)) none
    [.mk found.type (.ref (.bind found))
      (.ref (.ext found.type
        (.factGen target (.ref (.wild .string)) (.ref (.wild (.record []))))))]

/-- `predicate A : string` and `predicate B : A stored X where X = A _`. -/
def base : ResolvedSchema TcQuery where
  predicates :=
    (AssocMap.empty.insert target.ref ⟨.string, .record []⟩).insert referring.ref
      ⟨.predicate target.ref, .record []⟩
  types := .empty
  deriving_ := AssocMap.empty.insert referring.ref (.derive .derivedAndStored everyTarget)

/-- A schema that derives `A`, with one empty string. -/
def derivesTarget (when : DeriveWhen) : ResolvedSchema TcQuery where
  predicates := .empty
  types := .empty
  deriving_ := AssocMap.empty.insert target.ref (.derive when (.mk .string (.string []) none []))

/-- The predicates of such a schema, after the first: both are derived. -/
theorem base_then_derivesTarget (when : DeriveWhen) (unconditional : when ≠ .deriveIfEmpty)
    : ∃ env, mkDbSchema plainChecker .takeOld getPids .dbWritable [base, derivesTarget when] []
          = .ok env
        ∧ (env.predicates.lookup referring.ref).map (fun details =>
            (details.deriving_.derivedAndStored, details.typeDeps)) = some (true, [target.ref])
        ∧ (env.predicates.lookup target.ref).map (fun details =>
            details.deriving_.derivedNotStored) = some (when != .derivedAndStored) := by
  cases when with
  | deriveOnDemand => exact ⟨_, rfl, rfl, rfl⟩
  | derivedAndStored => exact ⟨_, rfl, rfl, rfl⟩
  | deriveIfEmpty => exact absurd rfl unconditional

theorem base_keepsStored {refToPid : PredicateRef → Option Pid}
    : KeepsStored .takeOld refToPid .dbWritable true emptyTcEnv base where
  types := nofun
  derivings := nofun

/-- A derivation that is stored can be attached to any predicate. -/
theorem derivesTarget_keepsStored {refToPid : PredicateRef → Option Pid} {env : TcEnv}
    : KeepsStored .takeOld refToPid .dbWritable true env (derivesTarget .derivedAndStored) where
  types := nofun
  derivings := by
    intro ref details _ _ _ _ dep _ old when query result _ isDerived notStored
    rw [derivesTarget, AssocMap.lookup_insert] at isDerived
    split at isDerived
    next =>
      cases isDerived
      exact absurd rfl notStored
    next => cases isDerived

end LaterDerived

/-- Deriving `A` on demand is accepted. -/
theorem mkDbSchema_storedRefersToDerived
    : ¬ ∀ (checker : Checker TcQuery) override getPids dbContent base addition env,
        mkDbSchema checker override getPids dbContent base addition = .ok env →
        StoredReferToStored env.predicates := by
  intro claimed
  obtain ⟨env, accepted, isReferring, isTarget⟩ :=
    LaterDerived.base_then_derivesTarget .deriveOnDemand nofun
  obtain ⟨details, found, isDetails⟩ := Option.map_eq_some_iff.mp isReferring
  obtain ⟨target, foundTarget, derived⟩ := Option.map_eq_some_iff.mp isTarget
  obtain ⟨isStored, refersTo⟩ := Prod.mk.inj isDetails
  have notDerived := claimed _ _ _ _ _ _ env accepted _ details found isStored
    LaterDerived.target.ref (refersTo ▸ List.mem_cons_self) target foundTarget
  rw [derived] at notDerived
  cases notDerived

theorem mkDbSchema_storedReferToStored_derivesStored
    : ∃ env,
        mkDbSchema plainChecker .takeOld LaterDerived.getPids .dbWritable
            [LaterDerived.base, LaterDerived.derivesTarget .derivedAndStored] []
          = .ok env
        ∧ StoredReferToStored env.predicates := by
  obtain ⟨env, accepted, -⟩ := LaterDerived.base_then_derivesTarget .derivedAndStored nofun
  have keeps
      : EverySchemaKeepsStored plainChecker .takeOld LaterDerived.getPids .dbWritable
          [LaterDerived.base, LaterDerived.derivesTarget .derivedAndStored] [] :=
    ⟨⟨LaterDerived.base_keepsStored,
        fun _ _ => ⟨LaterDerived.derivesTarget_keepsStored, fun _ _ => trivial⟩⟩,
      fun _ _ => trivial⟩
  exact ⟨env, accepted, mkDbSchema_storedReferToStored keeps accepted⟩

end Glean.Schema
