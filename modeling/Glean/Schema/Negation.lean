import Glean.Library.TopologicalMarks
import Glean.Schema.SchemaStep

/-! When stored predicates are kept from depending on negation.

The check looks at the statements of derivations but not at their heads, and visits each derivation
once, after those that it depends on.
-/

namespace Glean.Schema

open Glean.RTS FallibleFold TopologicalMarks
open Relation (ReflTransGen)

section Dependencies

variable {preds : AssocMap PredicateRef PredicateDetails} {ref dep : PredicateRef}
  {details : PredicateDetails} {query : TcQuery}

def Derives (preds : AssocMap PredicateRef PredicateDetails) (ref : PredicateRef)
    (query : TcQuery)
    : Prop :=
  ∃ details when, preds.lookup ref = some details ∧ details.deriving_ = .derive when query

/-- The derivation of one predicate mentions another one. -/
def Mentions (preds : AssocMap PredicateRef PredicateDetails) (ref dep : PredicateRef) : Prop :=
  ∃ query, Derives preds ref query ∧ dep ∈ query.mentioned

/-- A derivation uses negation, that of the predicate or one at the end of a chain from it. -/
def ReachesNegation (preds : AssocMap PredicateRef PredicateDetails) (ref : PredicateRef) : Prop :=
  ∃ last query, ReflTransGen (Mentions preds) ref last ∧ Derives preds last query
    ∧ query.negates = true

/-- No stored predicate depends on negation. -/
def NoStoredNegation (preds : AssocMap PredicateRef PredicateDetails) : Prop :=
  ∀ ref details, preds.lookup ref = some details → isStored details.deriving_ = true →
    ¬ ReachesNegation preds ref

/-- A chain of derivations leads from a stored predicate to this one. -/
def FromStored (preds : AssocMap PredicateRef PredicateDetails) (ref : PredicateRef) : Prop :=
  ∃ start details, preds.lookup start = some details ∧ isStored details.deriving_ = true
    ∧ ReflTransGen (Mentions preds) start ref

/-- What the check needs to see all dependencies of stored predicates on negation: nothing is only
in the heads of queries, and predicates that depend on negation do not depend on each other.
-/
structure NegationVisible (preds : AssocMap PredicateRef PredicateDetails) : Prop where
  heads : ∀ ref query, FromStored preds ref → Derives preds ref query → query.HeadsCovered
  recursion
    : ∀ ref dep, FromStored preds ref → ReachesNegation preds ref →
        ReflTransGen (Mentions preds) ref dep → ReflTransGen (Mentions preds) dep ref → dep = ref

theorem FromStored.mentions (fromStored : FromStored preds ref) (mentions : Mentions preds ref dep)
    : FromStored preds dep := by
  obtain ⟨start, details, found, stored, path⟩ := fromStored
  exact ⟨start, details, found, stored, path.tail mentions⟩

theorem Derives.unique {other : TcQuery} (derives : Derives preds ref query)
    (derivesOther : Derives preds ref other)
    : query = other := by
  obtain ⟨details, when, found, isQuery⟩ := derives
  obtain ⟨details', when', found', isOther⟩ := derivesOther
  rw [found] at found'
  cases found'
  rw [isQuery] at isOther
  cases isOther
  rfl

end Dependencies

section Heads

variable {α : Type} {type : RtsType → List α} {generator : PredicateRef → List α}
  {negation : List α} {part : α}

mutual

theorem mem_query_heads {query : TcQuery}
    (member : part ∈ Visitor.query ⟨type, generator, negation, false⟩ query)
    : part ∈ Visitor.query ⟨type, generator, negation, true⟩ query := by
  cases query with
  | mk queryType key value stmts =>
      simp only [Visitor.query, Bool.false_eq_true, if_false, List.append_nil, if_true,
        List.mem_append] at member ⊢
      rcases member with inType | inStatements
      · exact .inl (.inl inType)
      · exact .inr (mem_statements_heads inStatements)

theorem mem_statement_heads {stmt : TcStatement}
    (member : part ∈ Visitor.statement ⟨type, generator, negation, false⟩ stmt)
    : part ∈ Visitor.statement ⟨type, generator, negation, true⟩ stmt := by
  cases stmt with
  | mk stmtType lhs rhs =>
      simp only [Visitor.statement, List.mem_append] at member ⊢
      rcases member with (inType | inLhs) | inRhs
      · exact .inl (.inl inType)
      · exact .inl (.inr (mem_pat_heads inLhs))
      · exact .inr (mem_pat_heads inRhs)

theorem mem_statements_heads {stmts : List TcStatement}
    (member : part ∈ Visitor.statements ⟨type, generator, negation, false⟩ stmts)
    : part ∈ Visitor.statements ⟨type, generator, negation, true⟩ stmts := by
  cases stmts with
  | nil => exact member
  | cons stmt stmts =>
      simp only [Visitor.statements, List.mem_append] at member ⊢
      exact member.imp mem_statement_heads mem_statements_heads

theorem mem_pat_heads {pat : TcPat}
    (member : part ∈ Visitor.pat ⟨type, generator, negation, false⟩ pat)
    : part ∈ Visitor.pat ⟨type, generator, negation, true⟩ pat := by
  cases pat with
  | byte _ | nat _ | byteArray _ | string _ => exact member
  | array elements => exact mem_pats_heads member
  | tuple fields => exact mem_pats_heads member
  | alt selector inner =>
      simp only [Visitor.pat] at member ⊢
      exact mem_pat_heads member
  | ref inner => exact mem_refPat_heads member

theorem mem_pats_heads {pats : List TcPat}
    (member : part ∈ Visitor.pats ⟨type, generator, negation, false⟩ pats)
    : part ∈ Visitor.pats ⟨type, generator, negation, true⟩ pats := by
  cases pats with
  | nil => exact member
  | cons first others =>
      simp only [Visitor.pats, List.mem_append] at member ⊢
      exact member.imp mem_pat_heads mem_pats_heads

theorem mem_optional_heads {pat : Option TcPat}
    (member : part ∈ Visitor.optional ⟨type, generator, negation, false⟩ pat)
    : part ∈ Visitor.optional ⟨type, generator, negation, true⟩ pat := by
  cases pat with
  | none => exact member
  | some inner => exact mem_pat_heads member

theorem mem_alts_heads {alts : List (Option TcPat)}
    (member : part ∈ Visitor.alts ⟨type, generator, negation, false⟩ alts)
    : part ∈ Visitor.alts ⟨type, generator, negation, true⟩ alts := by
  cases alts with
  | nil => exact member
  | cons first others =>
      simp only [Visitor.alts, List.mem_append] at member ⊢
      exact member.imp mem_optional_heads mem_alts_heads

theorem mem_refPat_heads {inner : Match}
    (member : part ∈ Visitor.refPat ⟨type, generator, negation, false⟩ inner)
    : part ∈ Visitor.refPat ⟨type, generator, negation, true⟩ inner := by
  cases inner with
  | wild _ | never _ | fid _ | bind _ | var _ => exact member
  | and left right =>
      simp only [Visitor.refPat, List.mem_append] at member ⊢
      exact member.imp mem_pat_heads mem_pat_heads
  | strPrefix text rest => exact mem_pat_heads member
  | sum alts => exact mem_alts_heads member
  | ext extType term =>
      simp only [Visitor.refPat, List.mem_append] at member ⊢
      exact member.imp_right mem_term_heads

theorem mem_term_heads {term : TcTerm}
    (member : part ∈ Visitor.term ⟨type, generator, negation, false⟩ term)
    : part ∈ Visitor.term ⟨type, generator, negation, true⟩ term := by
  cases term with
  | or left right =>
      simp only [Visitor.term, List.mem_append] at member ⊢
      exact member.imp mem_pat_heads mem_pat_heads
  | factGen pred key value =>
      simp only [Visitor.term, List.mem_append] at member ⊢
      rcases member with (isPred | inKey) | inValue
      · exact .inl (.inl isPred)
      · exact .inl (.inr (mem_pat_heads inKey))
      · exact .inr (mem_pat_heads inValue)
  | elementsOfArray array => exact mem_pat_heads member
  | queryGen query => exact mem_query_heads member
  | negation stmts =>
      simp only [Visitor.term, List.mem_append] at member ⊢
      exact member.imp_right mem_statements_heads
  | primCall op args => exact mem_pats_heads member

end

/-- The dependencies that are collected are mentioned. -/
theorem mentioned_of_mem_tcQueryDeps {query : TcQuery} {dep : PredicateRef}
    (member : dep ∈ tcQueryDeps query)
    : dep ∈ query.mentioned :=
  mem_query_heads member

end Heads

section UsesOfNegation

variable {Q : Type} {checker : Checker Q} {preds : AssocMap PredicateRef PredicateDetails}
  {ref dep : PredicateRef} {query : TcQuery} {inherited : Finset PredicateRef}

/-- The derivations of a table, in the order of its entries. -/
def derivations (preds : AssocMap PredicateRef PredicateDetails) : Graph PredicateRef :=
  preds.keys.filterMap (derivationOf preds)

theorem usesOfNegation_eq_foldl
    : usesOfNegation checker inherited preds
      = ((checker.topSort (edges (derivations preds))).reverse.filterMap
          (derivationOf preds)).foldl mark inherited :=
  rfl

theorem derivationOf_of_derives (derives : Derives preds ref query)
    : derivationOf preds ref = some (tcQueryUsesNegation query, ref, tcQueryDeps query) := by
  obtain ⟨⟨pid, name, keyType, valueType, deriving_, inStoredSchema⟩, when, found, isQuery⟩ := derives
  dsimp only at isQuery
  subst isQuery
  simp only [derivationOf, found]

theorem derives_of_derivationOf {derivation : Bool × PredicateRef × List PredicateRef}
    (isDerivation : derivationOf preds ref = some derivation)
    : ∃ query, Derives preds ref query
        ∧ derivation = (tcQueryUsesNegation query, ref, tcQueryDeps query) := by
  unfold derivationOf at isDerivation
  split at isDerivation
  next when query _ found =>
    cases isDerivation
    exact ⟨query, ⟨_, when, found, rfl⟩, rfl⟩
  next => cases isDerivation

/-- Derivations are taken under the names of their predicates. -/
theorem map_filterMap_derivationOf (refs : List PredicateRef)
    : (refs.filterMap (derivationOf preds)).map (·.2.1)
      = refs.filter fun ref => (derivationOf preds ref).isSome := by
  induction refs with
  | nil => rfl
  | cons ref refs ih =>
      cases isDerivation : derivationOf preds ref with
      | none =>
          rw [List.filterMap_cons_none isDerivation, ih, List.filter_cons_of_neg]
          simp [isDerivation]
      | some derivation =>
          obtain ⟨query, -, rfl⟩ := derives_of_derivationOf isDerivation
          rw [List.filterMap_cons_some isDerivation, List.map_cons, ih, List.filter_cons_of_pos]
          simp [isDerivation]

theorem vertices_eq
    : (edges (derivations preds)).map Prod.fst
      = preds.keys.filter fun ref => (derivationOf preds ref).isSome := by
  rw [edges, List.map_map]
  exact map_filterMap_derivationOf preds.keys

theorem nodup_vertices : ((edges (derivations preds)).map Prod.fst).Nodup := by
  rw [vertices_eq]
  exact preds.nodup.filter _

theorem mem_vertices_of_derives (derives : Derives preds ref query)
    : ref ∈ (edges (derivations preds)).map Prod.fst := by
  rw [vertices_eq]
  refine List.mem_filter.mpr ⟨?_, by rw [derivationOf_of_derives derives]; rfl⟩
  obtain ⟨details, when, found, -⟩ := derives
  exact AssocMap.mem_keys_iff.mpr ⟨details, found⟩

/-- An edge of the graph of derivations is a dependency that is mentioned. -/
theorem mentions_of_edge (edge : Edge (edges (derivations preds)) ref dep)
    : Mentions preds ref dep := by
  obtain ⟨targets, inEdges, isTarget, -⟩ := edge
  obtain ⟨derivation, member, isEdge⟩ := List.mem_map.mp inEdges
  obtain ⟨name, -, isDerivation⟩ := List.mem_filterMap.mp member
  obtain ⟨query, derives, rfl⟩ := derives_of_derivationOf isDerivation
  cases isEdge
  exact ⟨query, derives, mentioned_of_mem_tcQueryDeps isTarget⟩

theorem edge_of_derives (derives : Derives preds ref query) (isDep : dep ∈ tcQueryDeps query)
    {depQuery : TcQuery} (depDerives : Derives preds dep depQuery)
    : Edge (edges (derivations preds)) ref dep := by
  have member : (tcQueryUsesNegation query, ref, tcQueryDeps query) ∈ derivations preds := by
    obtain ⟨details, when, found, -⟩ := id derives
    exact List.mem_filterMap.mpr
      ⟨ref, AssocMap.mem_keys_iff.mpr ⟨details, found⟩, derivationOf_of_derives derives⟩
  exact ⟨tcQueryDeps query, List.mem_map_of_mem member, isDep,
    mem_vertices_of_derives depDerives⟩

/-- What the library of graphs promises of `topSort`, for graphs with different vertices. -/
def SortsTopologically (checker : Checker Q) : Prop :=
  ∀ edges : List (PredicateRef × List PredicateRef),
    (edges.map Prod.fst).Nodup → IsTopologicalOrder edges (checker.topSort edges)

/-- The predicates between a stored one and a negation are all recorded. The induction is on the
chain from a predicate to the negation: the next one has been visited before it.
-/
theorem mem_usesOfNegation (sorts : SortsTopologically checker) (visible : NegationVisible preds)
    (fromStored : FromStored preds ref) (reaches : ReachesNegation preds ref)
    : ref ∈ usesOfNegation checker inherited preds := by
  have order := sorts (edges (derivations preds)) nodup_vertices
  have visitsOnce
      : (((checker.topSort (edges (derivations preds))).reverse.filterMap
          (derivationOf preds)).map (·.2.1)).Nodup := by
    rw [map_filterMap_derivationOf]
    exact (List.nodup_reverse.mpr order.nodup).filter _
  obtain ⟨last, lastQuery, path, lastDerives, negates⟩ := reaches
  rw [usesOfNegation_eq_foldl]
  induction path using ReflTransGen.head_induction_on with
  | refl =>
      have member := (order.complete last).mpr (mem_vertices_of_derives lastDerives)
      have visited
          := List.mem_filterMap.mpr
            ⟨last, List.mem_reverse.mpr member, derivationOf_of_derives lastDerives⟩
      exact mem_foldl_mark_of_seed visitsOnce visited
        ((visible.heads _ _ fromStored lastDerives).negates negates)
  | @head ref dep mentions path ih =>
      have recorded := ih (fromStored.mentions mentions)
      by_cases same : dep = ref
      · exact same ▸ recorded
      obtain ⟨query, derives, isMentioned⟩ := id mentions
      have isDep := (visible.heads _ _ fromStored derives).mentioned dep isMentioned
      have depDerives : ∃ depQuery, Derives preds dep depQuery := by
        rcases path.cases_head with rfl | ⟨_, ⟨depQuery, derives, -⟩, -⟩
        · exact ⟨lastQuery, lastDerives⟩
        · exact ⟨depQuery, derives⟩
      obtain ⟨depQuery, depDerives⟩ := depDerives
      have edge := edge_of_derives derives isDep depDerives
      -- the two do not depend on each other, so the one that is mentioned comes first
      have acyclic : ¬ Reaches (edges (derivations preds)) dep ref := by
        intro back
        have reaches : ReachesNegation preds ref :=
          ⟨last, lastQuery, path.head mentions, lastDerives, negates⟩
        exact same (visible.recursion ref dep fromStored reaches (.single mentions)
          (ReflTransGen.mono (fun _ _ => mentions_of_edge) _ _ back))
      have sorted := order.ordered ref dep (mem_vertices_of_derives derives) (.single edge) acyclic
      have visited
          : [dep, ref].Sublist (checker.topSort (edges (derivations preds))).reverse :=
        List.reverse_sublist.mpr sorted
      have ordered := visited.filterMap (derivationOf preds)
      rw [List.filterMap_cons_some (derivationOf_of_derives depDerives),
        List.filterMap_cons_some (derivationOf_of_derives derives), List.filterMap_nil] at ordered
      exact mem_foldl_mark_of_target visitsOnce ordered isDep recorded

end UsesOfNegation

section Step

variable {Q : Type} (checker : Checker Q) (override : Override)
  (refToPid : PredicateRef → Option Pid) (dbContent : DbContent) (stored : Bool) (env : TcEnv)
  (schema : ResolvedSchema Q)

/-- The table that the definitions and derivations of a schema make, before it is checked. -/
def uncheckedTable : Except String (AssocMap PredicateRef PredicateDetails) := do
  let preds ← mergePredicates override refToPid stored env schema
  let types ← mergeTypes override refToPid env schema
  let typechecked ← typecheckDerivings checker schema ⟨types, preds, env.usesNegation⟩
  return typechecked.foldl (mergeDeriving override dbContent stored) preds

/-- In the table that is checked for a schema, negation is visible to the check. -/
def ChecksNegation : Prop :=
  ∀ preds, uncheckedTable checker override refToPid dbContent stored env schema = .ok preds →
    NegationVisible preds

variable {checker override refToPid dbContent stored env schema} {after : TcEnv}

theorem uncheckedTable_of_typecheckSchema
    (accepted : typecheckSchema checker override refToPid dbContent stored env schema = .ok after)
    : uncheckedTable checker override refToPid dbContent stored env schema
      = .ok after.predicates := by
  obtain ⟨preds, typechecked, steps⟩ := typecheckSchema_cases accepted
  refine bind_eq_ok.mpr ⟨preds, steps.mergedPreds, ?_⟩
  refine bind_eq_ok.mpr ⟨after.types, steps.mergedTypes, ?_⟩
  refine bind_eq_ok.mpr ⟨typechecked, steps.derivings, ?_⟩
  rw [steps.finalPreds]
  rfl

/-- Environments whose predicates have their names and where none that is stored depends on
negation.
-/
structure NegationChecked (env : TcEnv) : Prop where
  keyed : Keyed env.predicates
  noStored : NoStoredNegation env.predicates

theorem typecheckSchema_negationChecked (sorts : SortsTopologically checker)
    (checks : ChecksNegation checker override refToPid dbContent stored env schema)
    (checked : NegationChecked env)
    (accepted : typecheckSchema checker override refToPid dbContent stored env schema = .ok after)
    : NegationChecked after := by
  have visible := checks _ (uncheckedTable_of_typecheckSchema accepted)
  obtain ⟨preds, typechecked, steps⟩ := typecheckSchema_cases accepted
  have keyed := steps.final_keyed checked.keyed
  refine ⟨keyed, ?_⟩
  intro ref details found isStored reaches
  have recorded : ref ∈ after.usesNegation := by
    rw [steps.usingNegation]
    exact mem_usesOfNegation sorts visible ⟨ref, details, found, isStored, .refl⟩ reaches
  have accepted := steps.negation _ (AssocMap.mem_of_lookup found)
  simp only [checkNegation, isStored, keyed ref details found, recorded, decide_true,
    Bool.and_self, if_true] at accepted
  cases accepted

end Step

section Run

variable {Q : Type} {checker : Checker Q} {override : Override}
  {getPids : List PredicateRef → List Pid} {dbContent : DbContent}
  {base addition : List (ResolvedSchema Q)} {env : TcEnv}

/-- In every table that is checked, negation is visible to the check. -/
def EverySchemaChecksNegation (checker : Checker Q) (override : Override)
    (getPids : List PredicateRef → List Pid) (dbContent : DbContent)
    (base addition : List (ResolvedSchema Q))
    : Prop :=
  let refToPid := schemaPids getPids base addition
  Meets (typecheckSchema checker override refToPid dbContent true)
    (ChecksNegation checker override refToPid dbContent true) emptyTcEnv base
  ∧ ∀ envStored,
      base.foldlM (typecheckSchema checker override refToPid dbContent true) emptyTcEnv
        = .ok envStored →
      Meets (typecheckSchema checker override refToPid dbContent false)
        (ChecksNegation checker override refToPid dbContent false) envStored addition

theorem mkDbSchema_noStoredNegation (sorts : SortsTopologically checker)
    (checks : EverySchemaChecksNegation checker override getPids dbContent base addition)
    (accepted : mkDbSchema checker override getPids dbContent base addition = .ok env)
    : NoStoredNegation env.predicates := by
  have step (stored : Bool) (env : TcEnv) (schema : ResolvedSchema Q) (after : TcEnv)
      (checks
        : ChecksNegation checker override (schemaPids getPids base addition) dbContent stored env
            schema)
      (accepted
        : typecheckSchema checker override (schemaPids getPids base addition) dbContent stored env
            schema
          = .ok after)
      (checked : NegationChecked env)
      : NegationChecked after :=
    typecheckSchema_negationChecked sorts checks checked accepted
  obtain ⟨envStored, isStored, accepted⟩ := bind_eq_ok.mp accepted
  have empty : NegationChecked emptyTcEnv := ⟨nofun, nofun⟩
  have checked := foldlM_preserves (step true) checks.1 empty isStored
  exact (foldlM_preserves (step false) (checks.2 envStored isStored) checked accepted).noStored

end Run

/-- Queries are written as they are typechecked. -/
noncomputable def sortingChecker : Checker TcQuery :=
  ⟨fun _ _ _ query => .ok query, topologicalOrder⟩

theorem sortingChecker_sorts : SortsTopologically sortingChecker :=
  fun _ nodup => isTopologicalOrder_topologicalOrder nodup

namespace NegationInHead

def text : PidRef := ⟨1, ⟨"A", 1⟩⟩

def derived : PidRef := ⟨2, ⟨"B", 1⟩⟩

def getPids (refs : List PredicateRef) : List Pid :=
  refs.map fun ref => if ref = text.ref then text.pid else derived.pid

def var : Var := ⟨.string, 0⟩

/-- The statement `A key`. -/
def generates (key : TcPat) : TcStatement :=
  .mk (.predicate text) (.ref (.wild (.predicate text)))
    (.ref (.ext (.predicate text) (.factGen text key (.ref (.wild (.record []))))))

/-- `X where A X` -/
def every : TcQuery := .mk .string (.ref (.var var)) none [generates (.ref (.bind var))]

/-- `X where A X; !(A X)` -/
def absent : TcQuery :=
  .mk .string (.ref (.var var)) none
    [generates (.ref (.bind var)),
      .mk (.record []) (.ref (.wild (.record [])))
        (.ref (.ext (.record []) (.negation [generates (.ref (.var var))])))]

/-- A query in parentheses: one statement, which becomes the head. -/
def parenthesised (query : TcQuery) : TcQuery :=
  .mk .string (.ref (.ext .string (.queryGen query))) none []

/-- `predicate A : string` and `predicate B : string stored query`. -/
def schema (query : TcQuery) : ResolvedSchema TcQuery where
  predicates :=
    (AssocMap.empty.insert text.ref ⟨.string, .record []⟩).insert derived.ref
      ⟨.string, .record []⟩
  types := .empty
  deriving_ := AssocMap.empty.insert derived.ref (.derive .derivedAndStored query)

/-- The table of such a schema. -/
def table (query : TcQuery) : AssocMap PredicateRef PredicateDetails :=
  (AssocMap.empty.insert text.ref
      ⟨text.pid, text.ref, .string, .record [], .noDeriving, true⟩).insert derived.ref
    ⟨derived.pid, derived.ref, .string, .record [], .derive .derivedAndStored query, true⟩

theorem derives_table {query other : TcQuery} {ref : PredicateRef}
    (derives : Derives (table query) ref other)
    : other = query := by
  obtain ⟨details, when, found, isQuery⟩ := derives
  rw [table, AssocMap.lookup_insert, AssocMap.lookup_insert] at found
  split at found
  next =>
    cases found
    cases isQuery
    rfl
  next =>
    split at found
    next =>
      cases found
      cases isQuery
    next => cases found

theorem table_every_visible : NegationVisible (table every) where
  heads := by
    intro ref query _ derives
    cases derives_table derives
    exact ⟨fun _ member => member, id⟩
  recursion := by
    rintro ref dep - ⟨last, query, -, derives, negates⟩ - -
    cases derives_table derives
    cases negates

end NegationInHead

/-- The query is accepted when it is in parentheses. -/
theorem mkDbSchema_negationInHead
    : ¬ ∀ (checker : Checker TcQuery) override getPids dbContent base addition env,
        SortsTopologically checker →
        mkDbSchema checker override getPids dbContent base addition = .ok env →
        NoStoredNegation env.predicates := by
  intro claimed
  have accepted
      : mkDbSchema sortingChecker .takeOld NegationInHead.getPids .dbWritable
          [NegationInHead.schema (NegationInHead.parenthesised NegationInHead.absent)] []
        = .ok ⟨.empty, NegationInHead.table (NegationInHead.parenthesised NegationInHead.absent),
            ∅⟩ :=
    rfl
  refine claimed _ _ _ _ _ _ _ sortingChecker_sorts accepted NegationInHead.derived.ref _ rfl rfl ?_
  exact ⟨_, _, .refl, ⟨_, _, rfl, rfl⟩, rfl⟩

example
    : mkDbSchema sortingChecker .takeOld NegationInHead.getPids .dbWritable
        [NegationInHead.schema NegationInHead.absent] []
      = .error "negation is not allowed in a stored predicate: B.1" :=
  rfl

theorem mkDbSchema_noStoredNegation_every
    : ∃ env,
        mkDbSchema sortingChecker .takeOld NegationInHead.getPids .dbWritable
            [NegationInHead.schema NegationInHead.every] []
          = .ok env
        ∧ NoStoredNegation env.predicates := by
  have accepted
      : mkDbSchema sortingChecker .takeOld NegationInHead.getPids .dbWritable
          [NegationInHead.schema NegationInHead.every] []
        = .ok ⟨.empty, NegationInHead.table NegationInHead.every, ∅⟩ :=
    rfl
  have checks
      : EverySchemaChecksNegation sortingChecker .takeOld NegationInHead.getPids .dbWritable
          [NegationInHead.schema NegationInHead.every] [] := by
    refine ⟨⟨?_, fun _ _ => trivial⟩, fun _ _ => trivial⟩
    intro preds isTable
    cases isTable
    exact NegationInHead.table_every_visible
  exact ⟨_, accepted, mkDbSchema_noStoredNegation sortingChecker_sorts checks accepted⟩

end Glean.Schema
