import Mathlib.Data.Finset.Union
import Mathlib.Data.Set.Finite.Basic
import Glean.Library.Worklist
import Glean.RTS.Lookup
import Glean.RTS.TraverseClause

/-! The results of a query and the facts nested in them (`query.cpp`). -/

namespace Glean.RTS.Query

open Validate

/-- `Depth` -/
inductive Depth where
  | resultsOnly
  | expandRecursive
  | expandPartial
  deriving DecidableEq

/-- The members of `QueryExecutor` that stay the same. A query with a result type of its own has a
traversal for it, which is given by the types of key and value.
-/
structure Setting where
  varint : Varint
  u8 : U8Next
  inventory : Inventory
  facts : Lookup
  traverse : Option (Ty × Ty)
  depth : Depth
  expandPids : List Pid

/-- The results so far. The end of `nested_result_pending` comes first. -/
structure Execution where
  results : List Fact
  nestedResultsAdded : List Id
  nestedResultPending : List Id
  nestedResults : List Fact

def Execution.start : Execution := ⟨[], [], [], []⟩

/-- The arguments of `resultWithPid`; `isRec` is `rec`. The key and the value may be null. -/
structure Call where
  id : Id
  key : Option Bytes
  val : Option Bytes
  pid : Pid
  isRec : Bool

/-- The clause of a result. -/
def Call.clause (call : Call) : Clause :=
  .from (call.key.getD [] ++ call.val.getD []) (call.key.elim 0 List.length)

variable (setting : Setting)

/-- `nestedFact` -/
def nestedFact (state : Execution) (reference : Id × Pid) : Execution :=
  if setting.depth = .expandPartial ∧ reference.2 ∉ setting.expandPids then
    state
  else if reference.1 ∈ state.nestedResultsAdded then
    state
  else
    { state with
      nestedResultsAdded := reference.1 :: state.nestedResultsAdded
      nestedResultPending := reference.1 :: state.nestedResultPending }

/-- A fact is added to the nested results. -/
def Execution.found (state : Execution) (fact : Fact) : Execution :=
  { state with nestedResults := state.nestedResults ++ [fact] }

/-- The traversal of a predicate calls the function for the references. -/
def VisitsFact (pid : Pid) (clause : Clause) (references : List (Id × Pid)) : Prop :=
  ∃ predicate, setting.inventory.lookupPredicate pid = some predicate
    ∧ Traverses setting.varint setting.u8 predicate.keyTy predicate.valTy clause
        (.ok ⟨[], 0, references⟩)

/-- The traversal of the query, if it has one, is used for results. -/
def VisitsResult (pid : Pid) (clause : Clause) (references : List (Id × Pid)) : Prop :=
  match setting.traverse with
  | some (keyTy, valTy) =>
      Traverses setting.varint setting.u8 keyTy valTy clause (.ok ⟨[], 0, references⟩)
  | none => VisitsFact setting pid clause references

/-- The loop of `resultWithPid`: the last pending fact is looked up, its references are visited,
and it is a nested result.
-/
inductive Drains : Execution → Execution → Prop where
  | empty {state : Execution} (isEmpty : state.nestedResultPending = []) : Drains state state
  | missing {state last : Execution} {id : Id} {rest : List Id}
      (isPending : state.nestedResultPending = id :: rest)
      (isMissing : setting.facts.factById id = none)
      (drains : Drains { state with nestedResultPending := rest } last)
      : Drains state last
  | fact {state visited last : Execution} {id : Id} {rest : List Id} {pid : Pid} {clause : Clause}
      {references : List (Id × Pid)} (isPending : state.nestedResultPending = id :: rest)
      (isFact : setting.facts.factById id = some (pid, clause))
      (visits : VisitsFact setting pid clause references)
      (isVisited
        : visited
          = references.foldl (nestedFact setting) { state with nestedResultPending := rest })
      (drains : Drains (visited.found ⟨id, pid, clause⟩) last)
      : Drains state last

/-- Whether a result is expanded. -/
def Expands (call : Call) : Prop := call.isRec = true ∨ setting.depth ≠ .resultsOnly

def Execution.record (state : Execution) (call : Call) : Execution :=
  { state with
    results := state.results ++ [⟨call.id, call.pid, ⟨call.key.getD [], call.val.getD []⟩⟩] }

/-- `resultWithPid` -/
def ResultWithPid (call : Call) (state last : Execution) : Prop :=
  (¬ Expands setting call ∧ last = state.record call)
    ∨ (Expands setting call
        ∧ ∃ references, VisitsResult setting call.pid call.clause references
            ∧ Drains setting (references.foldl (nestedFact setting) (state.record call)) last)

/-- Results are recorded one after the other. -/
inductive Runs : List Call → Execution → Execution → Prop where
  | nil {state : Execution} : Runs [] state state
  | cons {call : Call} {calls : List Call} {state after last : Execution}
      (first : ResultWithPid setting call state after) (others : Runs calls after last)
      : Runs (call :: calls) state last

/-- The references of a clause are those of its key and value. -/
def HasReferences (varint : Varint) (keyTy valTy : Ty) (clause : Clause)
    (references : List (Id × Pid)) : Prop :=
  ∃ key value, OfType (fun _ _ => True) keyTy.repType key
    ∧ OfType (fun _ _ => True) valTy.repType value
    ∧ clause = Traverse.clauseOf varint key value
    ∧ references = Traverse.callsOf keyTy valTy key value

def FactReferences (pid : Pid) (clause : Clause) (references : List (Id × Pid)) : Prop :=
  ∃ predicate, setting.inventory.lookupPredicate pid = some predicate
    ∧ HasReferences setting.varint predicate.keyTy predicate.valTy clause references

def ResultReferences (call : Call) (references : List (Id × Pid)) : Prop :=
  match setting.traverse with
  | some (keyTy, valTy) => HasReferences setting.varint keyTy valTy call.clause references
  | none => FactReferences setting call.pid call.clause references

/-- A reference to a fact of the predicate is followed. -/
def Selects (pid : Pid) : Prop := setting.depth = .expandPartial → pid ∈ setting.expandPids

/-- One or more selected references lead from an expanded result to an id, over facts of the
database.
-/
inductive Reachable (calls : List Call) : Id → Prop where
  | result {call : Call} {references : List (Id × Pid)} {id : Id} {pid : Pid}
      (member : call ∈ calls) (expands : Expands setting call)
      (has : ResultReferences setting call references) (isReference : (id, pid) ∈ references)
      (selects : Selects setting pid)
      : Reachable calls id
  | fact {source id : Id} {type pid : Pid} {clause : Clause} {references : List (Id × Pid)}
      (reachable : Reachable calls source)
      (isFact : setting.facts.factById source = some (type, clause))
      (has : FactReferences setting type clause references) (isReference : (id, pid) ∈ references)
      (selects : Selects setting pid)
      : Reachable calls id

/-- The database is finite, and its facts and the results that are expanded are typed. -/
structure Typed (calls : List Call) : Prop where
  short : setting.varint.Short
  finite : {id | (setting.facts.factById id).isSome}.Finite
  facts
    : ∀ {id pid clause}, setting.facts.factById id = some (pid, clause) →
        ∃ references, FactReferences setting pid clause references
  results
    : ∀ call ∈ calls, Expands setting call → ∃ references, ResultReferences setting call references

variable {setting} {calls : List Call} {state last : Execution} {id : Id} {pid : Pid}
variable {clause : Clause} {references : List (Id × Pid)}

theorem HasReferences.visits_iff {varint : Varint} (short : varint.Short) {u8 : U8Next}
    {keyTy valTy : Ty} {visited : List (Id × Pid)}
    (has : HasReferences varint keyTy valTy clause references)
    : Traverses varint u8 keyTy valTy clause (.ok ⟨[], 0, visited⟩) ↔ visited = references := by
  obtain ⟨key, value, isKey, isValue, rfl, rfl⟩ := has
  rw [traverses_clauseOf short isKey isValue]
  constructor
  · intro same
    cases same
    rfl
  · rintro rfl
    rfl

theorem FactReferences.visitsFact_iff (short : setting.varint.Short)
    {visited : List (Id × Pid)} (has : FactReferences setting pid clause references)
    : VisitsFact setting pid clause visited ↔ visited = references := by
  obtain ⟨predicate, known, hasReferences⟩ := has
  constructor
  · intro ⟨other, isOther, traverses⟩
    obtain rfl := Option.some.inj (known.symm.trans isOther)
    exact (hasReferences.visits_iff short).mp traverses
  · intro same
    exact ⟨predicate, known, (hasReferences.visits_iff short).mpr same⟩

theorem ResultReferences.visitsResult_iff (short : setting.varint.Short) {call : Call}
    {visited : List (Id × Pid)} (has : ResultReferences setting call references)
    : VisitsResult setting call.pid call.clause visited ↔ visited = references := by
  unfold ResultReferences at has
  unfold VisitsResult
  cases isTraverse : setting.traverse with
  | none =>
      rw [isTraverse] at has
      exact has.visitsFact_iff short
  | some types =>
      rw [isTraverse] at has
      exact has.visits_iff short

/-- The references of a clause are unique. -/
theorem FactReferences.unique (short : setting.varint.Short) {others : List (Id × Pid)}
    (has : FactReferences setting pid clause references)
    (hasOthers : FactReferences setting pid clause others)
    : references = others :=
  (hasOthers.visitsFact_iff short).mp ((has.visitsFact_iff short).mpr rfl)

theorem ResultReferences.unique (short : setting.varint.Short) {call : Call}
    {others : List (Id × Pid)} (has : ResultReferences setting call references)
    (hasOthers : ResultReferences setting call others)
    : references = others :=
  (hasOthers.visitsResult_iff short).mp ((has.visitsResult_iff short).mpr rfl)

instance : DecidablePred (Selects setting) := fun _ => inferInstanceAs (Decidable (_ → _))

/-- The ids of selected references. -/
def selected (setting : Setting) (references : List (Id × Pid)) : List Id :=
  (references.filter (fun reference => Selects setting reference.2)).map Prod.fst

theorem mem_selected : id ∈ selected setting references
      ↔ ∃ pid, (id, pid) ∈ references ∧ Selects setting pid := by
  simp [selected]

/-- The ids that a fact of the database leads to. -/
structure IsNext (setting : Setting) (next : Id → Option (List Id)) : Prop where
  missing : ∀ {id}, setting.facts.factById id = none → next id = none
  fact
    : ∀ {id pid clause}, setting.facts.factById id = some (pid, clause) →
        ∃ references, FactReferences setting pid clause references
          ∧ next id = some (selected setting references)

theorem Typed.exists_isNext (typed : Typed setting calls) : ∃ next, IsNext setting next := by
  have forId
      : ∀ id, ∃ targets : Option (List Id),
          (setting.facts.factById id = none → targets = none)
            ∧ ∀ pid clause, setting.facts.factById id = some (pid, clause) →
                ∃ references, FactReferences setting pid clause references
                  ∧ targets = some (selected setting references) := by
    intro id
    cases isFact : setting.facts.factById id with
    | none => exact ⟨none, fun _ => rfl, nofun⟩
    | some fact =>
        obtain ⟨references, has⟩ := typed.facts isFact
        refine ⟨some (selected setting references), nofun, fun pid clause same => ?_⟩
        cases same
        exact ⟨references, has, rfl⟩
  choose next isMissing isFact using forId
  exact ⟨next, fun missing => isMissing _ missing, fun found => isFact _ _ _ found⟩

/-- The work that is left and done. -/
def Execution.work (state : Execution) : Worklist.Work Id :=
  ⟨state.nestedResultsAdded, state.nestedResultPending, state.nestedResults.map Fact.id⟩

theorem work_nestedFact (setting : Setting) (state : Execution) (reference : Id × Pid)
    : (nestedFact setting state reference).work
      = Worklist.enqueueAll state.work (selected setting [reference]) := by
  by_cases selects : Selects setting reference.2
  · have isSelected : selected setting [reference] = [reference.1] := by
      simp [selected, selects]
    have notSkipped
        : ¬ (setting.depth = .expandPartial ∧ reference.2 ∉ setting.expandPids) :=
      fun ⟨isPartial, isNot⟩ => isNot (selects isPartial)
    rw [isSelected, nestedFact, if_neg notSkipped]
    change _ = Worklist.enqueue state.work reference.1
    by_cases known : reference.1 ∈ state.nestedResultsAdded
    · rw [if_pos known, Worklist.enqueue_of_mem known]
    · rw [if_neg known, Worklist.enqueue_of_notMem known]
      rfl
  · have isSelected : selected setting [reference] = [] := by
      simp [selected, selects]
    rw [isSelected, nestedFact, if_pos (Classical.not_imp.mp selects)]
    rfl

theorem work_foldl_nestedFact (setting : Setting) (state : Execution) (references : List (Id × Pid))
    : (references.foldl (nestedFact setting) state).work
      = Worklist.enqueueAll state.work (selected setting references) := by
  induction references generalizing state with
  | nil => rfl
  | cons reference references ih =>
      have split : selected setting (reference :: references)
          = selected setting [reference] ++ selected setting references := by
        rw [selected, selected, selected, ← List.map_append, ← List.filter_append]
        rfl
      rw [List.foldl_cons, ih, work_nestedFact, split, Worklist.enqueueAll, Worklist.enqueueAll,
        Worklist.enqueueAll, List.foldl_append]

theorem nestedResults_foldl (setting : Setting) (state : Execution) (references : List (Id × Pid))
    : (references.foldl (nestedFact setting) state).nestedResults = state.nestedResults := by
  induction references generalizing state with
  | nil => rfl
  | cons reference references ih =>
      rw [List.foldl_cons, ih, nestedFact]
      split
      · rfl
      · split <;> rfl

section Next

variable {next : Id → Option (List Id)} {rest : List Id}

theorem work_missing (isNext : IsNext setting next) (isMissing : setting.facts.factById id = none)
    : Worklist.visit next state.work id rest
      = Execution.work { state with nestedResultPending := rest } :=
  Worklist.visit_none (isNext.missing isMissing)

theorem work_found (isTargets : next id = some (selected setting references))
    : Worklist.visit next state.work id rest
      = ((references.foldl (nestedFact setting) { state with nestedResultPending := rest }).found
          ⟨id, pid, clause⟩).work := by
  have isWork := work_foldl_nestedFact setting
    { state with nestedResultPending := rest } references
  have isFound := nestedResults_foldl setting
    { state with nestedResultPending := rest } references
  rw [Worklist.visit_some isTargets]
  change { Worklist.enqueueAll (Execution.work { state with nestedResultPending := rest })
    (selected setting references) with found := state.work.found ++ [id] } = _
  rw [← isWork]
  simp [Execution.work, Execution.found, isFound]

/-- The loop visits the ids that are pending. -/
theorem Drains.work (short : setting.varint.Short) (isNext : IsNext setting next)
    (drains : Drains setting state last)
    : Worklist.Drains next state.work last.work := by
  induction drains with
  | empty isEmpty => exact .empty isEmpty
  | missing isPending isMissing _ ih =>
      rw [← work_missing isNext isMissing] at ih
      exact .visit isPending ih
  | fact isPending isFact visits isVisited _ ih =>
      obtain ⟨others, has, isTargets⟩ := isNext.fact isFact
      obtain rfl := (has.visitsFact_iff short).mp visits
      subst isVisited
      rw [← work_found isTargets] at ih
      exact .visit isPending ih

/-- The loop ends when the exploration does. -/
theorem exists_drains {work done : Worklist.Work Id} (short : setting.varint.Short)
    (isNext : IsNext setting next) (drains : Worklist.Drains next work done)
    (isWork : state.work = work)
    : ∃ last, Drains setting state last := by
  induction drains generalizing state with
  | empty isEmpty =>
      subst isWork
      exact ⟨state, .empty isEmpty⟩
  | @visit work done id rest isPending _ ih =>
      subst isWork
      cases isFact : setting.facts.factById id with
      | none =>
          obtain ⟨last, drains⟩ := ih (work_missing isNext isFact).symm
          exact ⟨last, .missing isPending isFact drains⟩
      | some fact =>
          obtain ⟨references, has, isTargets⟩ := isNext.fact isFact
          obtain ⟨last, drains⟩ := ih (work_found isTargets).symm
          exact ⟨last, .fact isPending isFact ((has.visitsFact_iff short).mpr rfl) rfl drains⟩

end Next

/-- Nested results are facts of the database. -/
def Execution.Stored (setting : Setting) (state : Execution) : Prop :=
  ∀ fact ∈ state.nestedResults,
    setting.facts.factById fact.id = some (fact.type, fact.clause)

theorem Drains.stored (drains : Drains setting state last) (stored : state.Stored setting)
    : last.Stored setting := by
  induction drains with
  | empty => exact stored
  | missing _ _ _ ih => exact ih stored
  | fact _ isFact _ isVisited _ ih =>
      apply ih
      intro fact member
      rw [isVisited, Execution.found, nestedResults_foldl] at member
      rcases List.mem_append.mp member with old | new
      · exact stored fact old
      · obtain rfl := List.mem_singleton.mp new
        exact isFact

/-- The ids that an expanded result leads to. -/
def Root (setting : Setting) (calls : List Call) (id : Id) : Prop :=
  ∃ call ∈ calls, Expands setting call
    ∧ ∃ references, ResultReferences setting call references ∧ id ∈ selected setting references

/-- All facts that are reached from the results so far are nested results. -/
structure Collected (setting : Setting) (next : Id → Option (List Id)) (calls : List Call)
    (state : Execution) : Prop where
  explores : Worklist.Explores next (Root setting calls) [] state.work
  isEmpty : state.nestedResultPending = []
  roots : ∀ id, Root setting calls id → id ∈ state.nestedResultsAdded
  stored : state.Stored setting

theorem collected_start (setting : Setting) (next : Id → Option (List Id))
    : Collected setting next [] .start where
  explores := Worklist.explores_empty next _
  isEmpty := rfl
  roots := fun _ ⟨_, member, _⟩ => nomatch member
  stored := nofun

theorem Root.append {call : Call} (root : Root setting calls id)
    : Root setting (calls ++ [call]) id := by
  obtain ⟨other, member, found⟩ := root
  exact ⟨other, List.mem_append_left _ member, found⟩

theorem root_append_cases {call : Call} (root : Root setting (calls ++ [call]) id)
    : Root setting calls id
      ∨ Expands setting call ∧ ∃ references, ResultReferences setting call references
          ∧ id ∈ selected setting references := by
  obtain ⟨other, member, found⟩ := root
  rcases List.mem_append.mp member with old | new
  · exact .inl ⟨other, old, found⟩
  · obtain rfl := List.mem_singleton.mp new
    exact .inr found

section Run

variable {next : Id → Option (List Id)} {call : Call} {after : Execution}

/-- The exploration after a result was recorded. -/
theorem Collected.expand (collected : Collected setting next calls state)
    (expands : Expands setting call) (has : ResultReferences setting call references)
    : Worklist.Explores next (Root setting (calls ++ [call])) []
        (references.foldl (nestedFact setting) (state.record call)).work := by
  rw [work_foldl_nestedFact]
  refine (collected.explores.mono (fun _ => Root.append)).enqueueAll (fun id member => .root ?_)
  exact ⟨call, List.mem_append_right _ (List.mem_singleton.mpr rfl), expands, references, has,
    member⟩

/-- One result keeps the invariant. -/
theorem Collected.resultWithPid (collected : Collected setting next calls state)
    (short : setting.varint.Short) (isNext : IsNext setting next)
    (typed
      : Expands setting call → ∃ references, ResultReferences setting call references)
    (result : ResultWithPid setting call state after)
    : Collected setting next (calls ++ [call]) after := by
  rcases result with ⟨notExpands, rfl⟩ | ⟨expands, references, visits, drains⟩
  · refine
      { explores := collected.explores.mono (fun _ => Root.append)
        isEmpty := collected.isEmpty
        roots := fun id root => ?_
        stored := collected.stored }
    rcases root_append_cases root with old | ⟨expands, -⟩
    · exact collected.roots id old
    · exact absurd expands notExpands
  · obtain ⟨others, has⟩ := typed expands
    obtain rfl := (has.visitsResult_iff short).mp visits
    have explores := drains.work short isNext
    have isMarked (id : Id) (root : Root setting (calls ++ [call]) id)
        : id ∈ (references.foldl (nestedFact setting) (state.record call)).work.marked := by
      rw [work_foldl_nestedFact, Worklist.mem_marked_enqueueAll]
      rcases root_append_cases root with old | ⟨-, others, hasOthers, member⟩
      · exact .inr (collected.roots id old)
      · obtain rfl := has.unique short hasOthers
        exact .inl member
    exact
      { explores := explores.explores (collected.expand expands has)
        isEmpty := explores.pending
        roots := fun id root => explores.mem_marked (isMarked id root)
        stored := drains.stored (by
          intro fact member
          rw [nestedResults_foldl] at member
          exact collected.stored fact member) }

theorem Collected.runs {others : List Call} (collected : Collected setting next calls state)
    (short : setting.varint.Short) (isNext : IsNext setting next)
    (typed
      : ∀ call ∈ others, Expands setting call →
          ∃ references, ResultReferences setting call references)
    (runs : Runs setting others state last)
    : Collected setting next (calls ++ others) last := by
  induction runs generalizing calls with
  | nil =>
      rw [List.append_nil]
      exact collected
  | cons first _ ih =>
      have recorded := collected.resultWithPid short isNext (typed _ List.mem_cons_self) first
      have all := ih recorded (fun call member => typed call (List.mem_cons_of_mem _ member))
      rw [List.append_assoc] at all
      exact all

/-- Each result is recorded and expanded in finitely many steps. -/
theorem exists_resultWithPid (typed : Typed setting calls) (member : call ∈ calls)
    (isNext : IsNext setting next) (state : Execution)
    : ∃ after, ResultWithPid setting call state after := by
  by_cases expands : Expands setting call
  · obtain ⟨references, has⟩ := typed.results call member expands
    let keys := typed.finite.toFinset.biUnion (fun id => ((next id).getD []).toFinset)
    have inKeys
        : ∀ id targets, next id = some targets → ∀ target ∈ targets, target ∈ keys := by
      intro id targets isTargets target isTarget
      refine Finset.mem_biUnion.mpr ⟨id, typed.finite.mem_toFinset.mpr ?_, ?_⟩
      · by_contra absent
        rw [isNext.missing (Option.not_isSome_iff_eq_none.mp absent)] at isTargets
        cases isTargets
      · rw [isTargets]
        exact List.mem_toFinset.mpr isTarget
    obtain ⟨done, drains⟩ := Worklist.exists_drains keys inKeys
      (references.foldl (nestedFact setting) (state.record call)).work
    obtain ⟨after, drainsTo⟩ := exists_drains typed.short isNext drains rfl
    exact ⟨after, .inr ⟨expands, references, (has.visitsResult_iff typed.short).mpr rfl, drainsTo⟩⟩
  · exact ⟨state.record call, .inl ⟨expands, rfl⟩⟩

theorem exists_runs (typed : Typed setting calls) (isNext : IsNext setting next)
    {others : List Call} (subset : ∀ call ∈ others, call ∈ calls) (state : Execution)
    : ∃ last, Runs setting others state last := by
  induction others generalizing state with
  | nil => exact ⟨state, .nil⟩
  | cons call others ih =>
      obtain ⟨after, first⟩ :=
        exists_resultWithPid typed (subset call List.mem_cons_self) isNext state
      obtain ⟨last, rest⟩ :=
        ih (fun other member => subset other (List.mem_cons_of_mem _ member)) after
      exact ⟨last, .cons first rest⟩

/-- What is explored is what references lead to. -/
theorem reached_iff_reachable (short : setting.varint.Short) (isNext : IsNext setting next)
    : Worklist.Reached next (Root setting calls) id ↔ Reachable setting calls id := by
  constructor
  · intro reached
    induction reached with
    | root isRoot =>
        obtain ⟨call, member, expands, references, has, isSelected⟩ := isRoot
        obtain ⟨pid, isReference, selects⟩ := mem_selected.mp isSelected
        exact .result member expands has isReference selects
    | @step key target targets _ isTargets member ih =>
        cases isFact : setting.facts.factById key with
        | none =>
            rw [isNext.missing isFact] at isTargets
            cases isTargets
        | some fact =>
            obtain ⟨references, has, isSelected⟩ := isNext.fact isFact
            obtain rfl := Option.some.inj (isTargets.symm.trans isSelected)
            obtain ⟨pid, isReference, selects⟩ := mem_selected.mp member
            exact .fact ih isFact has isReference selects
  · intro reachable
    induction reachable with
    | result member expands has isReference selects =>
        exact .root ⟨_, member, expands, _, has, mem_selected.mpr ⟨_, isReference, selects⟩⟩
    | fact _ isFact has isReference selects ih =>
        obtain ⟨others, hasOthers, isTargets⟩ := isNext.fact isFact
        obtain rfl := has.unique short hasOthers
        exact .step ih isTargets (mem_selected.mpr ⟨_, isReference, selects⟩)

end Run

/-- The execution ends, and the nested results are the facts of the database that selected
references lead to from the expanded results, each of them once.
-/
theorem nestedResults_complete (typed : Typed setting calls)
    : (∃ last, Runs setting calls .start last)
      ∧ ∀ last, Runs setting calls .start last →
          (last.nestedResults.map Fact.id).Nodup
            ∧ ∀ fact, fact ∈ last.nestedResults
                ↔ setting.facts.factById fact.id = some (fact.type, fact.clause)
                  ∧ Reachable setting calls fact.id := by
  obtain ⟨next, isNext⟩ := typed.exists_isNext
  refine ⟨exists_runs typed isNext (fun _ => id) .start, fun last runs => ?_⟩
  have collected : Collected setting next calls last :=
    (collected_start setting next).runs typed.short isNext typed.results runs
  refine ⟨collected.explores.foundNodup, fun fact => ?_⟩
  have isFound
      : fact.id ∈ last.nestedResults.map Fact.id
        ↔ Reachable setting calls fact.id ∧ (next fact.id).isSome := by
    rw [← reached_iff_reachable typed.short isNext]
    exact collected.explores.mem_found_iff collected.isEmpty collected.roots
  constructor
  · intro member
    exact ⟨collected.stored fact member, (isFound.mp (List.mem_map_of_mem member)).1⟩
  · intro ⟨isFact, reachable⟩
    obtain ⟨references, -, isTargets⟩ := isNext.fact isFact
    obtain ⟨other, member, sameId⟩ := List.mem_map.mp (isFound.mpr ⟨reachable, isTargets ▸ rfl⟩)
    have isOther := collected.stored other member
    rw [sameId, isFact] at isOther
    obtain ⟨sameType, sameClause⟩ := Prod.mk.inj (Option.some.inj isOther)
    have same : other = fact := by
      cases other
      cases fact
      cases sameId
      cases sameType
      cases sameClause
      rfl
    exact same ▸ member

theorem selfReferring_bounded : 1024 + 1 ≤ Pid.limit := by
  decide

theorem selfReferring_pid : (1024 : Pid) ≠ Pid.invalid := by
  decide

/-- A predicate whose facts refer to facts of their own predicate. -/
def selfReferring : Inventory where
  firstId := 1024
  preds := [some ⟨"self", 1, .predicate 1024, .record []⟩]
  bounded := selfReferring_bounded
  valid := by
    intro index _ _ isInvalid
    exact selfReferring_pid (Nat.eq_zero_of_add_eq_zero_right isInvalid)
  refers := by
    intro predicate member
    obtain rfl := Option.some.inj (List.mem_singleton.mp member)
    exact ⟨selfReferring_pid, trivial⟩

/-- The key of a fact that refers to itself. -/
def loopClause : Clause := Traverse.clauseOf .folly (.ref 1024) (.tuple [])

/-- A database with one fact, which refers to itself. -/
def loopSetting : Setting where
  varint := .folly
  u8 := .icu
  inventory := selfReferring
  facts :=
    { EmptyLookup with factById := fun id => if id = 1024 then some (1024, loopClause) else none }
  traverse := none
  depth := .expandPartial
  expandPids := [1024]

theorem loopClause_references
    : FactReferences loopSetting 1024 loopClause
        (Traverse.callsOf (.predicate 1024) (.record []) (.ref 1024) (.tuple [])) :=
  ⟨_, rfl, .ref 1024, .tuple [], .ref (by decide) trivial, .tuple .nil, rfl, rfl⟩

theorem loopSetting_typed
    : Typed loopSetting [⟨1024, some loopClause.key, some loopClause.value, 1024, false⟩] where
  short := Varint.short_folly
  finite := by
    refine (Set.finite_singleton 1024).subset (fun id isFact => ?_)
    by_contra other
    simp [loopSetting, show id ≠ 1024 from other] at isFact
  facts := by
    intro id pid clause isFact
    by_cases isLoop : id = 1024
    · simp only [loopSetting, if_pos isLoop, Option.some.injEq, Prod.mk.injEq] at isFact
      obtain ⟨rfl, rfl⟩ := isFact
      exact ⟨_, loopClause_references⟩
    · simp [loopSetting, isLoop] at isFact
  results := by
    intro call member _
    obtain rfl := List.mem_singleton.mp member
    exact ⟨_, loopClause_references⟩

/-- A result that refers to itself is a nested result as well. -/
theorem nestedResults_complete_loop
    : ∃ last, Runs loopSetting
          [⟨1024, some loopClause.key, some loopClause.value, 1024, false⟩] .start last
        ∧ ⟨1024, 1024, loopClause⟩ ∈ last.nestedResults := by
  obtain ⟨⟨last, runs⟩, complete⟩ := nestedResults_complete loopSetting_typed
  refine ⟨last, runs, ((complete last runs).2 _).mpr ⟨rfl, ?_⟩⟩
  exact .result List.mem_cons_self (.inr (by decide)) loopClause_references
    (List.mem_cons_self (a := (1024, 1024))) (by decide)

end Glean.RTS.Query
