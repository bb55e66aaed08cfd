import Glean.Library.Postorder
import Glean.Schema.Negation
import Glean.Schema.QueryParts

/-! A predicate is derived when the stored predicates that its derivation depends on are complete
(`Query/Derive.hs`, `checkConstraints`).
-/

namespace Glean.Schema

open Relation (TransGen ReflTransGen)

-- The check

section Check

variable (completePreds : List PredicateRef) (preds : AssocMap PredicateRef PredicateDetails)

def getPredicateDetails (pred : PredicateRef) : Except String PredicateDetails :=
  match preds.lookup pred with
  | some details => .ok details
  | none => .error ("unknown predicate: " ++ showPredicateRef pred)

def isCompletePred (pred : PredicateRef) : Except String Bool := do
  let details ← getPredicateDetails preds pred
  match details.deriving_ with
  | .noDeriving => return true
  | .derive .deriveIfEmpty _ => return false
  | .derive .deriveOnDemand _ => return true
  | .derive .derivedAndStored _ => return pred ∈ completePreds

def isDerivedAndStored (pred : PredicateRef) : Except String Bool := do
  let details ← getPredicateDetails preds pred
  match details.deriving_ with
  | .derive .derivedAndStored _ => return true
  | _ => return false

def predicateDeps (pred : PredicateRef) : Except String (List PredicateRef) := do
  let details ← getPredicateDetails preds pred
  match details.deriving_ with
  | .derive _ query => return tcQueryDeps query
  | .noDeriving => return []

/-- `go` of `transitive` -/
def transitiveFrom
    : Nat → List PredicateRef → Finset PredicateRef → Option (Except String (Finset PredicateRef))
  | 0, _, _ => none
  | _ + 1, [], visited => some (.ok visited)
  | fuel + 1, x :: xs, visited =>
      if x ∈ visited then
        transitiveFrom fuel xs visited
      else
        match predicateDeps preds x with
        | .error message => some (.error message)
        | .ok next =>
            match transitiveFrom fuel next (insert x visited) with
            | some (.ok visited) => transitiveFrom fuel xs visited
            | other => other

/-- `transitive (predicateDeps schema)` -/
def transitive (fuel : Nat) (root : PredicateRef)
    : Option (Except String (Finset PredicateRef)) :=
  match predicateDeps preds root with
  | .error message => some (.error message)
  | .ok next => transitiveFrom preds fuel next ∅

/-- The dependencies that are not complete -/
def incompleteOf (dependencies : Finset PredicateRef) : Finset PredicateRef :=
  dependencies.filter fun dep => isCompletePred completePreds preds dep ≠ .ok true

inductive ConstraintError where
  | notAStoredPredicate
  | incompleteDependencies (preds : Finset PredicateRef)
  | error (message : String)

def checkConstraints (disableChecks : Bool) (fuel : Nat) (pred : PredicateRef)
    : Option (Except ConstraintError Unit) :=
  match isDerivedAndStored preds pred with
  | .error message => some (.error (.error message))
  | .ok false => some (.error .notAStoredPredicate)
  | .ok true =>
      if disableChecks then
        some (.ok ())
      else
        match transitive preds fuel pred with
        | none => none
        | some (.error message) => some (.error (.error message))
        | some (.ok dependencies) =>
            let incomplete := incompleteOf completePreds preds dependencies
            if incomplete = ∅ then
              some (.ok ())
            else
              some (.error (.incompleteDependencies incomplete))

end Check

-- What the check is for

section Constraints

variable (completePreds : List PredicateRef) (preds : AssocMap PredicateRef PredicateDetails)

/-- The derivation of one predicate generates facts of another one. -/
def Reads (pred dep : PredicateRef) : Prop :=
  ∃ query, Derives preds pred query ∧ query.Generates dep

/-- The derivation of one predicate mentions another one outside of heads. -/
def DependsOn (pred dep : PredicateRef) : Prop :=
  ∃ query, Derives preds pred query ∧ query.MentionsOutside dep

/-- The predicate is derived and stored. -/
def Stored (pred : PredicateRef) : Prop :=
  ∃ details query, preds.lookup pred = some details
    ∧ details.deriving_ = .derive .derivedAndStored query

/-- The check comes to an end and the predicate is not derived. -/
def Refuses (pred : PredicateRef) : Prop :=
  ∃ error bound, ∀ fuel ≥ bound,
    checkConstraints completePreds preds false fuel pred = some (.error error)

def Accepts (pred : PredicateRef) : Prop :=
  ∃ bound, ∀ fuel ≥ bound, checkConstraints completePreds preds false fuel pred = some (.ok ())

/-- There are completed predicates with which the predicate is derived: it is stored, and what is
mentioned outside of heads, at the end of any chain, is known and not derived when it is empty.
-/
structure Derivable (pred : PredicateRef) : Prop where
  stored : Stored preds pred
  deps
    : ∀ dep, TransGen (DependsOn preds) pred dep →
        ∃ details, preds.lookup dep = some details
          ∧ ∀ query, details.deriving_ ≠ .derive .deriveIfEmpty query

end Constraints

variable {completePreds : List PredicateRef} {preds : AssocMap PredicateRef PredicateDetails}
variable {pred dep : PredicateRef}

-- Dependencies

theorem getPredicateDetails_of_lookup {details : PredicateDetails}
    (found : preds.lookup pred = some details)
    : getPredicateDetails preds pred = .ok details := by
  rw [getPredicateDetails, found]

theorem getPredicateDetails_of_none (absent : preds.lookup pred = none)
    : getPredicateDetails preds pred = .error ("unknown predicate: " ++ showPredicateRef pred) := by
  rw [getPredicateDetails, absent]

theorem predicateDeps_of_none (absent : preds.lookup pred = none)
    : predicateDeps preds pred = .error ("unknown predicate: " ++ showPredicateRef pred) := by
  rw [predicateDeps, getPredicateDetails_of_none absent]
  rfl

/-- The dependencies of a predicate that is known -/
theorem exists_predicateDeps {details : PredicateDetails} (found : preds.lookup pred = some details)
    : ∃ deps, predicateDeps preds pred = .ok deps
        ∧ ∀ dep, dep ∈ deps ↔ DependsOn preds pred dep := by
  rw [predicateDeps, getPredicateDetails_of_lookup found]
  cases isDeriving : details.deriving_ with
  | noDeriving =>
      refine ⟨[], by simp [bind, Except.bind, isDeriving, pure, Except.pure], fun dep => ?_⟩
      simp only [List.not_mem_nil, false_iff]
      rintro ⟨query, ⟨other, when, isOther, derives⟩, -⟩
      obtain rfl := Option.some.inj (found.symm.trans isOther)
      rw [isDeriving] at derives
      cases derives
  | derive when query =>
      refine ⟨tcQueryDeps query, by simp [bind, Except.bind, isDeriving, pure, Except.pure],
        fun dep => ?_⟩
      have derives : Derives preds pred query := ⟨details, when, found, isDeriving⟩
      rw [mem_tcQueryDeps_iff]
      constructor
      · exact fun mentions => ⟨query, derives, mentions⟩
      · rintro ⟨other, derivesOther, mentions⟩
        exact derives.unique derivesOther ▸ mentions

/-- The predicates that are visited after a predicate -/
def children (preds : AssocMap PredicateRef PredicateDetails) (pred : PredicateRef)
    : List (PredicateRef × Unit) :=
  match predicateDeps preds pred with
  | .ok deps => deps.map fun dep => (dep, ())
  | .error _ => []

theorem edge_children_iff
    : Postorder.Edge (children preds) pred dep ↔ DependsOn preds pred dep := by
  cases found : preds.lookup pred with
  | none =>
      rw [Postorder.Edge, children, predicateDeps_of_none found]
      constructor
      · rintro ⟨_, member⟩
        cases member
      · rintro ⟨query, ⟨details, when, isDetails, -⟩, -⟩
        rw [found] at isDetails
        cases isDetails
  | some details =>
      obtain ⟨deps, isDeps, mem_deps⟩ := exists_predicateDeps found
      rw [Postorder.Edge, children, isDeps, ← mem_deps]
      simp

-- The search

def Known (preds : AssocMap PredicateRef PredicateDetails) (pred : PredicateRef) : Prop :=
  ∃ details, preds.lookup pred = some details

/-- The loop comes to an end: it has visited what is put out, or some of it is not known. -/
def Ends (preds : AssocMap PredicateRef PredicateDetails) (nodes out : List (PredicateRef × Unit))
    (seen last : Finset PredicateRef) : Prop :=
  ((∀ node ∈ out, Known preds node.1)
    ∧ ∃ bound, ∀ fuel ≥ bound,
        transitiveFrom preds fuel (nodes.map Prod.fst) seen = some (.ok last))
  ∨ ((∃ node ∈ out, ¬ Known preds node.1)
    ∧ ∃ message bound, ∀ fuel ≥ bound,
        transitiveFrom preds fuel (nodes.map Prod.fst) seen = some (.error message))

section Ends

variable {nodes others out outOthers : List (PredicateRef × Unit)}
variable {seen after last : Finset PredicateRef}

/-- The loop ends when it goes on as another one that ends. -/
theorem Ends.goesOn (ends : Ends preds others outOthers after last)
    (known : (∀ node ∈ outOthers, Known preds node.1) → ∀ node ∈ out, Known preds node.1)
    (subset : ∀ node ∈ outOthers, node ∈ out)
    (goes
      : ∃ bound, ∀ fuel ≥ bound,
          transitiveFrom preds (fuel + 1) (nodes.map Prod.fst) seen
            = transitiveFrom preds fuel (others.map Prod.fst) after)
    : Ends preds nodes out seen last := by
  obtain ⟨boundFirst, goes⟩ := goes
  have goesFrom (bound fuel : Nat) (enough : fuel ≥ bound + boundFirst + 1)
      : ∃ less ≥ bound,
          transitiveFrom preds fuel (nodes.map Prod.fst) seen
            = transitiveFrom preds less (others.map Prod.fst) after := by
    cases fuel with
    | zero => exact absurd enough (Nat.not_succ_le_zero _)
    | succ fuel => exact ⟨fuel, by omega, goes fuel (by omega)⟩
  rcases ends with ⟨allKnown, bound, runs⟩ | ⟨⟨node, member, unknown⟩, message, bound, runs⟩
  · refine .inl ⟨known allKnown, bound + boundFirst + 1, fun fuel enough => ?_⟩
    obtain ⟨less, enoughLess, same⟩ := goesFrom bound fuel enough
    exact same.trans (runs less enoughLess)
  · refine .inr ⟨⟨node, subset node member, unknown⟩, message, bound + boundFirst + 1,
      fun fuel enough => ?_⟩
    obtain ⟨less, enoughLess, same⟩ := goesFrom bound fuel enough
    exact same.trans (runs less enoughLess)

/-- A traversal is done by the loop when all predicates are known. Otherwise there is an error. -/
theorem ends_of_visits (visits : Postorder.Visits (children preds) seen nodes out last)
    : Ends preds nodes out seen last := by
  induction visits with
  | nil =>
      refine .inl ⟨fun node member => absurd member List.not_mem_nil, 1, fun fuel enough => ?_⟩
      cases fuel with
      | zero => exact absurd enough (Nat.not_succ_le_zero 0)
      | succ fuel => rfl
  | skip isSeen _ ih =>
      refine ih.goesOn id (fun _ => id) ⟨0, fun fuel _ => ?_⟩
      rw [List.map_cons, transitiveFrom, if_pos isSeen]
  | @visit seen after last key label nodes inner out isNew _ _ ihBelow ihOthers =>
      have isOut : (key, label) ∈ inner ++ (key, label) :: out :=
        List.mem_append_right _ List.mem_cons_self
      cases found : preds.lookup key with
      | none =>
          refine .inr ⟨⟨(key, label), isOut, ?_⟩, "unknown predicate: " ++ showPredicateRef key, 1,
            fun fuel enough => ?_⟩
          · rintro ⟨details, isDetails⟩
            rw [found] at isDetails
            cases isDetails
          · cases fuel with
            | zero => exact absurd enough (Nat.not_succ_le_zero 0)
            | succ fuel =>
                rw [List.map_cons, transitiveFrom, if_neg isNew, predicateDeps_of_none found]
      | some details =>
          obtain ⟨deps, isDeps, -⟩ := exists_predicateDeps found
          have isChildren : (children preds key).map Prod.fst = deps := by
            rw [children, isDeps, List.map_map]
            exact List.map_id deps
          have visitsFirst (fuel : Nat)
              : transitiveFrom preds (fuel + 1) (((key, label) :: nodes).map Prod.fst) seen
                = match transitiveFrom preds fuel deps (insert key seen) with
                  | some (.ok visited) => transitiveFrom preds fuel (nodes.map Prod.fst) visited
                  | other => other := by
            rw [List.map_cons, transitiveFrom, if_neg isNew, isDeps]
          rw [Ends, isChildren] at ihBelow
          rcases ihBelow with
            ⟨knownBelow, bound, runs⟩ | ⟨⟨node, isInner, unknown⟩, message, bound, runs⟩
          · refine ihOthers.goesOn (fun known node member => ?_)
              (fun node member => List.mem_append_right _ (List.mem_cons_of_mem _ member))
              ⟨bound, fun fuel enough => by rw [visitsFirst, runs fuel enough]⟩
            rcases List.mem_append.mp member with isInner | outer
            · exact knownBelow node isInner
            · rcases List.mem_cons.mp outer with rfl | later
              · exact ⟨details, found⟩
              · exact known node later
          · refine .inr ⟨⟨node, List.mem_append_left _ isInner, unknown⟩, message, bound + 1,
              fun fuel enough => ?_⟩
            cases fuel with
            | zero => exact absurd enough (Nat.not_succ_le_zero _)
            | succ fuel => rw [visitsFirst, runs fuel (Nat.le_of_succ_le_succ enough)]

end Ends

-- What is accepted

theorem edge_children (preds : AssocMap PredicateRef PredicateDetails)
    : Postorder.Edge (children preds) = DependsOn preds := by
  funext source target
  exact propext edge_children_iff

theorem exists_visits (preds : AssocMap PredicateRef PredicateDetails) (pred : PredicateRef)
    : ∃ out last, Postorder.Visits (children preds) ∅ (children preds pred) out last := by
  let keys := (preds.keys.flatMap fun key => (children preds key).map Prod.fst).toFinset
  have closed : ∀ key, ∀ child ∈ children preds key, child.1 ∈ keys := by
    intro key child member
    refine List.mem_toFinset.mpr (List.mem_flatMap.mpr ⟨key, ?_, List.mem_map_of_mem member⟩)
    refine AssocMap.mem_keys_iff.mpr ?_
    cases found : preds.lookup key with
    | some details => exact ⟨details, rfl⟩
    | none =>
        rw [children, predicateDeps_of_none found] at member
        cases member
  exact Postorder.exists_visits keys closed ∅ _ (closed pred)

/-- The search finds what the predicate depends on over any number of derivations. -/
theorem transitive_ends {details : PredicateDetails} (found : preds.lookup pred = some details)
    : ∃ last : Finset PredicateRef,
        (∀ dep, dep ∈ last ↔ TransGen (DependsOn preds) pred dep)
          ∧ ((∀ dep ∈ last, Known preds dep)
                ∧ (∃ bound, ∀ fuel ≥ bound, transitive preds fuel pred = some (.ok last))
              ∨ (∃ dep ∈ last, ¬ Known preds dep)
                ∧ ∃ message bound, ∀ fuel ≥ bound,
                    transitive preds fuel pred = some (.error message)) := by
  obtain ⟨deps, isDeps, -⟩ := exists_predicateDeps found
  have isChildren : (children preds pred).map Prod.fst = deps := by
    rw [children, isDeps, List.map_map]
    exact List.map_id deps
  obtain ⟨out, last, visits⟩ := exists_visits preds pred
  have isOut (dep : PredicateRef) : dep ∈ last ↔ ∃ node ∈ out, node.1 = dep := by
    rw [visits.mem_last_iff, List.mem_map]
    exact or_iff_right (Finset.notMem_empty _)
  have starts (fuel : Nat)
      : transitive preds fuel pred = transitiveFrom preds fuel deps ∅ := by
    rw [transitive, isDeps]
  refine ⟨last, fun dep => ?_, ?_⟩
  · rw [visits.mem_last_iff_reaches, edge_children, TransGen.head'_iff]
    constructor
    · rintro ⟨node, isChild, leads⟩
      exact ⟨node.1, edge_children_iff.mp ⟨node.2, isChild⟩, leads⟩
    · rintro ⟨first, dependsOn, leads⟩
      obtain ⟨label, isChild⟩ := edge_children_iff.mpr dependsOn
      exact ⟨_, isChild, leads⟩
  · have ends := ends_of_visits visits
    rw [Ends, isChildren] at ends
    refine ends.imp (fun ⟨known, bound, runs⟩ => ⟨fun dep member => ?_, bound, ?_⟩)
      (fun ⟨⟨node, member, unknown⟩, message, bound, runs⟩ =>
        ⟨⟨node.1, (isOut _).mpr ⟨node, member, rfl⟩, unknown⟩, message, bound, ?_⟩)
    · obtain ⟨node, inOut, rfl⟩ := (isOut dep).mp member
      exact known node inOut
    · exact fun fuel enough => (starts fuel).trans (runs fuel enough)
    · exact fun fuel enough => (starts fuel).trans (runs fuel enough)

/-- The predicate is stored and all that it depends on is complete. -/
structure Passes (completePreds : List PredicateRef)
    (preds : AssocMap PredicateRef PredicateDetails) (pred : PredicateRef) : Prop where
  stored : Stored preds pred
  complete
    : ∀ dep, TransGen (DependsOn preds) pred dep →
        isCompletePred completePreds preds dep = .ok true

theorem known_of_isCompletePred (complete : isCompletePred completePreds preds dep = .ok true)
    : Known preds dep := by
  cases found : preds.lookup dep with
  | some details => exact ⟨details, found⟩
  | none =>
      rw [isCompletePred, getPredicateDetails_of_none found] at complete
      cases complete

theorem isDerivedAndStored_iff
    : isDerivedAndStored preds pred = .ok true ↔ Stored preds pred := by
  rw [isDerivedAndStored]
  cases found : preds.lookup pred with
  | none =>
      rw [getPredicateDetails_of_none found]
      constructor
      · intro isStored
        cases isStored
      · rintro ⟨details, query, isDetails, -⟩
        rw [found] at isDetails
        cases isDetails
  | some details =>
      rw [getPredicateDetails_of_lookup found]
      simp only [bind, Except.bind]
      constructor
      · intro isStored
        split at isStored
        next query isDeriving => exact ⟨details, query, found, isDeriving⟩
        next => cases isStored
      · rintro ⟨other, query, isDetails, isDeriving⟩
        obtain rfl := Option.some.inj (found.symm.trans isDetails)
        rw [isDeriving]
        rfl

/-- The check always comes to an end. -/
theorem accepts_or_refuses (completePreds : List PredicateRef)
    (preds : AssocMap PredicateRef PredicateDetails) (pred : PredicateRef)
    : Passes completePreds preds pred ∧ Accepts completePreds preds pred
      ∨ ¬ Passes completePreds preds pred ∧ Refuses completePreds preds pred := by
  cases isStored : isDerivedAndStored preds pred with
  | error message =>
      refine .inr ⟨fun passes => ?_, .error message, 0, fun fuel _ => ?_⟩
      · rw [isDerivedAndStored_iff.mpr passes.stored] at isStored
        cases isStored
      · rw [checkConstraints, isStored]
  | ok stored =>
      cases stored with
      | false =>
          refine .inr ⟨fun passes => ?_, .notAStoredPredicate, 0, fun fuel _ => ?_⟩
          · rw [isDerivedAndStored_iff.mpr passes.stored] at isStored
            cases isStored
          · rw [checkConstraints, isStored]
      | true =>
          have isThere := isDerivedAndStored_iff.mp isStored
          obtain ⟨details, query, found, -⟩ := id isThere
          obtain ⟨last, mem_last, ends⟩ := transitive_ends found
          rcases ends with ⟨-, bound, runs⟩ | ⟨⟨dep, member, unknown⟩, message, bound, runs⟩
          · by_cases complete : ∀ dep ∈ last, isCompletePred completePreds preds dep = .ok true
            · refine .inl ⟨⟨isThere, fun dep leads => complete dep ((mem_last dep).mpr leads)⟩,
                bound, fun fuel enough => ?_⟩
              have isEmpty : incompleteOf completePreds preds last = ∅ :=
                Finset.filter_eq_empty_iff.mpr fun dep member => not_not.mpr (complete dep member)
              rw [checkConstraints, isStored]
              simp only [Bool.false_eq_true, if_false, runs fuel enough, isEmpty, if_true]
            · refine .inr ⟨fun passes => complete fun dep member =>
                passes.complete dep ((mem_last dep).mp member),
                .incompleteDependencies (incompleteOf completePreds preds last), bound,
                fun fuel enough => ?_⟩
              have notEmpty : incompleteOf completePreds preds last ≠ ∅ :=
                fun isEmpty => complete fun dep member =>
                  not_not.mp (Finset.filter_eq_empty_iff.mp isEmpty member)
              rw [checkConstraints, isStored]
              simp only [Bool.false_eq_true, if_false, runs fuel enough, if_neg notEmpty]
          · refine .inr ⟨fun passes => ?_, .error message, bound, fun fuel enough => ?_⟩
            · exact unknown (known_of_isCompletePred (passes.complete dep ((mem_last dep).mp member)))
            · rw [checkConstraints, isStored]
              simp only [Bool.false_eq_true, if_false, runs fuel enough]

theorem not_accepts_and_refuses (accepts : Accepts completePreds preds pred)
    (refuses : Refuses completePreds preds pred)
    : False := by
  obtain ⟨bound, accepted⟩ := accepts
  obtain ⟨error, other, refused⟩ := refuses
  have both := (accepted (bound + other) (Nat.le_add_right ..)).symm.trans
    (refused (bound + other) (Nat.le_add_left ..))
  cases both

theorem refuses_iff : Refuses completePreds preds pred ↔ ¬ Passes completePreds preds pred := by
  rcases accepts_or_refuses completePreds preds pred with ⟨passes, accepts⟩ | ⟨not, refuses⟩
  · exact ⟨fun refuses => (not_accepts_and_refuses accepts refuses).elim,
      fun not => absurd passes not⟩
  · exact ⟨fun _ => not, fun _ => refuses⟩

-- When incomplete predicates are noticed

theorem isCompletePred_of_stored (stored : Stored preds dep)
    : isCompletePred completePreds preds dep = .ok (decide (dep ∈ completePreds)) := by
  obtain ⟨details, query, found, isDeriving⟩ := stored
  rw [isCompletePred, getPredicateDetails_of_lookup found]
  simp only [bind, Except.bind, isDeriving]
  rfl

/-- With all stored predicates but one complete, the other ones are not refused. -/
theorem isCompletePred_of_ne {details : PredicateDetails} {missing : PredicateRef}
    (found : preds.lookup dep = some details)
    (notIfEmpty : ∀ query, details.deriving_ ≠ .derive .deriveIfEmpty query)
    (other : dep ≠ missing)
    : isCompletePred (preds.keys.filter (· ≠ missing)) preds dep = .ok true := by
  have isKey : dep ∈ preds.keys.filter (· ≠ missing) :=
    List.mem_filter.mpr ⟨AssocMap.mem_keys_iff.mpr ⟨details, found⟩, decide_eq_true other⟩
  rw [isCompletePred, getPredicateDetails_of_lookup found]
  simp only [bind, Except.bind]
  cases isDeriving : details.deriving_ with
  | noDeriving => rfl
  | derive when query =>
      cases when with
      | deriveOnDemand => rfl
      | derivedAndStored => exact congrArg Except.ok (decide_eq_true isKey)
      | deriveIfEmpty => exact absurd isDeriving (notIfEmpty query)

theorem Passes.derivable (passes : Passes completePreds preds pred) : Derivable preds pred where
  stored := passes.stored
  deps := by
    intro dep leads
    have complete := passes.complete dep leads
    obtain ⟨details, found⟩ := known_of_isCompletePred complete
    refine ⟨details, found, fun query isDeriving => ?_⟩
    rw [isCompletePred, getPredicateDetails_of_lookup found] at complete
    simp only [bind, Except.bind, isDeriving] at complete
    cases complete

/-- The dependencies of a query are complete when what is generated in heads is also mentioned
elsewhere. A predicate is refused for each incomplete one that it reads when those that it reads
through heads are also reached without them.
-/
theorem dependencies_complete_iff (query : TcQuery)
    (preds : AssocMap PredicateRef PredicateDetails) (pred : PredicateRef)
    : ((∀ dep, query.Generates dep → dep ∈ tcQueryDeps query)
        ↔ ∀ dep, query.GeneratesInHead dep → query.MentionsOutside dep)
      ∧ ((∀ completePreds dep, TransGen (Reads preds) pred dep → Stored preds dep →
            dep ∉ completePreds → Refuses completePreds preds pred)
          ↔ (Derivable preds pred →
              ∀ dep, TransGen (Reads preds) pred dep → Stored preds dep →
                TransGen (DependsOn preds) pred dep)) := by
  refine ⟨tcQueryDeps_complete_iff query, ⟨?_, ?_⟩⟩
  · intro refuses derivable dep reads stored
    by_contra notDepends
    have passes : Passes (preds.keys.filter (· ≠ dep)) preds pred := by
      refine ⟨derivable.stored, fun other leads => ?_⟩
      obtain ⟨details, found, notIfEmpty⟩ := derivable.deps other leads
      exact isCompletePred_of_ne found notIfEmpty (fun same => notDepends (same ▸ leads))
    have isMissing : dep ∉ preds.keys.filter (· ≠ dep) := by
      simp
    exact refuses_iff.mp (refuses _ dep reads stored isMissing) passes
  · intro covered completePreds dep reads stored isMissing
    refine refuses_iff.mpr fun passes => isMissing ?_
    have complete := passes.complete dep (covered passes.derivable dep reads stored)
    rw [isCompletePred_of_stored stored] at complete
    exact of_decide_eq_true (Except.ok.inj complete)

namespace DependencyInHead

open NegationInHead

/-- `predicate A : string stored "a"` and `predicate B : string stored (X where A X)` -/
def table : AssocMap PredicateRef PredicateDetails :=
  (AssocMap.empty.insert text.ref
      ⟨text.pid, text.ref, .string, .record [],
        .derive .derivedAndStored (.mk .string (.string [97]) none []), true⟩).insert derived.ref
    ⟨derived.pid, derived.ref, .string, .record [],
      .derive .derivedAndStored (parenthesised every), true⟩

end DependencyInHead

/-- The derivation reads `A`, which is not among its dependencies, and goes on without it. -/
theorem checkConstraints_dependencyInHead
    : (NegationInHead.parenthesised NegationInHead.every).Generates NegationInHead.text.ref
        ∧ NegationInHead.text.ref ∉ tcQueryDeps (NegationInHead.parenthesised NegationInHead.every)
        ∧ TransGen (Reads DependencyInHead.table) NegationInHead.derived.ref NegationInHead.text.ref
        ∧ Stored DependencyInHead.table NegationInHead.text.ref
        ∧ Accepts [] DependencyInHead.table NegationInHead.derived.ref := by
  have generates
      : (NegationInHead.parenthesised NegationInHead.every).Generates NegationInHead.text.ref :=
    ⟨true, by simp [NegationInHead.parenthesised, NegationInHead.every, NegationInHead.generates,
      TcQuery.parts, TcQuery.partsIn, TcStatement.partsIn, statementsParts, TcPat.partsIn,
      Match.partsIn, TcTerm.partsIn, optionalParts]⟩
  refine ⟨generates, ?_, .single ⟨_, ⟨_, _, rfl, rfl⟩, generates⟩, ⟨_, _, rfl, rfl⟩, 2, ?_⟩
  · exact List.not_mem_nil
  · intro fuel enough
    cases fuel with
    | zero => exact absurd enough (Nat.not_succ_le_zero _)
    | succ fuel => rfl

end Glean.Schema
