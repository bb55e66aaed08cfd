import Glean.Library.Closure
import Glean.Query.Reorder

/-! Reordering a group keeps its statements and respects the order that is asked for. -/

namespace Glean.Schema.Reorder

variable {visible scope : VarSet} {group : FlatStatementGroup} {lookups : VarSet}

/-- The loop finds what the search for the closure finds. -/
theorem lookupVarsFrom_of_halts {state : Closure.State Nat Nat} {kept : AssocMap Nat Nat}
    (halts : Halting.Halts (Closure.step id (rhsVars scope group)) state kept) {vars : VarSet}
    (same : ∀ x, x ∈ vars ↔ (state.kept.lookup x).isSome)
    : ∃ found : VarSet, (∀ x, x ∈ found ↔ (kept.lookup x).isSome)
        ∧ ∃ bound, ∀ fuel ≥ bound,
            lookupVarsFrom scope group fuel state.todo vars = some found := by
  induction halts generalizing vars with
  | @step state after kept goes _ ih =>
      obtain ⟨todo, old⟩ := state
      cases todo with
      | nil => cases goes
      | cons x xs =>
          by_cases known : (old.lookup x).isSome
          · rw [Closure.step_known known, Option.some.injEq, Sum.inl.injEq] at goes
            subst goes
            obtain ⟨found, isFound, bound, runs⟩ := ih same
            refine ⟨found, isFound, bound + 1, fun fuel enough => ?_⟩
            cases fuel with
            | zero => exact absurd enough (Nat.not_succ_le_zero bound)
            | succ fuel =>
                rw [lookupVarsFrom, if_pos ((same x).mpr known)]
                exact runs fuel (Nat.le_of_succ_le_succ enough)
          · rw [Closure.step_new known, Option.some.injEq, Sum.inl.injEq] at goes
            subst goes
            have sameAfter
                : ∀ y, y ∈ insert x vars ↔ ((old.insert (id x) x).lookup y).isSome := by
              intro y
              rw [Finset.mem_insert, AssocMap.lookup_insert, id_eq, same]
              by_cases isFirst : y = x <;> simp [isFirst]
            obtain ⟨found, isFound, bound, runs⟩ := ih sameAfter
            refine ⟨found, isFound, bound + 1, fun fuel enough => ?_⟩
            cases fuel with
            | zero => exact absurd enough (Nat.not_succ_le_zero bound)
            | succ fuel =>
                rw [lookupVarsFrom, if_neg (fun member => known ((same x).mp member))]
                exact runs fuel (Nat.le_of_succ_le_succ enough)
  | @stop state kept stops =>
      obtain ⟨todo, old⟩ := state
      cases todo with
      | nil =>
          obtain rfl : old = kept := Sum.inr.inj (Option.some.inj stops)
          refine ⟨vars, same, 1, fun fuel enough => ?_⟩
          cases fuel with
          | zero => exact absurd enough (Nat.not_succ_le_zero 0)
          | succ fuel => rfl
      | cons x xs =>
          by_cases known : (old.lookup x).isSome
          · rw [Closure.step_known known] at stops
            cases stops
          · rw [Closure.step_new known] at stops
            cases stops

/-- The variables are found in finitely many steps. -/
theorem exists_lookupVars (scope : VarSet) (group : FlatStatementGroup)
    : ∃ found bound, ∀ fuel ≥ bound, lookupVars scope group fuel = some found := by
  let roots := (initialLookupVars scope group).sort
  let rhs := (candidates scope group).flatMap fun candidate => candidate.xs.sort
  have inRhs : ∀ x, ∀ y ∈ rhsVars scope group x, y ∈ (roots ++ rhs).toFinset := by
    intro x y member
    obtain ⟨candidate, isCandidate, isVar⟩ := List.mem_flatMap.mp member
    have isThere := (List.mem_filter.mp (List.mem_reverse.mp isCandidate)).1
    exact List.mem_toFinset.mpr
      (List.mem_append_right _ (List.mem_flatMap.mpr ⟨candidate, isThere, isVar⟩))
  have inRoots : ∀ root ∈ roots, id root ∈ (roots ++ rhs).toFinset :=
    fun root member => List.mem_toFinset.mpr (List.mem_append_left _ member)
  obtain ⟨kept, halts⟩ := Closure.exists_halts (roots ++ rhs).toFinset inRoots inRhs
  have nothing
      : ∀ x, x ∈ (∅ : VarSet) ↔ ((AssocMap.empty : AssocMap Nat Nat).lookup x).isSome := by
    simp
  obtain ⟨found, -, bound, runs⟩ := lookupVarsFrom_of_halts halts nothing
  exact ⟨found, bound, runs⟩

/-- The loop with a continuation is a depth-first traversal. -/
theorem visit_of_visits {edges : Nat → List (Nat × FlatStatement)} {seen last : VarSet}
    {nodes out : List (Nat × FlatStatement)}
    (visits : Postorder.Visits edges seen nodes out last)
    : ∃ bound, ∀ fuel ≥ bound, ∀ cont,
        visit edges fuel seen nodes cont = (cont last).map (out ++ ·) := by
  induction visits with
  | nil =>
      refine ⟨1, fun fuel enough cont => ?_⟩
      cases fuel with
      | zero => exact absurd enough (Nat.not_succ_le_zero 0)
      | succ fuel => simp [visit]
  | @skip seen last key label nodes out isKnown _ ih =>
      obtain ⟨bound, runs⟩ := ih
      refine ⟨bound + 1, fun fuel enough cont => ?_⟩
      cases fuel with
      | zero => exact absurd enough (Nat.not_succ_le_zero bound)
      | succ fuel =>
          rw [visit, if_pos isKnown]
          exact runs fuel (Nat.le_of_succ_le_succ enough) cont
  | @visit seen after last key label nodes inner out isNew _ _ ihBelow ihOthers =>
      obtain ⟨boundBelow, runsBelow⟩ := ihBelow
      obtain ⟨bound, runs⟩ := ihOthers
      refine ⟨boundBelow + bound + 1, fun fuel enough cont => ?_⟩
      cases fuel with
      | zero => exact absurd enough (Nat.not_succ_le_zero _)
      | succ fuel =>
          rw [visit, if_neg isNew, runsBelow fuel (by omega), runs fuel (by omega),
            Option.map_map, Option.map_map]
          congr 1
          funext rest
          simp

theorem map_fst_nodes (group : FlatStatementGroup)
    : (nodes group).map Prod.fst = List.range group.length :=
  List.map_fst_zip (by rw [List.length_range])

theorem map_snd_nodes (group : FlatStatementGroup) : (nodes group).map Prod.snd = group :=
  List.map_snd_zip (by rw [List.length_range])

theorem Candidate.mem_nodes {candidate : Candidate} (member : candidate ∈ candidates scope group)
    : (candidate.lookup, candidate.lookupStmt) ∈ nodes group := by
  obtain ⟨node, isNode, isLookup⟩ := List.mem_filterMap.mp member
  obtain ⟨lookup, -, rfl⟩ := Option.map_eq_some_iff.mp isLookup
  exact isNode

theorem Use.mem_nodes {use : Use} {x : Nat} (member : use ∈ usesOf scope group x)
    : (use.use, use.useStmt) ∈ nodes group := by
  have isUse := (List.mem_filter.mp (List.mem_reverse.mp member)).1
  obtain ⟨node, isNode, rfl⟩ := List.mem_map.mp isUse
  exact isNode

/-- What a statement has to follow is in the group. -/
theorem mem_nodes_of_mem_edges {n : Nat} {child : Nat × FlatStatement}
    (member : child ∈ edges visible scope group lookups n)
    : child ∈ nodes group := by
  obtain ⟨entry, isEntry, rfl⟩ := List.mem_map.mp (List.mem_reverse.mp member)
  obtain ⟨candidate, isCandidate, isEdge⟩ :=
    List.mem_flatMap.mp (List.mem_filter.mp isEntry).1
  obtain ⟨use, isUse, rfl⟩ := List.mem_map.mp isEdge
  have useNode := Use.mem_nodes (List.mem_filter.mp isUse).1
  have lookupNode := Candidate.mem_nodes isCandidate
  have cases_edge
      : (edge visible scope lookups candidate use).2 = (candidate.lookup, candidate.lookupStmt)
        ∨ (edge visible scope lookups candidate use).2 = (use.use, use.useStmt) := by
    unfold edge
    split_ifs <;> simp
  rcases cases_edge with isLookup | isUse
  · exact isLookup ▸ lookupNode
  · exact isUse ▸ useNode

/-- The group is put in order in finitely many steps. Every statement is kept, once, and where the
edges have no cycle the statements that one has to follow come before it.
-/
theorem reorderStmtGroup_perm (visible scope : VarSet) (group : FlatStatementGroup)
    : ∃ lookups order bound,
        (∀ fuel ≥ bound,
          lookupVars scope group fuel = some lookups
            ∧ reorderStmtGroup fuel visible scope group = some (order.map Prod.snd))
          ∧ order.Perm (nodes group)
          ∧ (order.map Prod.snd).Perm group
          ∧ (Postorder.Acyclic (edges visible scope group lookups) →
              ∀ before node after, order = before ++ node :: after →
                ∀ other ∈ edges visible scope group lookups node.1, other ∈ before) := by
  obtain ⟨lookups, boundLookups, runsLookups⟩ := exists_lookupVars scope group
  have inRange : ∀ node ∈ nodes group, node.1 ∈ (List.range group.length).toFinset := by
    intro node member
    rw [← map_fst_nodes]
    exact List.mem_toFinset.mpr (List.mem_map_of_mem member)
  have inEdges
      : ∀ n, ∀ child ∈ edges visible scope group lookups n,
          child.1 ∈ (List.range group.length).toFinset :=
    fun _ child member => inRange child (mem_nodes_of_mem_edges member)
  obtain ⟨order, last, visits⟩ :=
    Postorder.exists_visits (List.range group.length).toFinset inEdges ∅ (nodes group) inRange
  have distinct : ((nodes group).map Prod.fst).Nodup := by
    rw [map_fst_nodes]
    exact List.nodup_range
  have perm : order.Perm (nodes group) :=
    visits.perm distinct (fun _ _ _ member => mem_nodes_of_mem_edges member)
  obtain ⟨bound, runs⟩ := visit_of_visits visits
  refine ⟨lookups, order, boundLookups + bound, fun fuel enough => ?_, perm, ?_, ?_⟩
  · have isLookups := runsLookups fuel (by omega)
    refine ⟨isLookups, ?_⟩
    have isOrder
        : postorderDfs fuel (nodes group) (edges visible scope group lookups) = some order := by
      rw [postorderDfs, runs fuel (by omega)]
      simp
    rw [reorderStmtGroup, isLookups]
    change (postorderDfs fuel (nodes group) (edges visible scope group lookups)).bind _ = _
    rw [isOrder]
    rfl
  · exact map_snd_nodes group ▸ perm.map Prod.snd
  · intro acyclic before node after isOrder other isOther
    subst isOrder
    rcases (visits.follows acyclic).mem_before isOther with known | isBefore
    · exact absurd known (Finset.notMem_empty _)
    · obtain ⟨found, isFound, sameKey⟩ := List.mem_map.mp isBefore
      have foundNode := perm.subset (List.mem_append_left _ isFound)
      obtain rfl :=
        List.inj_on_of_nodup_map distinct foundNode (mem_nodes_of_mem_edges isOther) sameKey
      exact isFound

end Glean.Schema.Reorder
