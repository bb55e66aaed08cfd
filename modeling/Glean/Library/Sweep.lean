import Mathlib.Data.Finset.Lattice.Basic
import Mathlib.Logic.Relation
import Mathlib.Order.Basic

/-! Closing sets along the edges of an acyclic graph. Every node holds a set, and each node adds
its set to its successors. Visiting the nodes in descending order once is enough when edges
lead to smaller nodes.
-/

namespace Sweep

variable {K U : Type} [LinearOrder K] [DecidableEq U]

/-- One node adds its set to its successors. -/
def visit (sets : K → Finset U) (node : K × List K) : K → Finset U :=
  fun key => if key ∈ node.2 then sets key ∪ sets node.1 else sets key

/-- The nodes add their sets in order. -/
def run (sets : K → Finset U) (nodes : List (K × List K)) : K → Finset U :=
  nodes.foldl visit sets

/-- An edge from one of the nodes. -/
def Edge (nodes : List (K × List K)) (source target : K) : Prop :=
  ∃ node ∈ nodes, node.1 = source ∧ target ∈ node.2

/-- Paths of any length along the edges. -/
def Reaches (nodes : List (K × List K)) : K → K → Prop :=
  Relation.ReflTransGen (Edge nodes)

/-- The nodes are in descending order, and their edges lead to smaller ones. -/
structure Descending (nodes : List (K × List K)) : Prop where
  order : nodes.Pairwise (fun left right => right.1 < left.1)
  edges : ∀ node ∈ nodes, ∀ target ∈ node.2, target < node.1

theorem Descending.init {nodes : List (K × List K)} {node : K × List K}
    (descending : Descending (nodes ++ [node]))
    : Descending nodes :=
  ⟨(List.pairwise_append.mp descending.order).1,
    fun other member => descending.edges other (List.mem_append_left _ member)⟩

/-- Adding the smallest node. A path that uses one of its edges ends with that edge. -/
theorem reaches_append {nodes : List (K × List K)} {node : K × List K}
    (descending : Descending (nodes ++ [node])) {source target : K}
    : Reaches (nodes ++ [node]) source target
      ↔ Reaches nodes source target ∨ target ∈ node.2 ∧ Reaches nodes source node.1 := by
  have isLast : node ∈ nodes ++ [node] := List.mem_append_right _ (List.mem_singleton_self _)
  have larger {other : K × List K} (member : other ∈ nodes) : node.1 < other.1 :=
    (List.pairwise_append.mp descending.order).2.2 other member node (List.mem_singleton_self _)
  have more {source target : K} (edge : Edge nodes source target)
      : Edge (nodes ++ [node]) source target := by
    obtain ⟨other, member, isEdge⟩ := edge
    exact ⟨other, List.mem_append_left _ member, isEdge⟩
  refine ⟨fun path => ?_, ?_⟩
  · induction path with
    | refl => exact Or.inl .refl
    | tail path edge ih =>
        obtain ⟨other, member, isSource, isTarget⟩ := edge
        rcases List.mem_append.mp member with old | new
        · rcases ih with direct | ⟨below, -⟩
          · exact Or.inl (direct.tail ⟨other, old, isSource, isTarget⟩)
          · -- the source of an old edge is larger than all successors of the node
            have small := descending.edges node isLast _ below
            have large := larger old
            rw [isSource] at large
            exact (lt_asymm small large).elim
        · obtain rfl := List.mem_singleton.mp new
          rw [← isSource] at ih
          rcases ih with direct | ⟨below, -⟩
          · exact Or.inr ⟨isTarget, direct⟩
          · exact (lt_irrefl _ (descending.edges other isLast _ below)).elim
  · rintro (path | ⟨isTarget, path⟩)
    · exact Relation.ReflTransGen.mono (fun _ _ => more) _ _ path
    · exact (Relation.ReflTransGen.mono (fun _ _ => more) _ _ path).tail
        ⟨node, isLast, rfl, isTarget⟩

/-- A descending run gives each key what is held by the keys that reach it. -/
theorem mem_run {nodes : List (K × List K)} (descending : Descending nodes)
    (sets : K → Finset U) {key : K} {element : U}
    : element ∈ run sets nodes key
      ↔ ∃ source, element ∈ sets source ∧ Reaches nodes source key := by
  induction nodes using List.reverseRecOn generalizing key with
  | nil =>
      refine ⟨fun member => ⟨key, member, .refl⟩, ?_⟩
      rintro ⟨source, member, path⟩
      rcases path.cases_tail with rfl | ⟨_, _, _, isMember, _⟩
      · exact member
      · cases isMember
  | append_singleton nodes node ih =>
      have before := @ih descending.init
      simp only [run, List.foldl_append, List.foldl_cons, List.foldl_nil, visit,
        reaches_append descending] at before ⊢
      split_ifs with isTarget
      · simp only [Finset.mem_union, before, isTarget, true_and, and_or_left, exists_or]
      · simp only [before, isTarget, false_and, or_false]

/-- Later nodes leave the sets of larger keys alone. -/
theorem run_of_larger {nodes : List (K × List K)} (descending : Descending nodes)
    (sets : K → Finset U) {key : K} (larger : ∀ node ∈ nodes, node.1 ≤ key)
    : run sets nodes key = sets key := by
  induction nodes generalizing sets with
  | nil => rfl
  | cons node nodes ih =>
      have rest : Descending nodes :=
        ⟨(List.pairwise_cons.mp descending.order).2,
          fun other member => descending.edges other (List.mem_cons_of_mem _ member)⟩
      have unvisited : key ∉ node.2 := fun isTarget =>
        absurd (descending.edges node List.mem_cons_self key isTarget)
          (not_lt.mpr (larger node List.mem_cons_self))
      rw [run, List.foldl_cons]
      refine (ih rest _ (fun other member => larger other (List.mem_cons_of_mem _ member))).trans ?_
      exact if_neg unvisited

end Sweep
