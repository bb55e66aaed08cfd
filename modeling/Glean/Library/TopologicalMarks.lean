import Mathlib.Data.Finset.Card
import Mathlib.Data.Finset.Filter
import Mathlib.Data.List.Nodup
import Mathlib.Data.List.Sort
import Mathlib.Logic.Relation

/-! Marking the vertices of a graph that reach a seed. Each vertex is marked when it is a seed or
has an edge to a marked one, and unmarked otherwise. When the graph has no cycles through different
marked vertices, visiting it once from the end of a topological order marks all of them.
-/

namespace TopologicalMarks

variable {K : Type} [DecidableEq K]

/-- Vertices with whether they are seeds and where their edges go. -/
abbrev Graph (K : Type) := List (Bool × K × List K)

def mark (marked : Finset K) (vertex : Bool × K × List K) : Finset K :=
  if vertex.1 || vertex.2.2.any (· ∈ marked) then
    insert vertex.2.1 marked
  else
    marked.erase vertex.2.1

def edges (graph : Graph K) : List (K × List K) := graph.map Prod.snd

/-- An edge between vertices. -/
def Edge (edges : List (K × List K)) (source target : K) : Prop :=
  ∃ targets, (source, targets) ∈ edges ∧ target ∈ targets ∧ target ∈ edges.map Prod.fst

def Reaches (edges : List (K × List K)) : K → K → Prop := Relation.ReflTransGen (Edge edges)

/-- All vertices once, and a vertex comes before those that it reaches and that do not reach it. -/
structure IsTopologicalOrder (edges : List (K × List K)) (order : List K) : Prop where
  complete : ∀ key, key ∈ order ↔ key ∈ edges.map Prod.fst
  nodup : order.Nodup
  ordered
    : ∀ source target, source ∈ edges.map Prod.fst → Reaches edges source target →
        ¬ Reaches edges target source → [source, target].Sublist order

variable {marked : Finset K} {vertex : Bool × K × List K} {key : K} {graph : Graph K}

theorem mem_mark_self
    : vertex.2.1 ∈ mark marked vertex ↔ vertex.1 = true ∨ ∃ target ∈ vertex.2.2, target ∈ marked := by
  unfold mark
  split
  next marks =>
    simp only [Bool.or_eq_true, List.any_eq_true, decide_eq_true_eq] at marks
    exact ⟨fun _ => marks, fun _ => Finset.mem_insert_self _ _⟩
  next unmarks =>
    simp only [Bool.or_eq_true, List.any_eq_true, decide_eq_true_eq] at unmarks
    exact ⟨fun member => absurd member (Finset.notMem_erase _ _), fun marks => absurd marks unmarks⟩

theorem mem_mark_of_ne (different : key ≠ vertex.2.1) : key ∈ mark marked vertex ↔ key ∈ marked := by
  unfold mark
  split
  next => exact Finset.mem_insert.trans ⟨fun either => either.resolve_left different, .inr⟩
  next => exact Finset.mem_erase.trans ⟨And.right, fun member => ⟨different, member⟩⟩

/-- What is not visited keeps its mark. -/
theorem mem_foldl_mark_of_notMem (unvisited : key ∉ graph.map (·.2.1))
    : key ∈ graph.foldl mark marked ↔ key ∈ marked := by
  induction graph generalizing marked with
  | nil => rfl
  | cons vertex graph ih =>
      rw [List.map_cons, List.mem_cons, not_or] at unvisited
      rw [List.foldl_cons, ih unvisited.2, mem_mark_of_ne unvisited.1]

section Visits

variable (nodup : (graph.map (·.2.1)).Nodup)

include nodup

/-- A vertex has the mark that it got when it was visited. -/
theorem mem_foldl_mark {before after : Graph K} (isGraph : graph = before ++ vertex :: after)
    : vertex.2.1 ∈ graph.foldl mark marked
      ↔ vertex.1 = true ∨ ∃ target ∈ vertex.2.2, target ∈ before.foldl mark marked := by
  subst isGraph
  rw [List.map_append, List.map_cons, List.nodup_append, List.nodup_cons] at nodup
  rw [List.foldl_append, List.foldl_cons, mem_foldl_mark_of_notMem nodup.2.1.1, mem_mark_self]

theorem mem_foldl_mark_of_seed (member : vertex ∈ graph) (isSeed : vertex.1 = true)
    : vertex.2.1 ∈ graph.foldl mark marked := by
  obtain ⟨before, after, isGraph⟩ := List.append_of_mem member
  exact (mem_foldl_mark nodup isGraph).mpr (.inl isSeed)

/-- A vertex is marked when one that comes before it, and that it has an edge to, is. -/
theorem mem_foldl_mark_of_target {target : Bool × K × List K}
    (ordered : [target, vertex].Sublist graph)
    (isTarget : target.2.1 ∈ vertex.2.2) (isMarked : target.2.1 ∈ graph.foldl mark marked)
    : vertex.2.1 ∈ graph.foldl mark marked := by
  obtain ⟨early, late, isGraph, inEarly, inLate⟩ := List.cons_sublist_iff.mp ordered
  obtain ⟨middle, after, rfl⟩ := List.append_of_mem (List.singleton_sublist.mp inLate)
  have isGraph' : graph = (early ++ middle) ++ vertex :: after := by
    rw [isGraph, List.append_assoc]
  refine (mem_foldl_mark nodup isGraph').mpr (.inr ⟨_, isTarget, ?_⟩)
  rw [isGraph', List.map_append, List.nodup_append] at nodup
  rw [isGraph', List.foldl_append, mem_foldl_mark_of_notMem] at isMarked
  · exact isMarked
  · intro later
    have earlier : target.2.1 ∈ (early ++ middle).map (·.2.1) :=
      List.mem_map_of_mem (List.mem_append_left _ inEarly)
    exact nodup.2.2 _ earlier _ later rfl

end Visits

section Order

open Classical in
/-- The vertices that a vertex reaches. -/
noncomputable def reached (edges : List (K × List K)) (key : K) : Finset K :=
  (edges.map Prod.fst).toFinset.filter (Reaches edges key)

/-- The vertices that reach the most come first. -/
noncomputable def topologicalOrder (edges : List (K × List K)) : List K :=
  (edges.map Prod.fst).insertionSort fun left right =>
    (reached edges right).card ≤ (reached edges left).card

variable {edges : List (K × List K)}

theorem mem_reached {key other : K}
    : other ∈ reached edges key ↔ other ∈ edges.map Prod.fst ∧ Reaches edges key other := by
  classical
  change other ∈ (edges.map Prod.fst).toFinset.filter _ ↔ _
  rw [Finset.mem_filter, List.mem_toFinset]

theorem card_reached_lt {source target : K} (isVertex : source ∈ edges.map Prod.fst)
    (forth : Reaches edges source target) (back : ¬ Reaches edges target source)
    : (reached edges target).card < (reached edges source).card := by
  refine Finset.card_lt_card (Finset.ssubset_iff_of_subset ?_ |>.mpr ⟨source, ?_, ?_⟩)
  · intro key member
    obtain ⟨isKey, further⟩ := mem_reached.mp member
    exact mem_reached.mpr ⟨isKey, forth.trans further⟩
  · exact mem_reached.mpr ⟨isVertex, .refl⟩
  · exact fun member => back (mem_reached.mp member).2

theorem mem_topologicalOrder {key : K}
    : key ∈ topologicalOrder edges ↔ key ∈ edges.map Prod.fst :=
  List.mem_insertionSort _

theorem isTopologicalOrder_topologicalOrder (nodup : (edges.map Prod.fst).Nodup)
    : IsTopologicalOrder edges (topologicalOrder edges) where
  complete := fun _ => mem_topologicalOrder
  nodup := (List.perm_insertionSort _ _).nodup_iff.mpr nodup
  ordered := by
    intro source target isVertex forth back
    have fewer := card_reached_lt isVertex forth back
    have isTarget : target ∈ edges.map Prod.fst := by
      rcases forth.cases_tail with rfl | ⟨_, -, _, -, -, isTarget⟩
      · exact isVertex
      · exact isTarget
    obtain ⟨before, after, isOrder⟩ := List.append_of_mem (mem_topologicalOrder.mpr isVertex)
    have member := mem_topologicalOrder.mpr isTarget
    have sorted
        : (topologicalOrder edges).Pairwise fun left right =>
            (reached edges right).card ≤ (reached edges left).card :=
      List.pairwise_insertionSort _ _
    rw [isOrder] at member sorted ⊢
    rcases List.mem_append.mp member with earlier | later
    · have noFewer := (List.pairwise_append.mp sorted).2.2 target earlier source List.mem_cons_self
      omega
    · rcases List.mem_cons.mp later with rfl | later
      · omega
      · exact List.sublist_append_of_sublist_right
          (List.cons_sublist_cons.mpr (List.singleton_sublist.mpr later))

end Order

end TopologicalMarks
