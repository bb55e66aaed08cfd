import Mathlib.Data.List.Basic
import Mathlib.Algebra.GroupWithZero.Nat

/-! A pool of threads as a list in which one step changes one element: what members are lost,
and sums of a weight over the pool.
-/

namespace Glean.Threads

variable {Thread : Type*} {threads : List Thread} {index : Nat} {old new thread : Thread}

/-- Setting one element loses that element only. -/
theorem mem_set_or (new : Thread) (at_index : threads[index]? = some old)
    (member : thread ∈ threads)
    : thread ∈ threads.set index new ∨ thread = old := by
  obtain ⟨position, at_position⟩ := List.mem_iff_getElem?.mp member
  by_cases same : index = position
  · right
    rw [← same, at_index] at at_position
    exact (Option.some.inj at_position).symm
  · left
    refine List.mem_iff_getElem?.mpr ⟨position, ?_⟩
    rw [List.getElem?_set_ne same, at_position]

/-- What holds of all elements and of the new one holds of all elements afterwards. -/
theorem forall_set {holds : Thread → Prop} (all : ∀ thread ∈ threads, holds thread)
    (isNew : holds new)
    : ∀ thread ∈ threads.set index new, holds thread := by
  intro thread member
  rcases List.mem_or_eq_of_mem_set member with kept | rfl
  · exact all thread kept
  · exact isNew

/-- What is in a pool after setting one element does not depend on the other elements it might be set
to.
-/
theorem eq_or_mem_set (other : Thread) (member : thread ∈ threads.set index new)
    : thread = new ∨ thread ∈ threads.set index other := by
  obtain ⟨position, at_position⟩ := List.mem_iff_getElem?.mp member
  by_cases same : index = position
  · left
    subst same
    rw [List.getElem?_set_self'] at at_position
    obtain ⟨_, _, isNew⟩ := Option.map_eq_some_iff.mp at_position
    exact isNew.symm
  · right
    rw [List.getElem?_set_ne same] at at_position
    refine List.mem_iff_getElem?.mpr ⟨position, ?_⟩
    rw [List.getElem?_set_ne same, at_position]

/-- The sum of a weight over a pool. -/
def total (weight : Thread → Nat) (threads : List Thread) : Nat :=
  (threads.map weight).sum

theorem total_append (weight : Thread → Nat) (threads : List Thread) (thread : Thread)
    : total weight (threads ++ [thread]) = total weight threads + weight thread := by
  simp [total]

theorem total_set (weight : Thread → Nat) (at_index : threads[index]? = some old) (new : Thread)
    : total weight (threads.set index new) + weight old = total weight threads + weight new := by
  induction threads generalizing index with
  | nil => simp at at_index
  | cons head tail ih =>
      cases index with
      | zero =>
          obtain rfl : head = old := by simpa using at_index
          simp only [total, List.set_cons_zero, List.map_cons, List.sum_cons]
          omega
      | succ position =>
          have rest := ih (by simpa using at_index)
          simp only [total, List.set_cons_succ, List.map_cons, List.sum_cons] at rest ⊢
          omega

theorem weight_le_total (weight : Thread → Nat) (member : thread ∈ threads)
    : weight thread ≤ total weight threads := by
  induction threads with
  | nil => cases member
  | cons head tail ih =>
      simp only [total, List.map_cons, List.sum_cons] at ih ⊢
      rcases List.mem_cons.mp member with rfl | later
      · omega
      · have rest := ih later
        omega

theorem total_le_add {weight left right : Thread → Nat}
    (le : ∀ thread, weight thread ≤ left thread + right thread) (threads : List Thread)
    : total weight threads ≤ total left threads + total right threads := by
  induction threads with
  | nil => simp [total]
  | cons head tail ih =>
      have first := le head
      simp only [total, List.map_cons, List.sum_cons] at ih ⊢
      omega

theorem total_eq_zero {weight : Thread → Nat} (none : ∀ thread ∈ threads, weight thread = 0)
    : total weight threads = 0 := by
  rw [total, List.sum_eq_zero_iff_forall_eq_nat]
  simpa using none

theorem total_map {weight : Thread → Nat} {update : Thread → Thread}
    (same : ∀ thread, weight (update thread) = weight thread) (threads : List Thread)
    : total weight (threads.map update) = total weight threads := by
  rw [total, List.map_map]
  exact congrArg List.sum (List.map_congr_left (fun thread _ => same thread))

end Glean.Threads
