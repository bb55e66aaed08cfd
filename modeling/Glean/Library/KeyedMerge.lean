import Mathlib.Order.Basic
import Mathlib.Order.Lattice
import Mathlib.Data.List.Basic
import Mathlib.Tactic.Common

/-! Merging of lists in ascending order of a key, where items with the same key are combined. -/

namespace KeyedMerge

variable {Item K : Type} [LinearOrder K]

/-- The items of both lists, with those that have the same key combined. -/
def merge (key : Item → K) (both : Item → Item → Item) : List Item → List Item → List Item
  | [], rs => rs
  | ls, [] => ls
  | l :: ls, r :: rs =>
      if key l < key r then l :: merge key both ls (r :: rs)
      else if key r < key l then r :: merge key both (l :: ls) rs
      else both l r :: merge key both ls rs
  termination_by ls rs => ls.length + rs.length

variable {key : Item → K} {both : Item → Item → Item}

@[simp]
theorem merge_nil_left (rs : List Item) : merge key both [] rs = rs := by
  rw [merge]

@[simp]
theorem merge_nil_right (ls : List Item) : merge key both ls [] = ls := by
  cases ls with
  | nil => rw [merge]
  | cons l ls =>
      rw [merge]
      exact List.cons_ne_nil l ls

/-- Several items before the other list are passed at once. -/
theorem merge_append_left {passed ls rs : List Item}
    (before : ∀ l ∈ passed, ∀ r ∈ rs.head?, key l < key r)
    : merge key both (passed ++ ls) rs = passed ++ merge key both ls rs := by
  induction passed with
  | nil => rfl
  | cons l passed ih =>
      rw [List.forall_mem_cons] at before
      cases rs with
      | nil => simp
      | cons r rs =>
          have less : key l < key r := before.1 r rfl
          rw [List.cons_append, merge, if_pos less, ih before.2, List.cons_append]

theorem merge_append_right {ls passed rs : List Item}
    (before : ∀ r ∈ passed, ∀ l ∈ ls.head?, key r < key l)
    : merge key both ls (passed ++ rs) = passed ++ merge key both ls rs := by
  induction passed with
  | nil => rfl
  | cons r passed ih =>
      rw [List.forall_mem_cons] at before
      cases ls with
      | nil => simp
      | cons l ls =>
          have less : key r < key l := before.1 l rfl
          rw [List.cons_append, merge, if_neg (lt_asymm less), if_pos less, ih before.2,
            List.cons_append]

/-- A property that items of both lists have, and combined items if their parts do. -/
theorem forall_mem_merge {P : Item → Prop} {ls rs : List Item} (left : ∀ l ∈ ls, P l)
    (right : ∀ r ∈ rs, P r) (combined : ∀ l r, P l → P r → key l = key r → P (both l r))
    : ∀ item ∈ merge key both ls rs, P item := by
  induction ls, rs using merge.induct key with
  | case1 rs => simpa using right
  | case2 ls _ => simpa using left
  | case3 l ls r rs less ih =>
      rw [List.forall_mem_cons] at left
      rw [merge, if_pos less, List.forall_mem_cons]
      exact ⟨left.1, ih left.2 right⟩
  | case4 l ls r rs notLess less ih =>
      rw [List.forall_mem_cons] at right
      rw [merge, if_neg notLess, if_pos less, List.forall_mem_cons]
      exact ⟨right.1, ih left right.2⟩
  | case5 l ls r rs notLess notGreater ih =>
      rw [List.forall_mem_cons] at left right
      have same : key l = key r := le_antisymm (not_lt.mp notGreater) (not_lt.mp notLess)
      rw [merge, if_neg notLess, if_neg notGreater, List.forall_mem_cons]
      exact ⟨combined l r left.1 right.1 same, ih left.2 right.2⟩

/-- A property that combined items have exactly if one of their parts does. -/
theorem exists_mem_merge {P : Item → Prop} {ls rs : List Item}
    (combined : ∀ l r, key l = key r → (P (both l r) ↔ P l ∨ P r))
    : (∃ item ∈ merge key both ls rs, P item) ↔ (∃ l ∈ ls, P l) ∨ ∃ r ∈ rs, P r := by
  induction ls, rs using merge.induct key with
  | case1 rs => simp
  | case2 ls _ => simp
  | case3 l ls r rs less ih =>
      rw [merge, if_pos less, List.exists_mem_cons_iff, List.exists_mem_cons_iff, ih, or_assoc]
  | case4 l ls r rs notLess less ih =>
      rw [merge, if_neg notLess, if_pos less, List.exists_mem_cons_iff, ih,
        List.exists_mem_cons_iff (l := rs), or_left_comm]
  | case5 l ls r rs notLess notGreater ih =>
      have same : key l = key r := le_antisymm (not_lt.mp notGreater) (not_lt.mp notLess)
      rw [merge, if_neg notLess, if_neg notGreater, List.exists_mem_cons_iff,
        List.exists_mem_cons_iff, List.exists_mem_cons_iff, ih, combined l r same]
      exact or_or_or_comm

/-- The merged list is in ascending order too, by induction on the steps of the merge. -/
theorem pairwise_merge {ls rs : List Item}
    (combined : ∀ l r, key l = key r → key (both l r) = key l)
    (left : ls.Pairwise (fun item later => key item < key later))
    (right : rs.Pairwise (fun item later => key item < key later))
    : (merge key both ls rs).Pairwise (fun item later => key item < key later) := by
  have above {bound : K} {ls rs : List Item} (left : ∀ l ∈ ls, bound < key l)
      (right : ∀ r ∈ rs, bound < key r) : ∀ item ∈ merge key both ls rs, bound < key item :=
    forall_mem_merge left right (fun l r less _ same => (combined l r same).symm ▸ less)
  induction ls, rs using merge.induct key with
  | case1 rs => simpa using right
  | case2 ls _ => simpa using left
  | case3 l ls r rs less ih =>
      obtain ⟨leftAbove, leftRest⟩ := List.pairwise_cons.mp left
      have rightAbove := (List.pairwise_cons.mp right).1
      rw [merge, if_pos less]
      refine List.pairwise_cons.mpr ⟨above leftAbove ?_, ih leftRest right⟩
      rw [List.forall_mem_cons]
      exact ⟨less, fun item member => less.trans (rightAbove item member)⟩
  | case4 l ls r rs notLess less ih =>
      obtain ⟨rightAbove, rightRest⟩ := List.pairwise_cons.mp right
      have leftAbove := (List.pairwise_cons.mp left).1
      rw [merge, if_neg notLess, if_pos less]
      refine List.pairwise_cons.mpr ⟨above ?_ rightAbove, ih left rightRest⟩
      rw [List.forall_mem_cons]
      exact ⟨less, fun item member => less.trans (leftAbove item member)⟩
  | case5 l ls r rs notLess notGreater ih =>
      have same : key l = key r := le_antisymm (not_lt.mp notGreater) (not_lt.mp notLess)
      obtain ⟨leftAbove, leftRest⟩ := List.pairwise_cons.mp left
      obtain ⟨rightAbove, rightRest⟩ := List.pairwise_cons.mp right
      rw [merge, if_neg notLess, if_neg notGreater]
      refine List.pairwise_cons.mpr ⟨?_, ih leftRest rightRest⟩
      rw [combined l r same]
      exact above leftAbove (same ▸ rightAbove)

end KeyedMerge
