import Mathlib.Data.List.Pairwise
import Mathlib.Order.Defs.LinearOrder
import Mathlib.Tactic.Common
import Mathlib.Order.Lattice

/-! Forward-only readers of ascending lists. A reader stands before the first element, on an
element, or behind the last one; it moves by one element or to the next element that is not
below a bound, and it never moves back.
-/

/-- The element under the reader, if any, and the elements behind it. -/
structure AscendingReader (α : Type) where
  current : Option α
  rest : List α

namespace AscendingReader

variable {α : Type}

/-- The reader before the first element of a list. -/
def ofList (elements : List α) : AscendingReader α := ⟨none, elements⟩

/-- The reader behind the last element. -/
def done : AscendingReader α := ⟨none, []⟩

def valid (reader : AscendingReader α) : Bool := reader.current.isSome

/-- Move by one element; false when there is none. -/
def next (reader : AscendingReader α) : Bool × AscendingReader α :=
  match reader.rest with
  | [] => (false, done)
  | element :: rest => (true, ⟨some element, rest⟩)

/-- The elements from the reader on. -/
def remaining (reader : AscendingReader α) : List α :=
  reader.current.toList ++ reader.rest

/-- The reader on the first of the given elements. -/
def onFirst : List α → AscendingReader α
  | [] => done
  | element :: rest => ⟨some element, rest⟩

@[simp]
theorem remaining_onFirst (elements : List α) : (onFirst elements).remaining = elements := by
  cases elements <;> rfl

@[simp]
theorem valid_onFirst (elements : List α) : (onFirst elements).valid = !elements.isEmpty := by
  cases elements <;> rfl

@[simp]
theorem next_ofList (elements : List α)
    : (ofList elements).next = ((onFirst elements).valid, onFirst elements) := by
  cases elements <;> rfl

section Order

variable [LinearOrder α]

/-- Move to the first element from the reader on that is not below a bound; false when there
is none.
-/
def skipTo (reader : AscendingReader α) (bound : α) : Bool × AscendingReader α :=
  let after := onFirst (reader.remaining.dropWhile (· < bound))
  (after.valid, after)

/-- In an ascending list, the elements before the first one that is not below a bound are those
below it.
-/
theorem mem_dropWhile_lt {elements : List α} {element bound : α}
    (ascending : elements.Pairwise (· < ·))
    : element ∈ elements.dropWhile (· < bound) ↔ element ∈ elements ∧ bound ≤ element := by
  induction elements with
  | nil => simp
  | cons first rest ih =>
      obtain ⟨least, ascending⟩ := List.pairwise_cons.mp ascending
      by_cases below : first < bound
      · rw [List.dropWhile_cons_of_pos (by simpa using below), ih ascending, List.mem_cons]
        constructor
        · exact fun ⟨member, reached⟩ => ⟨.inr member, reached⟩
        · rintro ⟨rfl | member, reached⟩
          · exact absurd below (not_lt_of_ge reached)
          · exact ⟨member, reached⟩
      · rw [List.dropWhile_cons_of_neg (by simpa using below)]
        refine ⟨fun member => ⟨member, ?_⟩, And.left⟩
        rcases List.mem_cons.mp member with rfl | later
        · exact le_of_not_gt below
        · exact le_trans (le_of_not_gt below) (le_of_lt (least _ later))

end Order

end AscendingReader
