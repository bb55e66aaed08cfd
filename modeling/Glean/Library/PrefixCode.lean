import Mathlib.Data.List.Lex
import Mathlib.Order.Lattice

/-! Codes of items by lists of symbols: no code word is a prefix of another, and code words are
ordered as the items are.
-/

namespace PrefixCode

variable {Item Symbol : Type*}

/-- No code word is a prefix of the code word of another item. -/
def PrefixFree (encode : Item → List Symbol) : Prop :=
  ∀ left right, encode left <+: encode right → left = right

theorem PrefixFree.split {encode : Item → List Symbol} (free : PrefixFree encode)
    {left right : Item} {leftRest rightRest : List Symbol}
    (same : encode left ++ leftRest = encode right ++ rightRest)
    : left = right ∧ leftRest = rightRest := by
  have isSame : left = right := by
    have leftFirst : encode left <+: encode right ++ rightRest :=
      same ▸ List.prefix_append (encode left) leftRest
    rcases List.prefix_or_prefix_of_prefix leftFirst (List.prefix_append _ _) with before | before
    · exact free left right before
    · exact (free right left before).symm
  subst isSame
  exact ⟨rfl, List.append_cancel_left same⟩

/-- The items of a sequence of code words are found again. -/
theorem PrefixFree.flatMap_injective {encode : Item → List Symbol} (free : PrefixFree encode)
    (notEmpty : ∀ item, encode item ≠ []) {left right : List Item}
    (same : left.flatMap encode = right.flatMap encode)
    : left = right := by
  induction left generalizing right with
  | nil =>
      cases right with
      | nil => rfl
      | cons item right =>
          rw [List.flatMap_nil, List.flatMap_cons] at same
          exact absurd (List.append_eq_nil_iff.mp same.symm).1 (notEmpty item)
  | cons leftItem left ih =>
      cases right with
      | nil =>
          rw [List.flatMap_nil, List.flatMap_cons] at same
          exact absurd (List.append_eq_nil_iff.mp same).1 (notEmpty leftItem)
      | cons rightItem right =>
          rw [List.flatMap_cons, List.flatMap_cons] at same
          obtain ⟨rfl, others⟩ := free.split same
          rw [ih others]

section Order

variable [LinearOrder Symbol]

/-- The first list has the lower symbol where the two first differ. -/
inductive Below : List Symbol → List Symbol → Prop where
  | here {low high : Symbol} {left right : List Symbol} (less : low < high)
      : Below (low :: left) (high :: right)
  | later {left right : List Symbol} (symbol : Symbol) (below : Below left right)
      : Below (symbol :: left) (symbol :: right)

variable {left right : List Symbol}

theorem Below.lt (below : Below left right) : left < right := by
  induction below with
  | here less => exact List.cons_lt_cons_iff.mpr (.inl less)
  | later symbol below ih => exact List.cons_lt_cons_iff.mpr (.inr ⟨rfl, ih⟩)

theorem Below.not_isPrefix (below : Below left right) : ¬ left <+: right ∧ ¬ right <+: left := by
  induction below with
  | here less =>
      rw [List.cons_prefix_cons, List.cons_prefix_cons]
      exact ⟨fun before => less.ne before.1, fun before => less.ne' before.1⟩
  | later symbol below ih =>
      rw [List.cons_prefix_cons, List.cons_prefix_cons]
      exact ⟨fun before => ih.1 before.2, fun before => ih.2 before.2⟩

/-- Lists of one length differ at a symbol. -/
theorem Below.of_lt (sameLength : left.length = right.length) (less : left < right)
    : Below left right := by
  induction left generalizing right with
  | nil =>
      obtain rfl := List.length_eq_zero_iff.mp sameLength.symm
      exact absurd less (lt_irrefl _)
  | cons leftSymbol left ih =>
      cases right with
      | nil => cases sameLength
      | cons rightSymbol right =>
          rcases List.cons_lt_cons_iff.mp less with lower | ⟨rfl, later⟩
          · exact .here lower
          · exact .later leftSymbol (ih (by simpa using sameLength) later)

/-- The code words of two items differ, and the lower item has the lower symbol there. -/
def Ordered [LinearOrder Item] (encode : Item → List Symbol) : Prop :=
  ∀ left right, left < right → Below (encode left) (encode right)

variable [LinearOrder Item] {encode : Item → List Symbol}

theorem Ordered.lt_iff (ordered : Ordered encode) {left right : Item}
    : encode left < encode right ↔ left < right := by
  constructor
  · intro less
    rcases lt_trichotomy left right with lower | rfl | higher
    · exact lower
    · exact absurd less (lt_irrefl _)
    · exact absurd less (ordered right left higher).lt.asymm
  · intro less
    exact (ordered left right less).lt

theorem Ordered.prefixFree (ordered : Ordered encode) : PrefixFree encode := by
  intro left right before
  rcases lt_trichotomy left right with lower | same | higher
  · exact absurd before (ordered left right lower).not_isPrefix.1
  · exact same
  · exact absurd before (ordered right left higher).not_isPrefix.2

end Order

end PrefixCode
