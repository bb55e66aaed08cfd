import Mathlib.Data.Set.Function
import Glean.RTS.TypedValue

/-! The references of values. Renaming values changes nothing else, and renaming them with a
function that is injective on their references does not make different values equal.
-/

namespace Glean.RTS

mutual

/-- The ids that a value refers to, from left to right. -/
def Value.refs : Value → List Id
  | .byte _ => []
  | .nat _ => []
  | .string _ => []
  | .array elements => refsAll elements
  | .tuple fields => refsAll fields
  | .alt _ value => value.refs
  | .ref id => [id]

def refsAll : List Value → List Id
  | [] => []
  | value :: values => value.refs ++ refsAll values

end

section Typed

variable {u8 : U8Next} {ref : Pid → Id → Prop}

mutual

/-- A reference of a typed value has the property that references have. -/
theorem HasType.of_mem_refs
    : (value : Value) → {rep : Rep} → HasType u8 ref rep value → ∀ id ∈ value.refs, ∃ pid, ref pid id
  | .byte _, _, _, _, member => by cases member
  | .nat _, _, _, _, member => by cases member
  | .string _, _, _, _, member => by cases member
  | .array elements, _, .array _ all, id, member => HasTypes.of_mem_refs elements all id member
  | .tuple fields, _, .tuple all, id, member => HasTypes.of_mem_refs fields all id member
  | .alt _ value, _, .alt _ _ inside, id, member => HasType.of_mem_refs value inside id member
  | .ref _, _, .ref _ isRef, _, member => by
      obtain rfl := List.mem_singleton.mp member
      exact ⟨_, isRef⟩

theorem HasTypes.of_mem_refs
    : (values : List Value) → {reps : List Rep} → HasTypes u8 ref reps values →
        ∀ id ∈ refsAll values, ∃ pid, ref pid id
  | [], _, _, _, member => by cases member
  | value :: values, _, .cons first others, id, member => by
      rcases List.mem_append.mp member with isFirst | isOther
      · exact HasType.of_mem_refs value first id isFirst
      · exact HasTypes.of_mem_refs values others id isOther

end

theorem hasTypes_replicate {rep : Rep} {value : Value} (typed : HasType u8 ref rep value)
    (count : Nat)
    : HasTypes u8 ref (List.replicate count rep) (List.replicate count value) := by
  induction count with
  | zero => exact .nil
  | succ count ih => exact .cons typed ih

end Typed

section Rename

variable {change : Id → Id} {ids : Set Id}

mutual

/-- Values whose references are told apart by their new names are told apart too. -/
theorem rename_injective (injective : Set.InjOn change ids)
    : (left right : Value) → (∀ id ∈ left.refs, id ∈ ids) → (∀ id ∈ right.refs, id ∈ ids) →
        left.rename change = right.rename change → left = right
  | .byte _, right, _, _, same => by
      cases right with
      | byte _ => exact same
      | _ => cases same
  | .nat _, right, _, _, same => by
      cases right with
      | nat _ => exact same
      | _ => cases same
  | .string _, right, _, _, same => by
      cases right with
      | string _ => exact same
      | _ => cases same
  | .array elements, right, isLeft, isRight, same => by
      cases right with
      | array others =>
          rw [renameAll_injective injective elements others isLeft isRight
            (Value.array.inj same)]
      | _ => cases same
  | .tuple fields, right, isLeft, isRight, same => by
      cases right with
      | tuple others =>
          rw [renameAll_injective injective fields others isLeft isRight (Value.tuple.inj same)]
      | _ => cases same
  | .alt _ value, right, isLeft, isRight, same => by
      cases right with
      | alt _ other =>
          obtain ⟨rfl, inside⟩ := Value.alt.inj same
          rw [rename_injective injective value other isLeft isRight inside]
      | _ => cases same
  | .ref id, right, isLeft, isRight, same => by
      cases right with
      | ref other =>
          rw [injective (isLeft id List.mem_cons_self) (isRight other List.mem_cons_self)
            (Value.ref.inj same)]
      | _ => cases same

theorem renameAll_injective (injective : Set.InjOn change ids)
    : (lefts rights : List Value) → (∀ id ∈ refsAll lefts, id ∈ ids) →
        (∀ id ∈ refsAll rights, id ∈ ids) → renameAll change lefts = renameAll change rights →
        lefts = rights
  | [], rights, _, _, same => by
      cases rights with
      | nil => rfl
      | cons _ _ => cases same
  | value :: values, rights, isLeft, isRight, same => by
      cases rights with
      | nil => cases same
      | cons other others =>
          obtain ⟨first, rest⟩ := List.cons.inj same
          rw [rename_injective injective value other
              (fun id member => isLeft id (List.mem_append_left _ member))
              (fun id member => isRight id (List.mem_append_left _ member)) first,
            renameAll_injective injective values others
              (fun id member => isLeft id (List.mem_append_right _ member))
              (fun id member => isRight id (List.mem_append_right _ member)) rest]

end

end Rename

end Glean.RTS
