import Glean.RTS.Define
import Glean.RTS.TypecheckValues

/-! Values of a type whose references satisfy a property. Their encodings can be read in one way
only.
-/

namespace Glean.RTS

mutual

/-- A value has a type, and its references have a property. A string is one that
`validateUntrustedString` accepts.
-/
inductive HasType (u8 : U8Next) (ref : Pid → Id → Prop) : Rep → Value → Prop where
  | byte {byte : Byte} : HasType u8 ref .byte (.byte byte)
  | nat {number : Nat} (small : number < 2 ^ 64) : HasType u8 ref .nat (.nat number)
  | string {mangled rest : Bytes}
      (accepted : Input.validateUntrustedString u8 (mangled ++ rest) = .ok mangled.length)
      : HasType u8 ref .string (.string mangled)
  | array {element : Rep} {elements : List Value} (small : elements.length < 2 ^ 64)
      (all : HasTypes u8 ref (List.replicate elements.length element) elements)
      : HasType u8 ref (.array element) (.array elements)
  | tuple {fields : List Rep} {values : List Value} (all : HasTypes u8 ref fields values)
      : HasType u8 ref (.tuple fields) (.tuple values)
  | alt {fields : List Rep} {selector : Nat} {field : Rep} {value : Value}
      (small : selector < 2 ^ 64) (isField : fields[selector]? = some field)
      (inside : HasType u8 ref field value)
      : HasType u8 ref (.sum fields) (.alt selector value)
  | ref {pid : Pid} {id : Id} (small : id < 2 ^ 64) (isRef : ref pid id)
      : HasType u8 ref (.predicate pid) (.ref id)

inductive HasTypes (u8 : U8Next) (ref : Pid → Id → Prop) : List Rep → List Value → Prop where
  | nil : HasTypes u8 ref [] []
  | cons {rep : Rep} {reps : List Rep} {value : Value} {values : List Value}
      (first : HasType u8 ref rep value) (others : HasTypes u8 ref reps values)
      : HasTypes u8 ref (rep :: reps) (value :: values)

end

mutual

/-- Replace the references of a value. -/
def Value.rename (change : Id → Id) : Value → Value
  | .byte byte => .byte byte
  | .nat number => .nat number
  | .string mangled => .string mangled
  | .array elements => .array (renameAll change elements)
  | .tuple fields => .tuple (renameAll change fields)
  | .alt selector value => .alt selector (value.rename change)
  | .ref id => .ref (change id)

def renameAll (change : Id → Id) : List Value → List Value
  | [] => []
  | value :: values => value.rename change :: renameAll change values

end

variable {varint : Varint} {u8 : U8Next}

theorem encodeVarint_injective {left right : Nat} (leftSmall : left < 2 ^ 64)
    (rightSmall : right < 2 ^ 64) {leftRest rightRest : Bytes}
    (same : varint.encodeVarint left ++ leftRest = varint.encodeVarint right ++ rightRest)
    : left = right ∧ leftRest = rightRest := by
  have decoded := varint.decode_encode leftRest leftSmall
  rw [same, varint.decode_encode rightRest rightSmall] at decoded
  obtain ⟨isSame, sameRest⟩ := Prod.mk.inj (Option.some.inj decoded)
  exact ⟨isSame.symm, sameRest.symm⟩

theorem encodeVarint_ne_nil {number : Nat} (small : number < 2 ^ 64)
    : varint.encodeVarint number ≠ [] := by
  intro isNil
  have decoded := varint.decode_encode [] small
  rw [isNil] at decoded
  obtain ⟨-, bytes, notNil, isSplit, -⟩ := varint.decode_prefix decoded
  exact notNil (List.append_eq_nil_iff.mp isSplit.symm).1

theorem mangled_injective {left right leftRest rightRest leftOther rightOther : Bytes}
    (leftAccepted : Input.validateUntrustedString u8 (left ++ leftOther) = .ok left.length)
    (rightAccepted : Input.validateUntrustedString u8 (right ++ rightOther) = .ok right.length)
    (same : left ++ leftRest = right ++ rightRest)
    : left = right ∧ leftRest = rightRest := by
  have isLeft := Input.validateUntrustedString_append leftAccepted leftRest
  rw [same, Input.validateUntrustedString_append rightAccepted rightRest] at isLeft
  exact List.append_inj same (Outcome.ok.inj isLeft).symm

mutual

theorem encodeValue_injective {leftRef rightRef : Pid → Id → Prop}
    : (left right : Value) → {rep : Rep} → {leftRest rightRest : Bytes} →
        HasType u8 leftRef rep left → HasType u8 rightRef rep right →
        encodeValue varint left ++ leftRest = encodeValue varint right ++ rightRest →
        left = right ∧ leftRest = rightRest
  | .byte _, _, _, _, _, .byte, .byte, same => by
      simp only [encodeValue, List.singleton_append, List.cons.injEq] at same
      exact ⟨congrArg Value.byte same.1, same.2⟩
  | .nat _, _, _, _, _, .nat leftSmall, .nat rightSmall, same => by
      simp only [encodeValue] at same
      obtain ⟨rfl, sameRest⟩ := encodeVarint_injective leftSmall rightSmall same
      exact ⟨rfl, sameRest⟩
  | .string _, _, _, _, _, .string leftAccepted, .string rightAccepted, same => by
      simp only [encodeValue] at same
      obtain ⟨rfl, sameRest⟩ := mangled_injective leftAccepted rightAccepted same
      exact ⟨rfl, sameRest⟩
  | .array elements, _, _, _, _, .array leftSmall leftAll, .array rightSmall rightAll, same => by
      simp only [encodeValue, List.append_assoc] at same
      obtain ⟨sameLength, sameElements⟩ := encodeVarint_injective leftSmall rightSmall same
      rw [← sameLength] at rightAll
      obtain ⟨rfl, sameRest⟩ := encodeValues_injective elements _ leftAll rightAll sameElements
      exact ⟨rfl, sameRest⟩
  | .tuple fields, _, _, _, _, .tuple leftAll, .tuple rightAll, same => by
      simp only [encodeValue] at same
      obtain ⟨rfl, sameRest⟩ := encodeValues_injective fields _ leftAll rightAll same
      exact ⟨rfl, sameRest⟩
  | .alt _ value, _, _, _, _, .alt leftSmall leftField leftInside,
      .alt rightSmall rightField rightInside, same => by
      simp only [encodeValue, List.append_assoc] at same
      obtain ⟨rfl, sameValue⟩ := encodeVarint_injective leftSmall rightSmall same
      obtain rfl := Option.some.inj (leftField.symm.trans rightField)
      obtain ⟨rfl, sameRest⟩ := encodeValue_injective value _ leftInside rightInside sameValue
      exact ⟨rfl, sameRest⟩
  | .ref _, _, _, _, _, .ref leftSmall _, .ref rightSmall _, same => by
      simp only [encodeValue] at same
      obtain ⟨rfl, sameRest⟩ := encodeVarint_injective leftSmall rightSmall same
      exact ⟨rfl, sameRest⟩

theorem encodeValues_injective {leftRef rightRef : Pid → Id → Prop}
    : (left right : List Value) → {reps : List Rep} → {leftRest rightRest : Bytes} →
        HasTypes u8 leftRef reps left → HasTypes u8 rightRef reps right →
        encodeValues varint left ++ leftRest = encodeValues varint right ++ rightRest →
        left = right ∧ leftRest = rightRest
  | [], _, _, _, _, .nil, .nil, same => by
      simp only [encodeValues, List.nil_append] at same
      exact ⟨rfl, same⟩
  | value :: values, _, _, _, _, .cons leftFirst leftOthers, .cons rightFirst rightOthers, same => by
      simp only [encodeValues, List.append_assoc] at same
      obtain ⟨rfl, sameOthers⟩ := encodeValue_injective value _ leftFirst rightFirst same
      obtain ⟨rfl, sameRest⟩ := encodeValues_injective values _ leftOthers rightOthers sameOthers
      exact ⟨rfl, sameRest⟩

end

theorem mangled_ne_nil {mangled rest : Bytes}
    (accepted : Input.validateUntrustedString u8 (mangled ++ rest) = .ok mangled.length)
    : mangled ≠ [] := by
  rintro rfl
  rw [Input.validateUntrustedString] at accepted
  split at accepted
  next => cases accepted
  next =>
    have bound := (Input.chunks_ends accepted).1
    simp at bound

mutual

/-- If one value of a type has an empty encoding, then all have. -/
theorem encodeValue_eq_nil {leftRef rightRef : Pid → Id → Prop}
    : (left right : Value) → {rep : Rep} → HasType u8 leftRef rep left →
        HasType u8 rightRef rep right → encodeValue varint left = [] →
        encodeValue varint right = []
  | .byte _, _, _, .byte, _, isNil => by
      rw [encodeValue] at isNil
      cases isNil
  | .nat _, _, _, .nat small, _, isNil => by
      rw [encodeValue] at isNil
      exact absurd isNil (encodeVarint_ne_nil small)
  | .string _, _, _, .string accepted, _, isNil => by
      rw [encodeValue] at isNil
      exact absurd isNil (mangled_ne_nil accepted)
  | .array _, _, _, .array small _, _, isNil => by
      rw [encodeValue] at isNil
      exact absurd (List.append_eq_nil_iff.mp isNil).1 (encodeVarint_ne_nil small)
  | .tuple fields, _, _, .tuple leftAll, .tuple rightAll, isNil => by
      rw [encodeValue] at isNil ⊢
      exact encodeValues_eq_nil fields _ leftAll rightAll isNil
  | .alt _ _, _, _, .alt small _ _, _, isNil => by
      rw [encodeValue] at isNil
      exact absurd (List.append_eq_nil_iff.mp isNil).1 (encodeVarint_ne_nil small)
  | .ref _, _, _, .ref small _, _, isNil => by
      rw [encodeValue] at isNil
      exact absurd isNil (encodeVarint_ne_nil small)

theorem encodeValues_eq_nil {leftRef rightRef : Pid → Id → Prop}
    : (left right : List Value) → {reps : List Rep} → HasTypes u8 leftRef reps left →
        HasTypes u8 rightRef reps right → encodeValues varint left = [] →
        encodeValues varint right = []
  | [], _, _, .nil, .nil, isNil => isNil
  | value :: values, _, _, .cons leftFirst leftOthers, .cons rightFirst rightOthers, isNil => by
      rw [encodeValues] at isNil ⊢
      obtain ⟨firstNil, othersNil⟩ := List.append_eq_nil_iff.mp isNil
      rw [encodeValue_eq_nil value _ leftFirst rightFirst firstNil,
        encodeValues_eq_nil values _ leftOthers rightOthers othersNil]
      rfl

end

mutual

theorem HasType.mono {left right : Pid → Id → Prop} (weaker : ∀ pid id, left pid id → right pid id)
    : (value : Value) → {rep : Rep} → HasType u8 left rep value → HasType u8 right rep value
  | .byte _, _, .byte => .byte
  | .nat _, _, .nat small => .nat small
  | .string _, _, .string accepted => .string accepted
  | .array elements, _, .array small all => .array small (HasTypes.mono weaker elements all)
  | .tuple fields, _, .tuple all => .tuple (HasTypes.mono weaker fields all)
  | .alt _ value, _, .alt small isField inside => .alt small isField (inside.mono weaker value)
  | .ref _, _, .ref small isRef => .ref small (weaker _ _ isRef)

theorem HasTypes.mono {left right : Pid → Id → Prop}
    (weaker : ∀ pid id, left pid id → right pid id)
    : (values : List Value) → {reps : List Rep} → HasTypes u8 left reps values →
        HasTypes u8 right reps values
  | [], _, .nil => .nil
  | value :: values, _, .cons first others =>
      .cons (first.mono weaker value) (others.mono weaker values)

end

section Renaming

variable {rename : Nat → Nat → Id → Outcome (Nat × Id)} {change : Id → Id}
  {ref : Pid → Id → Prop}

theorem refersAll_getElem {property : Pid → Prop}
    : {fields : List Rep} → {selector : Nat} → {field : Rep} → RefersAll property fields →
        fields[selector]? = some field → field.Refers property
  | _ :: _, 0, _, refers, isField => by
      cases isField
      exact refers.1
  | _ :: _, _ + 1, _, refers, isField => refersAll_getElem refers.2 isField

theorem refersAll_replicate {property : Pid → Prop} {rep : Rep}
    (refers : (Rep.array rep).Refers property) (count : Nat)
    : RefersAll property (List.replicate count rep) := by
  induction count with
  | zero => exact trivial
  | succ count ih => exact ⟨refers, ih⟩

theorem length_renameAll (values : List Value)
    : (renameAll change values).length = values.length := by
  induction values with
  | nil => rfl
  | cons value values ih => exact congrArg (· + 1) ih

theorem hasType_string {input : Bytes} {size : Nat}
    (accepted : Input.validateUntrustedString u8 input = .ok size)
    : HasType u8 ref .string (.string (input.take size)) := by
  have inside := Input.le_of_validateUntrustedString_eq_ok accepted
  have length : (input.take size).length = size := by
    rw [List.length_take, Nat.min_eq_left inside]
  have whole : Input.validateUntrustedString u8 (input.take size ++ input.drop size)
      = .ok (input.take size).length := by
    rw [List.take_append_drop, length, accepted]
  exact .string whole

variable (rename)

mutual

/-- What was read and renamed has the type, and the references that the renamer gave. -/
theorem hasType_of_renames
    (renamed : ∀ {id pid state result after}, pid ≠ Pid.invalid →
      rename id pid state = .ok (result, after) →
      result = change id ∧ result < 2 ^ 64 ∧ ref pid result)
    : (value : Value) → {rep : Rep} → {input rest : Bytes} → {result : Value} → {state after : Id} →
        rep.Refers (· ≠ Pid.invalid) → Reads varint u8 rep input value rest →
        Renames rename rep value state result after →
        result = value.rename change ∧ HasType u8 ref rep result
  | .byte _, _, _, _, _, _, _, _, .byte, .byte => ⟨rfl, .byte⟩
  | .nat _, _, _, _, _, _, _, _, .nat decoded, .nat =>
      ⟨rfl, .nat (varint.decode_prefix decoded).1⟩
  | .string _, _, _, _, _, _, _, _, .string accepted, .string => ⟨rfl, hasType_string accepted⟩
  | .array elements, _, _, _, _, _, _, refers, .array decoded readsAll, .array renamesAll => by
      obtain ⟨rfl, all⟩ := hasTypes_of_renames renamed elements
        (refersAll_replicate refers _) readsAll renamesAll
      have small := (varint.decode_prefix decoded).1
      rw [← length_renameAll elements] at small all
      exact ⟨rfl, .array small all⟩
  | .tuple fields, _, _, _, _, _, _, refers, .tuple readsAll, .tuple renamesAll => by
      obtain ⟨rfl, all⟩ := hasTypes_of_renames renamed fields refers readsAll renamesAll
      exact ⟨rfl, .tuple all⟩
  | .alt _ value, _, _, _, _, _, _, refers, .alt decoded isField reads, .alt isSame renames => by
      obtain rfl := Option.some.inj (isField.symm.trans isSame)
      obtain ⟨rfl, inside⟩ := hasType_of_renames renamed value
        (refersAll_getElem refers isField) reads renames
      exact ⟨rfl, .alt (varint.decode_prefix decoded).1 isField inside⟩
  | .ref _, _, _, _, _, _, _, refers, .ref _, .ref isRenamed => by
      obtain ⟨rfl, small, isRef⟩ := renamed refers isRenamed
      exact ⟨rfl, .ref small isRef⟩

theorem hasTypes_of_renames
    (renamed : ∀ {id pid state result after}, pid ≠ Pid.invalid →
      rename id pid state = .ok (result, after) →
      result = change id ∧ result < 2 ^ 64 ∧ ref pid result)
    : (values : List Value) → {reps : List Rep} → {input rest : Bytes} → {result : List Value} →
        {state after : Id} → RefersAll (· ≠ Pid.invalid) reps →
        ReadsAll varint u8 reps input values rest →
        RenamesAll rename reps values state result after →
        result = renameAll change values ∧ HasTypes u8 ref reps result
  | [], _, _, _, _, _, _, _, .nil, .nil => ⟨rfl, .nil⟩
  | value :: values, _, _, _, _, _, _, refers, .cons reads readsOthers,
      .cons renames renamesOthers => by
      obtain ⟨rfl, first⟩ := hasType_of_renames renamed value refers.1 reads renames
      obtain ⟨rfl, others⟩ := hasTypes_of_renames renamed values refers.2 readsOthers renamesOthers
      exact ⟨rfl, .cons first others⟩

end

end Renaming

end Glean.RTS
