import Glean.RTS.MangledString
import Glean.RTS.TypedValue
import Glean.RTS.Varint

/-! Values of the client libraries and their binary form (`RTS.hs`): `fromValue` and `toValue`.
Numbers, fact ids, lengths and selectors are variable-length numbers, of which the reader takes
every form and the writer gives the least one.
-/

namespace Glean.RTS

-- Terms

/-- `Term` -/
inductive Term where
  | byte (byte : Byte)
  | nat (number : Nat)
  | array (elements : List Term)
  | byteArray (bytes : Bytes)
  | tuple (fields : List Term)
  | alt (selector : Nat) (term : Term)
  | string (text : Bytes)
  | ref (id : Id)

/-- The elements of an array. -/
def elementsOf : Term → Option (List Term)
  | .array elements => some elements
  | .byteArray bytes => some (bytes.map .byte)
  | _ => none

namespace ValueCodec

variable (varint : Varint) (u8 : U8Next)

mutual

/-- `encodeValue` -/
def encodeValue : Term → Bytes
  | .byte byte => [byte]
  | .nat number => varint.encodeVarint number
  | .array elements => varint.encodeVarint elements.length ++ encodeValues elements
  | .byteArray bytes => varint.encodeVarint bytes.length ++ bytes
  | .tuple fields => encodeValues fields
  | .alt selector term => varint.encodeVarint selector ++ encodeValue term
  | .string text => mangleString text
  | .ref id => varint.encodeVarint id

def encodeValues : List Term → Bytes
  | [] => []
  | term :: terms => encodeValue term ++ encodeValues terms

end

/-- `fromValue` -/
def fromValue (term : Term) : Bytes := encodeValue varint term

/-- `dByte` -/
def dByte : Bytes → Outcome (Byte × Bytes)
  | byte :: rest => .ok (byte, rest)
  | [] => .error "truncated input: expected 1 bytes, got 0"

/-- `dBytes` -/
def dBytes (size : Nat) (input : Bytes) : Outcome (Bytes × Bytes) := do
  let rest ← Input.bytes input size
  return (input.take size, rest)

/-- `replicateM` -/
def replicateM (decode : Bytes → Outcome (Term × Bytes)) : Nat → Bytes → Outcome (List Term × Bytes)
  | 0, input => .ok ([], input)
  | times + 1, input => do
      let (term, rest) ← decode input
      let (terms, rest) ← replicateM decode times rest
      return (term :: terms, rest)

/-- The length of an array as an `Int`: a negative one is none. -/
def repetitions (size : Nat) : Nat := if size < 2 ^ 63 then size else 0

def isByteRep : Rep → Bool
  | .byte => true
  | _ => false

mutual

/-- `decodeValue` -/
def decodeValue : Rep → Bytes → Outcome (Term × Bytes)
  | .byte, input => do
      let (byte, rest) ← dByte input
      return (.byte byte, rest)
  | .nat, input => do
      let (number, rest) ← Input.packed varint input
      return (.nat number, rest)
  | .array element, input => do
      let (size, rest) ← Input.packed varint input
      if isByteRep element then
        let (bytes, rest) ← dBytes size rest
        return (.byteArray bytes, rest)
      else
        let (elements, rest) ← replicateM (decodeValue element) (repetitions size) rest
        return (.array elements, rest)
  | .tuple fields, input => do
      let (terms, rest) ← decodeValues fields input
      return (.tuple terms, rest)
  | .sum fields, input => do
      let (selector, rest) ← Input.packed varint input
      if 2 ^ 63 ≤ selector then
        .error "Prelude.!!: negative index"
      else
        let (term, rest) ← decodeField fields selector rest
        return (.alt selector term, rest)
  | .string, input => do
      let (text, rest) ← Input.demangleUntrustedString u8 input
      return (.string text, rest)
  | .predicate _, input => do
      let (id, rest) ← Input.packed varint input
      return (.ref id, rest)

def decodeValues : List Rep → Bytes → Outcome (List Term × Bytes)
  | [], input => .ok ([], input)
  | rep :: reps, input => do
      let (term, rest) ← decodeValue rep input
      let (terms, rest) ← decodeValues reps rest
      return (term :: terms, rest)

/-- Decode the field of a sum at an index. -/
def decodeField : List Rep → Nat → Bytes → Outcome (Term × Bytes)
  | [], _, _ => .error "Prelude.!!: index too large"
  | rep :: _, 0, input => decodeValue rep input
  | _ :: reps, index + 1, input => decodeField reps index input

end

/-- `toValue`, which gives the value and leaves what follows it. -/
def toValue (rep : Rep) (input : Bytes) : Outcome Term := do
  let (term, _) ← decodeValue varint u8 rep input
  return term

-- Well-typed terms

mutual

/-- A term has a type. Arrays of bytes are byte arrays, and strings are in UTF-8. -/
inductive WellTyped : Rep → Term → Prop where
  | byte {byte : Byte} : WellTyped .byte (.byte byte)
  | nat {number : Nat} (small : number < 2 ^ 64) : WellTyped .nat (.nat number)
  | array {element : Rep} {elements : List Term} (notByte : isByteRep element = false)
      (small : elements.length < 2 ^ 63)
      (all : WellTypeds (List.replicate elements.length element) elements)
      : WellTyped (.array element) (.array elements)
  | byteArray {bytes : Bytes} (small : bytes.length < 2 ^ 64)
      : WellTyped (.array .byte) (.byteArray bytes)
  | tuple {fields : List Rep} {terms : List Term} (all : WellTypeds fields terms)
      : WellTyped (.tuple fields) (.tuple terms)
  | alt {fields : List Rep} {selector : Nat} {field : Rep} {term : Term}
      (small : selector < 2 ^ 63) (isField : fields[selector]? = some field)
      (inside : WellTyped field term)
      : WellTyped (.sum fields) (.alt selector term)
  | string {codes : List Nat} (scalars : ∀ code ∈ codes, Utf8.Scalar code)
      : WellTyped .string (.string (Utf8.encodeAll codes))
  | ref {pid : Pid} {id : Id} (small : id < 2 ^ 64) : WellTyped (.predicate pid) (.ref id)

inductive WellTypeds : List Rep → List Term → Prop where
  | nil : WellTypeds [] []
  | cons {rep : Rep} {reps : List Rep} {term : Term} {terms : List Term}
      (first : WellTyped rep term) (others : WellTypeds reps terms)
      : WellTypeds (rep :: reps) (term :: terms)

end

mutual

/-- No string of the term has a code point that the decoder takes for zero. -/
def AllLegible : Term → Prop
  | .array elements => AllLegibles elements
  | .tuple fields => AllLegibles fields
  | .alt _ term => AllLegible term
  | .string text => Legible text
  | .byte _ | .nat _ | .byteArray _ | .ref _ => True

def AllLegibles : List Term → Prop
  | [] => True
  | term :: terms => AllLegible term ∧ AllLegibles terms

end

variable {varint : Varint} {u8 : U8Next}

-- Decoding what was encoded

theorem packed_encodeVarint {number : Nat} (small : number < 2 ^ 64) (rest : Bytes)
    : Input.packed varint (varint.encodeVarint number ++ rest) = .ok (number, rest) := by
  rw [Input.packed, varint.decode_encode rest small]

theorem dBytes_append (bytes rest : Bytes)
    : dBytes bytes.length (bytes ++ rest) = .ok (bytes, rest) := by
  have enough : ¬ (bytes ++ rest).length < bytes.length := by
    rw [List.length_append]
    omega
  simp only [dBytes, Input.bytes, if_neg enough, Outcome.ok_bind, List.take_left, List.drop_left,
    Outcome.pure_eq]

theorem replicateM_decodeValue (element : Rep) (times : Nat) (input : Bytes)
    : replicateM (decodeValue varint u8 element) times input
      = decodeValues varint u8 (List.replicate times element) input := by
  induction times generalizing input with
  | zero => rfl
  | succ times ih => simp only [replicateM, List.replicate_succ, decodeValues, ih]

theorem decodeField_eq {fields : List Rep} {index : Nat} {field : Rep}
    (isField : fields[index]? = some field) (input : Bytes)
    : decodeField varint u8 fields index input = decodeValue varint u8 field input := by
  induction fields generalizing index with
  | nil => simp at isField
  | cons rep fields ih =>
      cases index with
      | zero =>
          obtain rfl : rep = field := by simpa using isField
          rw [decodeField]
      | succ index => rw [decodeField, ih (by simpa using isField)]

mutual

theorem decodeValue_encodeValue (utf8 : u8.ReadsUtf8)
    : (term : Term) → {rep : Rep} → WellTyped rep term → AllLegible term → (rest : Bytes) →
        decodeValue varint u8 rep (encodeValue varint term ++ rest) = .ok (term, rest)
  | .byte byte, _, .byte, _, rest => rfl
  | .nat number, _, .nat small, _, rest => by
      rw [encodeValue, decodeValue, packed_encodeVarint small]
      rfl
  | .array elements, _, .array notByte small all, legible, rest => by
      have elementsBack := decodeValues_encodeValues utf8 elements all legible rest
      rw [encodeValue, decodeValue, List.append_assoc, packed_encodeVarint (by omega),
        Outcome.ok_bind]
      simp only [notByte, Bool.false_eq_true, if_false, repetitions, if_pos small,
        replicateM_decodeValue, elementsBack, Outcome.ok_bind, Outcome.pure_eq]
  | .byteArray bytes, _, .byteArray small, _, rest => by
      rw [encodeValue, decodeValue, List.append_assoc, packed_encodeVarint small, Outcome.ok_bind]
      simp only [isByteRep, if_true, dBytes_append, Outcome.ok_bind, Outcome.pure_eq]
  | .tuple fields, _, .tuple all, legible, rest => by
      rw [encodeValue, decodeValue, decodeValues_encodeValues utf8 fields all legible rest]
      rfl
  | .alt selector term, _, .alt small isField inside, legible, rest => by
      have termBack := decodeValue_encodeValue utf8 term inside legible rest
      rw [encodeValue, decodeValue, List.append_assoc, packed_encodeVarint (by omega),
        Outcome.ok_bind]
      simp only [if_neg (not_le.mpr small), decodeField_eq isField, termBack, Outcome.ok_bind,
        Outcome.pure_eq]
  | .string _, _, .string _, legible, rest => by
      rw [encodeValue, decodeValue, Input.demangleUntrustedString_mangleString utf8 legible]
      rfl
  | .ref id, _, .ref small, _, rest => by
      rw [encodeValue, decodeValue, packed_encodeVarint small]
      rfl

theorem decodeValues_encodeValues (utf8 : u8.ReadsUtf8)
    : (terms : List Term) → {reps : List Rep} → WellTypeds reps terms → AllLegibles terms →
        (rest : Bytes) →
          decodeValues varint u8 reps (encodeValues varint terms ++ rest) = .ok (terms, rest)
  | [], _, .nil, _, rest => rfl
  | term :: terms, _, .cons first others, legible, rest => by
      have firstBack := decodeValue_encodeValue utf8 term first legible.1
      have othersBack := decodeValues_encodeValues utf8 terms others legible.2 rest
      simp only [encodeValues, decodeValues, List.append_assoc, firstBack, othersBack,
        Outcome.ok_bind, Outcome.pure_eq]

end

-- Encodings are told apart

mutual

theorem encodeValue_append_injective
    : (left right : Term) → {rep : Rep} → {leftRest rightRest : Bytes} →
        WellTyped rep left → WellTyped rep right →
        encodeValue varint left ++ leftRest = encodeValue varint right ++ rightRest →
        left = right ∧ leftRest = rightRest
  | .byte _, _, _, _, _, .byte, .byte, same => by
      obtain ⟨rfl, sameRest⟩ := List.cons.inj same
      exact ⟨rfl, sameRest⟩
  | .nat _, _, _, _, _, .nat leftSmall, .nat rightSmall, same => by
      obtain ⟨rfl, sameRest⟩ := encodeVarint_injective leftSmall rightSmall same
      exact ⟨rfl, sameRest⟩
  | .array elements, _, _, _, _, .array _ leftSmall leftAll, .array _ rightSmall rightAll,
      same => by
      simp only [encodeValue, List.append_assoc] at same
      obtain ⟨sameLength, sameElements⟩ :=
        encodeVarint_injective (by omega) (by omega) same
      rw [← sameLength] at rightAll
      obtain ⟨rfl, sameRest⟩ :=
        encodeValues_append_injective elements _ leftAll rightAll sameElements
      exact ⟨rfl, sameRest⟩
  | .array _, _, _, _, _, .array notByte _ _, .byteArray _, _ => by
      simp [isByteRep] at notByte
  | .byteArray _, _, _, _, _, .byteArray _, .array notByte _ _, _ => by
      simp [isByteRep] at notByte
  | .byteArray _, _, _, _, _, .byteArray leftSmall, .byteArray rightSmall, same => by
      simp only [encodeValue, List.append_assoc] at same
      obtain ⟨sameLength, sameBytes⟩ := encodeVarint_injective leftSmall rightSmall same
      obtain ⟨rfl, sameRest⟩ := List.append_inj sameBytes sameLength
      exact ⟨rfl, sameRest⟩
  | .tuple fields, _, _, _, _, .tuple leftAll, .tuple rightAll, same => by
      obtain ⟨rfl, sameRest⟩ := encodeValues_append_injective fields _ leftAll rightAll same
      exact ⟨rfl, sameRest⟩
  | .alt _ term, _, _, _, _, .alt leftSmall leftField leftInside,
      .alt rightSmall rightField rightInside, same => by
      simp only [encodeValue, List.append_assoc] at same
      obtain ⟨rfl, sameTerm⟩ := encodeVarint_injective (by omega) (by omega) same
      obtain rfl := Option.some.inj (leftField.symm.trans rightField)
      obtain ⟨rfl, sameRest⟩ := encodeValue_append_injective term _ leftInside rightInside sameTerm
      exact ⟨rfl, sameRest⟩
  | .string _, _, _, _, _, .string _, .string _, same => by
      simp only [encodeValue] at same
      obtain ⟨sameText, sameRest⟩ := mangleString_injective same
      exact ⟨congrArg Term.string sameText, sameRest⟩
  | .ref _, _, _, _, _, .ref leftSmall, .ref rightSmall, same => by
      obtain ⟨rfl, sameRest⟩ := encodeVarint_injective leftSmall rightSmall same
      exact ⟨rfl, sameRest⟩

theorem encodeValues_append_injective
    : (left right : List Term) → {reps : List Rep} → {leftRest rightRest : Bytes} →
        WellTypeds reps left → WellTypeds reps right →
        encodeValues varint left ++ leftRest = encodeValues varint right ++ rightRest →
        left = right ∧ leftRest = rightRest
  | [], _, _, _, _, .nil, .nil, same => ⟨rfl, same⟩
  | term :: terms, _, _, _, _, .cons leftFirst leftOthers, .cons rightFirst rightOthers, same => by
      simp only [encodeValues, List.append_assoc] at same
      obtain ⟨rfl, sameOthers⟩ := encodeValue_append_injective term _ leftFirst rightFirst same
      obtain ⟨rfl, sameRest⟩ :=
        encodeValues_append_injective terms _ leftOthers rightOthers sameOthers
      exact ⟨rfl, sameRest⟩

end

-- Encoding what was decoded

/-- One byte string is shorter than another, or as long and in no byte larger. -/
def Precedes (left right : Bytes) : Prop :=
  left.length < right.length ∨ List.Forall₂ (· ≤ ·) left right

theorem Precedes.refl (bytes : Bytes) : Precedes bytes bytes :=
  .inr (List.forall₂_same.mpr fun _ _ => le_rfl)

theorem Precedes.length_le {left right : Bytes} (precedes : Precedes left right)
    : left.length ≤ right.length := by
  rcases precedes with shorter | pointwise
  · exact shorter.le
  · exact pointwise.length_eq.le

theorem Precedes.append {left right leftRest rightRest : Bytes} (precedes : Precedes left right)
    (restPrecedes : Precedes leftRest rightRest)
    : Precedes (left ++ leftRest) (right ++ rightRest) := by
  have length := precedes.length_le
  have restLength := restPrecedes.length_le
  rcases precedes with shorter | pointwise
  · exact .inl (by simp only [List.length_append]; omega)
  · rcases restPrecedes with shorter | restPointwise
    · exact .inl (by simp only [List.length_append]; omega)
    · exact .inr (List.rel_append pointwise restPointwise)

theorem Precedes.antisymm {left right : Bytes} (precedes : Precedes left right)
    (follows : Precedes right left)
    : left = right := by
  rcases precedes with shorter | pointwise
  · exact absurd follows.length_le (not_le.mpr shorter)
  · rcases follows with shorter | back
    · exact absurd pointwise.length_eq shorter.ne'
    · induction pointwise with
      | nil => rfl
      | cons le _ ih =>
          obtain ⟨ge, others⟩ := List.forall₂_cons.mp back
          rw [le_antisymm le ge, ih others]

/-- What is documented of `encodeVarint`: it writes the least of the forms that
`tryDecodeVarint` reads, and zero is the least of all.
-/
structure WritesLeast (varint : Varint) : Prop where
  least
    : ∀ {input number rest}, varint.tryDecodeVarint input = some (number, rest) →
        ∃ read, input = read ++ rest ∧ Precedes (varint.encodeVarint number) read
  zero : ∀ {bytes}, bytes ≠ [] → Precedes (varint.encodeVarint 0) bytes

theorem encodeBytes_ne_nil (bytes number : Nat) : Varint.encodeBytes (bytes + 1) number ≠ [] := by
  rw [Varint.encodeBytes]
  split <;> simp

/-- A number in one byte. -/
theorem encodeBytes_precedes_byte {number : Nat} {byte : Byte} (bytes : Nat)
    (small : number ≤ byte.val) (isLast : byte.val < 128)
    : Precedes (Varint.encodeBytes (bytes + 1) number) [byte] := by
  rw [Varint.encodeBytes, if_pos (by omega)]
  refine .inr (.cons ?_ .nil)
  rw [Fin.le_def, Fin.val_ofNat]
  omega

theorem encodeBytes_precedes {bytes number : Nat} {input rest : Bytes}
    (decoded : Varint.decodeBytes (bytes + 1) input = some (number, rest))
    : ∃ read, input = read ++ rest ∧ Precedes (Varint.encodeBytes (bytes + 1) number) read := by
  induction bytes generalizing number input rest with
  | zero =>
      cases input with
      | nil => cases decoded
      | cons byte input =>
          rw [Varint.decodeBytes] at decoded
          split at decoded
          next isLast =>
            cases decoded
            refine ⟨[byte], rfl, encodeBytes_precedes_byte 0 ?_ isLast⟩
            rw [if_pos rfl]
            omega
          next => cases decoded
  | succ bytes ih =>
      cases input with
      | nil => cases decoded
      | cons byte input =>
          rw [Varint.decodeBytes] at decoded
          split at decoded
          next isLast =>
            cases decoded
            refine ⟨[byte], rfl, encodeBytes_precedes_byte (bytes + 1) ?_ isLast⟩
            rw [if_neg (by omega)]
          next notLast =>
            split at decoded
            next higher after isHigher =>
              cases decoded
              obtain ⟨read, rfl, precedes⟩ := ih isHigher
              refine ⟨byte :: read, rfl, ?_⟩
              rw [Varint.encodeBytes]
              split
              next =>
                -- the higher bytes are zero, and not written
                have positive := List.length_pos_iff.mpr (encodeBytes_ne_nil bytes higher)
                have length := precedes.length_le
                refine .inl ?_
                simp only [List.length_cons, List.length_nil]
                omega
              next =>
                have low : (byte.val % 128 + 128 * higher) % 128 + 128 = byte.val := by omega
                have high : (byte.val % 128 + 128 * higher) / 128 = higher := by omega
                have isByte : Fin.ofNat 256 byte.val = byte := by simp
                rw [low, high, isByte]
                exact (Precedes.refl [byte]).append precedes
            next => cases decoded

theorem folly_writesLeast : WritesLeast .folly where
  least decoded := encodeBytes_precedes decoded
  zero {bytes} notEmpty := by
    have zero : Varint.folly.encodeVarint 0 = [0] := rfl
    rw [zero]
    match bytes, notEmpty with
    | [byte], _ => exact .inr (.cons (Fin.zero_le byte) .nil)
    | _ :: _ :: _, _ => exact .inl (by simp)

/-- What decoding reads: a value of the type, from bytes that its encoding precedes. -/
structure Decoded (varint : Varint) (rep : Rep) (input : Bytes) (term : Term) (rest : Bytes)
    : Prop where
  wellTyped : WellTyped rep term
  precedes : ∃ read, input = read ++ rest ∧ Precedes (encodeValue varint term) read

structure DecodedAll (varint : Varint) (reps : List Rep) (input : Bytes) (terms : List Term)
    (rest : Bytes)
    : Prop where
  wellTyped : WellTypeds reps terms
  precedes : ∃ read, input = read ++ rest ∧ Precedes (encodeValues varint terms) read

theorem decoded_packed (least : WritesLeast varint) {input rest : Bytes} {number : Nat}
    (decoded : Input.packed varint input = .ok (number, rest))
    : number < 2 ^ 64
      ∧ ∃ read, input = read ++ rest ∧ Precedes (varint.encodeVarint number) read := by
  rw [Input.packed] at decoded
  split at decoded
  next result isResult =>
    cases decoded
    exact ⟨(varint.decode_prefix isResult).1, least.least isResult⟩
  next => cases decoded

/-- The length of an array, as it is used. -/
theorem repetitions_precedes (least : WritesLeast varint) {input rest : Bytes} {size : Nat}
    (decoded : Input.packed varint input = .ok (size, rest))
    : ∃ read, input = read ++ rest ∧ Precedes (varint.encodeVarint (repetitions size)) read := by
  unfold repetitions
  split
  next => exact (decoded_packed least decoded).2
  next =>
    rw [Input.packed] at decoded
    split at decoded
    next result isResult =>
      cases decoded
      obtain ⟨-, read, notEmpty, isSplit, -⟩ := varint.decode_prefix isResult
      exact ⟨read, isSplit, least.zero notEmpty⟩
    next => cases decoded

theorem repetitions_lt (size : Nat) : repetitions size < 2 ^ 63 := by
  unfold repetitions
  split <;> omega

theorem DecodedAll.cons {rep : Rep} {reps : List Rep} {input rest after : Bytes} {term : Term}
    {terms : List Term} (first : Decoded varint rep input term rest)
    (others : DecodedAll varint reps rest terms after)
    : DecodedAll varint (rep :: reps) input (term :: terms) after := by
  obtain ⟨read, rfl, precedes⟩ := first.precedes
  obtain ⟨more, rfl, othersPrecede⟩ := others.precedes
  refine ⟨.cons first.wellTyped others.wellTyped, read ++ more, by simp, ?_⟩
  rw [encodeValues]
  exact precedes.append othersPrecede

/-- A value behind a number. -/
theorem Decoded.behind {rep : Rep} {input rest after encoded : Bytes} {term : Term} {number : Nat}
    (wellTyped : WellTyped rep term)
    (isNumber : ∃ read, input = read ++ rest ∧ Precedes (varint.encodeVarint number) read)
    (isValue : ∃ read, rest = read ++ after ∧ Precedes encoded read)
    (isTerm : encodeValue varint term = varint.encodeVarint number ++ encoded)
    : Decoded varint rep input term after := by
  obtain ⟨read, rfl, precedes⟩ := isNumber
  obtain ⟨more, rfl, valuePrecedes⟩ := isValue
  refine ⟨wellTyped, read ++ more, by simp, ?_⟩
  rw [isTerm]
  exact precedes.append valuePrecedes

/-- Repeated decoding, given what decoding once does. -/
theorem decodedAll_replicateM {rep : Rep}
    (once
      : ∀ {input term rest}, decodeValue varint u8 rep input = .ok (term, rest) →
          AllLegible term → Decoded varint rep input term rest)
    {times : Nat} {input rest : Bytes} {terms : List Term}
    (decoded : replicateM (decodeValue varint u8 rep) times input = .ok (terms, rest))
    (legible : AllLegibles terms)
    : terms.length = times
      ∧ DecodedAll varint (List.replicate times rep) input terms rest := by
  induction times generalizing input terms with
  | zero =>
      cases decoded
      exact ⟨rfl, .nil, [], rfl, .refl []⟩
  | succ times ih =>
      obtain ⟨⟨term, between⟩, isFirst, decoded⟩ := Outcome.bind_eq_ok.mp decoded
      obtain ⟨⟨others, after⟩, isOthers, decoded⟩ := Outcome.bind_eq_ok.mp decoded
      cases decoded
      obtain ⟨length, all⟩ := ih isOthers legible.2
      exact ⟨by rw [List.length_cons, length], .cons (once isFirst legible.1) all⟩

theorem decoded_dBytes {size : Nat} {input bytes rest : Bytes}
    (decoded : dBytes size input = .ok (bytes, rest))
    : bytes.length = size ∧ input = bytes ++ rest := by
  obtain ⟨left, isLeft, decoded⟩ := Outcome.bind_eq_ok.mp decoded
  cases decoded
  rw [Input.bytes] at isLeft
  split at isLeft
  next => cases isLeft
  next enough =>
    cases isLeft
    exact ⟨by rw [List.length_take]; omega, (List.take_append_drop size input).symm⟩

mutual

theorem decoded_of_decodeValue (least : WritesLeast varint) (utf8 : u8.ReadsUtf8)
    : (rep : Rep) → {input rest : Bytes} → {term : Term} →
        decodeValue varint u8 rep input = .ok (term, rest) → AllLegible term →
        Decoded varint rep input term rest
  | .byte, input, _, _, decoded, _ => by
      match input with
      | [] => cases decoded
      | byte :: input =>
          cases decoded
          exact ⟨.byte, [byte], rfl, .refl [byte]⟩
  | .nat, _, _, _, decoded, _ => by
      obtain ⟨⟨number, rest⟩, isNumber, decoded⟩ := Outcome.bind_eq_ok.mp decoded
      cases decoded
      obtain ⟨small, read⟩ := decoded_packed least isNumber
      exact ⟨.nat small, read⟩
  | .array element, _, _, _, decoded, legible => by
      obtain ⟨⟨size, between⟩, isNumber, decoded⟩ := Outcome.bind_eq_ok.mp decoded
      obtain ⟨small, read⟩ := decoded_packed least isNumber
      dsimp only at decoded
      split at decoded
      next isByte =>
        obtain ⟨⟨bytes, rest⟩, isBytes, decoded⟩ := Outcome.bind_eq_ok.mp decoded
        cases decoded
        obtain ⟨rfl, rfl⟩ := decoded_dBytes isBytes
        obtain rfl : element = .byte := by
          cases element <;> first | rfl | cases isByte
        exact .behind (.byteArray small) read ⟨bytes, rfl, .refl bytes⟩ rfl
      next notByte =>
        obtain ⟨⟨elements, rest⟩, isElements, decoded⟩ := Outcome.bind_eq_ok.mp decoded
        cases decoded
        obtain ⟨length, all⟩ := decodedAll_replicateM
          (fun once => decoded_of_decodeValue least utf8 element once) isElements legible
        have used := repetitions_precedes least isNumber
        have few := repetitions_lt size
        rw [← length] at all used few
        exact .behind (.array (Bool.eq_false_iff.mpr notByte) few all.wellTyped) used
          all.precedes rfl
  | .tuple fields, _, _, _, decoded, legible => by
      obtain ⟨⟨terms, rest⟩, isTerms, decoded⟩ := Outcome.bind_eq_ok.mp decoded
      cases decoded
      have all := decoded_of_decodeValues least utf8 fields isTerms legible
      exact ⟨.tuple all.wellTyped, all.precedes⟩
  | .sum fields, _, _, _, decoded, legible => by
      obtain ⟨⟨selector, between⟩, isNumber, decoded⟩ := Outcome.bind_eq_ok.mp decoded
      obtain ⟨-, read⟩ := decoded_packed least isNumber
      dsimp only at decoded
      split at decoded
      next => cases decoded
      next small =>
        obtain ⟨⟨term, rest⟩, isTerm, decoded⟩ := Outcome.bind_eq_ok.mp decoded
        cases decoded
        obtain ⟨field, isField, inside⟩ := decoded_of_decodeField least utf8 fields isTerm legible
        exact .behind (.alt (not_le.mp small) isField inside.wellTyped) read inside.precedes rfl
  | .string, _, _, _, decoded, legible => by
      obtain ⟨⟨text, rest⟩, isText, decoded⟩ := Outcome.bind_eq_ok.mp decoded
      cases decoded
      have mangled := Input.eq_mangleString_of_demangle utf8 isText legible
      obtain ⟨codes, allLegible, rfl⟩ := legible
      exact ⟨.string fun code member => (allLegible code member).1, _, mangled, .refl _⟩
  | .predicate _, _, _, _, decoded, _ => by
      obtain ⟨⟨id, rest⟩, isNumber, decoded⟩ := Outcome.bind_eq_ok.mp decoded
      cases decoded
      obtain ⟨small, read⟩ := decoded_packed least isNumber
      exact ⟨.ref small, read⟩

theorem decoded_of_decodeValues (least : WritesLeast varint) (utf8 : u8.ReadsUtf8)
    : (reps : List Rep) → {input rest : Bytes} → {terms : List Term} →
        decodeValues varint u8 reps input = .ok (terms, rest) → AllLegibles terms →
        DecodedAll varint reps input terms rest
  | [], _, _, _, decoded, _ => by
      cases decoded
      exact ⟨.nil, [], rfl, .refl []⟩
  | rep :: reps, _, _, _, decoded, legible => by
      obtain ⟨⟨term, between⟩, isFirst, decoded⟩ := Outcome.bind_eq_ok.mp decoded
      obtain ⟨⟨others, after⟩, isOthers, decoded⟩ := Outcome.bind_eq_ok.mp decoded
      cases decoded
      exact .cons (decoded_of_decodeValue least utf8 rep isFirst legible.1)
        (decoded_of_decodeValues least utf8 reps isOthers legible.2)

theorem decoded_of_decodeField (least : WritesLeast varint) (utf8 : u8.ReadsUtf8)
    : (fields : List Rep) → {index : Nat} → {input rest : Bytes} → {term : Term} →
        decodeField varint u8 fields index input = .ok (term, rest) → AllLegible term →
        ∃ field, fields[index]? = some field ∧ Decoded varint field input term rest
  | [], _, _, _, _, decoded, _ => by cases decoded
  | field :: _, 0, _, _, _, decoded, legible =>
      ⟨field, rfl, decoded_of_decodeValue least utf8 field decoded legible⟩
  | _ :: fields, index + 1, _, _, _, decoded, legible => by
      obtain ⟨field, isField, inside⟩ := decoded_of_decodeField least utf8 fields decoded legible
      exact ⟨field, by simpa using isField, inside⟩

end

/-- The binary form of values. A well-typed value whose strings are legible is read back from its
encoding and nothing is left over; encodings of a type are told apart; and encoding what was read
gives the least of the byte strings that are read as the same value.
-/
theorem valueCodec_correct (varint : Varint) (u8 : U8Next) (least : WritesLeast varint)
    (utf8 : u8.ReadsUtf8)
    : (∀ rep term, WellTyped rep term → AllLegible term →
          decodeValue varint u8 rep (fromValue varint term) = .ok (term, []))
      ∧ (∀ rep left right, WellTyped rep left → WellTyped rep right →
          fromValue varint left <+: fromValue varint right → left = right)
      ∧ (∀ reps left right, WellTypeds reps left → WellTypeds reps right →
          left.flatMap (fromValue varint) = right.flatMap (fromValue varint) → left = right)
      ∧ ∀ rep bytes term, decodeValue varint u8 rep bytes = .ok (term, []) → AllLegible term →
          decodeValue varint u8 rep (fromValue varint term) = .ok (term, [])
            ∧ (∀ other, decodeValue varint u8 rep other = .ok (term, []) →
                Precedes (fromValue varint term) other)
            ∧ (fromValue varint term = bytes
                ↔ ∀ other, decodeValue varint u8 rep other = .ok (term, []) →
                    Precedes bytes other) := by
  have back (rep term) (wellTyped : WellTyped rep term) (legible : AllLegible term)
      : decodeValue varint u8 rep (fromValue varint term) = .ok (term, []) := by
    simpa [fromValue] using decodeValue_encodeValue utf8 term wellTyped legible []
  refine ⟨back, ?_, ?_, ?_⟩
  · rintro rep left right leftTyped rightTyped ⟨rest, same⟩
    refine (encodeValue_append_injective left right leftTyped rightTyped
      (show encodeValue varint left ++ rest = encodeValue varint right ++ [] from ?_)).1
    simpa [fromValue] using same
  · intro reps left right leftTyped rightTyped same
    have concatenated (terms : List Term)
        : terms.flatMap (fromValue varint) = encodeValues varint terms := by
      induction terms with
      | nil => rfl
      | cons term terms ih => rw [List.flatMap_cons, encodeValues, ih, fromValue]
    rw [concatenated, concatenated] at same
    refine (encodeValues_append_injective left right leftTyped rightTyped
      (show encodeValues varint left ++ [] = encodeValues varint right ++ [] from ?_)).1
    rw [same]
  · intro rep bytes term decoded legible
    have first (other : Bytes) (isTerm : decodeValue varint u8 rep other = .ok (term, []))
        : Precedes (fromValue varint term) other := by
      obtain ⟨read, rfl, precedes⟩ :=
        (decoded_of_decodeValue least utf8 rep isTerm legible).precedes
      simpa [fromValue] using precedes
    have again := back rep term (decoded_of_decodeValue least utf8 rep decoded legible).wellTyped
      legible
    refine ⟨again, first, ?_, ?_⟩
    · rintro rfl
      exact first
    · intro isLeast
      exact (first bytes decoded).antisymm (isLeast _ again)

/-- Witness: the text `é` and a zero is read back, with the library functions as they are. -/
theorem valueCodec_correct_text
    : WritesLeast .folly ∧ U8Next.icu.ReadsUtf8
      ∧ decodeValue .folly .icu .string (fromValue .folly (.string [0xC3, 0xA9, 0]))
        = .ok (.string [0xC3, 0xA9, 0], []) := by
  have scalars : ∀ code ∈ [0xE9, 0], Utf8.Scalar code := by
    simp [Utf8.Scalar]
  have legible : Legible (Utf8.encodeAll [0xE9, 0]) := by
    refine ⟨_, fun code member => ⟨scalars code member, ?_⟩, rfl⟩
    revert code
    simp [Truncated]
  obtain ⟨back, -⟩ :=
    valueCodec_correct .folly .icu folly_writesLeast U8Next.icu_readsUtf8
  exact ⟨folly_writesLeast, U8Next.icu_readsUtf8, back .string _ (.string scalars) legible⟩

/-- A number may be read from more bytes than are written for it, and the code point U+10000 is
taken for zero, so that the zeros at the end of the string are one too many.
-/
theorem valueCodec_not_exact
    : (¬ ∀ rep bytes term, decodeValue .folly .icu rep bytes = .ok (term, []) →
          fromValue .folly term = bytes)
      ∧ ¬ ∀ rep term, WellTyped rep term →
          decodeValue .folly .icu rep (fromValue .folly term) = .ok (term, []) := by
  constructor
  · intro exact
    have same := exact .nat [128, 0] (.nat 0) rfl
    exact absurd same (by decide)
  · intro back
    have wellTyped : WellTyped .string (.string (Utf8.encodeAll [0x10000])) :=
      .string (by simp [Utf8.Scalar])
    have read := back .string _ wellTyped
    have actual : decodeValue .folly .icu .string
        (fromValue .folly (.string (Utf8.encodeAll [0x10000])))
          = .ok (.string [0xF0, 0x90, 0x80], [0]) := rfl
    rw [actual] at read
    simp at read

end ValueCodec

end Glean.RTS
