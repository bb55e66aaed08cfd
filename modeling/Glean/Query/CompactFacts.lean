import Mathlib.Algebra.Group.Int.Defs
import Glean.Library.CompactProtocol
import Glean.Query.EvolveValues
import Glean.Query.FactEncoding

/-! Query results in the compact encoding are structures of Thrift in the compact protocol. -/

namespace Glean.Schema

open Glean.RTS ValueCodec
open CompactProtocol (Kind Field header writeVarint writeInt zigzag writeFieldHeader writeListHeader)

namespace RtsType

mutual

/-- The type has optional values as fields of records only, and there are not more fields than can be
counted.
-/
def Encodable : RtsType → Prop
  | .byte | .nat | .string | .enumerated _ | .boolean | .predicate _ => True
  | .array element => element.Encodable
  | .record fields => fields.length < 2 ^ 63 ∧ fieldsEncodable fields
  | .sum fields => fields.length < 2 ^ 63 ∧ altsEncodable fields
  | .namedType _ expanded => expanded.Encodable
  | .maybe _ => False

def fieldsEncodable : List FieldDef → Prop
  | [] => True
  | .mk _ (.maybe type) :: fields => type.Encodable ∧ fieldsEncodable fields
  | .mk _ type :: fields => type.Encodable ∧ fieldsEncodable fields

def altsEncodable : List FieldDef → Prop
  | [] => True
  | .mk _ type :: fields => type.Encodable ∧ altsEncodable fields

end

end RtsType

/-- The type in Thrift. -/
def thriftKind : RtsType → Kind
  | .byte => .byte
  | .nat => .int .i64
  | .string => .binary
  | .array .byte => .binary
  | .array _ => .list
  | .record _ | .sum _ | .maybe _ | .predicate _ => .struct
  | .namedType _ expanded => thriftKind expanded
  | .enumerated _ => .int .i32
  | .boolean => .bool

section Values

variable (structs : Id → Option CompactProtocol.Value)

def referenceStruct (id : Id) : CompactProtocol.Value := .struct [.mk 1 (.int .i64 (toInt64 id))]

mutual

/-- The value in Thrift, where some facts are structures with their contents. -/
def thriftValue : RtsType → Term → CompactProtocol.Value
  | .byte, .byte byte => .byte byte
  | .nat, .nat number => .int .i64 (toInt64 number)
  | .string, .string text => .binary text
  | .array .byte, .byteArray bytes => .binary bytes
  | .array element, term =>
      .list (thriftKind element) (((elementsOf term).getD []).map (thriftValue element))
  | .record fields, .tuple terms => .struct (thriftFields 1 fields terms)
  | .sum fields, .alt selector term => .struct (thriftAlt (selector + 1) fields selector term)
  | .namedType _ expanded, term => thriftValue expanded term
  | .enumerated _, .alt selector _ => .int .i32 selector
  | .boolean, .alt selector _ => .bool (selector ≠ 0)
  | .predicate _, .ref id => (structs id).getD (referenceStruct id)
  | _, _ => .struct []

/-- The fields that are present, with their numbers. -/
def thriftFields (number : Nat) : List FieldDef → List Term → List Field
  | .mk _ (.maybe type) :: fields, .alt selector term :: terms =>
      if selector = 0 then
        thriftFields (number + 1) fields terms
      else
        .mk number (thriftValue type term) :: thriftFields (number + 1) fields terms
  | .mk _ type :: fields, term :: terms =>
      .mk number (thriftValue type term) :: thriftFields (number + 1) fields terms
  | _, _ => []

/-- The alternative at an index, as a field with a number. -/
def thriftAlt (number : Nat) : List FieldDef → Nat → Term → List Field
  | [], _, _ => []
  | .mk _ type :: _, 0, term => [.mk number (thriftValue type term)]
  | _ :: fields, index + 1, term => thriftAlt number fields index term

end

/-- A fact with its id, key and value, which is left out where there is none. -/
def factStruct (details : PredicateDetails) (fid : Id) (key value : Term) : CompactProtocol.Value :=
  .struct (.mk 1 (.int .i64 (toInt64 fid)) :: .mk 2 (thriftValue structs details.keyType key) ::
    match details.valueType with
    | .record [] => []
    | valueType => [.mk 3 (thriftValue structs valueType value)])

end Values

/-- The numbers of the writer are those of the protocol. -/
structure WritesVarints (varint : Varint) : Prop where
  encodeVarint : ∀ number < 2 ^ 64, varint.encodeVarint number = writeVarint number

theorem encodeBytes_eq_writeVarint {bytes number : Nat} (small : number < 128 ^ (bytes + 1))
    : Varint.encodeBytes (bytes + 1) number = writeVarint number := by
  induction bytes generalizing number with
  | zero =>
      have isLast : number < 128 := by omega
      rw [Varint.encodeBytes, writeVarint, if_pos isLast, if_pos isLast]
  | succ bytes ih =>
      rw [Varint.encodeBytes, writeVarint]
      split
      next => rfl
      next =>
        have smaller : number / 128 < 128 ^ (bytes + 1) := by
          rw [Nat.pow_succ] at small
          exact Nat.div_lt_of_lt_mul (by omega)
        rw [ih smaller]

theorem folly_writesVarints : WritesVarints .folly where
  encodeVarint number small := encodeBytes_eq_writeVarint (by omega : number < 128 ^ (9 + 1))

theorem header_or {high low : Nat} (lowSmall : low < 16)
    : Fin.ofNat 256 (high * 16 ||| low) = header high low := by
  have isSum : high * 16 ||| low = high * 16 + low := by
    have shifted := Nat.shiftLeft_add_eq_or_of_lt (i := 4) lowSmall high
    rw [Nat.shiftLeft_eq] at shifted
    exact shifted.symm
  rw [isSum, header]

section Numbers

variable {varint : Varint} (writes : WritesVarints varint)

include writes in
theorem encodeZigZag_eq {number : Int} (low : -2 ^ 63 ≤ number) (high : number < 2 ^ 63)
    : encodeZigZag varint number = writeInt number := by
  have isZigzag : encodeZigZagWord number = zigzag number := by
    unfold encodeZigZagWord zigzag
    split
    next => omega
    next => omega
  have small : zigzag number < 2 ^ 64 := by
    rw [← isZigzag]
    exact Nat.mod_lt _ (by decide)
  rw [encodeZigZag, isZigzag, writes.encodeVarint _ small, writeInt]

theorem toInt64_bounds {word : Nat} (small : word < 2 ^ 64)
    : -2 ^ 63 ≤ toInt64 word ∧ toInt64 word < 2 ^ 63 := by
  unfold toInt64
  split
  next => omega
  next => omega

/-- The header of a field that comes behind the one before it. -/
theorem compactFieldHeader_eq (writes : WritesVarints varint) {previous : Option Nat}
    {number code : Nat} (later : previous.getD 0 < number) (counted : number < 2 ^ 63)
    (isCode : code < 16)
    : compactFieldHeader varint previous number code
      = writeFieldHeader (previous.getD 0 : Nat) number code := by
  obtain ⟨distance, rfl⟩ := Nat.exists_eq_add_of_lt later
  have isDelta
      : ((previous.getD 0 + distance + 1 : Nat) : Int) - (previous.getD 0 : Nat)
        = (distance + 1 : Nat) := by
    omega
  unfold compactFieldHeader writeFieldHeader
  simp only [isDelta]
  by_cases near : distance + 1 ≤ 15
  · have small : (((distance + 1 : Nat) : Int) % 16).toNat = distance + 1 := by omega
    rw [if_pos (by omega), if_pos (by omega), small, header_or isCode, Int.toNat_natCast]
  · have isHeader : Fin.ofNat 256 code = header 0 code := by
      rw [header, Nat.zero_mul, Nat.zero_add]
    rw [if_neg (by omega), if_neg (by omega), isHeader, encodeZigZag_eq writes (by omega) (by omega)]

theorem code_thriftKind {type : RtsType} (encodable : type.Encodable)
    : thriftType type = .ok (thriftKind type).code := by
  match type with
  | .byte | .nat | .string | .record _ | .sum _ | .enumerated _ | .boolean | .predicate _ => rfl
  | .namedType _ expanded => exact @code_thriftKind expanded encodable
  | .maybe _ => exact encodable.elim
  | .array element => cases element <;> rfl

theorem compactArrayHeader_eq (writes : WritesVarints varint) {element : RtsType}
    (encodable : element.Encodable) {size : Nat} (small : size < 2 ^ 64)
    : (compactEncoder varint).encArrayBegin element size
      = .ok (writeListHeader size (thriftKind element)) := by
  have isCode := (thriftKind element).code_lt
  simp only [compactEncoder, code_thriftKind encodable, Outcome.ok_bind, Outcome.pure_eq,
    writeListHeader]
  split
  next few =>
    rw [Nat.mod_eq_of_lt (by omega), header_or isCode]
  next =>
    have many : Fin.ofNat 256 (0xF0 ||| (thriftKind element).code)
        = header 15 (thriftKind element).code := @header_or 15 _ isCode
    rw [many, writes.encodeVarint size small]

end Numbers

/-- Expanded facts are structures. -/
structure AreStructs (expanded : Id → Option Bytes) (structs : Id → Option CompactProtocol.Value)
    : Prop where
  present
    : ∀ id bytes, expanded id = some bytes →
        ∃ fields, structs id = some (.struct fields) ∧ CompactProtocol.FieldsValid fields
          ∧ bytes = CompactProtocol.write (.struct fields)
  absent : ∀ id, expanded id = none → structs id = none

section Encoder

variable (varint : Varint)

@[simp]
theorem compactEncoder_encArraySep : (compactEncoder varint).encArraySep = [] := rfl

@[simp]
theorem compactEncoder_encArrayEnd : (compactEncoder varint).encArrayEnd = [] := rfl

@[simp]
theorem compactEncoder_encObjectBegin : (compactEncoder varint).encObjectBegin = [] := rfl

@[simp]
theorem compactEncoder_encObjectSep : (compactEncoder varint).encObjectSep = [] := rfl

@[simp]
theorem compactEncoder_encObjectEnd : (compactEncoder varint).encObjectEnd = [0] := rfl

@[simp]
theorem compactEncoder_encObjectField {previous : Option Nat} {number : Nat} {name : Name}
    {type : RtsType} {enc : Fill}
    : (compactEncoder varint).encObjectField previous number name type enc
      = compactField varint previous number type enc :=
  rfl

end Encoder

section Values

variable (varint : Varint) (expanded : Id → Option Bytes)
  (structs : Id → Option CompactProtocol.Value)

/-- What the encoder writes for a term is the value in Thrift. -/
structure Serializes (type : RtsType) (term : Term) : Prop where
  kind : (thriftValue structs type term).kind = thriftKind type
  valid : (thriftValue structs type term).Valid
  encodes
    : ∀ rest, encode varint expanded (compactEncoder varint) type (ValueCodec.encodeValue varint term ++ rest)
        = .ok (CompactProtocol.write (thriftValue structs type term), rest)

variable {varint expanded structs} {type : RtsType} {term : Term}

theorem packed_selector {selector : Nat} (small : selector < 2 ^ 63) (rest : Bytes)
    : dSelector varint (varint.encodeVarint selector ++ rest) = .ok (selector, rest) :=
  packed_encodeVarint (by omega) rest

/-- A choice without content is a selector. -/
theorem unit_term {fields : List Rep} (areUnits : ∀ field ∈ fields, field = .tuple [])
    (typed : WellTyped (.sum fields) term)
    : ∃ selector < 2 ^ 63, term = .alt selector (.tuple [])
        ∧ ValueCodec.encodeValue varint term = varint.encodeVarint selector := by
  cases typed with
  | @alt _ selector field _ small isField inside =>
      obtain rfl := areUnits field (List.mem_of_getElem? isField)
      cases inside with
      | tuple all =>
          cases all
          refine ⟨selector, small, rfl, ?_⟩
          rw [ValueCodec.encodeValue, ValueCodec.encodeValue, ValueCodec.encodeValues,
            List.append_nil]

/-- A boolean is a selector without content. -/
theorem boolean_term (type : RtsType) (isBool : thriftKind type = .bool)
    (typed : WellTyped type.repType term)
    : ∃ selector < 2 ^ 63, ValueCodec.encodeValue varint term = varint.encodeVarint selector
        ∧ thriftValue structs type term = .bool (selector ≠ 0) := by
  match type with
  | .byte | .nat | .string | .record _ | .sum _ | .enumerated _ | .predicate _ | .maybe _ =>
      cases isBool
  | .array element => cases element <;> cases isBool
  | .namedType _ expandedType =>
      obtain ⟨selector, small, encoded, isValue⟩ := boolean_term expandedType isBool typed
      exact ⟨selector, small, encoded, isValue⟩
  | .boolean =>
      have areUnits (field : Rep) (member : field ∈ [Rep.tuple [], Rep.tuple []])
          : field = .tuple [] := by
        rcases List.mem_pair.mp member with rfl | rfl
        · rfl
        · rfl
      obtain ⟨selector, small, rfl, encoded⟩ := @unit_term varint term _ areUnits typed
      exact ⟨selector, small, encoded, rfl⟩

theorem compactField_eq (writes : WritesVarints varint) {previous : Option Nat} {number : Nat}
    (later : previous.getD 0 < number) (counted : number < 2 ^ 63) (encodable : type.Encodable)
    (typed : WellTyped type.repType term) (serializes : Serializes varint expanded structs type term)
    (rest : Bytes)
    : compactField varint previous number type (encode varint expanded (compactEncoder varint) type)
        (ValueCodec.encodeValue varint term ++ rest)
      = .ok (CompactProtocol.writeField (previous.getD 0 : Nat) number (thriftValue structs type term),
          rest) := by
  obtain ⟨notZero, isCode⟩ := (thriftValue structs type term).code_bounds
  rw [CompactProtocol.writeField, ← compactFieldHeader_eq writes later counted isCode]
  unfold compactField
  rw [code_thriftKind encodable, Outcome.ok_bind]
  by_cases isBool : thriftKind type = .bool
  · obtain ⟨selector, small, encoded, isValue⟩ :=
      @boolean_term varint structs term type isBool typed
    have codeOf : (boolByte (selector ≠ 0)).val = CompactProtocol.boolCode (selector ≠ 0) := by
      by_cases isZero : selector = 0
      · rw [isZero]
        rfl
      · simp only [boolByte, CompactProtocol.boolCode, isZero, ne_eq, not_false_eq_true,
          decide_true, if_true]
        rfl
    have notLarge : ¬ 2 < CompactProtocol.boolCode (selector ≠ 0) := by
      unfold CompactProtocol.boolCode
      split <;> omega
    rw [serializes.kind, isBool, if_pos rfl, isValue, encoded]
    simp only [CompactProtocol.Kind.code, packed_selector small, Outcome.ok_bind, codeOf,
      Outcome.pure_eq, if_neg notLarge, CompactProtocol.Value.code]
  · have notBool : (thriftValue structs type term).kind ≠ .bool := serializes.kind ▸ isBool
    have sameCode : (thriftValue structs type term).code = (thriftKind type).code := by
      rw [CompactProtocol.code_of_ne_bool notBool, serializes.kind]
    have large : 2 < (thriftKind type).code := by
      cases isKind : thriftKind type with
      | bool => exact absurd isKind isBool
      | int kind => cases kind <;> decide
      | byte | binary | list | struct => decide
    rw [if_neg notBool, sameCode]
    split
    next isOne => omega
    next =>
      simp only [Outcome.ok_bind, Outcome.pure_eq, if_pos large, serializes.encodes]

/-- The id of a fact as the first field. -/
theorem compactField_id (writes : WritesVarints varint) {id : Id} (isWord : id < 2 ^ 64)
    (input : Bytes)
    : compactField varint none 1 .nat (Fill.write ((compactEncoder varint).encNat id)) input
      = .ok (CompactProtocol.writeField 0 1 (.int .i64 (toInt64 id)), input) := by
  obtain ⟨low, high⟩ := toInt64_bounds isWord
  have head := @compactFieldHeader_eq varint writes none 1 6 (by decide) (by decide) (by decide)
  simp only [compactField, thriftType, Outcome.ok_bind, Outcome.pure_eq, Fill.write, head, compactEncoder,
    encodeZigZag_eq writes low high]
  rfl

section Elements

variable {enc : Fill} {value : Term → CompactProtocol.Value} {terms : List Term}

/-- Nothing stands between the elements. -/
theorem encodeElements_succ (size : Nat)
    : encodeElements (compactEncoder varint) enc (size + 1)
      = enc.andThen (encodeElements (compactEncoder varint) enc size) := by
  funext input
  rw [encodeElements]
  generalize enc.andThen (encodeElements (compactEncoder varint) enc size) = others
  simp only [Fill.andThen, Fill.write, compactEncoder_encArraySep, Outcome.ok_bind, List.nil_append]
  cases others input <;> rfl

theorem encodeElements_eq
    (each
      : ∀ term ∈ terms, ∀ rest,
          enc (ValueCodec.encodeValue varint term ++ rest) = .ok (CompactProtocol.write (value term), rest))
    (rest : Bytes)
    : encodeElements (compactEncoder varint) enc terms.length (ValueCodec.encodeValues varint terms ++ rest)
      = .ok (CompactProtocol.writeAll (terms.map value), rest) := by
  induction terms with
  | nil => rfl
  | cons term terms ih =>
      rw [List.forall_mem_cons] at each
      simp only [List.length_cons, encodeElements_succ, ValueCodec.encodeValues,
        List.append_assoc, Fill.andThen, Outcome.ok_bind, each.1, ih each.2, Outcome.pure_eq,
        List.map_cons, CompactProtocol.writeAll]

/-- The elements of an array are those of a list. -/
theorem encodeArray_eq (writes : WritesVarints varint) {element : RtsType}
    (encodable : element.Encodable) (small : terms.length < 2 ^ 64)
    (each
      : ∀ term ∈ terms, ∀ rest,
          enc (ValueCodec.encodeValue varint term ++ rest) = .ok (CompactProtocol.write (value term), rest))
    (rest : Bytes)
    : encodeArray (compactEncoder varint) element enc terms.length
        (ValueCodec.encodeValues varint terms ++ rest)
      = .ok (CompactProtocol.write (.list (thriftKind element) (terms.map value)), rest) := by
  have all := encodeElements_eq each rest
  rw [encodeArray, compactArrayHeader_eq writes encodable small, Outcome.ok_bind,
    CompactProtocol.write, List.length_map]
  cases terms with
  | nil =>
      simp only [List.length_nil, Fill.write, ValueCodec.encodeValues, List.nil_append,
        Outcome.ok_bind, Outcome.pure_eq, compactEncoder_encArrayEnd, List.append_nil, List.map_nil,
        CompactProtocol.writeAll]
  | cons term terms =>
      rw [List.length_cons, encodeElements_succ] at all
      simp only [List.length_cons, all, Outcome.ok_bind, compactEncoder_encArrayEnd, List.append_nil,
        Outcome.pure_eq]

end Elements

end Values

section Types

variable {varint : Varint} {expanded : Id → Option Bytes}
  {structs : Id → Option CompactProtocol.Value}

theorem valid_map {kind : Kind} {value : Term → CompactProtocol.Value} {terms : List Term}
    (each : ∀ term ∈ terms, (value term).kind = kind ∧ (value term).Valid)
    : CompactProtocol.AllValid kind (terms.map value) := by
  induction terms with
  | nil => trivial
  | cons term terms ih =>
      rw [List.forall_mem_cons] at each
      exact ⟨each.1.1, each.1.2, ih each.2⟩

theorem encodeValues_bytes (bytes : Bytes)
    : ValueCodec.encodeValues varint (bytes.map .byte) = bytes := by
  induction bytes with
  | nil => rfl
  | cons byte bytes ih =>
      rw [List.map_cons, ValueCodec.encodeValues, ih, ValueCodec.encodeValue, List.singleton_append]

theorem length_le_encodeValues {terms : List Term} {term : Term} (member : term ∈ terms)
    : (ValueCodec.encodeValue varint term).length ≤ (ValueCodec.encodeValues varint terms).length := by
  induction terms with
  | nil => cases member
  | cons first terms ih =>
      rw [ValueCodec.encodeValues, List.length_append]
      rcases List.mem_cons.mp member with rfl | later
      · omega
      · have := ih later
        omega

/-- An array of elements that are not written as bytes is a length and its elements. -/
theorem exists_elements {element : Rep} {term : Term} (typed : WellTyped (.array element) term)
    : ∃ terms, elementsOf term = some terms ∧ terms.length < 2 ^ 64
        ∧ ValueCodec.encodeValue varint term
            = varint.encodeVarint terms.length ++ ValueCodec.encodeValues varint terms
        ∧ ∀ term ∈ terms, WellTyped element term := by
  cases typed with
  | array _ small all => exact ⟨_, rfl, by omega, rfl, mem_wellTyped_replicate.mp all⟩
  | @byteArray bytes small =>
      refine ⟨bytes.map .byte, rfl, by rwa [List.length_map], ?_, ?_⟩
      · rw [List.length_map, encodeValues_bytes, ValueCodec.encodeValue]
      · intro term member
        obtain ⟨byte, -, rfl⟩ := List.mem_map.mp member
        exact .byte

/-- An array, unless it is one of bytes, is a list. -/
theorem serializes_array (writes : WritesVarints varint) {element : RtsType}
    (notByte : element ≠ .byte) (encodable : element.Encodable) {term : Term}
    (typed : WellTyped (RtsType.array element).repType term)
    (counted : (ValueCodec.encodeValue varint term).length < 2 ^ 63)
    (each
      : ∀ term, WellTyped element.repType term →
          (ValueCodec.encodeValue varint term).length < 2 ^ 63 →
          Serializes varint expanded structs element term)
    : Serializes varint expanded structs (.array element) term := by
  obtain ⟨terms, areTerms, small, encoded, allTyped⟩ := @exists_elements varint _ _ typed
  rw [encoded, List.length_append] at counted
  have serializes (term : Term) (member : term ∈ terms)
      : Serializes varint expanded structs element term := by
    have shorter := @length_le_encodeValues varint _ _ member
    exact each term (allTyped term member) (by omega)
  have isKind : thriftKind (.array element) = .list := by
    cases element with
    | byte => exact absurd rfl notByte
    | nat | string | array | record | sum | predicate | namedType | maybe | enumerated | boolean =>
        rfl
  have isValue
      : thriftValue structs (.array element) term
        = .list (thriftKind element) (terms.map (thriftValue structs element)) := by
    have unfolded
        : thriftValue structs (.array element) term
          = .list (thriftKind element)
              (((elementsOf term).getD []).map (thriftValue structs element)) := by
      cases element with
      | byte => exact absurd rfl notByte
      | nat | string | array | record | sum | predicate | namedType | maybe | enumerated
      | boolean => rfl
    rw [unfolded, areTerms, Option.getD_some]
  have unfolded (input : Bytes)
      : encode varint expanded (compactEncoder varint) (.array element) input
        = (do
          let counted ← Input.packed varint input
          encodeArray (compactEncoder varint) element
            (encode varint expanded (compactEncoder varint) element) counted.1 counted.2) := by
    cases element with
    | byte => exact absurd rfl notByte
    | nat | string | array | record | sum | predicate | namedType | maybe | enumerated | boolean =>
        rfl
  refine ⟨by rw [isValue, isKind]; rfl, ?_, fun rest => ?_⟩
  · rw [isValue]
    exact valid_map fun term member => ⟨(serializes term member).kind, (serializes term member).valid⟩
  · have elements := encodeArray_eq writes encodable small
      (fun term member => (serializes term member).encodes) rest
    rw [unfolded, encoded, List.append_assoc, packed_encodeVarint small, Outcome.ok_bind, isValue]
    exact elements

theorem serializes_byteArray (writes : WritesVarints varint) {term : Term}
    (typed : WellTyped (RtsType.array .byte).repType term)
    : Serializes varint expanded structs (.array .byte) term := by
  cases typed with
  | array notByte => cases notByte
  | @byteArray bytes small =>
      refine ⟨rfl, trivial, fun rest => ?_⟩
      have isWritten : CompactProtocol.write (thriftValue structs (.array .byte) (.byteArray bytes))
          = varint.encodeVarint bytes.length ++ bytes := by
        rw [writes.encodeVarint _ small]
        rfl
      simp only [isWritten, encode, ValueCodec.encodeValue, List.append_assoc,
        packed_encodeVarint small, Outcome.ok_bind, dBytes_append, Outcome.pure_eq, compactEncoder]

theorem serializes_string (writes : WritesVarints varint) {text : Bytes}
    (small : text.length < 2 ^ 64)
    : Serializes varint expanded structs .string (.string text) := by
  refine ⟨rfl, trivial, fun rest => ?_⟩
  have sameSize : (mangleString text ++ rest).take (mangleString text).length = mangleString text :=
    List.take_left
  have others : (mangleString text ++ rest).drop (mangleString text).length = rest := List.drop_left
  simp only [encode, ValueCodec.encodeValue, dTrustedStringRef, skipTrustedString_mangleString,
    Outcome.ok_bind, Outcome.pure_eq, sameSize, others, compactEncoder,
    demangleTrustedString_mangleString, if_true, thriftValue, CompactProtocol.write,
    writes.encodeVarint _ small]

section Fields

variable {name : Name} {type : RtsType} {fields : List FieldDef} {previous : Option Nat}
  {number : Nat} {term : Term} {terms : List Term}

theorem Fill.andThen_nil (fill : Fill) : fill.andThen (Fill.write []) = fill := by
  funext input
  simp only [Fill.andThen, Fill.write, Outcome.ok_bind, List.append_nil]
  cases fill input <;> rfl

/-- Nothing stands between the fields. -/
theorem encodeField_eq (enc : Fill)
    : encodeField (compactEncoder varint) previous number name type enc
      = compactField varint previous number type enc := by
  funext input
  simp only [encodeField, Fill.andThen, Fill.write, compactEncoder_encObjectSep, ite_self,
    Outcome.ok_bind, List.nil_append, compactEncoder_encObjectField]
  cases compactField varint previous number type enc input <;> rfl

theorem encodeFields_of_ne (notMaybe : ∀ inner, type ≠ .maybe inner) (input : Bytes)
    : encodeFields varint expanded (compactEncoder varint) previous number (.mk name type :: fields)
        input
      = ((compactField varint previous number type
            (encode varint expanded (compactEncoder varint) type)).andThen
          (encodeFields varint expanded (compactEncoder varint) (some number) (number + 1) fields))
          input := by
  rw [← @encodeField_eq varint name]
  cases type with
  | maybe inner => exact absurd rfl (notMaybe inner)
  | byte | nat | string | array | record | sum | predicate | namedType | enumerated | boolean => rfl

theorem thriftFields_of_ne (notMaybe : ∀ inner, type ≠ .maybe inner)
    : thriftFields structs number (.mk name type :: fields) (term :: terms)
      = .mk number (thriftValue structs type term)
        :: thriftFields structs (number + 1) fields terms := by
  match type with
  | .maybe inner => exact absurd rfl (notMaybe inner)
  | .byte | .nat | .string | .array _ | .record _ | .sum _ | .predicate _ | .namedType _ _
  | .enumerated _ | .boolean => rfl

/-- What the encoder writes for fields, up to the zero behind them. -/
structure SerializesFields (varint : Varint) (structFields : List Field) (previous : Option Nat)
    (fill : Fill) (encoded : Bytes)
    : Prop where
  valid : CompactProtocol.FieldsValid structFields
  encodes
    : ∃ content, content ++ [0] = CompactProtocol.writeFields (previous.getD 0 : Nat) structFields
        ∧ ∀ rest, fill (encoded ++ rest) = .ok (content, rest)

/-- A field that is present, and those behind it. -/
theorem serializesFields_cons (writes : WritesVarints varint) (later : previous.getD 0 < number)
    (counted : number < 2 ^ 63) (encodable : type.Encodable) (typed : WellTyped type.repType term)
    (serializes : Serializes varint expanded structs type term) {structFields : List Field}
    {fill : Fill} {encoded : Bytes}
    (others : SerializesFields varint structFields (some number) fill encoded)
    : SerializesFields varint (.mk number (thriftValue structs type term) :: structFields) previous
        ((compactField varint previous number type
          (encode varint expanded (compactEncoder varint) type)).andThen fill)
        (ValueCodec.encodeValue varint term ++ encoded) := by
  obtain ⟨content, isContent, encodes⟩ := others.encodes
  refine ⟨⟨serializes.valid, others.valid⟩, ?_⟩
  have field := compactField_eq writes later counted encodable typed serializes
  refine ⟨CompactProtocol.writeField (previous.getD 0 : Nat) number (thriftValue structs type term)
      ++ content, ?_, fun rest => ?_⟩
  · rw [CompactProtocol.writeFields_cons, List.append_assoc, isContent]
    rfl
  · simp only [Fill.andThen, List.append_assoc, field, Outcome.ok_bind, encodes, Outcome.pure_eq]

end Fields

/-- An optional value is none or one of the type. -/
theorem exists_maybe {inner field : Rep} {selector : Nat}
    (isField : [Rep.tuple [], inner][selector]? = some field)
    : (selector = 0 ∧ field = .tuple []) ∨ (selector = 1 ∧ field = inner) := by
  match selector with
  | 0 => exact .inl ⟨rfl, (Option.some.inj isField).symm⟩
  | 1 => exact .inr ⟨rfl, (Option.some.inj isField).symm⟩
  | _ + 2 => cases isField

mutual

/-- Whatever is written for a term is its value in Thrift. -/
theorem serializes (writes : WritesVarints varint) (areStructs : AreStructs expanded structs)
    (type : RtsType) (encodable : type.Encodable) (term : Term) (typed : WellTyped type.repType term)
    (small : (ValueCodec.encodeValue varint term).length < 2 ^ 63)
    : Serializes varint expanded structs type term := by
  match type with
  | .byte =>
      cases typed
      exact ⟨rfl, trivial, fun _ => rfl⟩
  | .nat =>
      cases typed with
      | @nat number isWord =>
          refine ⟨rfl, trivial, fun rest => ?_⟩
          obtain ⟨low, high⟩ := toInt64_bounds isWord
          simp only [encode, ValueCodec.encodeValue, packed_encodeVarint isWord, Outcome.ok_bind,
            Outcome.pure_eq, compactEncoder, encodeZigZag_eq writes low high, thriftValue,
            CompactProtocol.write]
  | .string =>
      cases typed with
      | @string codes _ =>
          rw [ValueCodec.encodeValue] at small
          have shorter := length_le_mangleString (Utf8.encodeAll codes)
          exact serializes_string writes (by omega)
  | .array .byte => exact serializes_byteArray writes typed
  | .array element =>
      by_cases isByte : element = .byte
      · subst isByte
        exact serializes_byteArray writes typed
      · exact serializes_array writes isByte encodable typed small fun term typed small =>
          serializes writes areStructs element encodable term typed small
  | .record fields =>
      cases typed with
      | @tuple _ terms all =>
          rw [ValueCodec.encodeValue] at small
          obtain ⟨valid, content, isContent, encodes⟩ := serializesFields writes areStructs fields
            encodable.2 none 1 Nat.one_pos (by have := encodable.1; omega) terms all small
          refine ⟨rfl, valid, fun rest => ?_⟩
          have isWritten : CompactProtocol.write (.struct (thriftFields structs 1 fields terms))
              = content ++ [0] := isContent.symm
          simp only [encode, ValueCodec.encodeValue, encodes, Outcome.ok_bind, Outcome.pure_eq,
            compactEncoder_encObjectBegin, compactEncoder_encObjectEnd, List.nil_append,
            thriftValue, isWritten]
  | .sum fields =>
      cases typed with
      | @alt _ selector field inner isSmall isField inside =>
          rw [ValueCodec.encodeValue, List.length_append] at small
          have inFields := (List.getElem?_eq_some_iff.mp isField).1
          rw [length_fieldReps] at inFields
          obtain ⟨valid, content, isContent, encodes⟩ := serializesAlt writes areStructs fields
            encodable.2 (selector + 1) (Nat.succ_pos _) (by have := encodable.1; omega) selector
            field isField inner inside (by omega)
          refine ⟨rfl, valid, fun rest => ?_⟩
          have isWritten
              : CompactProtocol.write (.struct (thriftAlt structs (selector + 1) fields selector inner))
                = content ++ [0] :=
            isContent.symm
          simp only [encode, ValueCodec.encodeValue, List.append_assoc, packed_selector isSmall,
            encodes, Outcome.ok_bind, Outcome.pure_eq, compactEncoder_encObjectBegin,
            compactEncoder_encObjectEnd, List.nil_append, thriftValue, isWritten]
  | .namedType _ expandedType =>
      obtain ⟨kind, valid, encodes⟩ := serializes writes areStructs expandedType encodable term typed
        small
      exact ⟨kind, valid, encodes⟩
  | .enumerated names =>
      obtain ⟨selector, isSmall, rfl, isEncoded⟩ :=
        @unit_term varint term (names.map fun _ => .tuple [])
          (fun field member => (List.mem_map.mp member).elim fun _ isUnit => isUnit.2.symm) typed
      refine ⟨rfl, trivial, fun rest => ?_⟩
      have isNumber : toInt64 selector = selector := if_pos isSmall
      simp only [encode, isEncoded, packed_selector isSmall, Outcome.ok_bind, Outcome.pure_eq,
        compactEncoder, isNumber, encodeZigZag_eq writes (by omega : -2 ^ 63 ≤ (selector : Int))
          (by omega : (selector : Int) < 2 ^ 63), thriftValue, CompactProtocol.write]
  | .maybe _ => exact encodable.elim
  | .boolean =>
      obtain ⟨selector, isSmall, isEncoded, isValue⟩ :=
        @boolean_term varint structs term .boolean rfl typed
      refine ⟨by rw [isValue]; rfl, by rw [isValue]; trivial, fun rest => ?_⟩
      have isByte : boolByte (selector ≠ 0)
          = Fin.ofNat 256 (CompactProtocol.boolCode (selector ≠ 0)) := by
        unfold boolByte CompactProtocol.boolCode
        split <;> rfl
      simp only [encode, isEncoded, packed_selector isSmall, Outcome.ok_bind, Outcome.pure_eq,
        isValue, CompactProtocol.write, compactEncoder, isByte]
  | .predicate pred =>
      cases typed with
      | @ref _ id isWord =>
          have readsId (rest : Bytes) := @packed_encodeVarint varint id isWord rest
          cases isExpanded : expanded id with
          | some bytes =>
              obtain ⟨fields, isStruct, valid, isWritten⟩ := areStructs.present id bytes isExpanded
              have isValue : thriftValue structs (.predicate pred) (.ref id) = .struct fields := by
                rw [thriftValue, isStruct, Option.getD_some]
              refine ⟨by rw [isValue]; rfl, by rw [isValue]; exact valid, fun rest => ?_⟩
              simp only [encode, ValueCodec.encodeValue, readsId, Outcome.ok_bind, isExpanded,
                Outcome.pure_eq, isWritten, isValue]
          | none =>
              have isValue : thriftValue structs (.predicate pred) (.ref id) = referenceStruct id := by
                rw [thriftValue, areStructs.absent id isExpanded, Option.getD_none]
              refine ⟨by rw [isValue]; rfl, by rw [isValue]; exact ⟨trivial, trivial⟩,
                fun rest => ?_⟩
              simp only [encode, ValueCodec.encodeValue, readsId, Outcome.ok_bind, isExpanded,
                encodeReference, compactEncoder_encObjectField, compactField_id writes isWord,
                compactEncoder_encObjectBegin, compactEncoder_encObjectEnd, Outcome.pure_eq,
                List.nil_append, isValue]
              rfl

theorem serializesFields (writes : WritesVarints varint) (areStructs : AreStructs expanded structs)
    (fields : List FieldDef) (encodable : RtsType.fieldsEncodable fields) (previous : Option Nat)
    (number : Nat) (later : previous.getD 0 < number) (counted : number + fields.length ≤ 2 ^ 63)
    (terms : List Term) (typed : WellTypeds (RtsType.fieldReps fields) terms)
    (small : (ValueCodec.encodeValues varint terms).length < 2 ^ 63)
    : SerializesFields varint (thriftFields structs number fields terms) previous
        (encodeFields varint expanded (compactEncoder varint) previous number fields)
        (ValueCodec.encodeValues varint terms) := by
  match fields with
  | [] =>
      cases typed
      exact ⟨trivial, [], rfl, fun _ => rfl⟩
  | .mk name type :: fields =>
      rw [List.length_cons] at counted
      cases typed with
      | @cons _ _ term terms termTyped termsTyped =>
          rw [ValueCodec.encodeValues, List.length_append] at small
          by_cases isMaybe : ∃ inner, type = .maybe inner
          · obtain ⟨inner, rfl⟩ := isMaybe
            have unfolded (input : Bytes)
                : encodeFields varint expanded (compactEncoder varint) previous number
                    (.mk name (.maybe inner) :: fields) input
                  = (do
                    let (selector, rest) ← dSelector varint input
                    if selector = 0 then
                      encodeFields varint expanded (compactEncoder varint) previous (number + 1)
                        fields rest
                    else
                      ((encodeField (compactEncoder varint) previous number name inner
                          (encode varint expanded (compactEncoder varint) inner)).andThen
                        (encodeFields varint expanded (compactEncoder varint) (some number)
                          (number + 1) fields)) rest) :=
              rfl
            cases termTyped with
            | @alt _ selector field content isSmall isField inside =>
                rw [ValueCodec.encodeValue, List.length_append] at small
                rcases exists_maybe isField with ⟨rfl, rfl⟩ | ⟨rfl, rfl⟩
                · -- an absent field
                  cases inside with
                  | tuple all =>
                      cases all
                      obtain ⟨valid, others, isOthers, encodes⟩ := serializesFields writes areStructs
                        fields encodable.2 previous (number + 1) (by omega) (by omega) terms
                        termsTyped (by omega)
                      refine ⟨valid, others, isOthers, fun rest => ?_⟩
                      rw [unfolded, ValueCodec.encodeValues, ValueCodec.encodeValue,
                        ValueCodec.encodeValue, ValueCodec.encodeValues, List.append_nil,
                        List.append_assoc, packed_selector isSmall, Outcome.ok_bind]
                      exact encodes rest
                · have here := serializes writes areStructs inner encodable.1 content inside (by omega)
                  have others := serializesFields writes areStructs fields encodable.2 (some number)
                    (number + 1) (Nat.lt_succ_self number) (by omega) terms termsTyped (by omega)
                  obtain ⟨valid, all, isAll, encodes⟩ :=
                    serializesFields_cons writes later (by omega) encodable.1 inside here others
                  refine ⟨valid, all, isAll, fun rest => ?_⟩
                  rw [unfolded, ValueCodec.encodeValues, ValueCodec.encodeValue, List.append_assoc,
                    List.append_assoc, packed_selector isSmall, Outcome.ok_bind, encodeField_eq,
                    ← List.append_assoc]
                  exact encodes rest
          · have notMaybe (inner : RtsType) : type ≠ .maybe inner := fun same => isMaybe ⟨inner, same⟩
            have isEncodable : type.Encodable ∧ RtsType.fieldsEncodable fields := by
              cases type with
              | maybe inner => exact absurd rfl (notMaybe inner)
              | byte | nat | string | array | record | sum | predicate | namedType | enumerated
              | boolean => exact encodable
            have here := serializes writes areStructs type isEncodable.1 term termTyped (by omega)
            have others := serializesFields writes areStructs fields isEncodable.2 (some number)
              (number + 1) (Nat.lt_succ_self number) (by omega) terms termsTyped (by omega)
            have all := serializesFields_cons writes later (by omega) isEncodable.1 termTyped here
              others
            rw [thriftFields_of_ne notMaybe]
            refine ⟨all.valid, ?_⟩
            obtain ⟨content, isContent, encodes⟩ := all.encodes
            exact ⟨content, isContent, fun rest =>
              (encodeFields_of_ne notMaybe _).trans (encodes rest)⟩

theorem serializesAlt (writes : WritesVarints varint) (areStructs : AreStructs expanded structs)
    (fields : List FieldDef) (encodable : RtsType.altsEncodable fields) (number : Nat)
    (later : 0 < number) (counted : number < 2 ^ 63) (index : Nat) (rep : Rep)
    (isRep : (RtsType.fieldReps fields)[index]? = some rep) (term : Term) (typed : WellTyped rep term)
    (small : (ValueCodec.encodeValue varint term).length < 2 ^ 63)
    : SerializesFields varint (thriftAlt structs number fields index term) none
        (encodeAlt varint expanded (compactEncoder varint) number fields index)
        (ValueCodec.encodeValue varint term) := by
  match fields, index with
  | [], _ => cases isRep
  | .mk name type :: fields, 0 =>
      cases isRep
      have here := serializes writes areStructs type encodable.1 term typed small
      have noOthers : SerializesFields varint [] (some number) (Fill.write []) [] :=
        ⟨trivial, [], rfl, fun _ => rfl⟩
      obtain ⟨valid, content, isContent, encodes⟩ := @serializesFields_cons _ _ _ _ none _ _ writes
        later counted encodable.1 typed here _ _ _ noOthers
      refine ⟨valid, content, isContent, fun rest => ?_⟩
      have field := encodes rest
      rw [List.append_nil, Fill.andThen_nil] at field
      rw [encodeAlt, encodeField_eq]
      exact field
  | .mk _ _ :: fields, index + 1 =>
      exact serializesAlt writes areStructs fields encodable.2 number later counted index rep isRep
        term typed small

end

end Types

/-- A fact of a predicate whose types can be encoded. A key or value is a byte string, whose length is
a signed number.
-/
structure EncodableFact (varint : Varint) (details : PredicateDetails) (fid : Id) (key value : Term)
    : Prop where
  isWord : fid < 2 ^ 64
  keyType : details.keyType.Encodable
  valueType : details.valueType.Encodable
  keyTyped : WellTyped details.keyType.repType key
  valueTyped : WellTyped details.valueType.repType value
  keySize : (fromValue varint key).length < 2 ^ 63
  valueSize : (fromValue varint value).length < 2 ^ 63

/-- Nested facts are encoded one after the other, each with those before it in place. -/
inductive Expansion (varint : Varint)
    : (Id → Option Bytes) → (Id → Option CompactProtocol.Value) → Prop where
  | empty : Expansion varint (fun _ => none) (fun _ => none)
  | insert {expanded : Id → Option Bytes} {structs : Id → Option CompactProtocol.Value}
    {details : PredicateDetails} {fid : Id} {key value : Term} {bytes : Bytes}
    (before : Expansion varint expanded structs)
    (encodable : EncodableFact varint details fid key value)
    (encoded
      : factToCompact varint expanded details fid (fromValue varint key) (fromValue varint value)
        = .ok bytes)
    : Expansion varint (Function.update expanded fid (some bytes))
        (Function.update structs fid (some (factStruct structs details fid key value)))

section Facts

variable {varint : Varint} {expanded : Id → Option Bytes}
  {structs : Id → Option CompactProtocol.Value} {details : PredicateDetails} {fid : Id}
  {key value : Term}

/-- A fact is encoded as a structure with its id, its key and its value. -/
theorem factToCompact_eq (writes : WritesVarints varint) (areStructs : AreStructs expanded structs)
    (encodable : EncodableFact varint details fid key value)
    : ∃ fields, factStruct structs details fid key value = .struct fields
        ∧ CompactProtocol.FieldsValid fields
        ∧ factToCompact varint expanded details fid (fromValue varint key) (fromValue varint value)
            = .ok (CompactProtocol.write (.struct fields)) := by
  have keySerializes := serializes writes areStructs details.keyType encodable.keyType key
    encodable.keyTyped encodable.keySize
  have valueSerializes := serializes writes areStructs details.valueType encodable.valueType value
    encodable.valueTyped encodable.valueSize
  have idField := compactField_id writes encodable.isWord (ValueCodec.encodeValue varint key)
  have keyField := @compactField_eq varint expanded structs _ _ writes (some 1) 2 (by decide)
    (by decide) encodable.keyType encodable.keyTyped keySerializes []
  have valueField := @compactField_eq varint expanded structs _ _ writes (some 2) 3 (by decide)
    (by decide) encodable.valueType encodable.valueTyped valueSerializes []
  rw [List.append_nil] at keyField valueField
  -- the value is left out when its type is the record without fields
  have isUnit_or
      : (factStruct structs details fid key value
            = .struct [.mk 1 (.int .i64 (toInt64 fid)),
              .mk 2 (thriftValue structs details.keyType key)]
          ∧ details.valueType = .record [])
        ∨ (factStruct structs details fid key value
            = .struct [.mk 1 (.int .i64 (toInt64 fid)),
              .mk 2 (thriftValue structs details.keyType key),
              .mk 3 (thriftValue structs details.valueType value)]
          ∧ details.valueType ≠ .record []) := by
    unfold factStruct
    split
    next isUnit => exact .inl ⟨rfl, isUnit⟩
    next notUnit => exact .inr ⟨rfl, notUnit⟩
  rcases isUnit_or with ⟨isStruct, isUnit⟩ | ⟨isStruct, notUnit⟩
  · refine ⟨_, isStruct, ⟨trivial, keySerializes.valid, trivial⟩, ?_⟩
    simp only [factToCompact, encodeFact, compactEncoder_encObjectField, idField, Outcome.ok_bind,
      fromValue, keyField, compactEncoder_encObjectBegin, compactEncoder_encObjectSep,
      compactEncoder_encObjectEnd, Outcome.pure_eq, List.nil_append, List.append_nil, isUnit]
    rw [CompactProtocol.write, CompactProtocol.writeFields_cons, CompactProtocol.writeFields_cons,
      List.append_assoc]
    rfl
  · refine ⟨_, isStruct, ⟨trivial, keySerializes.valid, valueSerializes.valid, trivial⟩, ?_⟩
    simp only [factToCompact, encodeFact, compactEncoder_encObjectField, idField, Outcome.ok_bind,
      fromValue, keyField, compactEncoder_encObjectBegin, compactEncoder_encObjectSep,
      compactEncoder_encObjectEnd, Outcome.pure_eq, List.nil_append, List.append_nil]
    simp only [valueField, Outcome.ok_bind]
    rw [CompactProtocol.write, CompactProtocol.writeFields_cons, CompactProtocol.writeFields_cons,
      CompactProtocol.writeFields_cons, List.append_assoc, List.append_assoc]
    rfl

theorem Expansion.areStructs (writes : WritesVarints varint)
    (expansion : Expansion varint expanded structs)
    : AreStructs expanded structs := by
  induction expansion with
  | empty => exact ⟨nofun, fun _ _ => rfl⟩
  | @insert expanded structs details fid key value bytes _ encodable encoded before =>
      obtain ⟨fields, isStruct, valid, isEncoded⟩ := factToCompact_eq writes before encodable
      rw [isEncoded] at encoded
      cases encoded
      refine ⟨fun id bytes isExpanded => ?_, fun id isAbsent => ?_⟩
      · rw [Function.update_apply] at isExpanded ⊢
        by_cases isFact : id = fid
        · rw [if_pos isFact] at isExpanded ⊢
          cases isExpanded
          rw [isStruct]
          exact ⟨fields, rfl, valid, rfl⟩
        · rw [if_neg isFact] at isExpanded ⊢
          exact before.present id bytes isExpanded
      · rw [Function.update_apply] at isAbsent ⊢
        by_cases isFact : id = fid
        · rw [if_pos isFact] at isAbsent
          cases isAbsent
        · rw [if_neg isFact] at isAbsent ⊢
          exact before.absent id isAbsent

end Facts

/-- Keys, values and facts in the compact encoding are serialisations in the compact protocol, which
are read back as they were meant, and nothing behind them.
-/
theorem factToCompact_correct (varint : Varint) (writes : WritesVarints varint)
    (expanded : Id → Option Bytes) (structs : Id → Option CompactProtocol.Value)
    (expansion : Expansion varint expanded structs)
    : (∀ type term, type.Encodable → WellTyped type.repType term →
        (fromValue varint term).length < 2 ^ 63 →
        (∀ rest, encode varint expanded (compactEncoder varint) type (fromValue varint term ++ rest)
          = .ok (CompactProtocol.write (thriftValue structs type term), rest))
        ∧ ∀ depth rest, (CompactProtocol.write (thriftValue structs type term)).length ≤ depth →
            CompactProtocol.read depth (thriftKind type)
                (CompactProtocol.write (thriftValue structs type term) ++ rest)
              = some (thriftValue structs type term, rest))
      ∧ ∀ details fid key value, EncodableFact varint details fid key value →
          ∃ bytes,
            factToCompact varint expanded details fid (fromValue varint key)
                (fromValue varint value)
              = .ok bytes
            ∧ bytes = CompactProtocol.write (factStruct structs details fid key value)
            ∧ ∀ rest, CompactProtocol.readStruct (bytes ++ rest)
                = some (factStruct structs details fid key value, rest) := by
  have areStructs := expansion.areStructs writes
  constructor
  · intro type term encodable typed small
    have isSerialized := serializes writes areStructs type encodable term typed small
    refine ⟨isSerialized.encodes, fun depth rest enough => ?_⟩
    rw [← isSerialized.kind]
    exact CompactProtocol.read_write _ isSerialized.valid enough rest
  · intro details fid key value encodable
    obtain ⟨fields, isStruct, valid, isEncoded⟩ := factToCompact_eq writes areStructs encodable
    rw [isStruct]
    exact ⟨_, isEncoded, rfl, CompactProtocol.readStruct_write valid⟩

namespace CompactExample

def details : PredicateDetails :=
  ⟨1, ⟨"P", 1⟩, .record [.mk "flag" .boolean, .mk "other" (.maybe (.predicate ⟨1, ⟨"P", 1⟩⟩))],
    .record [], .noDeriving, true⟩

def unit : Term := .tuple []

theorem encodable : EncodableFact .folly details 1024 (.tuple [.alt 1 unit, .alt 0 unit]) unit where
  isWord := by decide
  keyType := ⟨by decide, trivial, trivial, trivial⟩
  valueType := ⟨by decide, trivial⟩
  keyTyped :=
    .tuple (.cons (.alt (by decide) rfl (.tuple .nil))
      (.cons (.alt (by decide) rfl (.tuple .nil)) .nil))
  valueTyped := .tuple .nil
  keySize := by decide
  valueSize := by decide

end CompactExample

theorem factToCompact_correct_flag
    : ∃ bytes,
        factToCompact .folly (fun _ => none) CompactExample.details 1024
            (fromValue .folly (.tuple [.alt 1 CompactExample.unit, .alt 0 CompactExample.unit]))
            (fromValue .folly CompactExample.unit)
          = .ok bytes
        ∧ CompactProtocol.readStruct bytes
            = some (.struct [.mk 1 (.int .i64 1024), .mk 2 (.struct [.mk 1 (.bool true)])], []) := by
  obtain ⟨bytes, isEncoded, -, reads⟩ := (factToCompact_correct .folly folly_writesVarints
    (fun _ => none) (fun _ => none) .empty).2 _ _ _ _ CompactExample.encodable
  have readsAll := reads []
  rw [List.append_nil] at readsAll
  exact ⟨bytes, isEncoded, readsAll⟩

end Glean.Schema
