import Mathlib.Algebra.Group.Int.Defs
import Mathlib.Algebra.GroupWithZero.Nat
import Glean.Query.Evolve
import Glean.RTS.TrustedString

/-! Facts in the encodings of query results (`Query/JSON.hs`): the traversal of keys and values that
encoders share, and the encoder of the compact protocol of Thrift.
-/

namespace Glean.Schema

open Glean.RTS ValueCodec

/-- `Buffer.Fill` with a decoder: what is written for a part of the input, and the rest of the input. -/
abbrev Fill := Bytes → Outcome (Bytes × Bytes)

def Fill.write (bytes : Bytes) : Fill := fun input => .ok (bytes, input)

/-- Two parts behind one another. -/
def Fill.andThen (first second : Fill) : Fill := fun input => do
  let (written, rest) ← first input
  let (others, rest) ← second rest
  return (written ++ others, rest)

/-- `Encoder` -/
structure Encoder where
  encByte : Byte → Bytes
  encNat : Nat → Bytes
  encBool : Bool → Bytes
  /-- A mangled string, with its terminator, and the size of its text. -/
  encMangledString : Bytes → Nat → Outcome Bytes
  encBinary : Bytes → Bytes
  encArrayBegin : RtsType → Nat → Outcome Bytes
  encArraySep : Bytes
  encArrayEnd : Bytes
  encObjectBegin : Bytes
  encObjectSep : Bytes
  /-- The field before this one, if there is one, the number of the field, its name, its type, and
  what writes the value.
  -/
  encObjectField : Option Nat → Nat → Name → RtsType → Fill → Fill
  encObjectEnd : Bytes

section Encode

variable (varint : Varint) (expanded : Id → Option Bytes) (encoder : Encoder)

/-- `dSelector` -/
def dSelector (input : Bytes) : Outcome (Nat × Bytes) := Input.packed varint input

/-- `dTrustedStringRef`: a mangled string, the size of its text, and the rest of the input. -/
def dTrustedStringRef (input : Bytes) : Outcome ((Bytes × Nat) × Bytes) := do
  let (size, textSize) ← Input.skipTrustedString input
  return ((input.take size, textSize), input.drop size)

/-- The elements of an array that follow the first one. -/
def encodeElements (enc : Fill) : Nat → Fill
  | 0 => .write []
  | size + 1 => (Fill.write encoder.encArraySep).andThen (enc.andThen (encodeElements enc size))

def encodeArray (elementType : RtsType) (enc : Fill) (size : Nat) : Fill := fun input => do
  let start ← encoder.encArrayBegin elementType size
  let (elements, rest) ←
    match size with
    | 0 => Fill.write [] input
    | size + 1 => (enc.andThen (encodeElements encoder enc size)) input
  return (start ++ elements ++ encoder.encArrayEnd, rest)

/-- `enc_field` -/
def encodeField (previous : Option Nat) (number : Nat) (name : Name) (type : RtsType) (enc : Fill)
    : Fill :=
  (Fill.write (if previous.isSome then encoder.encObjectSep else [])).andThen
    (encoder.encObjectField previous number name type enc)

/-- A fact that is not expanded. -/
def encodeReference (id : Id) : Fill := fun input => do
  let (field, rest) ← encoder.encObjectField none 1 "id" .nat (.write (encoder.encNat id)) input
  return (encoder.encObjectBegin ++ field ++ encoder.encObjectEnd, rest)

mutual

/-- `encode` -/
def encode : RtsType → Fill
  | .byte, input => do
      let (byte, rest) ← dByte input
      return (encoder.encByte byte, rest)
  | .nat, input => do
      let (number, rest) ← Input.packed varint input
      return (encoder.encNat number, rest)
  | .string, input => do
      let ((mangled, size), rest) ← dTrustedStringRef input
      return (← encoder.encMangledString mangled size, rest)
  | .array elementType, input => do
      let (size, rest) ← Input.packed varint input
      match elementType with
      | .byte =>
          let (bytes, rest) ← dBytes size rest
          return (encoder.encBinary bytes, rest)
      | elementType => encodeArray encoder elementType (encode elementType) size rest
  | .record fields, input => do
      let (content, rest) ← encodeFields none 1 fields input
      return (encoder.encObjectBegin ++ content ++ encoder.encObjectEnd, rest)
  | .sum fields, input => do
      let (selector, rest) ← dSelector varint input
      let (content, rest) ← encodeAlt (selector + 1) fields selector rest
      return (encoder.encObjectBegin ++ content ++ encoder.encObjectEnd, rest)
  | .namedType _ expandedType, input => encode expandedType input
  | .enumerated _, input => do
      let (selector, rest) ← dSelector varint input
      return (encoder.encNat selector, rest)
  | .maybe _, _ => .error "unsupported Maybe"
  | .boolean, input => do
      let (selector, rest) ← dSelector varint input
      return (encoder.encBool (selector ≠ 0), rest)
  | .predicate _, input => do
      let (id, rest) ← Input.packed varint input
      match expanded id with
      | some bytes => return (bytes, rest)
      | none => encodeReference encoder id rest

/-- The fields of a record from a number on. Absent fields are left out. -/
def encodeFields (previous : Option Nat) (number : Nat) : List FieldDef → Fill
  | [], input => .ok ([], input)
  | .mk name (.maybe type) :: fields, input => do
      let (selector, rest) ← dSelector varint input
      if selector = 0 then
        encodeFields previous (number + 1) fields rest
      else
        ((encodeField encoder previous number name type (encode type)).andThen
          (encodeFields (some number) (number + 1) fields)) rest
  | .mk name type :: fields, input =>
      ((encodeField encoder previous number name type (encode type)).andThen
        (encodeFields (some number) (number + 1) fields)) input

/-- The alternative of a sum at an index, as a field with a number. -/
def encodeAlt (number : Nat) : List FieldDef → Nat → Fill
  | [], _, _ => .error "selector out of range"
  | .mk name type :: _, 0, input => encodeField encoder none number name type (encode type) input
  | _ :: fields, index + 1, input => encodeAlt number fields index input

end

/-- `encodeFact` -/
def encodeFact (details : PredicateDetails) (fid : Id) (key value : Bytes) : Outcome Bytes := do
  let (id, key) ← encoder.encObjectField none 1 "id" .nat (.write (encoder.encNat fid)) key
  let (keyField, _) ←
    encoder.encObjectField (some 1) 2 "key" details.keyType
      (encode varint expanded encoder details.keyType) key
  match details.valueType with
  | .record [] =>
      return encoder.encObjectBegin ++ id ++ encoder.encObjectSep ++ keyField
        ++ encoder.encObjectEnd
  | valueType =>
      let (valueField, _) ←
        encoder.encObjectField (some 2) 3 "value" valueType
          (encode varint expanded encoder valueType) value
      return encoder.encObjectBegin ++ id ++ encoder.encObjectSep ++ keyField
        ++ encoder.encObjectSep ++ valueField ++ encoder.encObjectEnd

end Encode

/-- `thriftType` -/
def thriftType : RtsType → Outcome Nat
  | .byte => .ok 3
  | .nat => .ok 6
  | .string => .ok 8
  | .array .byte => .ok 8
  | .array _ => .ok 9
  | .record _ => .ok 12
  | .sum _ => .ok 12
  | .namedType _ expanded => thriftType expanded
  | .enumerated _ => .ok 5
  | .boolean => .ok 1
  | .predicate _ => .ok 12
  | .maybe _ => .error "thrifTType: invalid type"

section Compact

variable (varint : Varint)

/-- A 64-bit word as a signed number. -/
def toInt64 (word : Nat) : Int := if word < 2 ^ 63 then word else word - 2 ^ 64

/-- `folly::encodeZigZag` -/
def encodeZigZagWord (value : Int) : Nat :=
  (if 0 ≤ value then 2 * value.toNat else 2 * (-value).toNat - 1) % 2 ^ 64

/-- `Thrift.encodeZigZag` -/
def encodeZigZag (value : Int) : Bytes := varint.encodeVarint (encodeZigZagWord value)

def boolByte (value : Bool) : Byte := if value then 1 else 2

/-- The header of a field: the distance from the field before it, if it is small, and the type. -/
def compactFieldHeader (previous : Option Nat) (number type : Nat) : Bytes :=
  let delta : Int := number - previous.getD 0
  if delta ≠ 0 ∧ delta ≤ 15 then
    [Fin.ofNat 256 ((delta % 16).toNat * 16 ||| type)]
  else
    Fin.ofNat 256 type :: encodeZigZag varint number

/-- Booleans are read for the header and not written again. -/
def compactField (previous : Option Nat) (number : Nat) (type : RtsType) (enc : Fill) : Fill :=
  fun input => do
    let (code, rest) ←
      match ← thriftType type with
      | 1 => do
          let (selector, rest) ← dSelector varint input
          pure ((boolByte (selector ≠ 0)).val, rest)
      | code => pure (code, input)
    let (value, rest) ← (if 2 < code then enc rest else .ok ([], rest))
    return (compactFieldHeader varint previous number code ++ value, rest)

/-- `compactEncoder` -/
def compactEncoder : Encoder where
  encByte byte := [byte]
  encNat number := encodeZigZag varint (toInt64 number)
  encBool value := [boolByte value]
  encMangledString mangled size := do
    let text ← Input.demangleTrustedString mangled
    -- the text is copied into a buffer of the size
    if text.length = size then
      return varint.encodeVarint size ++ text
    else
      .undefined
  encBinary bytes := varint.encodeVarint bytes.length ++ bytes
  encArrayBegin type size := do
    let code ← thriftType type
    if size < 15 then
      return [Fin.ofNat 256 ((size % 16) * 16 ||| code)]
    else
      return Fin.ofNat 256 (0xF0 ||| code) :: varint.encodeVarint size
  encArraySep := []
  encArrayEnd := []
  encObjectBegin := []
  encObjectSep := []
  encObjectField previous number _ type enc := compactField varint previous number type enc
  encObjectEnd := [0]

/-- `factToCompact` -/
def factToCompact (expanded : Id → Option Bytes) (details : PredicateDetails) (fid : Id)
    (key value : Bytes)
    : Outcome Bytes :=
  encodeFact varint expanded (compactEncoder varint) details fid key value

end Compact

end Glean.Schema
