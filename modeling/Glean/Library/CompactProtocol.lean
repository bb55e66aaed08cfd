import Mathlib.Data.Int.Order.Basic
import Mathlib.Tactic.Common
import Glean.Library.Byte

/-! The compact protocol of Thrift: values, the bytes that they are written as, and how these are
read. Numbers have no limits of their own, so that structures can have any number of fields.
-/

namespace CompactProtocol

abbrev Byte := Fin 256

inductive IntKind where
  | i16
  | i32
  | i64
  deriving DecidableEq

/-- The types that a header can tell apart. -/
inductive Kind where
  | bool
  | byte
  | int (kind : IntKind)
  | binary
  | list
  | struct
  deriving DecidableEq

mutual

inductive Value where
  | bool (value : Bool)
  | byte (value : Byte)
  | int (kind : IntKind) (value : Int)
  | binary (bytes : List Byte)
  | list (elements : Kind) (values : List Value)
  | struct (fields : List Field)

inductive Field where
  | mk (id : Int) (value : Value)

end

namespace Kind

def code : Kind → Nat
  | .bool => 1
  | .byte => 3
  | .int .i16 => 4
  | .int .i32 => 5
  | .int .i64 => 6
  | .binary => 8
  | .list => 9
  | .struct => 12

def ofCode : Nat → Option Kind
  | 1 => some .bool
  | 2 => some .bool
  | 3 => some .byte
  | 4 => some (.int .i16)
  | 5 => some (.int .i32)
  | 6 => some (.int .i64)
  | 8 => some .binary
  | 9 => some .list
  | 12 => some .struct
  | _ => none

@[simp]
theorem ofCode_code (kind : Kind) : ofCode kind.code = some kind := by
  cases kind with
  | int kind => cases kind <;> rfl
  | bool | byte | binary | list | struct => rfl

theorem code_lt (kind : Kind) : kind.code < 16 := by
  cases kind with
  | int kind => cases kind <;> decide
  | bool | byte | binary | list | struct => decide

end Kind

def Value.kind : Value → Kind
  | .bool _ => .bool
  | .byte _ => .byte
  | .int kind _ => .int kind
  | .binary _ => .binary
  | .list _ _ => .list
  | .struct _ => .struct

/-- Seven bits in each byte, the lowest first, and a mark on all but the last. -/
def writeVarint (number : Nat) : List Byte :=
  if number < 128 then
    [Fin.ofNat 256 number]
  else
    Fin.ofNat 256 (number % 128 + 128) :: writeVarint (number / 128)

def readVarint : List Byte → Option (Nat × List Byte)
  | [] => none
  | byte :: rest =>
      if byte.val < 128 then
        some (byte.val, rest)
      else
        (readVarint rest).map fun (number, rest) => (byte.val % 128 + 128 * number, rest)

/-- Signed numbers with the sign in the lowest bit. -/
def zigzag (number : Int) : Nat :=
  if 0 ≤ number then 2 * number.toNat else 2 * (-number).toNat - 1

def unzigzag (number : Nat) : Int :=
  if number % 2 = 0 then number / 2 else -(number / 2) - 1

def writeInt (number : Int) : List Byte := writeVarint (zigzag number)

def readInt (input : List Byte) : Option (Int × List Byte) :=
  (readVarint input).map fun (number, rest) => (unzigzag number, rest)

theorem readVarint_writeVarint (number : Nat) (rest : List Byte)
    : readVarint (writeVarint number ++ rest) = some (number, rest) := by
  induction number using Nat.strongRecOn with
  | ind number ih =>
      rw [writeVarint]
      split
      next small =>
        have isByte : (Fin.ofNat 256 number).val = number := Nat.mod_eq_of_lt (by omega)
        rw [List.singleton_append, readVarint, isByte, if_pos small]
      next large =>
        have isByte : (Fin.ofNat 256 (number % 128 + 128)).val = number % 128 + 128 :=
          Nat.mod_eq_of_lt (by omega)
        rw [List.cons_append, readVarint, isByte, if_neg (by omega), ih _ (by omega)]
        simp only [Option.map_some, Option.some.injEq, Prod.mk.injEq, and_true]
        omega

theorem unzigzag_zigzag (number : Int) : unzigzag (zigzag number) = number := by
  unfold unzigzag zigzag
  split
  next =>
    split
    next => omega
    next => omega
  next =>
    split
    next => omega
    next => omega

theorem readInt_writeInt (number : Int) (rest : List Byte)
    : readInt (writeInt number ++ rest) = some (number, rest) := by
  simp only [readInt, writeInt, readVarint_writeVarint, Option.map_some, unzigzag_zigzag]

theorem writeVarint_ne_nil (number : Nat) : writeVarint number ≠ [] := by
  rw [writeVarint]
  split <;> exact List.cons_ne_nil _ _

/-- A header, with a number of four bits and a type. -/
def header (high low : Nat) : Byte := Fin.ofNat 256 (high * 16 + low)

def boolCode (value : Bool) : Nat := if value then 1 else 2

/-- What the header of a field says about its value: the type, or else the value. -/
def Value.code : Value → Nat
  | .bool value => boolCode value
  | value => value.kind.code

/-- The header of a field has the distance from the field before it, or else its id follows. -/
def writeFieldHeader (previous id : Int) (code : Nat) : List Byte :=
  if 0 < id - previous ∧ id - previous ≤ 15 then
    [header (id - previous).toNat code]
  else
    header 0 code :: writeInt id

def writeListHeader (size : Nat) (kind : Kind) : List Byte :=
  if size < 15 then [header size kind.code] else header 15 kind.code :: writeVarint size

mutual

def write : Value → List Byte
  | .bool value => [Fin.ofNat 256 (boolCode value)]
  | .byte value => [value]
  | .int _ value => writeInt value
  | .binary bytes => writeVarint bytes.length ++ bytes
  | .list kind values => writeListHeader values.length kind ++ writeAll values
  | .struct fields => writeFields 0 fields

def writeAll : List Value → List Byte
  | [] => []
  | value :: values => write value ++ writeAll values

/-- Fields are written behind one another, and a zero ends them. -/
def writeFields (previous : Int) : List Field → List Byte
  | [] => [0]
  | .mk id value :: fields =>
      writeFieldHeader previous id value.code
        ++ (if value.kind = .bool then [] else write value) ++ writeFields id fields

end

/-- A field behind another one. -/
def writeField (previous id : Int) (value : Value) : List Byte :=
  writeFieldHeader previous id value.code ++ if value.kind = .bool then [] else write value

theorem writeFields_cons (previous id : Int) (value : Value) (fields : List Field)
    : writeFields previous (.mk id value :: fields)
      = writeField previous id value ++ writeFields id fields :=
  rfl

abbrev Reader (α : Type) := List Byte → Option (α × List Byte)

def readBool : Reader Bool
  | 1 :: rest => some (true, rest)
  | 2 :: rest => some (false, rest)
  | _ => none

def readByte : Reader Byte
  | byte :: rest => some (byte, rest)
  | [] => none

def readBinary : Reader (List Byte) := fun input => do
  let (size, rest) ← readVarint input
  if size ≤ rest.length then some (rest.take size, rest.drop size) else none

def readListHeader : Reader (Nat × Kind) := fun input => do
  let (head, rest) ← readByte input
  let kind ← Kind.ofCode (head.val % 16)
  if head.val / 16 = 15 then
    let (size, rest) ← readVarint rest
    return ((size, kind), rest)
  else
    return ((head.val / 16, kind), rest)

def readMany {α : Type} (read : Reader α) : Nat → Reader (List α)
  | 0, input => some ([], input)
  | times + 1, input => do
      let (first, rest) ← read input
      let (others, rest) ← readMany read times rest
      return (first :: others, rest)

/-- The id of a field whose header was read. -/
def readFieldId (previous : Int) (head : Byte) : Reader Int := fun input =>
  if head.val / 16 = 0 then readInt input else some (previous + (head.val / 16 : Nat), input)

/-- The value of a field whose header was read. -/
def readFieldValue (read : Kind → Reader Value) (head : Byte) : Reader Value := fun input =>
  match head.val % 16 with
  | 1 => some (.bool true, input)
  | 2 => some (.bool false, input)
  | code => do read (← Kind.ofCode code) input

/-- Fields up to the zero that ends them, of which there are less than a number. -/
def readFields (read : Kind → Reader Value) : Nat → Int → Reader (List Field)
  | 0, _, _ => none
  | limit + 1, previous, input => do
      let (head, rest) ← readByte input
      if head = 0 then
        return ([], rest)
      else
        let (id, rest) ← readFieldId previous head rest
        let (value, rest) ← readFieldValue read head rest
        let (fields, rest) ← readFields read limit id rest
        return (.mk id value :: fields, rest)

/-- Read a value of which at most so many are inside one another. -/
def read : Nat → Kind → Reader Value
  | 0, _, _ => none
  | depth + 1, kind, input =>
      match kind with
      | .bool => (readBool input).map fun (value, rest) => (.bool value, rest)
      | .byte => (readByte input).map fun (value, rest) => (.byte value, rest)
      | .int kind => (readInt input).map fun (value, rest) => (.int kind value, rest)
      | .binary => (readBinary input).map fun (bytes, rest) => (.binary bytes, rest)
      | .list => do
          let ((size, elements), rest) ← readListHeader input
          let (values, rest) ← readMany (read depth elements) size rest
          return (.list elements values, rest)
      | .struct => do
          let (fields, rest) ← readFields (read depth) input.length 0 input
          return (.struct fields, rest)

/-- Read a structure: what is inside one another is not more than the bytes. -/
def readStruct (input : List Byte) : Option (Value × List Byte) := read input.length .struct input

mutual

/-- The elements of lists have the type that the list says. -/
def Value.Valid : Value → Prop
  | .bool _ | .byte _ | .int _ _ | .binary _ => True
  | .list kind values => AllValid kind values
  | .struct fields => FieldsValid fields

def AllValid (kind : Kind) : List Value → Prop
  | [] => True
  | value :: values => value.kind = kind ∧ value.Valid ∧ AllValid kind values

def FieldsValid : List Field → Prop
  | [] => True
  | .mk _ value :: fields => value.Valid ∧ FieldsValid fields

end

theorem header_val {high low : Nat} (highSmall : high < 16) (lowSmall : low < 16)
    : (header high low).val = high * 16 + low :=
  Nat.mod_eq_of_lt (by omega)

theorem readListHeader_writeListHeader (size : Nat) (kind : Kind) (rest : List Byte)
    : readListHeader (writeListHeader size kind ++ rest) = some ((size, kind), rest) := by
  have low := kind.code_lt
  unfold writeListHeader
  split
  next small =>
    have head := header_val (by omega : size < 16) low
    have high : (header size kind.code).val / 16 = size := by omega
    have code : (header size kind.code).val % 16 = kind.code := by omega
    simp only [readListHeader, List.singleton_append, readByte, Option.bind_eq_bind,
      Option.bind_some, code, Kind.ofCode_code, high, if_neg (by omega : ¬ size = 15),
      Option.pure_def]
  next large =>
    have head := header_val (by omega : 15 < 16) low
    have high : (header 15 kind.code).val / 16 = 15 := by omega
    have code : (header 15 kind.code).val % 16 = kind.code := by omega
    simp only [readListHeader, List.cons_append, readByte, Option.bind_eq_bind, Option.bind_some,
      code, Kind.ofCode_code, high, if_true, readVarint_writeVarint, Option.pure_def]

theorem readBinary_write (bytes rest : List Byte)
    : readBinary (writeVarint bytes.length ++ bytes ++ rest) = some (bytes, rest) := by
  have enough : bytes.length ≤ (bytes ++ rest).length := by
    rw [List.length_append]
    omega
  simp only [readBinary, List.append_assoc, readVarint_writeVarint, Option.bind_eq_bind,
    Option.bind_some, if_pos enough, List.take_left, List.drop_left]

section Fields

variable {previous id : Int} {code : Nat}

/-- Reading the header of a field gives its id, and the code that it was written with. -/
theorem readFieldId_writeFieldHeader (notZero : 0 < code) (small : code < 16) (rest : List Byte)
    : ∃ head others, writeFieldHeader previous id code ++ rest = head :: others ∧ head ≠ 0
        ∧ head.val % 16 = code ∧ readFieldId previous head others = some (id, rest) := by
  have notStop {high : Nat} (highSmall : high < 16) : header high code ≠ 0 := by
    intro isZero
    have head := header_val highSmall small
    rw [isZero] at head
    have : (0 : Byte).val = 0 := rfl
    omega
  unfold writeFieldHeader
  split
  next near =>
    obtain ⟨distance, isDistance⟩ : ∃ distance : Nat, id - previous = distance :=
      ⟨(id - previous).toNat, by omega⟩
    have head := header_val (by omega : distance < 16) small
    have high : (header distance code).val / 16 = distance := by omega
    refine ⟨header distance code, rest, ?_, notStop (by omega), by omega, ?_⟩
    · rw [isDistance, Int.toNat_natCast, List.singleton_append]
    · rw [readFieldId, high, if_neg (by omega)]
      congr 2
      omega
  next =>
    have head := header_val (by omega : 0 < 16) small
    have high : (header 0 code).val / 16 = 0 := by omega
    refine ⟨header 0 code, writeInt id ++ rest, rfl, notStop (by omega), by omega, ?_⟩
    rw [readFieldId, if_pos high, readInt_writeInt]

theorem code_of_ne_bool {value : Value} (notBool : value.kind ≠ .bool)
    : value.code = value.kind.code := by
  cases value with
  | bool => exact absurd rfl notBool
  | byte | int | binary | list | struct => rfl

theorem Value.code_bounds (value : Value) : 0 < value.code ∧ value.code < 16 := by
  by_cases isBool : value.kind = .bool
  · cases value with
    | bool value => cases value <;> decide
    | byte | int | binary | list | struct => cases isBool
  · rw [code_of_ne_bool isBool]
    refine ⟨?_, value.kind.code_lt⟩
    cases value.kind with
    | int kind => cases kind <;> decide
    | bool | byte | binary | list | struct => decide

/-- Reading the value of a field, whose type or value was in the header. -/
theorem readFieldValue_write {reader : Kind → Reader Value} {head : Byte} {value : Value}
    {rest : List Byte} (isHead : head.val % 16 = value.code)
    (reads : value.kind ≠ .bool → reader value.kind (write value ++ rest) = some (value, rest))
    : readFieldValue reader head ((if value.kind = .bool then [] else write value) ++ rest)
      = some (value, rest) := by
  unfold readFieldValue
  by_cases isBool : value.kind = .bool
  · cases value with
    | bool value =>
        rw [isHead, if_pos isBool]
        cases value <;> rfl
    | byte | int | binary | list | struct => cases isBool
  · rw [isHead, if_neg isBool, code_of_ne_bool isBool]
    have ofKind := Kind.ofCode_code value.kind
    have read := reads isBool
    split
    next isOne =>
      rw [isOne] at ofKind
      cases isKind : value.kind with
      | bool => exact absurd isKind isBool
      | int | byte | binary | list | struct =>
          rw [isKind] at ofKind
          cases ofKind
    next isTwo =>
      rw [isTwo] at ofKind
      cases isKind : value.kind with
      | bool => exact absurd isKind isBool
      | int | byte | binary | list | struct =>
          rw [isKind] at ofKind
          cases ofKind
    next =>
      rw [ofKind]
      exact read

end Fields

theorem writeFieldHeader_ne_nil (previous id : Int) (code : Nat)
    : 0 < (writeFieldHeader previous id code).length := by
  unfold writeFieldHeader
  split <;> exact Nat.succ_pos _

theorem writeListHeader_ne_nil (size : Nat) (kind : Kind)
    : 0 < (writeListHeader size kind).length := by
  unfold writeListHeader
  split <;> exact Nat.succ_pos _

theorem length_lt_writeFields (previous : Int) (fields : List Field)
    : fields.length < (writeFields previous fields).length := by
  induction fields generalizing previous with
  | nil => exact Nat.one_pos
  | cons field fields ih =>
      obtain ⟨id, value⟩ := field
      have others := ih id
      have head := writeFieldHeader_ne_nil previous id value.code
      rw [writeFields, List.length_append, List.length_append, List.length_cons]
      omega

mutual

/-- A value is read as it was written, and nothing behind it. -/
theorem read_write (value : Value) (valid : value.Valid) {depth : Nat}
    (enough : (write value).length ≤ depth) (rest : List Byte)
    : read depth value.kind (write value ++ rest) = some (value, rest) := by
  cases value with
  | bool value =>
      obtain ⟨depth, rfl⟩ := Nat.exists_eq_add_of_lt (Nat.lt_of_lt_of_le (Nat.succ_pos _) enough)
      cases value <;> rw [Nat.zero_add] <;> rfl
  | byte value =>
      obtain ⟨depth, rfl⟩ := Nat.exists_eq_add_of_lt (Nat.lt_of_lt_of_le (Nat.succ_pos _) enough)
      rw [Nat.zero_add]
      rfl
  | int kind number =>
      have notEmpty : 0 < (write (.int kind number)).length :=
        List.length_pos_iff.mpr (writeVarint_ne_nil _)
      obtain ⟨depth, rfl⟩ := Nat.exists_eq_add_of_lt (Nat.lt_of_lt_of_le notEmpty enough)
      simp only [read, Value.kind, write, readInt_writeInt, Option.map_some]
  | binary bytes =>
      have notEmpty : 0 < (write (.binary bytes)).length := by
        rw [write, List.length_append]
        exact Nat.add_pos_left (List.length_pos_iff.mpr (writeVarint_ne_nil _)) _
      obtain ⟨depth, rfl⟩ := Nat.exists_eq_add_of_lt (Nat.lt_of_lt_of_le notEmpty enough)
      simp only [read, Value.kind, write, readBinary_write, Option.map_some]
  | list kind values =>
      have head := writeListHeader_ne_nil values.length kind
      rw [write, List.length_append] at enough
      obtain ⟨depth, rfl⟩ : ∃ smaller, depth = smaller + 1 := ⟨depth - 1, by omega⟩
      have elements := readMany_writeAll values valid (by omega : (writeAll values).length ≤ depth) rest
      simp only [read, Value.kind, write, List.append_assoc, readListHeader_writeListHeader,
        Option.bind_eq_bind, Option.bind_some, elements, Option.pure_def]
  | struct fields =>
      rw [write] at enough
      have shorter := length_lt_writeFields 0 fields
      obtain ⟨depth, rfl⟩ : ∃ smaller, depth = smaller + 1 := ⟨depth - 1, by omega⟩
      have limit : fields.length < (writeFields 0 fields ++ rest).length := by
        rw [List.length_append]
        omega
      have content := readFields_writeFields fields valid 0 limit enough rest
      simp only [read, Value.kind, write, Option.bind_eq_bind, content, Option.bind_some,
        Option.pure_def]

theorem readMany_writeAll {kind : Kind} (values : List Value) (valid : AllValid kind values)
    {depth : Nat} (enough : (writeAll values).length ≤ depth) (rest : List Byte)
    : readMany (read depth kind) values.length (writeAll values ++ rest) = some (values, rest) := by
  cases values with
  | nil => rfl
  | cons value values =>
      obtain ⟨rfl, valueValid, valuesValid⟩ := valid
      rw [writeAll, List.length_append] at enough
      have first := read_write value valueValid (by omega : (write value).length ≤ depth)
        (writeAll values ++ rest)
      have others := readMany_writeAll values valuesValid
        (by omega : (writeAll values).length ≤ depth) rest
      simp only [writeAll, List.append_assoc, List.length_cons, readMany, first, Option.bind_eq_bind,
        Option.bind_some, others, Option.pure_def]

theorem readFields_writeFields (fields : List Field) (valid : FieldsValid fields) (previous : Int)
    {limit depth : Nat} (fewer : fields.length < limit)
    (enough : (writeFields previous fields).length ≤ depth + 1) (rest : List Byte)
    : readFields (read depth) limit previous (writeFields previous fields ++ rest)
      = some (fields, rest) := by
  obtain ⟨limit, rfl⟩ : ∃ smaller, limit = smaller + 1 := ⟨limit - 1, by omega⟩
  match fields with
  | [] => rfl
  | .mk id value :: fields =>
      obtain ⟨valueValid, fieldsValid⟩ := valid
      rw [writeFields, List.length_append, List.length_append] at enough
      have head := writeFieldHeader_ne_nil previous id value.code
      have others := readFields_writeFields fields fieldsValid id
        (by rw [List.length_cons] at fewer; omega : fields.length < limit)
        (by omega : (writeFields id fields).length ≤ depth + 1) rest
      obtain ⟨notZero, small⟩ := value.code_bounds
      obtain ⟨first, following, isHeader, notStop, isCode, isId⟩ :=
        @readFieldId_writeFieldHeader previous id value.code notZero small
          ((if value.kind = .bool then [] else write value) ++ (writeFields id fields ++ rest))
      have isValue := @readFieldValue_write (read depth) first value (writeFields id fields ++ rest)
        isCode fun notBool => by
          rw [if_neg notBool] at enough
          exact read_write value valueValid (by omega) _
      simp only [writeFields, List.append_assoc, isHeader, readFields, readByte, Option.bind_eq_bind,
        Option.bind_some, if_neg notStop, isId, isValue, others, Option.pure_def]

end

/-- A structure is read as it was written, and nothing behind it. -/
theorem readStruct_write {fields : List Field} (valid : FieldsValid fields) (rest : List Byte)
    : readStruct (write (.struct fields) ++ rest) = some (.struct fields, rest) :=
  read_write (.struct fields) valid (by rw [List.length_append]; omega) rest

end CompactProtocol
