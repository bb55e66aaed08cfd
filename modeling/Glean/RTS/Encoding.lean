import Glean.RTS.Typecheck

/-! Values and their binary encoding (`Term.hs`, `RTS.hs`), how input is read as a value, and
what checking a clause computes.
-/

namespace Glean.RTS

/-- `Rep` -/
inductive Rep where
  | byte
  | nat
  | string
  | array (element : Rep)
  | tuple (fields : List Rep)
  | sum (fields : List Rep)
  | predicate (pid : Pid)

mutual

/-- `repType` -/
def Ty.repType : Ty → Rep
  | .byte => .byte
  | .nat => .nat
  | .string => .string
  | .array element => .array element.repType
  | .record fields => .tuple (repTypes fields)
  | .sum fields => .sum (repTypes fields)
  | .predicate pid => .predicate pid
  | .namedType ty => ty.repType
  | .maybe ty => .sum [.tuple [], ty.repType]
  | .enumerated names => .sum (List.replicate names.length (.tuple []))
  | .boolean => .sum [.tuple [], .tuple []]

def repTypes : List Ty → List Rep
  | [] => []
  | field :: fields => field.repType :: repTypes fields

end

/-- `Value`. A string is given by its mangled bytes, and an array of bytes by its elements. -/
inductive Value where
  | byte (byte : Byte)
  | nat (number : Nat)
  | string (mangled : Bytes)
  | array (elements : List Value)
  | tuple (fields : List Value)
  | alt (selector : Nat) (value : Value)
  | ref (id : Id)

mutual

/-- `encodeValue` -/
def encodeValue (varint : Varint) : Value → Bytes
  | .byte byte => [byte]
  | .nat number => varint.encodeVarint number
  | .string mangled => mangled
  | .array elements => varint.encodeVarint elements.length ++ encodeValues varint elements
  | .tuple fields => encodeValues varint fields
  | .alt selector value => varint.encodeVarint selector ++ encodeValue varint value
  | .ref id => varint.encodeVarint id

def encodeValues (varint : Varint) : List Value → Bytes
  | [] => []
  | value :: values => encodeValue varint value ++ encodeValues varint values

end

section Reading

variable (varint : Varint) (u8 : U8Next)

mutual

/-- Input starts with an encoding of a value. A number may be any varint, not only the shortest
one, and a string is what `validateUntrustedString` accepts.
-/
inductive Reads : Rep → Bytes → Value → Bytes → Prop where
  | byte {byte : Byte} {rest : Bytes} : Reads .byte (byte :: rest) (.byte byte) rest
  | nat {input rest : Bytes} {number : Nat}
      (decoded : varint.tryDecodeVarint input = some (number, rest))
      : Reads .nat input (.nat number) rest
  | string {input : Bytes} {size : Nat}
      (accepted : Input.validateUntrustedString u8 input = .ok size)
      : Reads .string input (.string (input.take size)) (input.drop size)
  | array {element : Rep} {input rest after : Bytes} {elements : List Value}
      (decoded : varint.tryDecodeVarint input = some (elements.length, rest))
      (reads : ReadsAll (List.replicate elements.length element) rest elements after)
      : Reads (.array element) input (.array elements) after
  | tuple {fields : List Rep} {input rest : Bytes} {values : List Value}
      (reads : ReadsAll fields input values rest)
      : Reads (.tuple fields) input (.tuple values) rest
  | alt {fields : List Rep} {input rest after : Bytes} {selector : Nat} {field : Rep}
      {value : Value} (decoded : varint.tryDecodeVarint input = some (selector, rest))
      (isField : fields[selector]? = some field) (reads : Reads field rest value after)
      : Reads (.sum fields) input (.alt selector value) after
  | ref {pid : Pid} {input rest : Bytes} {id : Id}
      (decoded : varint.tryDecodeVarint input = some (id, rest))
      : Reads (.predicate pid) input (.ref id) rest

/-- Input starts with encodings of values, one after the other. -/
inductive ReadsAll : List Rep → Bytes → List Value → Bytes → Prop where
  | nil {input : Bytes} : ReadsAll [] input [] input
  | cons {rep : Rep} {reps : List Rep} {input rest after : Bytes} {value : Value}
      {values : List Value} (first : Reads rep input value rest)
      (others : ReadsAll reps rest values after)
      : ReadsAll (rep :: reps) input (value :: values) after

end

end Reading

section Renaming

variable {σ : Type} (rename : Nat → Nat → σ → Outcome (Nat × σ))

mutual

/-- Rename the references of a value of a type, from left to right. -/
inductive Renames : Rep → Value → σ → Value → σ → Prop where
  | byte {byte : Byte} {state : σ} : Renames .byte (.byte byte) state (.byte byte) state
  | nat {number : Nat} {state : σ} : Renames .nat (.nat number) state (.nat number) state
  | string {mangled : Bytes} {state : σ}
      : Renames .string (.string mangled) state (.string mangled) state
  | array {element : Rep} {elements renamed : List Value} {state after : σ}
      (renames : RenamesAll (List.replicate elements.length element) elements state renamed after)
      : Renames (.array element) (.array elements) state (.array renamed) after
  | tuple {fields : List Rep} {values renamed : List Value} {state after : σ}
      (renames : RenamesAll fields values state renamed after)
      : Renames (.tuple fields) (.tuple values) state (.tuple renamed) after
  | alt {fields : List Rep} {selector : Nat} {field : Rep} {value renamed : Value}
      {state after : σ} (isField : fields[selector]? = some field)
      (renames : Renames field value state renamed after)
      : Renames (.sum fields) (.alt selector value) state (.alt selector renamed) after
  | ref {pid : Pid} {id renamed : Id} {state after : σ}
      (renames : rename id pid state = .ok (renamed, after))
      : Renames (.predicate pid) (.ref id) state (.ref renamed) after

inductive RenamesAll : List Rep → List Value → σ → List Value → σ → Prop where
  | nil {state : σ} : RenamesAll [] [] state [] state
  | cons {rep : Rep} {reps : List Rep} {value first : Value} {values others : List Value}
      {state between after : σ} (renames : Renames rep value state first between)
      (renamesOthers : RenamesAll reps values between others after)
      : RenamesAll (rep :: reps) (value :: values) state (first :: others) after

end

end Renaming

section Checking

variable {σ : Type} (varint : Varint) (u8 : U8Next)
  (rename : Nat → Nat → σ → Outcome (Nat × σ))

/-- What remains of the input, the output, and the state of the renamer. -/
structure Checked (σ : Type) where
  rest : Bytes
  output : Bytes
  state : σ

/-- Skip bytes and give them as output. -/
def copied (input rest : Bytes) (state : σ) : Checked σ :=
  ⟨rest, input.take (input.length - rest.length), state⟩

/-- Put a number in front of the output. -/
def Checked.afterNat (number : Nat) (checked : Checked σ) : Checked σ :=
  { checked with output := varint.encodeVarint number ++ checked.output }

/-- Check values one after the other. -/
def checkTimes (once : Bytes → σ → Outcome (Checked σ))
    : Nat → Bytes → σ → Outcome (Checked σ)
  | 0, input, state => .ok ⟨input, [], state⟩
  | times + 1, input, state => do
      let first ← once input state
      let others ← checkTimes once times first.rest first.state
      return { others with output := first.output ++ others.output }

def checkEnum (arity : Nat) (input : Bytes) (state : σ) : Outcome (Checked σ) := do
  let (selector, rest) ← Input.packed varint input
  if selector < arity then
    return ⟨rest, varint.encodeVarint selector, state⟩
  else
    .error "selector out of range"

mutual

/-- What the typechecker of a type does. -/
def checkTy : Ty → Bytes → σ → Outcome (Checked σ)
  | .byte, input, state => do
      let rest ← Input.bytes input 1
      return copied input rest state
  | .nat, input, state => do
      let (number, rest) ← Input.packed varint input
      return ⟨rest, varint.encodeVarint number, state⟩
  | .string, input, state => do
      let rest ← Input.skipUntrustedString u8 input
      return copied input rest state
  | .array element, input, state => do
      let (size, rest) ← Input.packed varint input
      match element.derefType with
      | .byte => do
          let after ← Input.bytes rest size
          return (copied rest after state).afterNat varint size
      | _ => do
          let checked ← checkTimes (checkTy element) size rest state
          return checked.afterNat varint size
  | .record fields, input, state => checkFields fields input state
  | .sum fields, input, state => do
      let (selector, rest) ← Input.packed varint input
      let checked ← checkAlt fields selector rest state
      return checked.afterNat varint selector
  | .predicate pid, input, state => do
      let (id, rest) ← Input.packed varint input
      let (renamed, after) ← rename id pid state
      return ⟨rest, varint.encodeVarint renamed, after⟩
  | .namedType ty, input, state => checkTy ty input state
  | .maybe ty, input, state => do
      let (selector, rest) ← Input.packed varint input
      match selector with
      | 0 => return ⟨rest, varint.encodeVarint 0, state⟩
      | 1 => do
          let checked ← checkTy ty rest state
          return checked.afterNat varint 1
      | _ => .error "maybe selector out of range"
  | .enumerated names, input, state => checkEnum varint names.length input state
  | .boolean, input, state => checkEnum varint 2 input state

def checkFields : List Ty → Bytes → σ → Outcome (Checked σ)
  | [], input, state => .ok ⟨input, [], state⟩
  | field :: fields, input, state => do
      let first ← checkTy field input state
      let others ← checkFields fields first.rest first.state
      return { others with output := first.output ++ others.output }

def checkAlt : List Ty → Nat → Bytes → σ → Outcome (Checked σ)
  | [], _, _, _ => .error "selector out of range"
  | field :: _, 0, input, state => checkTy field input state
  | _ :: fields, selector + 1, input, state => checkAlt fields selector input state

end

variable {varint u8 rename}

theorem checkTy_array_byte {element : Ty} (isByte : element.derefType = .byte) (input : Bytes)
    (state : σ)
    : checkTy varint u8 rename (.array element) input state
      = Input.packed varint input >>= fun result =>
          (Input.bytes result.2 result.1 >>= fun after => .ok (copied result.2 after state))
            >>= fun checked => .ok (checked.afterNat varint result.1) := by
  rw [checkTy, isByte]
  simp only [Outcome.bind_assoc]
  rfl

theorem checkTy_array_loop {element : Ty} (notByte : element.derefType ≠ .byte) (input : Bytes)
    (state : σ)
    : checkTy varint u8 rename (.array element) input state
      = Input.packed varint input >>= fun result =>
          checkTimes (checkTy varint u8 rename element) result.1 result.2 state >>= fun checked =>
            .ok (checked.afterNat varint result.1) := by
  rw [checkTy]
  split
  next isByte => exact absurd isByte notByte
  next => rfl

theorem checkTy_sum (fields : List Ty) (input : Bytes) (state : σ)
    : checkTy varint u8 rename (.sum fields) input state
      = Input.packed varint input >>= fun result =>
          checkAlt varint u8 rename fields result.1 result.2 state >>= fun checked =>
            .ok (checked.afterNat varint result.1) := by
  rw [checkTy]
  rfl

theorem checkAlt_outside (fields : List Ty) {selector : Nat} (outside : fields.length ≤ selector)
    (input : Bytes) (state : σ)
    : checkAlt varint u8 rename fields selector input state = .error "selector out of range" := by
  induction fields generalizing selector with
  | nil => rw [checkAlt]
  | cons field fields ih =>
      cases selector with
      | zero => cases outside
      | succ selector =>
          rw [checkAlt]
          exact ih (Nat.le_of_succ_le_succ outside)

variable (varint u8 rename)

/-- What the typechecker of a predicate does: the output and the size of the key. -/
def checkClause (keyTy valTy : Ty) (clause : Clause) (state : σ)
    : Outcome (Bytecode.Result σ) := do
  let key ← checkTy varint u8 rename keyTy clause.key state
  if key.rest ≠ [] then
    .error "extra bytes at end of key"
  else
    let value ← checkTy varint u8 rename valTy clause.value key.state
    if value.rest ≠ [] then
      .error "extra bytes at end of value"
    else
      return ⟨key.output ++ value.output, key.output.length, value.state⟩

end Checking

end Glean.RTS
