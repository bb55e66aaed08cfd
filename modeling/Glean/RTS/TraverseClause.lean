import Glean.RTS.TraverseVisits
import Glean.RTS.Varint

/-! Executing the traversal of the types of a predicate on a clause. -/

namespace Glean.RTS

namespace Traverse

open Bytecode Halting
open Validate (OfType AllOfType)

section Clause

variable {varint : Varint} (short : varint.Short) (u8 : U8Next) (keyTy valTy : Ty)
  (clause : Clause)

/-- The traversal of the key of a clause. -/
def keySetting : Setting where
  final := (clauseCode keyTy valTy .start).2
  env := ⟨varint, u8, record, clause.key ++ clause.value, (clauseCode keyTy valTy .start).2.csLiterals⟩
  literals := rfl
  records := rfl
  short := short
  input := 1
  isInput := .inl rfl
  stop := clause.key.length
  inside := by simp

private theorem value_inside (clause : Clause)
    : (clause.key ++ clause.value).length ≤ (clause.key ++ clause.value).length :=
  Nat.le_refl _

/-- The traversal of the value of a clause. -/
def valueSetting : Setting :=
  { keySetting short u8 keyTy valTy clause with
    input := 2
    isInput := .inr rfl
    stop := (clause.key ++ clause.value).length
    inside := value_inside clause }

/-- The machine at the start of the traversal. -/
def startMachine : Machine Calls Label :=
  (clauseCode keyTy valTy .start).2.machine (traversalArgs clause) []

variable {short u8 keyTy valTy clause}

theorem ready_start
    : (keySetting short u8 keyTy valTy clause).Ready
        (startMachine keyTy valTy clause) where
  length := by
    simp only [startMachine, CodeS.machine, List.length_append, List.length_map, List.length_replicate]
    rfl
  callback := rfl
  inputend := rfl
  constants := by
    intro index word isConstant
    have inside : index < (clauseCode keyTy valTy .start).2.csConstants.length :=
      (List.getElem?_eq_some_iff.mp isConstant).1
    have length : (traversalArgs clause : List (Contents Label)).length = 4 := rfl
    rw [startMachine, CodeS.machine, List.append_assoc, List.getElem?_append_right (by omega), length,
      Nat.add_sub_cancel, List.getElem?_append_left (by simpa using inside), List.getElem?_map]
    exact congrArg (Option.map Contents.word) isConstant

theorem at_start
    : (keySetting short u8 keyTy valTy clause).At
        (startMachine keyTy valTy clause) clause.key where
  begin := by simp [startMachine, CodeS.machine, traversalArgs, keySetting]
  isSuffix := by simp [keySetting]

/-- The value starts at the end of the key. -/
theorem ready_value {bound : Nat} {calls : Calls} {after : Machine Calls Label}
    (done : (keySetting short u8 keyTy valTy clause).After bound
      (startMachine keyTy valTy clause) calls after)
    (large : 4 + (clauseCode keyTy valTy .start).2.csConstants.length ≤ bound)
    : (valueSetting short u8 keyTy valTy clause).Ready after
      ∧ (valueSetting short u8 keyTy valTy clause).At after clause.value := by
  have ready : (keySetting short u8 keyTy valTy clause).Ready after := ready_start.next done large
  have kept (index : Nat) (small : index < 4) (notInput : index ≠ 1)
      : after.frame[index]?
        = (startMachine keyTy valTy clause).frame[index]? :=
    done.kept (by omega) notInput
  refine ⟨⟨ready.length, ready.callback, kept 3 (by omega) (by omega), ready.constants⟩, ?_, ?_⟩
  · refine (kept 2 (by omega) (by omega)).trans ?_
    simp [startMachine, CodeS.machine, traversalArgs, valueSetting]
  · have isWhole : (clause.key ++ clause.value).take (clause.key ++ clause.value).length
        = clause.key ++ clause.value := List.take_length
    show clause.value <:+ (clause.key ++ clause.value).take (clause.key ++ clause.value).length
    rw [isWhole]
    exact List.suffix_append _ _

end Clause

/-- The traversal before it returns. -/
def traversals (keyTy valTy : Ty) : Code Unit := do
  traversal ⟨.input 0, .input 1, .input 2⟩ keyTy
  traversal ⟨.input 0, .input 2, .input 3⟩ valTy

section Typed

variable {varint : Varint} (short : varint.Short) (u8 : U8Next) {keyTy valTy : Ty}
  {key value : Value} {keyRef valueRef : Pid → Id → Prop}

/-- The clause of a key and a value. -/
def clauseOf (varint : Varint) (key value : Value) : Clause :=
  ⟨encodeValue varint key, encodeValue varint value⟩

/-- The references of a clause: those of the key, and then those of the value. -/
def callsOf (keyTy valTy : Ty) (key value : Value) : Calls :=
  key.typedRefs keyTy.repType ++ value.typedRefs valTy.repType

theorem performs_traversals (isKey : OfType keyRef keyTy.repType key)
    (isValue : OfType valueRef valTy.repType value)
    : Performs (clauseCode keyTy valTy .start).2
        (keySetting short u8 keyTy valTy (clauseOf varint key value)).env
        (keySetting short u8 keyTy valTy (clauseOf varint key value)).reg (traversals keyTy valTy)
        .start (startMachine keyTy valTy (clauseOf varint key value)) (.ok ())
        (fun _ after => (⟨[], 0, callsOf keyTy valTy key value⟩ : Result Calls)
          = ⟨after.output, after.keySize, after.renamer⟩) := by
  let keys := keySetting short u8 keyTy valTy (clauseOf varint key value)
  let values := valueSetting short u8 keyTy valTy (clauseOf varint key value)
  have visitsKey := keys.visits_go false key isKey
  have visitsValue := values.visits_go false value isValue
  have isAtKey : keys.At (startMachine keyTy valTy (clauseOf varint key value))
      (encodeValue varint key ++ []) := by
    rw [List.append_nil]
    exact at_start
  refine .step (steady_go false _).grows (fun _ => (steady_go false _).grows)
    (visitsKey.performs ready_start (fun _ => isAtKey)) ?_
  rintro after ⟨done, -⟩
  have large : 4 + (clauseCode keyTy valTy .start).2.csConstants.length
      ≤ keys.slot CodeS.start.csLocals := by
    have same : keys.final = (clauseCode keyTy valTy .start).2 := rfl
    rw [keys.slot_eq, same]
    omega
  obtain ⟨valueReady, valueAt⟩ := ready_value done large
  have isAtValue : values.At after (encodeValue varint value ++ []) := by
    rw [List.append_nil]
    exact valueAt
  refine .of_ok (visitsValue.performs valueReady (fun _ => isAtValue)) ?_
  rintro last ⟨more, -⟩
  rw [more.output, more.keySize, more.renamer, done.output, done.keySize, done.renamer]
  rfl

theorem ends_clauseCode (isKey : OfType keyRef keyTy.repType key)
    (isValue : OfType valueRef valTy.repType value)
    : Ends (clauseCode keyTy valTy .start).2
        (keySetting short u8 keyTy valTy (clauseOf varint key value)).env
        (keySetting short u8 keyTy valTy (clauseOf varint key value)).reg (0, 0)
        (startMachine keyTy valTy (clauseOf varint key value))
        (.ok ⟨[], 0, callsOf keyTy valTy key value⟩) := by
  have finished := clauseCode_finished keyTy valTy .start
  have growsBody : (traversals keyTy valTy).Grows .start :=
    (Code.Steady.bind (steady_go false _) (fun _ => steady_go false _)).grows .start .start
  have returns : (clauseCode keyTy valTy .start).2.Extends
      (issue .ret (traversals keyTy valTy .start).2).2 := .refl _
  have isExtended := returns.trans (Code.Grows.issue .ret growsBody.wf).extends_
  obtain ⟨_, after, ⟨rfl, isResult⟩, leads⟩ :=
    performs_traversals short u8 isKey isValue finished .start isExtended
  exact ends_of_ret finished growsBody.wf returns ⟨_, after, ⟨rfl, isResult⟩, leads⟩

theorem genTraversal_eq (keyTy valTy : Ty)
    : genTraversal keyTy valTy = .ok ((clauseCode keyTy valTy .start).2.subroutine 4) :=
  generate_eq (clauseCode_finished keyTy valTy .start) 4

theorem executes_clauseCode (short : varint.Short) (isKey : OfType keyRef keyTy.repType key)
    (isValue : OfType valueRef valTy.repType value)
    : ((clauseCode keyTy valTy .start).2.subroutine 4).Executes varint u8 record []
        ((clauseOf varint key value).key ++ (clauseOf varint key value).value)
        (traversalArgs (clauseOf varint key value)) (.ok ⟨[], 0, callsOf keyTy valTy key value⟩) := by
  have isForward : (clauseCode keyTy valTy .start).2.Forward :=
    (steady_clauseCode keyTy valTy).forward .start .start (by simp [CodeS.Forward, CodeS.start])
  exact CodeS.executes isForward (fun _ => rfl) (ends_clauseCode short u8 isKey isValue)

end Typed

end Traverse

open Traverse Bytecode Halting Validate in
/-- A traversal of a clause calls the function for its references. -/
theorem traverses_clauseOf {varint : Varint} (short : varint.Short) {u8 : U8Next} {keyTy valTy : Ty}
    {key value : Value} {ref : Pid → Id → Prop} (isKey : OfType ref keyTy.repType key)
    (isValue : OfType ref valTy.repType value) {outcome : Outcome (Result Calls)}
    : Traverses varint u8 keyTy valTy (clauseOf varint key value) outcome
      ↔ outcome = .ok ⟨[], 0, callsOf keyTy valTy key value⟩ := by
  constructor
  · rintro ⟨subroutine, isSubroutine, executes⟩
    rw [genTraversal_eq] at isSubroutine
    obtain rfl := Outcome.ok.inj isSubroutine
    exact executes.unique (executes_clauseCode u8 short isKey isValue)
  · rintro rfl
    exact ⟨_, genTraversal_eq keyTy valTy, executes_clauseCode u8 short isKey isValue⟩

open Traverse Bytecode Halting Validate in
/-- The traversal of a clause with a typed key and value calls the function for the references of the
key and then of the value, from left to right and with their predicates, and returns.
-/
theorem traverses_iff {varint : Varint} (short : varint.Short) {u8 : U8Next} {keyTy valTy : Ty}
    {key value : Value} {ref : Pid → Id → Prop} (isKey : OfType ref keyTy.repType key)
    (isValue : OfType ref valTy.repType value) {outcome : Outcome (Result Calls)}
    : (Traverses varint u8 keyTy valTy (clauseOf varint key value) outcome
        ↔ outcome = .ok ⟨[], 0, callsOf keyTy valTy key value⟩)
      ∧ (callsOf keyTy valTy key value).map Prod.fst = key.refs ++ value.refs
      ∧ ∀ call ∈ callsOf keyTy valTy key value, ref call.2 call.1 := by
  refine ⟨traverses_clauseOf short isKey isValue, ?_, ?_⟩
  · rw [callsOf, List.map_append, map_typedRefs key isKey, map_typedRefs value isValue]
  · intro call member
    rcases List.mem_append.mp member with inKey | inValue
    · exact ref_of_mem_typedRefs key isKey call inKey
    · exact ref_of_mem_typedRefs value isValue call inValue

/-- A record with a reference and an array of references. -/
theorem traverses_iff_record
    : Traverses .folly .icu (.record [.predicate 3, .array (.predicate 7)]) (.record [])
        (Traverse.clauseOf .folly (.tuple [.ref 1024, .array [.ref 1025, .ref 1026]]) (.tuple []))
        (.ok ⟨[], 0, [(1024, 3), (1025, 7), (1026, 7)]⟩) := by
  have isRef {pid : Pid} {id : Id} (small : id < 2 ^ 64)
      : Validate.OfType (fun _ _ => True) (.predicate pid) (.ref id) :=
    .ref small trivial
  have isKey : Validate.OfType (fun _ _ => True) (Ty.repType (.record [.predicate 3, .array (.predicate 7)]))
      (.tuple [.ref 1024, .array [.ref 1025, .ref 1026]]) :=
    .tuple (.cons (isRef (by decide)) (.cons (.array (by decide)
      (.cons (isRef (by decide)) (.cons (isRef (by decide)) .nil))) .nil))
  exact (traverses_iff Varint.short_folly isKey (.tuple .nil)).1.mpr rfl

end Glean.RTS
