import Glean.Bytecode.Performs
import Glean.RTS.TraverseCode
import Glean.RTS.Validate

/-! Executing a traversal: the code for a type calls the function for the references of a value, and
keeps the input in step where that is needed.
-/

namespace Glean.RTS

theorem anyHasRefs_eq_false {fields : List Rep}
    : anyHasRefs fields = false ↔ ∀ field ∈ fields, field.hasRefs = false := by
  induction fields with
  | nil => simp [anyHasRefs]
  | cons field fields ih => simp [anyHasRefs, ih]

theorem allUnit_iff {fields : List Rep}
    : allUnit fields = true ↔ ∀ field ∈ fields, field.isUnit = true := by
  induction fields with
  | nil => simp [allUnit]
  | cons field fields ih => simp [allUnit, ih]

open Validate (OfType AllOfType)

section Typed

variable {ref : Pid → Id → Prop}

mutual

/-- A value of a type without references has none. -/
theorem typedRefs_eq_nil
    : (value : Value) → {rep : Rep} → OfType ref rep value → rep.hasRefs = false →
        value.typedRefs rep = []
  | .byte _, _, .byte, _ => rfl
  | .nat _, _, .nat _, _ => rfl
  | .string _, _, .string _, _ => rfl
  | .array elements, _, .array _ all, noRefs =>
      typedRefsAll_eq_nil elements all (fun _ member => by
        rw [List.eq_of_mem_replicate member]
        exact noRefs)
  | .tuple values, _, .tuple all, noRefs =>
      typedRefsAll_eq_nil values all (anyHasRefs_eq_false.mp noRefs)
  | .alt _ value, _, .alt _ isField inside, noRefs => by
      rw [Value.typedRefs, isField]
      exact typedRefs_eq_nil value inside (anyHasRefs_eq_false.mp noRefs _
        (List.mem_of_getElem? isField))
  | .ref _, _, .ref _ _, noRefs => by cases noRefs

theorem typedRefsAll_eq_nil
    : (values : List Value) → {reps : List Rep} → AllOfType ref reps values →
        (∀ rep ∈ reps, rep.hasRefs = false) → typedRefsAll values reps = []
  | [], _, .nil, _ => rfl
  | value :: values, _, .cons first others, noRefs => by
      rw [typedRefsAll, typedRefs_eq_nil value first (noRefs _ List.mem_cons_self),
        typedRefsAll_eq_nil values others
          (fun rep member => noRefs rep (List.mem_cons_of_mem _ member))]
      rfl

end

mutual

/-- The references with their predicates are the references of the value. -/
theorem map_typedRefs
    : (value : Value) → {rep : Rep} → OfType ref rep value →
        (value.typedRefs rep).map Prod.fst = value.refs
  | .byte _, _, .byte => rfl
  | .nat _, _, .nat _ => rfl
  | .string _, _, .string _ => rfl
  | .array elements, _, .array _ all => map_typedRefsAll elements all
  | .tuple values, _, .tuple all => map_typedRefsAll values all
  | .alt _ value, _, .alt _ isField inside => by
      rw [Value.typedRefs, isField]
      exact map_typedRefs value inside
  | .ref _, _, .ref _ _ => rfl

theorem map_typedRefsAll
    : (values : List Value) → {reps : List Rep} → AllOfType ref reps values →
        (typedRefsAll values reps).map Prod.fst = refsAll values
  | [], _, .nil => rfl
  | value :: values, _, .cons first others => by
      rw [typedRefsAll, List.map_append, map_typedRefs value first, map_typedRefsAll values others]
      rfl

end

mutual

/-- The predicate that comes with a reference is the one that the reference has. -/
theorem ref_of_mem_typedRefs
    : (value : Value) → {rep : Rep} → OfType ref rep value →
        ∀ call ∈ value.typedRefs rep, ref call.2 call.1
  | .byte _, _, .byte, _, member => by cases member
  | .nat _, _, .nat _, _, member => by cases member
  | .string _, _, .string _, _, member => by cases member
  | .array elements, _, .array _ all, call, member => ref_of_mem_typedRefsAll elements all call member
  | .tuple values, _, .tuple all, call, member => ref_of_mem_typedRefsAll values all call member
  | .alt _ value, _, .alt _ isField inside, call, member => by
      rw [Value.typedRefs, isField] at member
      exact ref_of_mem_typedRefs value inside call member
  | .ref _, _, .ref _ isRef, _, member => by
      obtain rfl := List.mem_singleton.mp member
      exact isRef

theorem ref_of_mem_typedRefsAll
    : (values : List Value) → {reps : List Rep} → AllOfType ref reps values →
        ∀ call ∈ typedRefsAll values reps, ref call.2 call.1
  | [], _, .nil, _, member => by cases member
  | value :: values, _, .cons first others, call, member => by
      rw [typedRefsAll] at member
      rcases List.mem_append.mp member with isFirst | isOther
      · exact ref_of_mem_typedRefs value first call isFirst
      · exact ref_of_mem_typedRefsAll values others call isOther

end

mutual

/-- A value of a unit type takes no bytes. -/
theorem encodeValue_unit (varint : Varint)
    : (value : Value) → {rep : Rep} → OfType ref rep value → rep.isUnit = true →
        encodeValue varint value = []
  | .tuple values, _, .tuple all, isUnit => by
      rw [encodeValue]
      exact encodeValues_unit varint values all (allUnit_iff.mp isUnit)
  | .byte _, _, .byte, isUnit => by cases isUnit
  | .nat _, _, .nat _, isUnit => by cases isUnit
  | .string _, _, .string _, isUnit => by cases isUnit
  | .array _, _, .array _ _, isUnit => by cases isUnit
  | .alt _ _, _, .alt _ _ _, isUnit => by cases isUnit
  | .ref _, _, .ref _ _, isUnit => by cases isUnit

theorem encodeValues_unit (varint : Varint)
    : (values : List Value) → {reps : List Rep} → AllOfType ref reps values →
        (∀ rep ∈ reps, rep.isUnit = true) → encodeValues varint values = []
  | [], _, .nil, _ => by rw [encodeValues]
  | value :: values, _, .cons first others, isUnit => by
      rw [encodeValues, encodeValue_unit varint value first (isUnit _ List.mem_cons_self),
        encodeValues_unit varint values others
          (fun rep member => isUnit rep (List.mem_cons_of_mem _ member))]
      rfl

end

end Typed

mutual

/-- A unit type has no references. -/
theorem hasRefs_of_isUnit : (rep : Rep) → rep.isUnit = true → rep.hasRefs = false
  | .byte, _ => rfl
  | .nat, _ => rfl
  | .string, _ => rfl
  | .array _, isUnit => by cases isUnit
  | .tuple fields, isUnit => anyHasRefs_of_allUnit fields isUnit
  | .sum _, isUnit => by cases isUnit
  | .predicate _, isUnit => by cases isUnit

theorem anyHasRefs_of_allUnit
    : (fields : List Rep) → allUnit fields = true → anyHasRefs fields = false
  | [], _ => rfl
  | field :: fields, isUnit => by
      obtain ⟨first, others⟩ := (Bool.and_eq_true _ _).mp isUnit
      rw [anyHasRefs, hasRefs_of_isUnit field first, anyHasRefs_of_allUnit fields others]
      rfl

end

/-- A number below 128 takes one byte. -/
def Varint.Short (varint : Varint) : Prop :=
  ∀ number < 128, (varint.encodeVarint number).length = 1

theorem Varint.short_folly : Varint.folly.Short := by
  intro number small
  simp only [folly, encodeBytes, if_pos small, List.length_singleton]

namespace Traverse

open Bytecode

abbrev Calls := List (Id × Pid)

/-- A finished traversal that is executed on a clause, and the part of the clause that is traversed:
the key, or what follows. The end of the key is the begin of the value.
-/
structure Setting where
  final : CodeS
  env : Env Calls
  literals : env.literals = final.csLiterals
  records : env.rename = record
  short : env.varint.Short
  input : Nat
  isInput : input = 1 ∨ input = 2
  stop : Nat
  inside : stop ≤ env.clause.length

namespace Setting

variable (setting : Setting)

def reg : Register → Nat :=
  getReg 4 setting.final.csConstants.length

/-- The position of a local register in the frame. -/
def slot (index : Nat) : Nat :=
  index + 4 + setting.final.csConstants.length

def regs : Registers :=
  ⟨.input 0, .input setting.input, .input (setting.input + 1)⟩

/-- The machine can execute the traversal. -/
structure Ready (machine : Machine Calls Label) : Prop where
  length
    : machine.frame.length
      = 4 + setting.final.csConstants.length + setting.final.csMaxLocal
  callback : machine.frame[0]? = some .function
  inputend : machine.frame[setting.input + 1]? = some (.dataPtr setting.stop)
  constants
    : ∀ {index word}, setting.final.csConstants[index]? = some word →
        machine.frame[index + 4]? = some (.word word)

/-- The input is in step: it points to what is left. -/
structure At (machine : Machine Calls Label) (rest : Bytes) : Prop where
  begin : machine.frame[setting.input]? = some (.dataPtr (setting.stop - rest.length))
  isSuffix : rest <:+ setting.env.clause.take setting.stop

/-- What the machine has done: it called the function, and changed the input and registers from a
bound on.
-/
structure After (bound : Nat) (machine : Machine Calls Label) (calls : Calls)
    (after : Machine Calls Label) : Prop where
  length : after.frame.length = machine.frame.length
  kept
    : ∀ {index}, index < bound → index ≠ setting.input →
        after.frame[index]? = machine.frame[index]?
  output : after.output = machine.output
  renamer : after.renamer = machine.renamer ++ calls
  keySize : after.keySize = machine.keySize

/-- The code calls the function for the references of what the bytes encode. It needs the input in
step or not, and leaves it in step or not.
-/
structure Visits (code : Code Unit) (needs leaves : Bool) (bytes : Bytes) (calls : Calls) : Prop where
  performs
    : ∀ {state : CodeS} {machine : Machine Calls Label} {rest : Bytes}, setting.Ready machine →
        (needs = true → setting.At machine (bytes ++ rest)) →
        Performs setting.final setting.env setting.reg code state machine (.ok ())
          (fun _ after => setting.After (setting.slot state.csLocals) machine calls after
            ∧ (leaves = true → setting.At after rest))

variable {setting} {machine after later : Machine Calls Label} {bytes rest : Bytes}
  {calls more : Calls} {bound : Nat}

@[simp]
theorem reg_local (index : Nat) : setting.reg (.local index) = setting.slot index := rfl

@[simp]
theorem reg_constant (index : Nat) : setting.reg (.constant index) = index + 4 := rfl

@[simp]
theorem reg_callback : setting.reg setting.regs.callback = 0 := rfl

@[simp]
theorem reg_input : setting.reg setting.regs.input = setting.input := rfl

@[simp]
theorem reg_inputend : setting.reg setting.regs.inputend = setting.input + 1 := rfl

theorem slot_eq (index : Nat)
    : setting.slot index = index + 4 + setting.final.csConstants.length :=
  rfl

theorem After.refl : setting.After bound machine [] machine :=
  ⟨rfl, fun _ _ => rfl, rfl, (List.append_nil _).symm, rfl⟩

theorem After.mono {smaller : Nat} (done : setting.After bound machine calls after)
    (isSmaller : smaller ≤ bound)
    : setting.After smaller machine calls after :=
  { done with kept := fun inside => done.kept (by omega) }

theorem After.trans (lower : setting.After bound machine calls after)
    (upper : setting.After bound after more later)
    : setting.After bound machine (calls ++ more) later where
  length := upper.length.trans lower.length
  kept inside notInput := (upper.kept inside notInput).trans (lower.kept inside notInput)
  output := upper.output.trans lower.output
  renamer := by rw [upper.renamer, lower.renamer, List.append_assoc]
  keySize := upper.keySize.trans lower.keySize

/-- A register from the bound on changes, or the input. -/
theorem After.set (done : setting.After bound machine calls after) {slot : Nat}
    (isFree : bound ≤ slot ∨ slot = setting.input) (contents : Contents Label)
    : setting.After bound machine calls { after with frame := after.frame.set slot contents } where
  length := by simp [done.length]
  kept inside notInput := by
    rw [List.getElem?_set_ne (by omega)]
    exact done.kept inside notInput
  output := done.output
  renamer := done.renamer
  keySize := done.keySize

theorem Ready.next (ready : setting.Ready machine)
    (done : setting.After bound machine calls after)
    (large : 4 + setting.final.csConstants.length ≤ bound)
    : setting.Ready after where
  length := done.length.trans ready.length
  callback := by
    have isInput := setting.isInput
    exact (done.kept (by omega) (by omega)).trans ready.callback
  inputend := by
    have isInput := setting.isInput
    exact (done.kept (by omega) (by omega)).trans ready.inputend
  constants := by
    intro index word isConstant
    have isInput := setting.isInput
    have inside := (List.getElem?_eq_some_iff.mp isConstant).1
    exact (done.kept (by omega) (by omega)).trans (ready.constants isConstant)

/-- The input stays in step where its register does not change. -/
theorem At.of_eq (isAt : setting.At machine rest)
    (same : after.frame[setting.input]? = machine.frame[setting.input]?)
    : setting.At after rest :=
  ⟨same.trans isAt.begin, isAt.isSuffix⟩

theorem At.set (isAt : setting.At machine rest) {slot : Nat} (isOther : slot ≠ setting.input)
    (contents : Contents Label)
    : setting.At { machine with frame := machine.frame.set slot contents } rest :=
  isAt.of_eq (List.getElem?_set_ne isOther)

theorem At.stop_eq (isAt : setting.At machine rest)
    : ∃ before, setting.env.clause.take setting.stop = before ++ rest
        ∧ setting.stop = before.length + rest.length := by
  obtain ⟨before, isSplit⟩ := isAt.isSuffix
  have length := congrArg List.length isSplit
  rw [List.length_append, List.length_take, Nat.min_eq_left setting.inside] at length
  exact ⟨before, isSplit.symm, length.symm⟩

theorem At.input_eq (isAt : setting.At machine rest) (ready : setting.Ready machine)
    : machine.input setting.env setting.input (setting.input + 1) = .ok rest := by
  obtain ⟨before, isSplit, isStop⟩ := isAt.stop_eq
  have start : setting.stop - rest.length = before.length := by omega
  have inside := setting.inside
  simp only [Machine.input, Machine.dataPtr, isAt.begin, ready.inputend, Outcome.ok_bind, start,
    isSplit, List.drop_left]
  rw [if_pos ⟨by omega, inside⟩]

/-- The machine whose input points to what is left. -/
def moved (setting : Setting) (machine : Machine Calls Label) (rest : Bytes)
    : Machine Calls Label :=
  { machine with
      frame := machine.frame.set setting.input (.dataPtr (setting.stop - rest.length)) }

theorem after_moved (machine : Machine Calls Label) (rest : Bytes) (bound : Nat)
    : setting.After bound machine [] (setting.moved machine rest) :=
  After.refl.set (.inr rfl) _

theorem at_moved (inside : setting.input < machine.frame.length)
    (isSuffix : rest <:+ setting.env.clause.take setting.stop)
    : setting.At (setting.moved machine rest) rest :=
  ⟨List.getElem?_set_self inside, isSuffix⟩

theorem Ready.input_lt (ready : setting.Ready machine) : setting.input < machine.frame.length := by
  have inside := (List.getElem?_eq_some_iff.mp ready.inputend).1
  omega

theorem Ready.advance_eq (isEnd : machine.frame[setting.input + 1]? = some (.dataPtr setting.stop))
    (rest : Bytes)
    : machine.advance setting.input (setting.input + 1) rest = .ok (setting.moved machine rest) := by
  have inside := (List.getElem?_eq_some_iff.mp isEnd).1
  simp only [Machine.advance, Machine.dataPtr, isEnd, Outcome.ok_bind, Machine.set]
  rw [if_pos (by omega)]
  rfl

theorem At.suffix (isAt : setting.At machine (bytes ++ rest))
    : rest <:+ setting.env.clause.take setting.stop :=
  (List.suffix_append bytes rest).trans isAt.isSuffix

variable {first second : Code Unit} {needs middle leaves : Bool} {state : CodeS} {index : Nat}

theorem Visits.pure : setting.Visits (return ()) leaves leaves [] [] :=
  ⟨fun _ isAt => .pure () ⟨.refl, isAt⟩⟩

theorem Visits.weaken (visits : setting.Visits first needs true bytes calls)
    : setting.Visits first needs leaves bytes calls :=
  ⟨fun ready isAt => .of_ok (visits.performs ready isAt)
    (fun _ done => ⟨done.1, fun _ => done.2 rfl⟩)⟩

theorem Visits.bind {left right : Bytes} (growsFirst : first.AlwaysGrows)
    (growsSecond : second.AlwaysGrows) (isFirst : setting.Visits first needs middle left calls)
    (isSecond : setting.Visits second middle leaves right more)
    : setting.Visits (first >>= fun _ => second) needs leaves (left ++ right) (calls ++ more) := by
  refine ⟨fun {state machine rest} ready isAt finished wf isExtended => ?_⟩
  have sameLocals := (growsFirst state wf).csLocals
  have isSlot := setting.slot_eq state.csLocals
  have firstAt : needs = true → setting.At machine (left ++ (right ++ rest)) := by
    rw [← List.append_assoc]
    exact isAt
  refine Performs.step growsFirst (fun _ => growsSecond) (isFirst.performs ready firstAt) ?_ finished wf
    isExtended
  rintro after ⟨done, isMiddle⟩
  refine .of_ok (isSecond.performs (ready.next done (by omega)) isMiddle) (fun last next => ?_)
  rw [sameLocals] at next
  exact ⟨done.trans next.1, next.2⟩

/-- Code that is left out where it is not needed. -/
theorem Visits.when {condition : Bool} (visits : setting.Visits first true leaves bytes calls)
    (none : condition = false → calls = [] ∧ leaves = false)
    : setting.Visits (Traverse.when condition first) condition leaves bytes calls := by
  cases condition with
  | true => exact visits
  | false =>
      obtain ⟨rfl, rfl⟩ := none rfl
      exact ⟨fun _ _ => .pure () ⟨.refl, fun isTrue => by cases isTrue⟩⟩

/-- An instruction that moves the input. -/
theorem performs_moves {insn : Instruction} (isFall : insn.insnControl = .fallThrough)
    (executes : execute setting.env machine (insn.map setting.reg id)
      = .next (setting.moved machine rest))
    (ready : setting.Ready machine) (isAt : setting.At machine (bytes ++ rest))
    : Performs setting.final setting.env setting.reg (issue insn) state machine (.ok ())
        (fun _ after => setting.After bound machine [] after ∧ (leaves = true → setting.At after rest)) :=
  .issue_next isFall executes
    ⟨setting.after_moved machine rest bound, fun _ => at_moved ready.input_lt isAt.suffix⟩

theorem packed_encodeVarint {number : Nat} (small : number < 2 ^ 64) (rest : Bytes)
    : Input.packed setting.env.varint (setting.env.varint.encodeVarint number ++ rest)
      = .ok (number, rest) := by
  rw [Input.packed, setting.env.varint.decode_encode rest small]

/-- A pointer is moved over a number of bytes. -/
theorem increase_eq (ready : setting.Ready machine) (isAt : setting.At machine (bytes ++ rest))
    : machine.increase setting.input bytes.length = .ok (setting.moved machine rest) := by
  obtain ⟨before, -, isStop⟩ := isAt.stop_eq
  rw [List.length_append] at isStop
  have isBehind : setting.stop - (bytes ++ rest).length + bytes.length
      = setting.stop - rest.length := by
    rw [List.length_append]
    omega
  simp only [Machine.increase, isAt.begin, Machine.set, if_pos ready.input_lt, isBehind]
  rfl

theorem visits_addConst (setting : Setting) (byte : Byte)
    : setting.Visits (issue (.addConst 1 setting.regs.input)) true leaves [byte] [] := by
  refine ⟨fun {state machine rest} ready isAt => ?_⟩
  refine performs_moves rfl ?_ ready (isAt rfl)
  have increases := increase_eq ready (isAt rfl)
  rw [List.length_singleton] at increases
  simp only [Insn.map, execute, reg_input, increases]
  rfl

theorem visits_inputSkipNat (setting : Setting) {number : Nat} (small : number < 2 ^ 64)
    : setting.Visits (issue (.inputSkipNat setting.regs.input setting.regs.inputend)) true leaves
        (setting.env.varint.encodeVarint number) [] := by
  refine ⟨fun {state machine rest} ready isAt => ?_⟩
  refine performs_moves rfl ?_ ready (isAt rfl)
  simp only [Insn.map, execute, reg_input, reg_inputend, (isAt rfl).input_eq ready, Outcome.ok_bind,
    packed_encodeVarint small, Ready.advance_eq ready.inputend]
  rfl

theorem visits_inputSkipTrustedString (setting : Setting) (text : Bytes)
    : setting.Visits (issue (.inputSkipTrustedString setting.regs.input setting.regs.inputend)) true
        leaves (mangleString text) [] := by
  refine ⟨fun {state machine rest} ready isAt => ?_⟩
  refine performs_moves rfl ?_ ready (isAt rfl)
  simp only [Insn.map, execute, reg_input, reg_inputend, (isAt rfl).input_eq ready, Outcome.ok_bind,
    skipTrustedString_mangleString, List.drop_left, Ready.advance_eq ready.inputend]
  rfl

/-- A number is read to a local register. -/
theorem performs_inputNat {number : Nat} (small : number < 2 ^ 64) (ready : setting.Ready machine)
    (isAt : setting.At machine (setting.env.varint.encodeVarint number ++ rest))
    (inside : index < setting.final.csMaxLocal)
    : Performs setting.final setting.env setting.reg
        (issue (.inputNat setting.regs.input setting.regs.inputend (.local index))) state machine
        (.ok ())
        (fun _ after => setting.After (setting.slot index) machine [] after ∧ setting.At after rest
          ∧ after.frame[setting.slot index]? = some (.word number)) := by
  have isSlot := setting.slot_eq index
  have isInput := setting.isInput
  have length := ready.length
  have bound : setting.slot index < machine.frame.length := by omega
  let loaded : Machine Calls Label :=
    { machine with frame := machine.frame.set (setting.slot index) (.word number) }
  have isEnd : loaded.frame[setting.input + 1]? = some (.dataPtr setting.stop) := by
    rw [List.getElem?_set_ne (by omega), ready.inputend]
  have executes : execute setting.env machine
      ((Insn.inputNat setting.regs.input setting.regs.inputend (.local index)).map setting.reg id)
      = .next (setting.moved loaded rest) := by
    simp only [Insn.map, execute, reg_input, reg_inputend, reg_local, isAt.input_eq ready,
      Outcome.ok_bind, packed_encodeVarint small, Machine.set, if_pos bound]
    exact congrArg Effect.ofOutcome (Ready.advance_eq isEnd rest)
  have done : setting.After (setting.slot index) machine [] loaded :=
    After.refl.set (.inl (Nat.le_refl _)) _
  have inputInside : setting.input < loaded.frame.length := by
    rw [done.length]
    exact ready.input_lt
  refine .issue_next rfl executes
    ⟨done.set (.inr rfl) _, at_moved inputInside isAt.suffix, ?_⟩
  exact (List.getElem?_set_ne (by omega)).trans (List.getElem?_set_self bound)

end Setting

end Traverse

end Glean.RTS
