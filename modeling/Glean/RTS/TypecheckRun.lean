import Glean.Bytecode.Performs
import Glean.RTS.Encoding
import Glean.RTS.TypecheckCode

/-! Executing the typechecker: the code for a type does what checking the type does.
-/

namespace Glean.RTS.Typecheck

open Bytecode

variable {σ : Type}

/-- A finished typechecker that is executed on a clause, and the part of the clause that is
checked: the key, or what follows.
-/
structure Setting (σ : Type) where
  final : CodeS
  env : Env σ
  literals : env.literals = final.csLiterals
  inputend : Nat
  isEnd : inputend = 2 ∨ inputend = 3
  stop : Nat
  inside : stop ≤ env.clause.length

namespace Setting

variable (setting : Setting σ)

def reg : Register → Nat :=
  getReg 6 setting.final.csConstants.length

/-- The position of a local register in the frame. -/
def slot (index : Nat) : Nat :=
  index + 6 + setting.final.csConstants.length

def regs : Registers :=
  ⟨.input 0, .input 1, .input setting.inputend, .input 4⟩

/-- The machine is about to read the input. -/
structure Valid (machine : Machine σ Label) (input : Bytes) : Prop where
  length
    : machine.frame.length
      = 6 + setting.final.csConstants.length + setting.final.csMaxLocal
  rename : machine.frame[0]? = some .function
  begin : machine.frame[1]? = some (.dataPtr (setting.stop - input.length))
  inputend : machine.frame[setting.inputend]? = some (.dataPtr setting.stop)
  output : machine.frame[4]? = some .output
  constants
    : ∀ {index word}, setting.final.csConstants[index]? = some word →
        machine.frame[index + 6]? = some (.word word)
  isSuffix : input <:+ setting.env.clause.take setting.stop

/-- What the machine has done to the input. Registers from a bound on may have changed. -/
structure After (bound : Nat) (machine : Machine σ Label) (input : Bytes) (checked : Checked σ)
    (after : Machine σ Label) : Prop where
  length : after.frame.length = machine.frame.length
  kept : ∀ {index}, index < bound → index ≠ 1 → after.frame[index]? = machine.frame[index]?
  begin : after.frame[1]? = some (.dataPtr (setting.stop - checked.rest.length))
  output : after.output = machine.output ++ checked.output
  renamer : after.renamer = checked.state
  keySize : after.keySize = machine.keySize
  isSuffix : checked.rest <:+ input

/-- The code does what a check does. -/
def Checks (code : Code Unit) (check : Bytes → σ → Outcome (Checked σ)) : Prop :=
  ∀ {state : CodeS} {machine : Machine σ Label} {input : Bytes}, setting.Valid machine input →
    Performs setting.final setting.env setting.reg code state machine
      (check input machine.renamer)
      (setting.After (setting.slot state.csLocals) machine input)

variable {setting} {machine after later : Machine σ Label} {input rest : Bytes} {bound : Nat}

@[simp]
theorem reg_local (index : Nat) : setting.reg (.local index) = setting.slot index := rfl

@[simp]
theorem reg_constant (index : Nat) : setting.reg (.constant index) = index + 6 := rfl

@[simp]
theorem reg_rename : setting.reg setting.regs.rename = 0 := rfl

@[simp]
theorem reg_input : setting.reg setting.regs.input = 1 := rfl

@[simp]
theorem reg_inputend : setting.reg setting.regs.inputend = setting.inputend := rfl

@[simp]
theorem reg_output : setting.reg setting.regs.output = 4 := rfl

theorem slot_eq (index : Nat)
    : setting.slot index = index + 6 + setting.final.csConstants.length :=
  rfl

theorem After.refl (valid : setting.Valid machine input)
    : setting.After bound machine input ⟨input, [], machine.renamer⟩ machine :=
  ⟨rfl, fun _ _ => rfl, valid.begin, by simp, rfl, rfl, List.suffix_rfl⟩

theorem After.mono {smaller : Nat} {checked : Checked σ}
    (done : setting.After bound machine input checked after) (isSmaller : smaller ≤ bound)
    : setting.After smaller machine input checked after :=
  { done with kept := fun inside => done.kept (by omega) }

theorem After.trans {first second : Checked σ}
    (lower : setting.After bound machine input first after)
    (upper : setting.After bound after first.rest second later)
    : setting.After bound machine input
        { second with output := first.output ++ second.output } later where
  length := upper.length.trans lower.length
  kept inside notInput := (upper.kept inside notInput).trans (lower.kept inside notInput)
  begin := upper.begin
  output := by rw [upper.output, lower.output, List.append_assoc]
  renamer := upper.renamer
  keySize := upper.keySize.trans lower.keySize
  isSuffix := upper.isSuffix.trans lower.isSuffix

theorem Valid.next {checked : Checked σ} (valid : setting.Valid machine input)
    (done : setting.After bound machine input checked after)
    (large : 6 + setting.final.csConstants.length ≤ bound)
    : setting.Valid after checked.rest where
  length := done.length.trans valid.length
  rename := (done.kept (by omega) (by omega)).trans valid.rename
  begin := done.begin
  inputend := by
    have isEnd := setting.isEnd
    exact (done.kept (by omega) (by omega)).trans valid.inputend
  output := (done.kept (by omega) (by omega)).trans valid.output
  constants := by
    intro index word isConstant
    have inside := (List.getElem?_eq_some_iff.mp isConstant).1
    exact (done.kept (by omega) (by omega)).trans (valid.constants isConstant)
  isSuffix := done.isSuffix.trans valid.isSuffix

theorem Valid.stop_eq (valid : setting.Valid machine input)
    : ∃ before, setting.env.clause.take setting.stop = before ++ input
        ∧ setting.stop = before.length + input.length := by
  obtain ⟨before, isSplit⟩ := valid.isSuffix
  have length := congrArg List.length isSplit
  rw [List.length_append, List.length_take, Nat.min_eq_left setting.inside] at length
  exact ⟨before, isSplit.symm, length.symm⟩

theorem Valid.dataPtr_begin (valid : setting.Valid machine input)
    : machine.dataPtr 1 = .ok (setting.stop - input.length) := by
  simp only [Machine.dataPtr, valid.begin]

theorem Valid.dataPtr_inputend (valid : setting.Valid machine input)
    : machine.dataPtr setting.inputend = .ok setting.stop := by
  simp only [Machine.dataPtr, valid.inputend]

theorem Valid.input_eq (valid : setting.Valid machine input)
    : machine.input setting.env 1 setting.inputend = .ok input := by
  obtain ⟨before, isSplit, isStop⟩ := valid.stop_eq
  have start : setting.stop - input.length = before.length := by omega
  have inside := setting.inside
  simp only [Machine.input, valid.dataPtr_begin, valid.dataPtr_inputend, Outcome.ok_bind, start,
    isSplit, List.drop_left]
  rw [if_pos ⟨by omega, inside⟩]

/-- The input register points behind what was read. -/
theorem advance_eq (isEnd : machine.frame[setting.inputend]? = some (.dataPtr setting.stop))
    (rest : Bytes)
    : machine.advance 1 setting.inputend rest
      = .ok { machine with
          frame := machine.frame.set 1 (.dataPtr (setting.stop - rest.length)) } := by
  have atEnd : machine.dataPtr setting.inputend = .ok setting.stop := by
    simp only [Machine.dataPtr, isEnd]
  have length := (List.getElem?_eq_some_iff.mp isEnd).1
  have cases := setting.isEnd
  simp only [Machine.advance, atEnd, Outcome.ok_bind, Machine.set]
  rw [if_pos (by omega)]

variable {state : CodeS} {index : Nat}

theorem packed_suffix {varint : Varint} {result : Nat × Bytes}
    (decoded : Input.packed varint input = .ok result)
    : result.1 < 2 ^ 64 ∧ result.2 <:+ input := by
  rw [Input.packed] at decoded
  split at decoded
  next isDecoded =>
    cases decoded
    obtain ⟨small, bytes, -, isPrefix, -⟩ := varint.decode_prefix isDecoded
    exact ⟨small, bytes, isPrefix.symm⟩
  next => cases decoded

/-- The machine behind a number that was read to a register. -/
def read (setting : Setting σ) (machine : Machine σ Label) (dst : Nat) (result : Nat × Bytes)
    : Machine σ Label :=
  { machine with
      frame := (machine.frame.set dst (.word result.1)).set 1
        (.dataPtr (setting.stop - result.2.length)) }

theorem execute_inputNat (valid : setting.Valid machine input)
    (inside : index < setting.final.csMaxLocal)
    : execute setting.env machine
        ((Insn.inputNat setting.regs.input setting.regs.inputend (.local index)).map setting.reg id)
      = .ofOutcome (Input.packed setting.env.varint input >>= fun result =>
          .ok (setting.read machine (setting.slot index) result)) := by
  have cases := setting.isEnd
  have length := valid.length
  have bound : setting.slot index < machine.frame.length := by
    rw [slot_eq]
    omega
  have isEnd (value : Nat) : (machine.frame.set (setting.slot index) (.word value))[
      setting.inputend]? = some (.dataPtr setting.stop) := by
    rw [List.getElem?_set_ne (by rw [slot_eq]; omega), valid.inputend]
  simp only [Insn.map, execute, reg_input, reg_inputend, reg_local, valid.input_eq, Outcome.ok_bind, Machine.set,
    if_pos bound]
  congr 2
  funext result
  exact advance_eq (isEnd result.1) result.2

theorem execute_outputNat {word : Nat} (isOutput : machine.frame[4]? = some .output)
    (isWord : machine.frame[setting.slot index]? = some (.word word))
    : execute setting.env machine
        ((Insn.outputNat (.local index) setting.regs.output).map setting.reg id)
      = .next { machine with output := machine.output ++ setting.env.varint.encodeVarint word } := by
  simp only [Insn.map, execute, reg_output, reg_local, Machine.pointsTo, isOutput, Machine.word, isWord,
    Outcome.ok_bind]
  rfl

theorem after_read {result : Nat × Bytes} (valid : setting.Valid machine input)
    (inside : index < setting.final.csMaxLocal) (isSuffix : result.2 <:+ input)
    : setting.After (setting.slot index) machine input ⟨result.2, [], machine.renamer⟩
        (setting.read machine (setting.slot index) result)
      ∧ (setting.read machine (setting.slot index) result).frame[
          setting.slot index]? = some (.word result.1) := by
  have length := valid.length
  have isLocal := setting.slot_eq index
  refine ⟨⟨by simp [read], ?_, ?_, by simp [read], rfl, rfl, isSuffix⟩, ?_⟩
  · intro other isSmaller notInput
    simp only [read]
    rw [List.getElem?_set_ne (by omega), List.getElem?_set_ne (by omega)]
  · simp only [read]
    rw [List.getElem?_set_self (by rw [List.length_set]; omega)]
  · simp only [read]
    rw [List.getElem?_set_ne (by omega), List.getElem?_set_self (by omega)]

/-- A number is read to a local register and written. -/
theorem performs_copyNat (valid : setting.Valid machine input)
    (inside : index < setting.final.csMaxLocal)
    : Performs setting.final setting.env setting.reg (copyNat setting.regs (.local index)) state
        machine (Input.packed setting.env.varint input)
        (fun result after =>
          setting.After (setting.slot index) machine input
            ⟨result.2, setting.env.varint.encodeVarint result.1, machine.renamer⟩ after
          ∧ after.frame[setting.slot index]? = some (.word result.1) ∧ result.1 < 2 ^ 64) := by
  rw [← Outcome.bind_ok (Input.packed setting.env.varint input)]
  refine .bind (.issue _) (fun _ => .issue _) (.issue rfl (execute_inputNat valid inside)) ?_
  rintro result _ ⟨decoded, rfl⟩
  obtain ⟨done, isWord⟩ := after_read valid inside (packed_suffix decoded).2
  have isOutput := (valid.next done (by rw [slot_eq]; omega)).output
  refine .issue_next rfl (execute_outputNat isOutput isWord)
    ⟨?_, isWord, (packed_suffix decoded).1⟩
  exact { done with output := by simp [done.output] }

theorem loaded_frame (contents : Contents Label) {slot other : Nat} (isOther : other ≠ slot)
    : (machine.frame.set slot contents)[other]? = machine.frame[other]? :=
  List.getElem?_set_ne (Ne.symm isOther)

/-- The registers that were in use are not changed by a pointer in a local register. -/
theorem Valid.load (valid : setting.Valid machine input) (contents : Contents Label) (index : Nat)
    : setting.Valid
        { machine with frame := machine.frame.set (setting.slot index) contents } input := by
  have isLocal := setting.slot_eq index
  have cases := setting.isEnd
  refine ⟨by simp [valid.length], ?_, ?_, ?_, ?_, ?_, valid.isSuffix⟩
  · exact (loaded_frame contents (by omega)).trans valid.rename
  · exact (loaded_frame contents (by omega)).trans valid.begin
  · exact (loaded_frame contents (by omega)).trans valid.inputend
  · exact (loaded_frame contents (by omega)).trans valid.output
  · intro position word isConstant
    have inside := (List.getElem?_eq_some_iff.mp isConstant).1
    exact (loaded_frame contents (by omega)).trans (valid.constants isConstant)

/-- An instruction that skips a part of the input. It may depend on registers in use. -/
structure Skips (setting : Setting σ) (machine : Machine σ Label) (bound : Nat)
    (insn : Instruction) (skip : Bytes → Outcome Bytes) : Prop where
  isFall : insn.insnControl = .fallThrough
  executes
    : ∀ {other : Machine σ Label} {input : Bytes}, setting.Valid other input →
        (∀ index < bound, index ≠ 1 → other.frame[index]? = machine.frame[index]?) →
          execute setting.env other (insn.map setting.reg id)
            = .ofOutcome (skip input >>= fun rest => other.advance 1 setting.inputend rest)
  isSuffix : ∀ {input rest}, skip input = .ok rest → rest <:+ input

theorem execute_outputBytes (valid : setting.Valid machine input)
    (isSuffix : rest <:+ input)
    (isOutput : after.frame[4]? = some .output)
    (isPtr : after.frame[setting.slot index]?
      = some (.dataPtr (setting.stop - input.length)))
    (isBegin : after.frame[1]? = some (.dataPtr (setting.stop - rest.length)))
    : execute setting.env after
        ((Insn.outputBytes (.local index) setting.regs.input setting.regs.output).map
          setting.reg id)
      = .next { after with
          output := after.output ++ input.take (input.length - rest.length) } := by
  obtain ⟨before, isSplit, isStop⟩ := valid.stop_eq
  obtain ⟨bytes, rfl⟩ := isSuffix
  have inside := setting.inside
  rw [List.length_append] at isStop
  have start : setting.stop - (bytes ++ rest).length = before.length := by
    rw [List.length_append]
    omega
  have finish : setting.stop - rest.length = before.length + bytes.length := by omega
  have isTaken : (setting.env.clause.take (before.length + bytes.length)).drop before.length
      = bytes := by
    have shorter : setting.env.clause.take (before.length + bytes.length)
        = (setting.env.clause.take setting.stop).take (before.length + bytes.length) := by
      rw [List.take_take, Nat.min_eq_left (by omega)]
    rw [shorter, isSplit, ← List.append_assoc, ← List.length_append, List.take_left,
      List.drop_left]
  rw [start] at isPtr
  rw [finish] at isBegin
  have taken : bytes = (bytes ++ rest).take ((bytes ++ rest).length - rest.length) := by
    rw [List.length_append, Nat.add_sub_cancel, List.take_left]
  rw [← taken]
  simp only [Insn.map, execute, reg_output, reg_input, reg_local, Machine.pointsTo, isOutput, Machine.input,
    Machine.dataPtr, isPtr, isBegin, Outcome.ok_bind, isTaken]
  rw [if_pos ⟨by omega, by omega⟩]
  rfl

theorem execute_loadReg (valid : setting.Valid machine input)
    (inside : index < setting.final.csMaxLocal)
    : execute setting.env machine ((Insn.loadReg setting.regs.input (.local index)).map setting.reg id)
      = .next { machine with
          frame := machine.frame.set (setting.slot index)
            (.dataPtr (setting.stop - input.length)) } := by
  have length := valid.length
  have bound : setting.slot index < machine.frame.length := by
    rw [slot_eq]
    omega
  simp only [Insn.map, execute, reg_input, reg_local, valid.begin, Machine.set, if_pos bound]
  rfl

theorem performs_copyBytes {insn : Instruction} {skip : Bytes → Outcome Bytes}
    (valid : setting.Valid machine input)
    (skips : setting.Skips machine (setting.slot state.csLocals) insn skip)
    : Performs setting.final setting.env setting.reg (copyBytes setting.regs insn) state machine
        (skip input >>= fun rest => .ok (copied input rest machine.renamer))
        (setting.After (setting.slot state.csLocals) machine input) := by
  refine .withLocal (.bind (.issue _) (fun _ => .bind (.issue _) (fun _ => .issue _)))
    (fun inside => ?_)
  have isLocal := setting.slot_eq state.csLocals
  have cases := setting.isEnd
  have length := valid.length
  let ptr := setting.slot state.csLocals
  let loaded : Machine σ Label :=
    { machine with frame := machine.frame.set ptr (.dataPtr (setting.stop - input.length)) }
  have loads : Performs setting.final setting.env setting.reg
      (issue (.loadReg setting.regs.input (.local state.csLocals))) state.withLocal machine
      (.ok ()) (fun _ after => after = loaded) :=
    .issue_next rfl (execute_loadReg valid inside) rfl
  refine .step (.issue _) (fun _ => .bind (.issue _) (fun _ => .issue _)) loads ?_
  rintro _ rfl
  have kept (other : Nat) (isOther : other < ptr) : loaded.frame[other]? = machine.frame[other]? :=
    loaded_frame _ (by omega)
  have loadedValid : setting.Valid loaded input := valid.load _ _
  have executes := skips.executes loadedValid (fun other isOther _ => kept other isOther)
  simp only [setting.advance_eq loadedValid.inputend] at executes
  refine .bind (.issue _) (fun _ => .issue _) (.issue skips.isFall executes) ?_
  rintro rest _ ⟨isRest, rfl⟩
  have isSuffix := skips.isSuffix isRest
  have isOutput : (loaded.frame.set 1 (.dataPtr (setting.stop - rest.length)))[4]? = some .output :=
    (loaded_frame _ (by omega)).trans loadedValid.output
  have isPtr : (loaded.frame.set 1 (.dataPtr (setting.stop - rest.length)))[ptr]?
      = some (.dataPtr (setting.stop - input.length)) := by
    rw [loaded_frame _ (by omega), List.getElem?_set_self (by omega)]
  have isBegin : (loaded.frame.set 1 (.dataPtr (setting.stop - rest.length)))[1]?
      = some (.dataPtr (setting.stop - rest.length)) := by
    rw [List.getElem?_set_self (by rw [loadedValid.length]; omega)]
  refine .issue_next rfl (execute_outputBytes valid isSuffix isOutput isPtr isBegin)
    ⟨by simp [loaded], ?_, isBegin, rfl, rfl, rfl, isSuffix⟩
  intro other isSmaller notInput
  exact (loaded_frame _ notInput).trans (kept other isSmaller)

theorem skips_inputBytes {size : Register} {word : Nat}
    (isWord : machine.frame[setting.reg size]? = some (.word word))
    (isSmaller : setting.reg size < bound) (notInput : setting.reg size ≠ 1)
    : setting.Skips machine bound (.inputBytes setting.regs.input setting.regs.inputend size)
        (fun input => Input.bytes input word) where
  isFall := rfl
  executes := by
    intro other input valid kept
    have isSize := (kept _ isSmaller notInput).trans isWord
    simp only [Insn.map, execute, reg_input, reg_inputend, valid.input_eq, Machine.word, isSize,
      Outcome.ok_bind]
  isSuffix := by
    intro input rest skipped
    rw [Input.bytes] at skipped
    split at skipped
    · cases skipped
    · cases skipped
      exact List.drop_suffix _ _

theorem skips_string (machine : Machine σ Label) (bound : Nat)
    : setting.Skips machine bound
        (.inputSkipUntrustedString setting.regs.input setting.regs.inputend)
        (Input.skipUntrustedString setting.env.u8) where
  isFall := rfl
  executes := by
    intro other input valid _
    simp only [Insn.map, execute, reg_input, reg_inputend, valid.input_eq, Outcome.ok_bind]
  isSuffix := by
    intro input rest skipped
    obtain ⟨size, -, isRest⟩ := Outcome.bind_eq_ok.mp skipped
    cases isRest
    exact List.drop_suffix _ _

/-- Checking a type, with what the environment provides. -/
abbrev checkType (setting : Setting σ) (ty : Ty) : Bytes → σ → Outcome (Checked σ) :=
  checkTy setting.env.varint setting.env.u8 setting.env.rename ty

/-- A constant is kept by all code. -/
theorem Valid.word_constant {word : Nat} (valid : setting.Valid machine input)
    (isConstant : setting.final.csConstants[index]? = some word) (count : Nat)
    : machine.frame[setting.reg (.constant index)]? = some (.word word)
      ∧ setting.reg (.constant index) < setting.slot count := by
  have inside := (List.getElem?_eq_some_iff.mp isConstant).1
  refine ⟨valid.constants isConstant, ?_⟩
  rw [reg_constant, slot_eq]
  omega

theorem checks_byte : setting.Checks (tc setting.regs .byte) (setting.checkType .byte) := by
  intro state machine input valid
  rw [tc]
  refine .step (.constant 1) (fun _ => (steady_copyBytes (by simp)).grows) (.constant 1) ?_
  rintro after ⟨rfl, index, isRegister, isConstant⟩
  obtain ⟨isWord, isSmaller⟩ := valid.word_constant isConstant (constant 1 state).2.csLocals
  rw [isRegister, checkType, checkTy]
  exact performs_copyBytes valid (skips_inputBytes isWord isSmaller (by simp))

theorem checks_nat : setting.Checks (tc setting.regs .nat) (setting.checkType .nat) := by
  intro state machine input valid
  rw [tc, checkType, checkTy]
  refine .withLocal (steady_copyNat _).grows (fun inside => ?_)
  let change (result : Nat × Bytes) : Checked σ :=
    ⟨result.2, setting.env.varint.encodeVarint result.1, machine.renamer⟩
  exact .map change (performs_copyNat valid inside) (fun _ _ done => done.1)

theorem checks_string : setting.Checks (tc setting.regs .string) (setting.checkType .string) := by
  intro state machine input valid
  rw [tc]
  exact performs_copyBytes valid (skips_string machine _)

theorem execute_callFun {word type : Nat} {pid : Register}
    (isFunction : machine.frame[0]? = some .function)
    (isWord : machine.frame[setting.slot index]? = some (.word word))
    (isPid : machine.frame[setting.reg pid]? = some (.word type))
    : execute setting.env machine ((Insn.callFun_2_1 setting.regs.rename (.local index) pid
          (.local index)).map setting.reg id)
      = .ofOutcome (setting.env.rename word type machine.renamer >>= fun result =>
          .ok { machine with
            frame := machine.frame.set (setting.slot index) (.word result.1)
            renamer := result.2 }) := by
  have inside := (List.getElem?_eq_some_iff.mp isWord).1
  simp only [Insn.map, execute, reg_rename, reg_local, Machine.pointsTo, isFunction, Machine.word,
    isWord, isPid, Outcome.ok_bind, Machine.set, if_pos inside]
  rfl

theorem checks_predicate (pid : Pid)
    : setting.Checks (tc setting.regs (.predicate pid)) (setting.checkType (.predicate pid)) := by
  intro state machine input valid
  rw [tc]
  refine .withLocal (.bind (.constant pid) (fun _ => .bind (.issue _) (fun _ =>
    .bind (.issue _) (fun _ => .issue _)))) (fun inside => ?_)
  refine .step (.constant pid) (fun _ => .bind (.issue _) (fun _ =>
    .bind (.issue _) (fun _ => .issue _))) (.constant pid) ?_
  rintro after ⟨rfl, index, isRegister, isConstant⟩
  rw [isRegister]
  refine .bind (.issue _) (fun _ => .bind (.issue _) (fun _ => .issue _))
    (.issue rfl (execute_inputNat valid inside)) ?_
  rintro ⟨id, rest⟩ _ ⟨decoded, rfl⟩
  obtain ⟨done, isWord⟩ := after_read valid inside (packed_suffix decoded).2
  have afterValid := valid.next done (by rw [slot_eq]; omega)
  obtain ⟨isPid, -⟩ := afterValid.word_constant isConstant state.csLocals
  refine .bind (.issue _) (fun _ => .issue _)
    (.issue rfl (execute_callFun afterValid.rename isWord isPid)) ?_
  rintro ⟨renamed, renamer⟩ _ ⟨-, rfl⟩
  have length := valid.length
  have isSlot := setting.slot_eq state.csLocals
  let frame := (setting.read after (setting.slot state.csLocals) (id, rest)).frame.set
    (setting.slot state.csLocals) (.word renamed)
  have isRenamed : frame[setting.slot state.csLocals]? = some (.word renamed) :=
    List.getElem?_set_self (by rw [done.length]; omega)
  have isOutput : frame[4]? = some .output :=
    (loaded_frame _ (by omega)).trans afterValid.output
  refine .issue_next rfl (execute_outputNat isOutput isRenamed) ?_
  refine ⟨by simp [done.length], fun isSmaller notInput => ?_, ?_, ?_, rfl, rfl, done.isSuffix⟩
  · exact (loaded_frame _ (by omega)).trans (done.kept isSmaller notInput)
  · exact (loaded_frame _ (by omega)).trans done.begin
  · simp [done.output]

theorem execute_jumpIfLt (finish : Label) {word arity : Nat} {k : Register}
    (isWord : machine.frame[setting.slot index]? = some (.word word))
    (isArity : machine.frame[setting.reg k]? = some (.word arity))
    : execute setting.env machine ((Insn.jumpIfLt (.local index) k finish).map setting.reg id)
      = if word < arity then .goto finish machine else .next machine := by
  simp only [Insn.map, execute, reg_local, Machine.comparable, isWord, isArity, Outcome.ok_bind]
  split <;> rfl

theorem performs_enumBody {arity finish : Nat} (valid : setting.Valid machine input)
    (isConstant : setting.final.csConstants[index]? = some arity)
    (isFixed : (enumBody setting.regs (.constant index) finish state).1 = finish)
    : Performs setting.final setting.env setting.reg
        (enumBody setting.regs (.constant index) finish) state machine
        (checkEnum setting.env.varint arity input machine.renamer)
        (setting.After (setting.slot state.csLocals) machine input) := by
  have grows (sel : Register) : Code.AlwaysGrows (do
      copyNat setting.regs sel
      issue (.jumpIfLt sel (.constant index) finish)
      raise "selector out of range") :=
    .bind (steady_copyNat sel).grows (fun _ => .bind (.issue _) (fun _ => .raise _))
  refine .label_of_goes (.withLocal (grows _) (fun inside => ?_)) (.withLocal grows)
  refine .bind (steady_copyNat _).grows (fun _ => .bind (.issue _) (fun _ => .raise _))
    (performs_copyNat valid inside) ?_
  rintro ⟨selector, rest⟩ after ⟨done, isWord, -⟩
  have afterValid := valid.next done (by rw [slot_eq]; omega)
  obtain ⟨isArity, -⟩ := afterValid.word_constant isConstant state.csLocals
  have executes := setting.execute_jumpIfLt finish isWord isArity
  by_cases isLess : selector < arity
  · rw [if_pos isLess] at executes
    simp only [if_pos isLess]
    exact .left (.issue _) (fun _ => .raise _)
      (.of_goto executes (.ok ⟨Prod.ext isFixed.symm rfl, done⟩))
  · rw [if_neg isLess] at executes
    simp only [if_neg isLess]
    exact .step (.issue _) (fun _ => .raise _) (.notTaken rfl executes)
      (fun _ _ => .raise setting.literals)

theorem checks_enum (arity : Nat)
    : setting.Checks (tcEnum setting.regs arity) (checkEnum setting.env.varint arity) := by
  intro state machine input valid
  rw [tcEnum_eq]
  refine .step (.constant arity) (fun k => (Code.Steady.bind (.mfix (steady_enumBody k))
    (fun _ => .pure ())).grows) (.constant arity) ?_
  rintro after ⟨rfl, index, isRegister, isConstant⟩
  rw [isRegister]
  exact .mfix (similar_enumBody _) (fun finish isFixed =>
    performs_enumBody valid isConstant isFixed)

/-- A register from the bound on changes. -/
theorem After.set {checked : Checked σ} (done : setting.After bound machine input checked after)
    {slot : Nat} (isLarge : bound ≤ slot) (notInput : slot ≠ 1) (contents : Contents Label)
    : setting.After bound machine input checked
        { after with frame := after.frame.set slot contents } where
  length := by simp [done.length]
  kept inside notBegin := (loaded_frame contents (by omega)).trans (done.kept inside notBegin)
  begin := (loaded_frame contents (by omega)).trans done.begin
  output := done.output
  renamer := done.renamer
  keySize := done.keySize
  isSuffix := done.isSuffix

theorem grows_tc (setting : Setting σ) (ty : Ty) (wf : state.WF)
    : (tc setting.regs ty).Grows state :=
  (steady_tc ty).grows state wf

/-- The rounds of the loop, from the label of the loop to the code behind it. -/
theorem computes_loop {element : Ty}
    (checks : setting.Checks (tc setting.regs element) (setting.checkType element))
    (finished : setting.final.csInsns = []) (wf : state.WF) {loop : Label}
    (isLoop : state.position = (loop, 0)) (isLocal : index < state.csLocals)
    (isExtended : setting.final.Extends
      (issue (.decrAndJumpIfNot0 (.local index) loop) (tc setting.regs element state).2).2)
    (times : Nat) (valid : setting.Valid machine input)
    (isWord : machine.frame[setting.slot index]? = some (.word (times + 1)))
    (small : times + 1 < 2 ^ 64)
    : Computes setting.final setting.env setting.reg (loop, 0) machine
        (checkTimes (setting.checkType element) (times + 1) input machine.renamer)
        (fun checked next done =>
          next = (issue (.decrAndJumpIfNot0 (.local index) loop)
            (tc setting.regs element state).2).2.position
          ∧ setting.After (setting.slot index) machine input checked done) := by
  have growsElement := setting.grows_tc element wf
  have elementExtended : setting.final.Extends (tc setting.regs element state).2 :=
    isExtended.trans (Code.Grows.issue _ growsElement.wf).extends_
  have isSlot := setting.slot_eq index
  have isSmaller : setting.slot index < setting.slot state.csLocals := by
    rw [slot_eq, slot_eq]
    omega
  induction times generalizing machine input with
  | zero =>
      have first := checks valid finished wf elementExtended
      rw [isLoop] at first
      refine first.bind (fun checked position after ⟨isNext, done⟩ => ?_)
      have isOne := (done.kept isSmaller (by omega)).trans isWord
      have executes := execute_decrAndJumpIfNot0 setting.env setting.reg (.local index) loop isOne small
      rw [isNext]
      refine .of_leads (leads_condJump finished growsElement.wf isExtended rfl executes)
        (.ok ⟨rfl, ?_⟩)
      have afterDecrement := (done.mono isSmaller.le).set (Nat.le_refl _) (by omega) (.word 0)
      exact { afterDecrement with output := by simp [done.output] }
  | succ times ih =>
      have first := checks valid finished wf elementExtended
      rw [isLoop] at first
      refine first.bind (fun checked position after ⟨isNext, done⟩ => ?_)
      have isCounter := (done.kept isSmaller (by omega)).trans isWord
      have executes := execute_decrAndJumpIfNot0 setting.env setting.reg (.local index) loop isCounter
        small
      have afterDecrement :=
        (done.mono isSmaller.le).set (Nat.le_refl _) (by omega) (.word (times + 1))
      have inside := (List.getElem?_eq_some_iff.mp isCounter).1
      have others := ih (valid.next afterDecrement (by omega))
        (List.getElem?_set_self inside) (by omega)
      rw [isNext]
      refine .of_leads (leads_goto finished growsElement.wf isExtended executes) ?_
      rw [← done.renamer]
      exact others.bind (fun rest position last ⟨isEnd, more⟩ =>
        .ok ⟨isEnd, afterDecrement.trans more⟩)

theorem performs_loopBody {element : Ty} {finish times : Nat}
    (checks : setting.Checks (tc setting.regs element) (setting.checkType element))
    (isFixed : (loopBody setting.regs element (.local index) finish state).1 = finish)
    (isLocal : index < state.csLocals) (valid : setting.Valid machine input)
    (isWord : machine.frame[setting.slot index]? = some (.word times)) (small : times < 2 ^ 64)
    : Performs setting.final setting.env setting.reg
        (loopBody setting.regs element (.local index) finish) state machine
        (checkTimes (setting.checkType element) times input machine.renamer)
        (setting.After (setting.slot index) machine input) := by
  have growsRest (loop : Label) : Code.AlwaysGrows (do
      tc setting.regs element
      issue (.decrAndJumpIfNot0 (.local index) loop)
      label) :=
    .bind (steady_tc element).grows (fun _ => .bind (.issue _) (fun _ => .label))
  have executes := execute_jumpIf0 setting.env setting.reg (.local index) finish isWord
  cases times with
  | zero =>
      refine .left (.issue _) (fun _ => .bind .label growsRest) (.of_goto executes (.ok ⟨?_, ?_⟩))
      · exact eq_position_label isFixed
      · exact .refl valid
  | succ times =>
      refine Goes.step (.issue _) (fun _ => .bind .label growsRest) (.notTaken rfl executes) ?_
      rintro after rfl
      refine Goes.step .label growsRest .label ?_
      rintro after rfl finished wf isExtended
      have afterElement := (setting.grows_tc element wf).wf
      have afterDecrement := (Code.Grows.issue
        (.decrAndJumpIfNot0 (.local index) (label (issue (.jumpIf0 (.local index) finish) state).2).1)
        afterElement).wf
      have isLabel := position_label (issue (.jumpIf0 (.local index) finish) state).2
      have loopExtended := isExtended.trans (Code.Grows.label afterDecrement).extends_
      rw [isLabel]
      refine (computes_loop checks finished wf isLabel ?_ loopExtended times valid isWord small).trans ?_
      · rw [csLocals_label, csLocals_issue]
        exact isLocal
      · rintro checked _ last - ⟨rfl, done⟩
        refine ⟨_, last, ⟨?_, done⟩, leads_label afterDecrement isExtended last⟩
        exact (position_label _).symm

theorem csLocals_copyNat (regs : Registers) (reg : Register) (state : CodeS)
    : (copyNat regs reg state).2.csLocals = state.csLocals :=
  (csLocals_issue _ _).trans (csLocals_issue _ _)

/-- Code that follows a number. -/
theorem performs_afterNat {code : Code Unit} {outcome : Outcome (Checked σ)} {larger number : Nat}
    (done : setting.After bound machine input
      ⟨rest, setting.env.varint.encodeVarint number, machine.renamer⟩ after)
    (isLarger : bound ≤ larger)
    (performs : Performs setting.final setting.env setting.reg code state after outcome
      (setting.After larger after rest))
    : Performs setting.final setting.env setting.reg code state after
        (outcome >>= fun checked => .ok (checked.afterNat setting.env.varint number))
        (setting.After bound machine input) :=
  .map _ performs (fun _ _ more => done.trans (more.mono isLarger))

theorem checks_array {element : Ty}
    (checks : setting.Checks (tc setting.regs element) (setting.checkType element))
    : setting.Checks (tc setting.regs (.array element)) (setting.checkType (.array element)) := by
  intro state machine input valid
  have isSlot := setting.slot_eq state.csLocals
  have isNext := setting.slot_eq state.withLocal.csLocals
  have isLocal : state.csLocals < state.withLocal.csLocals := Nat.lt_succ_self _
  by_cases isByte : element.derefType = .byte
  · rw [tc_array_byte isByte, checkType, checkTy_array_byte isByte]
    have growsCopy (size : Register) : Code.AlwaysGrows (copyBytes setting.regs
        (.inputBytes setting.regs.input setting.regs.inputend size)) :=
      (steady_copyBytes (by simp)).grows
    refine .withLocal (.bind (steady_copyNat _).grows (fun _ => growsCopy _)) (fun inside => ?_)
    refine .bind (steady_copyNat _).grows (fun _ => growsCopy _) (performs_copyNat valid inside) ?_
    rintro ⟨size, rest⟩ after ⟨done, isWord, -⟩
    have afterValid := valid.next done (by omega)
    have isSame : machine.renamer = after.renamer := done.renamer.symm
    have isSize : after.frame[setting.reg (.local state.csLocals)]? = some (.word size) := isWord
    rw [isSame]
    refine performs_afterNat done ?_ (performs_copyBytes afterValid (skips_inputBytes isSize ?_ ?_))
    · rw [csLocals_copyNat]
      omega
    · rw [csLocals_copyNat, reg_local]
      omega
    · rw [reg_local]
      omega
  · rw [tc_array_loop isByte, checkType, checkTy_array_loop isByte]
    have growsLoop (size : Register) : Code.AlwaysGrows (do
        let _ ← Code.mfix (loopBody setting.regs element size)
        return ()) :=
      .bind (.mfix (fun finish => (steady_loopBody (steady_tc element) size finish).grows))
        (fun _ => .pure ())
    refine .withLocal (.bind (steady_copyNat _).grows (fun _ => growsLoop _)) (fun inside => ?_)
    refine .bind (steady_copyNat _).grows (fun _ => growsLoop _) (performs_copyNat valid inside) ?_
    rintro ⟨size, rest⟩ after ⟨done, isWord, small⟩
    have afterValid := valid.next done (by omega)
    have isSame : machine.renamer = after.renamer := done.renamer.symm
    rw [isSame]
    refine performs_afterNat done (Nat.le_refl _) (.mfix (similar_loopBody (similar_tc element) _)
      (fun finish isFixed => performs_loopBody checks isFixed ?_ afterValid isWord small))
    rw [csLocals_copyNat]
    exact isLocal

/-- A selector that has a target is followed by the code there, and otherwise by the code behind
the instruction.
-/
theorem goes_copySelect {α β : Type} {targets : List Label} {next : Unit → Code α}
    {continues : Nat × Bytes → Outcome β} {post : β → Label × Nat → Machine σ Label → Prop}
    (valid : setting.Valid machine input) (growsNext : ∀ value, (next value).AlwaysGrows)
    (taken : ∀ {result after target}, targets[result.1]? = some target →
      setting.After (setting.slot state.csLocals) machine input
        ⟨result.2, setting.env.varint.encodeVarint result.1, machine.renamer⟩ after →
      Computes setting.final setting.env setting.reg (target, 0) after (continues result) post)
    (notTaken : ∀ {result after}, targets[result.1]? = none →
      Goes setting.final setting.env setting.reg (next ()) (copySelect setting.regs targets state).2
        after (continues result) post)
    : Goes setting.final setting.env setting.reg (copySelect setting.regs targets >>= next) state
        machine (Input.packed setting.env.varint input >>= continues) post := by
  intro finished wf isExtended
  have growsSelect : (copySelect setting.regs targets).Grows state :=
    (steady_copySelect targets).grows state wf
  have growsRest := growsNext () _ growsSelect.wf
  have selectExtended := isExtended.trans growsRest.extends_
  have goes : Goes setting.final setting.env setting.reg (copySelect setting.regs targets) state
      machine (Input.packed setting.env.varint input >>= continues) post := by
    refine .withLocal (.bind (steady_copyNat _).grows (fun _ => .issue _)) (fun inside => ?_)
    refine .bind (steady_copyNat _).grows (fun _ => .issue _) (performs_copyNat valid inside) ?_
    rintro result after ⟨done, isWord, -⟩ _ afterCopy selected
    have executes := execute_select setting.env setting.reg (.local state.csLocals) targets isWord
    cases isTarget : targets[result.1]? with
    | some target =>
        rw [isTarget] at executes
        exact .of_leads (leads_goto finished afterCopy selected executes) (taken isTarget done)
    | none =>
        rw [isTarget] at executes
        exact .of_leads (leads_condJump finished afterCopy selected rfl executes)
          (notTaken isTarget finished growsSelect.wf isExtended)
  exact goes finished wf selectExtended

/-- The code for a type at a label. -/
theorem computes_labelled {ty : Ty}
    (checks : setting.Checks (tc setting.regs ty) (setting.checkType ty))
    (finished : setting.final.csInsns = []) (wf : state.WF)
    (isExtended : setting.final.Extends (tc setting.regs ty (label state).2).2)
    (valid : setting.Valid machine input)
    : Computes setting.final setting.env setting.reg ((label state).1, 0) machine
        (setting.checkType ty input machine.renamer)
        (fun checked next after => next = (tc setting.regs ty (label state).2).2.position
          ∧ setting.After (setting.slot state.csLocals) machine input checked after) := by
  have computes := checks valid finished (Code.Grows.label wf).wf isExtended
  rw [position_label, csLocals_label] at computes
  exact computes

/-- What a sum or `maybe` does after its selector. -/
theorem computes_afterNat {position : Label × Nat} {outcome : Outcome (Checked σ)} {number : Nat}
    {post : Label × Nat → Prop}
    (done : setting.After bound machine input
      ⟨rest, setting.env.varint.encodeVarint number, machine.renamer⟩ after)
    (computes : Computes setting.final setting.env setting.reg position after outcome
      (fun checked next last => post next ∧ setting.After bound after rest checked last))
    : Computes setting.final setting.env setting.reg position after
        (outcome >>= fun checked => .ok (checked.afterNat setting.env.varint number))
        (fun checked next last => post next ∧ setting.After bound machine input checked last) :=
  computes.bind (fun _ _ _ reached => .ok ⟨reached.1, done.trans reached.2⟩)

theorem checks_maybe {ty : Ty}
    (checks : setting.Checks (tc setting.regs ty) (setting.checkType ty))
    : setting.Checks (tc setting.regs (.maybe ty)) (setting.checkType (.maybe ty)) := by
  intro state machine input valid
  rw [tc_maybe, checkType, checkTy]
  refine .mfix (similar_maybeBody (similar_tc ty)) (fun labels isFixed => ?_)
  have growsRest : Code.AlwaysGrows (do
      let just ← label
      tc setting.regs ty
      let finish ← label
      return (finish, just)) :=
    .bind .label (fun _ => .bind (steady_tc ty).grows (fun _ => .bind .label (fun _ => .pure _)))
  intro finished wf isExtended
  let raised := (raise "maybe selector out of range"
    (copySelect setting.regs [labels.1, labels.2] state).2).2
  let checkedTy := (tc setting.regs ty (label raised).2).2
  have isFixed : ((label checkedTy).1, (label raised).1) = labels := isFixed
  have afterSelect : (copySelect setting.regs [labels.1, labels.2] state).2.WF :=
    ((steady_copySelect _).grows state wf).wf
  have afterRaise : raised.WF := (Code.Grows.raise afterSelect _).wf
  have afterTy := (setting.grows_tc ty (Code.Grows.label afterRaise).wf).wf
  have tyExtended : setting.final.Extends checkedTy :=
    isExtended.trans (Code.Grows.label afterTy).extends_
  have isSlot := setting.slot_eq state.csLocals
  refine goes_copySelect valid (fun _ => .bind (.raise _) (fun _ => growsRest)) ?_ ?_
    finished wf isExtended
  · rintro ⟨selector, rest⟩ after target isTarget done
    rw [← isFixed] at isTarget
    rcases selector with _ | _ | selector
    · cases isTarget
      exact .ok ⟨(position_label checkedTy).symm, done⟩
    · cases isTarget
      have afterValid := valid.next done (by omega)
      have isSame : machine.renamer = after.renamer := done.renamer.symm
      rw [isSame]
      refine computes_afterNat done ((computes_labelled checks finished afterRaise tyExtended
        afterValid).trans ?_)
      rintro checked _ last - ⟨rfl, more⟩
      refine ⟨_, last, ⟨(position_label checkedTy).symm, more⟩, leads_label afterTy isExtended last⟩
    · cases isTarget
  · rintro ⟨selector, rest⟩ after isNone
    rcases selector with _ | _ | selector
    · cases isNone
    · cases isNone
    · exact .left (.raise _) (fun _ => growsRest) (.raise setting.literals)

/-- The alternatives of a sum: a label for each field, and the code there. -/
structure ComputesAlts (setting : Setting σ) (finish : Label) (fields : List Ty) (state : CodeS)
    : Prop where
  length : (tcAlts setting.regs finish fields state).1.length = fields.length
  computes
    : ∀ {selector target machine input},
        (tcAlts setting.regs finish fields state).1[selector]? = some target →
        setting.Valid machine input →
        Computes setting.final setting.env setting.reg (target, 0) machine
          (checkAlt setting.env.varint setting.env.u8 setting.env.rename fields selector input
            machine.renamer)
          (fun checked next after => next = (finish, 0)
            ∧ setting.After (setting.slot state.csLocals) machine input checked after)

theorem computesAlts_cons {finish : Label} {field : Ty} {fields : List Ty}
    (checks : setting.Checks (tc setting.regs field) (setting.checkType field))
    (finished : setting.final.csInsns = []) (wf : state.WF)
    (isExtended : setting.final.Extends (tcAlts setting.regs finish (field :: fields) state).2)
    (others : setting.ComputesAlts finish fields
      (issue (.jump finish) (tc setting.regs field (label state).2).2).2)
    : setting.ComputesAlts finish (field :: fields) state := by
  have afterLabel := Code.Grows.label wf
  have afterField := setting.grows_tc field afterLabel.wf
  have afterJump := Code.Grows.issue (.jump finish) afterField.wf
  have afterOthers : (tcAlts setting.regs finish fields).Grows _ :=
    grows_tcAlts finish fields _ afterJump.wf
  have sameLocals : (issue (.jump finish) (tc setting.regs field (label state).2).2).2.csLocals
      = state.csLocals :=
    afterJump.csLocals.trans (afterField.csLocals.trans afterLabel.csLocals)
  have jumpExtended : setting.final.Extends
      (issue (.jump finish) (tc setting.regs field (label state).2).2).2 :=
    isExtended.trans afterOthers.extends_
  refine ⟨congrArg (· + 1) others.length, ?_⟩
  intro selector target machine input isTarget valid
  cases selector with
  | zero =>
      cases isTarget
      refine (computes_labelled checks finished wf (jumpExtended.trans afterJump.extends_)
        valid).trans ?_
      rintro checked _ after - ⟨rfl, done⟩
      exact ⟨(finish, 0), after, ⟨rfl, done⟩, leads_goto finished afterField.wf jumpExtended rfl⟩
  | succ selector =>
      have computes := others.computes isTarget valid
      rw [sameLocals] at computes
      exact computes

theorem checks_sum {fields : List Ty}
    (alts : ∀ {finish state}, setting.final.csInsns = [] → state.WF →
      setting.final.Extends (tcAlts setting.regs finish fields state).2 →
      setting.ComputesAlts finish fields state)
    : setting.Checks (tc setting.regs (.sum fields)) (setting.checkType (.sum fields)) := by
  intro state machine input valid
  rw [tc_sum, checkType, checkTy]
  refine .mfix (similar_sumBody fields) (fun labels isFixed => ?_)
  have growsRest : Code.AlwaysGrows (do
      let alts ← tcAlts setting.regs labels.2 fields
      let finish ← label
      return (alts, finish)) :=
    .bind (grows_tcAlts _ fields) (fun _ => .bind .label (fun _ => .pure _))
  intro finished wf isExtended
  let raised := (raise "selector out of range" (copySelect setting.regs labels.1 state).2).2
  let checkedAlts := tcAlts setting.regs labels.2 fields raised
  have isFixed : (checkedAlts.1, (label checkedAlts.2).1) = labels := isFixed
  have afterSelect : (copySelect setting.regs labels.1 state).2.WF :=
    ((steady_copySelect _).grows state wf).wf
  have afterRaise : raised.WF := (Code.Grows.raise afterSelect _).wf
  have afterAlts : checkedAlts.2.WF := (grows_tcAlts labels.2 fields _ afterRaise).wf
  have inside := alts finished afterRaise (isExtended.trans (Code.Grows.label afterAlts).extends_)
  have isLabels : checkedAlts.1 = labels.1 := congrArg Prod.fst isFixed
  have isSlot := setting.slot_eq state.csLocals
  refine goes_copySelect valid (fun _ => .bind (.raise _) (fun _ => growsRest)) ?_ ?_
    finished wf isExtended
  · rintro ⟨selector, rest⟩ after target isTarget done
    rw [← isLabels] at isTarget
    have afterValid := valid.next done (by omega)
    have isSame : machine.renamer = after.renamer := done.renamer.symm
    rw [isSame]
    refine computes_afterNat done ((inside.computes isTarget afterValid).trans ?_)
    rintro checked _ last - ⟨rfl, more⟩
    refine ⟨_, last, ⟨?_, more⟩, .refl _ _⟩
    exact eq_position_label (congrArg Prod.snd isFixed)
  · rintro ⟨selector, rest⟩ after isNone
    rw [← isLabels, List.getElem?_eq_none_iff, inside.length] at isNone
    simp only [checkAlt_outside fields isNone, Outcome.error_bind]
    exact .left (.raise _) (fun _ => growsRest) (.raise setting.literals)

theorem checks_cons {field : Ty} {fields : List Ty}
    (checks : setting.Checks (tc setting.regs field) (setting.checkType field))
    (others : setting.Checks (tcFields setting.regs fields)
      (checkFields setting.env.varint setting.env.u8 setting.env.rename fields))
    : setting.Checks (tcFields setting.regs (field :: fields))
        (checkFields setting.env.varint setting.env.u8 setting.env.rename (field :: fields)) := by
  intro state machine input valid finished wf isExtended
  have isSlot := setting.slot_eq state.csLocals
  have sameLocals := (setting.grows_tc field wf).csLocals
  rw [checkFields]
  refine Performs.bind (steady_tc field).grows (fun _ => (steady_tcFields fields).grows)
    (checks valid) ?_ finished wf isExtended
  intro first after done
  rw [← done.renamer]
  refine .map _ (others (valid.next done (by omega))) (fun _ _ more => done.trans ?_)
  rw [sameLocals] at more
  exact more

mutual

/-- The code for a type checks the type. -/
theorem checks_tc : (ty : Ty) → setting.Checks (tc setting.regs ty) (setting.checkType ty)
  | .byte => checks_byte
  | .nat => checks_nat
  | .string => checks_string
  | .array element => checks_array (checks_tc element)
  | .record fields => checks_tcFields fields
  | .sum fields => checks_sum (fun finished wf isExtended =>
      computesAlts fields finished wf isExtended)
  | .predicate pid => checks_predicate pid
  | .namedType ty => checks_tc ty
  | .maybe ty => checks_maybe (checks_tc ty)
  | .enumerated names => checks_enum names.length
  | .boolean => checks_enum 2

theorem checks_tcFields
    : (fields : List Ty) → setting.Checks (tcFields setting.regs fields)
        (checkFields setting.env.varint setting.env.u8 setting.env.rename fields)
  | [] => fun valid => .pure () (.refl valid)
  | field :: fields => checks_cons (checks_tc field) (checks_tcFields fields)

theorem computesAlts {finish : Label}
    : (fields : List Ty) → {state : CodeS} → setting.final.csInsns = [] → state.WF →
        setting.final.Extends (tcAlts setting.regs finish fields state).2 →
        setting.ComputesAlts finish fields state
  | [], _, _, _, _ => ⟨rfl, fun isTarget => by cases isTarget⟩
  | field :: fields, _, finished, wf, isExtended => by
      have afterLabel := Code.Grows.label wf
      have afterField := setting.grows_tc field afterLabel.wf
      have afterJump := Code.Grows.issue (.jump finish) afterField.wf
      exact computesAlts_cons (checks_tc field) finished wf isExtended
        (computesAlts fields finished afterJump.wf isExtended)

end

end Setting

end Glean.RTS.Typecheck
