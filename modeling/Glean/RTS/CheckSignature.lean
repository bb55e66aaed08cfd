import Glean.RTS.TypecheckRun

/-! Executing the typechecker of a predicate on a clause. -/

namespace Glean.RTS

namespace Typecheck

open Bytecode Halting

variable {σ : Type}

namespace Setting

variable {setting : Setting σ} {machine after : Machine σ Label} {input : Bytes}
  {state : CodeS}

theorem execute_jumpIfNe (valid : setting.Valid machine input) (bad : Label)
    : execute setting.env machine
        ((Insn.jumpIfNe setting.regs.input setting.regs.inputend bad).map setting.reg id)
      = if input = [] then .next machine else .goto bad machine := by
  obtain ⟨before, -, isStop⟩ := valid.stop_eq
  have isEmpty : setting.stop - input.length ≠ setting.stop ↔ input ≠ [] := by
    rw [← List.length_pos_iff]
    omega
  simp only [Insn.map, execute, reg_input, reg_inputend, Machine.comparable, valid.begin,
    valid.inputend, Outcome.ok_bind]
  by_cases nothing : input = []
  · rw [if_neg (fun differs => isEmpty.mp differs nothing), if_pos nothing]
    rfl
  · rw [if_pos (isEmpty.mpr nothing), if_neg nothing]
    rfl

/-- Extra bytes are an error. -/
theorem performs_check (state : CodeS) (what : String) (valid : setting.Valid machine input)
    : Performs setting.final setting.env setting.reg
        (check what setting.regs.input setting.regs.inputend) state machine
        (if input ≠ [] then .error ("extra bytes at end of " ++ what) else .ok ())
        (fun _ after => after = machine) := by
  rw [check_eq]
  refine .mfix (similar_checkBody _ _ _) (fun labels isFixed => ?_)
  intro finished wf isExtended
  have executes := execute_jumpIfNe valid labels.1
  let compared := (issue (.jumpIfNe setting.regs.input setting.regs.inputend labels.1) state).2
  let jumped := (issue (.jump labels.2) compared).2
  let raised := (raise ("extra bytes at end of " ++ what) (label jumped).2).2
  have isFixed : ((label jumped).1, (label raised).1) = labels := isFixed
  have afterCompare := Code.Grows.issue
    (.jumpIfNe setting.regs.input setting.regs.inputend labels.1) wf
  have afterJump := Code.Grows.issue (.jump labels.2) afterCompare.wf
  have afterLabel := Code.Grows.label afterJump.wf
  have afterRaise := Code.Grows.raise afterLabel.wf ("extra bytes at end of " ++ what)
  have afterFinish := Code.Grows.label afterRaise.wf
  have raiseExtended := isExtended.trans afterFinish.extends_
  have jumpExtended := (raiseExtended.trans afterRaise.extends_).trans afterLabel.extends_
  have compareExtended := jumpExtended.trans afterJump.extends_
  by_cases isEmpty : input = []
  · rw [if_neg (not_not.mpr isEmpty)]
    rw [if_pos isEmpty] at executes
    refine .of_leads (leads_condJump finished wf compareExtended rfl executes)
      (.of_leads (leads_goto finished afterCompare.wf jumpExtended rfl) (.ok ⟨?_, rfl⟩))
    exact eq_position_label (congrArg Prod.snd isFixed)
  · rw [if_pos isEmpty]
    rw [if_neg isEmpty] at executes
    have isBad : (labels.1, 0) = (label jumped).2.position :=
      eq_position_label (congrArg Prod.fst isFixed)
    have toBad := leads_goto finished wf compareExtended executes
    rw [isBad] at toBad
    exact .of_leads toBad (Goes.raise setting.literals finished afterLabel.wf raiseExtended)

theorem performs_check_nil (what : String) (valid : setting.Valid machine input)
    (nothing : input = [])
    : Performs setting.final setting.env setting.reg
        (check what setting.regs.input setting.regs.inputend) state machine (.ok ())
        (fun _ after => after = machine) := by
  have performs := performs_check state what valid
  rwa [if_neg (not_not.mpr nothing)] at performs

theorem goes_check_extra {α : Type} {post : α → Label × Nat → Machine σ Label → Prop}
    (what : String) (valid : setting.Valid machine input) (extra : input ≠ [])
    : Goes setting.final setting.env setting.reg
        (check what setting.regs.input setting.regs.inputend) state machine
        (.error ("extra bytes at end of " ++ what)) post := by
  have performs := performs_check state what valid
  rw [if_pos extra] at performs
  exact performs

theorem performs_storeKeySize (valid : setting.Valid machine input)
    (isPointer : machine.frame[5]? = some .wordPtr)
    : Performs setting.final setting.env setting.reg storeKeySize state machine (.ok ())
        (fun _ after => after.output = machine.output ∧ after.keySize = machine.output.length
          ∧ after.renamer = machine.renamer ∧ after.frame.length = machine.frame.length
          ∧ ∀ index < setting.slot state.csLocals,
              after.frame[index]? = machine.frame[index]?) := by
  have length := valid.length
  have isSlot := setting.slot_eq state.csLocals
  refine .withLocal (.bind (.issue _) (fun _ => .issue _)) (fun inside => ?_)
  have bound : setting.slot state.csLocals < machine.frame.length := by omega
  let sized : Machine σ Label :=
    { machine with
        frame := machine.frame.set (setting.slot state.csLocals) (.word machine.output.length) }
  have isOutput : setting.reg (.input 4) = 4 := rfl
  have isKeySize : setting.reg (.input 5) = 5 := rfl
  have isSize : sized.frame[setting.slot state.csLocals]? = some (.word machine.output.length) :=
    List.getElem?_set_self bound
  have isWordPtr : sized.frame[5]? = some .wordPtr :=
    (loaded_frame _ (by omega)).trans isPointer
  have sizes : execute setting.env machine
      ((Insn.getOutputSize (.input 4) (.local state.csLocals)).map setting.reg id)
      = .next sized := by
    simp only [Insn.map, execute, isOutput, reg_local, Machine.pointsTo, valid.output,
      Outcome.ok_bind, Machine.set, if_pos bound]
    rfl
  have stores : execute setting.env sized
      ((Insn.storeWord (.local state.csLocals) (.input 5)).map setting.reg id)
      = .next { sized with keySize := machine.output.length } := by
    simp only [Insn.map, execute, isKeySize, reg_local, Machine.pointsTo, isWordPtr, Machine.word,
      isSize, Outcome.ok_bind]
    rfl
  have first : Performs setting.final setting.env setting.reg
      (issue (.getOutputSize (.input 4) (.local state.csLocals))) state.withLocal machine
      (.ok ()) (fun _ after => after = sized) :=
    .issue_next rfl sizes rfl
  refine .step (.issue _) (fun _ => .issue _) first ?_
  rintro _ rfl
  refine .issue_next rfl stores ⟨rfl, rfl, rfl, by simp [sized], fun index isSmaller => ?_⟩
  exact loaded_frame _ (by omega)

end Setting

section Signature

variable (varint : Varint) (u8 : U8Next) (rename : Nat → Nat → σ → Outcome (Nat × σ))
  (keyTy valTy : Ty) (clause : Clause)

/-- The typechecker on the key of a clause. -/
def keySetting : Setting σ where
  final := (signature keyTy valTy .start).2
  env := ⟨varint, u8, rename, clause.key ++ clause.value, (signature keyTy valTy .start).2.csLiterals⟩
  literals := rfl
  inputend := 2
  isEnd := .inl rfl
  stop := clause.key.length
  inside := by simp

/-- The typechecker on the value of a clause. -/
def valueSetting : Setting σ :=
  { keySetting varint u8 rename keyTy valTy clause with
    inputend := 3
    isEnd := .inr rfl
    stop := (clause.key ++ clause.value).length
    inside := Nat.le_refl _ }

/-- The machine at the start of the typechecker. -/
def startMachine (final : CodeS) (state : σ) : Machine σ Label where
  frame := typecheckArgs clause ++ final.csConstants.map .word
    ++ List.replicate final.csMaxLocal .uninitialized
  output := []
  keySize := 0
  renamer := state

variable {varint u8 rename keyTy valTy clause}

theorem startMachine_valid (state : σ)
    : (keySetting varint u8 rename keyTy valTy clause).Valid
        (startMachine clause (signature keyTy valTy .start).2 state) clause.key where
  length := by
    simp only [startMachine, List.length_append, List.length_map, List.length_replicate]
    rfl
  rename := rfl
  begin := by simp [startMachine, typecheckArgs, keySetting]
  inputend := rfl
  output := rfl
  constants := by
    intro index word isConstant
    have inside : index < (signature keyTy valTy .start).2.csConstants.length :=
      (List.getElem?_eq_some_iff.mp isConstant).1
    have length : (typecheckArgs clause : List (Contents Label)).length = 6 := rfl
    rw [startMachine, List.append_assoc, List.getElem?_append_right (by omega), length,
      Nat.add_sub_cancel, List.getElem?_append_left (by simpa using inside), List.getElem?_map]
    exact congrArg (Option.map Contents.word) isConstant
  isSuffix := by simp [keySetting]

/-- The value follows the key. -/
theorem valid_value {state : σ} {machine after : Machine σ Label} {bound : Nat}
    {checked : Checked σ}
    (done : (keySetting varint u8 rename keyTy valTy clause).After bound
      (startMachine clause (signature keyTy valTy .start).2 state) clause.key checked machine)
    (large : 6 + (signature keyTy valTy .start).2.csConstants.length ≤ bound)
    (nothing : checked.rest = []) (length : after.frame.length = machine.frame.length)
    (kept : ∀ index < bound, after.frame[index]? = machine.frame[index]?)
    : (valueSetting varint u8 rename keyTy valTy clause).Valid after clause.value := by
  have valid : (keySetting varint u8 rename keyTy valTy clause).Valid machine checked.rest :=
    (startMachine_valid state).next done large
  refine ⟨length.trans valid.length, (kept 0 (by omega)).trans valid.rename, ?_, ?_,
    (kept 4 (by omega)).trans valid.output, ?_, ?_⟩
  · have isBegin := valid.begin
    rw [nothing] at isBegin
    rw [kept 1 (by omega), isBegin]
    simp [valueSetting, keySetting]
  · exact (kept 3 (by omega)).trans (done.kept (by omega) (by omega))
  · intro index word isConstant
    have inside : index < (signature keyTy valTy .start).2.csConstants.length :=
      (List.getElem?_eq_some_iff.mp isConstant).1
    exact (kept _ (by omega)).trans (valid.constants isConstant)
  · simp only [valueSetting, keySetting, List.take_length]
    exact List.suffix_append _ _

/-- The typechecker before it returns. -/
def signatureBody (keyTy valTy : Ty) : Code Unit := do
  tc ⟨.input 0, .input 1, .input 2, .input 4⟩ keyTy
  check "key" (.input 1) (.input 2)
  storeKeySize
  tc ⟨.input 0, .input 1, .input 3, .input 4⟩ valTy
  check "value" (.input 1) (.input 3)

theorem performs_signatureBody (varint : Varint) (u8 : U8Next)
    (rename : Nat → Nat → σ → Outcome (Nat × σ)) (keyTy valTy : Ty) (clause : Clause) (state : σ)
    : Performs (signature keyTy valTy .start).2
        (keySetting varint u8 rename keyTy valTy clause).env
        (keySetting varint u8 rename keyTy valTy clause).reg (signatureBody keyTy valTy) .start
        (startMachine clause (signature keyTy valTy .start).2 state)
        (checkClause varint u8 rename keyTy valTy clause state)
        (fun result after => result = ⟨after.output, after.keySize, after.renamer⟩) := by
  let keys := keySetting varint u8 rename keyTy valTy clause
  let values := valueSetting varint u8 rename keyTy valTy clause
  let constants := 6 + (signature keyTy valTy .start).2.csConstants.length
  have large (count : Nat) : constants ≤ keys.slot count := by
    rw [keys.slot_eq]
    have same : constants = 6 + keys.final.csConstants.length := rfl
    omega
  have growsLast : Code.AlwaysGrows (do
      tc values.regs valTy
      check "value" values.regs.input values.regs.inputend) :=
    .bind (steady_tc valTy).grows (fun _ => (steady_check _ _ _).grows)
  have growsStore : Code.AlwaysGrows (do
      storeKeySize
      tc values.regs valTy
      check "value" values.regs.input values.regs.inputend) :=
    .bind steady_storeKeySize.grows (fun _ => growsLast)
  refine .bind (steady_tc keyTy).grows (fun _ => .bind (steady_check _ _ _).grows
    (fun _ => growsStore)) (keys.checks_tc keyTy (startMachine_valid state)) ?_
  intro key machine done
  have valid := (startMachine_valid state).next done (large _)
  by_cases nothing : key.rest = []
  · rw [if_neg (not_not.mpr nothing)]
    refine .step (steady_check _ _ _).grows (fun _ => growsStore)
      (Setting.performs_check_nil "key" valid nothing) ?_
    rintro after rfl
    have isPointer : after.frame[5]? = some .wordPtr := by
      have bound := large CodeS.start.csLocals
      exact done.kept (by omega) (by omega)
    refine .step steady_storeKeySize.grows (fun _ => growsLast)
      (Setting.performs_storeKeySize valid isPointer) ?_
    rintro stored ⟨isOutput, isKeySize, isRenamer, isLength, kept⟩
    have valueValid := valid_value (done.mono (large _)) (Nat.le_refl _) nothing isLength
      (fun index inside => kept index (inside.trans_le (large _)))
    have sameState : key.state = stored.renamer := (isRenamer.trans done.renamer).symm
    rw [sameState]
    refine .bind (steady_tc valTy).grows (fun _ => (steady_check _ _ _).grows)
      (values.checks_tc valTy valueValid) ?_
    intro value last more
    have lastValid := valueValid.next more (large _)
    by_cases end_ : value.rest = []
    · rw [if_neg (not_not.mpr end_)]
      refine .of_ok (Setting.performs_check_nil "value" lastValid end_) ?_
      rintro _ rfl
      have keyOutput : after.output = key.output := done.output
      rw [more.output, more.keySize, more.renamer, isOutput, isKeySize, keyOutput]
    · rw [if_pos end_]
      exact Setting.goes_check_extra "value" lastValid end_
  · rw [if_pos nothing]
    exact .left (steady_check _ _ _).grows (fun _ => growsStore)
      (Setting.goes_check_extra "key" valid nothing)

/-- The typechecker does what checking a clause does. -/
theorem ends_signature (varint : Varint) (u8 : U8Next)
    (rename : Nat → Nat → σ → Outcome (Nat × σ)) (keyTy valTy : Ty) (clause : Clause) (state : σ)
    : Ends (signature keyTy valTy .start).2
        (keySetting varint u8 rename keyTy valTy clause).env
        (keySetting varint u8 rename keyTy valTy clause).reg (0, 0)
        (startMachine clause (signature keyTy valTy .start).2 state)
        (checkClause varint u8 rename keyTy valTy clause state) := by
  have finished := signature_finished keyTy valTy .start
  have growsBody : (signatureBody keyTy valTy).Grows .start :=
    (Code.Steady.bind (steady_tc keyTy) (fun _ => .bind (steady_check _ _ _) (fun _ =>
      .bind steady_storeKeySize (fun _ => .bind (steady_tc valTy) (fun _ =>
        steady_check _ _ _))))).grows .start .start
  have returns : (signature keyTy valTy .start).2.Extends
      (issue .ret (signatureBody keyTy valTy .start).2).2 := .refl _
  have isExtended := returns.trans (Code.Grows.issue .ret growsBody.wf).extends_
  have computes := performs_signatureBody varint u8 rename keyTy valTy clause state finished .start
    isExtended
  exact ends_of_ret finished growsBody.wf returns computes

end Signature

/-- The subroutine of the typechecker. -/
def typechecker (keyTy valTy : Ty) : Subroutine :=
  let final := (signature keyTy valTy .start).2
  { code := final.cfg.shortcut.code (getReg 6 final.csConstants.length)
    inputs := 6
    locals := final.csMaxLocal + final.csConstants.length
    constants := final.csConstants
    literals := final.csLiterals }

/-- Generating the typechecker does not fail. -/
theorem checkSignature_eq (keyTy valTy : Ty)
    : checkSignature keyTy valTy = .ok (typechecker keyTy valTy) := by
  rw [checkSignature, generate_eq (signature_finished keyTy valTy .start)]
  rfl

theorem executes_typechecker (varint : Varint) (u8 : U8Next)
    (rename : Nat → Nat → σ → Outcome (Nat × σ)) (keyTy valTy : Ty) (clause : Clause) (state : σ)
    : (typechecker keyTy valTy).Executes varint u8 rename state (clause.key ++ clause.value)
        (typecheckArgs clause) (checkClause varint u8 rename keyTy valTy clause state) := by
  have isForward : (signature keyTy valTy .start).2.Forward :=
    (steady_signature keyTy valTy).forward .start .start (by simp [CodeS.Forward, CodeS.start])
  exact CodeS.executes isForward (fun _ => rfl)
    (ends_signature varint u8 rename keyTy valTy clause state)

end Typecheck

open Typecheck Bytecode Halting in
/-- The typechecker of a predicate stops, with the outcome of checking the clause. -/
theorem typechecks_iff {σ : Type} {varint : Varint} {u8 : U8Next}
    {rename : Nat → Nat → σ → Outcome (Nat × σ)} {keyTy valTy : Ty} {clause : Clause} {state : σ}
    {outcome : Outcome (Bytecode.Result σ)}
    : Typechecks varint u8 rename keyTy valTy clause state outcome
      ↔ outcome = checkClause varint u8 rename keyTy valTy clause state := by
  constructor
  · rintro ⟨subroutine, isSubroutine, executes⟩
    rw [checkSignature_eq] at isSubroutine
    obtain rfl := Outcome.ok.inj isSubroutine
    exact executes.unique (executes_typechecker varint u8 rename keyTy valTy clause state)
  · rintro rfl
    exact ⟨_, checkSignature_eq keyTy valTy, executes_typechecker varint u8 rename keyTy valTy clause state⟩

end Glean.RTS
