import Glean.Bytecode.Emission
import Glean.RTS.Typecheck

/-! The shape of the typechecker's code: its labels do not depend on guesses, it keeps what was
generated before, and blocks that consist of a jump jump forward.
-/

namespace Glean.RTS.Typecheck

open Bytecode

variable {regs : Registers} {state : CodeS}

variable (regs)

def enumBody (k : Register) (finish : Label) : Code Label := do
  withLocal fun sel => do
    copyNat regs sel
    issue (.jumpIfLt sel k finish)
    raise "selector out of range"
  label

def loopBody (element : Ty) (size : Register) (finish : Label) : Code Label := do
  issue (.jumpIf0 size finish)
  let loop ← label
  tc regs element
  issue (.decrAndJumpIfNot0 size loop)
  label

/-- Read a selector and jump to its target. -/
def copySelect (targets : List Label) : Code Unit :=
  withLocal fun sel => do
    copyNat regs sel
    issue (.select sel targets)

def sumBody (fields : List Ty) (labels : List Label × Label) : Code (List Label × Label) := do
  copySelect regs labels.1
  raise "selector out of range"
  let alts ← tcAlts regs labels.2 fields
  let finish ← label
  return (alts, finish)

def maybeBody (ty : Ty) (labels : Label × Label) : Code (Label × Label) := do
  copySelect regs [labels.1, labels.2]
  raise "maybe selector out of range"
  let just ← label
  tc regs ty
  let finish ← label
  return (finish, just)

def checkBody (what : String) (reg1 reg2 : Register) (labels : Label × Label)
    : Code (Label × Label) := do
  issue (.jumpIfNe reg1 reg2 labels.1)
  issue (.jump labels.2)
  let bad ← label
  raise ("extra bytes at end of " ++ what)
  let ok ← label
  return (bad, ok)

variable {regs}

theorem tcEnum_eq (arity : Nat)
    : tcEnum regs arity = (do
        let k ← constant arity
        let _ ← Code.mfix (enumBody regs k)
        return ()) :=
  rfl

theorem tc_array (element : Ty)
    : tc regs (.array element) = withLocal fun size => do
        copyNat regs size
        match element.derefType with
        | .byte => copyBytes regs (.inputBytes regs.input regs.inputend size)
        | _ => do
            let _ ← Code.mfix (loopBody regs element size)
            return () := by
  rw [tc]
  rfl

/-- An array of bytes is copied. -/
theorem tc_array_byte {element : Ty} (isByte : element.derefType = .byte)
    : tc regs (.array element) = (withLocal fun size => do
        copyNat regs size
        copyBytes regs (.inputBytes regs.input regs.inputend size)) := by
  rw [tc_array, isByte]

theorem tc_array_loop {element : Ty} (notByte : element.derefType ≠ .byte)
    : tc regs (.array element) = withLocal fun size => do
        copyNat regs size
        let _ ← Code.mfix (loopBody regs element size)
        return () := by
  rw [tc_array]
  split
  next isByte => exact absurd isByte notByte
  next => rfl

theorem tc_sum (fields : List Ty)
    : tc regs (.sum fields) = (do
        let _ ← Code.mfix (sumBody regs fields)
        return ()) := by
  rw [tc]
  rfl

theorem tc_maybe (ty : Ty)
    : tc regs (.maybe ty) = (do
        let _ ← Code.mfix (maybeBody regs ty)
        return ()) := by
  rw [tc]
  rfl

theorem check_eq (what : String) (reg1 reg2 : Register)
    : check what reg1 reg2 = (do
        let _ ← Code.mfix (checkBody what reg1 reg2)
        return ()) :=
  rfl

theorem similar_copyNat (reg : Register) : Code.Similar (copyNat regs reg) (copyNat regs reg) :=
  .bind (.issue rfl) (fun _ => .issue rfl)

theorem similar_copyBytes (skip : Instruction)
    : Code.Similar (copyBytes regs skip) (copyBytes regs skip) :=
  .withLocal (fun _ => .bind (.issue rfl) (fun _ => .bind (.issue rfl) (fun _ => .issue rfl)))

theorem similar_copySelect (targets others : List Label)
    : Code.Similar (copySelect regs targets) (copySelect regs others) :=
  .withLocal (fun sel => .bind (similar_copyNat sel) (fun _ => .issue rfl))

theorem similar_enumBody (k : Register) (finish other : Label)
    : Code.Similar (enumBody regs k finish) (enumBody regs k other) :=
  .bind (.withLocal (fun sel => .bind (similar_copyNat sel)
    (fun _ => .bind (.issue rfl) (fun _ => .raise _)))) (fun _ => .label)

theorem similar_tcEnum (arity : Nat) : Code.Similar (tcEnum regs arity) (tcEnum regs arity) :=
  .bind (.constant arity) (fun k => .bind (.mfix (similar_enumBody k)) (fun _ => .pure ()))

theorem similar_checkBody (what : String) (reg1 reg2 : Register) (labels others : Label × Label)
    : Code.Similar (checkBody what reg1 reg2 labels) (checkBody what reg1 reg2 others) :=
  .bind (.issue rfl) (fun _ => .bind (.issue rfl) (fun _ => .bind .label (fun _ =>
    .bind (.raise _) (fun _ => .bind .label (fun _ => .pure _)))))

theorem similar_loopBody {element : Ty} (similar : Code.Similar (tc regs element) (tc regs element))
    (size : Register) (finish other : Label)
    : Code.Similar (loopBody regs element size finish) (loopBody regs element size other) :=
  .bind (.issue rfl) (fun _ => .bind .label (fun _ => .bind similar (fun _ =>
    .bind (.issue rfl) (fun _ => .label))))

theorem similar_maybeBody {ty : Ty} (similar : Code.Similar (tc regs ty) (tc regs ty))
    (labels others : Label × Label)
    : Code.Similar (maybeBody regs ty labels) (maybeBody regs ty others) :=
  .bind (similar_copySelect _ _) (fun _ => .bind (.raise _) (fun _ => .bind .label (fun _ =>
    .bind similar (fun _ => .bind .label (fun _ => .pure _)))))

mutual

theorem similar_tc : (ty : Ty) → Code.Similar (tc regs ty) (tc regs ty)
  | .byte => .bind (.constant 1) (fun _ => similar_copyBytes _)
  | .nat => .withLocal similar_copyNat
  | .string => similar_copyBytes _
  | .array element => by
      rw [tc_array]
      refine .withLocal (fun size => .bind (similar_copyNat size) (fun _ => ?_))
      split
      · exact similar_copyBytes _
      · exact .bind (.mfix (similar_loopBody (similar_tc element) size)) (fun _ => .pure ())
  | .record fields => similar_tcFields fields
  | .sum fields => by
      rw [tc_sum]
      exact .bind (.mfix (similar_sumBody fields)) (fun _ => .pure ())
  | .predicate pid => .withLocal (fun _ => .bind (.constant pid) (fun _ =>
      .bind (.issue rfl) (fun _ => .bind (.issue rfl) (fun _ => .issue rfl))))
  | .namedType ty => similar_tc ty
  | .maybe ty => by
      rw [tc_maybe]
      exact .bind (.mfix (similar_maybeBody (similar_tc ty))) (fun _ => .pure ())
  | .enumerated names => similar_tcEnum names.length
  | .boolean => similar_tcEnum 2

theorem similar_tcFields : (fields : List Ty) → Code.Similar (tcFields regs fields) (tcFields regs fields)
  | [] => .pure ()
  | field :: fields => .bind (similar_tc field) (fun _ => similar_tcFields fields)

theorem similar_tcAlts (finish other : Label)
    : (fields : List Ty) → Code.Similar (tcAlts regs finish fields) (tcAlts regs other fields)
  | [] => .pure []
  | field :: fields => .bind .label (fun _ => .bind (similar_tc field) (fun _ =>
      .bind (.issue rfl) (fun _ => .bind (similar_tcAlts finish other fields)
        (fun _ => .pure _))))

theorem similar_sumBody (fields : List Ty) (labels others : List Label × Label)
    : Code.Similar (sumBody regs fields labels) (sumBody regs fields others) :=
  .bind (similar_copySelect _ _) (fun _ => .bind (.raise _) (fun _ =>
    .bind (similar_tcAlts _ _ fields) (fun _ => .bind .label (fun _ => .pure _))))

end

theorem steady_copyNat (reg : Register) : (copyNat regs reg).Steady :=
  .bind (.issue (by simp)) (fun _ => .issue (by simp))

theorem steady_copyBytes {skip : Instruction} (notJump : ∀ target, skip ≠ .jump target)
    : (copyBytes regs skip).Steady :=
  .withLocal (fun _ => .bind (.issue (by simp)) (fun _ =>
    .bind (.issue notJump) (fun _ => .issue (by simp))))

theorem steady_copySelect (targets : List Label) : (copySelect regs targets).Steady :=
  .withLocal (fun sel => .bind (steady_copyNat sel) (fun _ => .issue (by simp)))

theorem steady_enumBody (k : Register) (finish : Label) : (enumBody regs k finish).Steady :=
  .bind (.withLocal (fun sel => .bind (steady_copyNat sel)
    (fun _ => .bind (.issue (by simp)) (fun _ => .raise _)))) (fun _ => .label)

theorem steady_tcEnum (arity : Nat) : (tcEnum regs arity).Steady :=
  .bind (.constant arity) (fun k => .bind (.mfix (steady_enumBody k)) (fun _ => .pure ()))

theorem steady_loopBody {element : Ty} (steady : (tc regs element).Steady) (size : Register)
    (finish : Label)
    : (loopBody regs element size finish).Steady :=
  .bind (.issue (by simp)) (fun _ => .bind .label (fun _ => .bind steady (fun _ =>
    .bind (.issue (by simp)) (fun _ => .label))))

theorem steady_maybeBody {ty : Ty} (steady : (tc regs ty).Steady) (labels : Label × Label)
    : (maybeBody regs ty labels).Steady :=
  .bind (steady_copySelect _) (fun _ => .bind (.raise _) (fun _ => .bind .label (fun _ =>
    .bind steady (fun _ => .bind .label (fun _ => .pure _)))))

mutual

theorem steady_tc : (ty : Ty) → (tc regs ty).Steady
  | .byte => .bind (.constant 1) (fun _ => steady_copyBytes (by simp))
  | .nat => .withLocal steady_copyNat
  | .string => steady_copyBytes (by simp)
  | .array element => by
      rw [tc_array]
      refine .withLocal (fun size => .bind (steady_copyNat size) (fun _ => ?_))
      split
      · exact steady_copyBytes (by simp)
      · exact .bind (.mfix (steady_loopBody (steady_tc element) size)) (fun _ => .pure ())
  | .record fields => steady_tcFields fields
  | .sum fields => by
      rw [tc_sum]
      refine ⟨.bind (.mfix (grows_sumBody fields)) (fun _ => .pure ()), fun state wf => ?_⟩
      obtain ⟨labels, isFixed, same⟩ := Code.mfix_apply (fun guess other =>
        show Code.Similar (sumBody regs fields guess) _ from similar_sumBody fields guess other) state
      rw [Code.Forward, same]
      exact forward_sumBody fields wf isFixed
  | .predicate pid => .withLocal (fun _ => .bind (.constant pid) (fun _ =>
      .bind (.issue (by simp)) (fun _ => .bind (.issue (by simp)) (fun _ => .issue (by simp)))))
  | .namedType ty => steady_tc ty
  | .maybe ty => by
      rw [tc_maybe]
      exact .bind (.mfix (steady_maybeBody (steady_tc ty))) (fun _ => .pure ())
  | .enumerated names => steady_tcEnum names.length
  | .boolean => steady_tcEnum 2

theorem steady_tcFields : (fields : List Ty) → (tcFields regs fields).Steady
  | [] => .pure ()
  | field :: fields => .bind (steady_tc field) (fun _ => steady_tcFields fields)

theorem grows_tcAlts (finish : Label)
    : (fields : List Ty) → (tcAlts regs finish fields).AlwaysGrows
  | [] => .pure []
  | field :: fields => .bind .label (fun _ => .bind (steady_tc field).grows (fun _ =>
      .bind (.issue _) (fun _ => .bind (grows_tcAlts finish fields) (fun _ => .pure _))))

theorem grows_sumBody (fields : List Ty) (labels : List Label × Label)
    : (sumBody regs fields labels).AlwaysGrows :=
  .bind (steady_copySelect _).grows (fun _ => .bind (.raise _) (fun _ =>
    .bind (grows_tcAlts _ fields) (fun _ => .bind .label (fun _ => .pure _))))

theorem forward_tcAlts {finish : Label}
    : (fields : List Ty) → {state : CodeS} → state.WF →
        (tcAlts regs finish fields state).2.csLabel ≤ finish →
        (tcAlts regs finish fields).Forward state
  | [], _, _, _ => fun isForward => isForward
  | field :: fields, state, wf, bound => by
      have afterLabel := (Code.Grows.label wf).wf
      have afterField : (tc regs field (label state).2).2.WF :=
        ((steady_tc field).grows _ afterLabel).wf
      have afterJump := (Code.Grows.issue (.jump finish) afterField).wf
      exact .bind (.label wf) (.bind ((steady_tc field).forward _ afterLabel)
        (.bind (Code.Forward.jump afterField (grows_tcAlts finish fields) bound)
          (.bind (forward_tcAlts fields afterJump bound) (fun isForward => isForward))))

theorem forward_sumBody (fields : List Ty) {state : CodeS} (wf : state.WF)
    {labels : List Label × Label} (isFixed : (sumBody regs fields labels state).1 = labels)
    : (sumBody regs fields labels).Forward state := by
  have afterSelect : (copySelect regs labels.1 state).2.WF :=
    ((steady_copySelect labels.1).grows _ wf).wf
  have afterRaise := (Code.Grows.raise afterSelect "selector out of range").wf
  have afterAlts : (tcAlts regs labels.2 fields).Grows _ := grows_tcAlts labels.2 fields _ afterRaise
  refine .bind ((steady_copySelect _).forward _ wf) (.bind (.raise afterSelect _)
    (.bind (forward_tcAlts fields afterRaise ?_) (.bind (.label afterAlts.wf)
      (fun isForward => isForward))))
  have bound := (Code.Grows.label afterAlts.wf).csLabel
  rw [csLabel_label] at bound
  exact bound.trans (le_of_eq (congrArg Prod.snd isFixed))

end

theorem grows_checkBody (what : String) (reg1 reg2 : Register) (labels : Label × Label)
    : (checkBody what reg1 reg2 labels).AlwaysGrows :=
  .bind (.issue _) (fun _ => .bind (.issue _) (fun _ => .bind .label (fun _ =>
    .bind (.raise _) (fun _ => .bind .label (fun _ => .pure _)))))

theorem forward_checkBody (what : String) (reg1 reg2 : Register) {labels : Label × Label}
    (wf : state.WF) (isFixed : (checkBody what reg1 reg2 labels state).1 = labels)
    : (checkBody what reg1 reg2 labels).Forward state := by
  let rest : Code Label := do
    let _ ← label
    raise ("extra bytes at end of " ++ what)
    label
  have steady : rest.Steady := .bind .label (fun _ => .bind (.raise _) (fun _ => .label))
  have afterCompare := (Code.Grows.issue (.jumpIfNe reg1 reg2 labels.1) wf).wf
  have afterJump := (Code.Grows.issue (.jump labels.2) afterCompare).wf
  have isLast : (rest (issue (.jump labels.2)
      (issue (.jumpIfNe reg1 reg2 labels.1) state).2).2).1 = labels.2 :=
    congrArg Prod.snd isFixed
  have bound := (csLabel_label _).le.trans isLast.le
  exact .bind (.issue _ wf (fun _ isJump => by cases isJump))
    (.bind (Code.Forward.jump afterCompare steady.grows bound) (steady.forward _ afterJump))

theorem steady_check (what : String) (reg1 reg2 : Register)
    : (check what reg1 reg2).Steady := by
  rw [check_eq]
  refine ⟨.bind (.mfix (grows_checkBody what reg1 reg2)) (fun _ => .pure ()), fun state wf => ?_⟩
  obtain ⟨labels, isFixed, same⟩ := Code.mfix_apply (similar_checkBody what reg1 reg2) state
  rw [Code.Forward, same]
  exact forward_checkBody what reg1 reg2 wf isFixed

/-- Store the size of the key. -/
def storeKeySize : Code Unit :=
  withLocal fun size => do
    issue (.getOutputSize (.input 4) size)
    issue (.storeWord size (.input 5))

theorem steady_storeKeySize : storeKeySize.Steady :=
  .withLocal (fun _ => .bind (.issue (by simp)) (fun _ => .issue (by simp)))

theorem steady_signature (keyTy valTy : Ty) : (signature keyTy valTy).Steady :=
  .bind (steady_tc keyTy) (fun _ => .bind (steady_check _ _ _) (fun _ =>
    .bind steady_storeKeySize (fun _ => .bind (steady_tc valTy) (fun _ =>
      .bind (steady_check _ _ _) (fun _ => .issue (by simp))))))

/-- The code ends with a finished block. -/
theorem signature_finished (keyTy valTy : Ty) (state : CodeS)
    : (signature keyTy valTy state).2.csInsns = [] := by
  have stops (before : CodeS) : (issue .ret before).2.csInsns = [] := by
    rw [issue_jump (by simp [Insn.insnControl])]
  exact stops _

end Glean.RTS.Typecheck
