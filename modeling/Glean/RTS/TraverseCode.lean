import Glean.Bytecode.Emission
import Glean.RTS.Traverse

/-! The shape of a traversal's code: its labels do not depend on guesses, it keeps what was
generated before, and blocks that consist of a jump jump forward.
-/

namespace Glean.RTS.Traverse

open Bytecode

variable {regs : Registers} {state : CodeS}

variable (regs)

def loopBody (element : Rep) (size : Register) (finish : Label) : Code Label := do
  issue (.jumpIf0 size finish)
  let loop ← label
  go regs true element
  issue (.decrAndJumpIfNot0 size loop)
  label

/-- Read a selector and jump to its target. -/
def readSelect (targets : List Label) : Code Unit :=
  withLocal fun sel => do
    issue (.inputNat regs.input regs.inputend sel)
    issue (.select sel targets)

def sumBody (refs : Bool) (fields : List Rep) (labels : List Label × Label)
    : Code (List Label × Label) := do
  readSelect regs labels.1
  raise "selector out of range"
  let alts ← goAlts regs refs labels.2 fields
  let finish ← label
  return (alts, finish)

/-- The rounds of a loop over the elements of an array. -/
def loopCode (element : Rep) (size : Register) : Code Unit := do
  let _ ← Code.mfix (loopBody regs element size)
  return ()

/-- The code for a sum whose alternatives are not all empty. -/
def sumCode (refs : Bool) (fields : List Rep) : Code Unit := do
  let _ ← Code.mfix (sumBody regs refs fields)
  return ()

/-- Skip a selector. -/
def skipSelector (arity : Nat) : Code Unit :=
  if arity ≤ 127 then
    issue (.addConst 1 regs.input)
  else
    issue (.inputSkipNat regs.input regs.inputend)

variable {regs}

theorem go_array_byte (refs : Bool)
    : go regs refs (.array .byte) = when (refs || Rep.byte.hasRefs) (withLocal fun size => do
        issue (.inputNat regs.input regs.inputend size)
        issue (.add size regs.input)) := by
  rw [go]

theorem go_array_loop {element : Rep} (notByte : element ≠ .byte) (refs : Bool)
    : go regs refs (.array element) = when (refs || element.hasRefs) (withLocal fun size => do
        issue (.inputNat regs.input regs.inputend size)
        loopCode regs element size) := by
  rw [go]
  split
  next => exact absurd rfl notByte
  next => rfl

theorem go_sum_unit {fields : List Rep} (unit : allUnit fields = true) (refs : Bool)
    : go regs refs (.sum fields) = when refs (skipSelector regs fields.length) := by
  rw [go, if_pos unit]
  rfl

theorem go_sum {fields : List Rep} (notUnit : allUnit fields ≠ true) (refs : Bool)
    : go regs refs (.sum fields) = when (refs || anyHasRefs fields) (sumCode regs refs fields) := by
  rw [go, if_neg notUnit]
  rfl

theorem similar_when {left right : Code Unit} (similar : Code.Similar left right) (condition : Bool)
    : Code.Similar (when condition left) (when condition right) := by
  cases condition with
  | true => exact similar
  | false => exact .pure ()

theorem similar_readSelect (targets others : List Label)
    : Code.Similar (readSelect regs targets) (readSelect regs others) :=
  .withLocal (fun _ => .bind (.issue rfl) (fun _ => .issue rfl))

theorem similar_loopBody {element : Rep}
    (similar : Code.Similar (go regs true element) (go regs true element)) (size : Register)
    (finish other : Label)
    : Code.Similar (loopBody regs element size finish) (loopBody regs element size other) :=
  .bind (.issue rfl) (fun _ => .bind .label (fun _ => .bind similar (fun _ =>
    .bind (.issue rfl) (fun _ => .label))))

theorem similar_sumBody_of {refs : Bool} {fields : List Rep}
    (similar : ∀ finish other, Code.Similar (goAlts regs refs finish fields)
      (goAlts regs refs other fields))
    (labels others : List Label × Label)
    : Code.Similar (sumBody regs refs fields labels) (sumBody regs refs fields others) :=
  .bind (similar_readSelect _ _) (fun _ => .bind (.raise _) (fun _ =>
    .bind (similar _ _) (fun _ => .bind .label (fun _ => .pure _))))

theorem similar_skipSelector (arity : Nat)
    : Code.Similar (skipSelector regs arity) (skipSelector regs arity) := by
  unfold skipSelector
  split
  · exact .issue rfl
  · exact .issue rfl

mutual

theorem similar_go (refs : Bool) : (rep : Rep) → Code.Similar (go regs refs rep) (go regs refs rep)
  | .byte => similar_when (.issue rfl) refs
  | .nat => similar_when (.issue rfl) refs
  | .string => similar_when (.issue rfl) refs
  | .array element => by
      by_cases isByte : element = .byte
      · rw [isByte, go_array_byte]
        exact similar_when (.withLocal (fun _ => .bind (.issue rfl) (fun _ => .issue rfl))) _
      · rw [go_array_loop isByte]
        exact similar_when (.withLocal (fun size => .bind (.issue rfl) (fun _ =>
          .bind (.mfix (similar_loopBody (similar_go true element) size)) (fun _ => .pure ())))) _
  | .tuple fields => by
      rw [go]
      exact similar_goFields refs fields
  | .sum fields => by
      by_cases unit : allUnit fields = true
      · rw [go_sum_unit unit]
        exact similar_when (similar_skipSelector _) refs
      · rw [go_sum unit]
        exact similar_when (.bind (.mfix (similar_sumBody_of (fun finish other =>
          similar_goAlts refs finish other fields))) (fun _ => .pure ())) _
  | .predicate pid => .withLocal (fun _ => .bind (.issue rfl) (fun _ =>
      .bind (.constant pid) (fun _ => .issue rfl)))

theorem similar_goFields (refs : Bool)
    : (fields : List Rep) → Code.Similar (goFields regs refs fields) (goFields regs refs fields)
  | [] => .pure ()
  | field :: fields => .bind (similar_go _ field) (fun _ => similar_goFields refs fields)

theorem similar_goAlts (refs : Bool) (finish other : Label)
    : (fields : List Rep) →
        Code.Similar (goAlts regs refs finish fields) (goAlts regs refs other fields)
  | [] => .pure []
  | field :: fields => .bind .label (fun _ => .bind (similar_go refs field) (fun _ =>
      .bind (.issue rfl) (fun _ => .bind (similar_goAlts refs finish other fields)
        (fun _ => .pure _))))

end

theorem similar_sumBody (refs : Bool) (fields : List Rep) (labels others : List Label × Label)
    : Code.Similar (sumBody regs refs fields labels) (sumBody regs refs fields others) :=
  similar_sumBody_of (fun finish other => similar_goAlts refs finish other fields) labels others

theorem steady_when {code : Code Unit} (steady : code.Steady) (condition : Bool)
    : (when condition code).Steady := by
  cases condition with
  | true => exact steady
  | false => exact .pure ()

theorem steady_readSelect (targets : List Label) : (readSelect regs targets).Steady :=
  .withLocal (fun _ => .bind (.issue (by simp)) (fun _ => .issue (by simp)))

theorem steady_loopBody {element : Rep} (steady : (go regs true element).Steady) (size : Register)
    (finish : Label)
    : (loopBody regs element size finish).Steady :=
  .bind (.issue (by simp)) (fun _ => .bind .label (fun _ => .bind steady (fun _ =>
    .bind (.issue (by simp)) (fun _ => .label))))

theorem steady_loopCode {element : Rep} (steady : (go regs true element).Steady) (size : Register)
    : (loopCode regs element size).Steady :=
  .bind (.mfix (steady_loopBody steady size)) (fun _ => .pure ())

theorem steady_skipSelector (arity : Nat) : (skipSelector regs arity).Steady := by
  unfold skipSelector
  split
  · exact .issue (by simp)
  · exact .issue (by simp)

/-- Where the alternatives of a sum can be generated and jump forward. -/
structure SteadyAlts (regs : Registers) (refs : Bool) (fields : List Rep) : Prop where
  grows : ∀ finish, (goAlts regs refs finish fields).AlwaysGrows
  forward
    : ∀ {finish : Label} {state : CodeS}, state.WF →
        (goAlts regs refs finish fields state).2.csLabel ≤ finish →
        (goAlts regs refs finish fields).Forward state

namespace SteadyAlts

variable {refs : Bool} {fields : List Rep}

theorem grows_sumBody (steady : SteadyAlts regs refs fields) (labels : List Label × Label)
    : (sumBody regs refs fields labels).AlwaysGrows :=
  .bind (steady_readSelect _).grows (fun _ => .bind (.raise _) (fun _ =>
    .bind (steady.grows _) (fun _ => .bind .label (fun _ => .pure _))))

theorem forward_sumBody (steady : SteadyAlts regs refs fields) (wf : state.WF)
    {labels : List Label × Label} (isFixed : (sumBody regs refs fields labels state).1 = labels)
    : (sumBody regs refs fields labels).Forward state := by
  have afterSelect : (readSelect regs labels.1 state).2.WF :=
    ((steady_readSelect labels.1).grows _ wf).wf
  have afterRaise := (Code.Grows.raise afterSelect "selector out of range").wf
  have afterAlts : (goAlts regs refs labels.2 fields).Grows _ := steady.grows labels.2 _ afterRaise
  refine .bind ((steady_readSelect _).forward _ wf) (.bind (.raise afterSelect _)
    (.bind (steady.forward afterRaise ?_) (.bind (.label afterAlts.wf)
      (fun isForward => isForward))))
  have bound := (Code.Grows.label afterAlts.wf).csLabel
  rw [csLabel_label] at bound
  exact bound.trans (le_of_eq (congrArg Prod.snd isFixed))

theorem sumCode (steady : SteadyAlts regs refs fields) : (sumCode regs refs fields).Steady := by
  refine ⟨.bind (.mfix steady.grows_sumBody) (fun _ => .pure ()), fun state wf => ?_⟩
  obtain ⟨labels, isFixed, same⟩ := Code.mfix_apply (fun guess other =>
    show Code.Similar (sumBody regs refs fields guess) _ from
      similar_sumBody refs fields guess other) state
  rw [Code.Forward, Traverse.sumCode, same]
  exact steady.forward_sumBody wf isFixed

end SteadyAlts

mutual

theorem steady_go (refs : Bool) : (rep : Rep) → (go regs refs rep).Steady
  | .byte => steady_when (.issue (by simp)) refs
  | .nat => steady_when (.issue (by simp)) refs
  | .string => steady_when (.issue (by simp)) refs
  | .array element => by
      by_cases isByte : element = .byte
      · rw [isByte, go_array_byte]
        exact steady_when (.withLocal (fun _ => .bind (.issue (by simp)) (fun _ =>
          .issue (by simp)))) _
      · rw [go_array_loop isByte]
        exact steady_when (.withLocal (fun size => .bind (.issue (by simp)) (fun _ =>
          steady_loopCode (steady_go true element) size))) _
  | .tuple fields => by
      rw [go]
      exact steady_goFields refs fields
  | .sum fields => by
      by_cases unit : allUnit fields = true
      · rw [go_sum_unit unit]
        exact steady_when (steady_skipSelector _) refs
      · rw [go_sum unit]
        exact steady_when (SteadyAlts.sumCode
          ⟨fun finish => grows_goAlts refs finish fields, forward_goAlts refs fields⟩) _
  | .predicate pid => .withLocal (fun _ => .bind (.issue (by simp)) (fun _ =>
      .bind (.constant pid) (fun _ => .issue (by simp))))

theorem steady_goFields (refs : Bool) : (fields : List Rep) → (goFields regs refs fields).Steady
  | [] => .pure ()
  | field :: fields => .bind (steady_go _ field) (fun _ => steady_goFields refs fields)

theorem grows_goAlts (refs : Bool) (finish : Label)
    : (fields : List Rep) → (goAlts regs refs finish fields).AlwaysGrows
  | [] => .pure []
  | field :: fields => .bind .label (fun _ => .bind (steady_go refs field).grows (fun _ =>
      .bind (.issue _) (fun _ => .bind (grows_goAlts refs finish fields) (fun _ => .pure _))))

theorem forward_goAlts (refs : Bool) {finish : Label}
    : (fields : List Rep) → {state : CodeS} → state.WF →
        (goAlts regs refs finish fields state).2.csLabel ≤ finish →
        (goAlts regs refs finish fields).Forward state
  | [], _, _, _ => fun isForward => isForward
  | field :: fields, state, wf, bound => by
      have afterLabel := (Code.Grows.label wf).wf
      have afterField : (go regs refs field (label state).2).2.WF :=
        ((steady_go refs field).grows _ afterLabel).wf
      have afterJump := (Code.Grows.issue (.jump finish) afterField).wf
      exact .bind (.label wf) (.bind ((steady_go refs field).forward _ afterLabel)
        (.bind (.jump afterField (grows_goAlts refs finish fields) bound)
          (.bind (forward_goAlts refs fields afterJump bound) (fun isForward => isForward))))

end

theorem steady_clauseCode (keyTy valTy : Ty) : (clauseCode keyTy valTy).Steady :=
  .bind (steady_go false keyTy.repType) (fun _ => .bind (steady_go false valTy.repType) (fun _ =>
    .issue (by simp)))

/-- The code ends with a finished block. -/
theorem clauseCode_finished (keyTy valTy : Ty) (state : CodeS)
    : (clauseCode keyTy valTy state).2.csInsns = [] := by
  have stops (before : CodeS) : (issue .ret before).2.csInsns = [] := by
    rw [issue_jump (by simp [Insn.insnControl])]
  exact stops _

end Glean.RTS.Traverse
