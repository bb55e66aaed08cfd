import Glean.Bytecode.Code

/-! The typechecker of facts (`Typecheck.hs`): a subroutine that checks a clause against the
types of its key and value and renames the facts it refers to.
-/

namespace Glean.RTS

open Bytecode

/-- `Type`. The names of fields and of named types play no role. -/
inductive Ty where
  | byte
  | nat
  | string
  | array (element : Ty)
  | record (fields : List Ty)
  | sum (fields : List Ty)
  | predicate (pid : Pid)
  | namedType (ty : Ty)
  | maybe (ty : Ty)
  | enumerated (names : List String)
  | boolean

/-- `derefType` -/
def Ty.derefType : Ty → Ty
  | .namedType ty => ty.derefType
  | ty => ty

namespace Typecheck

/-- The registers of the arguments. -/
structure Registers where
  rename : Register
  input : Register
  inputend : Register
  output : Register

variable (regs : Registers)

/-- Read a number and write it again. -/
def copyNat (reg : Register) : Code Unit := do
  issue (.inputNat regs.input regs.inputend reg)
  issue (.outputNat reg regs.output)

/-- Skip bytes of the input and write them to the output. -/
def copyBytes (skip : Instruction) : Code Unit :=
  withLocal fun ptr => do
    issue (.loadReg regs.input ptr)
    issue skip
    issue (.outputBytes ptr regs.input regs.output)

def tcEnum (arity : Nat) : Code Unit := do
  let k ← constant arity
  let _ ← Code.mfix fun finish => do
    withLocal fun sel => do
      copyNat regs sel
      issue (.jumpIfLt sel k finish)
      raise "selector out of range"
    label
  return ()

mutual

/-- `typecheck` -/
def tc : Ty → Code Unit
  | .byte => do
      let size ← constant 1
      copyBytes regs (.inputBytes regs.input regs.inputend size)
  | .nat => withLocal fun reg => copyNat regs reg
  | .string => copyBytes regs (.inputSkipUntrustedString regs.input regs.inputend)
  | .array element => withLocal fun size => do
      copyNat regs size
      match element.derefType with
      | .byte => copyBytes regs (.inputBytes regs.input regs.inputend size)
      | _ => do
          let _ ← Code.mfix fun finish => do
            issue (.jumpIf0 size finish)
            let loop ← label
            tc element
            issue (.decrAndJumpIfNot0 size loop)
            label
          return ()
  | .record fields => tcFields fields
  | .sum fields => do
      let _ ← Code.mfix fun (alts, finish) => do
        withLocal fun sel => do
          copyNat regs sel
          issue (.select sel alts)
        raise "selector out of range"
        let alts ← tcAlts finish fields
        let finish ← label
        return (alts, finish)
      return ()
  | .predicate pid => withLocal fun ide => do
      let t ← constant pid
      issue (.inputNat regs.input regs.inputend ide)
      issue (.callFun_2_1 regs.rename ide t ide)
      issue (.outputNat ide regs.output)
  | .namedType ty => tc ty
  | .maybe ty => do
      let _ ← Code.mfix fun (finish, just) => do
        withLocal fun sel => do
          copyNat regs sel
          issue (.select sel [finish, just])
        raise "maybe selector out of range"
        let just ← label
        tc ty
        let finish ← label
        return (finish, just)
      return ()
  | .enumerated names => tcEnum regs names.length
  | .boolean => tcEnum regs 2

/-- The fields of a record, one after the other. -/
def tcFields : List Ty → Code Unit
  | [] => return ()
  | field :: fields => do
      tc field
      tcFields fields

/-- The alternatives of a sum: a label for each. -/
def tcAlts (finish : Label) : List Ty → Code (List Label)
  | [] => return []
  | field :: fields => do
      let alt ← label
      tc field
      issue (.jump finish)
      let alts ← tcAlts finish fields
      return alt :: alts

end

/-- `check`: nothing is left of the key or value. -/
def check (what : String) (reg1 reg2 : Register) : Code Unit := do
  let _ ← Code.mfix fun (bad, ok) => do
    issue (.jumpIfNe reg1 reg2 bad)
    issue (.jump ok)
    let bad ← label
    raise ("extra bytes at end of " ++ what)
    let ok ← label
    return (bad, ok)
  return ()

/-- The code of `checkSignature`. The arguments are the renamer, the begin of the clause, the
end of the key, the end of the clause, the output and the size of the key.
-/
def signature (keyTy valTy : Ty) : Code Unit := do
  let rename := Register.input 0
  let clauseBegin := Register.input 1
  let keyEnd := Register.input 2
  let clauseEnd := Register.input 3
  let out := Register.input 4
  let outKeySize := Register.input 5
  tc ⟨rename, clauseBegin, keyEnd, out⟩ keyTy
  check "key" clauseBegin keyEnd
  withLocal fun size => do
    issue (.getOutputSize out size)
    issue (.storeWord size outKeySize)
  tc ⟨rename, clauseBegin, clauseEnd, out⟩ valTy
  check "value" clauseBegin clauseEnd
  issue .ret

end Typecheck

/-- `checkSignature` -/
def checkSignature (keyTy valTy : Ty) : Outcome Subroutine :=
  generate 6 (Typecheck.signature keyTy valTy)

/-- The arguments of `Predicate::typecheck`. -/
def typecheckArgs {L : Type} (clause : Clause) : List (Contents L) :=
  [.function, .dataPtr 0, .dataPtr clause.key.length,
    .dataPtr (clause.key ++ clause.value).length, .output, .wordPtr]

/-- `Predicate::typecheck` of a predicate with the given types ends with the outcome. -/
def Typechecks {σ : Type} (varint : Varint) (u8 : U8Next)
    (rename : Nat → Nat → σ → Outcome (Nat × σ)) (keyTy valTy : Ty) (clause : Clause)
    (state : σ) (outcome : Outcome (Result σ)) : Prop :=
  ∃ typechecker, checkSignature keyTy valTy = .ok typechecker
    ∧ typechecker.Executes varint u8 rename state (clause.key ++ clause.value)
        (typecheckArgs clause) outcome

end Glean.RTS
