import Glean.RTS.Encoding

/-! Traversals (`Traverse.hs`): a subroutine that calls a function for each reference in a clause
of given types.
-/

namespace Glean.RTS

open Bytecode

mutual

/-- `hasRefs` -/
def Rep.hasRefs : Rep → Bool
  | .byte => false
  | .nat => false
  | .string => false
  | .array element => element.hasRefs
  | .tuple fields => anyHasRefs fields
  | .sum fields => anyHasRefs fields
  | .predicate _ => true

def anyHasRefs : List Rep → Bool
  | [] => false
  | field :: fields => field.hasRefs || anyHasRefs fields

end

mutual

/-- `isUnit` -/
def Rep.isUnit : Rep → Bool
  | .byte => false
  | .nat => false
  | .string => false
  | .array _ => false
  | .tuple fields => allUnit fields
  | .sum _ => false
  | .predicate _ => false

def allUnit : List Rep → Bool
  | [] => true
  | field :: fields => field.isUnit && allUnit fields

end

namespace Traverse

/-- The registers of the arguments. -/
structure Registers where
  callback : Register
  input : Register
  inputend : Register

def when (condition : Bool) (code : Code Unit) : Code Unit :=
  if condition then code else return ()

variable (regs : Registers)

mutual

/-- `go` of `traversal`. If `refs` is true, the input has to point behind the value afterwards,
and otherwise the value is only traversed if it has references.
-/
def go (refs : Bool) : Rep → Code Unit
  | .byte => when refs (issue (.addConst 1 regs.input))
  | .nat => when refs (issue (.inputSkipNat regs.input regs.inputend))
  | .string => when refs (issue (.inputSkipTrustedString regs.input regs.inputend))
  | .array element => when (refs || element.hasRefs) <| withLocal fun size => do
      issue (.inputNat regs.input regs.inputend size)
      match element with
      | .byte => issue (.add size regs.input)
      | other => do
          let _ ← Code.mfix fun finish => do
            issue (.jumpIf0 size finish)
            let loop ← label
            go true other
            issue (.decrAndJumpIfNot0 size loop)
            label
          return ()
  | .tuple fields => goFields refs fields
  | .sum fields =>
      if allUnit fields then
        when refs <|
          if fields.length ≤ 127 then
            issue (.addConst 1 regs.input)
          else
            issue (.inputSkipNat regs.input regs.inputend)
      else
        when (refs || anyHasRefs fields) do
          let _ ← Code.mfix fun (alts, finish) => do
            withLocal fun sel => do
              issue (.inputNat regs.input regs.inputend sel)
              issue (.select sel alts)
            raise "selector out of range"
            let alts ← goAlts refs finish fields
            let finish ← label
            return (alts, finish)
          return ()
  | .predicate pid => withLocal fun ide => do
      issue (.inputNat regs.input regs.inputend ide)
      let pidr ← constant pid
      issue (.callFun_2_0 regs.callback ide pidr)

/-- The fields of a tuple: whether the input is needed behind a field depends on the fields that
follow.
-/
def goFields (refs : Bool) : List Rep → Code Unit
  | [] => return ()
  | field :: fields => do
      go (fields.foldr (fun ty refs => ty.hasRefs || refs) refs) field
      goFields refs fields

/-- The alternatives of a sum: a label for each. -/
def goAlts (refs : Bool) (finish : Label) : List Rep → Code (List Label)
  | [] => return []
  | field :: fields => do
      let alt ← label
      go refs field
      issue (.jump finish)
      let alts ← goAlts refs finish fields
      return alt :: alts

end

/-- `traversal` -/
def traversal (ty : Ty) : Code Unit :=
  go regs false ty.repType

/-- The code of `genTraversal`. The arguments are the function, the begin of the clause, the end of
the key and the end of the clause.
-/
def clauseCode (keyTy valTy : Ty) : Code Unit := do
  let handler := Register.input 0
  let clauseBegin := Register.input 1
  let keyEnd := Register.input 2
  let clauseEnd := Register.input 3
  traversal ⟨handler, clauseBegin, keyEnd⟩ keyTy
  traversal ⟨handler, keyEnd, clauseEnd⟩ valTy
  issue .ret

end Traverse

/-- `genTraversal` -/
def genTraversal (keyTy valTy : Ty) : Outcome Subroutine :=
  generate 4 (Traverse.clauseCode keyTy valTy)

/-- The arguments of a traversal of a clause. -/
def traversalArgs {L : Type} (clause : Clause) : List (Contents L) :=
  [.function, .dataPtr 0, .dataPtr clause.key.length, .dataPtr (clause.key ++ clause.value).length]

/-- A function that records its calls. -/
def record (id pid : Nat) (calls : List (Id × Pid)) : Outcome (Nat × List (Id × Pid)) :=
  .ok (0, calls ++ [(id, pid)])

/-- The traversal of a clause ends with the outcome, which has the calls of the function. -/
def Traverses (varint : Varint) (u8 : U8Next) (keyTy valTy : Ty) (clause : Clause)
    (outcome : Outcome (Result (List (Id × Pid)))) : Prop :=
  ∃ subroutine, genTraversal keyTy valTy = .ok subroutine
    ∧ subroutine.Executes varint u8 record [] (clause.key ++ clause.value) (traversalArgs clause)
        outcome

mutual

/-- The references of a value of a type, from left to right, with their predicates. -/
def Value.typedRefs : Value → Rep → List (Id × Pid)
  | .array elements, .array element => typedRefsAll elements (List.replicate elements.length element)
  | .tuple values, .tuple fields => typedRefsAll values fields
  | .alt selector value, .sum fields =>
      match fields[selector]? with
      | some field => value.typedRefs field
      | none => []
  | .ref id, .predicate pid => [(id, pid)]
  | _, _ => []

def typedRefsAll : List Value → List Rep → List (Id × Pid)
  | value :: values, rep :: reps => value.typedRefs rep ++ typedRefsAll values reps
  | _, _ => []

end

end Glean.RTS
