import Glean.Query.Pattern

/-! Flattened queries (`Query/Codegen.hs`, `Query/Flatten/Types.hs`) and the variables in them
(`Query/Vars.hs`).
-/

namespace Glean.Schema

open Glean.RTS

inductive PrimOp where
  | toLower
  | length
  | relToAbsByteSpans
  | gtNat
  | geNat
  | ltNat
  | leNat
  | neNat
  | addNat
  | neExpr
  deriving DecidableEq

inductive Generator where
  | factGenerator (pid : PidRef) (key value : Pat)
  | termGenerator (exp : Pat)
  | derivedFactGenerator (pid : PidRef) (key value : Pat)
  | arrayElementGenerator (eltTy : RtsType) (array : Pat)
  | primCall (op : PrimOp) (args : List Pat)

/-- A group of statements is a list. In the source it is not empty, which nothing here depends on.
-/
inductive FlatStatement where
  | flatStatement (type : RtsType) (lhs : Pat) (gen : Generator)
  | flatNegation (groups : List (List FlatStatement))
  | flatDisjunction (alts : List (List (List FlatStatement)))

abbrev FlatStatementGroup := List FlatStatement

def Generator.varsOf : Generator → VarSet → VarSet
  | .factGenerator _ key value, r => key.varsOf (value.varsOf r)
  | .termGenerator exp, r => exp.varsOf r
  | .derivedFactGenerator _ key value, r => key.varsOf (value.varsOf r)
  | .arrayElementGenerator _ array, r => array.varsOf r
  | .primCall _ args, r => varsOfPats args r

mutual

def FlatStatement.varsOf : FlatStatement → VarSet → VarSet
  | .flatStatement _ lhs gen, r => lhs.varsOf (gen.varsOf r)
  | .flatNegation groups, r => varsOfGroups groups r
  | .flatDisjunction alts, r => varsOfDisjunction alts r

def varsOfGroup : List FlatStatement → VarSet → VarSet
  | [], r => r
  | stmt :: stmts, r => stmt.varsOf (varsOfGroup stmts r)

/-- `varsStmts` -/
def varsOfGroups : List (List FlatStatement) → VarSet → VarSet
  | [], r => r
  | group :: groups, r => varsOfGroup group (varsOfGroups groups r)

def varsOfDisjunction : List (List (List FlatStatement)) → VarSet → VarSet
  | [], r => r
  | alt :: alts, r => varsOfGroups alt (varsOfDisjunction alts r)

end

def FlatStatement.vars (stmt : FlatStatement) : VarSet := stmt.varsOf ∅

/-- `boundVarsOfGen` -/
def boundVarsOfGen : Generator → VarSet → VarSet
  | .derivedFactGenerator _ _ _, r | .arrayElementGenerator _ _, r | .primCall _ _, r => r
  | other, r => other.varsOf r

mutual

/-- `boundVarsOf`: a negated query cannot bind variables. -/
def FlatStatement.boundVarsOf : FlatStatement → VarSet → VarSet
  | .flatStatement _ lhs gen, r => lhs.varsOf (boundVarsOfGen gen r)
  | .flatNegation _, r => r
  | .flatDisjunction alts, r => boundVarsOfDisjunction alts r

def boundVarsOfGroup : List FlatStatement → VarSet → VarSet
  | [], r => r
  | stmt :: stmts, r => stmt.boundVarsOf (boundVarsOfGroup stmts r)

def boundVarsOfGroups : List (List FlatStatement) → VarSet → VarSet
  | [], r => r
  | group :: groups, r => boundVarsOfGroup group (boundVarsOfGroups groups r)

def boundVarsOfDisjunction : List (List (List FlatStatement)) → VarSet → VarSet
  | [], r => r
  | alt :: alts, r => boundVarsOfGroups alt (boundVarsOfDisjunction alts r)

end

def FlatStatement.boundVars (stmt : FlatStatement) : VarSet := stmt.boundVarsOf ∅

end Glean.Schema
