import Mathlib.Data.Finset.Card
import Glean.Schema.Query

/-! Patterns of flattened queries (`Query/Codegen.hs`) and the variables in them (`Query/Vars.hs`).
-/

namespace Glean.Schema

open Glean.RTS

mutual

/-- `Pat`, a `Term (Match () Var)` -/
inductive Pat where
  | byte (byte : Byte)
  | nat (number : Nat)
  | array (elements : List Pat)
  | byteArray (bytes : Bytes)
  | tuple (fields : List Pat)
  | alt (selector : Nat) (term : Pat)
  | string (text : Bytes)
  | ref (pat : PatMatch)

/-- `Match () Var` -/
inductive PatMatch where
  | wild (type : RtsType)
  | never (type : RtsType)
  | fid (id : Id)
  | bind (var : Var)
  | var (var : Var)
  | and (left right : Pat)
  | strPrefix (text : Bytes) (rest : Pat)
  | sum (alts : List (Option Pat))
  | ext

end

/-- `matchVar` -/
def matchVar : PatMatch → Option Var
  | .var var | .bind var => some var
  | _ => none

/-- `IntSet` -/
abbrev VarSet := Finset Nat

mutual

/-- `varsOf` of a term -/
def Pat.varsOf : Pat → VarSet → VarSet
  | .byte _, r | .nat _, r | .byteArray _, r | .string _, r => r
  | .ref pat, r => pat.varsOf r
  | .tuple fields, r => varsOfPats fields r
  | .array elements, r => varsOfPats elements r
  | .alt _ term, r => term.varsOf r

def varsOfPats : List Pat → VarSet → VarSet
  | [], r => r
  | pat :: pats, r => pat.varsOf (varsOfPats pats r)

/-- `varsOf` of a match -/
def PatMatch.varsOf : PatMatch → VarSet → VarSet
  | .wild _, r | .never _, r | .fid _, r => r
  | .bind var, r | .var var, r => insert var.id r
  | .and left right, r => left.varsOf (right.varsOf r)
  | .strPrefix _ rest, r => rest.varsOf r
  | .sum alts, r => varsOfAlts alts r
  | .ext, r => r

def varsOfAlts : List (Option Pat) → VarSet → VarSet
  | [], r => r
  | none :: alts, r => varsOfAlts alts r
  | some pat :: alts, r => pat.varsOf (varsOfAlts alts r)

end

/-- `vars` -/
def Pat.vars (pat : Pat) : VarSet := pat.varsOf ∅

end Glean.Schema
