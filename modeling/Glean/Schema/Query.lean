import Glean.Schema.Types

/-! Typechecked queries (`Query/Typecheck/Types.hs`) and what occurs in them: the predicates they
depend on and whether they use negation (`Query/Typecheck.hs`).
-/

namespace Glean.Schema

open Glean.RTS

structure Var where
  type : RtsType
  id : Nat

mutual

/-- `TcPat` -/
inductive TcPat where
  | byte (byte : Byte)
  | nat (number : Nat)
  | array (elements : List TcPat)
  | byteArray (bytes : Bytes)
  | tuple (fields : List TcPat)
  | alt (selector : Nat) (pat : TcPat)
  | string (text : Bytes)
  | ref (pat : Match)

/-- `Match` -/
inductive Match where
  | wild (type : RtsType)
  | never (type : RtsType)
  | fid (id : Id)
  | bind (var : Var)
  | var (var : Var)
  | and (left right : TcPat)
  | strPrefix (text : Bytes) (rest : TcPat)
  | sum (alts : List (Option TcPat))
  | ext (type : RtsType) (term : TcTerm)

/-- `TcTerm` -/
inductive TcTerm where
  | or (left right : TcPat)
  | factGen (pred : PidRef) (key value : TcPat)
  | elementsOfArray (array : TcPat)
  | queryGen (query : TcQuery)
  | negation (stmts : List TcStatement)
  | primCall (op : Name) (args : List TcPat)

/-- `TcStatement` -/
inductive TcStatement where
  | mk (type : RtsType) (lhs rhs : TcPat)

/-- `TcQuery`: its type, the head, which is a key and maybe a value, and the statements. -/
inductive TcQuery where
  | mk (type : RtsType) (key : TcPat) (value : Option TcPat) (stmts : List TcStatement)

end

mutual

/-- `typeDeps` -/
def typeDeps : RtsType → List PredicateRef
  | .byte | .nat | .string | .enumerated _ | .boolean => []
  | .array element => typeDeps element
  | .record fields => fieldsDeps fields
  | .sum fields => fieldsDeps fields
  | .predicate pred => [pred.ref]
  | .namedType _ expanded => typeDeps expanded
  | .maybe element => typeDeps element

def fieldsDeps : List FieldDef → List PredicateRef
  | [] => []
  | .mk _ type :: fields => typeDeps type ++ fieldsDeps fields

end

/-- What is collected from the parts of a query, and whether heads are parts of it. -/
structure Visitor (α : Type) where
  type : RtsType → List α
  generator : PredicateRef → List α
  negation : List α
  heads : Bool

namespace Visitor

variable {α : Type} (visitor : Visitor α)

mutual

def query : TcQuery → List α
  | .mk type key value stmts =>
      visitor.type type
        ++ (if visitor.heads then pat key ++ optional value else [])
        ++ statements stmts

def statement : TcStatement → List α
  | .mk type lhs rhs => visitor.type type ++ pat lhs ++ pat rhs

def statements : List TcStatement → List α
  | [] => []
  | stmt :: stmts => statement stmt ++ statements stmts

def pat : TcPat → List α
  | .byte _ | .nat _ | .byteArray _ | .string _ => []
  | .array elements => pats elements
  | .tuple fields => pats fields
  | .alt _ inner => pat inner
  | .ref inner => refPat inner

def pats : List TcPat → List α
  | [] => []
  | first :: others => pat first ++ pats others

def optional : Option TcPat → List α
  | none => []
  | some inner => pat inner

def alts : List (Option TcPat) → List α
  | [] => []
  | first :: others => optional first ++ alts others

def refPat : Match → List α
  | .wild type | .never type => visitor.type type
  | .fid _ | .bind _ | .var _ => []
  | .and left right => pat left ++ pat right
  | .strPrefix _ rest => pat rest
  | .sum inner => alts inner
  | .ext type inner => visitor.type type ++ term inner

def term : TcTerm → List α
  | .or left right => pat left ++ pat right
  | .factGen pred key value => visitor.generator pred.ref ++ pat key ++ pat value
  | .elementsOfArray array => pat array
  | .queryGen inner => query inner
  | .negation stmts => visitor.negation ++ statements stmts
  | .primCall _ args => pats args

end

end Visitor

/-- `tcQueryDeps`: the head of a query is not looked at. -/
def tcQueryDeps (query : TcQuery) : List PredicateRef :=
  Visitor.query ⟨typeDeps, fun ref => [ref], [], false⟩ query

/-- `tcQueryUsesNegation`: nor is it here. Types do not use negation. -/
def tcQueryUsesNegation (query : TcQuery) : Bool :=
  !(Visitor.query ⟨fun _ => [], fun _ => [], [()], false⟩ query).isEmpty

/-- The predicates that occur anywhere in a query, as generators or in types. -/
def TcQuery.mentioned (query : TcQuery) : List PredicateRef :=
  Visitor.query ⟨typeDeps, fun ref => [ref], [], true⟩ query

/-- Whether there is a negation anywhere in a query. -/
def TcQuery.negates (query : TcQuery) : Bool :=
  !(Visitor.query ⟨fun _ => [], fun _ => [], [()], true⟩ query).isEmpty

/-- What heads mention or negate also occurs outside of them. -/
structure TcQuery.HeadsCovered (query : TcQuery) : Prop where
  mentioned : ∀ ref ∈ query.mentioned, ref ∈ tcQueryDeps query
  negates : query.negates = true → tcQueryUsesNegation query = true

end Glean.Schema
