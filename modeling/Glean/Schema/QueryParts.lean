import Glean.Schema.Query

/-! Where generators and types occur in a query, and which of them its dependencies are taken from
(`Query/Typecheck.hs`, `tcQueryDeps`).
-/

namespace Glean.Schema

open Glean.RTS

/-- A type or a generator of facts. -/
inductive Part where
  | typed (type : RtsType)
  | generator (pred : PredicateRef)

def Part.refs : Part → List PredicateRef
  | .typed type => typeDeps type
  | .generator pred => [pred]

/-- A part, and whether it is in the head of the query or of a nested query. -/
structure Occurrence where
  inHead : Bool
  part : Part

mutual

/-- All parts of a query that is itself in a head or not. -/
def TcQuery.partsIn (inHead : Bool) : TcQuery → List Occurrence
  | .mk type key value stmts =>
      ⟨inHead, .typed type⟩
        :: (key.partsIn true ++ optionalParts true value ++ statementsParts inHead stmts)

def TcStatement.partsIn (inHead : Bool) : TcStatement → List Occurrence
  | .mk type lhs rhs => ⟨inHead, .typed type⟩ :: (lhs.partsIn inHead ++ rhs.partsIn inHead)

def statementsParts (inHead : Bool) : List TcStatement → List Occurrence
  | [] => []
  | stmt :: stmts => stmt.partsIn inHead ++ statementsParts inHead stmts

def TcPat.partsIn (inHead : Bool) : TcPat → List Occurrence
  | .byte _ | .nat _ | .byteArray _ | .string _ => []
  | .array elements => patsParts inHead elements
  | .tuple fields => patsParts inHead fields
  | .alt _ inner => inner.partsIn inHead
  | .ref inner => inner.partsIn inHead

def patsParts (inHead : Bool) : List TcPat → List Occurrence
  | [] => []
  | first :: others => first.partsIn inHead ++ patsParts inHead others

def optionalParts (inHead : Bool) : Option TcPat → List Occurrence
  | none => []
  | some inner => inner.partsIn inHead

def altsParts (inHead : Bool) : List (Option TcPat) → List Occurrence
  | [] => []
  | first :: others => optionalParts inHead first ++ altsParts inHead others

def Match.partsIn (inHead : Bool) : Match → List Occurrence
  | .wild type | .never type => [⟨inHead, .typed type⟩]
  | .fid _ | .bind _ | .var _ => []
  | .and left right => left.partsIn inHead ++ right.partsIn inHead
  | .strPrefix _ rest => rest.partsIn inHead
  | .sum inner => altsParts inHead inner
  | .ext type inner => ⟨inHead, .typed type⟩ :: inner.partsIn inHead

def TcTerm.partsIn (inHead : Bool) : TcTerm → List Occurrence
  | .or left right => left.partsIn inHead ++ right.partsIn inHead
  | .factGen pred key value =>
      ⟨inHead, .generator pred.ref⟩ :: (key.partsIn inHead ++ value.partsIn inHead)
  | .elementsOfArray array => array.partsIn inHead
  | .queryGen inner => inner.partsIn inHead
  | .negation stmts => statementsParts inHead stmts
  | .primCall _ args => patsParts inHead args

end

/-- The parts of a query -/
def TcQuery.parts (query : TcQuery) : List Occurrence := query.partsIn false

/-- Facts of the predicate are generated somewhere in the query. -/
def TcQuery.Generates (query : TcQuery) (pred : PredicateRef) : Prop :=
  ∃ inHead, ⟨inHead, .generator pred⟩ ∈ query.parts

/-- Facts of the predicate are generated in the head of the query or of a nested query. -/
def TcQuery.GeneratesInHead (query : TcQuery) (pred : PredicateRef) : Prop :=
  ⟨true, .generator pred⟩ ∈ query.parts

/-- The predicate occurs outside of heads, in a type or as a generator. -/
def TcQuery.MentionsOutside (query : TcQuery) (pred : PredicateRef) : Prop :=
  ∃ part, ⟨false, part⟩ ∈ query.parts ∧ pred ∈ part.refs

/-- What occurs outside of heads -/
def outside : List Occurrence → List PredicateRef
  | [] => []
  | ⟨inHead, part⟩ :: occurrences =>
      (if inHead then [] else part.refs) ++ outside occurrences

@[simp]
theorem outside_nil : outside [] = [] := rfl

@[simp]
theorem outside_head (part : Part) (occurrences : List Occurrence)
    : outside (⟨true, part⟩ :: occurrences) = outside occurrences := rfl

@[simp]
theorem outside_cons (part : Part) (occurrences : List Occurrence)
    : outside (⟨false, part⟩ :: occurrences) = part.refs ++ outside occurrences := rfl

@[simp]
theorem outside_append (left right : List Occurrence)
    : outside (left ++ right) = outside left ++ outside right := by
  induction left with
  | nil => rfl
  | cons occurrence left ih =>
      obtain ⟨inHead, part⟩ := occurrence
      cases inHead <;> simp [ih]

theorem mem_outside_iff {occurrences : List Occurrence} {pred : PredicateRef}
    : pred ∈ outside occurrences ↔ ∃ part, ⟨false, part⟩ ∈ occurrences ∧ pred ∈ part.refs := by
  induction occurrences with
  | nil => simp
  | cons occurrence occurrences ih =>
      obtain ⟨inHead, part⟩ := occurrence
      cases inHead with
      | false =>
          rw [outside_cons, List.mem_append, ih]
          constructor
          · rintro (isFirst | ⟨other, member, mentions⟩)
            · exact ⟨part, List.mem_cons_self, isFirst⟩
            · exact ⟨other, List.mem_cons_of_mem _ member, mentions⟩
          · rintro ⟨other, member, mentions⟩
            rcases List.mem_cons.mp member with same | later
            · obtain rfl : other = part := congrArg Occurrence.part same
              exact .inl mentions
            · exact .inr ⟨other, later, mentions⟩
      | true =>
          rw [outside_head, ih]
          simp

/-- The visitor of `tcQueryDeps` -/
def depsVisitor : Visitor PredicateRef := ⟨typeDeps, fun ref => [ref], [], false⟩

mutual

theorem outside_query (inHead : Bool) (query : TcQuery)
    : outside (query.partsIn inHead) = if inHead then [] else depsVisitor.query query := by
  cases query with
  | mk type key value stmts =>
      have inKey := outside_pat true key
      have inValue := outside_optional true value
      have inStmts := outside_statements inHead stmts
      cases inHead <;>
        simp_all [TcQuery.partsIn, Visitor.query, depsVisitor, Part.refs]

theorem outside_statement (inHead : Bool) (stmt : TcStatement)
    : outside (stmt.partsIn inHead) = if inHead then [] else depsVisitor.statement stmt := by
  cases stmt with
  | mk type lhs rhs =>
      have inLhs := outside_pat inHead lhs
      have inRhs := outside_pat inHead rhs
      cases inHead <;>
        simp_all [TcStatement.partsIn, Visitor.statement, depsVisitor, Part.refs]

theorem outside_statements (inHead : Bool) (stmts : List TcStatement)
    : outside (statementsParts inHead stmts)
      = if inHead then [] else depsVisitor.statements stmts := by
  cases stmts with
  | nil => cases inHead <;> rfl
  | cons stmt stmts =>
      have inFirst := outside_statement inHead stmt
      have inOthers := outside_statements inHead stmts
      cases inHead <;> simp_all [statementsParts, Visitor.statements]

theorem outside_pat (inHead : Bool) (pat : TcPat)
    : outside (pat.partsIn inHead) = if inHead then [] else depsVisitor.pat pat := by
  cases pat with
  | byte _ | nat _ | byteArray _ | string _ => cases inHead <;> rfl
  | array elements => exact outside_pats inHead elements
  | tuple fields => exact outside_pats inHead fields
  | alt selector inner =>
      rw [TcPat.partsIn, Visitor.pat]
      exact outside_pat inHead inner
  | ref inner => exact outside_match inHead inner

theorem outside_pats (inHead : Bool) (pats : List TcPat)
    : outside (patsParts inHead pats) = if inHead then [] else depsVisitor.pats pats := by
  cases pats with
  | nil => cases inHead <;> rfl
  | cons first others =>
      have inFirst := outside_pat inHead first
      have inOthers := outside_pats inHead others
      cases inHead <;> simp_all [patsParts, Visitor.pats]

theorem outside_optional (inHead : Bool) (pat : Option TcPat)
    : outside (optionalParts inHead pat) = if inHead then [] else depsVisitor.optional pat := by
  cases pat with
  | none => cases inHead <;> rfl
  | some inner => exact outside_pat inHead inner

theorem outside_alts (inHead : Bool) (alts : List (Option TcPat))
    : outside (altsParts inHead alts) = if inHead then [] else depsVisitor.alts alts := by
  cases alts with
  | nil => cases inHead <;> rfl
  | cons first others =>
      have inFirst := outside_optional inHead first
      have inOthers := outside_alts inHead others
      cases inHead <;> simp_all [altsParts, Visitor.alts]

theorem outside_match (inHead : Bool) (pat : Match)
    : outside (pat.partsIn inHead) = if inHead then [] else depsVisitor.refPat pat := by
  cases pat with
  | wild type | never type =>
      cases inHead <;> simp [Match.partsIn, Visitor.refPat, depsVisitor, Part.refs]
  | fid _ | bind _ | var _ => cases inHead <;> rfl
  | and left right =>
      have inLeft := outside_pat inHead left
      have inRight := outside_pat inHead right
      cases inHead <;> simp_all [Match.partsIn, Visitor.refPat]
  | strPrefix text rest =>
      rw [Match.partsIn, Visitor.refPat]
      exact outside_pat inHead rest
  | sum alts => exact outside_alts inHead alts
  | ext type inner =>
      have inInner := outside_term inHead inner
      cases inHead <;>
        simp_all [Match.partsIn, Visitor.refPat, depsVisitor, Part.refs]

theorem outside_term (inHead : Bool) (term : TcTerm)
    : outside (term.partsIn inHead) = if inHead then [] else depsVisitor.term term := by
  cases term with
  | or left right =>
      have inLeft := outside_pat inHead left
      have inRight := outside_pat inHead right
      cases inHead <;> simp_all [TcTerm.partsIn, Visitor.term]
  | factGen pred key value =>
      have inKey := outside_pat inHead key
      have inValue := outside_pat inHead value
      cases inHead <;>
        simp_all [TcTerm.partsIn, Visitor.term, depsVisitor, Part.refs]
  | elementsOfArray array =>
      rw [TcTerm.partsIn, Visitor.term]
      exact outside_pat inHead array
  | queryGen inner => exact outside_query inHead inner
  | negation stmts =>
      have inStmts := outside_statements inHead stmts
      cases inHead <;> simp_all [TcTerm.partsIn, Visitor.term, depsVisitor]
  | primCall op args => exact outside_pats inHead args

end

/-- The dependencies of a query are the predicates outside of heads. -/
theorem mem_tcQueryDeps_iff {query : TcQuery} {pred : PredicateRef}
    : pred ∈ tcQueryDeps query ↔ query.MentionsOutside pred := by
  rw [TcQuery.MentionsOutside, ← mem_outside_iff, TcQuery.parts, outside_query]
  rfl

/-- Which predicates a query misses among its dependencies. -/
theorem generates_iff {query : TcQuery} {pred : PredicateRef}
    : query.Generates pred
      ↔ query.GeneratesInHead pred ∨ ⟨false, .generator pred⟩ ∈ query.parts := by
  constructor
  · rintro ⟨inHead, member⟩
    cases inHead with
    | false => exact .inr member
    | true => exact .inl member
  · rintro (inHead | notInHead)
    · exact ⟨true, inHead⟩
    · exact ⟨false, notInHead⟩

/-- All generated predicates are among the dependencies when those in heads are also mentioned
elsewhere.
-/
theorem tcQueryDeps_complete_iff (query : TcQuery)
    : (∀ pred, query.Generates pred → pred ∈ tcQueryDeps query)
      ↔ ∀ pred, query.GeneratesInHead pred → query.MentionsOutside pred := by
  constructor
  · intro complete pred inHead
    exact mem_tcQueryDeps_iff.mp (complete pred (generates_iff.mpr (.inl inHead)))
  · intro covered pred generates
    rw [mem_tcQueryDeps_iff]
    rcases generates_iff.mp generates with inHead | notInHead
    · exact covered pred inHead
    · exact ⟨_, notInHead, List.mem_singleton.mpr rfl⟩

end Glean.Schema
