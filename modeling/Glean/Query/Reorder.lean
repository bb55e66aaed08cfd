import Mathlib.Data.Finset.Sort
import Glean.Library.Postorder
import Glean.Query.Flat

/-! The order of the statements in a group (`Query/Reorder.hs`, `reorderStmtGroup`). -/

namespace Glean.Schema.Reorder

/-- `PatternMatch` -/
inductive PatternMatch where
  | searchesAll
  | matchesOne
  | matchesSome
  deriving DecidableEq

/-- `wild`: the end of what is known about a pattern. -/
def wild (pref : Bool) : Option PatternMatch :=
  if pref then some .matchesSome else some .searchesAll

/-- `end` -/
def atEnd (pref : Bool) : Option PatternMatch :=
  if pref then some .matchesOne else none

section Classify

variable (scope : VarSet)

mutual

/-- `go` of `classifyPattern`; the last argument is the rest of the pattern. -/
def classifyPat : Pat → Bool → (Bool → Option PatternMatch) → Option PatternMatch
  | .byte _, _, r | .nat _, _, r | .byteArray _, _, r | .string _, _, r => r true
  | .array elements, pref, r => termSeq elements pref r
  | .tuple fields, pref, r => termSeq fields pref r
  | .alt _ term, _, r => classifyPat term true r
  | .ref pat, pref, r => classifyMatch pat pref r

def termSeq : List Pat → Bool → (Bool → Option PatternMatch) → Option PatternMatch
  | [], pref, r => r pref
  | pat :: pats, pref, r => classifyPat pat pref (fun pref => termSeq pats pref r)

def classifyMatch : PatMatch → Bool → (Bool → Option PatternMatch) → Option PatternMatch
  | .wild _, pref, _ => wild pref
  | .never _, _, _ | .sum _, _, _ | .ext, _, _ => some .matchesSome
  | .fid _, _, r => r true
  | .bind var, pref, r | .var var, pref, r => if var.id ∈ scope then r true else wild pref
  | .and left right, pref, r =>
      match classifyPat left pref atEnd, classifyPat right pref atEnd with
      | none, _ => r false
      | _, none => r false
      | some .matchesOne, _ => r true
      | _, some .matchesOne => r true
      | some .matchesSome, _ => some .matchesSome
      | _, some .matchesSome => some .matchesSome
      | some .searchesAll, some .searchesAll => some .searchesAll
  | .strPrefix text rest, pref, r => classifyPat rest (text ≠ [] || pref) r

end

/-- `classifyPattern` -/
def classifyPattern (pat : Pat) : PatternMatch :=
  (classifyPat scope pat false atEnd).getD .matchesOne

end Classify

section PrefixVars

variable (lookups scope : VarSet)

mutual

def prefixVarsTerm : Pat → VarSet → VarSet
  | .byte _, r | .nat _, r | .byteArray _, r | .string _, r => r
  | .array elements, r => prefixVarsTerms elements r
  | .tuple fields, r => prefixVarsTerms fields r
  | .alt _ term, r => prefixVarsTerm term r
  | .ref pat, r => prefixVarsMatch pat r

def prefixVarsTerms : List Pat → VarSet → VarSet
  | [], r => r
  | pat :: pats, r => prefixVarsTerm pat (prefixVarsTerms pats r)

def prefixVarsMatch : PatMatch → VarSet → VarSet
  | .wild _, _ | .never _, _ | .ext, _ => ∅
  | .fid _, r => r
  | .bind var, r | .var var, r =>
      if var.id ∈ scope then r else if var.id ∈ lookups then insert var.id r else ∅
  | .and left right, r => prefixVarsTerm left r ∪ prefixVarsTerm right r
  | .strPrefix _ rest, r => prefixVarsTerm rest r
  | .sum alts, r => prefixVarsAlts alts r

def prefixVarsAlts : List (Option Pat) → VarSet → VarSet
  | [], _ => ∅
  | none :: alts, r => prefixVarsAlts alts r
  | some pat :: alts, r => prefixVarsTerm pat r ∪ prefixVarsAlts alts r

end

mutual

/-- `prefixVars` -/
def prefixVars : FlatStatement → VarSet
  | .flatStatement _ _ (.factGenerator _ key _) => prefixVarsTerm lookups scope key ∅
  | .flatStatement _ _ _ => ∅
  | .flatNegation groups => prefixVarsGroups groups
  | .flatDisjunction alts => prefixVarsDisjunction alts

def prefixVarsGroup : List FlatStatement → VarSet
  | [] => ∅
  | stmt :: stmts => prefixVars stmt ∪ prefixVarsGroup stmts

/-- `prefixVarsStmts` -/
def prefixVarsGroups : List (List FlatStatement) → VarSet
  | [] => ∅
  | group :: groups => prefixVarsGroup group ∪ prefixVarsGroups groups

def prefixVarsDisjunction : List (List (List FlatStatement)) → VarSet
  | [] => ∅
  | alt :: alts => prefixVarsGroups alt ∪ prefixVarsDisjunction alts

end

end PrefixVars

section Ready

variable (visible scope : VarSet) (notFilter : Bool)

mutual

/-- `isReadyFilter` -/
def isReadyFilter : FlatStatement → Bool
  | .flatStatement _ lhs (.termGenerator rhs) => lhs.vars ⊆ scope || rhs.vars ⊆ scope
  | .flatStatement _ _ (.arrayElementGenerator _ array) => array.vars ⊆ scope
  | .flatStatement _ _ (.primCall _ args) => varsOfPats args ∅ ⊆ scope
  | .flatNegation groups => groupsReady groups && varsOfGroups groups ∅ ∩ visible ⊆ scope
  | _ => notFilter

def groupReady : List FlatStatement → Bool
  | [] => true
  | stmt :: stmts => isReadyFilter stmt && groupReady stmts

def groupsReady : List (List FlatStatement) → Bool
  | [] => true
  | group :: groups => groupReady group && groupsReady groups

end

end Ready

/-- `isUnresolved` -/
def isUnresolved (visible scope : VarSet) (stmt : FlatStatement) : Bool :=
  !isReadyFilter visible scope true stmt

/-- A lookup `X = pred pat` -/
structure Candidate where
  lookup : Nat
  x : Nat
  xs : VarSet
  matchType : PatternMatch
  lookupStmt : FlatStatement

/-- A statement with its variables and those in a prefix position. -/
structure Use where
  use : Nat
  xs : VarSet
  ys : VarSet
  useStmt : FlatStatement

/-- The variable and the pattern of `isCandidate` -/
def isCandidate : FlatStatement → Option (Nat × Pat)
  | .flatStatement _ (.ref pat) (.factGenerator _ key _) =>
      (matchVar pat).map fun var => (var.id, key)
  | _ => none

def unions (sets : List VarSet) : VarSet := sets.foldr (· ∪ ·) ∅

section Group

variable (visible scope : VarSet) (group : FlatStatementGroup)

def nodes : List (Nat × FlatStatement) := (List.range group.length).zip group

/-- `vars stmt` without the variables in scope, as in `withVars` -/
def ownVars (stmt : FlatStatement) : VarSet := stmt.vars \ scope

def isDisjunction : FlatStatement → Bool
  | .flatDisjunction _ => true
  | _ => false

def lhsVars : VarSet :=
  unions
    ((group.filterMap isCandidate).map (fun lookup => {lookup.1})
      ++ (group.filter isDisjunction).map (ownVars scope))

def lhsScope : VarSet := scope ∪ lhsVars scope group

def candidates : List Candidate :=
  (nodes group).filterMap fun node =>
    (isCandidate node.2).map fun lookup =>
      { lookup := node.1
        x := lookup.1
        xs := ownVars scope node.2
        matchType := classifyPattern (lhsScope scope group) lookup.2
        lookupStmt := node.2 }

def uses : List Use :=
  (nodes group).map fun node =>
    { use := node.1
      xs := ownVars scope node.2
      ys := prefixVars (lhsVars scope group) scope node.2
      useStmt := node.2 }

def slowSearches : List Nat :=
  ((candidates scope group).filter fun candidate =>
    candidate.matchType = .searchesAll).map Candidate.x

def nonPrefixVars : VarSet :=
  unions
    ((uses scope group).map fun use =>
      use.useStmt.boundVars.filter fun x =>
        some x ≠ (isCandidate use.useStmt).map Prod.fst ∧ x ∉ use.ys)

def initialLookupVars : VarSet :=
  unions [scope, (slowSearches scope group).toFinset, nonPrefixVars scope group]

/-- The variables of the lookups for a variable -/
def rhsVars (x : Nat) : List Nat :=
  ((candidates scope group).filter fun candidate => candidate.x = x).reverse.flatMap
    fun candidate => candidate.xs.sort

/-- `go` of `lookupVars` -/
def lookupVarsFrom : Nat → List Nat → VarSet → Option VarSet
  | 0, _, _ => none
  | _ + 1, [], vars => some vars
  | fuel + 1, x :: xs, vars =>
      if x ∈ vars then
        lookupVarsFrom fuel xs vars
      else
        lookupVarsFrom fuel (rhsVars scope group x ++ xs) (insert x vars)

def lookupVars (fuel : Nat) : Option VarSet :=
  lookupVarsFrom scope group fuel (initialLookupVars scope group).sort ∅

/-- The statements that mention a variable, the last one first, as `fromListWith` puts them -/
def usesOf (x : Nat) : List Use := ((uses scope group).filter fun use => x ∈ use.xs).reverse

/-- Which of a lookup and a statement that mentions its variable follows the other -/
def edge (lookupVars : VarSet) (candidate : Candidate) (use : Use) : Nat × Nat × FlatStatement :=
  if candidate.matchType = .matchesOne then
    (use.use, candidate.lookup, candidate.lookupStmt)
  else if isUnresolved visible scope use.useStmt then
    (use.use, candidate.lookup, candidate.lookupStmt)
  else if candidate.x ∈ lookupVars then
    (candidate.lookup, use.use, use.useStmt)
  else
    (use.use, candidate.lookup, candidate.lookupStmt)

def edgeList (lookupVars : VarSet) : List (Nat × Nat × FlatStatement) :=
  (candidates scope group).flatMap fun candidate =>
    ((usesOf scope group candidate.x).filter fun use => use.use ≠ candidate.lookup).map
      (edge visible scope lookupVars candidate)

/-- The statements that a statement has to follow -/
def edges (lookupVars : VarSet) (n : Nat) : List (Nat × FlatStatement) :=
  (((edgeList visible scope group lookupVars).filter fun entry => entry.1 = n).map
    Prod.snd).reverse

end Group

/-- `go` of `postorderDfs` -/
def visit (edges : Nat → List (Nat × FlatStatement))
    : Nat → VarSet → List (Nat × FlatStatement) →
      (VarSet → Option (List (Nat × FlatStatement))) → Option (List (Nat × FlatStatement))
  | 0, _, _, _ => none
  | _ + 1, seen, [], cont => cont seen
  | fuel + 1, seen, node :: nodes, cont =>
      if node.1 ∈ seen then
        visit edges fuel seen nodes cont
      else
        visit edges fuel (insert node.1 seen) (edges node.1) fun seen =>
          (visit edges fuel seen nodes cont).map (node :: ·)

def postorderDfs (fuel : Nat) (nodes : List (Nat × FlatStatement))
    (edges : Nat → List (Nat × FlatStatement)) : Option (List (Nat × FlatStatement)) :=
  visit edges fuel ∅ nodes fun _ => some []

/-- `reorderStmtGroup` -/
def reorderStmtGroup (fuel : Nat) (visible scope : VarSet) (group : FlatStatementGroup)
    : Option (List FlatStatement) := do
  let lookupVars ← lookupVars scope group fuel
  let order ← postorderDfs fuel (nodes group) (edges visible scope group lookupVars)
  return order.map Prod.snd

end Glean.Schema.Reorder
