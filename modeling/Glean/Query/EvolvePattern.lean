import Glean.Query.EvolveFacts
import Glean.Query.Pattern

/-! Patterns of an evolved predicate for those of the predicate that a query names
(`Query/Evolve.hs`, `evolvePat`), and the values that match them.
-/

namespace Glean.Schema

open Glean.RTS ValueCodec

mutual

/-- The derived `==` of types, in which predicates are compared by their ids. -/
def sameType : RtsType → RtsType → Bool
  | .byte, .byte => true
  | .nat, .nat => true
  | .string, .string => true
  | .array left, .array right => sameType left right
  | .record left, .record right => sameFields left right
  | .sum left, .sum right => sameFields left right
  | .predicate left, .predicate right => left.pid = right.pid
  | .namedType leftRef left, .namedType rightRef right => leftRef = rightRef && sameType left right
  | .maybe left, .maybe right => sameType left right
  | .enumerated left, .enumerated right => left = right
  | .boolean, .boolean => true
  | _, _ => false

def sameFields : List FieldDef → List FieldDef → Bool
  | [], [] => true
  | .mk leftName left :: lefts, .mk rightName right :: rights =>
      leftName = rightName && sameType left right && sameFields lefts rights
  | _, _ => false

end

/-- The alternatives of two types, which `evolvePat` takes from sums and from what it lowers to
sums. Named types are not among these.
-/
def altFields : RtsType → RtsType → Option (List FieldDef × List FieldDef)
  | .boolean, .boolean => some (RtsType.boolFields, RtsType.boolFields)
  | .maybe old, .maybe new => some (RtsType.maybeFields old, RtsType.maybeFields new)
  | .enumerated old, .enumerated new => some (RtsType.enumFields old, RtsType.enumFields new)
  | .sum old, .sum new => some (old, new)
  | _, _ => none

/-- An old alternative, and where the first new one with its name is. -/
def evolveAlt (oldAlts newAlts : List FieldDef) (selector : Nat)
    : Option (FieldDef × Nat × FieldDef) := do
  let oldAlt ← oldAlts[selector]?
  let newSelector ← newAlts.findIdx? fun newAlt => newAlt.name = oldAlt.name
  let newAlt ← newAlts[newSelector]?
  return (oldAlt, newSelector, newAlt)

mutual

/-- `evolvePat` -/
def evolvePat (old new : RtsType) : Pat → Outcome Pat
  | .byte byte => .ok (.byte byte)
  | .nat number => .ok (.nat number)
  | .byteArray bytes => .ok (.byteArray bytes)
  | .string text => .ok (.string text)
  | .ref pat => do return .ref (← evolveMatch old new pat)
  | .alt selector term =>
      match altFields old new with
      | none => .error "unexpected"
      | some (oldAlts, newAlts) =>
          match evolveAlt oldAlts newAlts selector with
          | none => .error "unexpected"
          | some (oldAlt, newSelector, newAlt) => do
              return .alt newSelector (← evolvePat oldAlt.type newAlt.type term)
  | .array elements =>
      match old, new with
      | .array old, .array new => do return .array (← evolvePats old new elements)
      | _, _ => .error "unexpected"
  | .tuple terms =>
      match old, new with
      | .record oldFields, .record newFields => do
          return .tuple (← newFields.mapM fun newField =>
            (evolveField newField oldFields terms).getD (.ok (.ref (.wild newField.type))))
      | _, _ => .error "unexpected"

def evolveMatch (old new : RtsType) : PatMatch → Outcome PatMatch
  -- values of the old type that are given to a variable have become values of the new type
  | .bind var => .ok (.bind var)
  | .var var => .ok (.var var)
  | .wild _ => .ok (.wild new)
  | .never _ => .ok (.never new)
  | .fid id => .ok (if sameType old new then .fid id else .never new)
  | .and left right => do return .and (← evolvePat old new left) (← evolvePat old new right)
  | .sum alts => do return .sum (← evolveAlts old new alts)
  | .strPrefix text rest => do return .strPrefix text (← evolvePat old new rest)
  | .ext => .ok .ext

def evolvePats (old new : RtsType) : List Pat → Outcome (List Pat)
  | [] => .ok []
  | pat :: pats => do return (← evolvePat old new pat) :: (← evolvePats old new pats)

/-- The alternatives of a sum are evolved between the types of the sum. -/
def evolveAlts (old new : RtsType) : List (Option Pat) → Outcome (List (Option Pat))
  | [] => .ok []
  | none :: alts => do return none :: (← evolveAlts old new alts)
  | some pat :: alts => do return some (← evolvePat old new pat) :: (← evolveAlts old new alts)

/-- The term of an old field, the last one with the name, as in a map that is made from a list. -/
def evolveField (newField : FieldDef) : List FieldDef → List Pat → Option (Outcome Pat)
  | oldField :: oldFields, term :: terms =>
      match evolveField newField oldFields terms with
      | some later => some later
      | none =>
          if oldField.name = newField.name then
            some (evolvePat oldField.type newField.type term)
          else
            none
  | _, _ => none

end

section Matching

variable (holds : Var → Term → Prop)

mutual

/-- A value matches a pattern, when it is known which values a variable may stand for. -/
def Pat.Covers : Pat → Term → Prop
  | .byte byte, term => term = .byte byte
  | .nat number, term => term = .nat number
  | .array elements, term => ∃ terms, elementsOf term = some terms ∧ allCover elements terms
  | .byteArray bytes, term => elementsOf term = some (bytes.map .byte)
  | .tuple fields, term => ∃ contents, term = .tuple contents ∧ allCover fields contents
  | .alt selector pat, term => ∃ content, term = .alt selector content ∧ pat.Covers content
  | .string text, term => term = .string text
  | .ref pat, term => pat.Covers term

def PatMatch.Covers : PatMatch → Term → Prop
  | .wild _, _ => True
  | .never _, _ => False
  | .fid id, term => term = .ref id
  | .bind var, term => holds var term
  | .var var, term => holds var term
  | .and left right, term => left.Covers term ∧ right.Covers term
  | .strPrefix text rest, term =>
      ∃ more, term = .string (text ++ more) ∧ rest.Covers (.string more)
  | .sum alts, term => ∃ selector content, term = .alt selector content ∧ altCovers alts selector content
  | .ext, _ => False

def allCover : List Pat → List Term → Prop
  | [], [] => True
  | pat :: pats, term :: terms => pat.Covers term ∧ allCover pats terms
  | _, _ => False

def altCovers : List (Option Pat) → Nat → Term → Prop
  | some pat :: _, 0, content => pat.Covers content
  | _ :: alts, selector + 1, content => altCovers alts selector content
  | _, _, _ => False

end

end Matching

/-- A pattern has a type, as far as it is represented, when it is known which variables may stand
where.
-/
inductive PatTyped (allowed : Var → Rep → Prop) : Rep → Pat → Prop where
  | byte {byte : Byte} : PatTyped allowed .byte (.byte byte)
  | nat {number : Nat} (small : number < 2 ^ 64) : PatTyped allowed .nat (.nat number)
  | array {element : Rep} {elements : List Pat}
    (all : ∀ pat ∈ elements, PatTyped allowed element pat)
    : PatTyped allowed (.array element) (.array elements)
  | byteArray {bytes : Bytes} : PatTyped allowed (.array .byte) (.byteArray bytes)
  | tuple {fields : List Rep} {terms : List Pat} (length : terms.length = fields.length)
    (all
      : ∀ (index : Nat) (field : Rep) (term : Pat), fields[index]? = some field →
          terms[index]? = some term → PatTyped allowed field term)
    : PatTyped allowed (.tuple fields) (.tuple terms)
  | alt {fields : List Rep} {selector : Nat} {field : Rep} {term : Pat}
    (isField : fields[selector]? = some field) (inside : PatTyped allowed field term)
    : PatTyped allowed (.sum fields) (.alt selector term)
  | string {text : Bytes} : PatTyped allowed .string (.string text)
  | wild {rep : Rep} {type : RtsType} (isRep : type.repType = rep)
    : PatTyped allowed rep (.ref (.wild type))
  | never {rep : Rep} {type : RtsType} (isRep : type.repType = rep)
    : PatTyped allowed rep (.ref (.never type))
  | fid {pid : Pid} {id : Id} : PatTyped allowed (.predicate pid) (.ref (.fid id))
  | bind {rep : Rep} {var : Var} (isAllowed : allowed var rep)
    : PatTyped allowed rep (.ref (.bind var))
  | var {rep : Rep} {var : Var} (isAllowed : allowed var rep)
    : PatTyped allowed rep (.ref (.var var))
  | and {rep : Rep} {left right : Pat} (leftTyped : PatTyped allowed rep left)
    (rightTyped : PatTyped allowed rep right)
    : PatTyped allowed rep (.ref (.and left right))
  | strPrefix {text : Bytes} {rest : Pat} (restTyped : PatTyped allowed .string rest)
    : PatTyped allowed .string (.ref (.strPrefix text rest))
  | sum {fields : List Rep} {alts : List (Option Pat)} (length : alts.length = fields.length)
    (all
      : ∀ (index : Nat) (field : Rep) (term : Pat), fields[index]? = some field →
          alts[index]? = some (some term) → PatTyped allowed field term)
    : PatTyped allowed (.sum fields) (.ref (.sum alts))
  | ext {rep : Rep} : PatTyped allowed rep (.ref .ext)

end Glean.Schema
