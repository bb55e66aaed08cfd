import Glean.RTS.Define
import Glean.RTS.References
import Glean.RTS.UntrustedBatch
import Glean.RTS.UntrustedString

/-! Validating the facts of a database (`validate.h`, `validate.cpp`), and what a valid database is.
-/

namespace Glean.RTS

/-- `Validate` -/
structure Validate where
  typecheck : Bool
  keys : Bool
  limit : Nat

/-- The defaults of `Validate`. -/
def Validate.default : Validate := ⟨true, true, 2 ^ 64 - 1⟩

/-- `distance` of words, which wraps around where its assertion fails. -/
def distance (low high : Id) : Nat :=
  (high + 2 ^ 64 - low) % 2 ^ 64

namespace Validate

/-- The variables of the loop: the least id that is allowed, and the types of the facts by their
distance from the starting id.
-/
structure Table where
  allowedId : Id
  types : List Pid

/-- `checker`, where `types.at` throws an exception outside the table. -/
def checker (startingId : Id) (types : List Pid) (id type : Nat) (state : Id)
    : Outcome (Nat × Id) :=
  match types[distance startingId id]? with
  | some realType => if type ≠ realType then .error "fact type mismatch" else .ok (id, state)
  | none => .error "vector::_M_range_check"

section Model

variable (varint : Varint) (u8 : U8Next) (inventory : Inventory)

/-- The part of the loop that typechecks a clause: the typechecker has to give it back. -/
def checkType (startingId : Id) (types : List Pid) (fact : Fact) : Outcome Unit :=
  match inventory.lookupPredicate fact.type with
  | none => .error "invalid predicate"
  | some predicate => do
      let out ← predicate.typecheck varint u8 (checker startingId types) fact.clause
      if fact.clause.bytes ≠ out.output then
        .error "invalid fact"
      else if fact.clause.key.length ≠ out.keySize then
        .error "key size mismatch"
      else
        return ()

/-- The body of the loop. The assignment to the table is not checked. -/
def checkFact (val : Validate) (lookup : Lookup) (table : Table) (fact : Fact)
    : Outcome Table := do
  if fact.id < table.allowedId then
    .error "enumeration out of order"
  else if lookup.firstFreeId ≤ fact.id then
    .error "fact id out of bounds"
  else
    if val.typecheck then
      checkType varint u8 inventory lookup.startingId table.types fact
    if val.keys ∧ lookup.idByKey fact.type fact.key ≠ fact.id then
      .error "idByKey mismatch"
    else if distance lookup.startingId fact.id < table.types.length then
      return ⟨(fact.id + 1) % 2 ^ 64,
        table.types.set (distance lookup.startingId fact.id) fact.type⟩
    else
      .undefined

/-- The loop over the facts of an iterator. -/
def checkFacts (val : Validate) (lookup : Lookup) (iter : FactIterator)
    : Nat → iter.State → Nat → Table → Outcome Unit
  | 0, _, _, _ => .undefined
  | rounds + 1, state, count, table =>
      match iter.get .keyValue state with
      | none => .undefined
      | some (none, _) => .ok ()
      | some (some fact, after) =>
          if val.limit ≤ count then
            .ok ()
          else do
            let table ← checkFact varint u8 inventory val lookup table fact
            match iter.next after with
            | some moved => checkFacts val lookup iter rounds moved (count + 1) table
            | none => .undefined

/-- `validate`. The size of the iterator bounds the rounds of the loop. -/
def validate (val : Validate) (lookup : Lookup) : Outcome Unit :=
  let types := List.replicate (distance lookup.startingId lookup.firstFreeId) Pid.invalid
  let facts := lookup.enumerate Id.invalid Id.invalid
  checkFacts varint u8 inventory val lookup facts (facts.size facts.state + 1) facts.state 0
    ⟨lookup.startingId, types⟩

end Model

open UntrustedString (IsUtf8 ReadsRight)

mutual

/-- A value has a type: its strings are texts, and its references have a property. -/
inductive OfType (ref : Pid → Id → Prop) : Rep → Value → Prop where
  | byte {byte : Byte} : OfType ref .byte (.byte byte)
  | nat {number : Nat} (small : number < 2 ^ 64) : OfType ref .nat (.nat number)
  | string {text : Bytes} (isText : IsUtf8 text) : OfType ref .string (.string (mangleString text))
  | array {element : Rep} {elements : List Value} (small : elements.length < 2 ^ 64)
      (all : AllOfType ref (List.replicate elements.length element) elements)
      : OfType ref (.array element) (.array elements)
  | tuple {fields : List Rep} {values : List Value} (all : AllOfType ref fields values)
      : OfType ref (.tuple fields) (.tuple values)
  | alt {fields : List Rep} {selector : Nat} {field : Rep} {value : Value}
      (small : selector < 2 ^ 64) (isField : fields[selector]? = some field)
      (inside : OfType ref field value)
      : OfType ref (.sum fields) (.alt selector value)
  | ref {pid : Pid} {id : Id} (small : id < 2 ^ 64) (isRef : ref pid id)
      : OfType ref (.predicate pid) (.ref id)

inductive AllOfType (ref : Pid → Id → Prop) : List Rep → List Value → Prop where
  | nil : AllOfType ref [] []
  | cons {rep : Rep} {reps : List Rep} {value : Value} {values : List Value}
      (first : OfType ref rep value) (others : AllOfType ref reps values)
      : AllOfType ref (rep :: reps) (value :: values)

end

/-- The clause of a fact is the canonical encoding of a key and a value of its predicate. -/
def IsClause (varint : Varint) (inventory : Inventory) (ref : Pid → Id → Prop) (fact : Fact)
    : Prop :=
  ∃ predicate key value, inventory.lookupPredicate fact.type = some predicate
    ∧ OfType ref predicate.keyTy.repType key
    ∧ OfType ref predicate.valTy.repType value
    ∧ fact.clause = ⟨encodeValue varint key, encodeValue varint value⟩

/-- The facts that a lookup enumerates form a valid database. -/
structure Valid (varint : Varint) (inventory : Inventory) (lookup : Lookup) (facts : List Fact)
    : Prop where
  ascending : facts.Pairwise (fun fact later => fact.id < later.id)
  bounds : ∀ fact ∈ facts, lookup.startingId ≤ fact.id ∧ fact.id < lookup.firstFreeId
  clauses
    : ∀ fact ∈ facts, IsClause varint inventory (Earlier {other | other ∈ facts} fact.id) fact
  keys : ∀ fact ∈ facts, lookup.idByKey fact.type fact.key = fact.id

section Strings

variable (varint : Varint) (u8 : U8Next) (ref : Pid → Id → Prop)

mutual

/-- Reading a value from input, the typechecker comes to a string. It reads on behind a value whose
references it accepts.
-/
inductive StringAt : Rep → Bytes → Bytes → Prop where
  | string {input : Bytes} : StringAt .string input input
  | array {element : Rep} {input rest range : Bytes} {size : Nat}
      (decoded : varint.tryDecodeVarint input = some (size, rest))
      (inside : StringAtAny (List.replicate size element) rest range)
      : StringAt (.array element) input range
  | tuple {fields : List Rep} {input range : Bytes} (inside : StringAtAny fields input range)
      : StringAt (.tuple fields) input range
  | alt {fields : List Rep} {input rest range : Bytes} {selector : Nat} {field : Rep}
      (decoded : varint.tryDecodeVarint input = some (selector, rest))
      (isField : fields[selector]? = some field) (inside : StringAt field rest range)
      : StringAt (.sum fields) input range

inductive StringAtAny : List Rep → Bytes → Bytes → Prop where
  | first {rep : Rep} {reps : List Rep} {input range : Bytes} (inside : StringAt rep input range)
      : StringAtAny (rep :: reps) input range
  | later {rep : Rep} {reps : List Rep} {input rest range : Bytes} {value : Value}
      (reads : Reads varint u8 rep input value rest) (typed : HasType u8 ref rep value)
      (inside : StringAtAny reps rest range)
      : StringAtAny (rep :: reps) input range

end

/-- The strings that the typechecker comes to in a clause are read as they should be. -/
def ClauseReadsRight (predicate : Predicate) (clause : Clause) : Prop :=
  (∀ range, StringAt varint u8 ref predicate.keyTy.repType clause.key range →
      ReadsRight u8 range)
    ∧ ∀ key, Reads varint u8 predicate.keyTy.repType clause.key key [] →
        HasType u8 ref predicate.keyTy.repType key →
        ∀ range, StringAt varint u8 ref predicate.valTy.repType clause.value range →
          ReadsRight u8 range

end Strings

/-- The strings of the facts that the loop comes to, those before which all is valid, are read as
they should be.
-/
def FactsReadRight (varint : Varint) (u8 : U8Next) (inventory : Inventory) (lookup : Lookup)
    (facts : List Fact)
    : Prop :=
  ∀ before fact after predicate, facts = before ++ fact :: after →
    Valid varint inventory lookup before → (∀ earlier ∈ before, earlier.id < fact.id) →
    lookup.startingId ≤ fact.id → fact.id < lookup.firstFreeId →
    inventory.lookupPredicate fact.type = some predicate →
    ClauseReadsRight varint u8 (Earlier {other | other ∈ before} fact.id) predicate fact.clause

end Validate

end Glean.RTS
