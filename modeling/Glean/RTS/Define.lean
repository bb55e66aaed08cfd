import Glean.RTS.Encoding
import Glean.RTS.FactSet

/-! Defining the facts of untrusted batches (`define.cpp`, `substitution.h`, `stacked.h`,
`inventory.h`, `fact.cpp`).
-/

namespace Glean.RTS

/-- `Substitution`. Ids are words, so the end of the range may wrap around. -/
structure Substitution where
  base : Id
  items : List Id
  deriving DecidableEq

namespace Substitution

def new (first : Id) (size : Nat) : Substitution :=
  ⟨first, List.replicate size Id.invalid⟩

def finish (subst : Substitution) : Id :=
  (subst.base + subst.items.length) % 2 ^ 64

def subst (subst : Substitution) (id : Id) : Id :=
  if subst.base ≤ id ∧ id < subst.finish then
    (subst.items[id - subst.base]?).getD Id.invalid
  else
    id

def setAt (subst : Substitution) (index : Nat) (id : Id) : Substitution :=
  { subst with items := subst.items.set index id }

end Substitution

mutual

/-- The predicates that values of a type refer to satisfy a property. -/
def Rep.Refers (property : Pid → Prop) : Rep → Prop
  | .byte | .nat | .string => True
  | .array element => element.Refers property
  | .tuple fields | .sum fields => RefersAll property fields
  | .predicate pid => property pid

def RefersAll (property : Pid → Prop) : List Rep → Prop
  | [] => True
  | field :: fields => field.Refers property ∧ RefersAll property fields

end

/-- `Predicate`. The typechecker is given by the types of keys and values. -/
structure Predicate where
  name : String
  version : Int
  keyTy : Ty
  valTy : Ty

/-- `Inventory`: predicates by their distance from the first id. An entry with an invalid id counts
as absent.
-/
structure Inventory where
  firstId : Pid
  preds : List (Option Predicate)
  bounded : firstId + preds.length ≤ Pid.limit
  valid : ∀ {index predicate}, preds[index]? = some (some predicate) → firstId + index ≠ Pid.invalid
  refers
    : ∀ predicate, some predicate ∈ preds →
        predicate.keyTy.repType.Refers (· ≠ Pid.invalid)
          ∧ predicate.valTy.repType.Refers (· ≠ Pid.invalid)

namespace Inventory

def lookupPredicate (inventory : Inventory) (pid : Pid) : Option Predicate :=
  if inventory.firstId ≤ pid then
    (inventory.preds[pid - inventory.firstId]?).join
  else
    none

theorem mem_of_lookupPredicate {inventory : Inventory} {pid : Pid} {predicate : Predicate}
    (found : inventory.lookupPredicate pid = some predicate)
    : some predicate ∈ inventory.preds ∧ pid < Pid.limit ∧ pid ≠ Pid.invalid := by
  rw [lookupPredicate] at found
  split at found
  next large =>
    have listed := Option.join_eq_some_iff.mp found
    have inside := (List.getElem?_eq_some_iff.mp listed).1
    have bounded := inventory.bounded
    have valid := inventory.valid listed
    rw [Nat.add_sub_cancel' large] at valid
    exact ⟨List.mem_of_getElem? listed, by lia, valid⟩
  next => cases found

end Inventory

/-- `Define`: a fact set, or a `Stacked<Define>`. -/
inductive Define where
  | factSet (set : FactSet)
  | stacked (base : Lookup) (upper : Define)

namespace Define

def lookup : Define → Lookup
  | .factSet set => set.lookup
  | .stacked base upper => Stacked base upper.lookup

/-- `mid`: facts of the base count below the starting id of what is stacked. -/
def mid (upper : Define) : Id :=
  upper.lookup.startingId

/-- What `Stacked<Define>::define` finds in the base, without a look at the value if that is
empty.
-/
def baseId (base : Lookup) (mid : Id) (type : Pid) (clause : Clause) : Option Id :=
  let id := base.idByKey type clause.key
  if id ≠ Id.invalid ∧ id < mid then
    if clause.value ≠ [] then
      match base.factById id with
      | some (_, found) => some (if clause.value ≠ found.value then Id.invalid else id)
      | none => some id
    else
      some id
  else
    none

/-- `define`: the invalid id stands for a conflict. -/
def define (type : Pid) (bounded : type < Pid.limit) (clause : Clause) (maxRef : Id)
    : Define → Except String (Define × Id)
  | .factSet set =>
      match set.define type bounded clause with
      | .ok (set, id) => .ok (.factSet set, id)
      | .error message => .error message
  | .stacked base upper =>
      match if maxRef < upper.mid then baseId base upper.mid type clause else none with
      | some id => .ok (.stacked base upper, id)
      | none => do
          let (upper, id) ← upper.define type bounded clause maxRef
          return (.stacked base upper, id)

end Define

section Batch

variable (varint : Varint) (u8 : U8Next)

/-- `Fact::deserialize`. The sizes are 32 bit integers, and so is their sum, which is the number of
bytes that are checked to be there and skipped.
-/
def Fact.deserialize (input : Bytes) : Outcome (Pid × Clause × Bytes) := do
  let (type, input) ← Input.packed varint input
  let (keySize, input) ← Input.packed varint input
  let (valueSize, input) ← Input.packed varint input
  let keySize := keySize % 2 ^ 32
  let valueSize := valueSize % 2 ^ 32
  let rest ← Input.bytes input ((keySize + valueSize) % 2 ^ 32)
  if keySize + valueSize ≤ input.length then
    return (type, ⟨input.take keySize, (input.drop keySize).take valueSize⟩, rest)
  else
    .undefined

variable (inventory : Inventory)

/-- The names of facts, the latest first. -/
abbrev Names := List (Id × Id)

/-- `folly::get_default(idmap, id, id)` -/
def Names.get (names : Names) (id : Id) : Id :=
  (names.lookup id).getD id

/-- The renamer of `defineUntrustedBatch`; its state is `max_ref`. -/
def renamer (def_ : Define) (subst : Substitution) (idmap : Names) (id : Id) (type : Pid)
    (maxRef : Id) : Outcome (Id × Id) :=
  let realId := subst.subst (idmap.get id)
  let realType := def_.lookup.typeById realId
  if realType = type then
    .ok (realId, if maxRef < realId then realId else maxRef)
  else if realType = Pid.invalid then
    .error ("invalid fact " ++ toString id)
  else
    match inventory.lookupPredicate type, inventory.lookupPredicate realType with
    | some pred, some realPred =>
        .error ("invalid reference to fact " ++ toString id ++ ": expected " ++ pred.name ++ "."
          ++ toString pred.version ++ ", got " ++ realPred.name ++ "." ++ toString realPred.version)
    | _, _ => .error "Check failed: 'pred' Must be non NULL"

/-- `Predicate::typecheck`, with what the typechecker does. -/
def Predicate.typecheck (predicate : Predicate) (rename : Nat → Nat → Id → Outcome (Nat × Id))
    (clause : Clause) : Outcome (Bytecode.Result Id) :=
  checkClause varint u8 rename predicate.keyTy predicate.valTy clause Id.invalid

/-- The variables of the loop. -/
structure BatchState where
  def_ : Define
  subst : Substitution
  idmap : Names
  input : Bytes

/-- What a fact of the batch is before it is defined: its predicate and clause, the largest id it
refers to, and the input behind it.
-/
structure Renamed where
  type : Pid
  predicate : Predicate
  clause : Clause
  maxRef : Id
  rest : Bytes
  found : inventory.lookupPredicate type = some predicate

/-- Deserialise, typecheck and rename the next fact. -/
def renameFact (state : BatchState) : Outcome (Renamed inventory) := do
  let (type, clause, rest) ← Fact.deserialize varint state.input
  match found : inventory.lookupPredicate type with
  | some predicate => do
      let out ← predicate.typecheck varint u8
        (renamer inventory state.def_ state.subst state.idmap) clause
      return ⟨type, predicate, .from out.output out.keySize, out.renamer, rest, found⟩
  | none => .error ("invalid predicate id " ++ toString type)

/-- The body of the loop: define the fact at an index. An exception leaves the facts that have been
defined.
-/
def defineFact (first : Id) (ids : Nat → Id) (index : Nat) (state : BatchState)
    : Define × Outcome BatchState :=
  match renameFact varint u8 inventory state with
  | .error message => (state.def_, .error message)
  | .undefined => (state.def_, .undefined)
  | .ok fact =>
      match state.def_.define fact.type (Inventory.mem_of_lookupPredicate fact.found).2.1 fact.clause
          fact.maxRef with
      | .error message => (state.def_, .error message)
      | .ok (def_, id) =>
          if id = Id.invalid then
            (def_, .error ("invalid fact redefinition (" ++ fact.predicate.name ++ ")"))
          else
            (def_, .ok
              { def_
                subst := state.subst.setAt index id
                idmap := if ids index ≠ Id.invalid then
                    (ids index, (first + index) % 2 ^ 64) :: state.idmap
                  else
                    state.idmap
                input := fact.rest })

/-- The loop, from an index on. -/
def defineFacts (first : Id) (ids : Nat → Id) : Nat → Nat → BatchState → Define × Outcome BatchState
  | 0, _, state => (state.def_, .ok state)
  | count + 1, index, state =>
      match defineFact varint u8 inventory first ids index state with
      | (_, .ok next) => defineFacts first ids count (index + 1) next
      | (def_, .error message) => (def_, .error message)
      | (def_, .undefined) => (def_, .undefined)

/-- `defineUntrustedBatch`. `ids` is `Id.invalid` for facts without a name. -/
def defineUntrustedBatch (def_ : Define) (first : Id) (ids : Nat → Id) (count : Nat)
    (batch : Bytes) : Define × Outcome Substitution :=
  if first < Id.lowest then
    (def_, .error ("invalid base id " ++ toString first ++ " in batch"))
  else
    match defineFacts varint u8 inventory first ids count 0 ⟨def_, .new first count, [], batch⟩ with
    | (def_, .ok state) => (def_, .ok state.subst)
    | (def_, .error message) => (def_, .error message)
    | (def_, .undefined) => (def_, .undefined)

end Batch

end Glean.RTS
