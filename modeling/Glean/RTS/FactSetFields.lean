import Glean.RTS.FactSet
import Glean.RTS.Input

/-! The fields of fact sets and what the operations do to them, the counter of fact memory
included (`factset.h`, `factset.cpp`, `densemap.h`, `fact.h`).
-/

namespace Glean.RTS

/-- `sizeof(Fact)`: the hook, the id, the type, the key size with the tag, and the value size. -/
def Fact.headerSize : Nat := 40

/-- `Fact::size` -/
def Fact.size (fact : Fact) : Nat :=
  headerSize + fact.key.length + fact.value.length

/-- The fields of a `FactSet`, without its invariant. -/
structure FactSetFields where
  startingId : Id
  facts : List Fact
  keys : SortedMap Pid (List Fact)
  factMemory : Nat
  index : SortedMap Pid (SortedMap Bytes Fact)

namespace FactSetFields

variable (fields : FactSetFields)

def new (start : Id) : FactSetFields :=
  ⟨start, [], .empty, 0, .empty⟩

/-- The first id behind those of the facts. Ids are words. -/
def firstFreeId : Id :=
  (fields.startingId + fields.facts.length) % 2 ^ 64

/-- The facts of a predicate. -/
def bucket (type : Pid) : List Fact :=
  (fields.keys.get? type).getD []

def idByKey (type : Pid) (key : Bytes) : Id :=
  match (fields.bucket type).find? (fun fact => fact.key = key) with
  | some fact => fact.id
  | none => Id.invalid

/-- The fact with an id, by its position. -/
def fact? (id : Id) : Option Fact :=
  if fields.startingId ≤ id then fields.facts[id - fields.startingId]? else none

def typeById (id : Id) : Pid :=
  match fields.fact? id with
  | some fact => fact.type
  | none => Pid.invalid

def factById (id : Id) : Option (Pid × Clause) :=
  (fields.fact? id).map (fun fact => (fact.type, fact.clause))

def count (type : Pid) : Interval :=
  .exactly (fields.bucket type).length

/-- The index map of a predicate, filled anew if it does not have as many entries as there are
facts.
-/
def indexMap (type : Pid) : SortedMap Bytes Fact :=
  let map := (fields.index.get? type).getD .empty
  if map.entries.length = (fields.bucket type).length then
    map
  else
    FactSet.indexOf (fields.bucket type)

/-- `FactSet::seek`, which keeps the index map it has used. -/
def seek (type : Pid) (start : Bytes) (prefixSize : Nat) : FactSetFields × FactIterator :=
  match fields.keys.get? type with
  | none => (fields, EmptyIterator)
  | some _ =>
      ({ fields with index := fields.index.put type (fields.indexMap type) },
        rangeIterator ((seekEntries (fields.indexMap type) start prefixSize).map
          (fun entry => Cell.ofFact entry.2)))

/-- `FactSet::define`. The sum of the sizes of a clause is a 32 bit integer, and so the copy of a
longer one would be short; a predicate id needs a successor in a `DenseMap`.
-/
def define (type : Pid) (clause : Clause) : Outcome (FactSetFields × Id) :=
  if FactSet.maxKeySize < clause.key.length then
    .error ("key too large: " ++ toString clause.key.length)
  else if clause.key.length + clause.value.length < 2 ^ 32 ∧ type < Pid.limit then
    match (fields.bucket type).find? (fun fact => fact.key = clause.key) with
    | none =>
        let fact := ⟨fields.firstFreeId, type, clause⟩
        .ok
          ({ fields with
              facts := fields.facts ++ [fact]
              keys := fields.keys.put type (fields.bucket type ++ [fact])
              factMemory := fields.factMemory + fact.size },
            fields.firstFreeId)
    | some fact =>
        .ok (fields, if clause.value = fact.value then fact.id else Id.invalid)
  else
    .undefined

/-- `left.insert(right.begin(), right.end())` on hash sets of facts by key. -/
def insertAll (left right : List Fact) : List Fact :=
  right.foldl
    (fun set fact => if set.any (fun other => other.key = fact.key) then set else set ++ [fact])
    left

/-- `DenseMap::merge` of the hash sets. -/
def mergeKeys (left right : SortedMap Pid (List Fact)) : SortedMap Pid (List Fact) :=
  left.putAll
    (right.entries.map (fun entry =>
      (entry.1,
        match left.get? entry.1 with
        | some facts => insertAll facts entry.2
        | none => entry.2)))

/-- `FactSet::append` keeps the starting id and the index of the target. -/
def append (other : FactSetFields) : FactSetFields :=
  { fields with
      facts := fields.facts ++ other.facts
      keys := mergeKeys fields.keys other.keys
      factMemory := fields.factMemory + other.factMemory }

/-- `FactSet::appendable` -/
def appendable (other : FactSetFields) : Bool :=
  if fields.facts.isEmpty || other.facts.isEmpty then
    true
  else if fields.firstFreeId ≠ other.startingId then
    false
  else
    other.keys.entries.all (fun entry =>
      match fields.keys.get? entry.1 with
      | some facts =>
          entry.2.all (fun fact => !facts.any (fun other => other.key = fact.key))
      | none => true)

end FactSetFields

/-- The fields of a fact set that keeps the invariant. -/
def FactSet.fields (set : FactSet) : FactSetFields where
  startingId := set.startingId
  facts := set.facts
  keys := set.keys
  factMemory := (set.facts.map Fact.size).sum
  index := set.index

namespace FactSetFields

/-- The fact with a predicate and a key, going through all facts. -/
def byKey (facts : List Fact) (type : Pid) (key : Bytes) : Option Fact :=
  facts.find? (fun fact => fact.type = type ∧ fact.key = key)

/-- The fact with an id, going through all facts. -/
def byId (facts : List Fact) (id : Id) : Option Fact :=
  facts.find? (fun fact => fact.id = id)

/-- All views describe the list of facts, whose ids are consecutive and whose keys are distinct. -/
structure Describes (fields : FactSetFields) : Prop where
  ids : ∀ index (inside : index < fields.facts.length),
    fields.facts[index].id = fields.startingId + index
  distinct : fields.facts.Pairwise
    (fun left right => ¬ (left.type = right.type ∧ left.key = right.key))
  idByKey : ∀ type key,
    fields.idByKey type key = ((byKey fields.facts type key).map Fact.id).getD Id.invalid
  typeById : ∀ id, fields.typeById id = ((byId fields.facts id).map Fact.type).getD Pid.invalid
  factById : ∀ id,
    fields.factById id = (byId fields.facts id).map (fun fact => (fact.type, fact.clause))
  count : ∀ type, fields.count type = .exactly (fields.facts.countP (·.type = type))
  seek : ∀ protocol type start prefixSize, prefixSize ≤ start.length →
    ∃ answer, (fields.seek type start prefixSize).2.Yields protocol answer
      ∧ IsSeek {fact | fact ∈ fields.facts} type start prefixSize answer
  factMemory : fields.factMemory = (fields.facts.map Fact.size).sum

/-- What `define` does with a clause whose key is not too large: it gives the id of an existing
fact, or the invalid id if its value is another one, and else adds a fact with a new id.
-/
def DefineHolds (fields : FactSetFields) (type : Pid) (clause : Clause) : Prop :=
  match byKey fields.facts type clause.key with
  | some fact =>
      fields.define type clause
        = .ok (fields, if clause.value = fact.value then fact.id else Id.invalid)
  | none =>
      ∃ next id, fields.define type clause = .ok (next, id)
        ∧ next.facts = fields.facts ++ [⟨id, type, clause⟩]
        ∧ next.startingId = fields.startingId
        ∧ id = fields.startingId + fields.facts.length
        ∧ id ≠ Id.invalid
        ∧ ∀ fact ∈ fields.facts, fact.id < id

end FactSetFields

end Glean.RTS
