import Mathlib.Data.Prod.Lex
import Glean.Ownership.Computed
import Glean.RTS.FactSet

/-! The rocksdb database (`rocksdb.cpp`): its column families, the members of `DatabaseImpl`
that mirror them, and opening a database. A column family is a sorted map over decoded keys.
The keys of the `keys` column stay byte strings, since prefix seeks compare their bytes.
-/

namespace Glean.Rocks

open Glean.RTS

/-- `MemoryStats`: the number of facts of a predicate and the bytes they take. -/
structure MemoryStats where
  count : Nat
  memory : Nat
  deriving DecidableEq

namespace MemoryStats

def zero : MemoryStats := ⟨0, 0⟩

def one (memory : Nat) : MemoryStats := ⟨1, memory⟩

def add (left right : MemoryStats) : MemoryStats :=
  ⟨left.count + right.count, left.memory + right.memory⟩

end MemoryStats

/-- The value of the `entities` column: predicate, key size and the bytes of the clause. -/
structure Entity where
  type : Pid
  keySize : Nat
  data : Bytes
  deriving DecidableEq

namespace Entity

def ofFact (fact : Fact) : Entity :=
  ⟨fact.type, fact.key.length, fact.clause.bytes⟩

/-- `decomposeFact`. -/
def decompose (id : Id) (entity : Entity) : Fact :=
  ⟨id, entity.type, Clause.from entity.data entity.keySize⟩

@[simp]
theorem decompose_ofFact (fact : Fact) : decompose fact.id (ofFact fact) = fact := by
  obtain ⟨id, type, clause⟩ := fact
  simp [decompose, ofFact, Fact.key]

end Entity

/-- The bytes of a number, the lowest first. -/
def littleEndian : Nat → Nat → Bytes
  | 0, _ => []
  | bytes + 1, n => Fin.ofNat 256 n :: littleEndian bytes (n / 256)

/-- `Output::fixed` of a 64-bit word. -/
def fixedWord (word : Nat) : Bytes :=
  littleEndian 8 word

/-- The key of a fact in the `keys` column. -/
def keyBytes (type : Pid) (key : Bytes) : Bytes :=
  fixedWord type ++ key

/-- The number of bytes of `Output::nat`. -/
def natSize (n : Nat) : Nat :=
  if n < 0x80 then 1
  else if n < 0x4080 then 2
  else if n < 0x204080 then 3
  else if n < 0x10204080 then 4
  else if n < 0x0810204080 then 5
  else if n < 0x040810204080 then 6
  else if n < 0x02040810204080 then 7
  else if n < 0x0102040810204080 then 8
  else 9

/-- The number of bytes of `Output::packed`, seven bits each. -/
def packedSize (n : Nat) : Nat :=
  1 + Nat.log2 n / 7

/-- The `admin` column. -/
structure Admin where
  nextId : Option Id
  version : Option Int
  startingId : Option Id

/-- The column families. Keys of two numbers are ordered by the first number, then the
second, as their encodings are.
-/
structure Columns where
  admin : Admin
  entities : SortedMap Id Entity
  keys : SortedMap Bytes Id
  stats : SortedMap Pid MemoryStats
  ownershipUnits : SortedMap Bytes UnitId
  ownershipRaw : SortedMap (UnitId ×ₗ Nat) (List (Id × Id))
  ownershipDerivedRaw : SortedMap (Pid ×ₗ Nat) (List (Id × UsetId))
  ownershipSets : SortedMap UsetId SetExpr
  factOwners : SortedMap Id UsetId

def Columns.empty : Columns where
  admin := ⟨none, none, none⟩
  entities := .empty
  keys := .empty
  stats := .empty
  ownershipUnits := .empty
  ownershipRaw := .empty
  ownershipDerivedRaw := .empty
  ownershipSets := .empty
  factOwners := .empty

/-- `DatabaseImpl`: the container and the members kept in memory. -/
structure Database where
  columns : Columns
  version : Int
  startingId : Id
  nextId : Id
  stats : SortedMap Pid MemoryStats
  ownershipUnitCounters : List Nat
  ownershipDerivedCounters : SortedMap Pid Nat
  usets : Usets

inductive Mode where
  | readOnly
  | readWrite
  | create
  deriving DecidableEq

/-- `loadOwnershipUnitCounters`, one stored key at a time. A first key of a unit pushes 0. -/
def countUnitKey (counters : List Nat) (unit : UnitId) : Except String (List Nat) :=
  if unit = counters.length then
    .ok (counters ++ [0])
  else if unit + 1 = counters.length then
    .ok (counters.modify unit (· + 1))
  else
    .error "rocksdb: invalid ownershipUnits"

def loadOwnershipUnitCounters (columns : Columns) : Except String (List Nat) :=
  columns.ownershipRaw.entries.foldlM
    (fun counters entry => countUnitKey counters (ofLex entry.1).1) []

/-- `loadOwnershipDerivedCounters`: the number of stored keys of each predicate. -/
def loadOwnershipDerivedCounters (columns : Columns) : SortedMap Pid Nat :=
  columns.ownershipDerivedRaw.entries.foldl
    (fun counters entry =>
      counters.put (ofLex entry.1).1 ((counters.get? (ofLex entry.1).1).getD 0 + 1))
    .empty

/-- `SetIterator::sizes`: the first stored set id, and the number of ids up to the last. -/
def setSizes (columns : Columns) : Nat × Nat :=
  match columns.ownershipSets.entries.head?, columns.ownershipSets.entries.getLast? with
  | some first, some last => (first.1, last.1 - first.1 + 1)
  | _, _ => (0, 0)

/-- The loop of `loadOwnershipSets`. `add` of a plain set makes an `Or` expression. -/
def loadSet (usets : Usets) (entry : UsetId × SetExpr) : Usets :=
  let (added, addr) := usets.add ⟨.or, entry.2.set⟩ 0
  added.modify addr (fun uset => { uset with id := entry.1 })

def loadOwnershipSets (columns : Columns) : Usets :=
  let (first, size) := setSizes columns
  columns.ownershipSets.entries.foldl loadSet (Usets.new ((first + size) % 2 ^ 32))

/-- The constructor of `DatabaseImpl`. Missing admin values are written in `Create` mode. -/
def Database.openDatabase (columns : Columns) (mode : Mode) (start : Id) (version : Int)
    : Except String Database :=
  let startingId := columns.admin.startingId.getD start
  let nextId := columns.admin.nextId.getD start
  let dbVersion := columns.admin.version.getD version
  if columns.admin.nextId = none ∧ mode ≠ .create then
    .error "corrupt database - missing NEXT_ID"
  else if dbVersion ≠ version then
    .error ("unexpected database version " ++ toString dbVersion)
  else
    match loadOwnershipUnitCounters columns with
    | .error text => .error text
    | .ok counters =>
        .ok {
          columns := {
            columns with
              admin :=
                if mode = .create then
                  ⟨some nextId, some dbVersion, some startingId⟩
                else
                  columns.admin }
          version := dbVersion
          startingId := startingId
          nextId := nextId
          stats := columns.stats
          ownershipUnitCounters := counters
          ownershipDerivedCounters := loadOwnershipDerivedCounters columns
          usets := loadOwnershipSets columns }

namespace Database

variable (db : Database)

def count (type : Pid) : Interval :=
  .exactly ((db.stats.get? type).getD .zero).count

def idByKey (type : Pid) (key : Bytes) : Id :=
  if (db.count type).high = 0 then
    Id.invalid
  else
    (db.columns.keys.get? (keyBytes type key)).getD Id.invalid

def lookupById (id : Id) : Option Entity :=
  if id < db.startingId ∨ db.nextId ≤ id then none else db.columns.entities.get? id

def typeById (id : Id) : Pid :=
  match db.lookupById id with
  | some entity => entity.type
  | none => Pid.invalid

def factById (id : Id) : Option (Pid × Clause) :=
  (db.lookupById id).map (fun entity =>
    let fact := entity.decompose id
    (fact.type, fact.clause))

/-- What a position of the `keys` column shows; a value is looked up by id. -/
def keyCell (type : Pid) (entry : Bytes × Id) : Cell where
  keyOnly := ⟨entry.2, type, Clause.fromKey (entry.1.drop 8)⟩
  keyValue := (db.lookupById entry.2).map (Entity.decompose entry.2)

/-- The positions of `SeekIterator`: from `start` up to the bound of the prefix. With an empty
bound no key is inside.
-/
def seekCells (type : Pid) (start : Bytes) (prefixSize : Nat) : List Cell :=
  let bound := lexicographicallyNext (start.take prefixSize)
  ((db.columns.keys.entries.dropWhile (fun entry => entry.1 < start)).takeWhile
    (fun entry => entry.1 < bound)).map (db.keyCell type)

def seek (type : Pid) (start : Bytes) (prefixSize : Nat) : FactIterator :=
  if (db.count type).high = 0 then
    EmptyIterator
  else
    rangeIterator (db.seekCells type (keyBytes type start) (8 + prefixSize))

/-- `Forward::bounds`. -/
def forwardBounds (first upto startingId nextId : Id) : Id × Id :=
  if nextId ≤ first ∨ (upto ≠ Id.invalid ∧ upto ≤ startingId) then
    (Id.invalid, Id.invalid)
  else
    (max first startingId, if upto ≠ Id.invalid ∧ upto ≤ nextId then upto else nextId)

/-- `Backward::bounds`. -/
def backwardBounds (first downto startingId nextId : Id) : Id × Id :=
  if nextId ≤ downto ∨ (first ≠ Id.invalid ∧ first ≤ startingId) then
    (Id.invalid, Id.invalid)
  else
    ((if first ≠ Id.invalid ∧ first ≤ nextId then first else nextId) - 1, max downto startingId)

/-- A position of the `entities` column. -/
def entityCell (entry : Id × Entity) : Cell :=
  .ofFact (entry.2.decompose entry.1)

/-- The positions of `EnumerateIterator`, from `start` up to and not including `bound`. -/
def forwardCells (start bound : Id) : List Cell :=
  ((db.columns.entities.entries.dropWhile (fun entry => entry.1 < start)).takeWhile
    (fun entry => entry.1 < bound)).map entityCell

/-- The positions from the last one not after `start` back to `bound`. -/
def backwardCells (start bound : Id) : List Cell :=
  ((db.columns.entities.entries.reverse.dropWhile (fun entry => start < entry.1)).takeWhile
    (fun entry => bound ≤ entry.1)).map entityCell

/-- The facts that `LegacyEnumerateIterator` finds at the ids it visits. -/
def legacyCells (ids : List Id) : List Cell :=
  ids.filterMap (fun id => (db.lookupById id).map (fun entity => entityCell (id, entity)))

def enumerate (first upto : Id) : FactIterator :=
  let (start, bound) := forwardBounds first upto db.startingId db.nextId
  if start = Id.invalid then
    EmptyIterator
  else if db.version ≤ 2 then
    rangeIterator (db.legacyCells (List.range' start (bound - start)))
  else
    rangeIterator (db.forwardCells start bound)

def enumerateBack (first downto : Id) : FactIterator :=
  let (start, bound) := backwardBounds first downto db.startingId db.nextId
  if start = Id.invalid then
    EmptyIterator
  else if db.version ≤ 2 then
    rangeIterator (db.legacyCells (List.range' bound (start + 1 - bound)).reverse)
  else
    rangeIterator (db.backwardCells start bound)

/-- The lookup a database implements. -/
def lookup : Lookup where
  idByKey := db.idByKey
  typeById := db.typeById
  factById := db.factById
  startingId := db.startingId
  firstFreeId := db.nextId
  count := db.count
  enumerate := db.enumerate
  enumerateBack := db.enumerateBack
  seek := db.seek

end Database

/-- The database that is created with a starting id. -/
def Database.created (start : Id) (version : Int) : Database where
  columns := { Columns.empty with admin := ⟨some start, some version, some start⟩ }
  version := version
  startingId := start
  nextId := start
  stats := .empty
  ownershipUnitCounters := []
  ownershipDerivedCounters := .empty
  usets := .new 0

/-- Creating a database succeeds. -/
theorem Database.openDatabase_create (start : Id) (version : Int)
    : Database.openDatabase .empty .create start version = .ok (.created start version) := by
  have counters : loadOwnershipUnitCounters .empty = .ok [] := rfl
  simp only [openDatabase, counters]
  simp [Columns.empty, created]
  exact ⟨rfl, rfl⟩

/-- What an existing database reads when it is opened. Its columns stay as they are. -/
theorem Database.openDatabase_existing {columns : Columns} {mode : Mode} {start : Id}
    {version : Int} {db : Database} (existing : mode ≠ .create)
    (opened : Database.openDatabase columns mode start version = .ok db)
    : db.columns = columns
      ∧ db.version = columns.admin.version.getD version
      ∧ db.startingId = columns.admin.startingId.getD start
      ∧ db.nextId = columns.admin.nextId.getD start
      ∧ db.stats = columns.stats
      ∧ loadOwnershipUnitCounters columns = .ok db.ownershipUnitCounters
      ∧ db.ownershipDerivedCounters = loadOwnershipDerivedCounters columns
      ∧ db.usets = loadOwnershipSets columns := by
  unfold openDatabase at opened
  simp only [if_neg existing] at opened
  split_ifs at opened
  cases loaded : loadOwnershipUnitCounters columns with
  | error text => simp [loaded] at opened
  | ok counters =>
      rw [loaded] at opened
      obtain rfl := Except.ok.inj opened
      simp

end Glean.Rocks
