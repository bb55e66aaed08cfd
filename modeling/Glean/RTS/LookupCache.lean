import Glean.Library.Machine
import Glean.RTS.DefineHolds

/-! A cache of facts in front of a lookup (`glean/rts/cache.cpp`), used by one thread at a time. -/

namespace Glean.RTS

/-- How much data a cached fact has. -/
inductive Tag where
  /-- Not its key or value. -/
  | type
  /-- Not its value. -/
  | key
  | full
  deriving DecidableEq

def Tag.toNat : Tag → Nat
  | .type => 0
  | .key => 1
  | .full => 2

/-- A fact in memory. The address tells it from other copies. -/
structure Cached where
  address : Nat
  fact : Fact
  tag : Tag
  deriving DecidableEq

/-- `sizeof(Fact)` -/
def sizeofFact : Nat := 40

def Cached.size (cached : Cached) : Nat :=
  sizeofFact + cached.fact.key.length + cached.fact.value.length

namespace LookupCache

/-- The facts in the order of their use. -/
structure Storage where
  facts : List Cached
  bytes : Nat
  count : Nat

def Storage.push_back (storage : Storage) (fact : Cached) : Storage :=
  ⟨storage.facts ++ [fact], storage.bytes + fact.size, storage.count + 1⟩

def Storage.release (storage : Storage) (fact : Cached) : Storage :=
  ⟨storage.facts.erase fact, storage.bytes - fact.size, storage.count - 1⟩

def Storage.touch (storage : Storage) (fact : Cached) : Storage :=
  { storage with facts := storage.facts.erase fact ++ [fact] }

/-- `Index`: two hash sets, by id and by type and key. -/
structure Index where
  ids : List Cached
  keys : List Cached

namespace Index

def findId (index : Index) (id : Id) : Option Cached :=
  index.ids.find? (fun cached => cached.fact.id = id)

def findKey (index : Index) (type : Pid) (key : Bytes) : Option Cached :=
  index.keys.find? (fun cached => cached.fact.type = type ∧ cached.fact.key = key)

/-- A set keeps what it has with the same key. -/
def insertId (index : Index) (fact : Cached) : Index :=
  match index.findId fact.fact.id with
  | some _ => index
  | none => { index with ids := fact :: index.ids }

def insertKey (index : Index) (fact : Cached) : Index :=
  match index.findKey fact.fact.type fact.fact.key with
  | some _ => index
  | none => { index with keys := fact :: index.keys }

/-- `deleteFromIndex` -/
def delete (index : Index) (fact : Cached) : Index where
  ids := index.ids.filter (fun cached => cached.fact.id ≠ fact.fact.id)
  keys :=
    if fact.tag ≠ .type then
      index.keys.filter (fun cached =>
        ¬ (cached.fact.type = fact.fact.type ∧ cached.fact.key = fact.fact.key))
    else
      index.keys

end Index

/-- `shrunk` is `capacity * 0.9`, rounded down. -/
structure Options where
  capacity : Nat
  shrunk : Nat
  shards : Nat
  touched_buffer_size : Nat
  less : shrunk ≤ capacity

end LookupCache

open LookupCache

/-- `LookupCache`; of each buffer, `touched` has what is below `next`. -/
structure LookupCache where
  index : Index
  storage : Storage
  touched : List (List Cached)
  /-- The address of the next fact. -/
  address : Nat

namespace LookupCache

variable (options : Options)

def new : LookupCache where
  index := ⟨[], []⟩
  storage := ⟨[], 0, 0⟩
  touched := List.replicate options.shards []
  address := 0

def drain (storage : Storage) (buffer : List Cached) : Storage :=
  buffer.foldl Storage.touch storage

/-- Drain all shards. -/
def drainAll (cache : LookupCache) : LookupCache :=
  { cache with
    storage := cache.touched.foldl drain cache.storage
    touched := cache.touched.map (fun _ => []) }

/-- `touch`, on a thread of the given shard. -/
def touch (cache : LookupCache) (shard : Nat) (fact : Cached) : LookupCache :=
  if options.shards > 0 then
    let place := shard % options.shards
    let buffer := cache.touched.getD place []
    if buffer.length < options.touched_buffer_size then
      { cache with touched := cache.touched.set place (buffer ++ [fact]) }
    else
      { cache with
        storage := drain cache.storage buffer
        touched := cache.touched.set place [] }
  else
    { cache with storage := cache.storage.touch fact }

/-- The loop of `evict` over the facts from the oldest on. The result has the facts that are left, and
the size and the number of the others.
-/
def evictFacts (total target : Nat) : List Cached → Nat → Nat → Index
    → Index × List Cached × Nat × Nat
  | [], bytes, count, index => (index, [], bytes, count)
  | fact :: rest, bytes, count, index =>
      if total - bytes > target then
        evictFacts total target rest (bytes + fact.size) (count + 1) (index.delete fact)
      else
        (index, fact :: rest, bytes, count)

def evict (cache : LookupCache) (target : Nat) : LookupCache :=
  match evictFacts cache.storage.bytes target cache.storage.facts 0 0 cache.index with
  | (index, facts, bytes, count) =>
      { cache with
        index
        storage := ⟨facts, cache.storage.bytes - bytes, cache.storage.count - count⟩ }

/-- Replace a fact that has less data. -/
def replace (cache : LookupCache) (existing : Option Cached) : LookupCache :=
  match existing with
  | some fact =>
      { cache with index := cache.index.delete fact, storage := cache.storage.release fact }
  | none => cache

def push (cache : LookupCache) (owned : Cached) : LookupCache :=
  let index := cache.index.insertId owned
  { cache with
    storage := cache.storage.push_back owned
    index := if owned.tag ≠ .type then index.insertKey owned else index }

/-- What happens before a fact is put in the storage. -/
def makeRoom (cache : LookupCache) (size : Nat) (existing : Option Cached) : LookupCache :=
  if existing.isSome ∨ cache.storage.bytes + size > options.capacity then
    let replaced := cache.drainAll.replace existing
    if replaced.storage.bytes + size > options.capacity then
      replaced.evict (options.shrunk - size)
    else
      replaced
  else
    cache

def insertOne (cache : LookupCache) (owned : Cached) : LookupCache :=
  if owned.size > options.capacity then
    cache
  else
    let existing := cache.index.findId owned.fact.id
    if existing.any (fun fact => fact.tag.toNat ≥ owned.tag.toNat) then
      cache
    else
      (cache.makeRoom options owned.size existing).push owned

/-- `insert`, with `Fact::create`. -/
def insert (cache : LookupCache) (fact : Fact) (tag : Tag) : LookupCache :=
  insertOne options { cache with address := cache.address + 1 } ⟨cache.address, fact, tag⟩

namespace Anchor

variable (base : Lookup) (cache : LookupCache) (shard : Nat)

def idByKey (type : Pid) (key : Bytes) : Id × LookupCache :=
  let (cached, touched) :=
    match cache.index.findKey type key with
    | some fact => (fact.fact.id, cache.touch options shard fact)
    | none => (Id.invalid, cache)
  if cached ≠ Id.invalid then
    (cached, touched)
  else
    let id := base.idByKey type key
    if id ≠ Id.invalid then
      (id, touched.insert options ⟨id, type, ⟨key, []⟩⟩ .key)
    else
      (Id.invalid, touched)

def typeById (id : Id) : Pid × LookupCache :=
  let (cached, touched) :=
    match cache.index.findId id with
    | some fact => (fact.fact.type, cache.touch options shard fact)
    | none => (Pid.invalid, cache)
  if cached ≠ Pid.invalid then
    (cached, touched)
  else
    let type := base.typeById id
    if type ≠ Pid.invalid then
      (type, touched.insert options ⟨id, type, ⟨[], []⟩⟩ .type)
    else
      (Pid.invalid, touched)

/-- The fact that is passed to the function, if it is called. -/
def factById (id : Id) : Option (Pid × Clause) × LookupCache :=
  match (cache.index.findId id).filter (fun fact => fact.tag = .full) with
  | some fact => (some (fact.fact.type, fact.fact.clause), cache.touch options shard fact)
  | none =>
      match base.factById id with
      | some (type, clause) => (some (type, clause), cache.insert options ⟨id, type, clause⟩ .full)
      | none => (none, cache)

end Anchor

end LookupCache

end Glean.RTS
