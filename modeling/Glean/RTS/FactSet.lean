import Mathlib.Data.List.Range
import Mathlib.Data.List.Perm.Subperm
import Glean.RTS.Lookup

/-! Fact sets (`factset.h`, `factset.cpp`): facts with consecutive ids, a hash set of the
facts of each predicate by key, and a lazily filled index for prefix seeks.
-/

namespace Glean.RTS

/-- `FactSet`. The hash set of a predicate is the list of its facts; `index` is the cache of
the maps that `seek` has built.
-/
structure FactSet where
  startingId : Id
  facts : List Fact
  keys : SortedMap Pid (List Fact)
  index : SortedMap Pid (SortedMap Bytes Fact)
  positive : Id.invalid < startingId
  dense : facts.map Fact.id = List.range' startingId facts.length
  typed : ∀ fact ∈ facts, fact.type < Pid.limit
  keyed : ∀ type fact, fact ∈ (keys.get? type).getD [] ↔ fact ∈ facts ∧ fact.type = type
  distinct
    : ∀ type, ((keys.get? type).getD []).Pairwise (fun left right => left.key ≠ right.key)
  cached
    : ∀ type map, index.get? type = some map → ∀ entry ∈ map.entries,
        entry.1 = entry.2.key ∧ entry.2 ∈ (keys.get? type).getD []

namespace FactSet

/-- `Fact::MAX_KEY_SIZE`. -/
def maxKeySize : Nat := 0xFFFFFFF

/-- A fact set without facts. -/
def new (start : Id) (positive : Id.invalid < start) : FactSet where
  startingId := start
  facts := []
  keys := .empty
  index := .empty
  positive := positive
  dense := rfl
  typed := by simp
  keyed := by simp
  distinct := by simp
  cached := by simp

/-- The facts of a predicate. -/
def bucket (set : FactSet) (type : Pid) : List Fact :=
  (set.keys.get? type).getD []

def firstFreeId (set : FactSet) : Id :=
  set.startingId + set.facts.length

/-- `FactSet::lower_bound`, as a position in the vector of facts. -/
def lowerBound (set : FactSet) (id : Id) : Nat :=
  if id ≤ set.startingId then 0 else min (id - set.startingId) set.facts.length

/-- The fact with an id, by its position. -/
def fact? (set : FactSet) (id : Id) : Option Fact :=
  if set.startingId ≤ id then set.facts[id - set.startingId]? else none

def idByKey (set : FactSet) (type : Pid) (key : Bytes) : Id :=
  match (set.bucket type).find? (fun fact => fact.key = key) with
  | some fact => fact.id
  | none => Id.invalid

def typeById (set : FactSet) (id : Id) : Pid :=
  match set.fact? id with
  | some fact => fact.type
  | none => Pid.invalid

def factById (set : FactSet) (id : Id) : Option (Pid × Clause) :=
  (set.fact? id).map (fun fact => (fact.type, fact.clause))

def count (set : FactSet) (type : Pid) : Interval :=
  .exactly (set.bucket type).length

/-- The iterator of `enumerate` over vector positions. Reading or moving past the end of the
vector is undefined, and so is moving on from `stop`.
-/
def vectorIterator (facts : List Fact) (pos stop : Nat) : FactIterator where
  State := Nat
  state := pos
  get := fun _ pos =>
    if pos = stop then
      some (none, pos)
    else
      facts[pos]?.map (fun fact => (some fact, pos))
  next := fun pos => if pos = stop ∨ facts.length ≤ pos then none else some (pos + 1)
  size := fun pos => facts.length - pos

/-- The iterator of `enumerateBack`; `pos` is one past the current fact. -/
def vectorBackIterator (facts : List Fact) (pos stop : Nat) : FactIterator where
  State := Nat
  state := pos
  get := fun _ pos =>
    match pos with
    | 0 => if stop = 0 then some (none, 0) else none
    | before + 1 =>
        if before + 1 = stop then
          some (none, before + 1)
        else
          facts[before]?.map (fun fact => (some fact, before + 1))
  next := fun pos => if pos = stop ∨ pos = 0 then none else some (pos - 1)
  size := fun pos => pos

def enumerate (set : FactSet) (first upto : Id) : FactIterator :=
  vectorIterator set.facts (set.lowerBound first)
    (if upto ≠ Id.invalid then set.lowerBound upto else set.facts.length)

def enumerateBack (set : FactSet) (first downto : Id) : FactIterator :=
  vectorBackIterator set.facts
    (if first ≠ Id.invalid then set.lowerBound first else set.facts.length)
    (set.lowerBound downto)

/-- `map.insert` of a fact under its key, which keeps an existing entry. -/
def indexInsert (map : SortedMap Bytes Fact) (fact : Fact) : SortedMap Bytes Fact :=
  match map.get? fact.key with
  | some _ => map
  | none => map.put fact.key fact

/-- Fill an index map with the facts of a predicate. -/
def indexOf (bucket : List Fact) : SortedMap Bytes Fact :=
  bucket.foldl indexInsert .empty

/-- The index map `seek` uses: the cached one if it has as many entries as there are facts,
else a new one.
-/
def indexMap (set : FactSet) (type : Pid) : SortedMap Bytes Fact :=
  let cachedMap := (set.index.get? type).getD .empty
  if cachedMap.entries.length = (set.bucket type).length then
    cachedMap
  else
    indexOf (set.bucket type)

/-- The iterator returned by `FactSet::seek`. -/
def seek (set : FactSet) (type : Pid) (start : Bytes) (prefixSize : Nat) : FactIterator :=
  match set.keys.get? type with
  | none => EmptyIterator
  | some _ =>
      rangeIterator ((seekEntries (set.indexMap type) start prefixSize).map
        (fun entry => Cell.ofFact entry.2))

/-- The facts of the set, without their order. -/
def members (set : FactSet) : Set Fact := {fact | fact ∈ set.facts}

/-- The lookup a fact set implements. -/
def lookup (set : FactSet) : Lookup where
  idByKey := set.idByKey
  typeById := set.typeById
  factById := set.factById
  startingId := set.startingId
  firstFreeId := set.firstFreeId
  count := set.count
  enumerate := set.enumerate
  enumerateBack := set.enumerateBack
  seek := set.seek

theorem ascending (set : FactSet)
    : set.facts.Pairwise (fun left right => left.id < right.id) := by
  refine List.pairwise_map.mp ?_
  rw [set.dense]
  exact List.pairwise_lt_range'

theorem mem_bounds (set : FactSet) {fact : Fact} (member : fact ∈ set.facts)
    : set.startingId ≤ fact.id ∧ fact.id < set.firstFreeId := by
  have listed : fact.id ∈ set.facts.map Fact.id := List.mem_map_of_mem member
  rw [set.dense, List.mem_range'_1] at listed
  exact listed

/-- The fact at a position has the id of the position. -/
theorem id_getElem (set : FactSet) (i : Nat) (inside : i < set.facts.length)
    : set.facts[i].id = set.startingId + i := by
  have listed : (set.facts.map Fact.id)[i]? = some (set.startingId + i) := by
    rw [set.dense, List.getElem?_range' inside, Nat.one_mul]
  simpa [inside] using listed

/-- The last fact comes right before the first free id. -/
theorem getLast?_id (set : FactSet) {fact : Fact} (last : set.facts.getLast? = some fact)
    : fact.id + 1 = set.firstFreeId := by
  have nonempty : set.facts ≠ [] := by
    intro empty
    simp [empty] at last
  have size : 0 < set.facts.length := List.length_pos_of_ne_nil nonempty
  obtain rfl : set.facts.getLast nonempty = fact := by
    simpa [List.getLast?_eq_some_getLast nonempty] using last
  rw [List.getLast_eq_getElem, set.id_getElem, firstFreeId, Nat.add_assoc,
    Nat.sub_add_cancel size]

/-- Facts of one predicate have different keys. -/
theorem distinctKeys (set : FactSet)
    : set.facts.Pairwise (fun left right => left.type = right.type → left.key ≠ right.key) := by
  refine set.ascending.imp_of_mem (fun leftMember rightMember less sameType => ?_)
  have inLeft := (set.keyed _ _).mpr ⟨leftMember, sameType⟩
  have inRight := (set.keyed _ _).mpr ⟨rightMember, rfl⟩
  have symmetric : Std.Symm (fun left right : Fact => left.key ≠ right.key) :=
    ⟨fun _ _ => Ne.symm⟩
  refine (set.distinct _).forall inLeft inRight ?_
  intro same
  exact absurd (same ▸ less) (lt_irrefl _)

/-- A map indexes a list of facts by their keys. -/
def Indexes (map : SortedMap Bytes Fact) (facts : List Fact) : Prop :=
  ∀ key fact, map.get? key = some fact ↔ fact ∈ facts ∧ fact.key = key

/-- Filling an index stores every fact, since the keys of one predicate are distinct. -/
theorem indexOf_indexes {bucket : List Fact}
    (distinct : bucket.Pairwise (fun left right => left.key ≠ right.key))
    : Indexes (indexOf bucket) bucket := by
  induction bucket using List.reverseRecOn with
  | nil => simp [Indexes, indexOf]
  | append_singleton facts fact ih =>
      obtain ⟨distinctFacts, -, different⟩ := List.pairwise_append.mp distinct
      have stored := ih distinctFacts
      have missing : (indexOf facts).get? fact.key = none := by
        cases found : (indexOf facts).get? fact.key with
        | none => rfl
        | some other =>
            obtain ⟨member, same⟩ := (stored fact.key other).mp found
            exact (different other member fact (by simp) same).elim
      have added : indexOf (facts ++ [fact]) = (indexOf facts).put fact.key fact := by
        rw [indexOf, List.foldl_append]
        change indexInsert (indexOf facts) fact = _
        simp [indexInsert, missing]
      intro key other
      rw [added, SortedMap.get?_put]
      by_cases same : key = fact.key
      · subst same
        simp only [if_true, Option.some.injEq, List.mem_append, List.mem_singleton]
        constructor
        · intro eq
          exact ⟨Or.inr eq.symm, by rw [eq]⟩
        · intro found
          rcases found.1 with member | eq
          · exact (different other member fact (by simp) found.2).elim
          · exact eq.symm
      · rw [if_neg same, stored]
        simp only [List.mem_append, List.mem_singleton]
        constructor
        · intro found
          exact ⟨Or.inl found.1, found.2⟩
        · intro found
          rcases found.1 with member | rfl
          · exact ⟨member, found.2⟩
          · exact (same found.2.symm).elim

/-- A cached map with as many entries as there are facts is complete: its facts are distinct
members of a list of the same length.
-/
theorem cached_indexes {map : SortedMap Bytes Fact} {bucket : List Fact}
    (cached : ∀ entry ∈ map.entries, entry.1 = entry.2.key ∧ entry.2 ∈ bucket)
    (full : map.entries.length = bucket.length)
    : Indexes map bucket := by
  have nodup : (map.entries.map Prod.snd).Nodup := by
    refine List.pairwise_map.mpr (map.sorted.imp_of_mem ?_)
    intro left right leftMember rightMember less equal
    rw [(cached left leftMember).1, (cached right rightMember).1, equal] at less
    exact lt_irrefl _ less
  have subset : map.entries.map Prod.snd ⊆ bucket := by
    intro fact member
    obtain ⟨entry, entryMember, rfl⟩ := List.mem_map.mp member
    exact (cached entry entryMember).2
  have perm : (map.entries.map Prod.snd).Perm bucket :=
    (List.subperm_of_subset nodup subset).perm_of_length_le (by simp [full])
  intro key fact
  rw [SortedMap.get?_eq_some_iff]
  constructor
  · intro member
    obtain ⟨same, inBucket⟩ := cached _ member
    exact ⟨inBucket, same.symm⟩
  · intro found
    obtain ⟨entry, entryMember, rfl⟩ := List.mem_map.mp (perm.mem_iff.mpr found.1)
    rw [← found.2, ← (cached entry entryMember).1]
    exact entryMember

/-- Whether cached or new, the index map of `seek` indexes the facts of the predicate. -/
theorem indexMap_indexes (set : FactSet) (type : Pid)
    : Indexes (set.indexMap type) (set.bucket type) := by
  unfold indexMap
  dsimp only
  split
  · next full =>
      refine cached_indexes ?_ full
      intro entry member
      cases known : set.index.get? type with
      | none => simp [known] at member
      | some map =>
          rw [known, Option.getD_some] at member
          exact set.cached type map known entry member
  · exact indexOf_indexes (set.distinct type)

/-- The positions of a seek answer it for the facts of the predicate. -/
theorem isSeek_seekEntries (set : FactSet) (type : Pid) (start : Bytes) (prefixSize : Nat)
    : IsSeek set.members type start prefixSize
        ((seekEntries (set.indexMap type) start prefixSize).map Prod.snd) := by
  have indexes := set.indexMap_indexes type
  rw [seekEntries_eq]
  refine ⟨?_, fun fact => ?_⟩
  · refine List.pairwise_map.mpr (((set.indexMap type).sorted.filter _).imp_of_mem ?_)
    intro left right leftMember rightMember less
    have keyOf {entry : Bytes × Fact}
        (member : entry ∈ (set.indexMap type).entries.filter
          (fun entry => start.Matches prefixSize entry.1))
        : entry.2.key = entry.1 :=
      ((indexes entry.1 entry.2).mp
        (SortedMap.get?_eq_some_iff.mpr (List.mem_filter.mp member).1)).2
    rw [keyOf leftMember, keyOf rightMember]
    exact less
  · have inBucket : fact ∈ set.bucket type ↔ fact ∈ set.facts ∧ fact.type = type :=
      set.keyed type fact
    rw [List.mem_map]
    constructor
    · intro found
      obtain ⟨entry, member, rfl⟩ := found
      obtain ⟨stored, matching⟩ := List.mem_filter.mp member
      obtain ⟨listed, same⟩ :=
        (indexes entry.1 entry.2).mp (SortedMap.get?_eq_some_iff.mpr stored)
      obtain ⟨isFact, ofType⟩ := inBucket.mp listed
      exact ⟨isFact, ofType, by simpa [same] using matching⟩
    · intro found
      have stored := (indexes fact.key fact).mpr ⟨inBucket.mpr ⟨found.1, found.2.1⟩, rfl⟩
      exact ⟨(fact.key, fact), List.mem_filter.mpr
        ⟨SortedMap.get?_eq_some_iff.mp stored, by simpa using found.2.2⟩, rfl⟩

/-- A seek yields the facts of the predicate that it looks for, in key order. -/
theorem seek_yields (set : FactSet) (protocol : Cursor.Protocol)
    : set.lookup.Seeks protocol set.members := by
  intro type start prefixSize _
  cases known : set.keys.get? type with
  | none =>
      refine ⟨[], ?_, .nil, fun fact => ?_⟩
      · have empty : set.lookup.seek type start prefixSize = EmptyIterator := by
          simp [lookup, seek, known]
        rw [empty]
        exact EmptyIterator.yields protocol
      · have absent : ¬ (fact ∈ set.facts ∧ fact.type = type) := by
          rw [← set.keyed type fact, known]
          simp
        simp only [List.not_mem_nil, false_iff]
        exact fun found => absent ⟨found.1, found.2.1⟩
  | some bucket =>
      refine ⟨_, ?_, set.isSeek_seekEntries type start prefixSize⟩
      have range : set.lookup.seek type start prefixSize
          = rangeIterator
              (((seekEntries (set.indexMap type) start prefixSize).map Prod.snd).map
                Cell.ofFact) := by
        simp only [lookup, seek, known, List.map_map]
        rfl
      rw [range]
      exact rangeIterator.yields protocol (Cell.holds_map_ofFact _)

/-- Remember the index map that a seek has used. -/
def remember (set : FactSet) (type : Pid) : FactSet :=
  { set with
      index := set.index.put type (set.indexMap type)
      cached := by
        intro other map found entry member
        rw [SortedMap.get?_put] at found
        split_ifs at found with same
        · obtain rfl := Option.some.inj found
          obtain ⟨inBucket, key⟩ := (set.indexMap_indexes type entry.1 entry.2).mp
            (SortedMap.get?_eq_some_iff.mpr member)
          exact same ▸ ⟨key.symm, inBucket⟩
        · exact set.cached other map found entry member }

/-- Append a fact with the next id. -/
def push (set : FactSet) (type : Pid) (clause : Clause) (bounded : type < Pid.limit)
    (missing : ∀ fact ∈ set.bucket type, fact.key ≠ clause.key)
    : FactSet :=
  { set with
      facts := set.facts ++ [⟨set.firstFreeId, type, clause⟩]
      keys := set.keys.put type (set.bucket type ++ [⟨set.firstFreeId, type, clause⟩])
      dense := by
        rw [List.map_append, set.dense, List.length_append, List.length_singleton,
          List.range'_1_concat]
        rfl
      typed := by
        intro fact member
        rcases List.mem_append.mp member with old | new
        · exact set.typed fact old
        · obtain rfl := List.mem_singleton.mp new
          exact bounded
      keyed := by
        intro other fact
        rw [SortedMap.get?_put]
        have old := set.keyed other fact
        by_cases same : other = type
        · subst same
          rw [if_pos rfl, Option.getD_some, List.mem_append, List.mem_append, List.mem_singleton]
          have inBucket : fact ∈ set.bucket other ↔ fact ∈ set.facts ∧ fact.type = other := old
          rw [inBucket]
          constructor
          · intro found
            rcases found with known | rfl
            · exact ⟨Or.inl known.1, known.2⟩
            · exact ⟨Or.inr rfl, rfl⟩
          · intro found
            rcases found.1 with known | rfl
            · exact Or.inl ⟨known, found.2⟩
            · exact Or.inr rfl
        · rw [if_neg same, old, List.mem_append, List.mem_singleton]
          constructor
          · intro found
            exact ⟨Or.inl found.1, found.2⟩
          · intro found
            rcases found.1 with known | rfl
            · exact ⟨known, found.2⟩
            · exact (same found.2.symm).elim
      distinct := by
        intro other
        rw [SortedMap.get?_put]
        by_cases same : other = type
        · subst same
          rw [if_pos rfl, Option.getD_some, List.pairwise_append]
          refine ⟨set.distinct other, List.pairwise_singleton _ _, ?_⟩
          intro fact member added addedMember
          obtain rfl := List.mem_singleton.mp addedMember
          exact missing fact member
        · rw [if_neg same]
          exact set.distinct other
      cached := by
        intro other map found entry member
        obtain ⟨key, known⟩ := set.cached other map found entry member
        refine ⟨key, ?_⟩
        rw [SortedMap.get?_put]
        by_cases same : other = type
        · subst same
          rw [if_pos rfl, Option.getD_some]
          exact List.mem_append_left _ known
        · rw [if_neg same]
          exact known }

/-- `FactSet::define`. -/
def define (set : FactSet) (type : Pid) (bounded : type < Pid.limit) (clause : Clause)
    : Except String (FactSet × Id) :=
  if maxKeySize < clause.key.length then
    .error ("key too large: " ++ toString clause.key.length)
  else
    match found : (set.bucket type).find? (fun fact => fact.key = clause.key) with
    | none =>
        .ok (set.push type clause bounded (by simpa using found), set.firstFreeId)
    | some fact => .ok (set, if clause.value = fact.value then fact.id else Id.invalid)

end FactSet

end Glean.RTS
