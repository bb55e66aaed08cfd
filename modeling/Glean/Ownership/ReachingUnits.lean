import Glean.Ownership.CompleteOwnership
import Glean.RTS.Enumerate

/-! Computed ownership is the closure of listed ownership along references. A fact belongs to
the units that list a fact from which it can be reached.
-/

namespace Glean.RTS

/-- A table of facts that refer to smaller ids, as a lookup enumerates it backwards. -/
structure FactTable (protocol : Cursor.Protocol) (references : References) (lookup : Lookup)
    (facts : List Fact)
    : Prop where
  ascending : facts.Pairwise (fun left right => left.id < right.id)
  lowest : ∀ fact ∈ facts, Id.lowest ≤ fact.id
  smaller : ∀ fact ∈ facts, ∀ id ∈ references fact.type fact.clause, id < fact.id
  backwards
    : ∀ upto, (lookup.enumerateBack upto Id.invalid).Yields protocol
        (factsInRange facts Id.invalid upto).reverse

/-- A fact of the table refers to an id. -/
def Refers (references : References) (facts : List Fact) (source target : Id) : Prop :=
  ∃ fact ∈ facts, fact.id = source ∧ target ∈ references fact.type fact.clause

/-- Zero or more references lead from one id to another. -/
def Reaches (references : References) (facts : List Fact) : Id → Id → Prop :=
  Relation.ReflTransGen (Refers references facts)

/-- A unit lists a fact that reaches an id. -/
def Owns (references : References) (facts : List Fact) (records : List OwnershipUnit)
    (unit : UnitId) (id : Id)
    : Prop :=
  ∃ data ∈ records, data.unit = unit
    ∧ ∃ source, TrieArray.Listed data.ids source ∧ Reaches references facts source id

open Classical in
/-- The set of these units. -/
noncomputable def reachingUnits (references : References) (facts : List Fact)
    (records : List OwnershipUnit) (id : Id)
    : Finset UnitId :=
  (records.map OwnershipUnit.unit).toFinset.filter
    (fun unit => Owns references facts records unit id)

theorem mem_reachingUnits {references : References} {facts : List Fact}
    {records : List OwnershipUnit} {id : Id} {unit : UnitId}
    : unit ∈ reachingUnits references facts records id
      ↔ Owns references facts records unit id := by
  classical
  simp only [reachingUnits, Finset.mem_filter, List.mem_toFinset, List.mem_map,
    and_iff_right_iff_imp]
  rintro ⟨data, member, isUnit, -⟩
  exact ⟨data, member, isUnit⟩

/-- The id is not larger than every listed id. -/
def UpToListed (records : List OwnershipUnit) (id : Id) : Prop :=
  ∃ data ∈ records, ∃ range ∈ data.ids, id ≤ range.2

/-- The different sets of units of facts. -/
noncomputable def ownerSets (references : References) (facts : List Fact)
    (records : List OwnershipUnit)
    : Finset (Finset UnitId) :=
  ((facts.map (fun fact => reachingUnits references facts records fact.id)).toFinset).erase ∅

theorem card_ownerSets_le (references : References) (facts : List Fact)
    (records : List OwnershipUnit)
    : (ownerSets references facts records).card ≤ facts.length := by
  refine (Finset.card_erase_le).trans ((List.toFinset_card_le _).trans ?_)
  rw [List.length_map]

variable {protocol : Cursor.Protocol} {references : References} {lookup : Lookup}
  {facts : List Fact} {records : List OwnershipUnit}

/-- Paths from ids below a limit use facts below the limit only. -/
theorem reaches_below (smaller : ∀ fact ∈ facts, ∀ id ∈ references fact.type fact.clause,
      id < fact.id) {size : Nat} {source target : Id} (below : source < size)
    : Reaches references facts source target
      ↔ Sweep.Reaches
          (referenceGraph references (facts.filter (fun fact => fact.id < size)).reverse)
          source target := by
  refine ⟨fun path => ?_, fun path => ?_⟩
  · have stronger : Sweep.Reaches
        (referenceGraph references (facts.filter (fun fact => fact.id < size)).reverse)
        source target ∧ target < size := by
      induction path with
      | refl => exact ⟨.refl, below⟩
      | tail _ edge ih =>
          obtain ⟨direct, inside⟩ := ih
          obtain ⟨fact, member, rfl, isTarget⟩ := edge
          refine ⟨direct.tail ⟨(fact.id, references fact.type fact.clause), ?_, rfl, isTarget⟩,
            (smaller fact member _ isTarget).trans inside⟩
          refine List.mem_map.mpr ⟨fact, ?_, rfl⟩
          simpa using ⟨member, inside⟩
    exact stronger.1
  · refine Relation.ReflTransGen.mono (fun _ _ edge => ?_) _ _ path
    obtain ⟨node, member, isSource, isTarget⟩ := edge
    obtain ⟨fact, isFact, rfl⟩ := List.mem_map.mp member
    have isMember : fact ∈ facts := by
      have inFilter := List.mem_reverse.mp isFact
      exact (List.mem_filter.mp inFilter).1
    exact ⟨fact, isMember, isSource, isTarget⟩

/-- The sweep over the facts below a limit computes the closure of what is listed below it. -/
theorem run_eq_reachingUnits (smaller : ∀ fact ∈ facts,
      ∀ id ∈ references fact.type fact.clause, id < fact.id)
    (ascending : facts.Pairwise (fun left right => left.id < right.id)) {size : Nat}
    (listed : ∀ data ∈ records, ∀ range ∈ data.ids, range.2 < size)
    : Sweep.Descending
        (referenceGraph references (facts.filter (fun fact => fact.id < size)).reverse)
      ∧ Sweep.run (listedUnits records)
          (referenceGraph references (facts.filter (fun fact => fact.id < size)).reverse)
        = reachingUnits references facts records := by
  have descending : Sweep.Descending
      (referenceGraph references (facts.filter (fun fact => fact.id < size)).reverse) := by
    refine ⟨?_, ?_⟩
    · rw [referenceGraph, List.pairwise_map, List.pairwise_reverse]
      exact ascending.filter _
    · intro node member target isTarget
      obtain ⟨fact, isFact, rfl⟩ := List.mem_map.mp member
      have inFilter := List.mem_reverse.mp isFact
      exact smaller fact (List.mem_filter.mp inFilter).1 target isTarget
  refine ⟨descending, funext (fun id => Finset.ext (fun unit => ?_))⟩
  rw [Sweep.mem_run descending, mem_reachingUnits]
  refine ⟨?_, ?_⟩
  · rintro ⟨source, isListed, path⟩
    obtain ⟨data, member, isUnit, inRange⟩ := mem_listedUnits.mp isListed
    obtain ⟨range, isRange, low, high⟩ := inRange
    have below : source < size := Nat.lt_of_le_of_lt high (listed data member range isRange)
    exact ⟨data, member, isUnit, source, ⟨range, isRange, low, high⟩,
      (reaches_below smaller below).mpr path⟩
  · rintro ⟨data, member, isUnit, source, inRange, path⟩
    obtain ⟨range, isRange, low, high⟩ := inRange
    have below : source < size := Nat.lt_of_le_of_lt high (listed data member range isRange)
    exact ⟨source, mem_listedUnits.mpr ⟨data, member, isUnit, range, isRange, low, high⟩,
      (reaches_below smaller below).mp path⟩

/-- Completion starts with the listed units and without ids. -/
theorem Flat.completed {units : Nat → Finset UnitId} {numUnits : Nat} {usets : Usets}
    {vector : UsetVector} (flat : Flat units numUnits usets vector)
    (room : numUnits ≤ invalidUset)
    : Completed vector.size ∅ units usets vector.sets := by
  obtain ⟨canonical, plain, firstId, nextId, promoted⟩ := flat.unnumbered
  have noEntry {addr : Addr} {exp : SetExpr} {id : UsetId} (entry : usets.Entry addr exp id)
      : id = invalidUset := by
    obtain ⟨member, uset, stored, -, rfl⟩ := entry
    exact (plain addr uset member stored).1.number
  refine ⟨⟨canonical, ⟨?_, ?_, ?_, ?_, ?_, ?_, ?_⟩, ?_, flat.members, by simp, ?_⟩, ?_,
    flat.owners⟩
  · lia
  · lia
  · rw [promoted, Finset.card_empty]
  · intro set
    refine ⟨fun isNamed => (Finset.notMem_empty set isNamed).elim, ?_⟩
    rintro ⟨addr, exp, id, entry, valid, -⟩
    exact (valid (noEntry entry)).elim
  · intro addr exp id entry valid
    exact (valid (noEntry entry)).elim
  · intro left right leftExp rightExp id entry _ valid
    exact (valid (noEntry entry)).elim
  · intro index below
    lia
  · intro addr uset member stored
    obtain ⟨isPlain, -⟩ := plain addr uset member stored
    exact ⟨isPlain.op, isPlain.nonempty⟩
  · intro addr uset member stored
    have counted := flat.refs addr uset member stored
    rw [if_pos (plain addr uset member stored).1.number, Multiset.count_zero]
    simpa using counted
  · intro addr uset member stored
    exact (plain addr uset member stored).2

/-- The stages before completion. -/
theorem flatten_records (ordered : OrderedRecords records)
    (small : ∀ data ∈ records, ∀ range ∈ data.ids, range.2 < 2 ^ 32 - 1)
    : ∃ filled usets trie next vector, fillOwnership records = some filled
        ∧ collectUsets ((filled.maxUnit + 1) % 2 ^ 32) filled.heap filled.trie = (usets, trie)
        ∧ flatten usets trie = (next, vector) ∧ filled.Of records
        ∧ Flat (listedUnits records) ((filled.maxUnit + 1) % 2 ^ 32) next vector
        ∧ vector.size < 2 ^ 32
        ∧ ∀ data ∈ records, ∀ range ∈ data.ids, range.2 < vector.size := by
  have fits : ∀ data ∈ records, ∀ range ∈ data.ids, range.2 < 2 ^ 32 :=
    fun data member range isRange =>
      Nat.lt_of_lt_of_le (small data member range isRange) (Nat.sub_le _ _)
  obtain ⟨filled, isFilled, filling⟩ := fillOwnership_of ordered fits
  have bound := filling.reached (2 ^ 32 - 1) (by decide) small
  rcases isCollected : collectUsets ((filled.maxUnit + 1) % 2 ^ 32) filled.heap filled.trie
    with ⟨usets, trie⟩
  obtain ⟨collected, minkey, maxkey⟩ :=
    collectUsets_collected filling.filled (by omega) isCollected
  rw [← minkey, ← maxkey] at collected
  rcases isFlat : flatten usets trie with ⟨next, vector⟩
  have bounds (id : Id) (isOwned : (listedUnits records id).Nonempty)
      : trie.minkey ≤ id ∧ id ≤ trie.maxkey := by
    obtain ⟨unit, isListed⟩ := isOwned
    obtain ⟨data, member, -, range, isRange, low, high⟩ := mem_listedUnits.mp isListed
    have covered := filling.covers data member range isRange
    rw [minkey, maxkey]
    lia
  obtain ⟨flat, size⟩ := flatten_flat collected bounds (by omega) isFlat
  refine ⟨filled, usets, trie, next, vector, isFilled, isCollected, isFlat, filling, flat, ?_, ?_⟩
  · rw [size]
    split_ifs <;> omega
  · intro data member range isRange
    have covered := filling.covers data member range isRange
    have sorted := (ordered.sorted data member).ordered range isRange
    rw [size, if_neg (by lia)]
    lia

/-- A numbered member is stored under its id. -/
theorem Numbered.getElem?_toEliasFano {usets : Usets} {named : Finset (Finset UnitId)}
    (numbered : Numbered usets named) {addr : Addr} {exp : SetExpr} {index : Nat}
    (below : index < usets.promoted) (entry : usets.Entry addr exp (usets.firstId + index))
    : usets.toEliasFano[index]? = some exp := by
  have valid : usets.firstId + index ≠ invalidUset := by
    have next := numbered.next
    have room := numbered.room
    lia
  obtain ⟨member, uset, stored, isExp, isId⟩ := entry
  have hasId : usets.idAt addr = usets.firstId + index := by
    rw [Usets.idAt, stored, Option.map_some, Option.getD_some, isId]
  cases found : usets.members.find? (fun other => usets.idAt other = usets.firstId + index) with
  | none =>
      have absent := List.find?_eq_none.mp found addr member
      simp [hasId] at absent
  | some other =>
      have otherMember := List.mem_of_find?_eq_some found
      have otherId : usets.idAt other = usets.firstId + index := by
        simpa using List.find?_some found
      cases otherStored : usets.heap other with
      | none =>
          rw [Usets.idAt, otherStored] at otherId
          exact (valid otherId.symm).elim
      | some otherUset =>
          have otherEntry : usets.Entry other otherUset.exp (usets.firstId + index) := by
            rw [Usets.idAt, otherStored, Option.map_some, Option.getD_some] at otherId
            exact ⟨otherMember, otherUset, otherStored, rfl, otherId⟩
          obtain rfl := numbered.distinct other addr _ _ _ otherEntry
            ⟨member, uset, stored, isExp, isId⟩ valid
          have isStored : usets.exp? other = some exp := by
            rw [Usets.exp?, stored, Option.map_some, isExp]
          simp [Usets.toEliasFano, below, found, isStored]

/-- Every set is stored once. -/
theorem Owned.nodup_toEliasFano {size : Nat} {named : Finset (Finset UnitId)} {usets : Usets}
    {sets : Id → Option Addr} {extra : Multiset Addr}
    (owned : Owned size named usets sets extra)
    : usets.toEliasFano.Nodup := by
  have numbered := owned.numbered
  refine List.nodup_iff_getElem?_ne_getElem?.mpr (fun left right order inside same => ?_)
  have length : usets.toEliasFano.length = usets.promoted := by simp [Usets.toEliasFano]
  rw [length] at inside
  obtain ⟨leftAddr, leftExp, leftEntry⟩ := numbered.onto left (order.trans inside)
  obtain ⟨rightAddr, rightExp, rightEntry⟩ := numbered.onto right inside
  rw [numbered.getElem?_toEliasFano (order.trans inside) leftEntry,
    numbered.getElem?_toEliasFano inside rightEntry] at same
  obtain rfl := Option.some.inj same
  obtain ⟨leftMember, leftUset, leftStored, leftIs, leftId⟩ := leftEntry
  obtain ⟨rightMember, rightUset, rightStored, rightIs, rightId⟩ := rightEntry
  have equal : usets.exp? leftAddr = usets.exp? rightAddr := by
    rw [Usets.exp?, Usets.exp?, leftStored, rightStored, Option.map_some, Option.map_some,
      leftIs, rightIs]
  obtain rfl := owned.canonical.unique leftAddr leftMember rightAddr rightMember equal
  rw [leftStored] at rightStored
  cases rightStored
  lia

/-- The owner of a fact is the id under which its set is stored. -/
theorem Completed.owner {size : Nat} {named : Finset (Finset UnitId)}
    {units : Id → Finset UnitId} {usets : Usets} {vector : UsetVector}
    (completed : Completed size named units usets vector.sets) (id : Id)
    (isNamed : (units id).Nonempty → units id ∈ named)
    : if units id = ∅ then vector.owner usets id = invalidUset
      else ∃ index, usets.toEliasFano[index]? = some ⟨.or, units id⟩
        ∧ vector.owner usets id = usets.firstId + index
        ∧ vector.owner usets id ≠ invalidUset := by
  have owned := completed.owned
  cases isHeld : vector.sets id with
  | none =>
      rw [if_pos (completed.units_none isHeld), UsetVector.owner, isHeld]
      rfl
  | some addr =>
      obtain ⟨member, isExp, nonempty⟩ := completed.exp_eq isHeld
      rw [if_neg nonempty.ne_empty, UsetVector.owner, isHeld, Option.map_some, Option.getD_some]
      obtain ⟨other, exp, number, entry, valid, isSet⟩ :=
        (owned.numbered.mem_named _).mp (isNamed nonempty)
      obtain ⟨otherMember, uset, stored, rfl, rfl⟩ := entry
      have isOr := (owned.plain other uset otherMember stored).1
      have isUnits : uset.exp = ⟨.or, units id⟩ := SetExpr.ext isOr isSet
      obtain rfl : other = addr := by
        refine owned.canonical.unique other otherMember addr member ?_
        rw [isExp, Usets.exp?, stored, Option.map_some, isUnits]
      have bounds := owned.numbered.range other uset.exp uset.id
        ⟨otherMember, uset, stored, rfl, rfl⟩ valid
      have next := owned.numbered.next
      have isIndex : usets.firstId + (uset.id - usets.firstId) = uset.id := by lia
      have hasId : usets.idAt other = uset.id := by
        rw [Usets.idAt, stored, Option.map_some, Option.getD_some]
      refine ⟨uset.id - usets.firstId, ?_, ?_, ?_⟩
      · have entry : usets.Entry other ⟨.or, units id⟩
            (usets.firstId + (uset.id - usets.firstId)) :=
          ⟨otherMember, uset, stored, isUnits, isIndex.symm⟩
        exact owned.numbered.getElem?_toEliasFano (by lia) entry
      · rw [hasId, isIndex]
      · rw [hasId]
        exact valid

/-- What is computed for a table of facts: no set is stored twice, and every fact up to the
largest listed id has the id of the set of exactly the units that reach it, if there are any.
-/
structure ComputedOwnership.Closes (computed : ComputedOwnership) (references : References)
    (facts : List Fact) (records : List OwnershipUnit)
    : Prop where
  once : computed.sets.Nodup
  owners
    : ∀ fact ∈ facts, UpToListed records fact.id →
        if reachingUnits references facts records fact.id = ∅ then
          computed.owner fact.id = invalidUset
        else
          ∃ index,
            computed.sets[index]? = some ⟨.or, reachingUnits references facts records fact.id⟩
              ∧ computed.owner fact.id = computed.firstId + index
              ∧ computed.owner fact.id ≠ invalidUset

/-- The sets of all facts after completion. -/
theorem completedSets_completed (table : FactTable protocol references lookup facts)
    (ordered : OrderedRecords records)
    (small : ∀ data ∈ records, ∀ range ∈ data.ids, range.2 < 2 ^ 32 - 1)
    {maxUnit : UnitId} (units : ∀ data ∈ records, data.unit ≤ maxUnit)
    (room : maxUnit + 1 + (ownerSets references facts records).card ≤ invalidUset)
    : ∃ usets vector named, completedSets references lookup records = some (usets, vector)
        ∧ vector.size < 2 ^ 32
        ∧ (∀ data ∈ records, ∀ range ∈ data.ids, range.2 < vector.size)
        ∧ Completed vector.size named (reachingUnits references facts records) usets vector.sets
        ∧ ∀ fact ∈ facts, fact.id < vector.size →
            (reachingUnits references facts records fact.id).Nonempty →
              reachingUnits references facts records fact.id ∈ named := by
  obtain ⟨filled, usets, trie, next, vector, isFilled, isCollected, isFlat, filling, flat, size,
    listed⟩ := flatten_records ordered small
  have maxBound := filling.maxUnit maxUnit units
  have firstId : (filled.maxUnit + 1) % 2 ^ 32 = filled.maxUnit + 1 := by
    refine Nat.mod_eq_of_lt ?_
    unfold invalidUset at room
    lia
  have isFirst : next.firstId = filled.maxUnit + 1 := flat.unnumbered.numbers.1.trans firstId
  have start := flat.completed (by rw [firstId]; lia)
  obtain ⟨descending, isRun⟩ :=
    run_eq_reachingUnits table.smaller table.ascending listed
  have inGraph {fact : Fact} (member : fact ∈ facts) (below : fact.id < vector.size)
      : fact ∈ (facts.filter (fun fact => fact.id < vector.size)).reverse := by
    simpa using ⟨member, below⟩
  have isFinal : ∀ fact ∈ (facts.filter (fun fact => fact.id < vector.size)).reverse,
      (Sweep.run (listedUnits records) (referenceGraph references
        (facts.filter (fun fact => fact.id < vector.size)).reverse) fact.id).Nonempty →
      Sweep.run (listedUnits records) (referenceGraph references
        (facts.filter (fun fact => fact.id < vector.size)).reverse) fact.id
        ∈ ownerSets references facts records := by
    intro fact member nonempty
    rw [isRun] at nonempty ⊢
    have isFact : fact ∈ facts := (List.mem_filter.mp (List.mem_reverse.mp member)).1
    refine Finset.mem_erase.mpr ⟨nonempty.ne_empty, List.mem_toFinset.mpr ?_⟩
    exact List.mem_map.mpr ⟨fact, isFact, rfl⟩
  rcases done : (facts.filter (fun fact => fact.id < vector.size)).reverse.foldl
    (completeFact references) (next, vector.sets) with ⟨final, sets⟩
  obtain ⟨named, completed, -, -, isNamed⟩ := start.facts descending isFinal (by lia)
    (Finset.empty_subset _) done
  rw [isRun] at completed isNamed
  have isCompleted : completeOwnership references lookup next vector
      = some (final, ⟨vector.size, sets⟩) := by
    by_cases empty : vector.size = 0
    · have nothing : facts.filter (fun fact => fact.id < vector.size) = [] := by
        simp [empty]
      rw [nothing] at done
      obtain ⟨rfl, rfl⟩ := Prod.mk.inj done
      rw [completeOwnership, if_pos empty]
    · have found : factsInRange facts Id.invalid vector.size
          = facts.filter (fun fact => fact.id < vector.size) := by
        refine List.filter_congr (fun fact _ => decide_eq_decide.mpr ?_)
        simp only [InRange, Id.invalid, Nat.zero_le, true_and, empty, false_or]
      rw [completeOwnership, if_neg empty, (table.backwards vector.size).drain, found,
        Option.map_some, done]
  refine ⟨final, ⟨vector.size, sets⟩, named, ?_, size, listed, completed, ?_⟩
  · simp only [completedSets, isFilled, Option.bind_eq_bind, Option.bind_some, isCollected,
      isFlat, isCompleted]
  · intro fact member below nonempty
    exact isNamed fact (inGraph member below) nonempty

/-- Fact sets enumerate their facts as a table. -/
theorem FactSet.factTable (set : FactSet) (protocol : Cursor.Protocol)
    (lowest : Id.lowest ≤ set.startingId)
    (smaller : ∀ fact ∈ set.facts, ∀ id ∈ references fact.type fact.clause, id < fact.id)
    : FactTable protocol references set.lookup set.facts where
  ascending := set.ascending
  lowest := fun _ member => Nat.le_trans lowest (set.mem_bounds member).1
  smaller := smaller
  backwards := fun _ => set.enumerateBack_yields
    (Or.inr (fun _ _ between => Nat.not_lt_zero _ between.2)) protocol

/-- Fact 1025 refers to fact 1024. -/
def referringFacts : FactSet :=
  ((FactSet.new 1024 Id.invalid_lt_1024).push 1 ⟨[0], []⟩ Pid.one_lt_limit (by decide)).push 1
    ⟨[1], []⟩ Pid.one_lt_limit (by decide)

def keyReferences : References :=
  fun _ clause => if clause.key = [1] then [1024] else []

end Glean.RTS
