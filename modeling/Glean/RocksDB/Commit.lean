import Glean.RocksDB.KeyBytes

/-! Committing facts (`DatabaseImpl::commit`) and what a database stores about the facts that
were committed to it.
-/

namespace Glean.Rocks

open Glean.RTS

/-- A `Put` of a commit's write batch. -/
inductive Put where
  | entity (id : Id) (entity : Entity)
  | key (bytes : Bytes) (id : Id)
  | nextId (id : Id)
  | stats (type : Pid) (stats : MemoryStats)

def Columns.put (columns : Columns) : Put → Columns
  | .entity id entity => { columns with entities := columns.entities.put id entity }
  | .key bytes id => { columns with keys := columns.keys.put bytes id }
  | .nextId id => { columns with admin := { columns.admin with nextId := some id } }
  | .stats type stats => { columns with stats := columns.stats.put type stats }

/-- `DB::Write`: all puts of a batch or none. -/
def Columns.write (columns : Columns) (batch : List Put) : Columns :=
  batch.foldl Columns.put columns

/-- The status text of each rocksdb call of an operation; `none` is success. -/
abbrev Status := Nat → Option String

/-- `check` of a number of calls, one after the other. -/
def checkCalls (status : Status) (calls : Nat) : Except String Unit :=
  match (List.range calls).findSome? status with
  | some text => .error ("rocksdb: " ++ text)
  | none => .ok ()

/-- The size of the two puts of a fact. -/
def factMemory (version : Int) (fact : Fact) : Nat :=
  (if version ≤ 2 then 8 else natSize fact.id)
    + (packedSize fact.type + packedSize fact.key.length + fact.clause.bytes.length)
    + (8 + fact.key.length) + 8

def factPuts (fact : Fact) : List Put :=
  [.entity fact.id (.ofFact fact), .key (keyBytes fact.type fact.key) fact.id]

/-- `new_stats[fact.type] += MemoryStats::one(mem)` -/
def addFactStats (version : Int) (stats : SortedMap Pid MemoryStats) (fact : Fact)
    : SortedMap Pid MemoryStats :=
  stats.put fact.type
    (((stats.get? fact.type).getD .zero).add (.one (factMemory version fact)))

/-- The statistics that changed. -/
def statsPuts (old new : SortedMap Pid MemoryStats) : List Put :=
  (new.entries.filter (fun entry => old.get? entry.1 ≠ some entry.2)).map
    (fun entry => .stats entry.1 entry.2)

namespace Database

def newStats (db : Database) (facts : FactSet) : SortedMap Pid MemoryStats :=
  facts.facts.foldl (addFactStats db.version) db.stats

def commitBatch (db : Database) (facts : FactSet) : List Put :=
  facts.facts.flatMap factPuts ++ .nextId facts.firstFreeId
    :: statsPuts db.stats (db.newStats facts)

/-- `DatabaseImpl::commit`. The members in memory change after the write has succeeded. -/
def commit (db : Database) (status : Status) (facts : FactSet) : Except String Unit × Database :=
  if facts.facts = [] then
    (.ok (), db)
  else if facts.startingId < db.nextId then
    (.error ("batch inserted out of sequence (" ++ toString facts.startingId ++ " < "
      ++ toString db.nextId ++ ")"), db)
  else
    let batch := db.commitBatch facts
    -- One call for each put, and the write.
    match checkCalls status (batch.length + 1) with
    | .error text => (.error text, db)
    | .ok _ =>
        (.ok (),
          { db with
              columns := db.columns.write batch
              nextId := facts.firstFreeId
              stats := db.newStats facts })

end Database

/-- The columns and the members in memory say the same about the committed facts. -/
structure Represents (db : Database) (facts : List Fact) : Prop where
  positive : Id.invalid < db.startingId
  ascending : facts.Pairwise (fun left right => left.id < right.id)
  distinct : facts.Pairwise (fun left right => left.type = right.type → left.key ≠ right.key)
  inside : ∀ fact ∈ facts, db.startingId ≤ fact.id ∧ fact.id < db.nextId
  typed : ∀ fact ∈ facts, fact.type < Pid.limit
  entities
    : ∀ id entity, db.columns.entities.get? id = some entity
        ↔ ∃ fact ∈ facts, fact.id = id ∧ entity = .ofFact fact
  keys
    : ∀ bytes id, db.columns.keys.get? bytes = some id
        ↔ ∃ fact ∈ facts, fact.id = id ∧ bytes = keyBytes fact.type fact.key
  admin : db.columns.admin = ⟨some db.nextId, some db.version, some db.startingId⟩
  mirrored : db.columns.stats = db.stats
  counted
    : ∀ type, ((db.stats.get? type).getD .zero).count
        = facts.countP (fun fact => fact.type = type)
  next : db.nextId = (facts.getLast?.map (fun fact => fact.id + 1)).getD db.startingId

/-- The puts of a list of facts, by induction on the list. -/
theorem write_factPuts (columns : Columns) (facts : List Fact)
    : columns.write (facts.flatMap factPuts)
      = { columns with
            entities :=
              columns.entities.putAll (facts.map (fun fact => (fact.id, Entity.ofFact fact)))
            keys :=
              columns.keys.putAll
                (facts.map (fun fact => (keyBytes fact.type fact.key, fact.id))) } := by
  induction facts generalizing columns with
  | nil => rfl
  | cons fact rest ih =>
      rw [List.flatMap_cons, Columns.write, List.foldl_append]
      exact ih _

theorem write_statsPuts (columns : Columns) (entries : List (Pid × MemoryStats))
    : columns.write (entries.map (fun entry => .stats entry.1 entry.2))
      = { columns with stats := columns.stats.putAll entries } := by
  induction entries generalizing columns with
  | nil => rfl
  | cons entry rest ih => exact ih _

/-- Writing the statistics that changed brings the column up to date, if the new ones cover
all predicates of the old ones.
-/
theorem putAll_changed (old new : SortedMap Pid MemoryStats)
    (covers : ∀ type, new.get? type = none → old.get? type = none)
    : old.putAll (new.entries.filter (fun entry => old.get? entry.1 ≠ some entry.2)) = new := by
  have distinct : ((new.entries.filter
      (fun entry => old.get? entry.1 ≠ some entry.2)).map Prod.fst).Nodup :=
    List.pairwise_map.mpr ((new.sorted.filter _).imp ne_of_lt)
  refine SortedMap.ext_get? (fun type => ?_)
  cases stored : new.get? type with
  | none =>
      rw [SortedMap.get?_putAll_of_not_mem, covers type stored]
      intro value member
      exact SortedMap.get?_eq_none_iff.mp stored value (List.mem_filter.mp member).1
  | some stats =>
      have listed := SortedMap.get?_eq_some_iff.mp stored
      by_cases unchanged : old.get? type = some stats
      · rw [SortedMap.get?_putAll_of_not_mem, unchanged]
        intro value member
        obtain ⟨known, changed⟩ := List.mem_filter.mp member
        have same := new.entry_unique known listed
        simp [same, unchanged] at changed
      · exact SortedMap.get?_putAll_of_mem _ _ distinct
          (List.mem_filter.mpr ⟨listed, by simpa using unchanged⟩)

/-- Counting facts into the statistics adds their number to each predicate. -/
theorem foldl_addFactStats_count (version : Int) (facts : List Fact)
    (stats : SortedMap Pid MemoryStats) (type : Pid)
    : (((facts.foldl (addFactStats version) stats).get? type).getD .zero).count
      = ((stats.get? type).getD .zero).count
        + facts.countP (fun fact => fact.type = type) := by
  induction facts generalizing stats with
  | nil => rfl
  | cons fact rest ih =>
      rw [List.foldl_cons, ih, addFactStats, SortedMap.get?_put]
      by_cases same : type = fact.type
      · simp [same, MemoryStats.add, MemoryStats.one]
        omega
      · simp [same, Ne.symm same]

/-- Counting facts drops no predicate. -/
theorem foldl_addFactStats_covers (version : Int) (facts : List Fact)
    (stats : SortedMap Pid MemoryStats) (type : Pid)
    (missing : (facts.foldl (addFactStats version) stats).get? type = none)
    : stats.get? type = none := by
  induction facts generalizing stats with
  | nil => exact missing
  | cons fact rest ih =>
      have before := ih _ missing
      rw [addFactStats, SortedMap.get?_put] at before
      split_ifs at before
      exact before

/-- The columns after a commit. -/
theorem Database.write_commitBatch (db : Database) (facts : FactSet)
    (mirrored : db.columns.stats = db.stats)
    : db.columns.write (db.commitBatch facts)
      = { db.columns with
            admin := { db.columns.admin with nextId := some facts.firstFreeId }
            entities :=
              db.columns.entities.putAll
                (facts.facts.map (fun fact => (fact.id, Entity.ofFact fact)))
            keys :=
              db.columns.keys.putAll
                (facts.facts.map (fun fact => (keyBytes fact.type fact.key, fact.id)))
            stats := db.newStats facts } := by
  have covers := foldl_addFactStats_covers db.version facts.facts db.stats
  have facts_written := write_factPuts db.columns facts.facts
  unfold Columns.write at facts_written
  rw [Columns.write, commitBatch, List.foldl_append, facts_written, List.foldl_cons]
  have stats_written := write_statsPuts
    (Columns.put { db.columns with
      entities := db.columns.entities.putAll
        (facts.facts.map (fun fact => (fact.id, Entity.ofFact fact)))
      keys := db.columns.keys.putAll
        (facts.facts.map (fun fact => (keyBytes fact.type fact.key, fact.id))) }
      (.nextId facts.firstFreeId))
    ((db.newStats facts).entries.filter (fun entry => db.stats.get? entry.1 ≠ some entry.2))
  unfold Columns.write at stats_written
  rw [statsPuts, stats_written]
  dsimp only [Columns.put]
  rw [mirrored, putAll_changed db.stats (db.newStats facts) covers]

/-- The database after a commit that wrote its batch. -/
def Database.committed (db : Database) (facts : FactSet) : Database :=
  { db with
      columns := db.columns.write (db.commitBatch facts)
      nextId := facts.firstFreeId
      stats := db.newStats facts }

/-- What a commit can do: nothing, fail without effect, or write all of the facts. -/
theorem Database.commit_cases (db : Database) (status : Status) (facts : FactSet)
    : (facts.facts = [] ∧ db.commit status facts = (.ok (), db))
      ∨ (∃ text, db.commit status facts = (.error text, db))
      ∨ (facts.facts ≠ [] ∧ db.nextId ≤ facts.startingId
          ∧ db.commit status facts = (.ok (), db.committed facts)) := by
  unfold commit
  split_ifs with empty early
  · exact Or.inl ⟨empty, rfl⟩
  · exact Or.inr (Or.inl ⟨_, rfl⟩)
  · dsimp only
    split
    · exact Or.inr (Or.inl ⟨_, rfl⟩)
    · exact Or.inr (Or.inr ⟨empty, not_lt.mp early, rfl⟩)

/-- A failing commit has no effect at all. -/
theorem Database.commit_error {db : Database} {status : Status} {facts : FactSet}
    {text : String} (failed : (db.commit status facts).1 = .error text)
    : (db.commit status facts).2 = db := by
  rcases db.commit_cases status facts with ⟨-, same⟩ | ⟨_, same⟩ | ⟨-, -, written⟩
  · rw [same]
  · rw [same]
  · simp [written] at failed

/-- The facts of the set have predicate and key pairs that are not in the list yet. -/
def FreshKeys (facts : FactSet) (committed : List Fact) : Prop :=
  ∀ fact ∈ facts.facts, ∀ old ∈ committed, fact.type = old.type → fact.key ≠ old.key

section CommitStep

variable {db : Database} {committed : List Fact} {facts : FactSet}

/-- Committed ids lie below the new ones. -/
theorem Represents.id_lt (represents : Represents db committed)
    (inOrder : db.nextId ≤ facts.startingId) {old new : Fact} (oldMember : old ∈ committed)
    (newMember : new ∈ facts.facts)
    : old.id < new.id :=
  lt_of_lt_of_le (represents.inside old oldMember).2
    (inOrder.trans (facts.mem_bounds newMember).1)

theorem Represents.commit_entities (represents : Represents db committed)
    (inOrder : db.nextId ≤ facts.startingId) (id : Id) (entity : Entity)
    : (db.columns.entities.putAll
          (facts.facts.map (fun fact => (fact.id, Entity.ofFact fact)))).get? id = some entity
      ↔ ∃ fact ∈ committed ++ facts.facts, fact.id = id ∧ entity = .ofFact fact := by
  have distinct : ((facts.facts.map (fun fact => (fact.id, Entity.ofFact fact))).map
      Prod.fst).Nodup := by
    rw [List.map_map]
    exact List.pairwise_map.mpr (facts.ascending.imp ne_of_lt)
  have fresh : ∀ entry ∈ facts.facts.map (fun fact => (fact.id, Entity.ofFact fact)),
      db.columns.entities.get? entry.1 = none := by
    intro entry member
    obtain ⟨fact, isNew, rfl⟩ := List.mem_map.mp member
    cases stored : db.columns.entities.get? fact.id with
    | none => rfl
    | some entity =>
        obtain ⟨old, isOld, same, -⟩ := (represents.entities _ _).mp stored
        exact absurd (represents.id_lt inOrder isOld isNew) (by rw [same]; exact lt_irrefl _)
  rw [SortedMap.get?_putAll_iff _ distinct fresh, represents.entities]
  simp only [List.mem_append, List.mem_map, Prod.mk.injEq]
  constructor
  · intro stored
    rcases stored with ⟨fact, isOld, rest⟩ | ⟨fact, isNew, sameId, sameEntity⟩
    · exact ⟨fact, Or.inl isOld, rest⟩
    · exact ⟨fact, Or.inr isNew, sameId, sameEntity.symm⟩
  · intro stored
    obtain ⟨fact, isOld | isNew, sameId, sameEntity⟩ := stored
    · exact Or.inl ⟨fact, isOld, sameId, sameEntity⟩
    · exact Or.inr ⟨fact, isNew, sameId, sameEntity.symm⟩

theorem Represents.commit_keys (represents : Represents db committed)
    (freshKeys : FreshKeys facts committed) (bytes : Bytes) (id : Id)
    : (db.columns.keys.putAll
          (facts.facts.map (fun fact => (keyBytes fact.type fact.key, fact.id)))).get? bytes
        = some id
      ↔ ∃ fact ∈ committed ++ facts.facts,
          fact.id = id ∧ bytes = keyBytes fact.type fact.key := by
  have distinct : ((facts.facts.map (fun fact => (keyBytes fact.type fact.key, fact.id))).map
      Prod.fst).Nodup := by
    rw [List.map_map]
    refine List.pairwise_map.mpr (facts.distinctKeys.imp_of_mem ?_)
    intro left right leftMember rightMember different same
    obtain ⟨sameType, sameKey⟩ :=
      (keyBytes_inj (facts.typed left leftMember) (facts.typed right rightMember)).mp same
    exact different sameType sameKey
  have fresh : ∀ entry ∈ facts.facts.map (fun fact => (keyBytes fact.type fact.key, fact.id)),
      db.columns.keys.get? entry.1 = none := by
    intro entry member
    obtain ⟨fact, isNew, rfl⟩ := List.mem_map.mp member
    cases stored : db.columns.keys.get? (keyBytes fact.type fact.key) with
    | none => rfl
    | some id =>
        obtain ⟨old, isOld, -, same⟩ := (represents.keys _ _).mp stored
        obtain ⟨sameType, sameKey⟩ :=
          (keyBytes_inj (facts.typed fact isNew) (represents.typed old isOld)).mp same
        exact (freshKeys fact isNew old isOld sameType sameKey).elim
  rw [SortedMap.get?_putAll_iff _ distinct fresh, represents.keys]
  simp only [List.mem_append, List.mem_map, Prod.mk.injEq]
  constructor
  · intro stored
    rcases stored with ⟨fact, isOld, rest⟩ | ⟨fact, isNew, sameBytes, sameId⟩
    · exact ⟨fact, Or.inl isOld, rest⟩
    · exact ⟨fact, Or.inr isNew, sameId, sameBytes.symm⟩
  · intro stored
    obtain ⟨fact, isOld | isNew, sameId, sameBytes⟩ := stored
    · exact Or.inl ⟨fact, isOld, sameId, sameBytes⟩
    · exact Or.inr ⟨fact, isNew, sameBytes.symm, sameId⟩

/-- A commit that writes its batch adds the facts of the set. -/
theorem Represents.commit (represents : Represents db committed)
    (nonempty : facts.facts ≠ []) (inOrder : db.nextId ≤ facts.startingId)
    (freshKeys : FreshKeys facts committed)
    : Represents (db.committed facts) (committed ++ facts.facts) := by
  have columns := db.write_commitBatch facts represents.mirrored
  have started : db.startingId ≤ facts.startingId := by
    refine le_trans ?_ inOrder
    rw [represents.next]
    cases last : committed.getLast? with
    | none => exact le_refl _
    | some fact =>
        exact Nat.le_succ_of_le (represents.inside fact (List.mem_of_getLast? last)).1
  have grown : db.nextId ≤ facts.firstFreeId := inOrder.trans (Nat.le_add_right _ _)
  exact {
    positive := represents.positive
    ascending := List.pairwise_append.mpr ⟨represents.ascending, facts.ascending,
      fun old isOld new isNew => represents.id_lt inOrder isOld isNew⟩
    distinct := List.pairwise_append.mpr ⟨represents.distinct, facts.distinctKeys,
      fun old isOld new isNew sameType sameKey =>
        freshKeys new isNew old isOld sameType.symm sameKey.symm⟩
    inside := by
      intro fact member
      rcases List.mem_append.mp member with isOld | isNew
      · exact ⟨(represents.inside fact isOld).1,
          lt_of_lt_of_le (represents.inside fact isOld).2 grown⟩
      · exact ⟨started.trans (facts.mem_bounds isNew).1, (facts.mem_bounds isNew).2⟩
    typed := by
      intro fact member
      rcases List.mem_append.mp member with isOld | isNew
      · exact represents.typed fact isOld
      · exact facts.typed fact isNew
    entities := by
      rw [Database.committed, columns]
      exact represents.commit_entities inOrder
    keys := by
      rw [Database.committed, columns]
      exact represents.commit_keys freshKeys
    admin := by
      rw [Database.committed, columns]
      simp [represents.admin]
    mirrored := by
      rw [Database.committed, columns]
    counted := by
      intro type
      rw [List.countP_append, ← represents.counted]
      exact foldl_addFactStats_count db.version facts.facts db.stats type
    next := by
      rw [List.getLast?_append_of_ne_nil _ nonempty]
      cases last : facts.facts.getLast? with
      | none => exact (nonempty (List.getLast?_eq_none_iff.mp last)).elim
      | some fact => exact (facts.getLast?_id last).symm }

end CommitStep

end Glean.Rocks
