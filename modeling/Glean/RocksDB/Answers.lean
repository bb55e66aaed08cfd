import Glean.RocksDB.Commit

/-! What the lookups of a database answer, in terms of the facts committed to it. -/

namespace Glean.Rocks

open Glean.RTS

/-- The lookups by key and by id answer as the list of facts does. -/
structure AnswersFor (db : Database) (facts : List Fact) : Prop where
  idByKey
    : ∀ type key, db.idByKey type key
        = ((facts.find? (fun fact => fact.type = type ∧ fact.key = key)).map Fact.id).getD
            Id.invalid
  typeById
    : ∀ id, db.typeById id
        = ((facts.find? (fun fact => fact.id = id)).map Fact.type).getD Pid.invalid
  factById
    : ∀ id, db.factById id
        = (facts.find? (fun fact => fact.id = id)).map (fun fact => (fact.type, fact.clause))
  seek : ∀ protocol, db.lookup.Seeks protocol {fact | fact ∈ facts}

section

variable {db : Database} {facts : List Fact}

/-- Facts with the same id are the same. -/
theorem Represents.id_unique (represents : Represents db facts) {left right : Fact}
    (leftMember : left ∈ facts) (rightMember : right ∈ facts) (same : left.id = right.id)
    : left = right := by
  have symmetric : Std.Symm (fun left right : Fact => left.id ≠ right.id) :=
    ⟨fun _ _ => Ne.symm⟩
  by_contra different
  exact (represents.ascending.imp ne_of_lt).forall leftMember rightMember different same

/-- A fact is found by its id, and nothing else is. -/
theorem Represents.lookupById_eq (represents : Represents db facts) (id : Id)
    : db.lookupById id = (facts.find? (fun fact => fact.id = id)).map Entity.ofFact := by
  unfold Database.lookupById
  cases found : facts.find? (fun fact => fact.id = id) with
  | none =>
      have absent := List.find?_eq_none.mp found
      split_ifs
      · rfl
      · cases stored : db.columns.entities.get? id with
        | none => rfl
        | some entity =>
            obtain ⟨fact, member, same, -⟩ := (represents.entities id entity).mp stored
            exact (absent fact member (by simpa using same)).elim
  | some fact =>
      have member := List.mem_of_find?_eq_some found
      have same : fact.id = id := by simpa using List.find?_some found
      obtain ⟨low, high⟩ := represents.inside fact member
      rw [same] at low high
      rw [if_neg (not_or.mpr ⟨not_lt.mpr low, not_le.mpr high⟩)]
      exact (represents.entities id _).mpr ⟨fact, member, same, rfl⟩

/-- The early exit of the lookups: no fact of the predicate was committed. -/
theorem Represents.count_eq_zero_iff (represents : Represents db facts) (type : Pid)
    : (db.count type).high = 0 ↔ ∀ fact ∈ facts, fact.type ≠ type := by
  change ((db.stats.get? type).getD .zero).count = 0 ↔ _
  rw [represents.counted, List.countP_eq_zero]
  simp

theorem Represents.idByKey_eq (represents : Represents db facts) (type : Pid) (key : Bytes)
    : db.idByKey type key
      = ((facts.find? (fun fact => fact.type = type ∧ fact.key = key)).map Fact.id).getD
          Id.invalid := by
  have none_of_count : (db.count type).high = 0 →
      facts.find? (fun fact => fact.type = type ∧ fact.key = key) = none := by
    intro empty
    refine List.find?_eq_none.mpr (fun fact member passes => ?_)
    have ofType := (of_decide_eq_true passes).1
    exact (represents.count_eq_zero_iff type).mp empty fact member ofType
  unfold Database.idByKey
  split_ifs with empty
  · rw [none_of_count empty]
    rfl
  · cases found : facts.find? (fun fact => fact.type = type ∧ fact.key = key) with
    | some fact =>
        have member := List.mem_of_find?_eq_some found
        obtain ⟨ofType, sameKey⟩ : fact.type = type ∧ fact.key = key := by
          simpa using List.find?_some found
        have stored := (represents.keys (keyBytes type key) fact.id).mpr
          ⟨fact, member, rfl, by rw [ofType, sameKey]⟩
        rw [stored]
        rfl
    | none =>
        cases stored : db.columns.keys.get? (keyBytes type key) with
        | none => rfl
        | some id =>
            obtain ⟨fact, member, -, same⟩ := (represents.keys _ _).mp stored
            -- Some fact of the predicate exists, so the predicate id is a valid one.
            obtain ⟨other, otherMember, otherType⟩ : ∃ other ∈ facts, other.type = type := by
              by_contra noFact
              exact empty ((represents.count_eq_zero_iff type).mpr
                (fun other isFact ofType => noFact ⟨other, isFact, ofType⟩))
            obtain ⟨sameType, sameKey⟩ := (keyBytes_inj
              (otherType ▸ represents.typed other otherMember)
              (represents.typed fact member)).mp same
            have absent := List.find?_eq_none.mp found fact member
            simp [sameType, sameKey] at absent

theorem Represents.typeById_eq (represents : Represents db facts) (id : Id)
    : db.typeById id
      = ((facts.find? (fun fact => fact.id = id)).map Fact.type).getD Pid.invalid := by
  rw [Database.typeById, represents.lookupById_eq]
  cases facts.find? (fun fact => fact.id = id) <;> rfl

theorem Represents.factById_eq (represents : Represents db facts) (id : Id)
    : db.factById id
      = (facts.find? (fun fact => fact.id = id)).map (fun fact => (fact.type, fact.clause)) := by
  rw [Database.factById, represents.lookupById_eq]
  cases found : facts.find? (fun fact => fact.id = id) with
  | none => rfl
  | some fact => simp [Entity.decompose, Entity.ofFact, Fact.key]

/-- The fact that an entry of the `keys` column refers to. -/
def Database.entryFact (db : Database) (entry : Bytes × Id) : Fact :=
  ((db.columns.entities.get? entry.2).getD ⟨Pid.invalid, 0, []⟩).decompose entry.2

/-- Entries of the `keys` column and facts correspond. -/
theorem Represents.entryFact_mem (represents : Represents db facts) {entry : Bytes × Id}
    (stored : entry ∈ db.columns.keys.entries)
    : db.entryFact entry ∈ facts
      ∧ entry.1 = keyBytes (db.entryFact entry).type (db.entryFact entry).key
      ∧ entry.2 = (db.entryFact entry).id
      ∧ db.lookupById entry.2 = some (.ofFact (db.entryFact entry)) := by
  obtain ⟨fact, member, sameId, sameBytes⟩ :=
    (represents.keys entry.1 entry.2).mp (SortedMap.get?_eq_some_iff.mpr stored)
  have entity := (represents.entities entry.2 _).mpr ⟨fact, member, sameId, rfl⟩
  have same : db.entryFact entry = fact := by
    rw [Database.entryFact, entity, Option.getD_some, ← sameId, Entity.decompose_ofFact]
  rw [same]
  refine ⟨member, sameBytes, sameId.symm, ?_⟩
  have only : facts.find? (fun other => other.id = entry.2) = some fact :=
    find?_eq_some_of_unique member (by simpa using sameId)
      (fun other isFact sameOther => represents.id_unique isFact member
        ((of_decide_eq_true sameOther).trans sameId.symm))
  rw [represents.lookupById_eq, only]
  rfl

/-- The positions of a seek are the entries of the predicate that match. -/
theorem Database.seekCells_eq (db : Database) {type : Pid} (typed : type < Pid.limit)
    (start : Bytes) (prefixSize : Nat)
    : db.seekCells type (keyBytes type start) (8 + prefixSize)
      = (db.columns.keys.entries.filter (fun entry =>
          (keyBytes type start).Matches (8 + prefixSize) entry.1)).map (db.keyCell type) := by
  have front : (keyBytes type start).take (8 + prefixSize)
      = keyBytes type (start.take prefixSize) := keyBytes_take type start prefixSize
  have bounded : lexicographicallyNext ((keyBytes type start).take (8 + prefixSize)) ≠ [] := by
    rw [front]
    exact keyBytes_bounded typed _
  rw [← seekEntries_eq]
  simp [seekCells, seekEntries, bounded]

theorem keyBytes_lt_iff (type : Pid) (left right : Bytes)
    : keyBytes type left < keyBytes type right ↔ left < right := by
  rw [← not_le, ← not_le]
  exact not_congr (append_le_append_iff _ _ _)

/-- A seek yields the facts of the predicate that match, in key order. -/
theorem Represents.seeks (represents : Represents db facts) (protocol : Cursor.Protocol)
    : db.lookup.Seeks protocol {fact | fact ∈ facts} := by
  intro type start prefixSize _
  by_cases empty : (db.count type).high = 0
  · refine ⟨[], ?_, .nil, fun fact => ?_⟩
    · have nothing : db.lookup.seek type start prefixSize = EmptyIterator := by
        simp [Database.lookup, Database.seek, empty]
      rw [nothing]
      exact EmptyIterator.yields protocol
    · have none := (represents.count_eq_zero_iff type).mp empty
      simp only [List.not_mem_nil, false_iff]
      exact fun found => none fact found.1 found.2.1
  · obtain ⟨sample, sampleMember, sampleType⟩ : ∃ fact ∈ facts, fact.type = type := by
      by_contra noFact
      exact empty ((represents.count_eq_zero_iff type).mpr
        (fun fact isFact ofType => noFact ⟨fact, isFact, ofType⟩))
    have typed : type < Pid.limit := sampleType ▸ represents.typed sample sampleMember
    have range : db.lookup.seek type start prefixSize
        = rangeIterator ((db.columns.keys.entries.filter (fun entry =>
            (keyBytes type start).Matches (8 + prefixSize) entry.1)).map (db.keyCell type)) := by
      simp [Database.lookup, Database.seek, empty, db.seekCells_eq typed]
    -- Each position stands for a fact of the predicate.
    have position {entry : Bytes × Id}
        (inRange : entry ∈ db.columns.keys.entries.filter (fun entry =>
          (keyBytes type start).Matches (8 + prefixSize) entry.1))
        : db.entryFact entry ∈ facts ∧ (db.entryFact entry).type = type
          ∧ start.Matches prefixSize (db.entryFact entry).key
          ∧ entry.1 = keyBytes type (db.entryFact entry).key
          ∧ entry.2 = (db.entryFact entry).id
          ∧ db.lookupById entry.2 = some (.ofFact (db.entryFact entry)) := by
      obtain ⟨stored, matching⟩ := List.mem_filter.mp inRange
      obtain ⟨member, sameBytes, sameId, entity⟩ := represents.entryFact_mem stored
      have matches_key := of_decide_eq_true matching
      rw [sameBytes] at matches_key
      obtain ⟨ofType, matchesStart⟩ :=
        (keyBytes_matches typed (represents.typed _ member)).mp matches_key
      exact ⟨member, ofType, matchesStart, ofType ▸ sameBytes, sameId, entity⟩
    refine ⟨(db.columns.keys.entries.filter (fun entry =>
      (keyBytes type start).Matches (8 + prefixSize) entry.1)).map db.entryFact, ?_, ?_, ?_⟩
    · rw [range]
      refine rangeIterator.yields protocol ?_
      rw [List.forall₂_map_left_iff, List.forall₂_map_right_iff, List.forall₂_same]
      intro entry inRange
      obtain ⟨-, ofType, -, sameBytes, sameId, entity⟩ := position inRange
      refine ⟨⟨sameId, ofType.symm, ?_⟩, ?_⟩
      · change entry.1.drop 8 = _
        rw [sameBytes]
        exact List.drop_left' (by simp)
      · change (db.lookupById entry.2).map (Entity.decompose entry.2) = _
        rw [entity, Option.map_some, sameId, Entity.decompose_ofFact]
    · refine List.pairwise_map.mpr ((db.columns.keys.sorted.filter _).imp_of_mem ?_)
      intro left right leftRange rightRange less
      obtain ⟨-, -, -, leftSame, -⟩ := position leftRange
      obtain ⟨-, -, -, rightSame, -⟩ := position rightRange
      rw [leftSame, rightSame] at less
      exact (keyBytes_lt_iff type _ _).mp less
    · intro fact
      rw [List.mem_map]
      constructor
      · intro found
        obtain ⟨entry, inRange, rfl⟩ := found
        obtain ⟨member, ofType, matching, -⟩ := position inRange
        exact ⟨member, ofType, matching⟩
      · intro found
        obtain ⟨member, ofType, matching⟩ := found
        have stored := SortedMap.get?_eq_some_iff.mp
          ((represents.keys (keyBytes type fact.key) fact.id).mpr
            ⟨fact, member, rfl, by rw [ofType]⟩)
        have inRange : (keyBytes type fact.key, fact.id)
            ∈ db.columns.keys.entries.filter (fun entry =>
              (keyBytes type start).Matches (8 + prefixSize) entry.1) :=
          List.mem_filter.mpr ⟨stored,
            decide_eq_true ((keyBytes_matches typed typed).mpr ⟨rfl, matching⟩)⟩
        refine ⟨_, inRange, ?_⟩
        obtain ⟨entryMember, -, -, -, sameId, -⟩ := position inRange
        exact represents.id_unique entryMember member sameId.symm

theorem Represents.answersFor (represents : Represents db facts) : AnswersFor db facts where
  idByKey := represents.idByKey_eq
  typeById := represents.typeById_eq
  factById := represents.factById_eq
  seek := represents.seeks

end

/-- The range of every prefix is exact, and the seeks of a set of facts and of the `keys` column
for one predicate, start and prefix visit exactly the keys with the prefix that are not below
the start.
-/
structure PrefixRangesExact (set : FactSet) (db : Database) (type : Pid) (start : Bytes)
    (prefixSize : Nat)
    : Prop where
  between
    : ∀ range key : Bytes, range <+: key
        ↔ range ≤ key
          ∧ (lexicographicallyNext range = [] ∨ key < lexicographicallyNext range)
  factSet
    : ∀ protocol, ∃ answer, (set.seek type start prefixSize).Yields protocol answer
        ∧ IsSeek set.members type start prefixSize answer
  column
    : db.seekCells type (keyBytes type start) (8 + prefixSize)
      = (db.columns.keys.entries.filter (fun entry =>
          (keyBytes type start).Matches (8 + prefixSize) entry.1)).map (db.keyCell type)

/-- The positions of a seek are the entries that match, unless its bound is empty and some
entry matches.
-/
theorem Database.seekCells_eq_iff (db : Database) (type : Pid) (start : Bytes) (size : Nat)
    : db.seekCells type start size
        = (db.columns.keys.entries.filter (fun entry => start.Matches size entry.1)).map
            (db.keyCell type)
      ↔ lexicographicallyNext (start.take size) ≠ []
        ∨ ∀ entry ∈ db.columns.keys.entries, ¬ start.Matches size entry.1 := by
  by_cases unbounded : lexicographicallyNext (start.take size) = []
  · have nothing : db.seekCells type start size = [] := by
      have outside (bytes : Bytes) : ¬ bytes < [] := List.not_lt_nil bytes
      simp only [seekCells, unbounded, outside, decide_false, List.map_eq_nil_iff]
      cases List.dropWhile (fun entry => decide (entry.1 < start)) db.columns.keys.entries with
      | nil => rfl
      | cons entry rest => rfl
    rw [nothing, eq_comm, List.map_eq_nil_iff, List.filter_eq_nil_iff]
    simp [unbounded]
  · rw [← seekEntries_eq]
    simp [seekCells, seekEntries, unbounded]

/-- A database with one key, of the predicate with the largest id. -/
def largestPid : Database :=
  { Database.created 1024 3 with
    columns := {
      Columns.empty with
        keys := SortedMap.empty.put (keyBytes (2 ^ 64 - 1) [7]) 1024 } }

end Glean.Rocks
