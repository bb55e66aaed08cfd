import Glean.RocksDB.Answers
import Glean.RTS.Enumerate

/-! Enumeration of a database by id: both directions yield the committed facts of every
range, for legacy databases too.
-/

namespace Glean.Rocks

open Glean.RTS

/-- The clamped bounds select the same stored ids as the requested range. -/
theorem forwardBounds_spec {first upto startingId nextId start bound id : Id}
    (positive : Id.invalid < startingId)
    (bounds : Database.forwardBounds first upto startingId nextId = (start, bound))
    (low : startingId ≤ id) (high : id < nextId)
    : if start = Id.invalid then
        ¬ InRange first upto id
      else
        (start ≤ id ∧ id < bound ↔ InRange first upto id) := by
  unfold Database.forwardBounds at bounds
  simp only [InRange, Id.invalid] at *
  split_ifs at bounds <;> grind

theorem backwardBounds_spec {first downto startingId nextId start bound id : Id}
    (positive : Id.invalid < startingId)
    (bounds : Database.backwardBounds first downto startingId nextId = (start, bound))
    (low : startingId ≤ id) (high : id < nextId)
    : if start = Id.invalid then
        ¬ InRange downto first id
      else
        (bound ≤ id ∧ id ≤ start ↔ InRange downto first id) := by
  unfold Database.backwardBounds at bounds
  simp only [InRange, Id.invalid] at *
  split_ifs at bounds <;> grind

section

variable {db : Database} {facts : List Fact}

/-- The `entities` column lists the facts by id. -/
theorem Represents.entities_entries (represents : Represents db facts)
    : db.columns.entities.entries = facts.map (fun fact => (fact.id, Entity.ofFact fact)) := by
  refine eq_of_ascending db.columns.entities.sorted
    (List.pairwise_map.mpr represents.ascending) ?_
  intro entry
  rw [← SortedMap.get?_eq_some_iff, represents.entities, List.mem_map]
  constructor
  · intro stored
    obtain ⟨fact, member, sameId, sameEntity⟩ := stored
    exact ⟨fact, member, Prod.ext sameId sameEntity.symm⟩
  · intro listed
    obtain ⟨fact, member, rfl⟩ := listed
    exact ⟨fact, member, rfl, rfl⟩

/-- A position of the column shows its fact. -/
theorem entityCell_ofFact (fact : Fact)
    : Database.entityCell (fact.id, Entity.ofFact fact) = Cell.ofFact fact := by
  simp [Database.entityCell]

theorem Represents.forwardCells_eq (represents : Represents db facts) (start bound : Id)
    : db.forwardCells start bound
      = (facts.filter (fun fact => start ≤ fact.id ∧ fact.id < bound)).map Cell.ofFact := by
  unfold Database.forwardCells
  rw [represents.entities_entries, List.dropWhile_map, List.takeWhile_map, List.map_map]
  change ((facts.dropWhile (fun fact => fact.id < start)).takeWhile
    (fun fact => fact.id < bound)).map _ = _
  rw [takeWhile_dropWhile_eq_filter]
  · have sameFilter : facts.filter
          (fun fact => !decide (fact.id < start) && decide (fact.id < bound))
        = facts.filter (fun fact => start ≤ fact.id ∧ fact.id < bound) := by
      refine List.filter_congr (fun fact _ => ?_)
      rw [Bool.eq_iff_iff]
      simp
    rw [sameFilter]
    exact List.map_congr_left (fun fact _ => entityCell_ofFact fact)
  · refine represents.ascending.imp (fun less below => ?_)
    simpa using less.trans (by simpa using below)
  · refine represents.ascending.imp (fun less below => ?_)
    simpa using less.trans (by simpa using below)

theorem Represents.backwardCells_eq (represents : Represents db facts) (start bound : Id)
    : db.backwardCells start bound
      = (facts.filter (fun fact => bound ≤ fact.id ∧ fact.id ≤ start)).reverse.map
          Cell.ofFact := by
  have descending : facts.reverse.Pairwise (fun left right => right.id < left.id) :=
    List.pairwise_reverse.mpr represents.ascending
  unfold Database.backwardCells
  rw [represents.entities_entries, ← List.map_reverse, List.dropWhile_map, List.takeWhile_map,
    List.map_map]
  change ((facts.reverse.dropWhile (fun fact => start < fact.id)).takeWhile
    (fun fact => bound ≤ fact.id)).map _ = _
  rw [takeWhile_dropWhile_eq_filter]
  · have sameFilter : facts.reverse.filter
          (fun fact => !decide (start < fact.id) && decide (bound ≤ fact.id))
        = (facts.filter (fun fact => bound ≤ fact.id ∧ fact.id ≤ start)).reverse := by
      rw [← List.filter_reverse]
      refine List.filter_congr (fun fact _ => ?_)
      rw [Bool.eq_iff_iff]
      simp [and_comm]
    rw [sameFilter]
    exact List.map_congr_left (fun fact _ => entityCell_ofFact fact)
  · refine descending.imp (fun less above => ?_)
    simpa using lt_trans (by simpa using above) less
  · refine descending.imp (fun less above => ?_)
    simpa using le_trans (by simpa using above) less.le

/-- Looking up each id of an ascending list finds the facts with these ids. -/
theorem Represents.legacyCells_eq (represents : Represents db facts) {ids : List Id}
    (ascending : ids.Pairwise (· < ·))
    : db.legacyCells ids = (facts.filter (fun fact => fact.id ∈ ids)).map Cell.ofFact := by
  have visited : ids.filterMap (fun id => facts.find? (fun fact => fact.id = id))
      = facts.filter (fun fact => fact.id ∈ ids) := by
    have found {id : Id} {fact : Fact}
        : facts.find? (fun fact => fact.id = id) = some fact ↔ fact ∈ facts ∧ fact.id = id := by
      constructor
      · intro located
        exact ⟨List.mem_of_find?_eq_some located, by simpa using List.find?_some located⟩
      · intro located
        refine find?_eq_some_of_unique located.1 (by simpa using located.2) ?_
        intro other member same
        exact represents.id_unique member located.1
          ((of_decide_eq_true same).trans located.2.symm)
    refine @eq_of_ascending Fact Id _ Fact.id _ _ ?_ (represents.ascending.filter _) ?_
    · refine List.Pairwise.filterMap _ ?_ ascending
      intro left right less leftFact leftFound rightFact rightFound
      rw [(found.mp leftFound).2, (found.mp rightFound).2]
      exact less
    · intro fact
      rw [List.mem_filterMap, List.mem_filter]
      constructor
      · intro located
        obtain ⟨id, listed, here⟩ := located
        obtain ⟨member, rfl⟩ := found.mp here
        exact ⟨member, by simpa using listed⟩
      · intro located
        exact ⟨fact.id, by simpa using located.2, found.mpr ⟨located.1, rfl⟩⟩
  rw [← visited, List.map_filterMap]
  unfold Database.legacyCells
  refine List.filterMap_congr (fun id _ => ?_)
  rw [represents.lookupById_eq, Option.map_map]
  cases located : facts.find? (fun fact => fact.id = id) with
  | none => rfl
  | some fact =>
      have same : fact.id = id := by simpa using List.find?_some located
      simp [← same, entityCell_ofFact]

/-- Positions that hold the facts of the range yield them. -/
theorem yields_of_filter {test : Fact → Bool} {first upto : Id}
    (selects : ∀ fact ∈ facts, test fact = true ↔ InRange first upto fact.id)
    (protocol : Cursor.Protocol)
    : (rangeIterator ((facts.filter test).map Cell.ofFact)).Yields protocol
          (factsInRange facts first upto)
      ∧ (rangeIterator ((facts.filter test).reverse.map Cell.ofFact)).Yields protocol
          (factsInRange facts first upto).reverse := by
  have same : facts.filter test = factsInRange facts first upto := by
    refine List.filter_congr (fun fact member => ?_)
    rw [Bool.eq_iff_iff, selects fact member, decide_eq_true_eq]
  rw [same]
  exact ⟨rangeIterator.yields protocol (Cell.holds_map_ofFact _),
    rangeIterator.yields protocol (Cell.holds_map_ofFact _)⟩

theorem Represents.enumerate_yields (represents : Represents db facts) (first upto : Id)
    (protocol : Cursor.Protocol)
    : (db.enumerate first upto).Yields protocol (factsInRange facts first upto) := by
  rcases bounds : Database.forwardBounds first upto db.startingId db.nextId with ⟨start, bound⟩
  have spec (fact : Fact) (member : fact ∈ facts) :=
    forwardBounds_spec represents.positive bounds (represents.inside fact member).1
      (represents.inside fact member).2
  unfold Database.enumerate
  simp only [bounds]
  split_ifs with empty legacy
  · rw [factsInRange_eq_nil (fun fact member => by simpa [empty] using spec fact member)]
    exact EmptyIterator.yields protocol
  · rw [represents.legacyCells_eq List.pairwise_lt_range']
    refine (yields_of_filter (fun fact member => ?_) protocol).1
    have selects := spec fact member
    rw [if_neg empty] at selects
    rw [← selects, decide_eq_true_eq, List.mem_range'_1]
    grind
  · rw [represents.forwardCells_eq]
    refine (yields_of_filter (fun fact member => ?_) protocol).1
    have selects := spec fact member
    rw [if_neg empty] at selects
    rw [← selects, decide_eq_true_eq]

theorem Represents.enumerateBack_yields (represents : Represents db facts) (first upto : Id)
    (protocol : Cursor.Protocol)
    : (db.enumerateBack upto first).Yields protocol (factsInRange facts first upto).reverse := by
  rcases bounds : Database.backwardBounds upto first db.startingId db.nextId with ⟨start, bound⟩
  have spec (fact : Fact) (member : fact ∈ facts) :=
    backwardBounds_spec represents.positive bounds (represents.inside fact member).1
      (represents.inside fact member).2
  unfold Database.enumerateBack
  simp only [bounds]
  split_ifs with empty legacy
  · rw [factsInRange_eq_nil (fun fact member => by simpa [empty] using spec fact member)]
    exact EmptyIterator.yields protocol
  · have cells : db.legacyCells (List.range' bound (start + 1 - bound)).reverse
        = (db.legacyCells (List.range' bound (start + 1 - bound))).reverse := by
      simp [Database.legacyCells, List.filterMap_reverse]
    rw [cells, represents.legacyCells_eq List.pairwise_lt_range', ← List.map_reverse]
    refine (yields_of_filter (fun fact member => ?_) protocol).2
    have selects := spec fact member
    rw [if_neg empty] at selects
    rw [← selects, decide_eq_true_eq, List.mem_range'_1]
    grind
  · rw [represents.backwardCells_eq]
    refine (yields_of_filter (fun fact member => ?_) protocol).2
    have selects := spec fact member
    rw [if_neg empty] at selects
    rw [← selects, decide_eq_true_eq]

end

end Glean.Rocks
