import Glean.RTS.FactSet

/-! Prefix seeks of snapshots and stacked lookups: which facts they yield and in which order.
A snapshot ends its seek at the first fact from the boundary up, so it misses the facts below
the boundary that come later in key order.
-/

namespace Glean.RTS

/-- The iterator answers a prefix seek for a set of facts. -/
def FactIterator.AnswersSeek (protocol : Cursor.Protocol) (iter : FactIterator)
    (facts : Set Fact) (type : Pid) (start : Bytes) (prefixSize : Nat)
    : Prop :=
  ∃ answer, iter.Yields protocol answer ∧ IsSeek facts type start prefixSize answer

/-- The facts of a set with ids below a boundary. -/
def Below (boundary : Id) (facts : Set Fact) : Set Fact :=
  fun fact => fact ∈ facts ∧ fact.id < boundary

/-- Among the facts a seek looks for, no fact from the boundary up comes before one below it
in key order.
-/
def BoundaryOrdered (facts : Set Fact) (boundary : Id) (type : Pid) (start : Bytes)
    (prefixSize : Nat)
    : Prop :=
  ∀ early ∈ facts, ∀ late ∈ facts,
    early.type = type → late.type = type →
      start.Matches prefixSize early.key → start.Matches prefixSize late.key →
        early.key < late.key → late.id < boundary → early.id < boundary

section

variable {facts : Set Fact} {type : Pid} {start : Bytes} {prefixSize : Nat}
  {answer : List Fact}

/-- Skipping the facts from the boundary up answers the seek for the facts below it. -/
theorem IsSeek.filter_below (isSeek : IsSeek facts type start prefixSize answer)
    (boundary : Id)
    : IsSeek (Below boundary facts) type start prefixSize
        (answer.filter (fun fact => fact.id < boundary)) := by
  refine ⟨isSeek.ascending.filter _, fun fact => ?_⟩
  rw [List.mem_filter, isSeek.mem_iff fact, decide_eq_true_eq]
  constructor
  · intro found
    exact ⟨⟨found.1.1, found.2⟩, found.1.2⟩
  · intro found
    exact ⟨⟨found.1.1, found.2⟩, found.1.2⟩

/-- Stopping at the boundary loses nothing exactly when the facts are ordered around it. -/
theorem IsSeek.stops_eq_skips_iff (isSeek : IsSeek facts type start prefixSize answer)
    (boundary : Id)
    : answer.takeWhile (fun fact => fact.id < boundary)
        = answer.filter (fun fact => fact.id < boundary)
      ↔ BoundaryOrdered facts boundary type start prefixSize := by
  rw [takeWhile_eq_filter_iff]
  simp only [decide_eq_true_eq]
  constructor
  · intro ordered early earlyFact late lateFact earlyType lateType earlyMatch lateMatch less
    have earlyMember := (isSeek.mem_iff early).mpr ⟨earlyFact, earlyType, earlyMatch⟩
    have lateMember := (isSeek.mem_iff late).mpr ⟨lateFact, lateType, lateMatch⟩
    exact rel_of_ascending isSeek.ascending ordered earlyMember lateMember less
  · intro ordered
    refine isSeek.ascending.imp_of_mem (fun earlyMember lateMember less low => ?_)
    obtain ⟨earlyFact, earlyType, earlyMatch⟩ := (isSeek.mem_iff _).mp earlyMember
    obtain ⟨lateFact, lateType, lateMatch⟩ := (isSeek.mem_iff _).mp lateMember
    exact ordered _ earlyFact _ lateFact earlyType lateType earlyMatch lateMatch less low

/-- Two answers of one seek compare by suffix as they do by key. -/
theorem suffix_lt_iff {left right : Fact} (enough : prefixSize ≤ start.length)
    (leftMatch : start.Matches prefixSize left.key)
    (rightMatch : start.Matches prefixSize right.key)
    : suffix prefixSize left < suffix prefixSize right ↔ left.key < right.key := by
  have size : (start.take prefixSize).length = prefixSize := by simp [enough]
  obtain ⟨leftRest, leftKey⟩ := leftMatch.1
  obtain ⟨rightRest, rightKey⟩ := rightMatch.1
  unfold suffix
  rw [← leftKey, ← rightKey, List.drop_left' size, List.drop_left' size]
  induction start.take prefixSize with
  | nil => rfl
  | cons byte rest ih => simpa using ih

/-- The order of merging is a total preorder. -/
theorem mergeOrder_total (prefixSize : Nat) (left right : Fact)
    : (mergeOrder prefixSize left right || mergeOrder prefixSize right left) = true := by
  simpa [mergeOrder] using le_total (suffix prefixSize left) (suffix prefixSize right)

theorem mergeOrder_trans (prefixSize : Nat) (first second third : Fact)
    (less : mergeOrder prefixSize first second = true)
    (more : mergeOrder prefixSize second third = true)
    : mergeOrder prefixSize first third = true := by
  simp only [mergeOrder, not_lt, decide_eq_true_eq] at less more ⊢
  exact less.trans more

/-- Merging the answers for two sets of facts with different keys answers for their union. -/
theorem IsSeek.merge {others : Set Fact} {more : List Fact}
    (isSeek : IsSeek facts type start prefixSize answer)
    (isMore : IsSeek others type start prefixSize more) (enough : prefixSize ≤ start.length)
    (disjoint : ∀ fact ∈ facts, ∀ other ∈ others, fact.type = other.type → fact.key ≠ other.key)
    : IsSeek (facts ∪ others) type start prefixSize
        (answer.merge more (mergeOrder prefixSize)) := by
  have inOrder {set : Set Fact} {list : List Fact} (seeks : IsSeek set type start prefixSize list)
      : list.Pairwise (fun left right => mergeOrder prefixSize left right = true) := by
    refine seeks.ascending.imp_of_mem (fun leftMember rightMember less => ?_)
    have after := (suffix_lt_iff enough ((seeks.mem_iff _).mp leftMember).2.2
      ((seeks.mem_iff _).mp rightMember).2.2).mpr less
    simpa [mergeOrder] using after.le
  have different : (answer ++ more).Pairwise (fun left right => left.key ≠ right.key) := by
    refine List.pairwise_append.mpr
      ⟨isSeek.ascending.imp ne_of_lt, isMore.ascending.imp ne_of_lt, ?_⟩
    intro fact member other otherMember
    obtain ⟨isFact, ofType, -⟩ := (isSeek.mem_iff fact).mp member
    obtain ⟨isOther, otherType, -⟩ := (isMore.mem_iff other).mp otherMember
    exact disjoint fact isFact other isOther (ofType.trans otherType.symm)
  have members (fact : Fact)
      : fact ∈ answer.merge more (mergeOrder prefixSize)
        ↔ (fact ∈ facts ∪ others) ∧ fact.type = type ∧ start.Matches prefixSize fact.key := by
    rw [List.mem_merge, isSeek.mem_iff fact, isMore.mem_iff fact, Set.mem_union]
    exact or_and_right.symm
  refine ⟨?_, members⟩
  have sorted := List.pairwise_merge (mergeOrder_trans prefixSize) (mergeOrder_total prefixSize)
    answer more (inOrder isSeek) (inOrder isMore)
  have distinct := (List.Perm.pairwise_iff (fun {_ _} ne => Ne.symm ne)
    (List.merge_perm_append (mergeOrder prefixSize))).mpr different
  refine (sorted.and distinct).imp_of_mem (fun leftMember rightMember both => ?_)
  have notAfter : ¬ suffix prefixSize _ < suffix prefixSize _ := of_decide_eq_true both.1
  rw [suffix_lt_iff enough ((members _).mp rightMember).2.2 ((members _).mp leftMember).2.2]
    at notAfter
  exact lt_of_le_of_ne (not_lt.mp notAfter) both.2

end

section

variable {protocol : Cursor.Protocol} {base : Lookup} {facts : Set Fact} {type : Pid}
  {start : Bytes} {prefixSize : Nat}

/-- A snapshot yields what comes before the first fact from the boundary up. -/
theorem Snapshot.seek_yields {answer : List Fact}
    (yields : (base.seek type start prefixSize).Yields protocol answer) (boundary : Id)
    : ((Snapshot base boundary).seek type start prefixSize).Yields protocol
        (answer.takeWhile (fun fact => fact.id < boundary)) :=
  SnapshotIterator.yields boundary yields

/-- A stacked lookup merges the snapshot of its base with its upper facts. -/
theorem Stacked.seek_yields {answer more : List Fact} {stacked : Lookup}
    (yields : (base.seek type start prefixSize).Yields protocol answer)
    (above : (stacked.seek type start prefixSize).Yields protocol more)
    : ((Stacked base stacked).seek type start prefixSize).Yields protocol
        ((answer.takeWhile (fun fact => fact.id < stacked.startingId)).merge more
          (mergeOrder prefixSize)) :=
  FactIterator.merge_yields prefixSize (Snapshot.seek_yields yields _) above

/-- The seek of a snapshot is right exactly when the facts are ordered around the boundary. -/
theorem Snapshot.answersSeek_iff (seeks : base.Seeks protocol facts) (boundary : Id)
    (enough : prefixSize ≤ start.length)
    : ((Snapshot base boundary).seek type start prefixSize).AnswersSeek protocol
        (Below boundary facts) type start prefixSize
      ↔ BoundaryOrdered facts boundary type start prefixSize := by
  obtain ⟨answer, yields, isSeek⟩ := seeks type start prefixSize enough
  rw [← isSeek.stops_eq_skips_iff boundary]
  constructor
  · intro right
    obtain ⟨seen, seenYields, seenIsSeek⟩ := right
    rw [(Snapshot.seek_yields yields boundary).unique seenYields]
    exact seenIsSeek.unique (isSeek.filter_below boundary)
  · intro equal
    refine ⟨_, Snapshot.seek_yields yields boundary, ?_⟩
    rw [equal]
    exact isSeek.filter_below boundary

/-- The seek of a fact set stacked on a base is right exactly when the facts of the base are
ordered around the starting id of the fact set. A wrong merge is shorter than the right one.
-/
theorem Stacked.answersSeek_iff (seeks : base.Seeks protocol facts) (stacked : FactSet)
    (disjoint : ∀ fact ∈ Below stacked.startingId facts, ∀ other ∈ stacked.members,
      fact.type = other.type → fact.key ≠ other.key)
    (enough : prefixSize ≤ start.length)
    : ((Stacked base stacked.lookup).seek type start prefixSize).AnswersSeek protocol
        (Below stacked.startingId facts ∪ stacked.members)
        type start prefixSize
      ↔ BoundaryOrdered facts stacked.startingId type start prefixSize := by
  obtain ⟨answer, yields, isSeek⟩ := seeks type start prefixSize enough
  obtain ⟨more, moreYields, isMore⟩ :=
    stacked.seek_yields protocol type start prefixSize enough
  have merged := Stacked.seek_yields yields moreYields
  have union := (isSeek.filter_below stacked.startingId).merge isMore enough disjoint
  rw [← isSeek.stops_eq_skips_iff stacked.startingId]
  constructor
  · intro right
    obtain ⟨seen, seenYields, seenIsSeek⟩ := right
    have equal := (merged.unique seenYields).trans (seenIsSeek.unique union)
    have lengths := congrArg List.length equal
    simp only [List.length_merge] at lengths
    have shorter := takeWhile_sublist_filter (fun fact => fact.id < stacked.startingId) answer
    exact shorter.eq_of_length (Nat.add_right_cancel lengths)
  · intro equal
    refine ⟨_, merged, ?_⟩
    change IsSeek _ type start prefixSize
      ((answer.takeWhile (fun fact => fact.id < stacked.startingId)).merge more _)
    rw [equal]
    exact union

/-- Seeks of snapshots and of stacked fact sets are right exactly when no fact of the base
from the boundary up comes before one below it in key order.
-/
theorem seek_below_boundary_iff (seeks : base.Seeks protocol facts) (boundary : Id)
    (stacked : FactSet)
    (disjoint : ∀ fact ∈ Below stacked.startingId facts, ∀ other ∈ stacked.members,
      fact.type = other.type → fact.key ≠ other.key)
    (enough : prefixSize ≤ start.length)
    : (((Snapshot base boundary).seek type start prefixSize).AnswersSeek protocol
          (Below boundary facts) type start prefixSize
        ↔ BoundaryOrdered facts boundary type start prefixSize)
      ∧ (((Stacked base stacked.lookup).seek type start prefixSize).AnswersSeek protocol
          (Below stacked.startingId facts ∪ stacked.members)
          type start prefixSize
        ↔ BoundaryOrdered facts stacked.startingId type start prefixSize) :=
  ⟨Snapshot.answersSeek_iff seeks boundary enough,
    Stacked.answersSeek_iff seeks stacked disjoint enough⟩

end

/-- The facts 1024 and 1025 of one predicate, with keys in descending order. -/
def descendingKeys : FactSet :=
  ((FactSet.new 1024 Id.invalid_lt_1024).push 1 ⟨[1], []⟩ Pid.one_lt_limit (by decide)).push 1
    ⟨[0], []⟩ Pid.one_lt_limit (by decide)

/-- A base that grew past the boundary 1025 with an earlier key hides fact 1024. -/
theorem descendingKeys_not_answersSeek
    : ¬ ((Snapshot descendingKeys.lookup 1025).seek 1 [] 0).AnswersSeek .anyOrder
          (Below 1025 descendingKeys.members) 1 [] 0
      ∧ ¬ ((Stacked descendingKeys.lookup (FactSet.new 1025 (by decide)).lookup).seek 1 [] 0).AnswersSeek
          .anyOrder
          (Below 1025 descendingKeys.members
            ∪ (FactSet.new 1025 (by decide)).members)
          1 [] 0 := by
  have unordered
      : ¬ BoundaryOrdered descendingKeys.members 1025 1 [] 0 := by
    intro ordered
    have early : ⟨1025, 1, [0], []⟩ ∈ descendingKeys.facts := by decide
    have late : ⟨1024, 1, [1], []⟩ ∈ descendingKeys.facts := by decide
    have low := ordered ⟨1025, 1, [0], []⟩ early ⟨1024, 1, [1], []⟩ late rfl rfl
      (by decide) (by decide) (by decide) (by decide)
    exact absurd low (by decide)
  refine ⟨fun right => unordered ?_, fun right => unordered ?_⟩
  · exact (Snapshot.answersSeek_iff (descendingKeys.seek_yields .anyOrder) 1025
      (Nat.zero_le _)).mp right
  · exact (Stacked.answersSeek_iff (descendingKeys.seek_yields .anyOrder)
      (FactSet.new 1025 (by decide)) (by simp [FactSet.new, FactSet.members]) (Nat.zero_le _)).mp right

/-- Witness: with all facts of the base below the boundary, both seeks are right. -/
theorem seek_below_boundary_iff_descendingKeys
    : ((Snapshot descendingKeys.lookup 1026).seek 1 [] 0).AnswersSeek .anyOrder
          (Below 1026 descendingKeys.members) 1 [] 0
      ∧ ((Stacked descendingKeys.lookup (FactSet.new 1026 (by decide)).lookup).seek 1 [] 0).AnswersSeek
          .anyOrder
          (Below 1026 descendingKeys.members
            ∪ (FactSet.new 1026 (by decide)).members)
          1 [] 0 := by
  have ordered : BoundaryOrdered descendingKeys.members 1026 1 [] 0 := by
    intro early earlyFact late lateFact _ _ _ _ _ _
    have small : ∀ fact ∈ descendingKeys.facts, fact.id < 1026 := by decide
    exact small early earlyFact
  obtain ⟨snapshot, stacked⟩ := seek_below_boundary_iff
    (descendingKeys.seek_yields .anyOrder) 1026 (FactSet.new 1026 (by decide))
    (by simp [FactSet.new, FactSet.members]) (Nat.zero_le _)
  exact ⟨snapshot.mpr ordered, stacked.mpr ordered⟩

end Glean.RTS
