import Glean.Library.KeyedMerge
import Glean.Library.SortedMap
import Glean.Ownership.SetU32Merge

/-! What `merge` computes: a set of 32-bit numbers that includes the other one, or their union. -/

namespace Glean.RTS.SetU32

theorem behind_end_iff {passed rest : List Chunk}
    : (behind passed).hdrs = (encode (passed ++ rest)).hdrs.length ↔ rest = [] := by
  simp [behind, encode]

theorem id_hdrAt_encode (passed rest : List Chunk) (chunk : Chunk)
    : ((encode (passed ++ chunk :: rest)).hdrAt (behind passed)).id = chunk.id := by
  rw [hdrAt_encode, chunk.id_hdr]

theorem behind_nil : behind [] = start := rfl

theorem append_cons (passed rest : List Chunk) (chunk : Chunk)
    : passed ++ chunk :: rest = (passed ++ [chunk]) ++ rest := by
  simp

/-- The rest of the blocks that a position is followed by. -/
theorem appendRange_finish (chunks passed rest : List Chunk)
    : (encode chunks).appendRange (encode (passed ++ rest)) (behind passed)
          (encode (passed ++ rest)).finish
      = encode (chunks ++ rest) := by
  have whole := appendRange_encode chunks passed rest []
  rwa [List.append_nil, ← finish_encode (passed ++ rest)] at whole

/-- Blocks in ascending order of their ids. -/
abbrev Ascending (chunks : List Chunk) : Prop :=
  chunks.Pairwise (fun chunk later => chunk.id < later.id)

/-- The blocks before an id, of which there is one, and the others. -/
theorem exists_passed {chunk : Chunk} (rest : List Chunk) {id : Nat} (less : chunk.id < id)
    : ∃ middle after, rest = middle ++ after ∧ (∀ other ∈ chunk :: middle, other.id < id)
        ∧ ∀ other ∈ after.head?, id ≤ other.id := by
  refine ⟨rest.takeWhile (fun other => other.id < id),
    rest.dropWhile (fun other => other.id < id),
    List.takeWhile_append_dropWhile.symm, ?_, ?_⟩
  · rw [List.forall_mem_cons]
    refine ⟨less, fun other member => ?_⟩
    exact of_decide_eq_true (List.all_eq_true.mp List.all_takeWhile other member)
  · intro other isHead
    have stops := List.head?_dropWhile_not (fun other : Chunk => decide (other.id < id)) rest
    rw [Option.mem_def] at isHead
    rw [isHead] at stops
    simpa using stops

/-- The block of the elements of two blocks that have the same id. -/
def unite (left right : Chunk) : Chunk := ⟨left.id, left.elements ∪ right.elements⟩

/-- The blocks of both lists, with those that have the same id united. -/
def mergeChunks (left right : List Chunk) : List Chunk :=
  KeyedMerge.merge Chunk.id unite left right

/-- Each step of `appendMerge` passes a block, by induction on the steps. -/
theorem appendMerge_encode (passedLeft left passedRight right chunks : List Chunk) {fuel : Nat}
    (enough : left.length + right.length < fuel)
    : appendMerge (encode (passedLeft ++ left)) (encode (passedRight ++ right)) fuel
          (encode chunks) (behind passedLeft) (behind passedRight)
      = encode (chunks ++ mergeChunks left right) := by
  induction fuel generalizing passedLeft left passedRight right chunks with
  | zero => omega
  | succ fuel ih =>
      rw [appendMerge]
      cases left with
      | nil =>
          rw [if_neg (by rw [ne_eq, behind_end_iff]; tauto), appendRange_finish, List.append_nil,
            appendRange_finish, mergeChunks, KeyedMerge.merge_nil_left]
      | cons l left =>
          cases right with
          | nil =>
              rw [if_neg (by rw [ne_eq, ne_eq, behind_end_iff, behind_end_iff]; tauto),
                appendRange_finish, appendRange_finish, List.append_nil, mergeChunks,
                KeyedMerge.merge_nil_right]
          | cons r right =>
              simp only [List.length_cons] at enough
              rw [if_pos (by rw [ne_eq, ne_eq, behind_end_iff, behind_end_iff]; simp)]
              dsimp only
              rw [id_hdrAt_encode, id_hdrAt_encode]
              split_ifs with less greater
              · obtain ⟨middle, after, rfl, before, notBefore⟩ := exists_passed left less
                have position := lowerBound_encode passedLeft (l :: middle) after before notBefore
                have moved := appendRange_encode chunks passedLeft (l :: middle) after
                have merged : mergeChunks (l :: middle ++ after) (r :: right)
                    = (l :: middle) ++ mergeChunks after (r :: right) :=
                  KeyedMerge.merge_append_left (fun chunk member other isHead => by
                    rw [List.head?_cons, Option.mem_some_iff] at isHead
                    exact isHead ▸ before chunk member)
                rw [List.length_append] at enough
                rw [List.cons_append] at position moved merged
                rw [position, moved, merged, ← List.cons_append, ← List.append_assoc,
                  ← List.append_assoc]
                refine ih (passedLeft ++ l :: middle) after passedRight (r :: right) _ ?_
                rw [List.length_cons]
                omega
              · obtain ⟨middle, after, rfl, before, notBefore⟩ := exists_passed right greater
                have position :=
                  lowerBound_encode passedRight (r :: middle) after before notBefore
                have moved := appendRange_encode chunks passedRight (r :: middle) after
                have merged : mergeChunks (l :: left) (r :: middle ++ after)
                    = (r :: middle) ++ mergeChunks (l :: left) after :=
                  KeyedMerge.merge_append_right (fun chunk member other isHead => by
                    rw [List.head?_cons, Option.mem_some_iff] at isHead
                    exact isHead ▸ before chunk member)
                rw [List.length_append] at enough
                rw [List.cons_append] at position moved merged
                rw [position, moved, merged, ← List.cons_append, ← List.append_assoc,
                  ← List.append_assoc]
                refine ih passedLeft (l :: left) (passedRight ++ r :: middle) after _ ?_
                rw [List.length_cons]
                omega
              · have same : l.id = r.id := le_antisymm (not_lt.mp greater) (not_lt.mp less)
                have merged : mergeChunks (l :: left) (r :: right)
                    = unite l r :: mergeChunks left right := by
                  rw [mergeChunks, KeyedMerge.merge, if_neg less, if_neg greater]
                  rfl
                rw [mergeBlock_encode chunks (block_encode passedLeft left l)
                  (block_encode passedRight right r) same, next_encode, next_encode, merged,
                  append_cons passedLeft, append_cons passedRight,
                  append_cons chunks (mergeChunks left right)]
                exact ih _ left _ right _ (by omega)

/-- Some of the numbers of a block. -/
theorem contains_iff {chunks : List Chunk} {id : Nat} {bit : Byte}
    : Contains chunks (id * 256 + bit.val)
      ↔ ∃ chunk ∈ chunks, chunk.id = id ∧ bit ∈ chunk.elements := by
  have inside := bit.isLt
  have isId : (id * 256 + bit.val) / 256 = id := by omega
  have isBit : Fin.ofNat 256 (id * 256 + bit.val) = bit := by
    refine Fin.ext ?_
    rw [Fin.val_ofNat]
    omega
  rw [Contains, isId, isBit]

/-- Each block passed on the right is included in one passed on the left, and no block ahead on
the right can be in what was passed on the left.
-/
structure Skipped (passedLeft passedRight right : List Chunk) : Prop where
  included : ∀ chunk ∈ passedRight,
    ∃ other ∈ passedLeft, other.id = chunk.id ∧ chunk.elements ⊆ other.elements
  below : ∀ other ∈ passedLeft, ∀ chunk ∈ right, other.id < chunk.id

/-- The next block on the right has an element that what is ahead on the left does not have. -/
def Stopped (left right : List Chunk) : Prop :=
  ∀ r ∈ right.head?, ∀ l ∈ left.head?,
    r.id < l.id ∨ (r.id = l.id ∧ ¬ r.elements ⊆ l.elements)

/-- What is not passed on the right is not in the left set. -/
theorem exists_not_contains {passedLeft left passedRight right : List Chunk} {chunk : Chunk}
    (ascending : Ascending (passedLeft ++ left))
    (below : ∀ other ∈ passedLeft, other.id < chunk.id) (nonempty : chunk.elements.Nonempty)
    (stopped : Stopped left (chunk :: right))
    : ∃ value, Contains (passedRight ++ chunk :: right) value
        ∧ ¬ Contains (passedLeft ++ left) value := by
  have leftAscending := (List.pairwise_append.mp ascending).2.1
  have isBlock (bit : Byte) (member : bit ∈ chunk.elements)
      : Contains (passedRight ++ chunk :: right) (chunk.id * 256 + bit.val) :=
    contains_iff.mpr ⟨chunk, List.mem_append_right _ List.mem_cons_self, rfl, member⟩
  -- only the next block on the left can have the id
  have onlyNext (bit : Byte) (next : ∀ l ∈ left.head?, l.id = chunk.id → bit ∉ l.elements)
      (notBelow : ∀ l ∈ left.head?, chunk.id ≤ l.id)
      : ¬ Contains (passedLeft ++ left) (chunk.id * 256 + bit.val) := by
    rw [contains_iff]
    intro contained
    obtain ⟨other, member, sameId, isElement⟩ := contained
    rcases List.mem_append.mp member with isPassed | isAhead
    · exact absurd sameId (ne_of_lt (below other isPassed))
    · cases left with
      | nil => exact absurd isAhead List.not_mem_nil
      | cons l left =>
          rcases List.mem_cons.mp isAhead with isNext | isLater
          · exact next other (isNext ▸ rfl) sameId isElement
          · have above := (List.pairwise_cons.mp leftAscending).1 other isLater
            exact absurd sameId (ne_of_gt ((notBelow l rfl).trans_lt above))
  cases left with
  | nil =>
      obtain ⟨bit, member⟩ := nonempty
      exact ⟨_, isBlock bit member, onlyNext bit (by simp) (by simp)⟩
  | cons l left =>
      rcases stopped chunk rfl l rfl with less | different
      · obtain ⟨bit, member⟩ := nonempty
        refine ⟨_, isBlock bit member, onlyNext bit ?_ ?_⟩
        · intro other isNext sameId
          rw [List.head?_cons, Option.mem_some_iff] at isNext
          exact absurd sameId (isNext ▸ ne_of_gt less)
        · intro other isNext
          rw [List.head?_cons, Option.mem_some_iff] at isNext
          exact isNext ▸ le_of_lt less
      · obtain ⟨bit, member, absent⟩ := Finset.not_subset.mp different.2
        refine ⟨_, isBlock bit member, onlyNext bit ?_ ?_⟩
        · intro other isNext _
          rw [List.head?_cons, Option.mem_some_iff] at isNext
          exact isNext ▸ absent
        · intro other isNext
          rw [List.head?_cons, Option.mem_some_iff] at isNext
          exact isNext ▸ le_of_eq different.1

/-- The last loop of `skipSubset`, by induction on its steps. -/
theorem skipIncluded_encode (passedLeft left passedRight right : List Chunk) {fuel : Nat}
    (enough : left.length + right.length ≤ fuel) (ascending : Ascending (passedRight ++ right))
    (skipped : Skipped passedLeft passedRight right)
    : ∃ passedLeft' left' passedRight' right', passedLeft ++ left = passedLeft' ++ left'
        ∧ passedRight ++ right = passedRight' ++ right'
        ∧ skipIncluded (encode (passedLeft ++ left)) (encode (passedRight ++ right)) fuel
            (behind passedLeft) (behind passedRight) = (behind passedLeft', behind passedRight')
        ∧ right' <:+ right ∧ Skipped passedLeft' passedRight' right' ∧ Stopped left' right' := by
  induction fuel generalizing passedLeft left passedRight right with
  | zero =>
      have isNil : right = [] := List.length_eq_zero_iff.mp (by omega)
      refine ⟨passedLeft, left, passedRight, right, rfl, rfl, rfl, List.suffix_refl _,
        skipped, ?_⟩
      intro r isHead
      simp [isNil] at isHead
  | succ fuel ih =>
      rw [skipIncluded]
      cases left with
      | nil =>
          rw [if_neg (by rw [ne_eq, behind_end_iff]; tauto)]
          refine ⟨passedLeft, [], passedRight, right, rfl, rfl, rfl, List.suffix_refl _,
            skipped, ?_⟩
          intro r _ l isHead
          simp at isHead
      | cons l left =>
          cases right with
          | nil =>
              rw [if_neg (by rw [ne_eq, ne_eq, behind_end_iff, behind_end_iff]; tauto)]
              refine ⟨passedLeft, l :: left, passedRight, [], rfl, rfl, rfl, List.suffix_refl _,
                skipped, ?_⟩
              intro r isHead
              simp at isHead
          | cons r right =>
              have rightAscending := (List.pairwise_append.mp ascending).2.1
              have later := (List.pairwise_cons.mp rightAscending).1
              simp only [List.length_cons] at enough
              rw [if_pos (by rw [ne_eq, ne_eq, behind_end_iff, behind_end_iff]; simp)]
              rw [id_hdrAt_encode, id_hdrAt_encode]
              by_cases less : l.id < r.id
              · rw [if_pos less]
                obtain ⟨middle, after, rfl, before, notBefore⟩ := exists_passed left less
                have position := lowerBound_encode passedLeft (l :: middle) after before notBefore
                rw [List.length_append] at enough
                have goesOn : Skipped (passedLeft ++ l :: middle) passedRight (r :: right) := by
                  refine ⟨fun chunk member => ?_, fun other member chunk isAhead => ?_⟩
                  · obtain ⟨other, isPassed, includes⟩ := skipped.included chunk member
                    exact ⟨other, List.mem_append_left _ isPassed, includes⟩
                  · rcases List.mem_append.mp member with isPassed | isBefore
                    · exact skipped.below other isPassed chunk isAhead
                    · rcases List.mem_cons.mp isAhead with rfl | isLater
                      · exact before other isBefore
                      · exact (before other isBefore).trans (later chunk isLater)
                have step := ih (passedLeft ++ l :: middle) after passedRight (r :: right)
                  (by rw [List.length_cons]; omega) ascending goesOn
                rw [List.cons_append] at position
                rw [position, ← List.cons_append, ← List.append_assoc]
                exact step
              · rw [if_neg less]
                have isIncluded :=
                  (block_encode passedLeft left l).includes_iff (block_encode passedRight right r)
                by_cases includes : l.id = r.id ∧ r.elements ⊆ l.elements
                · rw [if_pos (isIncluded.mpr includes), next_encode, next_encode,
                    append_cons passedLeft, append_cons passedRight]
                  rw [append_cons] at ascending
                  have goesOn : Skipped (passedLeft ++ [l]) (passedRight ++ [r]) right := by
                    refine ⟨fun chunk member => ?_, fun other member chunk isAhead => ?_⟩
                    · rcases List.mem_append.mp member with isPassed | isNew
                      · obtain ⟨other, isPassed, contained⟩ := skipped.included chunk isPassed
                        exact ⟨other, List.mem_append_left _ isPassed, contained⟩
                      · rw [List.mem_singleton.mp isNew]
                        exact ⟨l, List.mem_append_right _ List.mem_cons_self, includes⟩
                    · rcases List.mem_append.mp member with isPassed | isNew
                      · exact skipped.below other isPassed chunk (List.mem_cons_of_mem _ isAhead)
                      · rw [List.mem_singleton.mp isNew, includes.1]
                        exact later chunk isAhead
                  obtain ⟨passedLeft', left', passedRight', right', isLeft, isRight, result,
                    isSuffix, goneOn⟩ := ih (passedLeft ++ [l]) left (passedRight ++ [r]) right
                      (by omega) ascending goesOn
                  exact ⟨passedLeft', left', passedRight', right', isLeft, isRight, result,
                    isSuffix.trans (List.suffix_cons r right), goneOn⟩
                · rw [if_neg (isIncluded.not.mpr includes)]
                  refine ⟨passedLeft, l :: left, passedRight, r :: right, rfl, rfl, rfl,
                    List.suffix_refl _, skipped, ?_⟩
                  intro chunk isChunk other isOther
                  rw [List.head?_cons, Option.mem_some_iff] at isChunk isOther
                  obtain rfl := isChunk
                  obtain rfl := isOther
                  rcases lt_or_eq_of_le (not_lt.mp less) with greater | same
                  · exact .inl greater
                  · exact .inr ⟨same, fun subset => includes ⟨same.symm, subset⟩⟩

/-- The first loop of `skipSubset`, by induction on its steps. -/
theorem skipEqual_encode (passed left right : List Chunk) {fuel : Nat}
    (enough : left.length + right.length ≤ fuel)
    : ∃ passed' left' right', passed ++ left = passed' ++ left'
        ∧ passed ++ right = passed' ++ right'
        ∧ skipEqual (encode (passed ++ left)) (encode (passed ++ right)) fuel (behind passed)
            (behind passed) = (behind passed', behind passed')
        ∧ ∀ r ∈ right'.head?, ∀ l ∈ left'.head?, l ≠ r := by
  induction fuel generalizing passed left right with
  | zero =>
      have isNil : right = [] := List.length_eq_zero_iff.mp (by omega)
      exact ⟨passed, left, right, rfl, rfl, rfl, by simp [isNil]⟩
  | succ fuel ih =>
      rw [skipEqual]
      cases left with
      | nil =>
          rw [if_neg (by rw [ne_eq, behind_end_iff]; tauto)]
          exact ⟨passed, [], right, rfl, rfl, rfl, by simp⟩
      | cons l left =>
          cases right with
          | nil =>
              rw [if_neg (by rw [ne_eq, ne_eq, behind_end_iff, behind_end_iff]; tauto)]
              exact ⟨passed, l :: left, [], rfl, rfl, rfl, by simp⟩
          | cons r right =>
              simp only [List.length_cons] at enough
              have same := (block_encode passed left l).eq_iff (block_encode passed right r)
              have bothAhead : (behind passed).hdrs ≠ (encode (passed ++ l :: left)).hdrs.length
                  ∧ (behind passed).hdrs ≠ (encode (passed ++ r :: right)).hdrs.length := by
                rw [ne_eq, ne_eq, behind_end_iff, behind_end_iff]
                simp
              by_cases isSame : l = r
              · rw [if_pos ⟨bothAhead, same.mpr isSame⟩, next_encode, next_encode]
                obtain rfl := isSame
                rw [append_cons passed left, append_cons passed right]
                exact ih (passed ++ [l]) left right (by omega)
              · rw [if_neg (fun holds => isSame (same.mp holds.2))]
                refine ⟨passed, l :: left, r :: right, rfl, rfl, rfl, ?_⟩
                intro other isOther chunk isChunk
                rw [List.head?_cons, Option.mem_some_iff] at isChunk isOther
                rw [← isChunk, ← isOther]
                exact isSame

/-- How far `skipSubset` is: which set may include the other one, and what is passed of both. When
the sets were swapped or something is left of the second one, the first one is not included in it.
-/
structure Progress (left right : List Chunk) (swapped : Bool)
    (passedSuper super passedSub sub : List Chunk) : Prop where
  isSuper : (if swapped then right else left) = passedSuper ++ super
  isSub : (if swapped then left else right) = passedSub ++ sub
  skipped : Skipped passedSuper passedSub sub
  proper : swapped = true ∨ sub ≠ []
    → ∃ value, Contains (passedSuper ++ super) value ∧ ¬ Contains (passedSub ++ sub) value

/-- Blocks that both sides have passed are included in each other. -/
theorem Skipped.refl {passed rest : List Chunk} (ascending : Ascending (passed ++ rest))
    : Skipped passed passed rest where
  included := fun chunk member => ⟨chunk, member, rfl, subset_rfl⟩
  below := (List.pairwise_append.mp ascending).2.2

theorem swapSides_encode {passed left right : List Chunk} (leftOrdered : Ordered (passed ++ left))
    (rightOrdered : Ordered (passed ++ right))
    (differ : ∀ r ∈ right.head?, ∀ l ∈ left.head?, l ≠ r)
    : ∃ swapped passedSuper super passedSub sub,
        Progress (passed ++ left) (passed ++ right) swapped passedSuper super passedSub sub
        ∧ swapSides (encode (passed ++ left)) (encode (passed ++ right)) (behind passed)
            (behind passed)
          = (swapped, if swapped then (behind passedSub, behind passedSuper)
              else (behind passedSuper, behind passedSub)) := by
  obtain ⟨leftAscending, leftNonempty, -⟩ := leftOrdered
  obtain ⟨rightAscending, rightNonempty, -⟩ := rightOrdered
  have leftSkipped := Skipped.refl leftAscending
  have rightSkipped := Skipped.refl rightAscending
  rw [swapSides]
  cases right with
  | nil =>
      rw [if_neg (by rw [ne_eq, behind_end_iff]; tauto)]
      exact ⟨false, passed, left, passed, [], ⟨rfl, rfl, rightSkipped, by simp⟩, rfl⟩
  | cons r right =>
      have rNonempty := rightNonempty r (List.mem_append_right _ List.mem_cons_self)
      have rBelow (other : Chunk) (member : other ∈ passed) : other.id < r.id :=
        rightSkipped.below other member r List.mem_cons_self
      rw [if_pos (by rw [ne_eq, behind_end_iff]; simp)]
      cases left with
      | nil =>
          rw [if_pos (by rw [behind_end_iff]; tauto)]
          refine ⟨true, passed, r :: right, passed, [], ⟨rfl, rfl, leftSkipped, fun _ => ?_⟩, rfl⟩
          exact exists_not_contains leftAscending rBelow rNonempty (by simp [Stopped])
      | cons l left =>
          have lNonempty := leftNonempty l (List.mem_append_right _ List.mem_cons_self)
          have lBelow (other : Chunk) (member : other ∈ passed) : other.id < l.id :=
            leftSkipped.below other member l List.mem_cons_self
          have isIncluded :=
            (block_encode passed right r).includes_iff (block_encode passed left l)
          have swaps : ((behind passed).hdrs = (encode (passed ++ l :: left)).hdrs.length
              ∨ ((encode (passed ++ r :: right)).hdrAt (behind passed)).id
                < ((encode (passed ++ l :: left)).hdrAt (behind passed)).id) ↔ r.id < l.id := by
            rw [behind_end_iff, id_hdrAt_encode, id_hdrAt_encode]
            simp
          by_cases less : r.id < l.id
          · rw [if_pos (swaps.mpr less)]
            refine ⟨true, passed, r :: right, passed, l :: left,
              ⟨rfl, rfl, leftSkipped, fun _ => ?_⟩, rfl⟩
            exact exists_not_contains leftAscending rBelow rNonempty
              (by simpa [Stopped] using .inl less)
          · rw [if_neg (swaps.not.mpr less)]
            by_cases includes : r.id = l.id ∧ l.elements ⊆ r.elements
            · have notBoth : ¬ r.elements ⊆ l.elements := fun subset =>
                differ r rfl l rfl (Chunk.ext includes.1.symm (subset_antisymm includes.2 subset))
              rw [if_pos (isIncluded.mpr includes), next_encode, next_encode]
              refine ⟨true, passed ++ [r], right, passed ++ [l], left,
                ⟨append_cons _ _ _, append_cons _ _ _, ⟨?_, ?_⟩, fun _ => ?_⟩, rfl⟩
              · intro chunk member
                rcases List.mem_append.mp member with isPassed | isNew
                · exact ⟨chunk, List.mem_append_left _ isPassed, rfl, subset_rfl⟩
                · rw [List.mem_singleton.mp isNew]
                  exact ⟨r, List.mem_append_right _ List.mem_cons_self, includes⟩
              · intro other member chunk isAhead
                rcases List.mem_append.mp member with isPassed | isNew
                · exact leftSkipped.below other isPassed chunk (List.mem_cons_of_mem _ isAhead)
                · have ahead := (List.pairwise_append.mp leftAscending).2.1
                  rw [List.mem_singleton.mp isNew, includes.1]
                  exact (List.pairwise_cons.mp ahead).1 chunk isAhead
              · rw [← append_cons, ← append_cons]
                exact exists_not_contains leftAscending rBelow rNonempty
                  (by simpa [Stopped] using .inr ⟨includes.1, notBoth⟩)
            · rw [if_neg (isIncluded.not.mpr includes)]
              refine ⟨false, passed, l :: left, passed, r :: right,
                ⟨rfl, rfl, rightSkipped, fun _ => ?_⟩, rfl⟩
              refine exists_not_contains rightAscending lBelow lNonempty ?_
              intro chunk isChunk other isOther
              rw [List.head?_cons, Option.mem_some_iff] at isChunk isOther
              obtain rfl := isChunk
              obtain rfl := isOther
              rcases lt_or_eq_of_le (not_lt.mp less) with lower | same
              · exact .inl lower
              · exact .inr ⟨same, fun subset => includes ⟨same.symm, subset⟩⟩

theorem skipSubset_encode {left right : List Chunk} (leftOrdered : Ordered left)
    (rightOrdered : Ordered right)
    : ∃ swapped passedSuper super passedSub sub,
        Progress left right swapped passedSuper super passedSub sub ∧ Stopped super sub
        ∧ skipSubset (encode left) (encode right)
          = (swapped, behind passedSuper, behind passedSub) := by
  have length (chunks : List Chunk) : (encode chunks).hdrs.length = chunks.length :=
    List.length_map _
  obtain ⟨passed, restLeft, restRight, isLeft, isRight, equal, differ⟩ :=
    skipEqual_encode [] left right (le_refl (left.length + right.length))
  rw [List.nil_append] at isLeft isRight
  have swap := swapSides_encode (isLeft ▸ leftOrdered) (isRight ▸ rightOrdered) differ
  rw [← isLeft, ← isRight] at swap
  obtain ⟨swapped, passedSuper, super, passedSub, sub, progress, swap⟩ := swap
  rw [List.nil_append, List.nil_append, behind_nil] at equal
  rw [skipSubset, length, length, equal]
  dsimp only
  rw [swap]
  have superSub : Ordered (passedSuper ++ super) ∧ Ordered (passedSub ++ sub)
      ∧ super.length + sub.length ≤ left.length + right.length := by
    have superLength := congrArg List.length progress.isSuper
    have subLength := congrArg List.length progress.isSub
    rw [List.length_append] at superLength subLength
    rw [← progress.isSuper, ← progress.isSub]
    cases swapped with
    | false => exact ⟨leftOrdered, rightOrdered, by simp at superLength subLength; omega⟩
    | true => exact ⟨rightOrdered, leftOrdered, by simp at superLength subLength; omega⟩
  obtain ⟨superOrdered, subOrdered, enough⟩ := superSub
  obtain ⟨passedSuper', super', passedSub', sub', isSuper, isSub, result, isSuffix, skipped,
    stopped⟩ := skipIncluded_encode passedSuper super passedSub sub enough subOrdered.ascending
      progress.skipped
  refine ⟨swapped, passedSuper', super', passedSub', sub',
    ⟨progress.isSuper.trans isSuper, progress.isSub.trans isSub, skipped, fun proper => ?_⟩,
    stopped, ?_⟩
  · rw [← isSuper, ← isSub]
    refine progress.proper (proper.imp_right (fun notNil isNil => notNil ?_))
    exact List.suffix_nil.mp (isNil ▸ isSuffix)
  · rw [← progress.isSuper, ← progress.isSub] at result
    cases swapped with
    | false => exact congrArg (Prod.mk false) result
    | true => exact congrArg (Prod.mk true) result

theorem contains_append {left right : List Chunk} {value : Nat}
    : Contains (left ++ right) value ↔ Contains left value ∨ Contains right value := by
  simp only [Contains, List.mem_append, or_and_right, exists_or]

theorem contains_mergeChunks {left right : List Chunk} {value : Nat}
    : Contains (mergeChunks left right) value ↔ Contains left value ∨ Contains right value := by
  refine KeyedMerge.exists_mem_merge (fun l r same => ?_)
  rw [← same, ← and_or_left, ← Finset.mem_union]
  rfl

/-- What is passed on the right is in the left set. -/
theorem Skipped.contains {passedLeft passedRight right : List Chunk} {value : Nat}
    (skipped : Skipped passedLeft passedRight right) (contained : Contains passedRight value)
    : Contains passedLeft value := by
  obtain ⟨chunk, member, isBlock, isElement⟩ := contained
  obtain ⟨other, isPassed, sameId, subset⟩ := skipped.included chunk member
  exact ⟨other, isPassed, sameId.trans isBlock, subset isElement⟩

/-- The blocks passed of the first set, and those ahead merged. -/
theorem ordered_merged {passedSuper super passedSub sub : List Chunk}
    (superOrdered : Ordered (passedSuper ++ super)) (subOrdered : Ordered (passedSub ++ sub))
    (skipped : Skipped passedSuper passedSub sub)
    : Ordered (passedSuper ++ mergeChunks super sub) := by
  obtain ⟨passedAscending, superAscending, before⟩ :=
    List.pairwise_append.mp superOrdered.ascending
  have subAscending := (List.pairwise_append.mp subOrdered.ascending).2.1
  have each {P : Chunk → Prop} (ofSuper : ∀ chunk ∈ passedSuper ++ super, P chunk)
      (ofSub : ∀ chunk ∈ passedSub ++ sub, P chunk)
      (ofBoth : ∀ l r, P l → P r → l.id = r.id → P (unite l r))
      : ∀ chunk ∈ passedSuper ++ mergeChunks super sub, P chunk := by
    rw [List.forall_mem_append] at ofSuper ofSub ⊢
    exact ⟨ofSuper.1, KeyedMerge.forall_mem_merge ofSuper.2 ofSub.2 ofBoth⟩
  refine ⟨List.pairwise_append.mpr ⟨passedAscending, ?_, fun passed isPassed => ?_⟩, ?_, ?_⟩
  · exact KeyedMerge.pairwise_merge (fun _ _ _ => rfl) superAscending subAscending
  · exact KeyedMerge.forall_mem_merge (before passed isPassed) (skipped.below passed isPassed)
      (fun _ _ less _ _ => less)
  · refine each superOrdered.nonempty subOrdered.nonempty (fun l r nonempty _ _ => ?_)
    exact nonempty.mono Finset.subset_union_left
  · exact each superOrdered.bounded subOrdered.bounded (fun _ _ bounded _ _ => bounded)

/-- What `merge` returns and leaves in the result: a set that includes the other one, which is the
first one if they are equal, or the union of sets that do not include each other.
-/
inductive Merges (left right : List Chunk) : Pointer × SetU32 → Prop where
  | left (includes : ∀ value, Contains right value → Contains left value)
      : Merges left right (.left, empty)
  | right (includes : ∀ value, Contains left value → Contains right value)
      (proper : ∃ value, Contains right value ∧ ¬ Contains left value)
      : Merges left right (.right, empty)
  | result (chunks : List Chunk) (ordered : Ordered chunks)
      (union : ∀ value, Contains chunks value ↔ Contains left value ∨ Contains right value)
      (onlyLeft : ∃ value, Contains left value ∧ ¬ Contains right value)
      (onlyRight : ∃ value, Contains right value ∧ ¬ Contains left value)
      : Merges left right (.result, encode chunks)

theorem merge_merges {left right : List Chunk} (leftOrdered : Ordered left)
    (rightOrdered : Ordered right)
    : Merges left right (merge false (encode left) (encode right)) := by
  have length (chunks : List Chunk) : (encode chunks).hdrs.length = chunks.length :=
    List.length_map _
  obtain ⟨swapped, passedSuper, super, passedSub, sub, progress, stopped, skip⟩ :=
    skipSubset_encode leftOrdered rightOrdered
  obtain ⟨isSuper, isSub, skipped, proper⟩ := progress
  have superOrdered : Ordered (passedSuper ++ super) := by
    rw [← isSuper]
    split
    · exact rightOrdered
    · exact leftOrdered
  have subOrdered : Ordered (passedSub ++ sub) := by
    rw [← isSub]
    split
    · exact leftOrdered
    · exact rightOrdered
  have isEncoded : (if swapped then encode right else encode left)
      = encode (passedSuper ++ super) := by
    rw [← isSuper, apply_ite encode]
  have isOther : (if swapped then encode left else encode right)
      = encode (passedSub ++ sub) := by
    rw [← isSub, apply_ite encode]
  rw [merge, if_neg Bool.false_ne_true, skip]
  dsimp only
  rw [isEncoded, isOther]
  cases sub with
  | nil =>
      have includes (value : Nat) (contained : Contains (passedSub ++ []) value)
          : Contains (passedSuper ++ super) value := by
        rw [List.append_nil] at contained
        exact contains_append.mpr (.inl (skipped.contains contained))
      rw [if_pos (behind_end_iff.mpr rfl)]
      rw [← isSuper, ← isSub] at includes proper
      cases swapped with
      | false => exact .left includes
      | true => exact .right includes (proper (.inl rfl))
  | cons chunk sub =>
      have notAll : ∃ value, Contains (passedSub ++ chunk :: sub) value
          ∧ ¬ Contains (passedSuper ++ super) value :=
        exists_not_contains superOrdered.ascending
          (fun other member => skipped.below other member chunk List.mem_cons_self)
          (subOrdered.nonempty chunk (List.mem_append_right _ List.mem_cons_self)) stopped
      have notSuper := proper (.inr (List.cons_ne_nil chunk sub))
      have start := appendRange_encode [] [] passedSuper super
      rw [if_neg (behind_end_iff.not.mpr (List.cons_ne_nil chunk sub))]
      rw [List.nil_append, behind_nil, List.nil_append] at start
      rw [show empty = encode [] from rfl, start, appendMerge_encode _ _ _ _ _ (by
        rw [length, length, List.length_append, List.length_append]
        omega)]
      have union (value : Nat)
          : Contains (passedSuper ++ mergeChunks super (chunk :: sub)) value
            ↔ Contains (passedSuper ++ super) value
              ∨ Contains (passedSub ++ chunk :: sub) value := by
        have passed : Contains passedSub value → Contains passedSuper value := skipped.contains
        rw [contains_append, contains_append, contains_append, contains_mergeChunks]
        tauto
      rw [← isSuper, ← isSub] at notAll notSuper union
      have ordered := ordered_merged superOrdered subOrdered skipped
      cases swapped with
      | false => exact .result _ ordered union notSuper notAll
      | true => exact .result _ ordered (fun value => (union value).trans or_comm) notAll notSuper

theorem contains_of_mem {chunks : List Chunk} {chunk : Chunk} (ascending : Ascending chunks)
    (member : chunk ∈ chunks) {bit : Byte}
    : Contains chunks (chunk.id * 256 + bit.val) ↔ bit ∈ chunk.elements := by
  have ids : (chunks.map Chunk.id).Nodup := List.pairwise_map.mpr (ascending.imp ne_of_lt)
  rw [contains_iff]
  constructor
  · intro contained
    obtain ⟨other, isMember, sameId, isElement⟩ := contained
    have same : other = chunk := List.inj_on_of_nodup_map ids isMember member sameId
    exact same ▸ isElement
  · exact fun isElement => ⟨chunk, member, rfl, isElement⟩

/-- The numbers of a set determine its blocks. -/
theorem eq_of_contains {left right : List Chunk} (leftOrdered : Ordered left)
    (rightOrdered : Ordered right) (same : ∀ value, Contains left value ↔ Contains right value)
    : left = right := by
  have within {left right : List Chunk} (leftOrdered : Ordered left)
      (rightOrdered : Ordered right)
      (same : ∀ value, Contains left value ↔ Contains right value) {chunk : Chunk}
      (member : chunk ∈ left) : chunk ∈ right := by
    obtain ⟨bit, isElement⟩ := leftOrdered.nonempty chunk member
    have contained := (contains_of_mem leftOrdered.ascending member).mpr isElement
    obtain ⟨other, isMember, sameId, -⟩ := contains_iff.mp ((same _).mp contained)
    have isSame : other = chunk := by
      refine Chunk.ext sameId (Finset.ext (fun bit => ?_))
      rw [← contains_of_mem rightOrdered.ascending isMember, sameId, ← same]
      exact contains_of_mem leftOrdered.ascending member
    exact isSame ▸ isMember
  exact eq_of_ascending leftOrdered.ascending rightOrdered.ascending (fun chunk =>
    ⟨within leftOrdered rightOrdered same,
      within rightOrdered leftOrdered (fun value => (same value).symm)⟩)

end Glean.RTS.SetU32
