import Glean.Ownership.SetU32Blocks

/-! Appending to sets of 32-bit numbers and merging them, in terms of their blocks. -/

namespace Glean.RTS.SetU32

theorem encode_concat (chunks : List Chunk) (chunk : Chunk)
    : encode (chunks ++ [chunk])
      = ⟨(encode chunks).hdrs ++ [chunk.hdr], (encode chunks).dense ++ chunk.dense,
          (encode chunks).sparse ++ chunk.sparse⟩ := by
  simp [encode]

section

variable (chunks : List Chunk) {chunk : Chunk}

theorem encode_concat_of_sparse (isSparse : chunk.kind = .sparse)
    : encode (chunks ++ [chunk])
      = ⟨(encode chunks).hdrs ++ [.sparse chunk.id chunk.elements.card], (encode chunks).dense,
          (encode chunks).sparse ++ chunk.vals⟩ := by
  rw [encode_concat, Chunk.hdr, Chunk.dense, Chunk.sparse, isSparse, List.append_nil]

theorem encode_concat_of_dense (isDense : chunk.kind = .dense)
    : encode (chunks ++ [chunk])
      = ⟨(encode chunks).hdrs ++ [.dense chunk.id], (encode chunks).dense ++ [chunk.bits],
          (encode chunks).sparse⟩ := by
  rw [encode_concat, Chunk.hdr, Chunk.dense, Chunk.sparse, isDense, List.append_nil]

theorem encode_concat_of_full (isFull : chunk.kind = .full)
    : encode (chunks ++ [chunk])
      = ⟨(encode chunks).hdrs ++ [.full chunk.id], (encode chunks).dense,
          (encode chunks).sparse⟩ := by
  rw [encode_concat, Chunk.hdr, Chunk.dense, Chunk.sparse, isFull, List.append_nil,
    List.append_nil]

end

theorem fitsSparse_iff {m n : Nat} : fitsSparse m n = true ↔ m + n < 32 := by
  simp [fitsSparse]

/-- An ascending list is what a block of its elements has. -/
theorem vals_of_ascending {id : Nat} {list : List Byte} (ascending : list.Pairwise (· < ·))
    : (Chunk.mk id list.toFinset).vals = list :=
  (List.toFinset_sort (· ≤ ·) (ascending.imp ne_of_lt)).mpr (ascending.imp le_of_lt)

theorem card_of_ascending {list : List Byte} (ascending : list.Pairwise (· < ·))
    : list.toFinset.card = list.length :=
  List.toFinset_card_of_nodup (ascending.imp ne_of_lt)

/-- A sparse block is appended. -/
theorem encode_concat_sparse (chunks : List Chunk) (chunk : Chunk) {list : List Byte}
    (ascending : list.Pairwise (· < ·)) (same : list.toFinset = chunk.elements)
    (few : list.length < 32)
    : encode (chunks ++ [chunk])
      = ⟨(encode chunks).hdrs ++ [.sparse chunk.id list.length], (encode chunks).dense,
          (encode chunks).sparse ++ list⟩ := by
  have card : chunk.elements.card = list.length := by rw [← same, card_of_ascending ascending]
  have isSparse : chunk.kind = .sparse := chunk.kind_sparse_iff.mpr (card ▸ few)
  have vals : chunk.vals = list := by
    have shape : chunk = ⟨chunk.id, list.toFinset⟩ := Chunk.ext rfl same.symm
    rw [shape]
    exact vals_of_ascending ascending
  rw [encode_concat_of_sparse chunks isSparse, card, vals]

/-- A dense or full block is appended. -/
theorem appendBits_encode (chunks : List Chunk) (chunk : Chunk) {bits : Bits256}
    (same : bits.elements = chunk.elements) (many : 32 ≤ chunk.elements.card)
    : (encode chunks).appendBits chunk.id bits = encode (chunks ++ [chunk]) := by
  have isBits : bits = chunk.bits :=
    Bits256.elements_injective (same.trans chunk.elements_bits.symm)
  rw [appendBits]
  by_cases full : chunk.elements = Finset.univ
  · have isAll : bits = Bits256.all :=
      Bits256.elements_injective ((same.trans full).trans Bits256.elements_all.symm)
    rw [if_pos isAll, encode_concat_of_full chunks (chunk.kind_full_iff.mpr full)]
  · have notAll : bits ≠ Bits256.all := by
      intro isAll
      rw [isAll, Bits256.elements_all] at same
      exact full same.symm
    have isDense := chunk.kind_dense_iff.mpr ⟨many, full⟩
    rw [if_neg notAll, encode_concat_of_dense chunks isDense, isBits]

/-- What the loop over two ascending ranges has appended and left: the elements are those of both
ranges, and it stops before a range is used up only if the block cannot be sparse.
-/
structure MergedTo (merged ls rs : List Byte) (result : List Byte × List Byte × List Byte)
    : Prop where
  left : (result.1 ++ result.2.1).Pairwise (· < ·)
  right : (result.1 ++ result.2.2).Pairwise (· < ·)
  elements
    : (result.1 ++ result.2.1 ++ result.2.2).toFinset = (merged ++ ls ++ rs).toFinset
  stops : result.2.1 = [] ∨ result.2.2 = [] ∨ 31 ≤ result.1.length

theorem pairwise_concat_cons {merged ls : List Byte} {l r : Byte} {rs : List Byte}
    (left : (merged ++ l :: ls).Pairwise (· < ·)) (right : (merged ++ r :: rs).Pairwise (· < ·))
    (less : l < r)
    : ((merged ++ [l]) ++ r :: rs).Pairwise (· < ·) := by
  obtain ⟨mergedAscending, leftAscending, before⟩ := List.pairwise_append.mp left
  obtain ⟨-, rightAscending, beforeRight⟩ := List.pairwise_append.mp right
  obtain ⟨above, restAscending⟩ := List.pairwise_cons.mp rightAscending
  rw [List.append_assoc, List.singleton_append]
  refine List.pairwise_append.mpr
    ⟨mergedAscending, List.pairwise_cons.mpr ⟨?_, rightAscending⟩, ?_⟩
  · intro n member
    rcases List.mem_cons.mp member with rfl | later
    · exact less
    · exact less.trans (above n later)
  · intro n isMerged other member
    rcases List.mem_cons.mp member with rfl | later
    · exact before n isMerged _ List.mem_cons_self
    · exact beforeRight n isMerged other later

/-- The loop of `mergeSparse`, by induction on its steps. -/
theorem mergeLoop_mergedTo {merged ls rs : List Byte} (left : (merged ++ ls).Pairwise (· < ·))
    (right : (merged ++ rs).Pairwise (· < ·))
    : MergedTo merged ls rs (mergeLoop merged ls rs) := by
  induction merged, ls, rs using mergeLoop.induct with
  | case1 merged rs =>
      rw [mergeLoop]
      exact ⟨by simpa using left, right, rfl, .inl rfl⟩
  | case2 merged ls notNil =>
      rw [mergeLoop]
      · exact ⟨left, by simpa using right, rfl, .inr (.inl rfl)⟩
      · exact notNil
  | case3 merged l ls r rs fits less ih =>
      rw [mergeLoop, if_pos fits, if_pos less]
      have step := ih (by simpa using left) (pairwise_concat_cons left right less)
      refine ⟨step.left, step.right, step.elements.trans ?_, step.stops⟩
      simp
  | case4 merged l ls r rs fits notLess less ih =>
      rw [mergeLoop, if_pos fits, if_neg notLess, if_pos less]
      have step := ih (pairwise_concat_cons right left less) (by simpa using right)
      refine ⟨step.left, step.right, step.elements.trans ?_, step.stops⟩
      ext n
      simp only [List.mem_toFinset, List.mem_append, List.mem_cons]
      tauto
  | case5 merged l ls r rs fits notLess notGreater ih =>
      rw [mergeLoop, if_pos fits, if_neg notLess, if_neg notGreater]
      obtain rfl : l = r := le_antisymm (not_lt.mp notGreater) (not_lt.mp notLess)
      have step := ih (by simpa using left) (by simpa using right)
      refine ⟨step.left, step.right, step.elements.trans ?_, step.stops⟩
      ext n
      simp
  | case6 merged l ls r rs full =>
      rw [mergeLoop, if_neg full]
      have long : 31 ≤ merged.length := by
        rw [fitsSparse_iff] at full
        omega
      exact ⟨left, right, rfl, .inr (.inr long)⟩

/-- When one of the ranges is used up, the other one goes on in ascending order. -/
theorem MergedTo.ascending {merged ls rs : List Byte} {result : List Byte × List Byte × List Byte}
    (isMerged : MergedTo merged ls rs result) (usedUp : result.2.1 = [] ∨ result.2.2 = [])
    : (result.1 ++ result.2.1 ++ result.2.2).Pairwise (· < ·) := by
  rcases usedUp with isNil | isNil
  · rw [isNil, List.append_nil]
    exact isMerged.right
  · rw [isNil, List.append_nil]
    exact isMerged.left

theorem elements_withVals_ofVals (merged ls rs : List Byte)
    : (((Bits256.ofVals merged).withVals ls).withVals rs).elements
      = (merged ++ ls ++ rs).toFinset := by
  rw [Bits256.elements_withVals, Bits256.elements_withVals, Bits256.elements_ofVals,
    List.toFinset_append, List.toFinset_append]

/-- The loop leaves ranges that are too long only for unions that are not sparse. -/
theorem MergedTo.many {merged ls rs : List Byte} {result : List Byte × List Byte × List Byte}
    (isMerged : MergedTo merged ls rs result)
    (long : 32 ≤ result.1.length + (result.2.1.length + result.2.2.length))
    : 32 ≤ (result.1 ++ result.2.1 ++ result.2.2).toFinset.card := by
  by_cases usedUp : result.2.1 = [] ∨ result.2.2 = []
  · rw [card_of_ascending (isMerged.ascending usedUp), List.length_append, List.length_append]
    omega
  · rw [not_or] at usedUp
    have most := (isMerged.stops.resolve_left usedUp.1).resolve_left usedUp.2
    have some := List.length_pos_iff.mpr usedUp.1
    have part : (result.1 ++ result.2.1).toFinset
        ⊆ (result.1 ++ result.2.1 ++ result.2.2).toFinset := by
      intro n member
      rw [List.mem_toFinset] at member ⊢
      exact List.mem_append_left _ member
    have less := Finset.card_le_card part
    rw [card_of_ascending isMerged.left, List.length_append] at less
    omega

/-- Two sparse blocks are merged into a sparse one if the union has few enough elements. -/
theorem mergeSparse_encode (chunks : List Chunk) {left right : Chunk} (union : Chunk)
    (leftFew : left.elements.card < 32) (rightFew : right.elements.card < 32)
    (isUnion : union.elements = left.elements ∪ right.elements)
    : (encode chunks).mergeSparse union.id left.vals right.vals = encode (chunks ++ [union]) := by
  have isMerged : MergedTo [] left.vals right.vals (mergeLoop [] left.vals right.vals) :=
    mergeLoop_mergedTo left.vals_ascending right.vals_ascending
  rw [mergeSparse]
  generalize mergeLoop [] left.vals right.vals = result at isMerged
  obtain ⟨merged, ls, rs⟩ := result
  have elements : (merged ++ ls ++ rs).toFinset = union.elements := by
    rw [isMerged.elements, isUnion, List.nil_append, List.toFinset_append, left.toFinset_vals,
      right.toFinset_vals]
  dsimp only
  by_cases fits : fitsSparse merged.length (ls.length + rs.length) = true
  · rw [if_pos fits]
    rw [fitsSparse_iff] at fits
    have usedUp : ls = [] ∨ rs = [] := by
      rcases isMerged.stops with isNil | isNil | most
      · exact .inl isNil
      · exact .inr isNil
      · dsimp only at most
        exact .inl (List.length_eq_zero_iff.mp (by omega))
    have few : (merged ++ ls ++ rs).length < 32 := by
      rw [List.length_append, List.length_append]
      omega
    rw [encode_concat_sparse chunks union (isMerged.ascending usedUp) elements few]
    simp [Nat.add_assoc]
  · rw [if_neg fits]
    rw [fitsSparse_iff] at fits
    have many : 32 ≤ union.elements.card := by
      rw [← elements]
      exact isMerged.many (by dsimp only; omega)
    have same := (elements_withVals_ofVals merged ls rs).trans elements
    have notAll : ((Bits256.ofVals merged).withVals ls).withVals rs ≠ Bits256.all := by
      intro isAll
      have most := Finset.card_union_le left.elements right.elements
      rw [isAll, Bits256.elements_all] at same
      rw [← isUnion, ← same, Finset.card_univ, Fintype.card_fin] at most
      omega
    rw [← appendBits_encode chunks union same many, appendBits, if_neg notAll]

/-- Merging two blocks with one id appends the block of their union, by cases on both types. -/
theorem mergeBlock_encode (chunks : List Chunk) {block other : Block} {left right : Chunk}
    (isLeft : block.Is left) (isRight : other.Is right) (sameId : left.id = right.id)
    : (encode chunks).mergeBlock block other
      = encode (chunks ++ [⟨left.id, left.elements ∪ right.elements⟩]) := by
  have full {chunk : Chunk} (isFull : chunk.kind = .full) (isId : chunk.id = left.id)
      (within : chunk.elements ⊆ left.elements ∪ right.elements)
      : chunk = ⟨left.id, left.elements ∪ right.elements⟩ := by
    refine Chunk.ext isId ?_
    have all := chunk.kind_full_iff.mp isFull
    rw [all] at within ⊢
    exact (Finset.univ_subset_iff.mp within).symm
  have many {chunk : Chunk} (isDense : chunk.kind = .dense)
      (within : chunk.elements ⊆ left.elements ∪ right.elements)
      : 32 ≤ (left.elements ∪ right.elements).card :=
    le_trans (chunk.kind_dense_iff.mp isDense).1 (Finset.card_le_card within)
  rw [mergeBlock, isLeft.type, isRight.type, isLeft.id]
  cases isLeftKind : left.kind with
  | sparse =>
      cases isRightKind : right.kind with
      | sparse =>
          dsimp only
          rw [isLeft.vals isLeftKind, isRight.vals isRightKind]
          exact mergeSparse_encode chunks ⟨left.id, left.elements ∪ right.elements⟩
            (left.kind_sparse_iff.mp isLeftKind) (right.kind_sparse_iff.mp isRightKind) rfl
      | dense =>
          dsimp only
          rw [isLeft.vals isLeftKind, isRight.bits isRightKind]
          refine appendBits_encode chunks ⟨left.id, _⟩ ?_
            (many isRightKind Finset.subset_union_right)
          rw [Bits256.elements_withVals, right.elements_bits, left.toFinset_vals,
            Finset.union_comm]
      | full =>
          have isUnion := full isRightKind sameId.symm Finset.subset_union_right
          dsimp only
          rw [← isUnion, encode_concat_of_full chunks isRightKind, isRight.hdr, Chunk.hdr,
            isRightKind]
  | dense =>
      cases isRightKind : right.kind with
      | sparse =>
          dsimp only
          rw [isLeft.bits isLeftKind, isRight.vals isRightKind]
          refine appendBits_encode chunks ⟨left.id, _⟩ ?_
            (many isLeftKind Finset.subset_union_left)
          rw [Bits256.elements_withVals, left.elements_bits, right.toFinset_vals]
      | dense =>
          dsimp only
          rw [isLeft.bits isLeftKind, isRight.bits isRightKind]
          refine appendBits_encode chunks ⟨left.id, _⟩ ?_
            (many isLeftKind Finset.subset_union_left)
          rw [Bits256.elements_or, left.elements_bits, right.elements_bits]
      | full =>
          have isUnion := full isRightKind sameId.symm Finset.subset_union_right
          dsimp only
          rw [← isUnion, encode_concat_of_full chunks isRightKind, isRight.hdr, Chunk.hdr,
            isRightKind]
  | full =>
      have isUnion := full isLeftKind rfl Finset.subset_union_left
      dsimp only
      rw [← isUnion, encode_concat_of_full chunks isLeftKind, isLeft.hdr, Chunk.hdr, isLeftKind]

theorem insert_vals {id : Nat} {elements : Finset Byte} {bit : Byte}
    (above : ∀ n ∈ elements, n < bit)
    : (Chunk.mk id elements).vals ++ [bit] = (Chunk.mk id (insert bit elements)).vals := by
  have ascending : ((Chunk.mk id elements).vals ++ [bit]).Pairwise (· < ·) := by
    refine List.pairwise_append.mpr
      ⟨(Chunk.mk id elements).vals_ascending, List.pairwise_singleton _ _, ?_⟩
    intro n member other isBit
    rw [List.mem_singleton.mp isBit]
    exact above n ((Chunk.mk id elements).mem_vals.mp member)
  have same : ((Chunk.mk id elements).vals ++ [bit]).toFinset = insert bit elements := by
    rw [List.toFinset_append, Chunk.toFinset_vals, Finset.union_comm]
    rfl
  rw [← same]
  exact (vals_of_ascending ascending).symm

/-- The last element of a sparse block. -/
theorem getLast?_sparse (before : List Byte) {chunk : Chunk} (nonempty : chunk.elements.Nonempty)
    : ∃ last ∈ chunk.elements, (before ++ chunk.vals).getLast? = some last
        ∧ ∀ n ∈ chunk.elements, n ≤ last := by
  have notNil : chunk.vals ≠ [] := by
    intro isNil
    have card := chunk.length_vals
    rw [isNil, List.length_nil] at card
    exact Finset.card_ne_zero.mpr nonempty card.symm
  refine ⟨chunk.vals.getLast notNil, chunk.mem_vals.mp (List.getLast_mem notNil), ?_, ?_⟩
  · rw [List.getLast?_append_of_ne_nil _ notNil, List.getLast?_eq_some_getLast notNil]
  · intro n member
    have ascending := chunk.vals_ascending
    rw [← List.dropLast_append_getLast notNil] at ascending
    have isVal := chunk.mem_vals.mpr member
    rw [← List.dropLast_append_getLast notNil] at isVal
    rcases List.mem_append.mp isVal with isBefore | isLast
    · exact le_of_lt ((List.pairwise_append.mp ascending).2.2 n isBefore _ List.mem_cons_self)
    · exact le_of_eq (List.mem_singleton.mp isLast)

/-- Appending to a sparse block, which becomes dense with its 32nd element. -/
theorem appendSparse_encode (passed : List Chunk) {chunk : Chunk} {bit : Byte}
    (isSparse : chunk.kind = .sparse) (nonempty : chunk.elements.Nonempty)
    (notBelow : ∀ n ∈ chunk.elements, n ≤ bit)
    : (encode (passed ++ [chunk])).appendSparse chunk.hdr chunk.id bit
      = some (encode (passed ++ [⟨chunk.id, insert bit chunk.elements⟩])) := by
  have few := chunk.kind_sparse_iff.mp isSparse
  obtain ⟨last, isElement, isLast, greatest⟩ :=
    getLast?_sparse (encode passed).sparse nonempty
  have notLess : ¬ bit < last := not_lt.mpr (notBelow last isElement)
  have len : chunk.hdr.sparseLen = chunk.elements.card := by
    rw [chunk.sparseLen_hdr, Chunk.sparse, isSparse, chunk.length_vals]
  have hdr : chunk.hdr = .sparse chunk.id chunk.elements.card := by rw [Chunk.hdr, isSparse]
  rw [encode_concat_of_sparse passed isSparse, appendSparse]
  dsimp only
  rw [isLast]
  dsimp only
  rw [if_neg notLess, len, List.dropLast_concat]
  by_cases isSame : bit = last
  · have same : insert bit chunk.elements = chunk.elements :=
      Finset.insert_eq_of_mem (isSame ▸ isElement)
    rw [if_pos isSame, same, encode_concat_of_sparse passed isSparse]
  · have less : last < bit := lt_of_le_of_ne (notBelow last isElement) (Ne.symm isSame)
    have above : ∀ n ∈ chunk.elements, n < bit := fun n member =>
      lt_of_le_of_lt (greatest n member) less
    have fresh : bit ∉ chunk.elements := fun member => lt_irrefl _ (above bit member)
    have card := Finset.card_insert_of_notMem fresh
    rw [if_neg isSame]
    by_cases fits : fitsSparse chunk.elements.card 1 = true
    · rw [if_pos fits]
      rw [fitsSparse_iff] at fits
      have staysSparse : (Chunk.mk chunk.id (insert bit chunk.elements)).kind = .sparse :=
        (Chunk.kind_sparse_iff _).mpr (by dsimp only; omega)
      rw [encode_concat_of_sparse passed staysSparse, ← insert_vals above, card, hdr,
        Hdr.addSparseLen_sparse _ (by omega), List.append_assoc]
    · rw [if_neg fits]
      rw [fitsSparse_iff] at fits
      have notFull : insert bit chunk.elements ≠ Finset.univ := by
        intro isFull
        rw [isFull, Finset.card_univ, Fintype.card_fin] at card
        omega
      have becomesDense : (Chunk.mk chunk.id (insert bit chunk.elements)).kind = .dense :=
        (Chunk.kind_dense_iff _).mpr ⟨by dsimp only; omega, notFull⟩
      have kept : ((encode passed).sparse ++ chunk.vals).length - chunk.elements.card
          = (encode passed).sparse.length := by
        rw [List.length_append, chunk.length_vals, Nat.add_sub_cancel]
      have bits : Bits256.ofVals chunk.vals ||| Bits256.single bit
          = (Chunk.mk chunk.id (insert bit chunk.elements)).bits := by
        refine Bits256.elements_injective ?_
        rw [Chunk.elements_bits, Bits256.elements_or, Bits256.elements_ofVals,
          chunk.toFinset_vals, Bits256.elements_single, Finset.union_comm]
        rfl
      rw [encode_concat_of_dense passed becomesDense, kept, List.drop_left, List.take_left, bits]

/-- Appending to a dense block, which may become full. -/
theorem appendDense_encode (passed : List Chunk) {chunk : Chunk} {bit : Byte}
    (isDense : chunk.kind = .dense)
    : (encode (passed ++ [chunk])).appendDense chunk.id bit
      = some (encode (passed ++ [⟨chunk.id, insert bit chunk.elements⟩])) := by
  have many := (chunk.kind_dense_iff.mp isDense).1
  have manyMore : 32 ≤ (insert bit chunk.elements).card :=
    le_trans many (Finset.card_le_card (Finset.subset_insert _ _))
  have same : (chunk.bits ||| Bits256.single bit).elements
      = (Chunk.mk chunk.id (insert bit chunk.elements)).elements := by
    rw [Bits256.elements_or, chunk.elements_bits, Bits256.elements_single, Finset.union_comm]
    rfl
  rw [encode_concat_of_dense passed isDense, appendDense]
  dsimp only
  rw [List.getLast?_concat]
  dsimp only
  rw [List.dropLast_concat, List.dropLast_concat,
    ← appendBits_encode passed ⟨chunk.id, insert bit chunk.elements⟩ same manyMore, appendBits]
  split
  · rfl
  · rfl

/-- A value in the last block, which no element of the block is above. -/
theorem append_encode_last (passed : List Chunk) {chunk : Chunk} {value : Nat}
    (nonempty : chunk.elements.Nonempty) (isBlock : chunk.id = value / 256)
    (notBelow : ∀ n ∈ chunk.elements, n ≤ Fin.ofNat 256 value)
    : (encode (passed ++ [chunk])).append value
      = some (encode (passed ++ [⟨chunk.id, insert (Fin.ofNat 256 value) chunk.elements⟩])) := by
  have isLast : (encode (passed ++ [chunk])).hdrs.getLast? = some chunk.hdr := by
    rw [encode_concat]
    exact List.getLast?_concat
  rw [append, isLast]
  dsimp only
  rw [if_pos (chunk.id_hdr.trans isBlock), chunk.type_hdr, ← isBlock]
  cases isKind : chunk.kind with
  | sparse => exact appendSparse_encode passed isKind nonempty notBelow
  | dense => exact appendDense_encode passed isKind
  | full =>
      have all := chunk.kind_full_iff.mp isKind
      have isTop : Fin.ofNat 256 value = 255 :=
        le_antisymm (Fin.le_last _) (notBelow 255 (all ▸ Finset.mem_univ _))
      have same : insert (Fin.ofNat 256 value) chunk.elements = chunk.elements :=
        Finset.insert_eq_of_mem (all ▸ Finset.mem_univ _)
      dsimp only
      rw [if_pos isTop, same]

/-- A value in a new block. -/
theorem append_encode_new (chunks : List Chunk) {value : Nat}
    (isNew : ∀ chunk ∈ chunks.getLast?, chunk.id ≠ value / 256)
    : (encode chunks).append value
      = some (encode (chunks ++ [⟨value / 256, {Fin.ofNat 256 value}⟩])) := by
  have one : (encode chunks).appendBlock (value / 256) (Fin.ofNat 256 value)
      = encode (chunks ++ [⟨value / 256, {Fin.ofNat 256 value}⟩]) := by
    rw [encode_concat_sparse chunks ⟨value / 256, {Fin.ofNat 256 value}⟩
      (List.pairwise_singleton _ (Fin.ofNat 256 value)) (by simp) (by simp)]
    rfl
  have getLast : (encode chunks).hdrs.getLast? = chunks.getLast?.map Chunk.hdr :=
    List.getLast?_map
  rw [append, getLast, one]
  cases isLast : chunks.getLast? with
  | none => rfl
  | some chunk =>
      have different : chunk.hdr.id ≠ value / 256 := chunk.id_hdr ▸ isNew chunk isLast
      rw [Option.map_some]
      dsimp only
      rw [if_neg different]

/-- A number is in the block of its upper 24 bits. -/
def Contains (chunks : List Chunk) (value : Nat) : Prop :=
  ∃ chunk ∈ chunks, chunk.id = value / 256 ∧ Fin.ofNat 256 value ∈ chunk.elements

theorem or_bit (id : Nat) (bit : Byte) : (id <<< 8) ||| bit.val = id * 256 + bit.val := by
  rw [← Nat.shiftLeft_add_eq_or_of_lt bit.isLt, Nat.shiftLeft_eq]

/-- The numbers of a block that an iterator shows. -/
theorem mem_block {block : Block} {chunk : Chunk} (isChunk : block.Is chunk) {value : Nat}
    : value ∈ block.elements.map (fun bit => (block.hdr.id <<< 8) ||| bit.val)
      ↔ chunk.id = value / 256 ∧ Fin.ofNat 256 value ∈ chunk.elements := by
  rw [List.mem_map, isChunk.id]
  constructor
  · rintro ⟨bit, member, rfl⟩
    have inside := bit.isLt
    rw [or_bit]
    have isBit : Fin.ofNat 256 (chunk.id * 256 + bit.val) = bit := by
      refine Fin.ext ?_
      rw [Fin.val_ofNat]
      omega
    rw [isBit]
    exact ⟨by omega, isChunk.mem_elements.mp member⟩
  · rintro ⟨isBlock, member⟩
    refine ⟨Fin.ofNat 256 value, isChunk.mem_elements.mpr member, ?_⟩
    rw [or_bit, Fin.val_ofNat]
    omega

/-- The blocks that an iterator shows, by induction on what is ahead of it. -/
theorem blocksFrom_encode (passed rest : List Chunk)
    : List.Forall₂ Block.Is
        ((encode (passed ++ rest)).blocksFrom rest.length (behind passed)) rest := by
  induction rest generalizing passed with
  | nil => exact .nil
  | cons chunk rest ih =>
      rw [List.length_cons, blocksFrom, next_encode]
      have later := ih (passed ++ [chunk])
      rw [List.append_assoc, List.singleton_append] at later
      exact .cons (block_encode passed rest chunk) later

theorem mem_values_encode {chunks : List Chunk} {value : Nat}
    : value ∈ (encode chunks).values ↔ Contains chunks value := by
  have shown := blocksFrom_encode [] chunks
  rw [values, show (encode chunks).hdrs.length = chunks.length from List.length_map _,
    List.mem_flatMap]
  change List.Forall₂ Block.Is ((encode chunks).blocksFrom chunks.length start) chunks at shown
  generalize (encode chunks).blocksFrom chunks.length start = blocks at shown
  induction shown with
  | nil => simp [Contains]
  | cons is shown ih =>
      rw [Contains, List.exists_mem_cons_iff, List.exists_mem_cons_iff]
      exact or_congr (mem_block is) ih

end Glean.RTS.SetU32
