import Mathlib.Data.Finset.Sort
import Mathlib.Data.Fintype.Basic
import Mathlib.Data.Fintype.Card
import Glean.Ownership.SetU32

/-! The one representation of a set of 32-bit numbers: the arrays hold the contents of blocks in
ascending order, and the number of elements of a block decides its type.
-/

namespace Glean.RTS

namespace Bits256

/-- The numbers whose bits are set. -/
def elements (bits : Bits256) : Finset Byte :=
  Finset.univ.filter (fun n => bits.getLsbD n.val)

variable {bits other : Bits256} {n : Byte}

theorem mem_elements : n ∈ bits.elements ↔ bits.getLsbD n.val = true := by
  simp [elements]

theorem elements_injective (same : bits.elements = other.elements) : bits = other := by
  refine BitVec.eq_of_getLsbD_eq (fun index inside => ?_)
  have alike : (⟨index, inside⟩ : Byte) ∈ bits.elements ↔ ⟨index, inside⟩ ∈ other.elements := by
    rw [same]
  rw [mem_elements, mem_elements] at alike
  exact Bool.eq_iff_iff.mpr alike

@[simp]
theorem elements_none : none.elements = ∅ := by
  ext n
  simp [mem_elements, none]

@[simp]
theorem elements_all : all.elements = Finset.univ := by
  ext n
  rw [mem_elements, all, BitVec.getLsbD_allOnes]
  simp

@[simp]
theorem elements_single (n : Byte) : (single n).elements = {n} := by
  ext other
  have inside := other.isLt
  rw [mem_elements, single, BitVec.getLsbD_shiftLeft, BitVec.getLsbD_one, Finset.mem_singleton,
    Fin.ext_iff]
  simp only [Bool.and_eq_true, Bool.not_eq_eq_eq_not, Bool.not_true, decide_eq_true_eq,
    decide_eq_false_iff_not]
  omega

@[simp]
theorem elements_or (bits other : Bits256)
    : (bits ||| other).elements = bits.elements ∪ other.elements := by
  ext n
  simp only [mem_elements, BitVec.getLsbD_or, Bool.or_eq_true, Finset.mem_union]

theorem elements_and (bits other : Bits256)
    : (bits &&& other).elements = bits.elements ∩ other.elements := by
  ext n
  simp only [mem_elements, BitVec.getLsbD_and, Bool.and_eq_true, Finset.mem_inter]

@[simp]
theorem elements_withVals (bits : Bits256) (vals : List Byte)
    : (bits.withVals vals).elements = bits.elements ∪ vals.toFinset := by
  induction vals generalizing bits with
  | nil => simp [withVals]
  | cons val vals ih =>
      have step : bits.withVals (val :: vals) = (bits ||| single val).withVals vals := rfl
      rw [step, ih, elements_or, elements_single, List.toFinset_cons, Finset.insert_eq,
        Finset.union_assoc]

theorem elements_ofVals (vals : List Byte) : (ofVals vals).elements = vals.toFinset := by
  rw [ofVals, elements_withVals, elements_none, Finset.empty_union]

theorem eq_zero_iff : bits = 0#256 ↔ bits.elements = ∅ := by
  constructor
  · rintro rfl
    exact elements_none
  · intro isEmpty
    exact elements_injective (isEmpty.trans elements_none.symm)

theorem includes_iff : bits.includes other = true ↔ other.elements ⊆ bits.elements := by
  rw [includes, beq_iff_eq, eq_zero_iff, Finset.eq_empty_iff_forall_notMem]
  refine forall_congr' (fun n => ?_)
  have inside := n.isLt
  simp only [mem_elements, BitVec.getLsbD_and, BitVec.getLsbD_not, inside, decide_true,
    Bool.true_and, Bool.and_eq_true, Bool.not_eq_eq_eq_not, Bool.not_true, not_and,
    Bool.not_eq_true]
  cases bits.getLsbD n.val <;> simp

theorem contains_iff : bits.contains n = true ↔ n ∈ bits.elements := by
  rw [contains, bne_iff_ne, ne_eq, eq_zero_iff, ← ne_eq, ← Finset.nonempty_iff_ne_empty]
  rw [elements_and, elements_single, Finset.inter_singleton]
  split
  next member => exact iff_of_true (Finset.singleton_nonempty n) member
  next absent => exact iff_of_false Finset.not_nonempty_empty absent

end Bits256

namespace Hdr

theorem value_ofType (id : Nat) {len type : Nat} (short : len < 64) (isType : type < 4)
    : (ofType id len type).value = id * 256 + (len * 4 + type) := by
  have low : (len <<< 2) ||| type = len * 4 + type := by
    rw [← Nat.shiftLeft_add_eq_or_of_lt isType, Nat.shiftLeft_eq]
  have inside : len * 4 + type < 2 ^ 8 := by omega
  rw [ofType, low, ← Nat.shiftLeft_add_eq_or_of_lt inside, Nat.shiftLeft_eq]

theorem id_ofType (id : Nat) {len type : Nat} (short : len < 64) (isType : type < 4)
    : (ofType id len type).id = id := by
  rw [Hdr.id, value_ofType id short isType, Nat.shiftRight_eq_div_pow]
  omega

theorem sparseLen_ofType (id : Nat) {len type : Nat} (short : len < 64) (isType : type < 4)
    : (ofType id len type).sparseLen = len := by
  rw [sparseLen, value_ofType id short isType, Nat.shiftRight_eq_div_pow]
  omega

theorem denseLen_ofType (id : Nat) {len type : Nat} (short : len < 64) (isType : type < 4)
    : (ofType id len type).denseLen = type % 2 := by
  rw [denseLen, value_ofType id short isType]
  omega

theorem type_ofType (id : Nat) {len type : Nat} (short : len < 64) (isType : type < 4)
    : (ofType id len type).type
      = if type = 0 then .sparse else if type = 1 then .dense else .full := by
  have same : (id * 256 + (len * 4 + type)) % 4 = type := by omega
  rw [Hdr.type, value_ofType id short isType, same]

theorem before_ofType (id other : Nat) {len type : Nat} (short : len < 64) (isType : type < 4)
    : (ofType id len type).before other = decide (id < other) := by
  rw [before, value_ofType id short isType, Nat.shiftLeft_eq]
  refine decide_eq_decide.mpr ?_
  omega

theorem addSparseLen_sparse (id : Nat) {len : Nat} (short : len + 1 < 64)
    : (sparse id len).addSparseLen 1 = sparse id (len + 1) := by
  have value : ((sparse id len).addSparseLen 1).value = (sparse id (len + 1)).value := by
    rw [addSparseLen, sparse, sparse, value_ofType id (by omega) (by omega),
      value_ofType id short (by omega), Nat.shiftLeft_eq]
    dsimp only
    omega
  exact congrArg Hdr.mk value

end Hdr

/-- A block as the set of its elements. -/
@[ext]
structure Chunk where
  id : Nat
  elements : Finset Byte

namespace Chunk

open Hdr (HdrType)

/-- The type of a block follows from the number of its elements. -/
def kind (chunk : Chunk) : HdrType :=
  if chunk.elements.card < 32 then .sparse
  else if chunk.elements.card = 256 then .full
  else .dense

def hdr (chunk : Chunk) : Hdr :=
  match chunk.kind with
  | .sparse => .sparse chunk.id chunk.elements.card
  | .dense => .dense chunk.id
  | .full => .full chunk.id

def vals (chunk : Chunk) : List Byte := chunk.elements.sort (· ≤ ·)

def bits (chunk : Chunk) : Bits256 := .ofVals chunk.vals

/-- What the block has in the array of bit sets. -/
def dense (chunk : Chunk) : List Bits256 :=
  match chunk.kind with
  | .dense => [chunk.bits]
  | _ => []

/-- What the block has in the array of single elements. -/
def sparse (chunk : Chunk) : List Byte :=
  match chunk.kind with
  | .sparse => chunk.vals
  | _ => []

variable (chunk : Chunk)

@[simp]
theorem toFinset_vals : chunk.vals.toFinset = chunk.elements :=
  Finset.sort_toFinset _ _

@[simp]
theorem mem_vals {n : Byte} : n ∈ chunk.vals ↔ n ∈ chunk.elements :=
  Finset.mem_sort _

@[simp]
theorem length_vals : chunk.vals.length = chunk.elements.card :=
  Finset.length_sort _

@[simp]
theorem elements_bits : chunk.bits.elements = chunk.elements := by
  rw [bits, Bits256.elements_ofVals, toFinset_vals]

theorem card_eq_iff : chunk.elements.card = 256 ↔ chunk.elements = Finset.univ := by
  have all := Finset.card_eq_iff_eq_univ chunk.elements
  rwa [Fintype.card_fin] at all

theorem kind_sparse_iff : chunk.kind = .sparse ↔ chunk.elements.card < 32 := by
  unfold kind
  split_ifs with few full
  · simp [few]
  · simp [few]
  · simp [few]

theorem kind_full_iff : chunk.kind = .full ↔ chunk.elements = Finset.univ := by
  rw [← card_eq_iff]
  unfold kind
  split_ifs with few full
  · simp only [false_iff]
    omega
  · simp [full]
  · simp [full]

theorem kind_dense_iff
    : chunk.kind = .dense ↔ 32 ≤ chunk.elements.card ∧ chunk.elements ≠ Finset.univ := by
  rw [ne_eq, ← card_eq_iff]
  unfold kind
  split_ifs with few full
  · simp only [false_iff]
    omega
  · simp [full]
  · simp only [true_iff]
    omega

theorem card_short (isSparse : chunk.kind = .sparse) : chunk.elements.card < 64 := by
  have few := chunk.kind_sparse_iff.mp isSparse
  omega

theorem id_hdr : chunk.hdr.id = chunk.id := by
  cases isKind : chunk.kind with
  | sparse =>
      rw [hdr, isKind]
      exact Hdr.id_ofType _ (chunk.card_short isKind) (by decide)
  | dense =>
      rw [hdr, isKind]
      exact Hdr.id_ofType _ (by decide) (by decide)
  | full =>
      rw [hdr, isKind]
      exact Hdr.id_ofType _ (by decide) (by decide)

theorem type_hdr : chunk.hdr.type = chunk.kind := by
  cases isKind : chunk.kind with
  | sparse =>
      rw [hdr, isKind]
      exact Hdr.type_ofType _ (chunk.card_short isKind) (by decide)
  | dense =>
      rw [hdr, isKind]
      exact Hdr.type_ofType _ (by decide) (by decide)
  | full =>
      rw [hdr, isKind]
      exact Hdr.type_ofType _ (by decide) (by decide)

theorem before_hdr (other : Nat) : chunk.hdr.before other = decide (chunk.id < other) := by
  cases isKind : chunk.kind with
  | sparse =>
      rw [hdr, isKind]
      exact Hdr.before_ofType _ _ (chunk.card_short isKind) (by decide)
  | dense =>
      rw [hdr, isKind]
      exact Hdr.before_ofType _ _ (by decide) (by decide)
  | full =>
      rw [hdr, isKind]
      exact Hdr.before_ofType _ _ (by decide) (by decide)

theorem sparseLen_hdr : chunk.hdr.sparseLen = chunk.sparse.length := by
  cases isKind : chunk.kind with
  | sparse =>
      rw [hdr, sparse, isKind]
      exact (Hdr.sparseLen_ofType _ (chunk.card_short isKind) (by decide)).trans
        chunk.length_vals.symm
  | dense =>
      rw [hdr, sparse, isKind]
      exact Hdr.sparseLen_ofType _ (by decide) (by decide)
  | full =>
      rw [hdr, sparse, isKind]
      exact Hdr.sparseLen_ofType _ (by decide) (by decide)

theorem denseLen_hdr : chunk.hdr.denseLen = chunk.dense.length := by
  cases isKind : chunk.kind with
  | sparse =>
      rw [hdr, dense, isKind]
      exact Hdr.denseLen_ofType _ (chunk.card_short isKind) (by decide)
  | dense =>
      rw [hdr, dense, isKind]
      exact Hdr.denseLen_ofType _ (by decide) (by decide)
  | full =>
      rw [hdr, dense, isKind]
      exact Hdr.denseLen_ofType _ (by decide) (by decide)

end Chunk

namespace SetU32

/-- The arrays of a list of blocks. -/
def encode (chunks : List Chunk) : SetU32 where
  hdrs := chunks.map Chunk.hdr
  dense := chunks.flatMap Chunk.dense
  sparse := chunks.flatMap Chunk.sparse

/-- Blocks in ascending order of their ids, of at most 24 bits, none of them empty. -/
structure Ordered (chunks : List Chunk) : Prop where
  ascending : chunks.Pairwise (fun left right => left.id < right.id)
  nonempty : ∀ chunk ∈ chunks, chunk.elements.Nonempty
  bounded : ∀ chunk ∈ chunks, chunk.id < 2 ^ 24

/-- The arrays are those of some blocks. -/
def Canonical (set : SetU32) : Prop :=
  ∃ chunks, Ordered chunks ∧ set = encode chunks

/-- The position behind some blocks. -/
def behind (passed : List Chunk) : Iter where
  hdrs := passed.length
  dense := (passed.flatMap Chunk.dense).length
  sparse := (passed.flatMap Chunk.sparse).length

theorem finish_encode (chunks : List Chunk) : (encode chunks).finish = behind chunks := by
  simp only [finish, encode, behind, List.length_map]

variable (passed rest : List Chunk) (chunk : Chunk)

theorem hdrAt_encode : (encode (passed ++ chunk :: rest)).hdrAt (behind passed) = chunk.hdr := by
  simp [hdrAt, encode, behind]

theorem next_encode
    : (encode (passed ++ chunk :: rest)).next (behind passed) = behind (passed ++ [chunk]) := by
  rw [next, hdrAt_encode, chunk.denseLen_hdr, chunk.sparseLen_hdr]
  simp [behind]

end SetU32

/-- A block that an iterator shows: its header, and pointers to its elements. -/
structure Block.Is (block : Block) (chunk : Chunk) : Prop where
  hdr : block.hdr = chunk.hdr
  dense : chunk.dense <+: block.dense
  sparse : chunk.sparse <+: block.sparse

namespace SetU32

theorem block_encode (passed rest : List Chunk) (chunk : Chunk)
    : ((encode (passed ++ chunk :: rest)).block (behind passed)).Is chunk where
  hdr := hdrAt_encode passed rest chunk
  dense := by simp [block, encode, behind]
  sparse := by simp [block, encode, behind]

theorem slice_append {α : Type} (before middle after : List α)
    : slice (before ++ (middle ++ after)) before.length (before ++ middle).length = middle := by
  simp [slice]

theorem appendRange_encode (chunks passed middle rest : List Chunk)
    : (encode chunks).appendRange (encode (passed ++ (middle ++ rest))) (behind passed)
          (behind (passed ++ middle))
      = encode (chunks ++ middle) := by
  have hdrs := slice_append (encode passed).hdrs (encode middle).hdrs (encode rest).hdrs
  have dense := slice_append (encode passed).dense (encode middle).dense (encode rest).dense
  have sparse := slice_append (encode passed).sparse (encode middle).sparse (encode rest).sparse
  simp only [encode, List.length_append, List.length_map] at hdrs dense sparse
  simp only [appendRange, encode, behind, List.map_append, List.flatMap_append,
    List.length_append, hdrs, dense, sparse]

theorem sum_denseLen (chunks : List Chunk)
    : ((chunks.map Chunk.hdr).map Hdr.denseLen).sum = (chunks.flatMap Chunk.dense).length := by
  induction chunks with
  | nil => rfl
  | cons chunk chunks ih =>
      rw [List.map_cons, List.map_cons, List.sum_cons, ih, chunk.denseLen_hdr,
        List.flatMap_cons, List.length_append]

theorem sum_sparseLen (chunks : List Chunk)
    : ((chunks.map Chunk.hdr).map Hdr.sparseLen).sum = (chunks.flatMap Chunk.sparse).length := by
  induction chunks with
  | nil => rfl
  | cons chunk chunks ih =>
      rw [List.map_cons, List.map_cons, List.sum_cons, ih, chunk.sparseLen_hdr,
        List.flatMap_cons, List.length_append]

theorem takeWhile_before {middle rest : List Chunk} {id : Nat}
    (before : ∀ chunk ∈ middle, chunk.id < id) (notBefore : ∀ chunk ∈ rest.head?, id ≤ chunk.id)
    : ((middle ++ rest).map Chunk.hdr).takeWhile (fun hdr => hdr.before id)
      = middle.map Chunk.hdr := by
  induction middle with
  | nil =>
      cases rest with
      | nil => rfl
      | cons chunk rest =>
          have stops : ¬ chunk.hdr.before id = true := by
            rw [chunk.before_hdr, decide_eq_true_eq]
            exact not_lt.mpr (notBefore chunk rfl)
          exact List.takeWhile_cons_of_neg stops
  | cons chunk middle ih =>
      rw [List.forall_mem_cons] at before
      have goesOn : chunk.hdr.before id = true := by
        rw [chunk.before_hdr, decide_eq_true_eq]
        exact before.1
      rw [List.cons_append, List.map_cons, List.map_cons, List.takeWhile_cons, if_pos goesOn,
        ih before.2]

/-- Up to the first block that is not before the id. -/
theorem lowerBound_encode (passed middle rest : List Chunk) {id : Nat}
    (before : ∀ chunk ∈ middle, chunk.id < id) (notBefore : ∀ chunk ∈ rest.head?, id ≤ chunk.id)
    : (encode (passed ++ (middle ++ rest))).lowerBound (behind passed)
          (encode (passed ++ (middle ++ rest))).finish id
      = behind (passed ++ middle) := by
  have ahead : slice (encode (passed ++ (middle ++ rest))).hdrs (behind passed).hdrs
      (encode (passed ++ (middle ++ rest))).finish.hdrs = (middle ++ rest).map Chunk.hdr := by
    simp [slice, encode, behind, finish]
  have first : (middle ++ rest).map Chunk.hdr = middle.map Chunk.hdr ++ rest.map Chunk.hdr :=
    List.map_append
  unfold lowerBound
  rw [ahead]
  dsimp only
  rw [takeWhile_before before notBefore, first, List.take_left, List.drop_left, sum_denseLen,
    sum_sparseLen, sum_denseLen, sum_sparseLen, finish_encode]
  have position : (behind passed).hdrs + (middle.map Chunk.hdr).length
      = (behind (passed ++ middle)).hdrs := by
    simp [behind]
  rw [position]
  split
  · simp [behind]
  · refine congrArg₂ (Iter.mk _) ?_ ?_
    · simp only [behind, List.flatMap_append, List.length_append]
      omega
    · simp only [behind, List.flatMap_append, List.length_append]
      omega

end SetU32

theorem Chunk.vals_ascending (chunk : Chunk) : chunk.vals.Pairwise (· < ·) :=
  Finset.sortedLT_sort _ |>.pairwise

/-- Equal blocks are those with the same header and the same elements. -/
theorem Chunk.eq_of_hdr_eq {chunk other : Chunk} (sameHdr : chunk.hdr = other.hdr)
    (same : chunk.kind ≠ .full → chunk.elements = other.elements)
    : chunk = other := by
  have sameId : chunk.id = other.id := by rw [← chunk.id_hdr, sameHdr, other.id_hdr]
  have sameKind : chunk.kind = other.kind := by rw [← chunk.type_hdr, sameHdr, other.type_hdr]
  refine Chunk.ext sameId ?_
  by_cases isFull : chunk.kind = .full
  · rw [chunk.kind_full_iff.mp isFull, other.kind_full_iff.mp (sameKind ▸ isFull)]
  · exact same isFull

namespace Block

variable {block other : Block} {chunk otherChunk : Chunk}

/-- Ascending ranges include each other as sets do, by induction on both. -/
theorem stdIncludes_iff {left right : List Byte} (leftAscending : left.Pairwise (· < ·))
    (rightAscending : right.Pairwise (· < ·))
    : stdIncludes left right = true ↔ ∀ n ∈ right, n ∈ left := by
  induction left generalizing right with
  | nil =>
      cases right with
      | nil => simp [stdIncludes]
      | cons n right =>
          simp only [stdIncludes, Bool.false_eq_true, false_iff, List.not_mem_nil]
          exact fun none => none n List.mem_cons_self
  | cons first left ih =>
      cases right with
      | nil => simp [stdIncludes]
      | cons n right =>
          obtain ⟨leftAbove, leftRest⟩ := List.pairwise_cons.mp leftAscending
          obtain ⟨rightAbove, rightRest⟩ := List.pairwise_cons.mp rightAscending
          rw [stdIncludes]
          split_ifs with below above
          · have absent : n ∉ first :: left := by
              intro member
              rcases List.mem_cons.mp member with rfl | later
              · exact lt_irrefl _ below
              · exact lt_asymm below (leftAbove n later)
            refine iff_of_false (by simp) ?_
            exact fun all => absent (all n List.mem_cons_self)
          · rw [ih leftRest rightAscending]
            constructor
            · intro all other member
              exact List.mem_cons_of_mem _ (all other member)
            · intro all other member
              rcases List.mem_cons.mp (all other member) with rfl | later
              · rcases List.mem_cons.mp member with same | behind
                · exact absurd same (ne_of_lt above)
                · exact absurd (rightAbove _ behind) (lt_asymm above)
              · exact later
          · obtain rfl : first = n := le_antisymm (not_lt.mp below) (not_lt.mp above)
            rw [ih leftRest rightRest, List.forall_mem_cons]
            constructor
            · intro all
              exact ⟨List.mem_cons_self, fun other member =>
                List.mem_cons_of_mem _ (all other member)⟩
            · intro all other member
              rcases List.mem_cons.mp (all.2 other member) with rfl | later
              · exact absurd (rightAbove _ member) (lt_irrefl _)
              · exact later

theorem Is.type (isChunk : block.Is chunk) : block.hdr.type = chunk.kind := by
  rw [isChunk.hdr, chunk.type_hdr]

theorem Is.id (isChunk : block.Is chunk) : block.hdr.id = chunk.id := by
  rw [isChunk.hdr, chunk.id_hdr]

theorem Is.vals (isChunk : block.Is chunk) (isSparse : chunk.kind = .sparse)
    : block.vals = chunk.vals := by
  obtain ⟨more, isSplit⟩ := isChunk.sparse
  have whole : chunk.sparse = chunk.vals := by rw [Chunk.sparse, isSparse]
  rw [Block.vals, isChunk.hdr, chunk.sparseLen_hdr, ← isSplit, List.take_left, whole]

theorem Is.bits (isChunk : block.Is chunk) (isDense : chunk.kind = .dense)
    : block.bits = chunk.bits := by
  obtain ⟨more, isSplit⟩ := isChunk.dense
  have whole : chunk.dense = [chunk.bits] := by rw [Chunk.dense, isDense]
  rw [Block.bits, ← isSplit, whole]
  rfl

theorem Is.eq_iff (isChunk : block.Is chunk) (isOther : other.Is otherChunk)
    : block.eq other = true ↔ chunk = otherChunk := by
  rw [Block.eq, Bool.and_eq_true, decide_eq_true_eq, isChunk.type, isChunk.hdr, isOther.hdr]
  constructor
  · intro same
    obtain ⟨sameHdr, sameContents⟩ := same
    have sameKind : otherChunk.kind = chunk.kind := by
      rw [← chunk.type_hdr, sameHdr, otherChunk.type_hdr]
    refine Chunk.eq_of_hdr_eq sameHdr (fun notFull => ?_)
    cases isKind : chunk.kind with
    | sparse =>
        have length : chunk.hdr.sparseLen = other.hdr.sparseLen := by
          rw [sameHdr, ← isOther.hdr]
        rw [isKind] at sameContents sameKind
        simp only [decide_eq_true_eq, length] at sameContents
        have sameVals : chunk.vals = otherChunk.vals := by
          rw [← isChunk.vals isKind, ← isOther.vals sameKind]
          exact sameContents
        rw [← chunk.toFinset_vals, sameVals, otherChunk.toFinset_vals]
    | dense =>
        rw [isKind] at sameContents sameKind
        simp only [decide_eq_true_eq, isChunk.bits isKind, isOther.bits sameKind] at sameContents
        rw [← chunk.elements_bits, sameContents, otherChunk.elements_bits]
    | full => exact absurd isKind notFull
  · rintro rfl
    refine ⟨rfl, ?_⟩
    cases isKind : chunk.kind with
    | sparse =>
        have length : chunk.hdr.sparseLen = other.hdr.sparseLen := by rw [isOther.hdr]
        simp only [decide_eq_true_eq, length]
        exact (isChunk.vals isKind).trans (isOther.vals isKind).symm
    | dense =>
        simp only [decide_eq_true_eq]
        exact (isChunk.bits isKind).trans (isOther.bits isKind).symm
    | full => rfl

/-- A full block includes every block, and no other block includes it. -/
theorem Is.includes_iff (isChunk : block.Is chunk) (isOther : other.Is otherChunk)
    : block.includes other = true
      ↔ chunk.id = otherChunk.id ∧ otherChunk.elements ⊆ chunk.elements := by
  rw [Block.includes, Bool.and_eq_true, decide_eq_true_eq, isChunk.type, isOther.type, isChunk.id,
    isOther.id]
  refine and_congr_right (fun _ => ?_)
  cases isKind : chunk.kind with
  | sparse =>
      have few := chunk.kind_sparse_iff.mp isKind
      cases isOtherKind : otherChunk.kind with
      | sparse =>
          dsimp only
          rw [isChunk.vals isKind, isOther.vals isOtherKind,
            stdIncludes_iff chunk.vals_ascending otherChunk.vals_ascending]
          simp only [Chunk.mem_vals]
          rfl
      | dense =>
          have many := (otherChunk.kind_dense_iff.mp isOtherKind).1
          simp only [Bool.false_eq_true, false_iff]
          intro included
          have less := Finset.card_le_card included
          omega
      | full =>
          have many := otherChunk.card_eq_iff.mpr (otherChunk.kind_full_iff.mp isOtherKind)
          simp only [Bool.false_eq_true, false_iff]
          intro included
          have less := Finset.card_le_card included
          omega
  | dense =>
      cases isOtherKind : otherChunk.kind with
      | sparse =>
          dsimp only
          rw [isChunk.bits isKind, isOther.vals isOtherKind, List.all_eq_true]
          simp only [Bits256.contains_iff, Chunk.elements_bits, Chunk.mem_vals]
          rfl
      | dense =>
          dsimp only
          rw [isChunk.bits isKind, isOther.bits isOtherKind, Bits256.includes_iff,
            Chunk.elements_bits, Chunk.elements_bits]
      | full =>
          have notFull := (chunk.kind_dense_iff.mp isKind).2
          rw [otherChunk.kind_full_iff.mp isOtherKind]
          simp only [Bool.false_eq_true, false_iff]
          exact fun included => notFull (Finset.univ_subset_iff.mp included)
  | full =>
      rw [chunk.kind_full_iff.mp isKind]
      simp

theorem Is.mem_elements (isChunk : block.Is chunk) {n : Byte}
    : n ∈ block.elements ↔ n ∈ chunk.elements := by
  rw [Block.elements, isChunk.type]
  cases isKind : chunk.kind with
  | sparse =>
      dsimp only
      rw [isChunk.vals isKind, Chunk.mem_vals]
  | dense =>
      dsimp only
      rw [isChunk.bits isKind]
      simp [Bits256.contains_iff]
  | full =>
      rw [chunk.kind_full_iff.mp isKind]
      simp

end Block

end Glean.RTS
