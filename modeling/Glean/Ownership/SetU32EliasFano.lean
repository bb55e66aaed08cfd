import Glean.Ownership.SetU32Run

/-! Sets of 32-bit numbers as they are merged and stored: the order of merges does not matter, and the
list that is stored for a set is read back as the same arrays.
-/

namespace Glean.RTS

namespace Bits256

/-- A pointer to the words of a bit set. -/
def word (bits : Bits256) (index : Nat) : BitVec 64 := bits.extractLsb' (64 * index) 64

/-- `_mm_popcnt_u64` -/
def popcnt (word : BitVec 64) : Nat := (List.range 64).countP word.getLsbD

def count (bits : Bits256) : Nat :=
  popcnt (bits.word 0) + popcnt (bits.word 1) + popcnt (bits.word 2) + popcnt (bits.word 3)

/-- The first word from above that has a bit, with `_lzcnt_u64`. -/
def upper (bits : Bits256) : Nat :=
  if (bits.word 3).clz.toNat < 64 then 255 - (bits.word 3).clz.toNat
  else if (bits.word 2).clz.toNat < 64 then 191 - (bits.word 2).clz.toNat
  else if (bits.word 1).clz.toNat < 64 then 127 - (bits.word 1).clz.toNat
  else 63 - (bits.word 0).clz.toNat

theorem popcnt_word (bits : Bits256) (index : Nat)
    : popcnt (bits.word index)
      = ((List.range 64).map (64 * index + ·)).countP bits.getLsbD := by
  rw [popcnt, List.countP_map]
  refine List.countP_congr (fun bit member => ?_)
  rw [word, BitVec.getLsbD_extractLsb', decide_eq_true (List.mem_range.mp member)]
  rfl

theorem count_eq (bits : Bits256)
    : bits.count = ((List.finRange 256).filter (fun n => bits.contains n)).length := by
  have same : ((List.finRange 256).filter (fun n => bits.contains n)).length
      = (List.range 256).countP bits.getLsbD := by
    rw [← List.countP_eq_length_filter, ← List.map_coe_finRange_eq_range, List.countP_map]
    refine List.countP_congr (fun n _ => ?_)
    rw [contains_iff, mem_elements]
    rfl
  have split : List.range 256 = (List.range 64).map (64 * 0 + ·)
      ++ ((List.range 64).map (64 * 1 + ·) ++ ((List.range 64).map (64 * 2 + ·)
        ++ (List.range 64).map (64 * 3 + ·))) := by
    rw [show 256 = 64 + 64 + 64 + 64 from rfl, List.range_add, List.range_add, List.range_add]
    simp
  rw [same, split, List.countP_append, List.countP_append, List.countP_append]
  simp only [count, popcnt_word, Nat.add_assoc]

/-- The greatest bit of a word. -/
theorem clz_spec (bits : Bits256) {index : Nat} (hasBit : (bits.word index).clz.toNat < 64)
    : bits.getLsbD (64 * index + (63 - (bits.word index).clz.toNat)) = true
      ∧ ∀ bit < 64, 63 - (bits.word index).clz.toNat < bit →
        bits.getLsbD (64 * index + bit) = false := by
  have notZero : bits.word index ≠ 0#64 := by
    intro isZero
    rw [isZero] at hasBit
    exact absurd hasBit (by decide)
  have found := BitVec.getLsbD_true_clz_of_ne_zero (by decide) notZero
  rw [word, BitVec.getLsbD_extractLsb', Bool.and_eq_true] at found
  refine ⟨found.2, fun bit inside above => ?_⟩
  have missing : (bits.word index).getLsbD bit = false :=
    Nat.testBit_lt_two_pow (BitVec.toNat_lt_two_pow_sub_clz.trans_le
      (Nat.pow_le_pow_right (by decide) (by omega)))
  rwa [word, BitVec.getLsbD_extractLsb', decide_eq_true inside, Bool.true_and] at missing

theorem clz_zero (bits : Bits256) {index : Nat} (isZero : ¬ (bits.word index).clz.toNat < 64)
    (bit : Nat) (inside : bit < 64)
    : bits.getLsbD (64 * index + bit) = false := by
  have small : (bits.word index).toNat < 2 ^ 0 :=
    BitVec.toNat_lt_two_pow_sub_clz.trans_le (Nat.pow_le_pow_right (by decide) (by omega))
  have missing : (bits.word index).getLsbD bit = false :=
    Nat.testBit_lt_two_pow (small.trans_le (Nat.pow_le_pow_right (by decide) (Nat.zero_le bit)))
  rwa [word, BitVec.getLsbD_extractLsb', decide_eq_true inside, Bool.true_and] at missing

/-- `upper` is the greatest element. -/
theorem upper_spec (bits : Bits256) {n : Byte} (member : n ∈ bits.elements)
    : ∃ last : Byte, last.val = bits.upper ∧ last ∈ bits.elements ∧ n ≤ last := by
  have isSet := mem_elements.mp member
  have inside := n.isLt
  have found (index : Nat) (small : index < 4) (hasBit : (bits.word index).clz.toNat < 64)
      (isUpper : bits.upper = 64 * index + (63 - (bits.word index).clz.toNat))
      (isBelow : n.val < 64 * (index + 1))
      : ∃ last : Byte, last.val = bits.upper ∧ last ∈ bits.elements ∧ n ≤ last := by
    obtain ⟨isLast, above⟩ := bits.clz_spec hasBit
    refine ⟨⟨bits.upper, by omega⟩, rfl, mem_elements.mpr (isUpper ▸ isLast), ?_⟩
    by_contra larger
    have more : bits.upper < n.val := Nat.lt_of_not_le larger
    have missing := above (n.val - 64 * index) (by omega) (by omega)
    rw [Nat.add_sub_cancel' (by omega), isSet] at missing
    cases missing
  have below (index : Nat) (isZero : ¬ (bits.word index).clz.toNat < 64)
      (isBelow : n.val < 64 * (index + 1)) : n.val < 64 * index := by
    by_contra large
    have missing := bits.clz_zero isZero (n.val - 64 * index) (by omega)
    rw [Nat.add_sub_cancel' (Nat.le_of_not_lt large), isSet] at missing
    cases missing
  by_cases third : (bits.word 3).clz.toNat < 64
  · exact found 3 (by omega) third (by rw [upper, if_pos third]; omega) inside
  have atMost := below 3 third inside
  by_cases second : (bits.word 2).clz.toNat < 64
  · exact found 2 (by omega) second (by rw [upper, if_neg third, if_pos second]; omega) atMost
  have few := below 2 second atMost
  by_cases first : (bits.word 1).clz.toNat < 64
  · refine found 1 (by omega) first ?_ few
    rw [upper, if_neg third, if_neg second, if_pos first]
    omega
  have fewer := below 1 first few
  by_cases zeroth : (bits.word 0).clz.toNat < 64
  · refine found 0 (by omega) zeroth ?_ fewer
    rw [upper, if_neg third, if_neg second, if_neg first, Nat.mul_zero, Nat.zero_add]
  · exact absurd (below 0 zeroth fewer) (Nat.not_lt_zero _)

end Bits256

/-- The number of elements of a block. -/
def Block.size (block : Block) : Nat :=
  match block.hdr.type with
  | .sparse => block.hdr.sparseLen
  | .dense => block.bits.count
  | .full => 256

namespace SetU32

def size (set : SetU32) : Nat :=
  ((set.blocksFrom set.hdrs.length start).map Block.size).sum

/-- The greatest element of the last block, which has a header. -/
def upperIn (set : SetU32) (hdr : Hdr) : Option Nat :=
  match hdr.type with
  | .sparse => set.sparse.getLast?.map Fin.val
  | .dense => set.dense.getLast?.map Bits256.upper
  | .full => some 255

/-- `upper`, which an empty set does not have. -/
def upper (set : SetU32) : Option Nat := do
  let hdr ← set.hdrs.getLast?
  let last ← set.upperIn hdr
  return (hdr.id <<< 8) ||| last

/-- Lists of ascending numbers below the greatest word. The encoder has their number and a bound. -/
structure EliasFano where
  Compressed : Type
  encode : Nat → Nat → List Nat → Option Compressed
  read : Compressed → List Nat
  encodes
    : ∀ numbers bound, numbers.Pairwise (· ≤ ·) → (∀ number ∈ numbers, number ≤ bound) →
        bound < 2 ^ 32 - 1 → ∃ list, encode numbers.length bound numbers = some list
          ∧ read list = numbers

def toEliasFano (fano : EliasFano) (set : SetU32) : Option fano.Compressed := do
  fano.encode set.size (← set.upper) set.values

section Chunks

variable {block : Block} {chunk : Chunk}

/-- The elements of a block in ascending order. -/
theorem elements_eq (isChunk : block.Is chunk) : block.elements = chunk.vals := by
  have ascending : block.elements.Pairwise (· < ·) := by
    rw [Block.elements, isChunk.type]
    cases isKind : chunk.kind with
    | sparse =>
        dsimp only
        rw [isChunk.vals isKind]
        exact chunk.vals_ascending
    | dense => exact (List.pairwise_lt_finRange 256).filter _
    | full => exact List.pairwise_lt_finRange 256
  have same : block.elements.toFinset = chunk.elements := by
    ext n
    rw [List.mem_toFinset, isChunk.mem_elements]
  have isVals : (Chunk.mk chunk.id block.elements.toFinset).vals = block.elements :=
    vals_of_ascending ascending
  rw [← isVals, same]

theorem size_eq (isChunk : block.Is chunk) : block.size = chunk.vals.length := by
  rw [← elements_eq isChunk, Block.size, Block.elements, isChunk.type]
  cases isKind : chunk.kind with
  | sparse =>
      dsimp only
      rw [Block.vals, List.length_take_of_le]
      obtain ⟨more, isSplit⟩ := isChunk.sparse
      rw [isChunk.hdr, chunk.sparseLen_hdr, ← isSplit, List.length_append]
      exact Nat.le_add_right _ _
  | dense => exact block.bits.count_eq
  | full => exact List.length_finRange.symm

/-- The numbers of a set, block after block. -/
theorem values_encode (chunks : List Chunk)
    : (encode chunks).values
        = chunks.flatMap (fun chunk => chunk.vals.map (fun bit => chunk.id * 256 + bit.val))
      ∧ (encode chunks).size = (encode chunks).values.length := by
  have shown := blocksFrom_encode [] chunks
  have length : (encode chunks).hdrs.length = chunks.length := List.length_map _
  rw [size, values, length]
  change List.Forall₂ Block.Is ((encode chunks).blocksFrom chunks.length start) chunks at shown
  generalize (encode chunks).blocksFrom chunks.length start = blocks at shown
  clear length
  induction shown with
  | nil => exact ⟨rfl, rfl⟩
  | @cons block chunk blocks chunks is _ ih =>
      refine ⟨?_, ?_⟩
      · rw [List.flatMap_cons, List.flatMap_cons, ih.1, elements_eq is, is.id]
        simp only [or_bit]
      · rw [List.map_cons, List.sum_cons, List.flatMap_cons, List.length_append, ih.2, size_eq is,
          List.length_map, elements_eq is]

/-- The numbers ascend, and the last one is the bound. -/
theorem values_ascending {chunks : List Chunk} (ordered : Ordered chunks)
    : (encode chunks).values.Pairwise (· < ·) := by
  rw [(values_encode chunks).1, List.pairwise_flatMap]
  refine ⟨fun chunk _ => List.pairwise_map.mpr (chunk.vals_ascending.imp ?_),
    ordered.ascending.imp ?_⟩
  · intro left right less
    exact Nat.add_lt_add_left less _
  · intro left right less value isLeft other isRight
    obtain ⟨bit, -, rfl⟩ := List.mem_map.mp isLeft
    obtain ⟨otherBit, -, rfl⟩ := List.mem_map.mp isRight
    have inside := bit.isLt
    omega

/-- The greatest element of the last block, from the arrays of the set. -/
theorem exists_last (before : List Chunk) (nonempty : chunk.elements.Nonempty)
    : ∃ last ∈ chunk.elements, (∀ n ∈ chunk.elements, n ≤ last)
      ∧ (encode (before ++ [chunk])).upperIn chunk.hdr = some last.val := by
  rw [upperIn, chunk.type_hdr]
  cases isKind : chunk.kind with
  | sparse =>
      obtain ⟨last, isLast, isFound, above⟩ := getLast?_sparse (encode before).sparse nonempty
      refine ⟨last, isLast, above, ?_⟩
      rw [encode_concat_of_sparse before isKind]
      exact congrArg (Option.map Fin.val) isFound
  | dense =>
      obtain ⟨n, member⟩ := nonempty
      rw [← chunk.elements_bits] at member ⊢
      obtain ⟨last, isUpper, isLast, -⟩ := chunk.bits.upper_spec member
      refine ⟨last, isLast, fun other isOther => ?_, ?_⟩
      · obtain ⟨found, sameUpper, -, above⟩ := chunk.bits.upper_spec isOther
        exact above.trans (Fin.ext (sameUpper.trans isUpper.symm)).le
      · rw [encode_concat_of_dense before isKind, isUpper]
        exact congrArg (Option.map Bits256.upper) List.getLast?_concat
  | full =>
      refine ⟨255, ?_, fun n _ => Fin.le_last n, rfl⟩
      rw [chunk.kind_full_iff.mp isKind]
      exact Finset.mem_univ _

/-- `upper` is the greatest number of a set. -/
theorem upper_encode {chunks : List Chunk} (ordered : Ordered chunks) (notNil : chunks ≠ [])
    : ∃ bound, (encode chunks).upper = some bound ∧ Contains chunks bound
      ∧ ∀ value, Contains chunks value → value ≤ bound := by
  obtain ⟨before, chunk, isSplit⟩ := (List.eq_nil_or_concat chunks).resolve_left notNil
  obtain rfl := isSplit.trans List.concat_eq_append
  obtain ⟨last, isLast, above, isUpper⟩ :=
    exists_last before (ordered.nonempty chunk (by simp))
  have isHdr : (encode (before ++ [chunk])).hdrs.getLast? = some chunk.hdr := by
    rw [encode_concat]
    exact List.getLast?_concat
  refine ⟨chunk.id * 256 + last.val, ?_, ?_, ?_⟩
  · rw [upper, isHdr, Option.bind_eq_bind, Option.bind_some, isUpper, Option.bind_eq_bind,
      Option.bind_some, chunk.id_hdr, or_bit]
    rfl
  · exact (contains_of_mem ordered.ascending (by simp)).mpr isLast
  · rintro value ⟨other, member, isBlock, isElement⟩
    have inside := last.isLt
    rcases List.mem_append.mp member with isBefore | isChunk
    · have less := (List.pairwise_append.mp ordered.ascending).2.2 other isBefore chunk
        List.mem_cons_self
      omega
    · rw [List.mem_singleton.mp isChunk] at isBlock isElement
      have atMost : (Fin.ofNat 256 value).val ≤ last.val := above _ isElement
      rw [Fin.val_ofNat] at atMost
      omega

end Chunks

/-- What is stored for a set is its numbers, from which the same arrays are built. -/
theorem toEliasFano_represents (fano : EliasFano) {set : SetU32} {elements : Set Nat}
    (represents : Represents set elements) (nonempty : elements.Nonempty)
    (small : ∀ value ∈ elements, value < 2 ^ 32 - 1)
    : ∃ list, set.toEliasFano fano = some list ∧ fano.read list = set.values
      ∧ fromEliasFano (fano.read list) = some set := by
  obtain ⟨chunks, ordered, rfl, same⟩ := represents
  obtain ⟨some_, isSome⟩ := nonempty
  have notNil : chunks ≠ [] := by
    rintro rfl
    obtain ⟨chunk, member, -⟩ := (same some_).mp isSome
    cases member
  obtain ⟨bound, isUpper, isLast, above⟩ := upper_encode ordered notNil
  have members {value : Nat} : value ∈ (encode chunks).values ↔ value ∈ elements :=
    mem_values_encode.trans (same value).symm
  have ascending := (values_ascending ordered).imp le_of_lt
  obtain ⟨list, encoded, isRead⟩ := fano.encodes _ bound ascending
    (fun value member => above value (mem_values_encode.mp member))
    (small bound ((same bound).mpr isLast))
  refine ⟨list, ?_, isRead, ?_⟩
  · rw [toEliasFano, isUpper, (values_encode chunks).2]
    exact encoded
  · obtain ⟨built, isBuilt, builtRepresents⟩ := fromEliasFano_represents ascending
      (fun value member => (small value (members.mp member)).trans (by decide))
    have isSame : Represents (encode chunks) {value | value ∈ (encode chunks).values} :=
      ⟨chunks, ordered, rfl, fun _ => mem_values_encode⟩
    rw [isRead, isBuilt, builtRepresents.unique isSame]

/-- What the pointer that `merge` of two sets returns points to. -/
def merged (left right : SetU32) : SetU32 :=
  match merge false left right with
  | (.left, _) => left
  | (.right, _) => right
  | (.result, result) => result

theorem merged_represents {left right : SetU32} {ofLeft ofRight : Set Nat}
    (isLeft : Represents left ofLeft) (isRight : Represents right ofRight)
    : Represents (merged left right) (ofLeft ∪ ofRight) := by
  have exact : MergeExact ofLeft ofRight (merge false left right) :=
    merge_exact isLeft isRight (fun same => by cases same)
  rw [merged]
  generalize merge false left right = outcome at exact
  obtain ⟨pointer, result⟩ := outcome
  cases pointer with
  | left =>
      rw [Set.union_eq_self_of_subset_right (exact.left_iff.mp rfl)]
      exact isLeft
  | right =>
      rw [Set.union_eq_self_of_subset_left (exact.right_iff.mp rfl).1]
      exact isRight
  | result => exact exact.union rfl

section Runs

variable {Name : Type}

/-- Merges of many sets, by induction on the sets that are left. -/
theorem foldl_merged_represents {sets : Name → SetU32} {elements : Name → Set Nat}
    (all : AllRepresent sets elements) (names : List Name) {set : SetU32} {ofSet : Set Nat}
    (represents : Represents set ofSet)
    : Represents (names.foldl (fun set name => merged set (sets name)) set)
        (ofSet ∪ {value | ∃ name ∈ names, value ∈ elements name}) := by
  induction names generalizing set ofSet with
  | nil => simpa using represents
  | cons name names ih =>
      have next := ih (merged_represents represents (all name))
      have same : ofSet ∪ {value | ∃ other ∈ name :: names, value ∈ elements other}
          = ofSet ∪ elements name ∪ {value | ∃ other ∈ names, value ∈ elements other} := by
        ext value
        simp [or_assoc]
      rw [same]
      exact next

/-- Sets that any calls have built are merged to the same arrays in whatever order and however often,
and what is stored for one of them is read back as the same arrays.
-/
theorem run_stored [DecidableEq Name] (fano : EliasFano) {events : List (Event Name)}
    (allowed : AllowedRun (fun _ => ∅) events)
    : ∃ sets, events.foldlM step (fun _ => empty) = some sets
        ∧ (∀ names others : List Name, (∀ name, name ∈ names ↔ name ∈ others) →
          names.foldl (fun set name => merged set (sets name)) empty
            = others.foldl (fun set name => merged set (sets name)) empty)
        ∧ ∀ name, (sets name).values ≠ [] → (∀ value ∈ (sets name).values, value < 2 ^ 32 - 1) →
          ∃ list, (sets name).toEliasFano fano = some list ∧ fano.read list = (sets name).values
            ∧ fromEliasFano (fano.read list) = some (sets name) := by
  obtain ⟨sets, ran, all⟩ := run_represents (fun _ => represents_empty) allowed
  refine ⟨sets, ran, fun names others same => ?_, fun name nonempty small => ?_⟩
  · refine (foldl_merged_represents all names represents_empty).unique ?_
    simp only [same]
    exact foldl_merged_represents all others represents_empty
  · refine toEliasFano_represents fano (all name) ?_ (fun value member =>
      small value ((all name).mem_values.mpr member))
    obtain ⟨value, member⟩ := List.exists_mem_of_ne_nil _ nonempty
    exact ⟨value, (all name).mem_values.mp member⟩

/-- A list that stores its numbers as they are. -/
def plainList : EliasFano where
  Compressed := List Nat
  encode _ _ numbers := some numbers
  read := id
  encodes numbers _ _ _ _ := ⟨numbers, rfl, rfl⟩

theorem run_stored_two
    : ∃ sets, [Event.fromEliasFano 0 [1, 300], .append 1 2].foldlM step (fun _ : Nat => empty)
          = some sets
        ∧ [0, 1, 0].foldl (fun set name => merged set (sets name)) empty
          = [1, 0].foldl (fun set name => merged set (sets name)) empty := by
  have allowed : AllowedRun (fun _ : Nat => ∅) [Event.fromEliasFano 0 [1, 300], .append 1 2] := by
    refine ⟨⟨by decide, by decide⟩, ⟨by decide, ?_⟩, trivial⟩
    simp [contents]
  obtain ⟨sets, ran, orders, -⟩ := run_stored plainList allowed
  exact ⟨sets, ran, orders [0, 1, 0] [1, 0] (by simp [or_comm])⟩

end Runs

end SetU32

end Glean.RTS
