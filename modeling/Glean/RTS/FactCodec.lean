import Glean.Library.PrefixCode
import Glean.RTS.Define
import Glean.RTS.Varint

/-! Facts as bytes (`fact.h`, `fact.cpp`). The sizes of key and value are 32 bit integers, and so is
their sum, by which the input is checked and advanced.
-/

namespace Glean.RTS.FactCodec

/-- A number in a variable of type `uint32_t`. -/
def toUInt32 (number : Nat) : Nat := number % 2 ^ 32

/-- `Fact::Clause`, with the position in a buffer at which its bytes start. -/
structure ClauseRef where
  data : Nat
  keySize : Nat
  valueSize : Nat
  deriving DecidableEq

/-- The key and the value that a clause refers to, if they are in the buffer. -/
def ClauseRef.read (ref : ClauseRef) (buffer : Bytes) : Option Clause :=
  if ref.data + ref.keySize + ref.valueSize ≤ buffer.length then
    some ⟨(buffer.drop ref.data).take ref.keySize,
      (buffer.drop (ref.data + ref.keySize)).take ref.valueSize⟩
  else
    none

/-- `Clause::size` -/
def clauseSize (keySize valueSize : Nat) : Nat := toUInt32 (keySize + valueSize)

variable (varint : Varint)

/-- `Fact::serialize`. The bytes of a clause are as many as its size says. -/
def serialize (type : Pid) (clause : Clause) : Bytes :=
  varint.encodeVarint type ++ (varint.encodeVarint clause.key.length
    ++ (varint.encodeVarint clause.value.length
      ++ clause.bytes.take (clauseSize clause.key.length clause.value.length)))

/-- `Fact::deserialize`: the predicate, the clause, and the input behind it. -/
def deserialize (input : Bytes) : Outcome (Pid × ClauseRef × Bytes) := do
  let (type, left) ← Input.packed varint input
  let (keySize, left) ← Input.packed varint left
  let (valueSize, left) ← Input.packed varint left
  let keySize := toUInt32 keySize
  let valueSize := toUInt32 valueSize
  let rest ← Input.bytes left (toUInt32 (keySize + valueSize))
  return (type, ⟨input.length - left.length, keySize, valueSize⟩, rest)

/-- The two sizes that are decoded from an input, before they are narrowed, and what follows them. -/
def decodedSizes (input : Bytes) : Option (Nat × Nat × Bytes) := do
  let (_, left) ← varint.tryDecodeVarint input
  let (keySize, left) ← varint.tryDecodeVarint left
  let (valueSize, left) ← varint.tryDecodeVarint left
  return (keySize, valueSize, left)

/-- A fact is read back from its bytes, whatever follows them. -/
def RoundTrips (type : Pid) (clause : Clause) : Prop :=
  ∀ rest, ∃ ref, deserialize varint (serialize varint type clause ++ rest) = .ok (type, ref, rest)
    ∧ ref.read (serialize varint type clause ++ rest) = some clause

/-- Reading a fact fails, or gives a clause within the bytes it has read, of the sizes that stand
there.
-/
structure ReadsInside (input : Bytes) : Prop where
  defined : deserialize varint input ≠ .undefined
  inside
    : ∀ type ref rest, deserialize varint input = .ok (type, ref, rest) →
        ∃ consumed, input = consumed ++ rest
          ∧ ref.data + ref.keySize + ref.valueSize ≤ consumed.length
  sizes
    : ∀ type ref rest, deserialize varint input = .ok (type, ref, rest) →
        ∃ left, decodedSizes varint input = some (ref.keySize, ref.valueSize, left)

/-- The sizes that stand in an input have a sum below `2 ^ 32`, or the bytes that the narrowed sum
asks for are missing.
-/
def SizesFit (input : Bytes) : Prop :=
  ∀ keySize valueSize left, decodedSizes varint input = some (keySize, valueSize, left) →
    keySize + valueSize < 2 ^ 32 ∨ left.length < (keySize + valueSize) % 2 ^ 32

/-- A fact whose size is a 32 bit integer. -/
structure FittingFact where
  type : Pid
  clause : Clause
  typed : type < 2 ^ 64
  fits : clause.key.length + clause.value.length < 2 ^ 32

variable {varint : Varint}

theorem toUInt32_add (left right : Nat)
    : toUInt32 (toUInt32 left + toUInt32 right) = (left + right) % 2 ^ 32 :=
  (Nat.add_mod left right (2 ^ 32)).symm

/-- A fact is read by its sizes; so is the clause that the loops over batches use. -/
theorem deserialize_cases (varint : Varint) (input : Bytes)
    : (decodedSizes varint input = none ∧ ∃ message, deserialize varint input = .error message
          ∧ Fact.deserialize varint input = .error message)
      ∨ ∃ type keySize valueSize header left, decodedSizes varint input = some (keySize, valueSize, left)
        ∧ input = header ++ left
        ∧ (deserialize varint input
          = Input.bytes left ((keySize + valueSize) % 2 ^ 32) >>= fun rest =>
              .ok (type, ⟨header.length, toUInt32 keySize, toUInt32 valueSize⟩, rest))
        ∧ Fact.deserialize varint input
          = Input.bytes left ((keySize + valueSize) % 2 ^ 32) >>= fun rest =>
              if toUInt32 keySize + toUInt32 valueSize ≤ left.length then
                .ok (type, ⟨left.take (toUInt32 keySize),
                  (left.drop (toUInt32 keySize)).take (toUInt32 valueSize)⟩, rest)
              else
                .undefined := by
  have unreadable {input : Bytes} (missing : varint.tryDecodeVarint input = none)
      : Input.packed varint input = .error "invalid packed value" := by
    rw [Input.packed, missing]
  have readable {input left : Bytes} {number : Nat}
      (found : varint.tryDecodeVarint input = some (number, left))
      : Input.packed varint input = .ok (number, left) := by
    rw [Input.packed, found]
  cases isType : varint.tryDecodeVarint input with
  | none =>
      exact .inl ⟨by simp [decodedSizes, isType], _, by simp [deserialize, unreadable isType]; rfl,
        by simp [Fact.deserialize, unreadable isType]⟩
  | some afterType =>
      obtain ⟨type, afterType⟩ := afterType
      obtain ⟨-, typeBytes, -, rfl, -⟩ := varint.decode_prefix isType
      cases isKey : varint.tryDecodeVarint afterType with
      | none =>
          exact .inl ⟨by simp [decodedSizes, isType, isKey], "invalid packed value",
            by simp [deserialize, readable isType, unreadable isKey],
            by simp [Fact.deserialize, readable isType, unreadable isKey]⟩
      | some afterKey =>
          obtain ⟨keySize, afterKey⟩ := afterKey
          obtain ⟨-, keyBytes, -, rfl, -⟩ := varint.decode_prefix isKey
          cases isValue : varint.tryDecodeVarint afterKey with
          | none =>
              exact .inl ⟨by simp [decodedSizes, isType, isKey, isValue], "invalid packed value",
                by simp [deserialize, readable isType, readable isKey, unreadable isValue],
                by simp [Fact.deserialize, readable isType, readable isKey, unreadable isValue]⟩
          | some left =>
              obtain ⟨valueSize, left⟩ := left
              obtain ⟨-, valueBytes, -, rfl, -⟩ := varint.decode_prefix isValue
              have header : (typeBytes ++ (keyBytes ++ (valueBytes ++ left))).length - left.length
                  = (typeBytes ++ (keyBytes ++ valueBytes)).length := by
                simp only [List.length_append]
                omega
              have sum : (keySize % 2 ^ 32 + valueSize % 2 ^ 32) % 2 ^ 32
                  = (keySize + valueSize) % 2 ^ 32 :=
                toUInt32_add keySize valueSize
              refine .inr ⟨type, keySize, valueSize, typeBytes ++ (keyBytes ++ valueBytes), left,
                ?_, ?_, ?_, ?_⟩
              · simp [decodedSizes, isType, isKey, isValue]
              · simp only [List.append_assoc]
              · simp only [deserialize, readable isType, readable isKey, readable isValue,
                  Outcome.ok_bind, toUInt32_add, header]
                rfl
              · simp only [Fact.deserialize, readable isType, readable isKey, readable isValue,
                  Outcome.ok_bind, sum]
                rfl

theorem toUInt32_of_lt {number : Nat} (small : number < 2 ^ 32) : toUInt32 number = number :=
  Nat.mod_eq_of_lt small

/-- A fact is written as its sizes and as many of its bytes as their narrowed sum. -/
theorem deserialize_serialize (varint : Varint) {type : Pid} {clause : Clause} (typed : type < 2 ^ 64)
    (keyFits : clause.key.length < 2 ^ 32) (valueFits : clause.value.length < 2 ^ 32) (rest : Bytes)
    : ∃ header, serialize varint type clause
          = header ++ clause.bytes.take ((clause.key.length + clause.value.length) % 2 ^ 32)
        ∧ deserialize varint (serialize varint type clause ++ rest)
          = .ok (type, ⟨header.length, clause.key.length, clause.value.length⟩, rest) := by
  let body := clause.bytes.take ((clause.key.length + clause.value.length) % 2 ^ 32)
  let header := varint.encodeVarint type ++ (varint.encodeVarint clause.key.length
    ++ varint.encodeVarint clause.value.length)
  have bodySize : body.length = (clause.key.length + clause.value.length) % 2 ^ 32 := by
    rw [List.length_take, Clause.bytes, List.length_append]
    exact Nat.min_eq_left (Nat.mod_le _ _)
  have written : serialize varint type clause = header ++ body := by
    simp only [serialize, header, List.append_assoc]
    rfl
  have behindHeader : (header ++ body ++ rest).length - (body ++ rest).length = header.length := by
    simp only [List.length_append]
    omega
  refine ⟨header, written, ?_⟩
  rw [written, deserialize]
  have readType : Input.packed varint (header ++ body ++ rest)
      = .ok (type, varint.encodeVarint clause.key.length
          ++ (varint.encodeVarint clause.value.length ++ (body ++ rest))) := by
    simp only [header, List.append_assoc, Input.packed, varint.decode_encode _ typed]
  have readKey (left : Bytes) : Input.packed varint (varint.encodeVarint clause.key.length ++ left)
      = .ok (clause.key.length, left) := by
    rw [Input.packed, varint.decode_encode _ (by omega)]
  have readValue (left : Bytes)
      : Input.packed varint (varint.encodeVarint clause.value.length ++ left)
        = .ok (clause.value.length, left) := by
    rw [Input.packed, varint.decode_encode _ (by omega)]
  have skipped : Input.bytes (body ++ rest) body.length = .ok rest := by
    rw [Input.bytes, if_neg (by simp), List.drop_left]
  simp only [readType, readKey, readValue, Outcome.ok_bind, toUInt32_add, behindHeader, ← bodySize,
    skipped, toUInt32_of_lt keyFits, toUInt32_of_lt valueFits]
  rfl

/-- Exactly the facts whose size is a 32 bit integer are read back. -/
theorem roundTrips_iff {type : Pid} {clause : Clause} (typed : type < 2 ^ 64)
    (keyFits : clause.key.length < 2 ^ 32) (valueFits : clause.value.length < 2 ^ 32)
    : RoundTrips varint type clause ↔ clause.key.length + clause.value.length < 2 ^ 32 := by
  constructor
  · intro roundTrips
    obtain ⟨header, written, read⟩ := deserialize_serialize varint typed keyFits valueFits []
    obtain ⟨ref, readRef, found⟩ := roundTrips []
    rw [read] at readRef
    obtain rfl : ⟨header.length, clause.key.length, clause.value.length⟩ = ref :=
      (Prod.mk.inj (Prod.mk.inj (Outcome.ok.inj readRef)).2).1
    rw [ClauseRef.read] at found
    split at found
    next inside =>
      have small := Nat.mod_lt (clause.key.length + clause.value.length) (show 0 < 2 ^ 32 by decide)
      rw [written, List.append_nil, List.length_append, List.length_take] at inside
      dsimp only at inside
      omega
    next => cases found
  · intro fits rest
    obtain ⟨header, written, read⟩ := deserialize_serialize varint typed keyFits valueFits rest
    refine ⟨_, read, ?_⟩
    have whole : clause.bytes.take ((clause.key.length + clause.value.length) % 2 ^ 32) = clause.bytes := by
      rw [Nat.mod_eq_of_lt fits]
      exact List.take_of_length_le (by rw [Clause.bytes, List.length_append])
    rw [written, whole, ClauseRef.read]
    dsimp only
    rw [if_pos (by simp only [Clause.bytes, List.length_append]; omega), ← List.drop_drop,
      List.append_assoc, List.drop_left, Clause.bytes, List.append_assoc, List.take_left,
      List.drop_left, List.take_left]

/-- No serialised fact is a prefix of another: reading finds the same fact in both. -/
theorem serialize_prefixFree
    : PrefixCode.PrefixFree fun fact : FittingFact => serialize varint fact.type fact.clause := by
  rintro left right ⟨rest, same⟩
  obtain ⟨leftRef, leftRead, leftFound⟩ :=
    (roundTrips_iff left.typed (by have fits := left.fits; omega) (by have fits := left.fits; omega)).mpr
      left.fits rest
  obtain ⟨rightRef, rightRead, rightFound⟩ :=
    (roundTrips_iff right.typed (by have fits := right.fits; omega)
      (by have fits := right.fits; omega)).mpr right.fits []
  dsimp only at same
  rw [same] at leftRead leftFound
  rw [List.append_nil, leftRead] at rightRead
  rw [List.append_nil] at rightFound
  obtain ⟨sameType, sameRef, -⟩ : left.type = right.type ∧ leftRef = rightRef ∧ rest = [] := by
    simpa using rightRead
  rw [sameRef, rightFound] at leftFound
  have sameClause : right.clause = left.clause := Option.some.inj leftFound
  cases left
  cases right
  simp_all

theorem serialize_ne_nil (fact : FittingFact) : serialize varint fact.type fact.clause ≠ [] := by
  intro isEmpty
  have read := @varint.decode_encode fact.type
    (varint.encodeVarint fact.clause.key.length ++ (varint.encodeVarint fact.clause.value.length
      ++ fact.clause.bytes.take (clauseSize fact.clause.key.length fact.clause.value.length)))
    fact.typed
  change varint.tryDecodeVarint (serialize varint fact.type fact.clause) = _ at read
  obtain ⟨-, bytes, notEmpty, split, -⟩ := varint.decode_prefix read
  rw [isEmpty] at split
  exact notEmpty (List.append_eq_nil_iff.mp split.symm).1

/-- Reading is safe exactly on the inputs whose sizes fit, or that are too short for them. -/
theorem readsInside_iff (input : Bytes) : ReadsInside varint input ↔ SizesFit varint input := by
  have ofError {message : String} (failed : deserialize varint input = .error message)
      : ReadsInside varint input := by
    refine ⟨?_, ?_, ?_⟩ <;> simp [failed]
  rcases deserialize_cases varint input with ⟨noSizes, message, failed, -⟩
    | ⟨type, keySize, valueSize, header, left, isSizes, rfl, result, -⟩
  · refine iff_of_true (ofError failed) (fun keySize valueSize left decoded => ?_)
    rw [noSizes] at decoded
    cases decoded
  · have sizesFit : SizesFit varint (header ++ left)
        ↔ keySize + valueSize < 2 ^ 32 ∨ left.length < (keySize + valueSize) % 2 ^ 32 := by
      constructor
      · intro fit
        exact fit keySize valueSize left isSizes
      · intro fit otherKey otherValue otherLeft decoded
        rw [isSizes] at decoded
        cases decoded
        exact fit
    rw [sizesFit]
    by_cases short : left.length < (keySize + valueSize) % 2 ^ 32
    · rw [Input.bytes, if_pos short] at result
      exact iff_of_true (ofError result) (.inr short)
    · rw [Input.bytes, if_neg short] at result
      constructor
      · intro reads
        obtain ⟨consumed, split, inside⟩ := reads.inside _ _ _ result
        obtain ⟨_, sameSizes⟩ := reads.sizes _ _ _ result
        rw [isSizes] at sameSizes
        obtain ⟨sameKey, sameValue, -⟩ : keySize = toUInt32 keySize ∧ valueSize = toUInt32 valueSize
            ∧ _ := by simpa using sameSizes
        have length := congrArg List.length split
        rw [List.length_append, List.length_append, List.length_drop] at length
        dsimp only at inside
        rw [← sameKey, ← sameValue] at inside
        have bounded := Nat.mod_lt (keySize + valueSize) (show 0 < 2 ^ 32 by decide)
        left
        omega
      · intro fit
        have small : keySize + valueSize < 2 ^ 32 := fit.resolve_right short
        rw [Nat.mod_eq_of_lt small] at result short
        rw [toUInt32_of_lt (by omega), toUInt32_of_lt (by omega)] at result
        refine ⟨by simp [result], fun _ _ _ read => ?_, fun _ _ _ read => ?_⟩
        · rw [result] at read
          cases read
          refine ⟨header ++ left.take (keySize + valueSize), ?_, ?_⟩
          · rw [List.append_assoc, List.take_append_drop]
          · rw [List.length_append, List.length_take]
            dsimp only
            omega
        · rw [result] at read
          cases read
          exact ⟨left, isSizes⟩

/-- Serialised facts are read back, and their sequences split in one way only, if their sizes are 32
bit integers; and reading any input is safe if the sizes that stand in it are.
-/
theorem factCodec_iff (varint : Varint)
    : (∀ type < 2 ^ 64, ∀ clause : Clause, clause.key.length < 2 ^ 32 → clause.value.length < 2 ^ 32 →
        (RoundTrips varint type clause ↔ clause.key.length + clause.value.length < 2 ^ 32))
      ∧ (∀ left right : List FittingFact,
          left.flatMap (fun fact => serialize varint fact.type fact.clause)
            = right.flatMap (fun fact => serialize varint fact.type fact.clause) →
          left = right)
      ∧ ∀ input, ReadsInside varint input ↔ SizesFit varint input :=
  ⟨fun _ typed _ keyFits valueFits => roundTrips_iff typed keyFits valueFits,
    fun _ _ same => serialize_prefixFree.flatMap_injective serialize_ne_nil same, readsInside_iff⟩

/-- The fact with the key `a` and an empty value. -/
theorem factCodec_iff_letter : RoundTrips .folly 1 ⟨[97], []⟩ :=
  ((factCodec_iff .folly).1 1 (by decide) ⟨[97], []⟩ (by decide) (by decide)).mpr (by decide)

/-- A key of `2 ^ 32 - 1` bytes and a value of one byte: the sum is zero, so nothing need be there. -/
theorem readsInside_not_overflown : ¬ ReadsInside .folly [1, 255, 255, 255, 255, 15, 1] := by
  intro reads
  have read : deserialize .folly [1, 255, 255, 255, 255, 15, 1]
      = .ok (1, ⟨7, 2 ^ 32 - 1, 1⟩, []) := by decide
  obtain ⟨consumed, split, inside⟩ := reads.inside _ _ _ read
  rw [List.append_nil] at split
  rw [← split] at inside
  exact absurd inside (by decide)

end Glean.RTS.FactCodec
