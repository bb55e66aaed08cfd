import Mathlib.Data.List.GetD
import Mathlib.Tactic.IntervalCases
import Glean.Library.Endian
import Glean.Library.PrefixCode
import Glean.RTS.Input

/-! Packed natural numbers (`nat.h`, `nat.cpp`): the first byte says how many bytes there are, and the
offset of the number in the range of that size is stored with the highest byte first.
-/

namespace Glean.RTS

namespace PackedNat

/-- `folly::storeUnaligned` on a little-endian machine. -/
def storeUnaligned (width word : Nat) : Bytes := Endian.little width word

/-- `folly::loadUnaligned` of the bytes at an offset. -/
def loadUnaligned (width : Nat) (input : Bytes) (offset : Nat) : Outcome Nat :=
  if offset + width ≤ input.length then
    .ok (Endian.ofLittle ((input.drop offset).take width))
  else
    .undefined

def toByte (word : Nat) : Byte := Fin.ofNat 256 word

/-- `storeNat`: the bytes that are written, and their number as it is returned. -/
def storeNat (val : Nat) : Bytes × Nat :=
  if val < 0x80 then
    ([toByte val], 1)
  else if val < 0x4080 then
    -- the mark is added to the swapped word, whose lowest byte comes first
    (storeUnaligned 2 (Endian.swap 2 (val - 0x80) ||| 0x80), 2)
  else if val < 0x204080 then
    let val := val - 0x4080
    (toByte (0xC0 ||| val >>> 16) :: storeUnaligned 2 (Endian.swap 2 val), 3)
  else if val < 0x10204080 then
    let val := val - 0x204080
    (storeUnaligned 4 (Endian.swap 4 (val ||| 0xE0000000)), 4)
  else if val < 0x0810204080 then
    let val := val - 0x10204080
    (toByte (0xF0 ||| val >>> 32) :: storeUnaligned 4 (Endian.swap 4 val), 5)
  else if val < 0x040810204080 then
    let val := val - 0x0810204080
    (storeUnaligned 2 (Endian.swap 2 (val >>> 32 ||| 0xF800))
      ++ storeUnaligned 4 (Endian.swap 4 val), 6)
  else if val < 0x02040810204080 then
    let val := val - 0x040810204080
    (toByte (0xFC ||| val >>> 48) :: storeUnaligned 2 (Endian.swap 2 (val >>> 32))
      ++ storeUnaligned 4 (Endian.swap 4 val), 7)
  else if val < 0x0102040810204080 then
    let val := val - 0x02040810204080
    (storeUnaligned 8 (Endian.swap 8 (val ||| 0xFE00000000000000)), 8)
  else
    let val := val - 0x0102040810204080
    (0xFF :: storeUnaligned 8 (Endian.swap 8 val), 9)

/-- The bytes of an `EncodedNat`. -/
def encodeNat (val : Nat) : Bytes := (storeNat val).1.take (storeNat val).2

/-- The table of `natSize`, and of the labels of both decoders, by runs of equal entries. -/
def natSizes : List Nat :=
  List.replicate 128 1 ++ List.replicate 64 2 ++ List.replicate 32 3 ++ List.replicate 16 4
    ++ List.replicate 8 5 ++ List.replicate 4 6 ++ [7, 7, 8, 9]

/-- The label that a decoder jumps to. -/
def decoder (first : Byte) : Nat := natSizes.getD first.val 0

/-- `natSize` -/
def natSize (first : Byte) : Nat :=
  if first.val < 0x80 then 1
  else if first.val < 0xC0 then 2
  else if first.val < 0xE0 then 3
  else if first.val < 0xF0 then 4
  else if first.val < 0xF8 then 5
  else natSizes.getD first.val 0

/-- `load<n>`. Only the sum for nine bytes may overflow. -/
def load (size : Nat) (first : Byte) (input : Bytes) : Outcome Nat :=
  match size with
  | 2 => do
      let second ← loadUnaligned 1 input 1
      return (first.val &&& 0x3F) <<< 8 + second + 0x80
  | 3 => do
      let low ← loadUnaligned 2 input 1
      return (first.val &&& 0x1F) <<< 16 + Endian.swap 2 low + 0x4080
  | 4 => do
      let word ← loadUnaligned 4 input 0
      return (Endian.swap 4 word &&& 0x0FFFFFFF) + 0x204080
  | 5 => do
      let low ← loadUnaligned 4 input 1
      return (first.val &&& 0x7) <<< 32 + Endian.swap 4 low + 0x10204080
  | 6 => do
      let second ← loadUnaligned 1 input 1
      let low ← loadUnaligned 4 input 2
      return (first.val &&& 0x3) <<< 40 + second <<< 32 + Endian.swap 4 low + 0x0810204080
  | 7 => do
      let middle ← loadUnaligned 2 input 1
      let low ← loadUnaligned 4 input 3
      return (first.val &&& 0x1) <<< 48 + Endian.swap 2 middle <<< 32 + Endian.swap 4 low
        + 0x040810204080
  | 8 => do
      let word ← loadUnaligned 8 input 0
      return (Endian.swap 8 word &&& 0xFFFFFFFFFFFFFF) + 0x02040810204080
  | 9 => do
      let word ← loadUnaligned 8 input 1
      return (Endian.swap 8 word + 0x0102040810204080) % 2 ^ 64
  | _ => .undefined

/-- `decode<n>`: the number and the input behind it. -/
def decode (size : Nat) (first : Byte) (input : Bytes) : Outcome (Nat × Bytes) := do
  let number ← load size first input
  return (number, input.drop size)

/-- `decodeCheck<n>`: nothing for the null pointer. -/
def decodeCheck (size : Nat) (first : Byte) (input : Bytes) : Outcome (Option (Nat × Bytes)) :=
  if size ≤ input.length then do
    let result ← decode size first input
    -- the start of the range is already added, so an invalid number has overflown
    if size ≠ 9 ∨ 0x0102040810204080 ≤ result.1 then
      return some result
    else
      return none
  else
    return none

/-- `loadTrustedNat` -/
def loadTrustedNat (input : Bytes) : Outcome (Nat × Bytes) :=
  match input with
  | [] => .undefined
  | first :: rest =>
      if decoder first = 1 then
        .ok (first.val, rest)
      else
        decode (decoder first) first input

/-- `loadUntrustedNat` -/
def loadUntrustedNat (input : Bytes) : Outcome (Option (Nat × Bytes)) :=
  match input with
  | [] => .ok none
  | first :: rest =>
      if decoder first = 1 then
        .ok (some (first.val, rest))
      else
        decodeCheck (decoder first) first input

/-- `skipTrustedNat` -/
def skipTrustedNat (input : Bytes) : Outcome Bytes :=
  match input with
  | [] => .undefined
  | first :: _ => .ok (input.drop (natSize first))

/-- `skipUntrustedNat` -/
def skipUntrustedNat (input : Bytes) : Outcome (Option Bytes) :=
  match input with
  | [] => .ok none
  | first :: _ =>
      let size := natSize first
      if size ≤ input.length then
        if size < 9 then
          .ok (some (input.drop size))
        else do
          let word ← loadUnaligned 8 input 1
          return if Endian.swap 8 word ≤ 0xFEFDFBF7EFDFBF7F then some (input.drop size) else none
      else
        .ok none

-- Sizes and their ranges

/-- The first number whose encoding has a size. -/
def rangeStart : Nat → Nat
  | 0 => 0
  | 1 => 0
  | size + 2 => rangeStart (size + 1) + 2 ^ (7 * (size + 1))

/-- The first byte of the first encoding of a size. -/
def mark (size : Nat) : Nat := 256 - 2 ^ (9 - size)

/-- How many byte strings of a size start with its mark. -/
def capacity (size : Nat) : Nat := 2 ^ (8 - size) * 256 ^ (size - 1)

/-- The encoding at an offset in the range of a size. -/
def pack (size offset : Nat) : Bytes :=
  toByte (mark size + offset / 256 ^ (size - 1)) :: Endian.big (size - 1) offset

/-- The sizes of encodings. -/
def IsSize (size : Nat) : Prop := 1 ≤ size ∧ size ≤ 9

instance (size : Nat) : Decidable (IsSize size) := inferInstanceAs (Decidable (_ ∧ _))

-- Storing a number of each size

theorem or_mark (bits : Nat) {low : Nat} (small : low < 2 ^ bits) (high : Nat)
    : 2 ^ bits * high ||| low = 2 ^ bits * high + low :=
  (Nat.two_pow_add_eq_or_of_lt small high).symm

theorem big_mark (width high low : Nat)
    : Endian.big width (256 ^ width * high + low) = Endian.big width low := by
  rw [← Endian.big_mod, Nat.mul_add_mod, Endian.big_mod]

theorem storeUnaligned_swap (width number : Nat)
    : storeUnaligned width (Endian.swap width number) = Endian.big width number :=
  Endian.little_swap width number

/-- The mark of a number of two bytes is added behind the swap. -/
theorem storeUnaligned_two {offset : Nat} (fits : offset < 2 ^ 14)
    : storeUnaligned 2 (Endian.swap 2 offset ||| 0x80) = pack 2 offset := by
  have swapped : Endian.swap 2 offset = 2 ^ 8 * (offset % 256) + offset / 256 := by
    simp only [Endian.swap, Endian.ofLittle, Endian.big, List.reverse_cons, List.reverse_nil,
      List.nil_append, List.cons_append, Endian.ofBig, List.length_cons, List.length_nil,
      Fin.val_ofNat]
    omega
  have marked : Endian.swap 2 offset ||| 0x80 = 2 ^ 8 * (offset % 256) + (0x80 + offset / 256) := by
    have low : offset / 256 ||| 0x80 = 0x80 + offset / 256 := by
      rw [Nat.or_comm]
      exact or_mark 7 (by omega) 1
    rw [swapped, ← or_mark 8 (by omega), Nat.or_assoc, low, or_mark 8 (by omega)]
  have second : (2 ^ 8 * (offset % 256) + (0x80 + offset / 256)) / 256 = offset % 256 := by
    omega
  rw [marked]
  simp only [storeUnaligned, Endian.little, Endian.big, pack, mark, toByte, List.reverse_cons,
    List.reverse_nil, List.nil_append, List.cons_append, Nat.pow_zero, Nat.pow_one, Nat.div_one,
    second, List.cons.injEq, and_true]
  constructor <;> refine Fin.ext ?_ <;> simp only [Fin.val_ofNat] <;> omega

/-- The mark of a whole word is the one of its first byte. -/
theorem big_or_mark {width low : Nat} (bits high : Nat) (small : low < 256 ^ width * 2 ^ bits)
    : Endian.big (width + 1) (low ||| 256 ^ width * (2 ^ bits * high))
      = toByte (2 ^ bits * high + low / 256 ^ width) :: Endian.big width low := by
  have positive : 0 < 256 ^ width := Nat.pow_pos (by omega)
  have power : 256 ^ width * 2 ^ bits = 2 ^ (8 * width + bits) := by
    rw [Nat.pow_add, Nat.pow_mul]
  have marked : low ||| 256 ^ width * (2 ^ bits * high)
      = 256 ^ width * (2 ^ bits * high) + low := by
    rw [Nat.or_comm, ← Nat.mul_assoc, power]
    exact or_mark _ (power ▸ small) high
  rw [marked, Endian.big, big_mark, Nat.mul_add_div positive]
  rfl

/-- `storeNat` writes the offset of a number in the range of its size. -/
theorem storeNat_rangeStart {size offset : Nat} (isSize : IsSize size)
    (fits : offset < capacity size) (small : rangeStart size + offset < 2 ^ 64)
    : storeNat (rangeStart size + offset) = (pack size offset, size) := by
  obtain ⟨least, most⟩ := isSize
  interval_cases size <;> simp only [capacity] at fits
  case «1» =>
    have isOffset : rangeStart 1 + offset = offset := Nat.zero_add offset
    rw [isOffset, storeNat, if_pos (by omega)]
    simp [pack, mark, Endian.big]
  case «2» =>
    change storeNat (0x80 + offset) = _
    rw [storeNat, if_neg (by omega), if_pos (by omega), Nat.add_sub_cancel_left,
      storeUnaligned_two (by omega)]
  case «3» =>
    change storeNat (0x4080 + offset) = _
    rw [storeNat, if_neg (by omega), if_neg (by omega), if_pos (by omega)]
    simp only [Nat.add_sub_cancel_left, storeUnaligned_swap, Nat.shiftRight_eq_div_pow]
    have marked : 0xC0 ||| offset / 2 ^ 16 = 0xC0 + offset / 2 ^ 16 :=
      or_mark 5 (by omega) 6
    rw [marked]
    rfl
  case «4» =>
    change storeNat (0x204080 + offset) = _
    rw [storeNat, if_neg (by omega), if_neg (by omega), if_neg (by omega), if_pos (by omega)]
    simp only [Nat.add_sub_cancel_left, storeUnaligned_swap]
    have marked : Endian.big 4 (offset ||| 0xE0000000)
        = toByte (0xE0 + offset / 256 ^ 3) :: Endian.big 3 offset :=
      big_or_mark 4 14 (by omega)
    rw [marked]
    rfl
  case «5» =>
    change storeNat (0x10204080 + offset) = _
    rw [storeNat, if_neg (by omega), if_neg (by omega), if_neg (by omega), if_neg (by omega),
      if_pos (by omega)]
    simp only [Nat.add_sub_cancel_left, storeUnaligned_swap, Nat.shiftRight_eq_div_pow]
    have marked : 0xF0 ||| offset / 2 ^ 32 = 0xF0 + offset / 2 ^ 32 :=
      or_mark 3 (by omega) 30
    rw [marked]
    rfl
  case «6» =>
    change storeNat (0x0810204080 + offset) = _
    rw [storeNat, if_neg (by omega), if_neg (by omega), if_neg (by omega), if_neg (by omega),
      if_neg (by omega), if_pos (by omega)]
    simp only [Nat.add_sub_cancel_left, storeUnaligned_swap, Nat.shiftRight_eq_div_pow]
    have marked : Endian.big 2 (offset / 2 ^ 32 ||| 0xF800)
        = toByte (0xF8 + offset / 2 ^ 32 / 256 ^ 1) :: Endian.big 1 (offset / 2 ^ 32) :=
      big_or_mark 2 62 (by omega)
    rw [marked, Nat.div_div_eq_div_mul, List.cons_append]
    exact congrArg (fun low => (_ :: low, 6)) (Endian.big_append 1 4 offset).symm
  case «7» =>
    change storeNat (0x040810204080 + offset) = _
    rw [storeNat, if_neg (by omega), if_neg (by omega), if_neg (by omega), if_neg (by omega),
      if_neg (by omega), if_neg (by omega), if_pos (by omega)]
    simp only [Nat.add_sub_cancel_left, storeUnaligned_swap, Nat.shiftRight_eq_div_pow]
    have marked : 0xFC ||| offset / 2 ^ 48 = 0xFC + offset / 2 ^ 48 :=
      or_mark 1 (by omega) 126
    rw [marked, List.cons_append]
    exact congrArg (fun low => (_ :: low, 7)) (Endian.big_append 2 4 offset).symm
  case «8» =>
    change storeNat (0x02040810204080 + offset) = _
    rw [storeNat, if_neg (by omega), if_neg (by omega), if_neg (by omega), if_neg (by omega),
      if_neg (by omega), if_neg (by omega), if_neg (by omega), if_pos (by omega)]
    simp only [Nat.add_sub_cancel_left, storeUnaligned_swap]
    have marked : Endian.big 8 (offset ||| 0xFE00000000000000)
        = toByte (0xFE + offset / 256 ^ 7) :: Endian.big 7 offset :=
      big_or_mark 0 254 (by omega)
    rw [marked]
    rfl
  case «9» =>
    change storeNat (0x0102040810204080 + offset) = _
    have noBits : offset / 256 ^ (9 - 1) = 0 := Nat.div_eq_of_lt (by omega)
    rw [storeNat, if_neg (by omega), if_neg (by omega), if_neg (by omega), if_neg (by omega),
      if_neg (by omega), if_neg (by omega), if_neg (by omega), if_neg (by omega), pack, noBits]
    simp only [Nat.add_sub_cancel_left, storeUnaligned_swap]
    rfl

theorem rangeStart_succ {size : Nat} (least : 1 ≤ size) (most : size ≤ 8)
    : rangeStart (size + 1) = rangeStart size + capacity size := by
  interval_cases size <;> rfl

theorem rangeStart_mono {left right : Nat} (less : left < right)
    (leftSize : IsSize left) (rightSize : IsSize right)
    : rangeStart left + capacity left ≤ rangeStart right := by
  obtain ⟨difference, rfl⟩ := Nat.exists_eq_add_of_lt less
  have most := rightSize.2
  induction difference with
  | zero =>
      rw [Nat.add_zero, rangeStart_succ leftSize.1 (by omega)]
  | succ difference ih =>
      have below := ih (by omega) ⟨by omega, by omega⟩ (by omega)
      have next := @rangeStart_succ (left + difference + 1) (by omega) (by omega)
      rw [← Nat.add_assoc left difference 1, next]
      omega

/-- Every number is in the range of some size. -/
theorem exists_offset {number : Nat} (small : number < 2 ^ 64)
    : ∃ size offset, IsSize size ∧ offset < capacity size ∧ number = rangeStart size + offset := by
  have covered : ∀ size, IsSize size → number < rangeStart size + capacity size →
      ∃ size offset, IsSize size ∧ offset < capacity size ∧ number = rangeStart size + offset := by
    intro size isSize below
    obtain ⟨least, most⟩ := isSize
    induction size, least using Nat.le_induction with
    | base => exact ⟨1, number, ⟨by omega, by omega⟩, by simpa [rangeStart] using below, by simp [rangeStart]⟩
    | succ size least ih =>
        by_cases inside : rangeStart (size + 1) ≤ number
        · exact ⟨size + 1, number - rangeStart (size + 1), ⟨by omega, most⟩, by omega, by omega⟩
        · rw [rangeStart_succ least (by omega), not_le] at inside
          exact ih inside (by omega)
  refine covered 9 ⟨by decide, by decide⟩ (small.trans_le ?_)
  decide

-- The first byte

theorem getD_replicate_append {α : Type} (count index : Nat) (value default : α) (rest : List α)
    : (List.replicate count value ++ rest).getD index default
      = if index < count then value else rest.getD (index - count) default := by
  split
  case isTrue inside =>
    rw [List.getD_append _ _ _ _ (by rwa [List.length_replicate]), List.getD_replicate _ inside]
  case isFalse outside =>
    rw [List.getD_append_right _ _ _ _ (by rw [List.length_replicate]; omega),
      List.length_replicate]

/-- The runs of the table. -/
theorem decoder_runs (first : Byte)
    : decoder first
      = if first.val < 0x80 then 1
        else if first.val < 0xC0 then 2
        else if first.val < 0xE0 then 3
        else if first.val < 0xF0 then 4
        else if first.val < 0xF8 then 5
        else if first.val < 0xFC then 6
        else if first.val < 0xFE then 7
        else if first.val < 0xFF then 8
        else 9 := by
  have isByte := first.isLt
  have last : ∀ index, index < 4 → [7, 7, 8, 9].getD index 0
      = if index < 2 then 7 else if index < 3 then 8 else 9 := by decide
  have ends : ∀ start count, 0 < count → (first.val - start < count ↔ first.val < start + count) := by
    omega
  rw [decoder, natSizes]
  simp (disch := decide) only [List.append_assoc, getD_replicate_append, Nat.sub_sub, ends,
    Nat.reduceAdd]
  refine ite_congr rfl (fun _ => rfl) fun _ => ?_
  refine ite_congr rfl (fun _ => rfl) fun _ => ?_
  refine ite_congr rfl (fun _ => rfl) fun _ => ?_
  refine ite_congr rfl (fun _ => rfl) fun _ => ?_
  refine ite_congr rfl (fun _ => rfl) fun _ => ?_
  refine ite_congr rfl (fun _ => rfl) fun outside => ?_
  rw [last _ (by omega)]
  simp (disch := decide) only [ends, Nat.reduceAdd]

/-- A first byte is the mark of a size with some bits of the offset. -/
theorem decoder_mark (first : Byte)
    : IsSize (decoder first) ∧ mark (decoder first) ≤ first.val
      ∧ first.val < mark (decoder first) + 2 ^ (8 - decoder first) := by
  have isByte := first.isLt
  have runs := decoder_runs first
  generalize decoder first = size at runs
  split_ifs at runs <;> subst runs <;> simp only [IsSize, mark] <;> omega

theorem mark_mono {left right : Nat} (less : left < right) (leftSize : IsSize left)
    (rightSize : IsSize right)
    : mark left + 2 ^ (8 - left) ≤ mark right := by
  obtain ⟨least, -⟩ := leftSize
  obtain ⟨-, most⟩ := rightSize
  have half : 2 ^ (9 - left) = 2 ^ (8 - left) * 2 := by
    rw [← Nat.pow_succ]
    congr 1
    omega
  have small : 2 ^ (9 - left) ≤ 2 ^ 8 := Nat.pow_le_pow_right (by omega) (by omega)
  have lower : 2 ^ (9 - right) ≤ 2 ^ (8 - left) := Nat.pow_le_pow_right (by omega) (by omega)
  unfold mark
  omega

theorem decoder_eq {size : Nat} {first : Byte} (isSize : IsSize size) (atLeast : mark size ≤ first.val)
    (below : first.val < mark size + 2 ^ (8 - size))
    : decoder first = size := by
  obtain ⟨decoderSize, decoderLeast, decoderBelow⟩ := decoder_mark first
  rcases Nat.lt_trichotomy (decoder first) size with less | same | greater
  · have apart := mark_mono less decoderSize isSize
    omega
  · exact same
  · have apart := mark_mono greater isSize decoderSize
    omega

theorem natSize_eq (first : Byte) : natSize first = decoder first := by
  have runs := decoder_runs first
  rw [decoder] at runs
  rw [natSize, decoder, runs]
  refine ite_congr rfl (fun _ => rfl) fun one => ?_
  refine ite_congr rfl (fun _ => rfl) fun two => ?_
  refine ite_congr rfl (fun _ => rfl) fun three => ?_
  refine ite_congr rfl (fun _ => rfl) fun four => ?_
  refine ite_congr rfl (fun _ => rfl) fun five => ?_
  rw [if_neg one, if_neg two, if_neg three, if_neg four, if_neg five]

/-- The first byte of an encoding has the mark of its size and the highest bits of the offset. -/
theorem val_first {size offset : Nat} (isSize : IsSize size) (fits : offset < capacity size)
    : (toByte (mark size + offset / 256 ^ (size - 1))).val = mark size + offset / 256 ^ (size - 1)
      ∧ offset / 256 ^ (size - 1) < 2 ^ (8 - size) := by
  have high : offset / 256 ^ (size - 1) < 2 ^ (8 - size) :=
    Nat.div_lt_of_lt_mul (by rwa [capacity, Nat.mul_comm] at fits)
  have inByte : mark size + 2 ^ (8 - size) ≤ 256 := by
    obtain ⟨least, most⟩ := isSize
    interval_cases size <;> decide
  exact ⟨Nat.mod_eq_of_lt (by omega), high⟩

theorem decoder_pack {size offset : Nat} (isSize : IsSize size) (fits : offset < capacity size)
    : decoder (toByte (mark size + offset / 256 ^ (size - 1))) = size := by
  obtain ⟨first, high⟩ := val_first isSize fits
  refine decoder_eq isSize ?_ ?_
  · rw [first]
    exact Nat.le_add_right _ _
  · rw [first]
    exact Nat.add_lt_add_left high _

theorem pack_length {size : Nat} (isSize : IsSize size) (offset : Nat)
    : (pack size offset).length = size := by
  rw [pack, List.length_cons, Endian.big_length]
  exact Nat.sub_add_cancel isSize.1

/-- The bytes from a first byte on are an encoding, if there are as many as the byte says. -/
theorem exists_pack {first : Byte} {bytes : Bytes}
    (long : decoder first ≤ (first :: bytes).length)
    : ∃ offset < capacity (decoder first),
        first :: bytes = pack (decoder first) offset ++ (first :: bytes).drop (decoder first) := by
  obtain ⟨isSize, atLeast, below⟩ := decoder_mark first
  generalize decoder first = size at *
  obtain ⟨width, rfl⟩ : ∃ width, size = width + 1 := ⟨size - 1, (Nat.sub_add_cancel isSize.1).symm⟩
  have taken : (bytes.take width).length = width := by
    rw [List.length_take]
    simp only [List.length_cons] at long
    omega
  have lowSmall := Endian.ofBig_lt (bytes.take width)
  rw [taken] at lowSmall
  have positive : 0 < 256 ^ width := Nat.pow_pos (by omega)
  refine ⟨256 ^ width * (first.val - mark (width + 1)) + Endian.ofBig (bytes.take width), ?_, ?_⟩
  · have highSmall : 256 ^ width * (first.val - mark (width + 1) + 1)
        ≤ 256 ^ width * 2 ^ (8 - (width + 1)) :=
      Nat.mul_le_mul_left _ (by omega)
    rw [Nat.mul_add, Nat.mul_one] at highSmall
    rw [capacity, Nat.mul_comm (2 ^ _), Nat.add_sub_cancel]
    omega
  · have written := Endian.big_ofBig (bytes.take width)
    rw [taken] at written
    have isFirst : mark (width + 1) + (256 ^ width * (first.val - mark (width + 1))
        + Endian.ofBig (bytes.take width)) / 256 ^ width = first.val := by
      rw [Nat.mul_add_div positive, Nat.div_eq_of_lt lowSmall]
      omega
    rw [pack, Nat.add_sub_cancel, isFirst, big_mark, written, List.drop_succ_cons,
      List.cons_append, List.take_append_drop]
    congr 1
    exact (Fin.ext (Nat.mod_eq_of_lt first.isLt)).symm

-- Loading a number

theorem loadUnaligned_big {offset : Nat} (before : Bytes) (isOffset : before.length = offset)
    (width number : Nat) (rest : Bytes)
    : loadUnaligned width (before ++ (Endian.big width number ++ rest)) offset
      = .ok (Endian.swap width number) := by
  subst isOffset
  have isWord : (Endian.big width number ++ rest).take width = Endian.big width number :=
    List.take_left' (Endian.big_length width number)
  rw [loadUnaligned, if_pos (by simp), List.drop_left, isWord]
  rfl

/-- The bits of the first byte behind its mark. -/
theorem and_mask (bits : Nat) {high : Nat} (word : Nat) (small : high < 2 ^ bits)
    : (2 ^ bits * word + high) &&& (2 ^ bits - 1) = high := by
  rw [Nat.and_two_pow_sub_one_eq_mod, Nat.mul_add_mod, Nat.mod_eq_of_lt small]

/-- A marked first byte and the bytes behind it are a marked word. -/
theorem cons_big {width high low : Nat} {first : Byte} (isFirst : first.val = high + low / 256 ^ width)
    : first :: Endian.big width low = Endian.big (width + 1) (256 ^ width * high + low) := by
  have positive : 0 < 256 ^ width := Nat.pow_pos (by omega)
  rw [Endian.big, big_mark, Nat.mul_add_div positive, ← isFirst]
  congr 1
  exact (Fin.ext (Nat.mod_eq_of_lt first.isLt)).symm

/-- `load<n>` gives the number of an encoding. For nine bytes it may have overflown. -/
theorem load_pack {size offset : Nat} (isSize : IsSize size) (notOne : size ≠ 1)
    (fits : offset < capacity size) (rest : Bytes)
    : load size (toByte (mark size + offset / 256 ^ (size - 1))) (pack size offset ++ rest)
      = .ok ((rangeStart size + offset) % 2 ^ 64) := by
  obtain ⟨isFirst, high⟩ := val_first isSize fits
  rw [pack, List.cons_append]
  generalize toByte (mark size + offset / 256 ^ (size - 1)) = first at *
  obtain ⟨least, most⟩ := isSize
  interval_cases size <;> simp only [capacity] at fits
  case «1» => exact absurd rfl notOne
  case «2» =>
    have masked : first.val &&& 0x3F = offset / 256 := by
      rw [isFirst]
      exact and_mask 6 2 high
    have second : loadUnaligned 1 (first :: (Endian.big 1 offset ++ rest)) 1 = .ok (offset % 256) :=
      (loadUnaligned_big [first] rfl 1 offset rest).trans (by rw [Endian.swap_one])
    have start : rangeStart 2 = 0x80 := rfl
    simp only [load, second, masked, start, Outcome.ok_bind, Outcome.pure_eq, Outcome.ok.injEq,
      Nat.shiftLeft_eq]
    omega
  case «3» =>
    have masked : first.val &&& 0x1F = offset / 256 ^ 2 := by
      rw [isFirst]
      exact and_mask 5 6 high
    have low : loadUnaligned 2 (first :: (Endian.big 2 offset ++ rest)) 1
        = .ok (Endian.swap 2 offset) :=
      loadUnaligned_big [first] rfl 2 offset rest
    have start : rangeStart 3 = 0x4080 := rfl
    simp only [load, low, masked, start, Endian.swap_swap, Outcome.ok_bind, Outcome.pure_eq,
      Outcome.ok.injEq, Nat.shiftLeft_eq]
    omega
  case «4» =>
    have word : loadUnaligned 4 (first :: (Endian.big 3 offset ++ rest)) 0
        = .ok (Endian.swap 4 (256 ^ 3 * 0xE0 + offset)) := by
      rw [← List.cons_append, cons_big isFirst]
      exact loadUnaligned_big [] rfl 4 _ rest
    have masked : (256 ^ 3 * 0xE0 + offset) % 256 ^ 4 &&& 0x0FFFFFFF = offset := by
      rw [Nat.mod_eq_of_lt (by omega)]
      exact and_mask 28 14 (by omega)
    have start : rangeStart 4 = 0x204080 := rfl
    simp only [load, word, start, Endian.swap_swap, masked, Outcome.ok_bind, Outcome.pure_eq,
      Outcome.ok.injEq]
    omega
  case «5» =>
    have masked : first.val &&& 0x7 = offset / 256 ^ 4 := by
      rw [isFirst]
      exact and_mask 3 30 high
    have low : loadUnaligned 4 (first :: (Endian.big 4 offset ++ rest)) 1
        = .ok (Endian.swap 4 offset) :=
      loadUnaligned_big [first] rfl 4 offset rest
    have start : rangeStart 5 = 0x10204080 := rfl
    simp only [load, low, masked, start, Endian.swap_swap, Outcome.ok_bind, Outcome.pure_eq,
      Outcome.ok.injEq, Nat.shiftLeft_eq]
    omega
  case «6» =>
    have masked : first.val &&& 0x3 = offset / 256 ^ 5 := by
      rw [isFirst]
      exact and_mask 2 62 high
    have split : Endian.big 5 offset ++ rest
        = Endian.big 1 (offset / 256 ^ 4) ++ (Endian.big 4 offset ++ rest) := by
      rw [Endian.big_append 1 4, List.append_assoc]
    have second : loadUnaligned 1 (first :: (Endian.big 5 offset ++ rest)) 1
        = .ok (offset / 256 ^ 4 % 256) := by
      rw [split, ← Endian.swap_one]
      exact loadUnaligned_big [first] rfl 1 _ _
    have low : loadUnaligned 4 (first :: (Endian.big 5 offset ++ rest)) 2
        = .ok (Endian.swap 4 offset) := by
      rw [split]
      exact loadUnaligned_big (first :: Endian.big 1 _) rfl 4 offset rest
    have start : rangeStart 6 = 0x0810204080 := rfl
    simp only [load, second, low, masked, start, Endian.swap_swap, Outcome.ok_bind,
      Outcome.pure_eq, Outcome.ok.injEq, Nat.shiftLeft_eq]
    omega
  case «7» =>
    have masked : first.val &&& 0x1 = offset / 256 ^ 6 := by
      rw [isFirst]
      exact and_mask 1 126 high
    have split : Endian.big 6 offset ++ rest
        = Endian.big 2 (offset / 256 ^ 4) ++ (Endian.big 4 offset ++ rest) := by
      rw [Endian.big_append 2 4, List.append_assoc]
    have middle : loadUnaligned 2 (first :: (Endian.big 6 offset ++ rest)) 1
        = .ok (Endian.swap 2 (offset / 256 ^ 4)) := by
      rw [split]
      exact loadUnaligned_big [first] rfl 2 _ _
    have low : loadUnaligned 4 (first :: (Endian.big 6 offset ++ rest)) 3
        = .ok (Endian.swap 4 offset) := by
      rw [split]
      exact loadUnaligned_big (first :: Endian.big 2 _) rfl 4 offset rest
    have start : rangeStart 7 = 0x040810204080 := rfl
    simp only [load, middle, low, masked, start, Endian.swap_swap, Outcome.ok_bind,
      Outcome.pure_eq, Outcome.ok.injEq, Nat.shiftLeft_eq]
    omega
  case «8» =>
    have word : loadUnaligned 8 (first :: (Endian.big 7 offset ++ rest)) 0
        = .ok (Endian.swap 8 (256 ^ 7 * 0xFE + offset)) := by
      rw [← List.cons_append, cons_big isFirst]
      exact loadUnaligned_big [] rfl 8 _ rest
    have masked : (256 ^ 7 * 0xFE + offset) % 256 ^ 8 &&& 0xFFFFFFFFFFFFFF = offset := by
      rw [Nat.mod_eq_of_lt (by omega)]
      exact and_mask 56 254 (by omega)
    have start : rangeStart 8 = 0x02040810204080 := rfl
    simp only [load, word, start, Endian.swap_swap, masked, Outcome.ok_bind, Outcome.pure_eq,
      Outcome.ok.injEq]
    omega
  case «9» =>
    have word : loadUnaligned 8 (first :: (Endian.big 8 offset ++ rest)) 1
        = .ok (Endian.swap 8 offset) :=
      loadUnaligned_big [first] rfl 8 offset rest
    have start : rangeStart 9 = 0x0102040810204080 := rfl
    simp only [load, word, start, Endian.swap_swap, Outcome.ok_bind, Outcome.pure_eq,
      Outcome.ok.injEq]
    omega

-- Encodings

section Pack

variable {size offset : Nat}

theorem encodeNat_rangeStart (isSize : IsSize size) (fits : offset < capacity size)
    (small : rangeStart size + offset < 2 ^ 64)
    : encodeNat (rangeStart size + offset) = pack size offset := by
  rw [encodeNat, storeNat_rangeStart isSize fits small]
  exact List.take_of_length_le (pack_length isSize offset).le

theorem drop_pack (isSize : IsSize size) (offset : Nat) (rest : Bytes)
    : (pack size offset ++ rest).drop size = rest :=
  List.drop_left' (pack_length isSize offset)

/-- An encoding: its first byte, whose label is the size, and the number that is loaded. -/
theorem exists_first (isSize : IsSize size) (fits : offset < capacity size)
    : ∃ first bytes, pack size offset = first :: bytes ∧ decoder first = size
        ∧ (size = 1 → bytes = [] ∧ first.val = (rangeStart size + offset) % 2 ^ 64)
        ∧ (size ≠ 1 → ∀ rest, load size first (first :: (bytes ++ rest))
            = .ok ((rangeStart size + offset) % 2 ^ 64)) := by
  refine ⟨_, _, rfl, decoder_pack isSize fits, ?_, ?_⟩
  · rintro rfl
    have small : offset < 128 := fits
    have start : rangeStart 1 + offset = offset := Nat.zero_add offset
    have isFirst := (val_first isSize fits).1
    rw [Nat.sub_self, Nat.pow_zero, Nat.div_one] at isFirst ⊢
    refine ⟨rfl, ?_⟩
    rw [start, Nat.mod_eq_of_lt (by omega), isFirst]
    exact Nat.zero_add offset
  · intro notOne rest
    exact load_pack isSize notOne fits rest

theorem loadTrustedNat_pack (isSize : IsSize size) (fits : offset < capacity size) (rest : Bytes)
    : loadTrustedNat (pack size offset ++ rest)
      = .ok ((rangeStart size + offset) % 2 ^ 64, rest) := by
  have rested := drop_pack isSize offset rest
  obtain ⟨first, bytes, shape, label, ofOne, ofMore⟩ := exists_first isSize fits
  rw [shape, List.cons_append] at rested ⊢
  rw [loadTrustedNat, label]
  by_cases isOne : size = 1
  · obtain ⟨rfl, isNumber⟩ := ofOne isOne
    rw [if_pos isOne, isNumber, List.nil_append]
  · rw [if_neg isOne, decode, ofMore isOne, Outcome.ok_bind, rested]
    rfl

/-- Only the numbers of nine bytes may overflow. -/
theorem number_lt (isSize : IsSize size) (notNine : size ≠ 9) (fits : offset < capacity size)
    : rangeStart size + offset < 2 ^ 64 := by
  have below := @rangeStart_mono size 9
    (lt_of_le_of_ne isSize.2 notNine) isSize ⟨by omega, by omega⟩
  have last : rangeStart 9 < 2 ^ 64 := by decide
  omega

theorem overflown_iff (fits : offset < capacity 9)
    : 0x0102040810204080 ≤ (rangeStart 9 + offset) % 2 ^ 64 ↔ rangeStart 9 + offset < 2 ^ 64 := by
  have small : offset < 2 ^ 64 := fits
  have start : rangeStart 9 = 0x0102040810204080 := rfl
  rw [start]
  omega

/-- The encodings of nine bytes whose number does not fit a word are refused. -/
theorem loadUntrustedNat_pack (isSize : IsSize size) (fits : offset < capacity size) (rest : Bytes)
    : loadUntrustedNat (pack size offset ++ rest)
      = .ok (if rangeStart size + offset < 2 ^ 64 then some (rangeStart size + offset, rest)
          else none) := by
  have rested := drop_pack isSize offset rest
  have length := pack_length isSize offset
  obtain ⟨first, bytes, shape, label, ofOne, ofMore⟩ := exists_first isSize fits
  rw [shape, List.cons_append] at rested ⊢
  rw [shape] at length
  rw [loadUntrustedNat, label]
  by_cases isOne : size = 1
  · obtain ⟨rfl, isNumber⟩ := ofOne isOne
    subst isOne
    have small : rangeStart 1 + offset < 2 ^ 64 := by
      have fits : offset < 128 := fits
      have start : rangeStart 1 + offset = offset := Nat.zero_add offset
      omega
    rw [Nat.mod_eq_of_lt small] at isNumber
    rw [if_pos rfl, if_pos small, isNumber, List.nil_append]
  · have long : size ≤ (first :: (bytes ++ rest)).length := by
      rw [← List.cons_append, List.length_append]
      omega
    rw [if_neg isOne, decodeCheck, if_pos long, decode, ofMore isOne, Outcome.ok_bind, rested]
    simp only [Outcome.pure_eq, Outcome.ok_bind]
    by_cases isNine : size = 9
    · subst isNine
      have fitting := overflown_iff fits
      by_cases small : rangeStart 9 + offset < 2 ^ 64
      · rw [if_pos (.inr (fitting.mpr small)), if_pos small, Nat.mod_eq_of_lt small]
      · have refused : ¬ (9 ≠ 9 ∨ 0x0102040810204080 ≤ (rangeStart 9 + offset) % 2 ^ 64) := by
          rw [fitting]
          simpa using small
        rw [if_neg refused, if_neg small]
    · have small := number_lt isSize isNine fits
      rw [if_pos (.inl isNine), if_pos small, Nat.mod_eq_of_lt small]

theorem skipTrustedNat_pack (isSize : IsSize size) (fits : offset < capacity size) (rest : Bytes)
    : skipTrustedNat (pack size offset ++ rest) = .ok rest := by
  have rested := drop_pack isSize offset rest
  obtain ⟨first, bytes, shape, label, -, -⟩ := exists_first isSize fits
  rw [shape, List.cons_append] at rested ⊢
  rw [skipTrustedNat, natSize_eq, label, rested]

theorem skipUntrustedNat_pack (isSize : IsSize size) (fits : offset < capacity size) (rest : Bytes)
    : skipUntrustedNat (pack size offset ++ rest)
      = .ok (if rangeStart size + offset < 2 ^ 64 then some rest else none) := by
  have rested := drop_pack isSize offset rest
  have length := pack_length isSize offset
  have label := decoder_pack isSize fits
  have long : size ≤ (pack size offset ++ rest).length := by
    rw [List.length_append]
    omega
  rw [pack, List.cons_append] at rested long ⊢
  rw [skipUntrustedNat]
  simp only [natSize_eq, label, if_pos long, rested]
  by_cases isNine : size = 9
  · subst isNine
    have word := @loadUnaligned_big 1
      [toByte (mark 9 + offset / 256 ^ (9 - 1))] rfl 8 offset rest
    have start : rangeStart 9 = 0x0102040810204080 := rfl
    have small : offset < 256 ^ 8 := fits
    rw [List.singleton_append] at word
    rw [if_neg (by omega), word, Outcome.ok_bind, Endian.swap_swap, Nat.mod_eq_of_lt small, start]
    refine congrArg Outcome.ok (if_congr ?_ rfl rfl)
    omega
  · have small := number_lt isSize isNine fits
    rw [if_pos (lt_of_le_of_ne isSize.2 isNine), if_pos small]

/-- Fewer bytes than the first one says are refused. -/
theorem loadUntrustedNat_short {first : Byte} {bytes : Bytes}
    (short : (first :: bytes).length < decoder first)
    : loadUntrustedNat (first :: bytes) = .ok none ∧ skipUntrustedNat (first :: bytes) = .ok none := by
  rw [List.length_cons] at short
  constructor
  · rw [loadUntrustedNat, if_neg (by omega), decodeCheck, List.length_cons, if_neg (by omega)]
    rfl
  · rw [skipUntrustedNat]
    simp only [natSize_eq, List.length_cons]
    rw [if_neg (by omega)]

end Pack

-- The order of encodings

open PrefixCode (Below)

/-- A lower number differs from a higher one of the same size at some byte, and from one of another
size at the first.
-/
theorem pack_below {leftSize leftOffset rightSize rightOffset : Nat} (leftIs : IsSize leftSize)
    (rightIs : IsSize rightSize) (leftFits : leftOffset < capacity leftSize)
    (rightFits : rightOffset < capacity rightSize)
    (less : rangeStart leftSize + leftOffset < rangeStart rightSize + rightOffset)
    : Below (pack leftSize leftOffset) (pack rightSize rightOffset) := by
  obtain ⟨leftFirst, leftHigh⟩ := val_first leftIs leftFits
  obtain ⟨rightFirst, rightHigh⟩ := val_first rightIs rightFits
  rcases Nat.lt_trichotomy leftSize rightSize with smaller | rfl | larger
  · have apart := mark_mono smaller leftIs rightIs
    refine .here (Fin.lt_def.mpr ?_)
    rw [leftFirst, rightFirst]
    exact (Nat.add_lt_add_left leftHigh _).trans_le (apart.trans (Nat.le_add_right _ _))
  · refine .of_lt (by rw [pack_length leftIs, pack_length leftIs]) ?_
    rw [pack, pack, cons_big leftFirst, cons_big rightFirst]
    refine Endian.big_lt_big ?_ (Nat.add_lt_add_left (Nat.lt_of_add_lt_add_left less) _)
    have positive : 0 < 256 ^ (leftSize - 1) := Nat.pow_pos (by omega)
    rw [Nat.pow_succ', ← Nat.div_lt_iff_lt_mul positive, Nat.mul_add_div positive, ← rightFirst]
    exact Fin.isLt _
  · have apart := rangeStart_mono larger rightIs leftIs
    omega

/-- Encodings of 64-bit numbers are ordered as the numbers, and none is a prefix of another. -/
theorem encodeNat_ordered : PrefixCode.Ordered fun number : Fin (2 ^ 64) => encodeNat number.val := by
  intro left right less
  obtain ⟨leftSize, leftOffset, leftIs, leftFits, isLeft⟩ := exists_offset left.isLt
  obtain ⟨rightSize, rightOffset, rightIs, rightFits, isRight⟩ := exists_offset right.isLt
  have leftSmall := left.isLt
  have rightSmall := right.isLt
  have isLess : left.val < right.val := less
  rw [isLeft] at leftSmall isLess
  rw [isRight] at rightSmall isLess
  dsimp only
  rw [isLeft, isRight, encodeNat_rangeStart leftIs leftFits leftSmall,
    encodeNat_rangeStart rightIs rightFits rightSmall]
  exact pack_below leftIs rightIs leftFits rightFits isLess

-- The codec

/-- The four ways to read an encoding. -/
theorem read_encodeNat {number : Nat} (small : number < 2 ^ 64) (rest : Bytes)
    : loadTrustedNat (encodeNat number ++ rest) = .ok (number, rest)
      ∧ loadUntrustedNat (encodeNat number ++ rest) = .ok (some (number, rest))
      ∧ skipTrustedNat (encodeNat number ++ rest) = .ok rest
      ∧ skipUntrustedNat (encodeNat number ++ rest) = .ok (some rest) := by
  obtain ⟨size, offset, isSize, fits, rfl⟩ := exists_offset small
  rw [encodeNat_rangeStart isSize fits small, loadTrustedNat_pack isSize fits,
    loadUntrustedNat_pack isSize fits, skipTrustedNat_pack isSize fits,
    skipUntrustedNat_pack isSize fits, if_pos small, if_pos small, Nat.mod_eq_of_lt small]
  exact ⟨rfl, rfl, rfl, rfl⟩

theorem storeNat_sizes {number : Nat} (small : number < 2 ^ 64)
    : (storeNat number).1 = encodeNat number
      ∧ (storeNat number).2 = (encodeNat number).length
      ∧ (encodeNat number).head?.map natSize = some (encodeNat number).length := by
  obtain ⟨size, offset, isSize, fits, rfl⟩ := exists_offset small
  have label := decoder_pack isSize fits
  rw [encodeNat_rangeStart isSize fits small, storeNat_rangeStart isSize fits small,
    pack_length isSize, pack, List.head?_cons, Option.map_some, natSize_eq, label]
  exact ⟨rfl, rfl, rfl⟩

/-- What the checked decoders refuse does not start with an encoding. -/
theorem not_prefix_of_refused {input : Bytes} (refused : loadUntrustedNat input = .ok none)
    {number : Nat} (small : number < 2 ^ 64)
    : ¬ encodeNat number <+: input := by
  rintro ⟨rest, rfl⟩
  rw [(read_encodeNat small rest).2.1] at refused
  cases refused

/-- A byte string starts with an encoding, or the checked decoders refuse it. -/
theorem loadUntrustedNat_cases (input : Bytes)
    : (∃ number < 2 ^ 64, ∃ rest, input = encodeNat number ++ rest)
      ∨ (loadUntrustedNat input = .ok none ∧ skipUntrustedNat input = .ok none) := by
  cases input with
  | nil => exact .inr ⟨rfl, rfl⟩
  | cons first bytes =>
      by_cases long : decoder first ≤ (first :: bytes).length
      · obtain ⟨offset, fits, shape⟩ := exists_pack long
        have isSize := (decoder_mark first).1
        rw [shape]
        by_cases small : rangeStart (decoder first) + offset < 2 ^ 64
        · refine .inl ⟨_, small, (first :: bytes).drop (decoder first), ?_⟩
          rw [encodeNat_rangeStart isSize fits small]
        · refine .inr ?_
          rw [loadUntrustedNat_pack isSize fits, skipUntrustedNat_pack isSize fits, if_neg small,
            if_neg small]
          exact ⟨rfl, rfl⟩
      · exact .inr (loadUntrustedNat_short (not_le.mp long))

/-- Packed numbers are stored, loaded and skipped alike; they are ordered as the numbers and none is a
prefix of another; and the checked decoder accepts exactly what starts with a packed number.
-/
theorem natCodec_correct
    : (∀ number < 2 ^ 64, ∀ rest,
        loadTrustedNat (encodeNat number ++ rest) = .ok (number, rest)
        ∧ loadUntrustedNat (encodeNat number ++ rest) = .ok (some (number, rest))
        ∧ skipTrustedNat (encodeNat number ++ rest) = .ok rest
        ∧ skipUntrustedNat (encodeNat number ++ rest) = .ok (some rest)
        ∧ (storeNat number).1 = encodeNat number
        ∧ (storeNat number).2 = (encodeNat number).length
        ∧ (encodeNat number).head?.map natSize = some (encodeNat number).length)
      ∧ (∀ less greater, less < greater → greater < 2 ^ 64 →
          encodeNat less < encodeNat greater
          ∧ ¬ encodeNat less <+: encodeNat greater ∧ ¬ encodeNat greater <+: encodeNat less)
      ∧ ∀ input, ∃ result, loadUntrustedNat input = .ok result
          ∧ skipUntrustedNat input = .ok (result.map Prod.snd)
          ∧ (result.isSome ↔ ∃ number < 2 ^ 64, encodeNat number <+: input)
          ∧ ∀ number rest, result = some (number, rest) → number < 2 ^ 64
              ∧ input = encodeNat number ++ rest ∧ loadTrustedNat input = .ok (number, rest) := by
  refine ⟨?_, ?_, ?_⟩
  · intro number small rest
    obtain ⟨trusted, untrusted, skipTrusted, skipUntrusted⟩ := read_encodeNat small rest
    exact ⟨trusted, untrusted, skipTrusted, skipUntrusted, storeNat_sizes small⟩
  · intro less greater isLess small
    have below := encodeNat_ordered ⟨less, isLess.trans small⟩ ⟨greater, small⟩ isLess
    exact ⟨below.lt, below.not_isPrefix⟩
  · intro input
    rcases loadUntrustedNat_cases input with ⟨number, small, rest, rfl⟩ | ⟨refused, skipRefused⟩
    · obtain ⟨trusted, untrusted, -, skipUntrusted⟩ := read_encodeNat small rest
      refine ⟨_, untrusted, skipUntrusted, ?_, ?_⟩
      · exact iff_of_true rfl ⟨number, small, List.prefix_append _ _⟩
      · rintro _ _ ⟨⟩
        exact ⟨small, rfl, trusted⟩
    · refine ⟨none, refused, skipRefused, ?_, fun _ _ found => nomatch found⟩
      refine iff_of_false Bool.false_ne_true ?_
      rintro ⟨number, small, starts⟩
      exact not_prefix_of_refused refused small starts

/-- The last number of one byte and the first of two. -/
theorem natCodec_correct_two
    : loadTrustedNat (encodeNat 0x80 ++ [7]) = .ok (0x80, [7])
      ∧ encodeNat 0x7F < encodeNat 0x80 :=
  ⟨(natCodec_correct.1 0x80 (by decide) [7]).1,
    (natCodec_correct.2.1 0x7F 0x80 (by decide) (by decide)).1⟩

end PackedNat

end Glean.RTS
