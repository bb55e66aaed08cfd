import Mathlib.Data.Fin.Basic
import Mathlib.Tactic.Common
import Glean.Library.Byte

/-! The UTF-8 encoding of Unicode scalar values: which bytes an encoding has, and that encodings
can be told apart from their first byte on.
-/

namespace Utf8

/-- Code points that are not surrogates. -/
def Scalar (code : Nat) : Prop :=
  code < 0xD800 ∨ (0xE000 ≤ code ∧ code < 0x110000)

/-- The encoding of a scalar value. -/
def encode (code : Nat) : List (Fin 256) :=
  if code < 0x80 then
    [Fin.ofNat 256 code]
  else if code < 0x800 then
    [Fin.ofNat 256 (0xC0 + code / 64), Fin.ofNat 256 (0x80 + code % 64)]
  else if code < 0x10000 then
    [Fin.ofNat 256 (0xE0 + code / 4096), Fin.ofNat 256 (0x80 + code / 64 % 64),
      Fin.ofNat 256 (0x80 + code % 64)]
  else
    [Fin.ofNat 256 (0xF0 + code / 262144), Fin.ofNat 256 (0x80 + code / 4096 % 64),
      Fin.ofNat 256 (0x80 + code / 64 % 64), Fin.ofNat 256 (0x80 + code % 64)]

/-- The encoding of a text. -/
def encodeAll (codes : List Nat) : List (Fin 256) := codes.flatMap encode

@[simp]
theorem encodeAll_nil : encodeAll [] = [] := rfl

@[simp]
theorem encodeAll_cons (code : Nat) (codes : List Nat)
    : encodeAll (code :: codes) = encode code ++ encodeAll codes :=
  rfl

theorem encodeAll_append (left right : List Nat)
    : encodeAll (left ++ right) = encodeAll left ++ encodeAll right :=
  List.flatMap_append

variable {code other : Nat}

theorem encode_ascii (ascii : code < 0x80) : encode code = [Fin.ofNat 256 code] := by
  simp [encode, ascii]

theorem encode_zero : encode 0 = [0] := rfl

theorem encode_ne_nil (code : Nat) : encode code ≠ [] := by
  unfold encode
  split
  · simp
  · split
    · simp
    · split <;> simp

theorem length_le_encodeAll (codes : List Nat) : codes.length ≤ (encodeAll codes).length := by
  induction codes with
  | nil => rfl
  | cons code codes ih =>
      have positive := List.length_pos_iff.mpr (encode_ne_nil code)
      rw [encodeAll_cons, List.length_append, List.length_cons]
      omega

/-- All bytes of a code point outside ASCII are marked. -/
theorem high_of_mem_encode (scalar : Scalar code) (notAscii : 0x80 ≤ code) {byte : Fin 256}
    (member : byte ∈ encode code)
    : 0x80 ≤ byte.val := by
  unfold Scalar at scalar
  unfold encode at member
  rw [if_neg (by omega)] at member
  split at member
  · simp only [List.mem_cons, List.not_mem_nil, or_false] at member
    rcases member with rfl | rfl <;> simp only [Fin.val_ofNat] <;> omega
  · split at member
    · simp only [List.mem_cons, List.not_mem_nil, or_false] at member
      rcases member with rfl | rfl | rfl <;> simp only [Fin.val_ofNat] <;> omega
    · simp only [List.mem_cons, List.not_mem_nil, or_false] at member
      rcases member with rfl | rfl | rfl | rfl <;> simp only [Fin.val_ofNat] <;> omega

/-- Only the code point zero has a zero byte. -/
theorem ne_zero_of_mem_encode (scalar : Scalar code) (notZero : code ≠ 0) {byte : Fin 256}
    (member : byte ∈ encode code)
    : byte ≠ 0 := by
  rintro rfl
  by_cases ascii : code < 0x80
  · rw [encode_ascii ascii, List.mem_singleton] at member
    have isZero := congrArg Fin.val member
    simp only [Fin.val_ofNat, Fin.val_zero] at isZero
    omega
  · have high := high_of_mem_encode scalar (by omega) member
    simp at high

/-- Bytes behind the first one are below all bytes that start an encoding of several bytes. -/
theorem low_of_mem_tail_encode {byte : Fin 256} (member : byte ∈ (encode code).tail)
    : byte.val < 0xC0 := by
  unfold encode at member
  split at member
  · simp at member
  · split at member
    · simp only [List.tail_cons, List.mem_singleton] at member
      subst member
      simp only [Fin.val_ofNat]
      omega
    · split at member
      · simp only [List.tail_cons, List.mem_cons, List.not_mem_nil, or_false] at member
        rcases member with rfl | rfl <;> simp only [Fin.val_ofNat] <;> omega
      · simp only [List.tail_cons, List.mem_cons, List.not_mem_nil, or_false] at member
        rcases member with rfl | rfl | rfl <;> simp only [Fin.val_ofNat] <;> omega

/-- Encodings of four bytes start with a byte that no other encoding has. -/
theorem encode_four (scalar : Scalar code) (large : 0x10000 ≤ code)
    : ∃ first second third fourth, encode code = [first, second, third, fourth]
        ∧ 0xF0 ≤ first.val := by
  unfold Scalar at scalar
  unfold encode
  rw [if_neg (by omega), if_neg (by omega), if_neg (by omega)]
  refine ⟨_, _, _, _, rfl, ?_⟩
  simp only [Fin.val_ofNat]
  omega

theorem length_of_head_encode {first : Fin 256} {others rest : List (Fin 256)}
    (lead : 0xF0 ≤ first.val) (starts : first :: others = encode code ++ rest)
    : (encode code).length = 4 := by
  unfold encode at starts ⊢
  split at starts
  · have isFirst := congrArg Fin.val (List.cons.inj starts).1
    rw [Fin.val_ofNat] at isFirst
    omega
  · split at starts
    · have isFirst := congrArg Fin.val (List.cons.inj starts).1
      rw [Fin.val_ofNat] at isFirst
      omega
    · split at starts
      · have isFirst := congrArg Fin.val (List.cons.inj starts).1
        rw [Fin.val_ofNat] at isFirst
        omega
      · rw [if_neg (by omega), if_neg (by omega), if_neg (by omega)]
        rfl

/-- In a text, a byte that starts four bytes starts the encoding of a code point. -/
theorem exists_of_lead {codes : List Nat} {first : Fin 256} {before after : List (Fin 256)}
    (lead : 0xF0 ≤ first.val) (split : encodeAll codes = before ++ first :: after)
    : ∃ code ∈ codes, ∃ rest, first :: after = encode code ++ rest := by
  induction codes generalizing before with
  | nil => simp at split
  | cons code codes ih =>
      rw [encodeAll_cons] at split
      rcases List.append_eq_append_iff.mp split with ⟨more, isBefore, isRest⟩ | ⟨more, isCode, isRest⟩
      · obtain ⟨found, member, starts⟩ := ih isRest
        exact ⟨found, List.mem_cons_of_mem _ member, starts⟩
      · cases before with
        | nil =>
            refine ⟨code, List.mem_cons_self .., encodeAll codes, ?_⟩
            rw [isRest, isCode, List.nil_append]
        | cons byte before =>
            cases more with
            | nil =>
                have later : encodeAll codes = [] ++ first :: after := by simpa using isRest.symm
                obtain ⟨found, member, starts⟩ := ih later
                exact ⟨found, List.mem_cons_of_mem _ member, starts⟩
            | cons other more =>
                obtain ⟨rfl, -⟩ := List.cons.inj isRest
                have behind : first ∈ (encode code).tail := by
                  rw [isCode]
                  simp
                have low := low_of_mem_tail_encode behind
                omega

/-- Bytes behind the first one. -/
def IsTrail (byte : Fin 256) : Prop := 0x80 ≤ byte.val ∧ byte.val < 0xC0

instance (byte : Fin 256) : Decidable (IsTrail byte) := inferInstanceAs (Decidable (_ ∧ _))

/-- The byte behind the first one of three: neither too long an encoding nor a surrogate. -/
def IsSecondOfThree (first second : Fin 256) : Prop :=
  IsTrail second ∧ (first.val = 0xE0 → 0xA0 ≤ second.val) ∧ (first.val = 0xED → second.val < 0xA0)

instance (first second : Fin 256) : Decidable (IsSecondOfThree first second) :=
  inferInstanceAs (Decidable (_ ∧ _ ∧ _))

/-- The byte behind the first one of four: neither too long an encoding nor too large. -/
def IsSecondOfFour (first second : Fin 256) : Prop :=
  IsTrail second ∧ (first.val = 0xF0 → 0x90 ≤ second.val) ∧ (first.val = 0xF4 → second.val < 0x90)

instance (first second : Fin 256) : Decidable (IsSecondOfFour first second) :=
  inferInstanceAs (Decidable (_ ∧ _ ∧ _))

/-- Decoding behind the first byte of two. -/
def nextOfTwo (first : Fin 256) : List (Fin 256) → Option Nat × Nat
  | second :: _ =>
      if IsTrail second then
        (some ((first.val - 0xC0) * 64 + (second.val - 0x80)), 2)
      else
        (none, 1)
  | [] => (none, 1)

/-- Decoding behind the first byte of three. -/
def nextOfThree (first : Fin 256) : List (Fin 256) → Option Nat × Nat
  | second :: rest =>
      if IsSecondOfThree first second then
        match rest with
        | third :: _ =>
            if IsTrail third then
              (some ((first.val - 0xE0) * 4096 + (second.val - 0x80) * 64 + (third.val - 0x80)), 3)
            else
              (none, 2)
        | [] => (none, 2)
      else
        (none, 1)
  | [] => (none, 1)

/-- Decoding behind the first two bytes of four. -/
def nextOfFourRest (first second : Fin 256) : List (Fin 256) → Option Nat × Nat
  | third :: rest =>
      if IsTrail third then
        match rest with
        | fourth :: _ =>
            if IsTrail fourth then
              (some ((first.val - 0xF0) * 262144 + (second.val - 0x80) * 4096
                + (third.val - 0x80) * 64 + (fourth.val - 0x80)), 4)
            else
              (none, 3)
        | [] => (none, 3)
      else
        (none, 2)
  | [] => (none, 2)

/-- Decoding behind the first byte of four. -/
def nextOfFour (first : Fin 256) : List (Fin 256) → Option Nat × Nat
  | second :: rest =>
      if IsSecondOfFour first second then nextOfFourRest first second rest else (none, 1)
  | [] => (none, 1)

/-- The code point at the start of a byte string and its length, or nothing and the length of the
longest part that could have started an encoding.
-/
def next : List (Fin 256) → Option Nat × Nat
  | [] => (none, 0)
  | first :: rest =>
      if first.val < 0x80 then
        (some first.val, 1)
      else if first.val < 0xC2 then
        (none, 1)
      else if first.val < 0xE0 then
        nextOfTwo first rest
      else if first.val < 0xF0 then
        nextOfThree first rest
      else if first.val < 0xF5 then
        nextOfFour first rest
      else
        (none, 1)

theorem isTrail_ofNat (bits : Nat) (small : bits < 64)
    : IsTrail (Fin.ofNat 256 (0x80 + bits)) := by
  simp only [IsTrail, Fin.val_ofNat]
  omega

/-- Decoding what was encoded. -/
theorem next_encode_append (scalar : Scalar code) (rest : List (Fin 256))
    : next (encode code ++ rest) = (some code, (encode code).length) := by
  unfold Scalar at scalar
  have last := isTrail_ofNat (code % 64) (by omega)
  have middle := isTrail_ofNat (code / 64 % 64) (by omega)
  unfold encode
  split
  · simp only [next, List.singleton_append, Fin.val_ofNat, List.length_singleton]
    rw [if_pos (by omega)]
    simp only [Prod.mk.injEq, Option.some.injEq, and_true]
    omega
  · split
    · simp only [next, nextOfTwo, List.cons_append, List.nil_append, Fin.val_ofNat, if_pos last]
      rw [if_neg (by omega), if_neg (by omega), if_pos (by omega)]
      simp only [List.length_cons, List.length_nil, Prod.mk.injEq, Option.some.injEq, and_true]
      omega
    · split
      · have second : IsSecondOfThree (Fin.ofNat 256 (0xE0 + code / 4096))
            (Fin.ofNat 256 (0x80 + code / 64 % 64)) := by
          refine ⟨middle, ?_⟩
          simp only [Fin.val_ofNat]
          omega
        simp only [next, nextOfThree, List.cons_append, List.nil_append, Fin.val_ofNat,
          if_pos last, if_pos second]
        rw [if_neg (by omega), if_neg (by omega), if_neg (by omega), if_pos (by omega)]
        simp only [List.length_cons, List.length_nil, Prod.mk.injEq, Option.some.injEq, and_true]
        omega
      · have second : IsSecondOfFour (Fin.ofNat 256 (0xF0 + code / 262144))
            (Fin.ofNat 256 (0x80 + code / 4096 % 64)) := by
          refine ⟨isTrail_ofNat _ (by omega), ?_⟩
          simp only [Fin.val_ofNat]
          omega
        simp only [next, nextOfFour, nextOfFourRest, List.cons_append, List.nil_append,
          Fin.val_ofNat, if_pos last, if_pos middle, if_pos second]
        rw [if_neg (by omega), if_neg (by omega), if_neg (by omega), if_neg (by omega),
          if_pos (by omega)]
        simp only [List.length_cons, List.length_nil, Prod.mk.injEq, Option.some.injEq, and_true]
        omega

/-- Texts of scalar values differ when their encodings do, by induction on one of them. -/
theorem encodeAll_injective {left right : List Nat} (leftScalar : ∀ code ∈ left, Scalar code)
    (rightScalar : ∀ code ∈ right, Scalar code) (same : encodeAll left = encodeAll right)
    : left = right := by
  induction left generalizing right with
  | nil =>
      have none : (encodeAll right).length = 0 := by rw [← same]; rfl
      have shorter := length_le_encodeAll right
      exact (List.length_eq_zero_iff.mp (by omega)).symm
  | cons code left ih =>
      cases right with
      | nil =>
          rw [encodeAll_cons, encodeAll_nil, List.append_eq_nil_iff] at same
          exact absurd same.1 (encode_ne_nil code)
      | cons first right =>
          rw [List.forall_mem_cons] at leftScalar rightScalar
          rw [encodeAll_cons, encodeAll_cons] at same
          have read := congrArg next same
          rw [next_encode_append leftScalar.1, next_encode_append rightScalar.1] at read
          obtain rfl := Option.some.inj (congrArg Prod.fst read)
          rw [ih leftScalar.2 rightScalar.2 (List.append_cancel_left same)]

theorem encode_two_bytes {first second : Fin 256} (low : 0xC2 ≤ first.val)
    (high : first.val < 0xE0) (trail : IsTrail second)
    : Scalar ((first.val - 0xC0) * 64 + (second.val - 0x80))
      ∧ encode ((first.val - 0xC0) * 64 + (second.val - 0x80)) = [first, second] := by
  unfold IsTrail at trail
  refine ⟨by unfold Scalar; omega, ?_⟩
  unfold encode
  rw [if_neg (by omega), if_pos (by omega)]
  simp only [List.cons.injEq, Fin.ext_iff, Fin.val_ofNat, and_true]
  omega

theorem encode_three_bytes {first second third : Fin 256} (low : 0xE0 ≤ first.val)
    (high : first.val < 0xF0) (isSecond : IsSecondOfThree first second) (trail : IsTrail third)
    : Scalar ((first.val - 0xE0) * 4096 + (second.val - 0x80) * 64 + (third.val - 0x80))
      ∧ encode ((first.val - 0xE0) * 4096 + (second.val - 0x80) * 64 + (third.val - 0x80))
        = [first, second, third] := by
  unfold IsSecondOfThree IsTrail at isSecond
  unfold IsTrail at trail
  refine ⟨by unfold Scalar; omega, ?_⟩
  unfold encode
  rw [if_neg (by omega), if_neg (by omega), if_pos (by omega)]
  simp only [List.cons.injEq, Fin.ext_iff, Fin.val_ofNat, and_true]
  omega

theorem encode_four_bytes {first second third fourth : Fin 256} (low : 0xF0 ≤ first.val)
    (high : first.val < 0xF5) (isSecond : IsSecondOfFour first second)
    (thirdTrail : IsTrail third) (fourthTrail : IsTrail fourth)
    : Scalar ((first.val - 0xF0) * 262144 + (second.val - 0x80) * 4096
          + (third.val - 0x80) * 64 + (fourth.val - 0x80))
      ∧ encode ((first.val - 0xF0) * 262144 + (second.val - 0x80) * 4096
          + (third.val - 0x80) * 64 + (fourth.val - 0x80))
        = [first, second, third, fourth] := by
  unfold IsSecondOfFour IsTrail at isSecond
  unfold IsTrail at thirdTrail fourthTrail
  refine ⟨by unfold Scalar; omega, ?_⟩
  unfold encode
  rw [if_neg (by omega), if_neg (by omega), if_neg (by omega)]
  simp only [List.cons.injEq, Fin.ext_iff, Fin.val_ofNat, and_true]
  omega

/-- What decoding finds: a code point is only read from its encoding, and what is skipped has no
ASCII characters in it.
-/
def Found (bytes : List (Fin 256)) : Option Nat × Nat → Prop
  | (some code, length) =>
      Scalar code ∧ length = (encode code).length ∧ ∃ rest, bytes = encode code ++ rest
  | (none, length) => ∀ byte ∈ bytes.take length, 0x80 ≤ byte.val

theorem Found.ofEncode {bytes : List (Fin 256)} {length : Nat} {encoded rest : List (Fin 256)}
    (isCode : Scalar code ∧ encode code = encoded) (split : bytes = encoded ++ rest)
    (isLength : encoded.length = length)
    : Found bytes (some code, length) := by
  obtain ⟨scalar, rfl⟩ := isCode
  exact ⟨scalar, isLength.symm, rest, split⟩

theorem Found.skip (skipped : List (Fin 256)) (high : ∀ byte ∈ skipped, 0x80 ≤ byte.val)
    (rest : List (Fin 256))
    : Found (skipped ++ rest) (none, skipped.length) := by
  intro byte member
  rw [List.take_left'] at member
  · exact high byte member
  · rfl

theorem Found.skip_one {first : Fin 256} (high : 0x80 ≤ first.val) (rest : List (Fin 256))
    : Found (first :: rest) (none, 1) :=
  .skip [first] (by simpa using high) rest

theorem Found.skip_two {first second : Fin 256} (high : 0x80 ≤ first.val)
    (trail : IsTrail second) (rest : List (Fin 256))
    : Found (first :: second :: rest) (none, 2) :=
  .skip [first, second] (by simpa using ⟨high, trail.1⟩) rest

theorem Found.skip_three {first second third : Fin 256} (high : 0x80 ≤ first.val)
    (trail : IsTrail second) (nextTrail : IsTrail third) (rest : List (Fin 256))
    : Found (first :: second :: third :: rest) (none, 3) :=
  .skip [first, second, third] (by simpa using ⟨high, trail.1, nextTrail.1⟩) rest

theorem nextOfTwo_found {first : Fin 256} (low : 0xC2 ≤ first.val) (high : first.val < 0xE0)
    (rest : List (Fin 256))
    : Found (first :: rest) (nextOfTwo first rest) := by
  unfold nextOfTwo
  split
  next second rest =>
    split
    next trail => exact .ofEncode (encode_two_bytes low high trail) rfl rfl
    next => exact .skip_one (by omega) _
  next => exact .skip_one (by omega) _

theorem nextOfThree_found {first : Fin 256} (low : 0xE0 ≤ first.val) (high : first.val < 0xF0)
    (rest : List (Fin 256))
    : Found (first :: rest) (nextOfThree first rest) := by
  unfold nextOfThree
  split
  next second rest =>
    split
    next isSecond =>
      split
      next third rest =>
        split
        next trail => exact .ofEncode (encode_three_bytes low high isSecond trail) rfl rfl
        next => exact .skip_two (by omega) isSecond.1 _
      next => exact .skip_two (by omega) isSecond.1 _
    next => exact .skip_one (by omega) _
  next => exact .skip_one (by omega) _

theorem nextOfFour_found {first : Fin 256} (low : 0xF0 ≤ first.val) (high : first.val < 0xF5)
    (rest : List (Fin 256))
    : Found (first :: rest) (nextOfFour first rest) := by
  unfold nextOfFour
  split
  next second rest =>
    split
    next isSecond =>
      unfold nextOfFourRest
      split
      next third rest =>
        split
        next trail =>
          split
          next fourth rest =>
            split
            next last => exact .ofEncode (encode_four_bytes low high isSecond trail last) rfl rfl
            next => exact .skip_three (by omega) isSecond.1 trail _
          next => exact .skip_three (by omega) isSecond.1 trail _
        next => exact .skip_two (by omega) isSecond.1 _
      next => exact .skip_two (by omega) isSecond.1 _
    next => exact .skip_one (by omega) _
  next => exact .skip_one (by omega) _

theorem next_found (bytes : List (Fin 256)) : Found bytes (next bytes) := by
  cases bytes with
  | nil => simp [next, Found]
  | cons first rest =>
      rw [next]
      split
      next ascii =>
        have isFirst : Fin.ofNat 256 first.val = first := by simp
        exact .ofEncode ⟨.inl (by omega), (encode_ascii ascii).trans (by rw [isFirst])⟩ rfl rfl
      next =>
        split
        next => exact .skip_one (by omega) rest
        next =>
          split
          next two => exact nextOfTwo_found (by omega) two rest
          next =>
            split
            next three => exact nextOfThree_found (by omega) three rest
            next =>
              split
              next four => exact nextOfFour_found (by omega) four rest
              next => exact .skip_one (by omega) rest

/-- Decoding advances, within the bytes. -/
theorem next_advances {bytes : List (Fin 256)} (notEmpty : bytes ≠ [])
    : 0 < (next bytes).2 ∧ (next bytes).2 ≤ bytes.length := by
  match bytes with
  | [] => exact absurd rfl notEmpty
  | [first] =>
      simp only [next, nextOfTwo, nextOfThree, nextOfFour, apply_ite Prod.snd, List.length_cons]
      grind
  | [first, second] =>
      simp only [next, nextOfTwo, nextOfThree, nextOfFour, nextOfFourRest, List.length_cons]
      grind
  | [first, second, third] =>
      simp only [next, nextOfTwo, nextOfThree, nextOfFour, nextOfFourRest, List.length_cons]
      grind
  | first :: second :: third :: fourth :: rest =>
      simp only [next, nextOfTwo, nextOfThree, nextOfFour, nextOfFourRest, List.length_cons]
      grind

theorem not_isTrail_zero : ¬ IsTrail 0 := by
  simp [IsTrail]

/-- A zero byte ends every encoding. -/
theorem next_until_zero (before after : List (Fin 256))
    : next (before ++ 0 :: after) = next (before ++ [0]) := by
  match before with
  | [] => rfl
  | [first] =>
      simp [next, nextOfTwo, nextOfThree, nextOfFour, IsSecondOfThree, IsSecondOfFour,
        not_isTrail_zero]
  | [first, second] =>
      simp [next, nextOfTwo, nextOfThree, nextOfFour, nextOfFourRest, not_isTrail_zero]
  | [first, second, third] =>
      simp [next, nextOfTwo, nextOfThree, nextOfFour, nextOfFourRest, not_isTrail_zero]
  | first :: second :: third :: fourth :: rest => rfl

end Utf8
