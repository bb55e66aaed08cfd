import Glean.Library.Utf8

/-! String literals of JSON: the characters between the quotes, and the text that they denote.
Characters and texts are lists of code points.
-/

namespace JsonString

/-- The character that a backslash and a letter denote. -/
def letterEscape (letter : Nat) : Option Nat :=
  [(0x22, 0x22), (0x5C, 0x5C), (0x2F, 0x2F), (0x62, 8), (0x66, 12), (0x6E, 10), (0x72, 13),
    (0x74, 9)].lookup letter

def hexDigit (digit : Nat) : Option Nat :=
  if 0x30 ≤ digit ∧ digit ≤ 0x39 then some (digit - 0x30)
  else if 0x61 ≤ digit ∧ digit ≤ 0x66 then some (digit - 0x61 + 10)
  else if 0x41 ≤ digit ∧ digit ≤ 0x46 then some (digit - 0x41 + 10)
  else none

/-- The number that hexadecimal digits denote. -/
def hexNumber (digits : List Nat) : Option Nat :=
  digits.foldlM (fun number digit => (hexDigit digit).map (16 * number + ·)) 0

/-- The characters of a literal denote a text. Characters outside the first plane are written
as two escapes of four digits, and neither half stands alone.
-/
inductive Denotes : List Nat → List Nat → Prop
  | nil : Denotes [] []
  | plain {code literal text} (notControl : 0x20 ≤ code) (notQuote : code ≠ 0x22)
      (notBackslash : code ≠ 0x5C) (rest : Denotes literal text)
      : Denotes (code :: literal) (code :: text)
  | letter {letter code literal text} (isEscape : letterEscape letter = some code)
      (rest : Denotes literal text)
      : Denotes (0x5C :: letter :: literal) (code :: text)
  | hex {digits code literal text} (four : digits.length = 4)
      (isNumber : hexNumber digits = some code) (scalar : Utf8.Scalar code)
      (rest : Denotes literal text)
      : Denotes (0x5C :: 0x75 :: (digits ++ literal)) (code :: text)
  | pair {digits more high low literal text} (four : digits.length = 4)
      (fourMore : more.length = 4) (isHigh : hexNumber digits = some (0xD800 + high))
      (highSmall : high < 0x400) (isLow : hexNumber more = some (0xDC00 + low))
      (lowSmall : low < 0x400)
      (rest : Denotes literal text)
      : Denotes (0x5C :: 0x75 :: (digits ++ 0x5C :: 0x75 :: (more ++ literal)))
          ((0x10000 + 0x400 * high + low) :: text)

theorem not_scalar_high {high : Nat} (small : high < 0x400) : ¬ Utf8.Scalar (0xD800 + high) := by
  unfold Utf8.Scalar
  omega

/-- A literal denotes at most one text, by induction on how it denotes one. -/
theorem Denotes.unique {literal text other : List Nat} (denotes : Denotes literal text)
    (denotesOther : Denotes literal other)
    : text = other := by
  induction denotes generalizing other with
  | nil =>
      cases denotesOther
      rfl
  | plain notControl notQuote notBackslash rest ih =>
      cases denotesOther with
      | plain _ _ _ otherRest => rw [ih otherRest]
      | letter _ _ => exact absurd rfl notBackslash
      | hex _ _ _ _ => exact absurd rfl notBackslash
      | pair _ _ _ _ _ _ _ => exact absurd rfl notBackslash
  | letter isEscape rest ih =>
      cases denotesOther with
      | plain _ _ notBackslash _ => exact absurd rfl notBackslash
      | letter otherEscape otherRest =>
          have same := Option.some.inj (isEscape.symm.trans otherEscape)
          rw [ih otherRest, same]
      | hex _ _ _ _ => cases isEscape
      | pair _ _ _ _ _ _ _ => cases isEscape
  | @hex digits code literal text four isNumber scalar rest ih =>
      generalize shape : digits ++ literal = body at denotesOther
      cases denotesOther with
      | plain _ _ notBackslash _ => exact absurd rfl notBackslash
      | letter isEscape _ => cases isEscape
      | hex otherFour otherNumber _ otherRest =>
          obtain ⟨rfl, rfl⟩ := List.append_inj shape (four.trans otherFour.symm)
          have same := Option.some.inj (isNumber.symm.trans otherNumber)
          rw [ih otherRest, same]
      | pair otherFour _ isHigh highSmall _ _ _ =>
          obtain ⟨rfl, -⟩ := List.append_inj shape (four.trans otherFour.symm)
          have same := Option.some.inj (isNumber.symm.trans isHigh)
          exact absurd (same ▸ scalar) (not_scalar_high highSmall)
  | @pair digits more high low literal text four fourMore isHigh highSmall isLow lowSmall rest
      ih =>
      generalize shape : digits ++ 0x5C :: 0x75 :: (more ++ literal) = body at denotesOther
      cases denotesOther with
      | plain _ _ notBackslash _ => exact absurd rfl notBackslash
      | letter isEscape _ => cases isEscape
      | hex otherFour otherNumber scalar _ =>
          obtain ⟨rfl, -⟩ := List.append_inj shape (four.trans otherFour.symm)
          have same := Option.some.inj (isHigh.symm.trans otherNumber)
          exact absurd (same ▸ scalar) (not_scalar_high highSmall)
      | pair otherFour otherFourMore otherHigh _ otherLow _ otherRest =>
          obtain ⟨rfl, tails⟩ := List.append_inj shape (four.trans otherFour.symm)
          obtain ⟨rfl, rfl⟩ := List.append_inj (List.cons.inj (List.cons.inj tails).2).2
            (fourMore.trans otherFourMore.symm)
          have sameHigh := Option.some.inj (isHigh.symm.trans otherHigh)
          have sameLow := Option.some.inj (isLow.symm.trans otherLow)
          rw [ih otherRest, Nat.add_left_cancel sameHigh, Nat.add_left_cancel sameLow]

/-- Bytes are, in UTF-8, the characters of a literal that denotes a text. -/
def BytesDenote (bytes : List (Fin 256)) (text : List Nat) : Prop :=
  ∃ literal, (∀ code ∈ literal, Utf8.Scalar code) ∧ bytes = Utf8.encodeAll literal
    ∧ Denotes literal text

theorem BytesDenote.unique {bytes : List (Fin 256)} {text other : List Nat}
    (denote : BytesDenote bytes text) (denoteOther : BytesDenote bytes other)
    : text = other := by
  obtain ⟨literal, scalar, rfl, denotes⟩ := denote
  obtain ⟨otherLiteral, otherScalar, same, denotesOther⟩ := denoteOther
  rw [← Utf8.encodeAll_injective scalar otherScalar same] at denotesOther
  exact denotes.unique denotesOther

end JsonString
