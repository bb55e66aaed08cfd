import Glean.RTS.Fact

/-! Reading untrusted input (`binary.h`, `string.cpp`). An operation may also read outside the
input, which is undefined.
-/

namespace Glean.RTS

universe u

/-- The result of an operation that may throw an error or run into undefined behaviour. -/
inductive Outcome (α : Type u) where
  | ok (result : α)
  | error (message : String)
  | undefined
  deriving DecidableEq

namespace Outcome

variable {α β : Type u}

def bind (outcome : Outcome α) (next : α → Outcome β) : Outcome β :=
  match outcome with
  | .ok result => next result
  | .error message => .error message
  | .undefined => .undefined

instance : Monad Outcome where
  pure := .ok
  bind := .bind

@[simp]
theorem pure_eq (result : α) : (pure result : Outcome α) = .ok result := rfl

@[simp]
theorem ok_bind (result : α) (next : α → Outcome β) : (Outcome.ok result >>= next) = next result :=
  rfl

@[simp]
theorem error_bind (message : String) (next : α → Outcome β)
    : (Outcome.error message >>= next) = .error message :=
  rfl

@[simp]
theorem undefined_bind (next : α → Outcome β)
    : (Outcome.undefined >>= next) = (.undefined : Outcome β) :=
  rfl

@[simp]
theorem bind_ok (outcome : Outcome α) : (outcome >>= fun result => .ok result) = outcome := by
  cases outcome <;> rfl

theorem bind_assoc {γ : Type u} (outcome : Outcome α) (next : α → Outcome β) (last : β → Outcome γ)
    : (outcome >>= next) >>= last = outcome >>= fun result => next result >>= last := by
  cases outcome <;> rfl

theorem bind_eq_ok {outcome : Outcome α} {next : α → Outcome β} {result : β}
    : (outcome >>= next) = .ok result ↔ ∃ middle, outcome = .ok middle ∧ next middle = .ok result := by
  cases outcome <;> simp

instance : LawfulMonad Outcome :=
  LawfulMonad.mk' Outcome bind_ok (fun _ _ => rfl) bind_assoc

end Outcome

/-- The variable-length numbers of `folly/Varint.h`: `tryDecodeVarint` gives the number at the
start of a byte range and what follows it.
-/
structure Varint where
  tryDecodeVarint : Bytes → Option (Nat × Bytes)
  encodeVarint : Nat → Bytes
  /-- Decoding reads a nonempty prefix, and nothing after it. -/
  decode_prefix
    : ∀ {input number rest}, tryDecodeVarint input = some (number, rest) →
        number < 2 ^ 64 ∧ ∃ bytes, bytes ≠ [] ∧ input = bytes ++ rest
          ∧ ∀ other, tryDecodeVarint (bytes ++ other) = some (number, other)
  decode_encode
    : ∀ {number} rest, number < 2 ^ 64 →
        tryDecodeVarint (encodeVarint number ++ rest) = some (number, rest)

/-- `U8_NEXT` of ICU on the bytes from the current position: the code point, or nothing for
ill-formed input, and the number of bytes it advances.
-/
structure U8Next where
  next : Bytes → Option Nat × Nat
  advances : ∀ {bytes}, bytes ≠ [] → 0 < (next bytes).2 ∧ (next bytes).2 ≤ bytes.length
  /-- A zero byte ends every sequence, so what follows it does not matter. -/
  until_zero : ∀ before after, next (before ++ 0 :: after) = next (before ++ [0])

namespace Input

/-- `Input::packed` -/
def packed (varint : Varint) (input : Bytes) : Outcome (Nat × Bytes) :=
  match varint.tryDecodeVarint input with
  | some result => .ok result
  | none => .error "invalid packed value"

/-- `Input::bytes`: skip a number of bytes. -/
def bytes (input : Bytes) (size : Nat) : Outcome Bytes :=
  if input.length < size then
    .error ("truncated input: expected " ++ toString size ++ " bytes, got "
      ++ toString input.length)
  else
    .ok (input.drop size)

/-- The value of `U8_NEXT` in a variable of type `UChar`, an unsigned 16 bit integer. -/
def toUChar : Option Nat → Nat
  | some codePoint => codePoint % 2 ^ 16
  | none => 2 ^ 16 - 1

/-- The loop of `untrustedChunks`. An unsigned number is not negative, so the loop never throws
`invalid UTF-8 string`. At the end of the range it reads on.
-/
def chunks (u8 : U8Next) (range : Bytes) (position : Nat) : Nat → Outcome Nat
  | 0 => .undefined
  | fuel + 1 =>
      if range.length ≤ position then
        .undefined
      else
        let (codePoint, advance) := u8.next (range.drop position)
        let next := position + advance
        if toUChar codePoint = 0 then
          match range[next]? with
          | some 0 => .ok (next + 1)
          | some 1 => chunks u8 range (next + 1) fuel
          | some _ => .error "invalid NUL in mangled string"
          | none => .error "truncated terminator in mangled string"
        else
          chunks u8 range next fuel

/-- `validateUntrustedString`: the length of a mangled string at the start of the range. Every
round of the loop advances, so the length of the range is enough fuel.
-/
def validateUntrustedString (u8 : U8Next) (range : Bytes) : Outcome Nat :=
  let ascii := (range.takeWhile (fun byte => 0 < byte ∧ byte < 0x80)).length
  if range[ascii]? = some 0 ∧ range[ascii + 1]? = some 0 then
    .ok (ascii + 2)
  else
    chunks u8 range ascii (range.length + 1)

/-- `Input::skipUntrustedString` -/
def skipUntrustedString (u8 : U8Next) (input : Bytes) : Outcome Bytes := do
  let size ← validateUntrustedString u8 input
  return input.drop size

/-- A string that is accepted lies within the range. -/
theorem le_of_chunks_eq_ok {u8 : U8Next} {range : Bytes} {fuel position size : Nat}
    (accepted : chunks u8 range position fuel = .ok size)
    : size ≤ range.length := by
  induction fuel generalizing position with
  | zero => cases accepted
  | succ fuel ih =>
      rw [chunks] at accepted
      split at accepted
      next => cases accepted
      next =>
        dsimp only at accepted
        split at accepted
        next =>
          split at accepted
          next isTerminator =>
            cases accepted
            have bound := (List.getElem?_eq_some_iff.mp isTerminator).1
            omega
          next => exact ih accepted
          next => cases accepted
          next => cases accepted
        next => exact ih accepted

theorem le_of_validateUntrustedString_eq_ok {u8 : U8Next} {range : Bytes} {size : Nat}
    (accepted : validateUntrustedString u8 range = .ok size)
    : size ≤ range.length := by
  rw [validateUntrustedString] at accepted
  split at accepted
  next terminated =>
    cases accepted
    have bound := (List.getElem?_eq_some_iff.mp terminated.2).1
    omega
  next => exact le_of_chunks_eq_ok accepted

section Append

variable {u8 : U8Next} {mangled rest other : Bytes}

theorem chunks_succ (u8 : U8Next) (range : Bytes) (position fuel : Nat)
    : chunks u8 range position (fuel + 1)
      = if range.length ≤ position then
          .undefined
        else if toUChar (u8.next (range.drop position)).1 = 0 then
          match range[position + (u8.next (range.drop position)).2]? with
          | some 0 => .ok (position + (u8.next (range.drop position)).2 + 1)
          | some 1 => chunks u8 range (position + (u8.next (range.drop position)).2 + 1) fuel
          | some _ => .error "invalid NUL in mangled string"
          | none => .error "truncated terminator in mangled string"
        else
          chunks u8 range (position + (u8.next (range.drop position)).2) fuel :=
  rfl

/-- An accepted string ends with a zero byte, behind another character. -/
theorem chunks_ends {range : Bytes} {fuel position size : Nat}
    (accepted : chunks u8 range position fuel = .ok size)
    : position + 2 ≤ size ∧ range[size - 1]? = some 0 := by
  induction fuel generalizing position with
  | zero => cases accepted
  | succ fuel ih =>
      rw [chunks_succ] at accepted
      split at accepted
      next => cases accepted
      next inside =>
        have advances := (u8.advances (List.drop_eq_nil_iff.not.mpr inside)).1
        split at accepted
        next =>
          split at accepted
          next isTerminator =>
            cases accepted
            exact ⟨by omega, isTerminator⟩
          next =>
            have later := ih accepted
            exact ⟨by omega, later.2⟩
          next => cases accepted
          next => cases accepted
        next =>
          have later := ih accepted
          exact ⟨by omega, later.2⟩

/-- The next character of a string that ends with a zero byte. -/
theorem next_drop_append (u8 : U8Next) {before : Bytes} {position : Nat} (inside : position ≤ before.length)
    (rest other : Bytes)
    : u8.next ((before ++ [0] ++ rest).drop position)
      = u8.next ((before ++ [0] ++ other).drop position) := by
  simp only [List.append_assoc, List.singleton_append]
  rw [List.drop_append_of_le_length inside, List.drop_append_of_le_length inside,
    u8.until_zero _ rest, u8.until_zero _ other]

theorem chunks_append {before : Bytes} {fuel position : Nat}
    (accepted : chunks u8 (before ++ [0] ++ rest) position fuel = .ok (before ++ [0]).length)
    (other : Bytes) {more : Nat} (enough : (before ++ [0]).length < position + more)
    : chunks u8 (before ++ [0] ++ other) position more = .ok (before ++ [0]).length := by
  induction fuel generalizing position more with
  | zero => cases accepted
  | succ fuel ih =>
      have bound := (chunks_ends accepted).1
      have size : (before ++ [0]).length = before.length + 1 := by simp
      cases more with
      | zero => omega
      | succ more =>
          have sameNext := next_drop_append u8 (show position ≤ before.length by omega) rest other
          have sameByte (index : Nat) (small : index < (before ++ [0]).length)
              : (before ++ [0] ++ rest)[index]? = (before ++ [0] ++ other)[index]? := by
            rw [List.getElem?_append_left small, List.getElem?_append_left small]
          rw [chunks_succ] at accepted ⊢
          rw [sameNext] at accepted
          rw [if_neg (by rw [List.length_append]; omega)] at accepted ⊢
          have advances := (u8.advances (List.drop_eq_nil_iff.not.mpr
            (show ¬ (before ++ [0] ++ other).length ≤ position by
              rw [List.length_append]; omega))).1
          split at accepted
          next isZero =>
            rw [if_pos isZero]
            split at accepted
            next isTerminator =>
              have isSize := Outcome.ok.inj accepted
              rw [sameByte _ (by omega)] at isTerminator
              simp only [isTerminator, isSize]
            next isEscape =>
              have later := (chunks_ends accepted).1
              rw [sameByte _ (by omega)] at isEscape
              simp only [isEscape]
              exact ih accepted (by omega)
            next => cases accepted
            next => cases accepted
          next notZero =>
            rw [if_neg notZero]
            exact ih accepted (by omega)

theorem length_takeWhile_append {α : Type} {property : α → Bool} {list : List α} (rest other : List α)
    (inside : ((list ++ rest).takeWhile property).length < list.length)
    : ((list ++ other).takeWhile property).length
      = ((list ++ rest).takeWhile property).length := by
  rw [List.takeWhile_append] at inside ⊢
  rw [List.takeWhile_append]
  split at inside
  next =>
    rw [List.length_append] at inside
    omega
  next notAll => rw [if_neg notAll, if_neg notAll]

/-- Whether a string is accepted does not depend on what follows it. -/
theorem validateUntrustedString_append
    (accepted : validateUntrustedString u8 (mangled ++ rest) = .ok mangled.length) (other : Bytes)
    : validateUntrustedString u8 (mangled ++ other) = .ok mangled.length := by
  have sameByte (index : Nat) (small : index < mangled.length)
      : (mangled ++ other)[index]? = (mangled ++ rest)[index]? := by
    rw [List.getElem?_append_left small, List.getElem?_append_left small]
  rw [validateUntrustedString] at accepted ⊢
  split at accepted
  next terminated =>
    have isSize := Outcome.ok.inj accepted
    rw [length_takeWhile_append rest other (by omega), sameByte _ (by omega),
      sameByte _ (by omega), if_pos terminated]
    exact accepted
  next notTerminated =>
    obtain ⟨bound, isZero⟩ := chunks_ends accepted
    have inside : ((mangled ++ rest).takeWhile
        (fun byte => decide (0 < byte ∧ byte < 0x80))).length < mangled.length := by omega
    rw [length_takeWhile_append rest other inside, sameByte _ (by omega), sameByte _ (by omega),
      if_neg notTerminated]
    have notEmpty : mangled ≠ [] := by
      rintro rfl
      simp at bound
    obtain ⟨before, last, rfl⟩ := (List.eq_nil_or_concat' mangled).resolve_left notEmpty
    have isLast : last = 0 := by
      rw [List.getElem?_append_left (by simp)] at isZero
      simpa using isZero
    subst isLast
    have longer : (before ++ [0]).length ≤ (before ++ [0] ++ other).length :=
      (List.prefix_append _ _).length_le
    exact chunks_append accepted other (by omega)

end Append

end Input

end Glean.RTS
