import Glean.RTS.Input

/-! The variable-length numbers of `folly/Varint.h`, of at most ten bytes: seven bits in each, the
lowest first, and a mark on all but the last.
-/

namespace Glean.RTS.Varint

/-- `tryDecodeVarint` with a bound on the number of bytes. Only the lowest bit of a tenth byte is
used.
-/
def decodeBytes : Nat → Bytes → Option (Nat × Bytes)
  | 0, _ => none
  | _ + 1, [] => none
  | bytes + 1, byte :: rest =>
      if byte.val < 128 then
        some (if bytes = 0 then byte.val % 2 else byte.val, rest)
      else
        match decodeBytes bytes rest with
        | some (number, after) => some (byte.val % 128 + 128 * number, after)
        | none => none

/-- `encodeVarint` -/
def encodeBytes : Nat → Nat → Bytes
  | 0, _ => []
  | bytes + 1, number =>
      if number < 128 then
        [Fin.ofNat 256 number]
      else
        Fin.ofNat 256 (number % 128 + 128) :: encodeBytes bytes (number / 128)

theorem decodeBytes_prefix {bytes number : Nat} {input rest : Bytes}
    (decoded : decodeBytes (bytes + 1) input = some (number, rest))
    : number < 2 * 128 ^ bytes ∧ ∃ read, read ≠ [] ∧ input = read ++ rest
        ∧ ∀ other, decodeBytes (bytes + 1) (read ++ other) = some (number, other) := by
  induction bytes generalizing number input rest with
  | zero =>
      cases input with
      | nil => cases decoded
      | cons byte input =>
          rw [decodeBytes] at decoded
          split at decoded
          next isLast =>
            cases decoded
            refine ⟨?_, [byte], by simp, rfl, fun other => by simp [decodeBytes, isLast]⟩
            rw [if_pos rfl]
            omega
          next => cases decoded
  | succ bytes ih =>
      cases input with
      | nil => cases decoded
      | cons byte input =>
          have positive : 0 < 128 ^ bytes := Nat.pow_pos (by omega)
          rw [decodeBytes] at decoded
          split at decoded
          next isLast =>
            cases decoded
            refine ⟨?_, [byte], by simp, rfl, fun other => by simp [decodeBytes, isLast]⟩
            rw [if_neg (by omega), Nat.pow_succ]
            omega
          next notLast =>
            split at decoded
            next higher after isHigher =>
              cases decoded
              obtain ⟨small, read, -, rfl, anyRest⟩ := ih isHigher
              refine ⟨?_, byte :: read, by simp, rfl, fun other => ?_⟩
              · rw [Nat.pow_succ]
                omega
              · rw [List.cons_append, decodeBytes, if_neg notLast, anyRest]
            next => cases decoded

theorem decodeBytes_encodeBytes {bytes number : Nat} (small : number < 2 * 128 ^ bytes)
    (rest : Bytes)
    : decodeBytes (bytes + 1) (encodeBytes (bytes + 1) number ++ rest) = some (number, rest) := by
  induction bytes generalizing number with
  | zero =>
      rw [encodeBytes, if_pos (by omega)]
      have isByte : (Fin.ofNat 256 number).val = number := Nat.mod_eq_of_lt (by omega)
      rw [List.singleton_append, decodeBytes, isByte, if_pos (by omega), if_pos rfl]
      congr 2
      omega
  | succ bytes ih =>
      rw [encodeBytes]
      split
      next isLast =>
        have isByte : (Fin.ofNat 256 number).val = number := Nat.mod_eq_of_lt (by omega)
        rw [List.singleton_append, decodeBytes, isByte, if_pos isLast, if_neg (by omega)]
      next notLast =>
        have isByte : (Fin.ofNat 256 (number % 128 + 128)).val = number % 128 + 128 :=
          Nat.mod_eq_of_lt (by omega)
        have smaller : number / 128 < 2 * 128 ^ bytes := by
          rw [Nat.pow_succ] at small
          omega
        have higher := ih smaller
        rw [List.cons_append, decodeBytes, isByte, if_neg (by omega), higher]
        simp only [Option.some.injEq, Prod.mk.injEq, and_true]
        omega

/-- The numbers of `folly`. -/
def folly : Varint where
  tryDecodeVarint := decodeBytes 10
  encodeVarint := encodeBytes 10
  decode_prefix := by
    intro input number rest decoded
    obtain ⟨small, read⟩ := decodeBytes_prefix decoded
    exact ⟨by omega, read⟩
  decode_encode := fun rest small => decodeBytes_encodeBytes (by omega) rest

end Glean.RTS.Varint
