import Mathlib.Data.Fin.Basic
import Mathlib.Data.List.Lex
import Mathlib.Order.Fin.Basic
import Glean.Library.Byte

/-! Numbers as byte strings of a fixed width, with the highest byte first or last. With the highest
first, byte strings of one width are ordered as their numbers are.
-/

namespace Endian

/-- The lowest bytes of a number, the highest of them first. -/
def big : Nat → Nat → List (Fin 256)
  | 0, _ => []
  | width + 1, number => Fin.ofNat 256 (number / 256 ^ width) :: big width number

/-- The number of a byte string with the highest byte first. -/
def ofBig : List (Fin 256) → Nat
  | [] => 0
  | byte :: bytes => byte.val * 256 ^ bytes.length + ofBig bytes

/-- The lowest bytes of a number, the lowest of them first. -/
def little (width number : Nat) : List (Fin 256) :=
  (big width number).reverse

/-- The number of a byte string with the lowest byte first. -/
def ofLittle (bytes : List (Fin 256)) : Nat :=
  ofBig bytes.reverse

/-- The number with its bytes the other way round. -/
def swap (width number : Nat) : Nat :=
  ofLittle (big width number)

@[simp]
theorem big_length (width number : Nat) : (big width number).length = width := by
  induction width with
  | zero => rfl
  | succ width ih => rw [big, List.length_cons, ih]

theorem ofBig_lt (bytes : List (Fin 256)) : ofBig bytes < 256 ^ bytes.length := by
  induction bytes with
  | nil => decide
  | cons byte bytes ih =>
      have bound := byte.isLt
      have atMost : byte.val * 256 ^ bytes.length ≤ 255 * 256 ^ bytes.length :=
        Nat.mul_le_mul_right _ (by omega)
      rw [ofBig, List.length_cons, Nat.pow_succ]
      omega

/-- Reading what was written gives the number, cut to the width. -/
theorem ofBig_big (width number : Nat) : ofBig (big width number) = number % 256 ^ width := by
  induction width with
  | zero => rw [big, ofBig, Nat.pow_zero, Nat.mod_one]
  | succ width ih =>
      rw [big, ofBig, ih, big_length, Nat.pow_succ, Nat.mod_mul, Fin.val_ofNat, Nat.mul_comm]
      exact Nat.add_comm _ _

/-- Bytes above the width do not matter. -/
theorem big_mod (width number : Nat) : big width (number % 256 ^ width) = big width number := by
  induction width generalizing number with
  | zero => rfl
  | succ width ih =>
      rw [big, big, ← ih (number % 256 ^ (width + 1)), ← ih number,
        Nat.mod_mod_of_dvd _ (Nat.pow_dvd_pow 256 (Nat.le_succ width))]
      congr 1
      refine Fin.ext ?_
      rw [Fin.val_ofNat, Fin.val_ofNat, Nat.pow_succ, Nat.mod_mul_right_div_self, Nat.mod_mod]

theorem big_append (high low number : Nat)
    : big (high + low) number = big high (number / 256 ^ low) ++ big low number := by
  induction high with
  | zero => rw [Nat.zero_add, big, List.nil_append]
  | succ high ih =>
      rw [Nat.succ_add, big, big, ih, Nat.div_div_eq_div_mul, ← Nat.pow_add, Nat.add_comm low high,
        List.cons_append]

/-- Writing what was read gives the bytes back. -/
theorem big_ofBig (bytes : List (Fin 256)) : big bytes.length (ofBig bytes) = bytes := by
  induction bytes with
  | nil => rfl
  | cons byte bytes ih =>
      have small := ofBig_lt bytes
      have positive : 0 < 256 ^ bytes.length := Nat.pow_pos (by omega)
      have first : (byte.val * 256 ^ bytes.length + ofBig bytes) / 256 ^ bytes.length
          = byte.val := by
        rw [Nat.mul_comm, Nat.mul_add_div positive, Nat.div_eq_of_lt small, Nat.add_zero]
      have others : (byte.val * 256 ^ bytes.length + ofBig bytes) % 256 ^ bytes.length
          = ofBig bytes := by
        rw [Nat.mul_comm, Nat.mul_add_mod, Nat.mod_eq_of_lt small]
      rw [List.length_cons, big, ofBig, first, ← big_mod, others, ih]
      congr 1
      exact Fin.ext (Nat.mod_eq_of_lt byte.isLt)

/-- Byte strings of one width are ordered as their numbers. -/
theorem lt_of_ofBig_lt {left right : List (Fin 256)} (sameWidth : left.length = right.length)
    (less : ofBig left < ofBig right)
    : left < right := by
  induction left generalizing right with
  | nil =>
      obtain rfl := List.length_eq_zero_iff.mp sameWidth.symm
      exact absurd less (Nat.lt_irrefl _)
  | cons leftByte left ih =>
      cases right with
      | nil => cases sameWidth
      | cons rightByte right =>
          have sameWidth : left.length = right.length := by simpa using sameWidth
          have rightSmall := ofBig_lt right
          rw [ofBig, ofBig, sameWidth] at less
          rw [List.cons_lt_cons_iff]
          rcases Nat.lt_trichotomy leftByte.val rightByte.val with lower | same | higher
          · exact .inl lower
          · rw [same] at less
            exact .inr ⟨Fin.ext same, ih sameWidth (by omega)⟩
          · have next : (rightByte.val + 1) * 256 ^ right.length
                ≤ leftByte.val * 256 ^ right.length :=
              Nat.mul_le_mul_right _ higher
            rw [Nat.add_mul, Nat.one_mul] at next
            omega

theorem big_lt_big {width left right : Nat} (small : right < 256 ^ width) (less : left < right)
    : big width left < big width right := by
  refine lt_of_ofBig_lt (by rw [big_length, big_length]) ?_
  rw [ofBig_big, ofBig_big, Nat.mod_eq_of_lt small, Nat.mod_eq_of_lt (less.trans small)]
  exact less

/-- A number is written with the highest byte first by writing the swapped number with the lowest
byte first.
-/
theorem little_swap (width number : Nat) : little width (swap width number) = big width number := by
  have written := big_ofBig (big width number).reverse
  rw [List.length_reverse, big_length] at written
  rw [little, swap, ofLittle, written, List.reverse_reverse]

/-- Swapping twice gives the number back, cut to the width. -/
theorem swap_swap (width number : Nat) : swap width (swap width number) = number % 256 ^ width := by
  have written := little_swap width number
  rw [little] at written
  have read := congrArg List.reverse written
  rw [List.reverse_reverse] at read
  rw [← ofBig_big, swap, ofLittle, read, List.reverse_reverse]

theorem swap_one (number : Nat) : swap 1 number = number % 256 := by
  simp [swap, ofLittle, big, ofBig]

end Endian
