import Mathlib.Algebra.GroupWithZero.Nat
import Mathlib.Order.Lattice

/-! Bytes are the numbers below 256. Numerals for them are found by this instance. -/

instance Byte.neZero : NeZero 256 := ⟨by decide⟩
