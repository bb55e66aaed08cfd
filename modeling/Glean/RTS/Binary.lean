import Glean.RTS.Fact

/-! Byte strings as search keys (`binary.cpp`): the exclusive upper bound of a prefix scan. -/

namespace Glean.RTS

/-- The first byte string, in lexicographic order, after all those that start with `range`.
Trailing `0xFF` bytes are dropped and the last remaining byte is incremented; nothing remains
of a string of `0xFF` bytes.
-/
def lexicographicallyNext (range : Bytes) : Bytes :=
  let bytes := (range.reverse.dropWhile (fun byte => byte = 255)).reverse
  match bytes.getLast? with
  | none => []
  | some last => bytes.dropLast ++ [last + 1]

/-- A byte string that starts with the first `prefixSize` bytes of `start` and does not lie
before `start`: what a prefix seek looks for.
-/
def Bytes.Matches (start : Bytes) (prefixSize : Nat) (key : Bytes) : Prop :=
  start.take prefixSize <+: key ∧ start ≤ key

instance (start : Bytes) (prefixSize : Nat) (key : Bytes)
    : Decidable (Bytes.Matches start prefixSize key) :=
  inferInstanceAs (Decidable (_ ∧ _))

/-- The bound of a nonempty range, from the front. -/
theorem lexicographicallyNext_cons (byte : Byte) (rest : Bytes)
    : lexicographicallyNext (byte :: rest)
      = if lexicographicallyNext rest ≠ [] then
          byte :: lexicographicallyNext rest
        else if byte = 255 then
          []
        else
          [byte + 1] := by
  unfold lexicographicallyNext
  rw [List.reverse_cons, List.dropWhile_append]
  cases kept : rest.reverse.dropWhile (fun byte => byte = 255) with
  | nil =>
      by_cases top : byte = 255
      · simp [top]
      · simp [top]
  | cons last more =>
      have back : (last :: more ++ [byte]).reverse = (byte :: more.reverse) ++ [last] := by simp
      simp only [List.isEmpty_cons, Bool.false_eq_true, if_false, back, List.reverse_cons,
        List.getLast?_concat, List.dropLast_concat]
      simp

/-- The next byte is above the byte itself, unless it is the last one. -/
theorem byte_lt_succ_iff {byte other : Byte} (notTop : byte ≠ 255)
    : other < byte + 1 ↔ other ≤ byte := by
  have small : byte.val < 255 := by
    have bound := byte.isLt
    have different : byte.val ≠ 255 := fun eq => notTop (Fin.ext eq)
    omega
  have value : (byte + 1).val = byte.val + 1 := by
    rw [Fin.val_add]
    exact Nat.mod_eq_of_lt (by simpa using Nat.succ_lt_succ small)
  rw [Fin.lt_def, Fin.le_def, value]
  exact Nat.lt_succ_iff

theorem Bytes.nil_le (key : Bytes) : ([] : Bytes) ≤ key :=
  not_lt.mp (List.not_lt_nil key)

theorem Bytes.cons_le_cons {byte first : Byte} {rest tail : Bytes}
    : byte :: rest ≤ first :: tail ↔ byte < first ∨ (byte = first ∧ rest ≤ tail) := by
  rw [← not_lt, List.cons_lt_cons_iff, ← not_lt]
  by_cases same : byte = first
  · simp [same]
  · simp [same, Ne.symm same, lt_iff_le_and_ne]

/-- The keys with a prefix are those from the prefix up to its bound, by induction on the
prefix.
-/
theorem prefix_iff_between (range key : Bytes)
    : range <+: key
      ↔ range ≤ key ∧ (lexicographicallyNext range = [] ∨ key < lexicographicallyNext range) := by
  induction range generalizing key with
  | nil => simp [lexicographicallyNext, Bytes.nil_le]
  | cons byte rest ih =>
      cases key with
      | nil => simp
      | cons first tail =>
          rw [List.cons_prefix_cons, ih tail, lexicographicallyNext_cons, Bytes.cons_le_cons]
          by_cases bounded : lexicographicallyNext rest = []
          · by_cases top : byte = 255
            · have largest : ¬ byte < first := by
                rw [top]
                exact not_lt.mpr (Fin.le_last first)
              subst top
              simp [bounded, largest]
            · have split : byte = first ↔ byte ≤ first ∧ first ≤ byte :=
                ⟨fun eq => ⟨eq.le, eq.ge⟩, fun both => le_antisymm both.1 both.2⟩
              simp [bounded, top, List.cons_lt_cons_iff, byte_lt_succ_iff top]
              grind
          · simp [bounded, List.cons_lt_cons_iff]
            grind

/-- The positions of a prefix seek in key order: from `start` up to the bound of the prefix. -/
theorem Bytes.matches_iff {start : Bytes} {prefixSize : Nat} {key : Bytes}
    : start.Matches prefixSize key
      ↔ start ≤ key
        ∧ (lexicographicallyNext (start.take prefixSize) = []
            ∨ key < lexicographicallyNext (start.take prefixSize)) := by
  have front : start.take prefixSize ≤ start := by
    have own := (prefix_iff_between (start.take prefixSize) start).mp (List.take_prefix _ _)
    exact own.1
  unfold Matches
  rw [prefix_iff_between]
  constructor
  · intro matching
    exact ⟨matching.2, matching.1.2⟩
  · intro matching
    exact ⟨⟨front.trans matching.1, matching.2⟩, matching.1⟩

end Glean.RTS
