import Glean.RocksDB.Database

/-! Keys of the `keys` column: they determine predicate and key, and prefix seeks over them
stay inside one predicate.
-/

namespace Glean.Rocks

open Glean.RTS

@[simp]
theorem littleEndian_length (bytes n : Nat) : (littleEndian bytes n).length = bytes := by
  induction bytes generalizing n with
  | zero => rfl
  | succ bytes ih => simp [littleEndian, ih]

/-- The bytes determine the number, by induction on their count. -/
theorem littleEndian_inj (bytes : Nat) {left right : Nat} (leftSmall : left < 256 ^ bytes)
    (rightSmall : right < 256 ^ bytes)
    (same : littleEndian bytes left = littleEndian bytes right)
    : left = right := by
  induction bytes generalizing left right with
  | zero => omega
  | succ bytes ih =>
      obtain ⟨lowest, higher⟩ := List.cons.inj same
      have low : left % 256 = right % 256 := by simpa using congrArg Fin.val lowest
      have high : left / 256 = right / 256 := by
        refine ih ?_ ?_ higher
        · exact Nat.div_lt_of_lt_mul (by rwa [Nat.pow_succ'] at leftSmall)
        · exact Nat.div_lt_of_lt_mul (by rwa [Nat.pow_succ'] at rightSmall)
      omega

/-- Only the largest number has `0xFF` in every byte. -/
theorem littleEndian_all_top {bytes n : Nat} (top : ∀ byte ∈ littleEndian bytes n, byte = 255)
    : 256 ^ bytes - 1 ≤ n := by
  induction bytes generalizing n with
  | zero => simp
  | succ bytes ih =>
      have low : n % 256 = 255 := by
        simpa using congrArg Fin.val (top (Fin.ofNat 256 n) (by simp [littleEndian]))
      have high : 256 ^ bytes - 1 ≤ n / 256 :=
        ih (fun byte member => top byte (by simp [littleEndian, member]))
      rw [Nat.pow_succ']
      omega

@[simp]
theorem fixedWord_length (word : Nat) : (fixedWord word).length = 8 :=
  littleEndian_length 8 word

theorem fixedWord_inj {left right : Pid} (leftTyped : left < Pid.limit)
    (rightTyped : right < Pid.limit)
    : fixedWord left = fixedWord right ↔ left = right := by
  constructor
  · intro same
    refine littleEndian_inj 8 ?_ ?_ same
    · exact leftTyped.trans (by decide)
    · exact rightTyped.trans (by decide)
  · intro same
    rw [same]

/-- Keys of the column differ when predicates or keys do. -/
theorem keyBytes_inj {left right : Pid} (leftTyped : left < Pid.limit)
    (rightTyped : right < Pid.limit) {key other : Bytes}
    : keyBytes left key = keyBytes right other ↔ left = right ∧ key = other := by
  constructor
  · intro same
    obtain ⟨types, keys⟩ := List.append_inj same (by simp)
    exact ⟨(fixedWord_inj leftTyped rightTyped).mp types, keys⟩
  · intro same
    rw [same.1, same.2]

/-- A range has no upper bound only if it consists of `0xFF` bytes. -/
theorem lexicographicallyNext_eq_nil {range : Bytes} (unbounded : lexicographicallyNext range = [])
    : ∀ byte ∈ range, byte = 255 := by
  induction range with
  | nil => simp
  | cons byte rest ih =>
      rw [lexicographicallyNext_cons] at unbounded
      split_ifs at unbounded with bounded top
      intro other member
      rcases List.mem_cons.mp member with rfl | later
      · exact top
      · exact ih (not_not.mp bounded) other later

theorem lexicographicallyNext_eq_nil_iff {range : Bytes}
    : lexicographicallyNext range = [] ↔ ∀ byte ∈ range, byte = 255 := by
  refine ⟨lexicographicallyNext_eq_nil, fun top => ?_⟩
  induction range with
  | nil => rfl
  | cons byte rest ih =>
      rw [List.forall_mem_cons] at top
      rw [lexicographicallyNext_cons, ih top.2]
      simp [top.1]

/-- Every prefix seek of a predicate has an upper bound. -/
theorem keyBytes_bounded {type : Pid} (typed : type < Pid.limit) (start : Bytes)
    : lexicographicallyNext (keyBytes type start) ≠ [] := by
  intro unbounded
  have top := lexicographicallyNext_eq_nil unbounded
  have large : 256 ^ 8 - 1 ≤ type :=
    littleEndian_all_top (fun byte member => top byte (List.mem_append_left _ member))
  exact absurd typed (not_lt.mpr (le_trans (by decide) large))

/-- Bytes after a common front compare as they do with the front. -/
theorem append_le_append_iff (front left right : Bytes)
    : front ++ left ≤ front ++ right ↔ left ≤ right := by
  induction front with
  | nil => rfl
  | cons byte rest ih => simpa [Bytes.cons_le_cons] using ih

theorem keyBytes_take (type : Pid) (start : Bytes) (prefixSize : Nat)
    : (keyBytes type start).take (8 + prefixSize) = keyBytes type (start.take prefixSize) := by
  have size : 8 = (fixedWord type).length := by simp
  rw [keyBytes, size, List.take_length_add_append]
  rfl

/-- A prefix seek in the column looks for the keys of the predicate that match. -/
theorem keyBytes_matches {type other : Pid} (typed : type < Pid.limit)
    (otherTyped : other < Pid.limit) {start key : Bytes} {prefixSize : Nat}
    : (keyBytes type start).Matches (8 + prefixSize) (keyBytes other key)
      ↔ other = type ∧ start.Matches prefixSize key := by
  unfold Bytes.Matches
  rw [keyBytes_take]
  constructor
  · intro matching
    obtain ⟨⟨more, same⟩, notBefore⟩ := matching
    rw [keyBytes, List.append_assoc] at same
    obtain ⟨types, keys⟩ := List.append_inj same (by simp)
    have sameType := (fixedWord_inj typed otherTyped).mp types
    subst sameType
    exact ⟨rfl, ⟨more, keys⟩, (append_le_append_iff _ _ _).mp notBefore⟩
  · intro matching
    obtain ⟨rfl, ⟨more, keys⟩, notBefore⟩ := matching
    refine ⟨⟨more, ?_⟩, (append_le_append_iff _ _ _).mpr notBefore⟩
    rw [keyBytes, List.append_assoc, keys]
    rfl

end Glean.Rocks
