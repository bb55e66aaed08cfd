import Glean.RTS.MangledString

/-! Mangled strings of facts, which are known to be valid (`trustedChunks` in `string.cpp`). -/

namespace Glean.RTS

namespace Input

/-- `trustedChunks`: the chunks of a mangled string, with the zeros of the text, and its size with the
terminator. `pending` is the chunk that is being read. There is none where the source fails a check.
-/
def trustedChunks (pending : Bytes) : Bytes → Option (List Bytes × Nat)
  | [] => none
  | byte :: range =>
      if byte = 0 then
        match range with
        | [] => none
        | next :: rest =>
            if next = 0 then
              some ([pending], 2)
            else
              (trustedChunks [] rest).map fun (chunks, size) => ((pending ++ [0]) :: chunks, size + 2)
      else
        (trustedChunks (pending ++ [byte]) range).map fun (chunks, size) => (chunks, size + 1)

/-- `skipTrustedString`: the size of a mangled string, and that of its text. -/
def skipTrustedString (range : Bytes) : Outcome (Nat × Nat) :=
  match trustedChunks [] range with
  | none => .undefined
  | some (chunks, size) => .ok (size, size - chunks.length - 1)

/-- `demangleTrustedString` -/
def demangleTrustedString (range : Bytes) : Outcome Bytes :=
  match trustedChunks [] range with
  | none => .undefined
  | some (chunks, _) => .ok chunks.flatten

end Input

/-- The chunks of a mangled string are those of its text, one more than this has zeros. -/
theorem trustedChunks_mangleString (text pending rest : Bytes)
    : ∃ chunks, Input.trustedChunks pending (mangleString text ++ rest)
          = some (chunks, (mangleString text).length)
        ∧ chunks.flatten = pending ++ text
        ∧ text.length + chunks.length + 1 = (mangleString text).length := by
  induction text generalizing pending with
  | nil => exact ⟨[pending], rfl, by simp, rfl⟩
  | cons byte text ih =>
      by_cases isZero : byte = 0
      · subst isZero
        obtain ⟨chunks, areChunks, flat, size⟩ := ih []
        have mangled : mangleString (0 :: text) = 0 :: 1 :: mangleString text := if_pos rfl
        refine ⟨(pending ++ [0]) :: chunks, ?_, ?_, ?_⟩
        · rw [mangled, List.cons_append, List.cons_append, Input.trustedChunks, if_pos rfl]
          dsimp only
          rw [if_neg (by decide), areChunks]
          rfl
        · rw [List.flatten_cons, flat, List.append_assoc]
          rfl
        · rw [mangled, List.length_cons, List.length_cons, List.length_cons, List.length_cons]
          omega
      · obtain ⟨chunks, areChunks, flat, size⟩ := ih (pending ++ [byte])
        have mangled : mangleString (byte :: text) = byte :: mangleString text := if_neg isZero
        refine ⟨chunks, ?_, ?_, ?_⟩
        · rw [mangled, List.cons_append, Input.trustedChunks.eq_def]
          dsimp only
          rw [if_neg isZero, areChunks]
          rfl
        · rw [flat, List.append_assoc]
          rfl
        · rw [mangled, List.length_cons, List.length_cons]
          omega

theorem skipTrustedString_mangleString (text rest : Bytes)
    : Input.skipTrustedString (mangleString text ++ rest)
      = .ok ((mangleString text).length, text.length) := by
  obtain ⟨chunks, areChunks, -, size⟩ := trustedChunks_mangleString text [] rest
  have textSize : (mangleString text).length - chunks.length - 1 = text.length := by omega
  rw [Input.skipTrustedString, areChunks]
  dsimp only
  rw [textSize]

/-- What follows the terminator is not read. -/
theorem demangleTrustedString_append (text rest : Bytes)
    : Input.demangleTrustedString (mangleString text ++ rest) = .ok text := by
  obtain ⟨chunks, areChunks, flat, -⟩ := trustedChunks_mangleString text [] rest
  rw [Input.demangleTrustedString, areChunks]
  dsimp only
  rw [flat, List.nil_append]

theorem demangleTrustedString_mangleString (text : Bytes)
    : Input.demangleTrustedString (mangleString text) = .ok text := by
  have demangled := demangleTrustedString_append text []
  rwa [List.append_nil] at demangled

namespace HsRTS

/-- `BS.split`: the pieces between the bytes equal to one; the empty string has none. -/
def split (byte : Byte) (bytes : Bytes) : List Bytes :=
  if bytes = [] then [] else bytes.splitOn byte

/-- `mangleString` of `RTS.hs` -/
def mangleString (bytes : Bytes) : Bytes :=
  [0, 1].intercalate (split 0 bytes) ++ [0, 0]

end HsRTS

theorem intercalate_splitOn (text : Bytes)
    : [0, 1].intercalate (text.splitOn 0) ++ [0, 0] = mangleString text := by
  induction text with
  | nil => rfl
  | cons byte text ih =>
      have pieces := List.splitOnP_cons_eq_if_modifyHead (p := (· == (0 : Byte))) byte text
      change (byte :: text).splitOn 0
        = if byte == 0 then [] :: text.splitOn 0
          else (text.splitOn 0).modifyHead (List.cons byte) at pieces
      obtain ⟨first, others, isSplit⟩ :=
        List.exists_cons_of_ne_nil (List.splitOnP_ne_nil (· == (0 : Byte)) text)
      change text.splitOn 0 = first :: others at isSplit
      rw [isSplit] at ih pieces
      rw [pieces, mangleString]
      by_cases isZero : byte = 0
      · rw [if_pos (by simpa using isZero), if_pos isZero, List.intercalate_cons_cons, ← ih]
        rfl
      · rw [if_neg (by simpa using isZero), if_neg isZero, List.modifyHead_cons,
          List.intercalate_cons_cons_left, ← ih, List.cons_append]

theorem hsMangleString_eq (text : Bytes) : HsRTS.mangleString text = mangleString text := by
  by_cases isEmpty : text = []
  · subst isEmpty
    rfl
  · rw [HsRTS.mangleString, HsRTS.split, if_neg isEmpty, intercalate_splitOn]

/-- Mangling is undone, with the sizes it has, whatever follows; it keeps the order of texts and makes
none a prefix of another; and the Haskell code mangles as the C++ code does.
-/
theorem mangling_correct (text other : Bytes)
    : (∀ rest, Input.demangleTrustedString (mangleString text ++ rest) = .ok text
        ∧ Input.skipTrustedString (mangleString text ++ rest)
            = .ok ((mangleString text).length, text.length))
      ∧ (mangleString text < mangleString other ↔ text < other)
      ∧ ¬ (mangleString text <+: mangleString other ∧ mangleString text ≠ mangleString other)
      ∧ HsRTS.mangleString text = mangleString text := by
  refine ⟨fun rest => ?_, mangleString_ordered.lt_iff, ?_, hsMangleString_eq text⟩
  · exact ⟨demangleTrustedString_append text rest, skipTrustedString_mangleString text rest⟩
  · rintro ⟨before, different⟩
    exact different (congrArg mangleString (mangleString_ordered.prefixFree text other before))

end Glean.RTS
