import Glean.RTS.MangledString

/-! Untrusted strings (`string.cpp`) of any length, with the `int` index of the source: which ranges
the two functions read as they are meant to.
-/

namespace Glean.RTS.UntrustedString

open Input (toUChar IsText demangleChunks)

/-- The first number that the index of the loops, an `int`, cannot hold. -/
def intLimit : Nat := 2 ^ 31

/-- The loop of `untrustedChunks`, with the chunks from `k` on put together, and the size that is
returned. The index may overflow, which is undefined, and at the end of the range the loop reads on.
-/
def untrustedLoop (u8 : U8Next) (range : Bytes) : Nat → Nat → Nat → Outcome (Bytes × Nat)
  | 0, _, _ => .undefined
  | fuel + 1, k, i =>
      if range.length ≤ i then
        .undefined
      else
        let (c, advance) := u8.next (range.drop i)
        let i := i + advance
        if intLimit ≤ i then
          .undefined
        else if toUChar c = 0 then
          match range[i]? with
          | some 0 =>
              if intLimit ≤ i + 1 then .undefined
              else .ok ((range.drop k).take (i - k - 1), i + 1)
          | some 1 =>
              if intLimit ≤ i + 1 then .undefined
              else do
                let (text, size) ← untrustedLoop u8 range fuel (i + 1) (i + 1)
                return ((range.drop k).take (i - k) ++ text, size)
          | some _ => .error "invalid NUL in mangled string"
          | none => .error "truncated terminator in mangled string"
        else
          untrustedLoop u8 range fuel k i

/-- `untrustedChunks` -/
def untrustedChunks (u8 : U8Next) (range : Bytes) : Outcome (Bytes × Nat) :=
  let i := (range.takeWhile (fun byte => IsText byte)).length
  if intLimit ≤ i + 1 then
    .undefined
  else if range[i]? = some 0 ∧ range[i + 1]? = some 0 then
    if intLimit ≤ i + 2 then .undefined else .ok (range.take i, i + 2)
  else
    untrustedLoop u8 range (range.length + 1) 0 i

/-- `validateUntrustedString` -/
def validateUntrustedString (u8 : U8Next) (range : Bytes) : Outcome Nat := do
  let (_, size) ← untrustedChunks u8 range
  return size

/-- `demangleUntrustedString`: the text that is written, and the size that is returned. -/
def demangleUntrustedString (u8 : U8Next) (range : Bytes) : Outcome (Bytes × Nat) :=
  untrustedChunks u8 range

/-- A text in UTF-8. -/
def IsUtf8 (text : Bytes) : Prop :=
  ∃ codes, (∀ code ∈ codes, Utf8.Scalar code) ∧ text = Utf8.encodeAll codes

/-- What the functions are for: they accept the mangled texts in front of a range, give their size and
the text, and read nothing outside the range.
-/
structure ReadsMangled (u8 : U8Next) (range : Bytes) : Prop where
  validates
    : ∀ size, validateUntrustedString u8 range = .ok size
        ↔ ∃ text, IsUtf8 text ∧ mangleString text <+: range ∧ size = (mangleString text).length
  demangles
    : ∀ text size, demangleUntrustedString u8 range = .ok (text, size)
        ↔ IsUtf8 text ∧ mangleString text <+: range ∧ size = (mangleString text).length
  inside : validateUntrustedString u8 range ≠ .undefined ∧ demangleUntrustedString u8 range ≠ .undefined

/-- The characters of a byte string as `U8_NEXT` reads them, with the number of their bytes. -/
def characters (u8 : U8Next) (bytes : Bytes) : List (Option Nat × Nat) :=
  match bytes with
  | [] => []
  | byte :: bytes =>
      u8.next (byte :: bytes) :: characters u8 ((byte :: bytes).drop (u8.next (byte :: bytes)).2)
termination_by bytes.length
decreasing_by
  have advances := u8.advances (List.cons_ne_nil byte bytes)
  rw [List.length_drop, List.length_cons]
  rw [List.length_cons] at advances
  omega

/-- The first character that `UChar` takes for zero and that has no U+0001 behind it, from a position
on, has no U+0000 behind it either, and ends below the limit of the index.
-/
def RefusesAt : Nat → List (Option Nat × Nat) → Prop
  | _, [] => False
  | start, [(char, size)] => toUChar char = 0 ∧ start + size < intLimit
  | start, (char, size) :: (next, nextSize) :: chars =>
      if toUChar char = 0 then
        if next = some 1 then
          RefusesAt (start + size + 1) chars
        else
          next ≠ some 0 ∧ start + size < intLimit
      else
        RefusesAt (start + size) ((next, nextSize) :: chars)

-- The loop from the start of the range

variable {u8 : U8Next}

theorem advances_drop (u8 : U8Next) {range : Bytes} {i : Nat} (inside : ¬ range.length ≤ i)
    : 0 < (u8.next (range.drop i)).2 ∧ i + (u8.next (range.drop i)).2 ≤ range.length := by
  have advances := u8.advances (List.drop_eq_nil_iff.not.mpr inside)
  rw [List.length_drop] at advances
  omega

theorem untrustedLoop_succ (u8 : U8Next) (range : Bytes) (fuel k i : Nat)
    : untrustedLoop u8 range (fuel + 1) k i
      = if range.length ≤ i then
          .undefined
        else if intLimit ≤ i + (u8.next (range.drop i)).2 then
          .undefined
        else if toUChar (u8.next (range.drop i)).1 = 0 then
          match range[i + (u8.next (range.drop i)).2]? with
          | some 0 =>
              if intLimit ≤ i + (u8.next (range.drop i)).2 + 1 then .undefined
              else .ok ((range.drop k).take (i + (u8.next (range.drop i)).2 - k - 1),
                i + (u8.next (range.drop i)).2 + 1)
          | some 1 =>
              if intLimit ≤ i + (u8.next (range.drop i)).2 + 1 then .undefined
              else untrustedLoop u8 range fuel (i + (u8.next (range.drop i)).2 + 1)
                  (i + (u8.next (range.drop i)).2 + 1) >>= fun later =>
                .ok ((range.drop k).take (i + (u8.next (range.drop i)).2 - k) ++ later.1, later.2)
          | some _ => .error "invalid NUL in mangled string"
          | none => .error "truncated terminator in mangled string"
        else
          untrustedLoop u8 range fuel k (i + (u8.next (range.drop i)).2) :=
  rfl

/-- Every round advances, so more fuel than there are bytes makes no difference. -/
theorem untrustedLoop_fuel {range : Bytes} {fuel more k i : Nat} (enough : range.length < i + fuel)
    (moreEnough : range.length < i + more)
    : untrustedLoop u8 range fuel k i = untrustedLoop u8 range more k i := by
  induction fuel generalizing more k i with
  | zero =>
      cases more with
      | zero => rfl
      | succ more => rw [untrustedLoop, untrustedLoop, if_pos (by omega)]
  | succ fuel ih =>
      cases more with
      | zero => rw [untrustedLoop, untrustedLoop, if_pos (by omega)]
      | succ more =>
          rw [untrustedLoop_succ, untrustedLoop_succ]
          by_cases outside : range.length ≤ i
          · rw [if_pos outside, if_pos outside]
          · have advances := advances_drop u8 outside
            have same (next k : Nat) (later : i + (u8.next (range.drop i)).2 ≤ next)
                : untrustedLoop u8 range fuel k next = untrustedLoop u8 range more k next :=
              ih (by omega) (by omega)
            rw [same _ _ le_rfl, same _ _ (Nat.le_succ _)]

/-- At the limit of the index no round ends well. -/
theorem untrustedLoop_limit {range : Bytes} {fuel k i : Nat} (atLimit : intLimit ≤ i + 1)
    : untrustedLoop u8 range fuel k i = .undefined := by
  cases fuel with
  | zero => rfl
  | succ fuel =>
      rw [untrustedLoop_succ]
      by_cases outside : range.length ≤ i
      · rw [if_pos outside]
      · have advances := advances_drop u8 outside
        rw [if_neg outside, if_pos (by omega)]

theorem next_zero (utf8 : u8.ReadsUtf8) (rest : Bytes) : u8.next (0 :: rest) = (some 0, 1) :=
  utf8.encoded Input.scalar_zero rest

theorem next_text (utf8 : u8.ReadsUtf8) (byte : Byte) (isText : IsText byte) (rest : Bytes)
    : u8.next (byte :: rest) = (some byte.val, 1) ∧ toUChar (some byte.val) ≠ 0 := by
  have positive : 0 < byte.val := isText.1
  have low : byte.val < 0x80 := isText.2
  have encoded := @utf8.encoded byte.val (.inl (by omega)) rest
  have isByte : Fin.ofNat 256 byte.val = byte := Fin.ext (Nat.mod_eq_of_lt byte.isLt)
  rw [Utf8.encode_ascii low, isByte] at encoded
  refine ⟨encoded, ?_⟩
  change byte.val % 2 ^ 16 ≠ 0
  omega

/-- The loop goes over ASCII characters as the fast path does. -/
theorem untrustedLoop_ascii (utf8 : u8.ReadsUtf8) {range ascii suffix : Bytes} {fuel k i : Nat}
    (enough : range.length < i + fuel) (shape : range.drop i = ascii ++ suffix)
    (isAscii : ∀ byte ∈ ascii, IsText byte)
    : untrustedLoop u8 range fuel k i
      = if intLimit ≤ i + ascii.length then .undefined
        else untrustedLoop u8 range fuel k (i + ascii.length) := by
  induction ascii generalizing fuel i with
  | nil =>
      rw [List.length_nil, Nat.add_zero]
      split
      next atLimit => exact untrustedLoop_limit (by omega)
      next => rfl
  | cons byte ascii ih =>
      obtain ⟨isText, isAscii⟩ := List.forall_mem_cons.mp isAscii
      obtain ⟨next, notNul⟩ := next_text utf8 byte isText (ascii ++ suffix)
      have inside : ¬ range.length ≤ i := by
        intro outside
        rw [List.drop_eq_nil_of_le outside] at shape
        cases shape
      have behind : range.drop (i + 1) = ascii ++ suffix := by
        rw [← List.tail_drop, shape]
        rfl
      cases fuel with
      | zero => omega
      | succ fuel =>
          have later := @ih (fuel + 1) _ (by omega) behind isAscii
          have same : untrustedLoop u8 range fuel k (i + 1)
              = untrustedLoop u8 range (fuel + 1) k (i + 1) :=
            untrustedLoop_fuel (by omega) (by omega)
          rw [List.length_cons, Nat.add_comm ascii.length, ← Nat.add_assoc, ← later,
            untrustedLoop_succ, if_neg inside, shape, List.cons_append, next]
          dsimp only
          rw [if_neg notNul, same]
          split
          next atLimit => exact (untrustedLoop_limit (by omega)).symm
          next => rfl

/-- The fast path makes no difference. -/
theorem untrustedChunks_eq (utf8 : u8.ReadsUtf8) (range : Bytes)
    : untrustedChunks u8 range = untrustedLoop u8 range (range.length + 1) 0 0 := by
  obtain ⟨ascii, suffix, rfl, isAscii, notAscii⟩ := Input.exists_ascii range
  have loop := @untrustedLoop_ascii _ utf8 (ascii ++ suffix) ascii suffix
    ((ascii ++ suffix).length + 1) 0 0 (by omega) rfl isAscii
  rw [Nat.zero_add] at loop
  rw [loop, untrustedChunks, Input.takeWhile_isText isAscii notAscii]
  by_cases atLimit : intLimit ≤ ascii.length + 1
  · rw [if_pos atLimit, untrustedLoop_limit atLimit, ite_self]
  · rw [if_neg atLimit, if_neg (by omega : ¬ intLimit ≤ ascii.length)]
    split
    next isEnd =>
      have first := Input.drop_eq_cons_of_getElem? isEnd.1
      rw [Input.drop_eq_cons_of_getElem? isEnd.2, List.drop_left] at first
      obtain ⟨rest, isSuffix⟩ : ∃ rest, suffix = 0 :: 0 :: rest := ⟨_, first⟩
      have inside : ¬ (ascii ++ suffix).length ≤ ascii.length := by simp [isSuffix]
      have next : u8.next ((ascii ++ suffix).drop ascii.length) = (some 0, 1) := by
        rw [List.drop_left, isSuffix, next_zero utf8]
      rw [untrustedLoop_succ, if_neg inside, next]
      simp only [toUChar, Nat.zero_mod, if_true, if_neg atLimit, isEnd.2]
      rfl
    next => rfl

-- What the loop gives

theorem demangleChunks_succ {bytes : Bytes} (notEmpty : bytes ≠ []) (fuel : Nat) (pending : Bytes)
    : demangleChunks u8 (fuel + 1) pending bytes
      = if toUChar (u8.next bytes).1 = 0 then
          match bytes.drop (u8.next bytes).2 with
          | 0 :: rest => .ok ((pending ++ bytes.take (u8.next bytes).2).dropLast, rest)
          | 1 :: rest => demangleChunks u8 fuel [] rest >>= fun later =>
              .ok (pending ++ bytes.take (u8.next bytes).2 ++ later.1, later.2)
          | _ :: _ => .error "invalid NUL in mangled string"
          | [] => .error "truncated terminator in mangled string"
        else
          demangleChunks u8 fuel (pending ++ bytes.take (u8.next bytes).2)
            (bytes.drop (u8.next bytes).2) := by
  cases bytes with
  | nil => exact absurd rfl notEmpty
  | cons byte bytes => rfl

section Rounds

variable {range : Bytes} {k i : Nat}

/-- Where the index is behind the character at `i`. -/
def behind (u8 : U8Next) (range : Bytes) (i : Nat) : Nat := i + (u8.next (range.drop i)).2

theorem lt_behind (u8 : U8Next) (inside : i < range.length)
    : i < behind u8 range i ∧ behind u8 range i ≤ range.length := by
  have advances := advances_drop u8 (not_le.mpr inside)
  unfold behind
  omega

/-- Reading a character that is not taken for zero. -/
theorem untrustedLoop_char (inside : i < range.length)
    (notNul : toUChar (u8.next (range.drop i)).1 ≠ 0) (fuel : Nat)
    : untrustedLoop u8 range (fuel + 1) k i
      = if intLimit ≤ behind u8 range i then .undefined
        else untrustedLoop u8 range fuel k (behind u8 range i) := by
  rw [untrustedLoop_succ, if_neg (not_le.mpr inside), if_neg notNul]
  rfl

/-- Reading the end of the string. -/
theorem untrustedLoop_end (inside : i < range.length)
    (isNul : toUChar (u8.next (range.drop i)).1 = 0) (isEnd : range[behind u8 range i]? = some 0)
    (fuel : Nat)
    : untrustedLoop u8 range (fuel + 1) k i
      = if intLimit ≤ behind u8 range i + 1 then .undefined
        else .ok ((range.drop k).take (behind u8 range i - k - 1), behind u8 range i + 1) := by
  unfold behind at *
  rw [untrustedLoop_succ, if_neg (not_le.mpr inside), if_pos isNul, isEnd]
  split
  next atLimit => rw [if_pos (Nat.le_succ_of_le atLimit)]
  next => rfl

/-- Reading an escaped zero. -/
theorem untrustedLoop_escape (inside : i < range.length)
    (isNul : toUChar (u8.next (range.drop i)).1 = 0) (isEscape : range[behind u8 range i]? = some 1)
    (fuel : Nat)
    : untrustedLoop u8 range (fuel + 1) k i
      = if intLimit ≤ behind u8 range i + 1 then .undefined
        else untrustedLoop u8 range fuel (behind u8 range i + 1) (behind u8 range i + 1)
          >>= fun later => .ok ((range.drop k).take (behind u8 range i - k) ++ later.1, later.2) := by
  unfold behind at *
  rw [untrustedLoop_succ, if_neg (not_le.mpr inside), if_pos isNul, isEscape]
  split
  next atLimit => rw [if_pos (Nat.le_succ_of_le atLimit)]
  next => rfl

/-- Reading a zero that is not mangled. -/
theorem untrustedLoop_refuse (inside : i < range.length)
    (isNul : toUChar (u8.next (range.drop i)).1 = 0) (notEnd : range[behind u8 range i]? ≠ some 0)
    (notEscape : range[behind u8 range i]? ≠ some 1) (fuel : Nat)
    : ∃ message, untrustedLoop u8 range (fuel + 1) k i
      = if intLimit ≤ behind u8 range i then .undefined else .error message := by
  unfold behind at *
  rw [untrustedLoop_succ, if_neg (not_le.mpr inside), if_pos isNul]
  by_cases atLimit : intLimit ≤ i + (u8.next (range.drop i)).2
  · exact ⟨"", by rw [if_pos atLimit, if_pos atLimit]⟩
  · simp only [if_neg atLimit]
    split
    next isZero => exact absurd isZero notEnd
    next isOne => exact absurd isOne notEscape
    next => exact ⟨_, rfl⟩
    next => exact ⟨_, rfl⟩

/-- The cases of a round inside the range. -/
theorem round_cases (u8 : U8Next) (range : Bytes) (i : Nat)
    : toUChar (u8.next (range.drop i)).1 ≠ 0
      ∨ (toUChar (u8.next (range.drop i)).1 = 0 ∧ range[behind u8 range i]? = some 0)
      ∨ (toUChar (u8.next (range.drop i)).1 = 0 ∧ range[behind u8 range i]? = some 1)
      ∨ (toUChar (u8.next (range.drop i)).1 = 0 ∧ range[behind u8 range i]? ≠ some 0
          ∧ range[behind u8 range i]? ≠ some 1) := by
  tauto

/-- The same rounds without a limit of the index. -/
theorem demangleChunks_round (inside : i < range.length) (ordered : k ≤ i) (fuel : Nat)
    : demangleChunks u8 (fuel + 1) ((range.drop k).take (i - k)) (range.drop i)
      = if toUChar (u8.next (range.drop i)).1 = 0 then
          match range.drop (behind u8 range i) with
          | 0 :: rest => .ok (((range.drop k).take (behind u8 range i - k)).dropLast, rest)
          | 1 :: rest => demangleChunks u8 fuel [] rest >>= fun later =>
              .ok ((range.drop k).take (behind u8 range i - k) ++ later.1, later.2)
          | _ :: _ => .error "invalid NUL in mangled string"
          | [] => .error "truncated terminator in mangled string"
        else
          demangleChunks u8 fuel ((range.drop k).take (behind u8 range i - k))
            (range.drop (behind u8 range i)) := by
  have collected : (range.drop k).take (i - k) ++ (range.drop i).take (u8.next (range.drop i)).2
      = (range.drop k).take (behind u8 range i - k) := by
    have skipped : (range.drop k).drop (i - k) = range.drop i := by
      rw [List.drop_drop, Nat.add_sub_cancel' ordered]
    have size : behind u8 range i - k = i - k + (u8.next (range.drop i)).2 := by
      unfold behind
      omega
    rw [← skipped, size, List.take_add, skipped]
  have left : (range.drop i).drop (u8.next (range.drop i)).2 = range.drop (behind u8 range i) := by
    rw [List.drop_drop]
    rfl
  rw [demangleChunks_succ (List.drop_eq_nil_iff.not.mpr (not_le.mpr inside)), collected, left]

end Rounds

/-- The loop gives what it gives without a limit of the index, if the string ends below the limit. -/
theorem untrustedLoop_cases (range : Bytes) (fuel : Nat) {k i : Nat} (ordered : k ≤ i)
    : (∃ text size, i ≤ size ∧ size ≤ range.length
          ∧ demangleChunks u8 fuel ((range.drop k).take (i - k)) (range.drop i)
              = .ok (text, range.drop size)
          ∧ untrustedLoop u8 range fuel k i
              = if intLimit ≤ size then .undefined else .ok (text, size))
      ∨ ((∀ result, demangleChunks u8 fuel ((range.drop k).take (i - k)) (range.drop i)
              ≠ .ok result)
          ∧ ∀ result, untrustedLoop u8 range fuel k i ≠ .ok result) := by
  induction fuel generalizing k i with
  | zero => exact .inr ⟨by rintro _ ⟨⟩, by rintro _ ⟨⟩⟩
  | succ fuel ih =>
      by_cases inside : i < range.length
      · have advances := lt_behind u8 inside
        rw [demangleChunks_round inside ordered]
        rcases round_cases u8 range i with notNul | ⟨isNul, isEnd⟩ | ⟨isNul, isEscape⟩
          | ⟨isNul, notEnd, notEscape⟩
        · rw [untrustedLoop_char inside notNul, if_neg notNul]
          rcases ih (k := k) (i := behind u8 range i) (by omega) with
            ⟨text, size, later, within, read, loop⟩ | ⟨noRead, noLoop⟩
          · refine .inl ⟨text, size, by omega, within, read, ?_⟩
            rw [loop]
            split
            next => rw [if_pos (by omega)]
            next => rfl
          · refine .inr ⟨noRead, fun result => ?_⟩
            split
            next => rintro ⟨⟩
            next => exact noLoop result
        · have bound := (List.getElem?_eq_some_iff.mp isEnd).1
          have short : behind u8 range i - k < (range.drop k).length := by
            rw [List.length_drop]
            omega
          rw [untrustedLoop_end inside isNul isEnd, if_pos isNul,
            Input.drop_eq_cons_of_getElem? isEnd]
          refine .inl ⟨_, behind u8 range i + 1, by omega, bound, ?_, rfl⟩
          rw [← List.dropLast_take short]
          rfl
        · have bound := (List.getElem?_eq_some_iff.mp isEscape).1
          have fromHere := ih (k := behind u8 range i + 1) (i := behind u8 range i + 1) le_rfl
          rw [Nat.sub_self, List.take_zero] at fromHere
          rw [untrustedLoop_escape inside isNul isEscape, if_pos isNul,
            Input.drop_eq_cons_of_getElem? isEscape]
          rcases fromHere with ⟨text, size, later, within, read, loop⟩ | ⟨noRead, noLoop⟩
          · refine .inl ⟨(range.drop k).take (behind u8 range i - k) ++ text, size, by omega, within,
              ?_, ?_⟩
            · change (demangleChunks u8 fuel [] (range.drop (behind u8 range i + 1)) >>= _) = _
              rw [read]
              rfl
            · rw [loop]
              by_cases atLimit : intLimit ≤ size
              · rw [if_pos atLimit, if_pos atLimit, Outcome.undefined_bind, ite_self]
              · rw [if_neg atLimit, if_neg atLimit, if_neg (by omega)]
                rfl
          · refine .inr ⟨fun result found => ?_, fun result found => ?_⟩
            · change (demangleChunks u8 fuel [] (range.drop (behind u8 range i + 1)) >>= _) = _
                at found
              obtain ⟨middle, read, -⟩ := Outcome.bind_eq_ok.mp found
              exact noRead middle read
            · split at found
              next => cases found
              next =>
                obtain ⟨middle, read, -⟩ := Outcome.bind_eq_ok.mp found
                exact noLoop middle read
        · obtain ⟨message, loop⟩ := untrustedLoop_refuse (k := k) inside isNul notEnd notEscape fuel
          rw [loop, if_pos isNul]
          rw [← List.head?_drop] at notEnd notEscape
          refine .inr ⟨fun result => ?_, fun result => ?_⟩
          · split
            next rest isZero => exact absurd (by rw [isZero]; rfl) notEnd
            next rest isOne => exact absurd (by rw [isOne]; rfl) notEscape
            next => rintro ⟨⟩
            next => rintro ⟨⟩
          · split <;> rintro ⟨⟩
      · rw [untrustedLoop_succ, if_pos (not_lt.mp inside),
          List.drop_eq_nil_of_le (not_lt.mp inside)]
        exact .inr ⟨by rintro _ ⟨⟩, by rintro _ ⟨⟩⟩

-- When the loop refuses a range

theorem characters_nil : characters u8 [] = [] := by
  rw [characters]

theorem characters_of_ne_nil {bytes : Bytes} (notEmpty : bytes ≠ [])
    : characters u8 bytes = u8.next bytes :: characters u8 (bytes.drop (u8.next bytes).2) := by
  cases bytes with
  | nil => exact absurd rfl notEmpty
  | cons byte bytes => rw [characters]

theorem characters_drop {range : Bytes} {i : Nat} (inside : i < range.length)
    : characters u8 (range.drop i)
      = u8.next (range.drop i) :: characters u8 (range.drop (behind u8 range i)) := by
  rw [characters_of_ne_nil (List.drop_eq_nil_iff.not.mpr (not_le.mpr inside)), List.drop_drop]
  rfl

theorem refusesAt_char {start size : Nat} {char : Option Nat} (notNul : toUChar char ≠ 0)
    (chars : List (Option Nat × Nat))
    : RefusesAt start ((char, size) :: chars) ↔ RefusesAt (start + size) chars := by
  match chars with
  | [] => simp [RefusesAt, notNul]
  | (next, nextSize) :: chars => rw [RefusesAt, if_neg notNul]

/-- What is refused is refused below the limit. -/
theorem refusesAt_lt {start : Nat} {chars : List (Option Nat × Nat)} (refuses : RefusesAt start chars)
    : start < intLimit := by
  induction start, chars using RefusesAt.induct with
  | case1 start => exact refuses.elim
  | case2 start char size =>
      have below := refuses.2
      omega
  | case3 start char size nextSize chars isNul ih =>
      rw [RefusesAt, if_pos isNul, if_pos rfl] at refuses
      have later := ih refuses
      omega
  | case4 start char size next nextSize chars isNul notEscape =>
      rw [RefusesAt, if_pos isNul, if_neg notEscape] at refuses
      omega
  | case5 start char size next nextSize chars notNul ih =>
      rw [RefusesAt, if_neg notNul] at refuses
      have later := ih refuses
      omega

section Behind

variable {range : Bytes} {position : Nat}

theorem characters_zero (utf8 : u8.ReadsUtf8) (isZero : range[position]? = some 0)
    : ∃ chars, characters u8 (range.drop position) = (some 0, 1) :: chars := by
  rw [Input.drop_eq_cons_of_getElem? isZero, characters_of_ne_nil (List.cons_ne_nil _ _),
    next_zero utf8]
  exact ⟨_, rfl⟩

theorem characters_one (utf8 : u8.ReadsUtf8) (isOne : range[position]? = some 1)
    : characters u8 (range.drop position)
      = (some 1, 1) :: characters u8 (range.drop (position + 1)) := by
  have next := (next_text utf8 1 (by decide) (range.drop (position + 1))).1
  rw [Input.drop_eq_cons_of_getElem? isOne, characters_of_ne_nil (List.cons_ne_nil _ _), next]
  rfl

theorem characters_other (utf8 : u8.ReadsUtf8) (notZero : range[position]? ≠ some 0)
    (notOne : range[position]? ≠ some 1) {char : Option Nat} {size : Nat}
    {chars : List (Option Nat × Nat)}
    (shape : characters u8 (range.drop position) = (char, size) :: chars)
    : char ≠ some 0 ∧ char ≠ some 1 := by
  have notEmpty : range.drop position ≠ [] := by
    intro isEmpty
    rw [isEmpty, characters_nil] at shape
    cases shape
  have found := utf8.found notEmpty
  rw [characters_of_ne_nil notEmpty] at shape
  rw [(List.cons.inj shape).1] at found
  rw [← List.head?_drop] at notZero notOne
  constructor
  · rintro rfl
    obtain ⟨-, -, rest, starts⟩ := found
    exact notZero (by rw [starts]; rfl)
  · rintro rfl
    obtain ⟨-, -, rest, starts⟩ := found
    exact notOne (by rw [starts]; rfl)

end Behind

/-- The loop fails with an error exactly where the characters are refused. -/
theorem untrustedLoop_error_iff (utf8 : u8.ReadsUtf8) {range : Bytes} {fuel k i : Nat}
    (within : i ≤ range.length) (enough : range.length < i + fuel)
    : (∃ message, untrustedLoop u8 range fuel k i = .error message)
      ↔ RefusesAt i (characters u8 (range.drop i)) := by
  induction fuel generalizing k i with
  | zero => omega
  | succ fuel ih =>
      by_cases inside : i < range.length
      · have advances := lt_behind u8 inside
        rw [characters_drop inside]
        rcases round_cases u8 range i with notNul | ⟨isNul, isEnd⟩ | ⟨isNul, isEscape⟩
          | ⟨isNul, notEnd, notEscape⟩
        · rw [untrustedLoop_char inside notNul, refusesAt_char notNul]
          change _ ↔ RefusesAt (behind u8 range i) _
          split
          next atLimit =>
            refine iff_of_false (by rintro ⟨_, ⟨⟩⟩) (fun refuses => ?_)
            have below := refusesAt_lt refuses
            omega
          next => exact ih (by omega) (by omega)
        · obtain ⟨chars, shape⟩ := characters_zero utf8 isEnd
          have accepts : ¬ RefusesAt i (u8.next (range.drop i) :: (some 0, 1) :: chars) := by
            rw [RefusesAt, if_pos isNul, if_neg (by decide)]
            exact fun refuses => refuses.1 rfl
          rw [untrustedLoop_end inside isNul isEnd, shape]
          refine iff_of_false ?_ accepts
          rintro ⟨message, failed⟩
          split at failed <;> cases failed
        · have bound := (List.getElem?_eq_some_iff.mp isEscape).1
          rw [untrustedLoop_escape inside isNul isEscape, characters_one utf8 isEscape, RefusesAt,
            if_pos isNul, if_pos rfl]
          change _ ↔ RefusesAt (behind u8 range i + 1) _
          split
          next atLimit =>
            refine iff_of_false (by rintro ⟨_, ⟨⟩⟩) (fun refuses => ?_)
            have below := refusesAt_lt refuses
            omega
          next =>
            rw [← ih (k := behind u8 range i + 1) (by omega) (by omega)]
            cases untrustedLoop u8 range fuel (behind u8 range i + 1) (behind u8 range i + 1) <;> simp
        · obtain ⟨message, loop⟩ := untrustedLoop_refuse (k := k) inside isNul notEnd notEscape fuel
          have refuses : RefusesAt i (u8.next (range.drop i)
              :: characters u8 (range.drop (behind u8 range i))) ↔ behind u8 range i < intLimit := by
            cases shape : characters u8 (range.drop (behind u8 range i)) with
            | nil => exact and_iff_right isNul
            | cons next chars =>
                have other := characters_other utf8 notEnd notEscape shape
                rw [RefusesAt, if_pos isNul, if_neg other.2]
                exact and_iff_right other.1
          rw [loop, refuses]
          split
          next atLimit => exact iff_of_false (by rintro ⟨_, ⟨⟩⟩) (not_lt.mpr atLimit)
          next below => exact iff_of_true ⟨message, rfl⟩ (not_le.mp below)
      · rw [untrustedLoop_succ, if_pos (not_lt.mp inside),
          List.drop_eq_nil_of_le (not_lt.mp inside), characters_nil]
        exact iff_of_false (by rintro ⟨_, ⟨⟩⟩) id

-- Texts that are not read back

/-- A mangled text that starts with the byte one starts with U+0001. -/
theorem exists_codes_of_one (utf8 : u8.ReadsUtf8) {codes : List Nat}
    (scalars : ∀ code ∈ codes, Utf8.Scalar code) {rest behind : Bytes}
    (starts : mangleString (Utf8.encodeAll codes) ++ rest = 1 :: behind)
    : ∃ others, codes = 1 :: others ∧ behind = mangleString (Utf8.encodeAll others) ++ rest := by
  cases codes with
  | nil => cases starts
  | cons code codes =>
      have scalar := scalars code (List.mem_cons_self ..)
      by_cases isZero : code = 0
      · subst isZero
        cases starts
      · rw [Utf8.encodeAll_cons,
          mangleString_append (fun byte => Utf8.ne_zero_of_mem_encode scalar isZero),
          List.append_assoc] at starts
        have read := utf8.encoded scalar (mangleString (Utf8.encodeAll codes) ++ rest)
        rw [starts, (next_text utf8 1 (by decide) behind).1] at read
        obtain rfl : 1 = code := Option.some.inj (congrArg Prod.fst read)
        exact ⟨codes, rfl, (List.cons.inj starts).2.symm⟩

/-- The loop gives no more bytes than the text has, and fewer if it cuts a code point. -/
theorem length_of_demangleChunks (utf8 : u8.ReadsUtf8) {codes : List Nat}
    (scalars : ∀ code ∈ codes, Utf8.Scalar code) {fuel : Nat} {pending rest text left : Bytes}
    (read : demangleChunks u8 fuel pending (mangleString (Utf8.encodeAll codes) ++ rest)
      = .ok (text, left))
    : text.length ≤ (pending ++ Utf8.encodeAll codes).length
      ∧ (text.length = (pending ++ Utf8.encodeAll codes).length →
          ∀ code ∈ codes, ¬ Truncated code) := by
  induction fuel generalizing codes pending text with
  | zero => cases read
  | succ fuel ih =>
      cases codes with
      | nil =>
          have ended : demangleChunks u8 (fuel + 1) pending (0 :: 0 :: rest) = .ok (text, left) := read
          rw [Input.demangleChunks_end utf8] at ended
          cases ended
          simp
      | cons code codes =>
          obtain ⟨scalar, others⟩ := List.forall_mem_cons.mp scalars
          by_cases isZero : code = 0
          · subst isZero
            have escaped : demangleChunks u8 (fuel + 1) pending
                (0 :: 1 :: (mangleString (Utf8.encodeAll codes) ++ rest)) = .ok (text, left) := read
            rw [Input.demangleChunks_zero utf8] at escaped
            obtain ⟨⟨more, remaining⟩, readMore, isText⟩ := Outcome.bind_eq_ok.mp escaped
            cases isText
            obtain ⟨shorter, notCut⟩ := ih others readMore
            simp only [List.nil_append, Utf8.encodeAll_cons, Utf8.encode_zero, List.length_append,
              List.length_cons] at shorter notCut ⊢
            refine ⟨by omega, fun same => List.forall_mem_cons.mpr ⟨?_, notCut (by omega)⟩⟩
            exact fun truncated => truncated.1 rfl
          · rw [Utf8.encodeAll_cons,
              mangleString_append (fun byte => Utf8.ne_zero_of_mem_encode scalar isZero),
              List.append_assoc] at read
            have encoded := List.length_pos_iff.mpr (Utf8.encode_ne_nil code)
            by_cases isNul : toUChar (some code) = 0
            · have notEmpty : Utf8.encode code ++ (mangleString (Utf8.encodeAll codes) ++ rest) ≠ [] :=
                List.append_ne_nil_of_left_ne_nil (Utf8.encode_ne_nil code) _
              rw [demangleChunks_succ notEmpty, utf8.encoded scalar] at read
              dsimp only at read
              rw [if_pos isNul, List.take_left, List.drop_left] at read
              split at read
              next =>
                cases read
                simp only [List.length_dropLast, List.length_append, Utf8.encodeAll_cons]
                exact ⟨by omega, fun same => by omega⟩
              next behind starts =>
                obtain ⟨⟨more, remaining⟩, readMore, isText⟩ := Outcome.bind_eq_ok.mp read
                cases isText
                obtain ⟨later, rfl, rfl⟩ := exists_codes_of_one utf8 others starts
                have shorter := (ih (List.forall_mem_cons.mp others).2 readMore).1
                have one : (Utf8.encode 1).length = 1 := rfl
                simp only [List.nil_append, Utf8.encodeAll_cons, List.length_append, one]
                  at shorter ⊢
                exact ⟨by omega, fun same => by omega⟩
              next => cases read
              next => cases read
            · rw [Input.demangleChunks_code utf8 scalar isNul] at read
              obtain ⟨shorter, notCut⟩ := ih others read
              rw [List.append_assoc, ← Utf8.encodeAll_cons] at shorter notCut
              refine ⟨shorter, fun same => List.forall_mem_cons.mpr ⟨?_, notCut same⟩⟩
              exact fun truncated => isNul truncated.2

-- Which ranges are read as they should be

/-- The ranges on which the functions do what they are for: those that start with a mangled text, short
enough for the index and without code points that are taken for zero; and of the others those that are
refused on account of a zero.
-/
def ReadsRight (u8 : U8Next) (range : Bytes) : Prop :=
  (∃ text, Legible text ∧ mangleString text <+: range ∧ (mangleString text).length < intLimit)
    ∨ ((¬ ∃ text, IsUtf8 text ∧ mangleString text <+: range)
        ∧ RefusesAt 0 (characters u8 range))

theorem isUtf8_of_legible {text : Bytes} (legible : Legible text) : IsUtf8 text := by
  obtain ⟨codes, allLegible, rfl⟩ := legible
  exact ⟨codes, fun code member => (allLegible code member).1, rfl⟩

theorem eq_of_mangled_prefix {left right range : Bytes} (isLeft : mangleString left <+: range)
    (isRight : mangleString right <+: range)
    : left = right := by
  obtain ⟨leftRest, leftSplit⟩ := isLeft
  obtain ⟨rightRest, rightSplit⟩ := isRight
  exact (mangleString_injective (leftSplit.trans rightSplit.symm)).1

theorem validate_eq_ok {range : Bytes} {size : Nat}
    : validateUntrustedString u8 range = .ok size
      ↔ ∃ text, untrustedChunks u8 range = .ok (text, size) := by
  unfold validateUntrustedString
  cases untrustedChunks u8 range with
  | ok result => simp [Prod.ext_iff, eq_comm]
  | error message => simp
  | undefined => simp

/-- What is read as a text of the range is one without code points that are taken for zero. -/
theorem legible_of_read (utf8 : u8.ReadsUtf8) {range text : Bytes} {size : Nat}
    (read : untrustedChunks u8 range = .ok (text, size)) (isUtf8 : IsUtf8 text)
    (mangled : mangleString text <+: range)
    : Legible text ∧ size < intLimit := by
  obtain ⟨codes, scalars, rfl⟩ := isUtf8
  obtain ⟨rest, rfl⟩ := mangled
  rw [untrustedChunks_eq utf8] at read
  rcases untrustedLoop_cases (mangleString (Utf8.encodeAll codes) ++ rest)
    ((mangleString (Utf8.encodeAll codes) ++ rest).length + 1) (k := 0) (i := 0) le_rfl with
    ⟨found, foundSize, -, -, demangled, loop⟩ | ⟨-, noLoop⟩
  · rw [loop] at read
    split at read
    next => cases read
    next below =>
      cases read
      have notCut := (length_of_demangleChunks utf8 scalars demangled).2 (by simp)
      exact ⟨⟨codes, fun code member => ⟨scalars code member, notCut code member⟩, rfl⟩,
        not_le.mp below⟩
  · exact absurd read (noLoop _)

/-- A text that the index can go over is read back. -/
theorem read_of_legible (utf8 : u8.ReadsUtf8) {range text : Bytes} (legible : Legible text)
    (mangled : mangleString text <+: range) (short : (mangleString text).length < intLimit)
    : untrustedChunks u8 range = .ok (text, (mangleString text).length) := by
  obtain ⟨codes, allLegible, rfl⟩ := legible
  obtain ⟨rest, rfl⟩ := mangled
  have enough : codes.length < (mangleString (Utf8.encodeAll codes) ++ rest).length + 1 := by
    have inText := Utf8.length_le_encodeAll codes
    have inMangled := length_le_mangleString (Utf8.encodeAll codes)
    rw [List.length_append]
    omega
  have expected := Input.demangleChunks_mangled utf8 allLegible enough [] rest
  rw [untrustedChunks_eq utf8]
  rcases untrustedLoop_cases (mangleString (Utf8.encodeAll codes) ++ rest)
    ((mangleString (Utf8.encodeAll codes) ++ rest).length + 1) (k := 0) (i := 0) le_rfl with
    ⟨found, size, -, within, demangled, loop⟩ | ⟨noRead, -⟩
  · rw [Nat.sub_self, List.take_zero, List.drop_zero, expected] at demangled
    obtain ⟨rfl, left⟩ := Prod.mk.inj (Outcome.ok.inj demangled)
    have sameLength := congrArg List.length left
    rw [List.length_drop, List.length_append] at sameLength
    rw [List.length_append] at within
    obtain rfl : size = (mangleString (Utf8.encodeAll codes)).length := by omega
    rw [loop, if_neg (not_le.mpr short)]
    rfl
  · exact absurd expected (noRead _)

theorem untrustedChunks_error_iff (u8 : U8Next) (utf8 : u8.ReadsUtf8) (range : Bytes)
    : (∃ message, untrustedChunks u8 range = .error message)
      ↔ RefusesAt 0 (characters u8 range) := by
  rw [untrustedChunks_eq utf8]
  exact untrustedLoop_error_iff utf8 (Nat.zero_le _) (by omega)

/-- Ranges that are read right are accepted when they are valid. -/
theorem reads_of_readsRight (u8 : U8Next) (utf8 : u8.ReadsUtf8) (range : Bytes)
    (right : ReadsRight u8 range)
    : ReadsMangled u8 range := by
  rcases right with ⟨text, legible, mangled, short⟩ | ⟨notMangled, refuses⟩
  · have read := read_of_legible utf8 legible mangled short
    have onlyText {other : Bytes} (isOther : mangleString other <+: range) : other = text :=
      eq_of_mangled_prefix isOther mangled
    refine ⟨fun size => ?_, fun other size => ?_, ?_⟩
    · rw [validate_eq_ok, read]
      constructor
      · rintro ⟨_, ⟨⟩⟩
        exact ⟨text, isUtf8_of_legible legible, mangled, rfl⟩
      · rintro ⟨other, -, isOther, rfl⟩
        rw [onlyText isOther]
        exact ⟨text, rfl⟩
    · rw [demangleUntrustedString, read]
      constructor
      · rintro ⟨⟩
        exact ⟨isUtf8_of_legible legible, mangled, rfl⟩
      · rintro ⟨-, isOther, rfl⟩
        rw [onlyText isOther]
    · rw [validateUntrustedString, demangleUntrustedString, read]
      exact ⟨by rintro ⟨⟩, by rintro ⟨⟩⟩
  · obtain ⟨message, failed⟩ := (untrustedChunks_error_iff u8 utf8 range).mpr refuses
    refine ⟨fun size => ?_, fun text size => ?_, ?_⟩
    · rw [validate_eq_ok, failed]
      refine iff_of_false (by rintro ⟨_, ⟨⟩⟩) ?_
      rintro ⟨text, isUtf8, mangled, -⟩
      exact notMangled ⟨text, isUtf8, mangled⟩
    · rw [demangleUntrustedString, failed]
      refine iff_of_false (by rintro ⟨⟩) ?_
      rintro ⟨isUtf8, mangled, -⟩
      exact notMangled ⟨text, isUtf8, mangled⟩
    · rw [validateUntrustedString, demangleUntrustedString, failed]
      exact ⟨by rintro ⟨⟩, by rintro ⟨⟩⟩

/-- Exactly on these ranges the untrusted strings are accepted when they are valid. -/
theorem readsMangled_iff (u8 : U8Next) (utf8 : u8.ReadsUtf8) (range : Bytes)
    : ReadsMangled u8 range ↔ ReadsRight u8 range := by
  constructor
  · intro reads
    by_cases isMangled : ∃ text, IsUtf8 text ∧ mangleString text <+: range
    · obtain ⟨text, isUtf8, mangled⟩ := isMangled
      have read := (reads.demangles text _).mpr ⟨isUtf8, mangled, rfl⟩
      obtain ⟨legible, short⟩ := legible_of_read utf8 read isUtf8 mangled
      exact .inl ⟨text, legible, mangled, short⟩
    · refine .inr ⟨isMangled, (untrustedChunks_error_iff u8 utf8 range).mp ?_⟩
      cases outcome : untrustedChunks u8 range with
      | ok result =>
          obtain ⟨isUtf8, mangled, -⟩ := (reads.demangles result.1 result.2).mp outcome
          exact absurd ⟨result.1, isUtf8, mangled⟩ isMangled
      | error message => exact ⟨message, rfl⟩
      | undefined => exact absurd outcome reads.inside.2
  · exact reads_of_readsRight u8 utf8 range

/-- The letter `a`, terminated. -/
theorem readsMangled_iff_letter : ReadsMangled U8Next.icu [97, 0, 0] := by
  refine (readsMangled_iff U8Next.icu U8Next.icu_readsUtf8 [97, 0, 0]).mpr
    (.inl ⟨[97], ⟨[97], by simp [Utf8.Scalar, Truncated], rfl⟩, List.prefix_refl _, by decide⟩)

/-- The byte `0x80` without a terminator is not refused: the loop reads on behind the range. -/
theorem readsMangled_not_unterminated : ¬ ReadsMangled U8Next.icu [0x80] := by
  intro reads
  exact reads.inside.1 (by decide)

end Glean.RTS.UntrustedString
