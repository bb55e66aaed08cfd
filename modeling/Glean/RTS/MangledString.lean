import Glean.Library.PrefixCode
import Glean.Library.Utf8
import Glean.RTS.Input

/-! Mangled strings (`string.cpp`): a zero byte of the text is followed by a one, and two zeros
end the string.
-/

namespace Glean.RTS

/-- `mangleString` -/
def mangleString : Bytes → Bytes
  | [] => [0, 0]
  | byte :: rest => if byte = 0 then 0 :: 1 :: mangleString rest else byte :: mangleString rest

namespace Input

/-- The loop of `untrustedChunks` with the chunks put together, as `demangleUntrustedString` does:
`pending` is the chunk that is being read, from `k` to `i`. The result is the text and the input
behind the string.
-/
def demangleChunks (u8 : U8Next) : Nat → Bytes → Bytes → Outcome (Bytes × Bytes)
  | 0, _, _ => .undefined
  | _ + 1, _, [] => .undefined
  | fuel + 1, pending, byte :: suffix =>
      let (codePoint, advance) := u8.next (byte :: suffix)
      let pending := pending ++ (byte :: suffix).take advance
      if toUChar codePoint = 0 then
        match (byte :: suffix).drop advance with
        | 0 :: rest => .ok (pending.dropLast, rest)
        | 1 :: rest => do
            let (text, rest) ← demangleChunks u8 fuel [] rest
            return (pending ++ text, rest)
        | _ :: _ => .error "invalid NUL in mangled string"
        | [] => .error "truncated terminator in mangled string"
      else
        demangleChunks u8 fuel pending ((byte :: suffix).drop advance)

/-- The bytes that the fast path of `untrustedChunks` goes over. -/
def IsText (byte : Byte) : Prop := 0 < byte ∧ byte < 0x80

instance (byte : Byte) : Decidable (IsText byte) := inferInstanceAs (Decidable (_ ∧ _))

/-- `demangleUntrustedString` -/
def demangleUntrustedString (u8 : U8Next) (range : Bytes) : Outcome (Bytes × Bytes) :=
  let ascii := range.takeWhile (fun byte => IsText byte)
  match range.drop ascii.length with
  | 0 :: 0 :: rest => .ok (ascii, rest)
  | suffix => demangleChunks u8 (range.length + 1) ascii suffix

end Input

/-- What is documented of `U8_NEXT`: it reads the encoding of a code point, a code point is read
from its encoding only, and what is ill-formed is skipped up to the next character, so that no
ASCII character is skipped with it.
-/
structure U8Next.ReadsUtf8 (u8 : U8Next) : Prop where
  encoded
    : ∀ {code}, Utf8.Scalar code → ∀ rest,
        u8.next (Utf8.encode code ++ rest) = (some code, (Utf8.encode code).length)
  found : ∀ {bytes}, bytes ≠ [] → Utf8.Found bytes (u8.next bytes)

/-- `U8_NEXT` -/
def U8Next.icu : U8Next where
  next := Utf8.next
  advances := Utf8.next_advances
  until_zero := Utf8.next_until_zero

theorem U8Next.icu_readsUtf8 : U8Next.icu.ReadsUtf8 where
  encoded := Utf8.next_encode_append
  found := fun _ => Utf8.next_found _

/-- The code points that `UChar` takes for zero. -/
def Truncated (code : Nat) : Prop := code ≠ 0 ∧ code % 2 ^ 16 = 0

/-- A text in UTF-8 without code points that are taken for zero. -/
def Legible (text : Bytes) : Prop :=
  ∃ codes, (∀ code ∈ codes, Utf8.Scalar code ∧ ¬ Truncated code) ∧ text = Utf8.encodeAll codes

theorem mangleString_append {text : Bytes} (noZero : ∀ byte ∈ text, byte ≠ 0) (rest : Bytes)
    : mangleString (text ++ rest) = text ++ mangleString rest := by
  induction text with
  | nil => rfl
  | cons byte text ih =>
      obtain ⟨notZero, noZero⟩ := List.forall_mem_cons.mp noZero
      rw [List.cons_append, mangleString, if_neg notZero, ih noZero, List.cons_append]

theorem length_le_mangleString (text : Bytes) : text.length ≤ (mangleString text).length := by
  induction text with
  | nil => simp [mangleString]
  | cons byte text ih =>
      rw [mangleString]
      split <;> simp only [List.length_cons] <;> omega

/-- Mangled strings are ordered as their texts, by induction on the first of two texts: a text that
ends has its terminator where the other one has a byte, or a zero with a one behind it.
-/
theorem mangleString_ordered : PrefixCode.Ordered mangleString := by
  intro left right less
  induction left generalizing right with
  | nil =>
      cases right with
      | nil => exact absurd less (lt_irrefl _)
      | cons byte right =>
          rw [mangleString, mangleString]
          split
          next => exact .later 0 (.here (by decide))
          next notZero => exact .here (Fin.pos_iff_ne_zero.mpr notZero)
  | cons leftByte left ih =>
      cases right with
      | nil => exact absurd less (List.not_lt_nil _)
      | cons rightByte right =>
          rw [mangleString, mangleString]
          rcases List.cons_lt_cons_iff.mp less with lower | ⟨rfl, later⟩
          · have notZero : rightByte ≠ 0 := ((Fin.zero_le leftByte).trans_lt lower).ne'
            rw [if_neg notZero]
            split
            next isZero => exact .here (isZero ▸ lower)
            next => exact .here lower
          · have below := ih right later
            split
            next => exact .later 0 (.later 1 below)
            next => exact .later leftByte below

/-- A mangled string is no prefix of another one. -/
theorem mangleString_injective {left right leftRest rightRest : Bytes}
    (same : mangleString left ++ leftRest = mangleString right ++ rightRest)
    : left = right ∧ leftRest = rightRest :=
  mangleString_ordered.prefixFree.split same

namespace Input

variable {u8 : U8Next}

theorem drop_eq_cons_of_getElem? {range : Bytes} {position : Nat} {byte : Byte}
    (found : range[position]? = some byte)
    : range.drop position = byte :: range.drop (position + 1) := by
  obtain ⟨inside, rfl⟩ := List.getElem?_eq_some_iff.mp found
  exact List.drop_eq_getElem_cons inside

/-- The loop reads the same bytes whether it gives the text or not. -/
theorem demangleChunks_skips (range : Bytes) (fuel position : Nat) (pending : Bytes)
    : (demangleChunks u8 fuel pending (range.drop position) >>= fun result => .ok result.2)
      = chunks u8 range position fuel >>= fun size => .ok (range.drop size) := by
  induction fuel generalizing position pending with
  | zero => rfl
  | succ fuel ih =>
      rw [chunks_succ]
      by_cases outside : range.length ≤ position
      · rw [if_pos outside, List.drop_eq_nil_of_le outside]
        rfl
      · rw [if_neg outside]
        obtain ⟨byte, suffix, shape⟩ :=
          List.exists_cons_of_ne_nil (List.drop_eq_nil_iff.not.mpr outside)
        have behind (advance : Nat) : (byte :: suffix).drop advance
            = range.drop (position + advance) := by
          rw [← shape, List.drop_drop]
        rw [shape, demangleChunks]
        generalize u8.next (byte :: suffix) = next
        obtain ⟨codePoint, advance⟩ := next
        dsimp only
        rw [behind]
        split
        next =>
          split
          next rest isEnd =>
            have found : range[position + advance]? = some 0 := by
              rw [← List.head?_drop, isEnd]
              rfl
            have left := drop_eq_cons_of_getElem? found
            rw [isEnd] at left
            simp [found, (List.cons.inj left).2]
          next rest isEscape =>
            have found : range[position + advance]? = some 1 := by
              rw [← List.head?_drop, isEscape]
              rfl
            have left := drop_eq_cons_of_getElem? found
            rw [isEscape] at left
            have skips := ih (position + advance + 1) []
            rw [← (List.cons.inj left).2] at skips
            simp only [found]
            rw [← skips]
            simp
          next other rest notEnd notEscape isOther =>
            have found : range[position + advance]? = some other := by
              rw [← List.head?_drop, isOther]
              rfl
            rw [found]
            split
            next isZero => exact (notEnd (Option.some.inj isZero)).elim
            next isOne => exact (notEscape (Option.some.inj isOne)).elim
            next => rfl
            next isNone => cases isNone
          next isNil =>
            have missing : range[position + advance]? = none := by
              rw [← List.head?_drop, isNil]
              rfl
            simp [missing]
        next => exact ih (position + advance) _

end Input

namespace Input

variable {u8 : U8Next}

theorem scalar_zero : Utf8.Scalar 0 := .inl (by decide)

/-- Reading a zero that ends the string. -/
theorem demangleChunks_end (utf8 : u8.ReadsUtf8) (fuel : Nat) (pending rest : Bytes)
    : demangleChunks u8 (fuel + 1) pending (0 :: 0 :: rest) = .ok (pending, rest) := by
  have read : u8.next (0 :: 0 :: rest) = (some 0, 1) := utf8.encoded scalar_zero (0 :: rest)
  simp [demangleChunks, read, toUChar]

/-- Reading a zero of the text. -/
theorem demangleChunks_zero (utf8 : u8.ReadsUtf8) (fuel : Nat) (pending rest : Bytes)
    : demangleChunks u8 (fuel + 1) pending (0 :: 1 :: rest)
      = demangleChunks u8 fuel [] rest >>= fun result =>
          .ok (pending ++ 0 :: result.1, result.2) := by
  have read : u8.next (0 :: 1 :: rest) = (some 0, 1) := utf8.encoded scalar_zero (1 :: rest)
  simp [demangleChunks, read, toUChar]

/-- Reading a code point that is not taken for zero. -/
theorem demangleChunks_code (utf8 : u8.ReadsUtf8) {code : Nat} (scalar : Utf8.Scalar code)
    (notZero : code % 2 ^ 16 ≠ 0) (fuel : Nat) (pending rest : Bytes)
    : demangleChunks u8 (fuel + 1) pending (Utf8.encode code ++ rest)
      = demangleChunks u8 fuel (pending ++ Utf8.encode code) rest := by
  have read := utf8.encoded scalar rest
  obtain ⟨byte, others, shape⟩ := List.exists_cons_of_ne_nil (Utf8.encode_ne_nil code)
  have taken : (Utf8.encode code ++ rest).take (Utf8.encode code).length = Utf8.encode code :=
    List.take_left
  have left : (Utf8.encode code ++ rest).drop (Utf8.encode code).length = rest :=
    List.drop_left
  rw [shape, List.cons_append] at read taken left ⊢
  rw [demangleChunks, read]
  simp only [toUChar, if_neg notZero, taken, left]

theorem demangleChunks_mangled (utf8 : u8.ReadsUtf8) {codes : List Nat}
    (legible : ∀ code ∈ codes, Utf8.Scalar code ∧ ¬ Truncated code) {fuel : Nat}
    (enough : codes.length < fuel) (pending rest : Bytes)
    : demangleChunks u8 fuel pending (mangleString (Utf8.encodeAll codes) ++ rest)
      = .ok (pending ++ Utf8.encodeAll codes, rest) := by
  induction codes generalizing fuel pending with
  | nil =>
      obtain ⟨fuel, rfl⟩ : ∃ more, fuel = more + 1 := ⟨fuel - 1, by simp at enough; omega⟩
      simpa [mangleString] using demangleChunks_end utf8 fuel pending rest
  | cons code codes ih =>
      obtain ⟨⟨scalar, notTruncated⟩, others⟩ := List.forall_mem_cons.mp legible
      obtain ⟨fuel, rfl⟩ : ∃ more, fuel = more + 1 := ⟨fuel - 1, by simp at enough; omega⟩
      have left : codes.length < fuel := by simpa using enough
      by_cases isZero : code = 0
      · subst isZero
        simp only [Utf8.encodeAll_cons, Utf8.encode_zero, mangleString, if_true,
          List.cons_append, List.nil_append]
        rw [demangleChunks_zero utf8, ih others left, Outcome.ok_bind, List.nil_append]
      · have notZero : code % 2 ^ 16 ≠ 0 := fun small => notTruncated ⟨isZero, small⟩
        rw [Utf8.encodeAll_cons,
          mangleString_append (fun byte => Utf8.ne_zero_of_mem_encode scalar isZero),
          List.append_assoc, demangleChunks_code utf8 scalar notZero, ih others left,
          List.append_assoc]

theorem takeWhile_isText {ascii suffix : Bytes} (isAscii : ∀ byte ∈ ascii, IsText byte)
    (notAscii : ∀ byte ∈ suffix.head?, ¬ IsText byte)
    : (ascii ++ suffix).takeWhile (fun byte => decide (IsText byte)) = ascii := by
  have stops : suffix.takeWhile (fun byte => decide (IsText byte)) = [] := by
    cases suffix with
    | nil => rfl
    | cons byte suffix =>
        exact List.takeWhile_cons_of_neg (by simpa using notAscii byte rfl)
  rw [List.takeWhile_append_of_pos (fun byte member => by simpa using isAscii byte member),
    stops, List.append_nil]

/-- The fast path: ASCII characters up to the end of the string. -/
theorem demangleUntrustedString_fast {ascii : Bytes} (isAscii : ∀ byte ∈ ascii, IsText byte)
    (rest : Bytes)
    : demangleUntrustedString u8 (ascii ++ 0 :: 0 :: rest) = .ok (ascii, rest) := by
  have stops : ∀ byte ∈ (0 :: 0 :: rest : Bytes).head?, ¬ IsText byte := by
    rintro byte ⟨⟩
    decide
  simp only [demangleUntrustedString, takeWhile_isText isAscii stops, List.drop_left]

/-- The other path: the loop starts behind the leading ASCII characters. -/
theorem demangleUntrustedString_slow {ascii suffix : Bytes}
    (isAscii : ∀ byte ∈ ascii, IsText byte)
    (notAscii : ∀ byte ∈ suffix.head?, ¬ IsText byte)
    (notEnd : ∀ rest, suffix ≠ 0 :: 0 :: rest)
    : demangleUntrustedString u8 (ascii ++ suffix)
      = demangleChunks u8 ((ascii ++ suffix).length + 1) ascii suffix := by
  unfold demangleUntrustedString
  dsimp only
  rw [takeWhile_isText isAscii notAscii, List.drop_left]
  split
  next rest => exact absurd rfl (notEnd rest)
  next => rfl

/-- A range is ASCII characters and something else. -/
theorem exists_ascii (range : Bytes)
    : ∃ ascii suffix, range = ascii ++ suffix ∧ (∀ byte ∈ ascii, IsText byte)
        ∧ ∀ byte ∈ suffix.head?, ¬ IsText byte := by
  induction range with
  | nil => exact ⟨[], [], rfl, by simp, by simp⟩
  | cons byte range ih =>
      by_cases isText : IsText byte
      · obtain ⟨ascii, suffix, rfl, isAscii, notAscii⟩ := ih
        exact ⟨byte :: ascii, suffix, rfl, List.forall_mem_cons.mpr ⟨isText, isAscii⟩, notAscii⟩
      · exact ⟨[], byte :: range, rfl, by simp, by simpa using isText⟩

/-- The leading ASCII characters of a text. -/
theorem exists_ascii_codes {codes : List Nat}
    (legible : ∀ code ∈ codes, Utf8.Scalar code ∧ ¬ Truncated code)
    : ∃ ascii others, Utf8.encodeAll codes = ascii ++ Utf8.encodeAll others
        ∧ (∀ byte ∈ ascii, IsText byte) ∧ (∀ code ∈ others, code ∈ codes)
        ∧ ∀ code ∈ others.head?, code = 0 ∨ 0x80 ≤ code := by
  induction codes with
  | nil => exact ⟨[], [], rfl, by simp, by simp, by simp⟩
  | cons code codes ih =>
      by_cases isText : code ≠ 0 ∧ code < 0x80
      · obtain ⟨ascii, others, split, isAscii, sub, notAscii⟩ :=
          ih (List.forall_mem_cons.mp legible).2
        refine ⟨Fin.ofNat 256 code :: ascii, others, ?_, ?_, ?_, notAscii⟩
        · rw [Utf8.encodeAll_cons, Utf8.encode_ascii isText.2, split]
          rfl
        · refine List.forall_mem_cons.mpr ⟨?_, isAscii⟩
          change 0 < code % 256 ∧ code % 256 < 128
          omega
        · exact fun other member => List.mem_cons_of_mem _ (sub other member)
      · refine ⟨[], code :: codes, rfl, by simp, fun _ member => member, ?_⟩
        rintro other ⟨⟩
        omega

/-- Demangling gives back a legible text. -/
theorem demangleUntrustedString_mangleString (utf8 : u8.ReadsUtf8) {text : Bytes}
    (legible : Legible text) (rest : Bytes)
    : demangleUntrustedString u8 (mangleString text ++ rest) = .ok (text, rest) := by
  obtain ⟨codes, allLegible, rfl⟩ := legible
  obtain ⟨ascii, others, split, isAscii, sub, notAscii⟩ := exists_ascii_codes allLegible
  have noZero : ∀ byte ∈ ascii, byte ≠ 0 := fun byte member => by
    rintro rfl
    exact absurd (isAscii 0 member) (by decide)
  rw [split, mangleString_append noZero, List.append_assoc]
  cases others with
  | nil =>
      rw [Utf8.encodeAll_nil, List.append_nil]
      exact demangleUntrustedString_fast isAscii rest
  | cons code others =>
      have legible := fun code member => allLegible code (sub code member)
      have isSlow : (∀ byte ∈ (mangleString (Utf8.encodeAll (code :: others)) ++ rest).head?,
            ¬ IsText byte)
          ∧ ∀ after, mangleString (Utf8.encodeAll (code :: others)) ++ rest ≠ 0 :: 0 :: after := by
        rcases notAscii code rfl with rfl | high
        · simp only [Utf8.encodeAll_cons, Utf8.encode_zero, mangleString, if_true,
            List.cons_append, List.nil_append]
          refine ⟨?_, by simp⟩
          rintro byte ⟨⟩
          decide
        · obtain ⟨byte, bytes, shape⟩ := List.exists_cons_of_ne_nil (Utf8.encode_ne_nil code)
          have scalar := (legible code (List.mem_cons_self ..)).1
          have isHigh : 0x80 ≤ byte.val :=
            Utf8.high_of_mem_encode scalar high (by rw [shape]; exact List.mem_cons_self ..)
          have notZero : byte ≠ 0 := by
            rintro rfl
            simp at isHigh
          rw [Utf8.encodeAll_cons, shape, List.cons_append, mangleString, if_neg notZero]
          refine ⟨?_, fun after same => notZero (List.cons.inj same).1⟩
          rintro first ⟨⟩ isText
          exact absurd isHigh (not_le.mpr isText.2)
      have enough : (code :: others).length
          < (ascii ++ (mangleString (Utf8.encodeAll (code :: others)) ++ rest)).length + 1 := by
        have inText := Utf8.length_le_encodeAll (code :: others)
        have inMangled := length_le_mangleString (Utf8.encodeAll (code :: others))
        simp only [List.length_append]
        omega
      rw [demangleUntrustedString_slow isAscii isSlow.1 isSlow.2,
        demangleChunks_mangled utf8 legible enough]

/-- The loop has cut a code point that it took for zero, or left out the byte behind it. -/
def Cut (text : Bytes) : Prop :=
  ∃ before code after, Utf8.Scalar code ∧ Truncated code
    ∧ (text = before ++ Utf8.encode code ++ after ∨ text = before ++ (Utf8.encode code).dropLast)

theorem Cut.append {text : Bytes} (cut : Cut text) (before : Bytes) : Cut (before ++ text) := by
  obtain ⟨middle, code, after, scalar, truncated, isCut⟩ := cut
  refine ⟨before ++ middle, code, after, scalar, truncated, ?_⟩
  rcases isCut with rfl | rfl
  · exact .inl (by simp)
  · exact .inr (by simp)

/-- Legible texts are not cut, since the first byte of four starts a code point. -/
theorem not_cut_of_legible (utf8 : u8.ReadsUtf8) {text : Bytes} (legible : Legible text)
    : ¬ Cut text := by
  rintro ⟨before, code, after, scalar, truncated, isCut⟩
  obtain ⟨codes, allLegible, rfl⟩ := legible
  have large : 0x10000 ≤ code := by
    obtain ⟨notZero, isMultiple⟩ := truncated
    omega
  obtain ⟨first, second, third, fourth, shape, lead⟩ := Utf8.encode_four scalar large
  rcases isCut with whole | short
  · have split : Utf8.encodeAll codes
        = before ++ first :: (second :: third :: fourth :: after) := by
      rw [whole, shape]
      simp
    obtain ⟨found, member, rest, starts⟩ := Utf8.exists_of_lead lead split
    obtain ⟨foundScalar, notTruncated⟩ := allLegible found member
    have read := utf8.encoded foundScalar rest
    have readCode := utf8.encoded scalar after
    rw [shape, List.cons_append, List.cons_append, List.cons_append, List.cons_append,
      List.nil_append, starts, read] at readCode
    obtain rfl : found = code := by simpa using congrArg Prod.fst readCode
    exact notTruncated truncated
  · have split : Utf8.encodeAll codes = before ++ first :: [second, third] := by
      rw [short, shape]
      rfl
    obtain ⟨found, member, rest, starts⟩ := Utf8.exists_of_lead lead split
    have four := Utf8.length_of_head_encode lead starts
    have length := congrArg List.length starts
    simp only [List.length_cons, List.length_nil, List.length_append, four] at length
    omega

/-- What the loop reads is the mangled form of what it gives, if it cuts no code point. -/
theorem demangleChunks_cases (utf8 : u8.ReadsUtf8) {fuel : Nat}
    {pending suffix text rest : Bytes}
    (read : demangleChunks u8 fuel pending suffix = .ok (text, rest))
    : (∃ more, text = pending ++ more ∧ suffix = mangleString more ++ rest) ∨ Cut text := by
  induction fuel generalizing pending suffix text with
  | zero => cases read
  | succ fuel ih =>
      cases suffix with
      | nil => cases read
      | cons byte suffix =>
          have found := utf8.found (List.cons_ne_nil byte suffix)
          rw [demangleChunks] at read
          generalize u8.next (byte :: suffix) = next at found read
          obtain ⟨codePoint, advance⟩ := next
          -- a piece without zeros is copied
          have copies (noZero : ∀ piece ∈ (byte :: suffix).take advance, piece ≠ 0)
              (read : demangleChunks u8 fuel (pending ++ (byte :: suffix).take advance)
                ((byte :: suffix).drop advance) = .ok (text, rest))
              : (∃ more, text = pending ++ more ∧ byte :: suffix = mangleString more ++ rest)
                ∨ Cut text := by
            refine (ih read).imp_left ?_
            rintro ⟨more, rfl, left⟩
            refine ⟨(byte :: suffix).take advance ++ more, by simp, ?_⟩
            rw [mangleString_append noZero, List.append_assoc, ← left, List.take_append_drop]
          cases codePoint with
          | none =>
              refine copies (fun piece member => ?_) read
              rintro rfl
              simpa using found 0 member
          | some code =>
              obtain ⟨scalar, rfl, after, shape⟩ := found
              rw [shape, List.take_left, List.drop_left] at copies
              simp only [toUChar, shape, List.take_left, List.drop_left] at read
              split at read
              next isZero =>
                by_cases notTruncated : code = 0
                · subst notTruncated
                  rw [Utf8.encode_zero] at shape read
                  split at read
                  next rest =>
                    cases read
                    exact .inl ⟨[], by simp, by simpa [mangleString] using shape⟩
                  next left =>
                    obtain ⟨⟨others, remaining⟩, readOthers, isText⟩ := Outcome.bind_eq_ok.mp read
                    cases isText
                    rcases ih readOthers with ⟨more, isMore, rfl⟩ | cut
                    · obtain rfl : others = more := isMore
                      exact .inl ⟨0 :: others, by simp, by simpa [mangleString] using shape⟩
                    · exact .inr (cut.append _)
                  next => cases read
                  next => cases read
                · have truncated : Truncated code := ⟨notTruncated, isZero⟩
                  refine .inr ?_
                  split at read
                  next rest =>
                    cases read
                    refine ⟨pending, code, [], scalar, truncated, .inr ?_⟩
                    rw [List.dropLast_append_of_ne_nil (Utf8.encode_ne_nil code)]
                  next left =>
                    obtain ⟨⟨others, remaining⟩, readOthers, isText⟩ := Outcome.bind_eq_ok.mp read
                    cases isText
                    exact ⟨pending, code, others, scalar, truncated, .inl rfl⟩
                  next => cases read
                  next => cases read
              next notZero =>
                rw [shape]
                refine copies (fun piece => Utf8.ne_zero_of_mem_encode scalar ?_) read
                rintro rfl
                exact notZero rfl

/-- A string that is read as a legible text is the mangled text. -/
theorem eq_mangleString_of_demangle (utf8 : u8.ReadsUtf8) {input text rest : Bytes}
    (read : demangleUntrustedString u8 input = .ok (text, rest)) (legible : Legible text)
    : input = mangleString text ++ rest := by
  obtain ⟨ascii, suffix, rfl, isAscii, notAscii⟩ := exists_ascii input
  have noZero : ∀ byte ∈ ascii, byte ≠ 0 := fun byte member => by
    rintro rfl
    exact absurd (isAscii 0 member) (by decide)
  by_cases isEnd : ∃ after, suffix = 0 :: 0 :: after
  · obtain ⟨after, rfl⟩ := isEnd
    rw [demangleUntrustedString_fast isAscii] at read
    cases read
    have mangled := mangleString_append noZero []
    rw [List.append_nil] at mangled
    rw [mangled, List.append_assoc]
    rfl
  · rw [demangleUntrustedString_slow isAscii notAscii
      (fun after same => isEnd ⟨after, same⟩)] at read
    rcases demangleChunks_cases utf8 read with ⟨more, rfl, rfl⟩ | cut
    · rw [mangleString_append noZero, List.append_assoc]
    · exact absurd cut (not_cut_of_legible utf8 legible)

end Input

end Glean.RTS
