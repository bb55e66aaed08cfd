import Mathlib.Data.List.TakeWhile
import Glean.Library.Utf8
import Glean.Util.LineOffsets

/-! Ranges of lines and columns, and the ranges of bytes that they stand for
(`Glean.Util.Range`).
-/

namespace Glean.Util
open Utf8

/-- `Src.File`: a reference to a fact, with its key where it was expanded. -/
structure File where
  id : Nat
  key : Option String
  deriving DecidableEq

/-- `Src.Range`, where lines and columns count from one and the end is inclusive. -/
structure SrcRange where
  file : File
  lineBegin : Nat
  columnBegin : Nat
  lineEnd : Nat
  columnEnd : Nat
  deriving DecidableEq

structure ByteRange where
  begin : Nat
  length : Nat
  deriving DecidableEq

/-- `byteRangeExclusiveEnd` -/
def ByteRange.exclusiveEnd (range : ByteRange) : Nat := range.begin + range.length

/-- `prevNat` -/
def prevNat (n : Nat) : Nat := max 1 n - 1

/-- `srcRangeToAdjustedByteRange`, given how a line and a column are converted to bytes. -/
def srcRangeToAdjustedByteRange (charToByteCol : Nat → Nat → Option Nat) (lineOffsets : List Nat)
    (range : SrcRange)
    : Option ByteRange := do
  let lineBegin := prevNat range.lineBegin
  let lineEnd := prevNat range.lineEnd
  let colBegin := prevNat range.columnBegin
  let colEnd := prevNat range.columnEnd
  let begin := (← lineOffsets[lineBegin]?) + (← charToByteCol lineBegin colBegin)
  let inclusiveEnd := (← lineOffsets[lineEnd]?) + (← charToByteCol lineEnd colEnd)
  let length := if begin ≤ inclusiveEnd then inclusiveEnd - begin + 1 else 0
  return ⟨begin, length⟩

/-- `srcRangeToSimpleByteRange` -/
def srcRangeToSimpleByteRange (offsets : LineOffsets) (range : SrcRange) : Option ByteRange :=
  srcRangeToAdjustedByteRange (fun _ col => some col) offsets.lineOffsets range

/-- `byteRangeToRange` -/
def byteRangeToRange (file : File) (offsets : LineOffsets) (range : ByteRange)
    : Option SrcRange := do
  let inclusiveEnd := max 1 range.exclusiveEnd - 1
  let (lineBegin, columnBegin) ← byteOffsetToLineCol offsets range.begin
  let (lineEnd, columnEnd) ← byteOffsetToLineCol offsets inclusiveEnd
  return ⟨file, lineBegin, columnBegin + 1, lineEnd, columnEnd + 1⟩

/-- `B.lines` -/
def lines : ByteString → List ByteString
  | [] => []
  | byte :: rest =>
      if byte = newline then
        [] :: lines rest
      else
        match lines rest with
        | [] => [[byte]]
        | line :: others => (byte :: line) :: others

section Decoding

variable (uncons : ByteString → Option (Nat × ByteString))

/-- The loop of `charOffsets`. Each character takes a byte at least, which bounds its rounds. -/
def charOffsetsFrom : Nat → Nat → ByteString → List Nat
  | 0, _, _ => []
  | fuel + 1, off, rest =>
      match uncons rest with
      | none => []
      | some (_, more) =>
          let newOffset := off + rest.length - more.length
          newOffset :: charOffsetsFrom fuel newOffset more

/-- `charOffsets`: where each character of a line begins, and where the line ends. -/
def charOffsets (line : ByteString) : List Nat := 0 :: charOffsetsFrom uncons line.length 0 line

/-- `charToByteCol` -/
def charToByteCol (hasUnicodeOrTabs : Bool) (contents : ByteString) (line col : Nat)
    : Option Nat :=
  if hasUnicodeOrTabs then do
    let offsets ← ((lines contents).map (charOffsets uncons))[line]?
    -- a column beyond the line is clamped to its end
    if col < offsets.length then offsets[col]? else offsets[offsets.length - 1]?
  else
    some col

/-- `srcRangeToByteRange` -/
def srcRangeToByteRange (flk : FileLines) (contents : ByteString) (range : SrcRange)
    : Option ByteRange :=
  let offsets := lengthsToLineOffsets flk
  srcRangeToAdjustedByteRange (charToByteCol uncons offsets.hasUnicodeOrTabs contents)
    offsets.lineOffsets range

/-- `UTF8.uncons` takes the first character off a text. -/
structure DecodesUtf8 : Prop where
  nil : uncons [] = none
  char : ∀ code rest, Scalar code → uncons (encode code ++ rest) = some (code, rest)

end Decoding

/-- What stands before a line. -/
def Ended {α : Type} (newline : α) (before : List α) : Prop :=
  before = [] ∨ before.getLast? = some newline

/-- Of a text, the character at a line and a column: what stands before its line, before it on its
line, and after it.
-/
structure CharAt (chars : List Nat) (line column : Nat) (before current : List Nat) (code : Nat)
    (after : List Nat) : Prop where
  split : chars = before ++ (current ++ code :: after)
  ended : Ended 10 before
  sameLine : 10 ∉ current
  lineIs : line = before.count 10 + 1
  columnIs : column = current.length + 1

/-- The bytes from a character, given what stands before it, to another one. -/
def charBytes (passed passedLast : List Nat) (last : Nat) : ByteRange :=
  ⟨(encodeAll passed).length,
    (encodeAll (passedLast ++ [last])).length - (encodeAll passed).length⟩

theorem Ended.of_cons {α : Type} {newline first : α} {before : List α}
    (ended : Ended newline (first :: before))
    : Ended newline before ∧ (before = [] → first = newline) := by
  rcases ended with none | last
  · cases none
  · cases before with
    | nil => exact ⟨.inl rfl, fun _ => Option.some.inj last⟩
    | cons next before =>
        rw [List.getLast?_cons_cons] at last
        exact ⟨.inr last, fun isNil => by cases isNil⟩

theorem Ended.count_pos {α : Type} [DecidableEq α] {newline : α} {before : List α}
    (ended : Ended newline before) (notEmpty : before ≠ [])
    : 0 < before.count newline :=
  List.count_pos_iff.mpr (List.mem_of_getLast? (ended.resolve_left notEmpty))

theorem lineStarts_split {before : ByteString} (rest : ByteString) (start : Nat)
    (ended : Ended newline before)
    : (lineStarts start (before ++ rest))[before.count newline]?
      = some (start + before.length) := by
  induction before generalizing start with
  | nil => rfl
  | cons byte before ih =>
      obtain ⟨ended, single⟩ := ended.of_cons
      have later := ih (start + 1) ended
      have length : start + 1 + before.length = start + (byte :: before).length := by
        rw [List.length_cons]
        omega
      rw [length] at later
      by_cases first : byte = newline
      · simpa [lineStarts, newlinesFrom, first] using later
      · have positive := ended.count_pos (mt single first)
        rw [lineStarts, List.getElem?_cons, if_neg (Nat.ne_of_gt positive)] at later
        simpa [lineStarts, newlinesFrom, first, List.getElem?_cons, Nat.ne_of_gt positive]
          using later

theorem lines_line {line rest : ByteString} (sameLine : newline ∉ line)
    (ended : rest = [] ∨ rest.head? = some newline) (notEmpty : line ++ rest ≠ [])
    : ∃ others, lines (line ++ rest) = line :: others := by
  induction line with
  | nil =>
      cases rest with
      | nil => exact absurd rfl notEmpty
      | cons byte rest =>
          have isNewline : byte = newline := by simpa using ended
          exact ⟨lines rest, by simp [lines, isNewline]⟩
  | cons byte line ih =>
      rw [List.mem_cons, not_or] at sameLine
      rw [List.cons_append, lines, if_neg (Ne.symm sameLine.1)]
      by_cases last : line ++ rest = []
      · rw [last, (List.append_eq_nil_iff.mp last).1]
        exact ⟨[], rfl⟩
      · obtain ⟨others, isLine⟩ := ih sameLine.2 last
        rw [isLine]
        exact ⟨others, rfl⟩

theorem lines_split {before line rest : ByteString} (ended : Ended newline before)
    (sameLine : newline ∉ line) (lineEnds : rest = [] ∨ rest.head? = some newline)
    (notEmpty : line ++ rest ≠ [])
    : (lines (before ++ (line ++ rest)))[before.count newline]? = some line := by
  induction before with
  | nil =>
      obtain ⟨others, isLine⟩ := lines_line sameLine lineEnds notEmpty
      rw [List.nil_append, isLine]
      rfl
  | cons byte before ih =>
      obtain ⟨ended, single⟩ := ended.of_cons
      have later := ih ended
      by_cases first : byte = newline
      · simpa [lines, first] using later
      · have positive := ended.count_pos (mt single first)
        rw [List.cons_append, lines, if_neg first, List.count_cons_of_ne first]
        cases isLines : lines (before ++ (line ++ rest)) with
        | nil => rw [isLines] at later; cases later
        | cons next others =>
            rw [isLines, List.getElem?_cons, if_neg (Nat.ne_of_gt positive)] at later
            simpa [List.getElem?_cons, Nat.ne_of_gt positive] using later

/-- A newline is encoded as itself, and no other character has it among its bytes. -/
theorem newline_mem_encode_iff {code : Nat} (scalar : Scalar code)
    : newline ∈ encode code ↔ code = 10 := by
  by_cases ascii : code < 0x80
  · rw [encode_ascii ascii, List.mem_singleton, newline, Fin.ext_iff]
    simp only [Fin.val_ofNat]
    constructor
    · intro same
      have value : (10 : Fin 256).val = 10 := rfl
      omega
    · rintro rfl
      rfl
  · constructor
    · intro member
      have high := high_of_mem_encode scalar (Nat.le_of_not_lt ascii) member
      exact absurd high (by decide)
    · rintro rfl
      exact absurd (by decide) ascii

theorem count_encode {code : Nat} (scalar : Scalar code)
    : (encode code).count newline = [code].count 10 := by
  by_cases isNewline : code = 10
  · rw [isNewline]
    rfl
  · rw [List.count_eq_zero_of_not_mem (mt (newline_mem_encode_iff scalar).mp isNewline),
      List.count_singleton, if_neg (by simpa using isNewline)]

theorem count_encodeAll {codes : List Nat} (scalars : ∀ code ∈ codes, Scalar code)
    : (encodeAll codes).count newline = codes.count 10 := by
  induction codes with
  | nil => rfl
  | cons code codes ih =>
      rw [List.forall_mem_cons] at scalars
      rw [encodeAll_cons, List.count_append, count_encode scalars.1, ih scalars.2,
        ← List.count_append, List.singleton_append]

theorem newline_mem_encodeAll {codes : List Nat} (scalars : ∀ code ∈ codes, Scalar code)
    (sameLine : 10 ∉ codes)
    : newline ∉ encodeAll codes := by
  rw [← List.count_eq_zero, count_encodeAll scalars, List.count_eq_zero]
  exact sameLine

theorem ended_encodeAll {codes : List Nat} (ended : Ended 10 codes)
    : Ended newline (encodeAll codes) := by
  rcases ended with rfl | last
  · exact .inl rfl
  · obtain ⟨others, rfl⟩ := List.getLast?_eq_some_iff.mp last
    refine .inr ?_
    rw [encodeAll_append, List.getLast?_append]
    rfl

theorem not_hasUnicodeOrTabs {codes : List Nat} (scalars : ∀ code ∈ codes, Scalar code)
    (plain : hasUnicodeOrTabs (encodeAll codes) = false)
    : ∀ code ∈ codes, (encode code).length = 1 := by
  intro code isCode
  have ascii : code < 0x80 := by
    by_contra large
    obtain ⟨byte, others, isEncoding⟩ := List.exists_cons_of_ne_nil (encode_ne_nil code)
    have member : byte ∈ encode code := isEncoding ▸ List.mem_cons_self
    have high := high_of_mem_encode (scalars code isCode) (Nat.le_of_not_lt large) member
    have low := List.any_eq_false.mp plain byte (List.mem_flatMap.mpr ⟨code, isCode, member⟩)
    simp at low
    omega
  rw [encode_ascii ascii]
  rfl

theorem length_encodeAll {codes : List Nat}
    (narrow : ∀ code ∈ codes, (encode code).length = 1)
    : (encodeAll codes).length = codes.length := by
  induction codes with
  | nil => rfl
  | cons code codes ih =>
      rw [List.forall_mem_cons] at narrow
      rw [encodeAll_cons, List.length_append, narrow.1, ih narrow.2, List.length_cons,
        Nat.add_comm]

/-- What stands in a text from a position on begins with the rest of its line. -/
theorem rest_of_line (rest : List Nat)
    : ∃ more others, rest = more ++ others
      ∧ 10 ∉ more
      ∧ (others = [] ∨ others.head? = some 10) := by
  refine ⟨rest.takeWhile (· ≠ 10), rest.dropWhile (· ≠ 10), ?_, ?_, ?_⟩
  · exact List.takeWhile_append_dropWhile.symm
  · intro member
    have other := List.mem_takeWhile_imp member
    simp at other
  · rw [or_iff_not_imp_left]
    intro notEmpty
    have first := List.head_dropWhile_not (· ≠ 10) notEmpty
    rw [List.head?_eq_some_head notEmpty]
    simpa using first

theorem head_encodeAll {codes : List Nat} (ended : codes = [] ∨ codes.head? = some 10)
    : encodeAll codes = [] ∨ (encodeAll codes).head? = some newline := by
  rcases ended with rfl | first
  · exact .inl rfl
  · obtain ⟨others, rfl⟩ := List.head?_eq_some_iff.mp first
    exact .inr rfl

theorem encodeAll_ne_nil {codes : List Nat} (notEmpty : codes ≠ []) : encodeAll codes ≠ [] := by
  obtain ⟨code, others, rfl⟩ := List.exists_cons_of_ne_nil notEmpty
  rw [encodeAll_cons]
  exact fun isNil => encode_ne_nil code (List.append_eq_nil_iff.mp isNil).1

section Columns

variable {uncons : ByteString → Option (Nat × ByteString)} (decodes : DecodesUtf8 uncons)

include decodes

theorem charOffsetsFrom_encodeAll {codes : List Nat} (scalars : ∀ code ∈ codes, Scalar code)
    {fuel : Nat} (enough : codes.length ≤ fuel) (off : Nat)
    : (charOffsetsFrom uncons fuel off (encodeAll codes)).length = codes.length
      ∧ ∀ index < codes.length,
          (charOffsetsFrom uncons fuel off (encodeAll codes))[index]?
            = some (off + (encodeAll (codes.take (index + 1))).length) := by
  induction codes generalizing fuel off with
  | nil =>
      refine ⟨?_, fun index inside => by cases inside⟩
      cases fuel with
      | zero => rfl
      | succ fuel => rw [charOffsetsFrom, encodeAll_nil, decodes.nil, List.length_nil]
  | cons code codes ih =>
      rw [List.forall_mem_cons] at scalars
      cases fuel with
      | zero => cases enough
      | succ fuel =>
          obtain ⟨length, offsets⟩ := ih scalars.2 (Nat.le_of_succ_le_succ enough)
            (off + (encode code).length)
          have newOffset
              : off + (encode code ++ encodeAll codes).length - (encodeAll codes).length
                = off + (encode code).length := by
            rw [List.length_append]
            omega
          rw [charOffsetsFrom, encodeAll_cons, decodes.char code _ scalars.1]
          simp only [newOffset, List.length_cons, length, true_and]
          intro index inside
          cases index with
          | zero => simp
          | succ index =>
              rw [List.getElem?_cons_succ, offsets index (Nat.lt_of_succ_lt_succ inside),
                List.take_succ_cons, encodeAll_cons, List.length_append, Nat.add_assoc]

theorem charOffsets_encodeAll {codes : List Nat} (scalars : ∀ code ∈ codes, Scalar code)
    : (charOffsets uncons (encodeAll codes)).length = codes.length + 1
      ∧ ∀ index ≤ codes.length,
          (charOffsets uncons (encodeAll codes))[index]?
            = some (encodeAll (codes.take index)).length := by
  obtain ⟨length, offsets⟩ :=
    charOffsetsFrom_encodeAll decodes scalars (length_le_encodeAll codes) 0
  refine ⟨congrArg (· + 1) length, fun index inside => ?_⟩
  cases index with
  | zero => rfl
  | succ index =>
      rw [charOffsets, List.getElem?_cons_succ, offsets index inside, Nat.zero_add]

/-- The column of a character is converted to the bytes before it on its line. -/
theorem CharAt.charToByteCol_eq {chars : List Nat} (scalars : ∀ code ∈ chars, Scalar code)
    {line column code : Nat} {before current after : List Nat}
    (char : CharAt chars line column before current code after)
    : charToByteCol uncons (hasUnicodeOrTabs (encodeAll chars)) (encodeAll chars)
        (before.count 10) current.length
      = some (encodeAll current).length := by
  have split := char.split
  subst split
  obtain ⟨more, others, isRest, sameLine, ended⟩ := rest_of_line (code :: after)
  rw [isRest, List.forall_mem_append, ← List.append_assoc, List.forall_mem_append] at scalars
  rw [isRest, charToByteCol]
  split
  · next =>
      have onLine : 10 ∉ current ++ more := by
        rw [List.mem_append, not_or]
        exact ⟨char.sameLine, sameLine⟩
      have notEmpty : encodeAll (current ++ more) ++ encodeAll others ≠ [] := by
        rw [← encodeAll_append, List.append_assoc, ← isRest]
        exact encodeAll_ne_nil (by simp)
      have isLine := lines_split (ended_encodeAll char.ended)
        (newline_mem_encodeAll scalars.2.1 onLine) (head_encodeAll ended) notEmpty
      have inside : current.length ≤ (current ++ more).length := by
        rw [List.length_append]
        exact Nat.le_add_right _ _
      obtain ⟨length, offsets⟩ := charOffsets_encodeAll decodes scalars.2.1
      rw [count_encodeAll scalars.1, ← encodeAll_append, ← encodeAll_append, List.append_assoc]
        at isLine
      rw [List.getElem?_map, isLine]
      simp only [Option.map_some, Option.bind_eq_bind, Option.bind_some]
      rw [length, if_pos (Nat.lt_succ_of_le inside), offsets _ inside, List.take_left]
  · next plain =>
      rw [Bool.not_eq_true] at plain
      rw [length_encodeAll fun code member => not_hasUnicodeOrTabs ?_ plain code ?_]
      · rw [← List.append_assoc current, List.forall_mem_append, List.forall_mem_append]
        exact scalars
      · simp [member]

/-- A position is converted to the offset of its character. -/
theorem CharAt.offset {chars : List Nat} (scalars : ∀ code ∈ chars, Scalar code)
    {line column code : Nat} {before current after : List Nat}
    (char : CharAt chars line column before current code after)
    : ∃ start bytes,
        (lengthsToLineOffsets (fileLines (encodeAll chars))).lineOffsets[prevNat line]?
          = some start
      ∧ charToByteCol uncons (hasUnicodeOrTabs (encodeAll chars)) (encodeAll chars)
          (prevNat line) (prevNat column)
        = some bytes
      ∧ start + bytes = (encodeAll (before ++ current)).length := by
  have isLine : prevNat line = before.count 10 := by
    rw [char.lineIs, prevNat]
    omega
  have isColumn : prevNat column = current.length := by
    rw [char.columnIs, prevNat]
    omega
  refine ⟨(encodeAll before).length, (encodeAll current).length, ?_, ?_, ?_⟩
  · have beforeScalars : ∀ code ∈ before, Scalar code := fun code member =>
      scalars code (by rw [char.split]; exact List.mem_append_left _ member)
    have isStart := lineStarts_split (encodeAll (current ++ code :: after)) 0
      (ended_encodeAll char.ended)
    rw [← encodeAll_append, ← char.split, count_encodeAll beforeScalars, Nat.zero_add] at isStart
    rw [isLine, lengthsToLineOffsets_fileLines, lineOffsets_eq,
      List.getElem?_append_left (List.getElem?_eq_some_iff.mp isStart).1, isStart]
  · rw [isLine, isColumn]
    exact char.charToByteCol_eq decodes scalars
  · rw [encodeAll_append, List.length_append]

end Columns

theorem CharAt.passed {chars : List Nat} {line column code : Nat}
    {before current after : List Nat} (char : CharAt chars line column before current code after)
    : before ++ current <+: chars :=
  ⟨code :: after, by rw [char.split, List.append_assoc]⟩

theorem length_encodeAll_mono {chars first last : List Nat} (isFirst : first <+: chars)
    (isLast : last <+: chars) (ordered : first.length ≤ last.length)
    : (encodeAll first).length ≤ (encodeAll last).length := by
  obtain ⟨between, rfl⟩ := List.prefix_of_prefix_length_le isFirst isLast ordered
  rw [encodeAll_append, List.length_append]
  exact Nat.le_add_right _ _

/-- A range of characters becomes the bytes up to the first one of its last character. -/
theorem srcRangeToByteRange_eq {uncons : ByteString → Option (Nat × ByteString)}
    (decodes : DecodesUtf8 uncons) {chars : List Nat} (scalars : ∀ code ∈ chars, Scalar code)
    {range : SrcRange} {before current after beforeEnd currentEnd afterEnd : List Nat}
    {code codeEnd : Nat}
    (first : CharAt chars range.lineBegin range.columnBegin before current code after)
    (last : CharAt chars range.lineEnd range.columnEnd beforeEnd currentEnd codeEnd afterEnd)
    (ordered : (before ++ current).length ≤ (beforeEnd ++ currentEnd).length)
    : srcRangeToByteRange uncons (fileLines (encodeAll chars)) (encodeAll chars) range
      = some ⟨(encodeAll (before ++ current)).length,
          (encodeAll (beforeEnd ++ currentEnd)).length - (encodeAll (before ++ current)).length
            + 1⟩
      := by
  obtain ⟨start, bytes, isStart, isBytes, offset⟩ := first.offset decodes scalars
  obtain ⟨startEnd, bytesEnd, isStartEnd, isBytesEnd, offsetEnd⟩ := last.offset decodes scalars
  have inOrder := length_encodeAll_mono first.passed last.passed ordered
  have flag : (lengthsToLineOffsets (fileLines (encodeAll chars))).hasUnicodeOrTabs
      = hasUnicodeOrTabs (encodeAll chars) := rfl
  rw [srcRangeToByteRange, srcRangeToAdjustedByteRange]
  simp only [flag, isStart, isBytes, isStartEnd, isBytesEnd, Option.bind_eq_bind,
    Option.bind_some, offset, offsetEnd, if_pos inOrder]
  rfl

/-- Lines and columns stand for the bytes that they were made from. -/
theorem srcRangeToSimpleByteRange_byteRangeToRange (content : ByteString) (file : File)
    {bytes : ByteRange} (notEmpty : bytes.length ≠ 0)
    : (byteRangeToRange file (getLineOffsets content) bytes).bind
        (srcRangeToSimpleByteRange (getLineOffsets content))
      = some bytes := by
  obtain ⟨start, line, isStart, found⟩ := byteOffsetToLineCol_found content bytes.begin
  obtain ⟨startEnd, lineEnd, isStartEnd, foundEnd⟩ :=
    byteOffsetToLineCol_found content (max 1 bytes.exclusiveEnd - 1)
  have before := line.before
  have beforeEnd := lineEnd.before
  have begins : start + (bytes.begin - start) = bytes.begin := by omega
  have ends : startEnd + (max 1 bytes.exclusiveEnd - 1 - startEnd)
      = bytes.begin + bytes.length - 1 := by
    rw [ByteRange.exclusiveEnd] at beforeEnd ⊢
    omega
  have inOrder : bytes.begin ≤ bytes.begin + bytes.length - 1 := by omega
  have length : bytes.begin + bytes.length - 1 - bytes.begin + 1 = bytes.length := by omega
  have prevNat_succ (n : Nat) : prevNat (n + 1) = n := by
    rw [prevNat]
    omega
  rw [byteRangeToRange]
  simp only [found, foundEnd, Option.bind_eq_bind, Option.bind_some]
  simp only [srcRangeToSimpleByteRange, srcRangeToAdjustedByteRange, prevNat_succ, isStart,
    isStartEnd, Option.bind_eq_bind, Option.bind_some, Option.pure_def, begins, ends,
    if_pos inOrder, length]

/-- A range of characters becomes exactly their bytes if the last one has a single byte; ranges
of bytes always come back from lines and columns.
-/
theorem srcRange_bytes_exact_iff {uncons : ByteString → Option (Nat × ByteString)}
    (decodes : DecodesUtf8 uncons) {chars : List Nat} (scalars : ∀ code ∈ chars, Scalar code)
    {range : SrcRange} {before current after beforeEnd currentEnd afterEnd : List Nat}
    {code codeEnd : Nat}
    (first : CharAt chars range.lineBegin range.columnBegin before current code after)
    (last : CharAt chars range.lineEnd range.columnEnd beforeEnd currentEnd codeEnd afterEnd)
    (ordered : (before ++ current).length ≤ (beforeEnd ++ currentEnd).length)
    : (srcRangeToByteRange uncons (fileLines (encodeAll chars)) (encodeAll chars) range
          = some (charBytes (before ++ current) (beforeEnd ++ currentEnd) codeEnd)
        ↔ (encode codeEnd).length = 1)
      ∧ ∀ (content : ByteString) (file : File) (bytes : ByteRange), bytes.length ≠ 0 →
          (byteRangeToRange file (getLineOffsets content) bytes).bind
            (srcRangeToSimpleByteRange (getLineOffsets content)) = some bytes := by
  constructor
  · have inOrder := length_encodeAll_mono first.passed last.passed ordered
    have width : (encodeAll [codeEnd]).length = (encode codeEnd).length := by
      rw [encodeAll_cons, encodeAll_nil, List.append_nil]
    rw [srcRangeToByteRange_eq decodes scalars first last ordered, charBytes,
      encodeAll_append _ [codeEnd], List.length_append, width, Option.some.injEq,
      ByteRange.mk.injEq]
    constructor
    · intro same
      omega
    · intro single
      omega
  · exact fun content file bytes => srcRangeToSimpleByteRange_byteRangeToRange content file

/-- `UTF8.uncons` on texts that are not malformed. -/
def unconsUtf8 : ByteString → Option (Nat × ByteString)
  | [] => none
  | bytes => some ((next bytes).1.getD 0xFFFD, bytes.drop (next bytes).2)

theorem decodes_unconsUtf8 : DecodesUtf8 unconsUtf8 where
  nil := rfl
  char code rest scalar := by
    have decoded := next_encode_append scalar rest
    cases isEncoding : encode code ++ rest with
    | nil => exact absurd (List.append_eq_nil_iff.mp isEncoding).1 (encode_ne_nil code)
    | cons byte others =>
        rw [unconsUtf8, ← isEncoding, decoded]
        · simp
        · exact List.cons_ne_nil _ _

/-- The range of a single letter, which is encoded by two bytes. -/
def letter : SrcRange := ⟨⟨1024, none⟩, 1, 1, 1, 1⟩

/-- The range of a letter and of the newline after it. -/
def letterLine : SrcRange := ⟨⟨1024, none⟩, 1, 1, 1, 2⟩

theorem charAt_letter (after : List Nat) : CharAt (0xE9 :: after) 1 1 [] [] 0xE9 after :=
  ⟨rfl, .inl rfl, List.not_mem_nil, rfl, rfl⟩

theorem charAt_newline
    : CharAt [0xE9, 10] letterLine.lineEnd letterLine.columnEnd [] [0xE9] 10 [] :=
  ⟨rfl, .inl rfl, by simp, rfl, rfl⟩

theorem srcRange_bytes_exact_iff_letterLine
    : srcRangeToByteRange unconsUtf8 (fileLines (encodeAll [0xE9, 10])) (encodeAll [0xE9, 10])
        letterLine = some ⟨0, 3⟩ := by
  have scalars : ∀ code ∈ [0xE9, 10], Scalar code := by simp [Scalar]
  exact (srcRange_bytes_exact_iff decodes_unconsUtf8 scalars (charAt_letter [10]) charAt_newline
    (Nat.zero_le _)).1.mpr rfl

/-- The second byte of the letter is lost. -/
theorem letter_truncated
    : CharAt [0xE9] letter.lineBegin letter.columnBegin [] [] 0xE9 []
      ∧ charBytes [] [] 0xE9 = ⟨0, 2⟩
      ∧ srcRangeToByteRange unconsUtf8 (fileLines (encodeAll [0xE9])) (encodeAll [0xE9]) letter
        = some ⟨0, 1⟩
      ∧ srcRangeToByteRange unconsUtf8 (fileLines (encodeAll [0xE9])) (encodeAll [0xE9]) letter
        ≠ some (charBytes [] [] 0xE9) :=
  ⟨charAt_letter [], rfl, rfl, by decide⟩

end Glean.Util
