import Mathlib.Data.List.Basic
import Glean.Library.Byte

/-! Offsets of the lines of a file, and the search for the line of an offset
(`Glean.Util.Range`).
-/

namespace Glean.Util

abbrev ByteString := List (Fin 256)

def newline : Fin 256 := 10

def tab : Fin 256 := 9

structure LineOffsets where
  lineOffsets : List Nat
  endsInNewline : Bool
  hasUnicodeOrTabs : Bool

/-- `Src.FileLines_key`, without the file. -/
structure FileLines where
  lengths : List Nat
  endsInNewline : Bool
  hasUnicodeOrTabs : Bool

/-- `B.elemIndices '\n'`, counted from a start. -/
def newlinesFrom (start : Nat) : ByteString → List Nat
  | [] => []
  | byte :: rest =>
      if byte = newline then start :: newlinesFrom (start + 1) rest
      else newlinesFrom (start + 1) rest

def endsInNewline (content : ByteString) : Bool := content.getLast? = some newline

def hasUnicodeOrTabs (content : ByteString) : Bool :=
  content.any fun byte => byte = tab || 128 ≤ byte.val

/-- `getLineOffsets` -/
def getLineOffsets (content : ByteString) : LineOffsets :=
  if content = [] then
    ⟨[0], false, false⟩
  else
    let newlines := (newlinesFrom 0 content).map Nat.succ
    if endsInNewline content then
      ⟨0 :: newlines, true, hasUnicodeOrTabs content⟩
    else
      ⟨0 :: (newlines ++ [content.length]), false, hasUnicodeOrTabs content⟩

/-- `lengthsToLineOffsets` -/
def lengthsToLineOffsets (lines : FileLines) : LineOffsets :=
  ⟨lines.lengths.scanl (· + ·) 0, lines.endsInNewline, lines.hasUnicodeOrTabs⟩

/-- Lengths of the lines, each with the newline that ends it. -/
def lineLengths : ByteString → List Nat
  | [] => []
  | byte :: rest =>
      if byte = newline then
        1 :: lineLengths rest
      else
        match lineLengths rest with
        | [] => [1]
        | length :: lengths => (length + 1) :: lengths

/-- The lines of a file as its indexer reports them. -/
def fileLines (content : ByteString) : FileLines :=
  ⟨lineLengths content, endsInNewline content, hasUnicodeOrTabs content⟩

/-- The result for a line, where the column is counted from the start of the line. -/
def done (a : List Nat) (line bytes : Nat) : Option (Nat × Nat) := do
  let start ← a[line]?
  return (line + 1, bytes - start)

/-- The binary search. It fails when it reads outside the vector or runs out of fuel. -/
def go (a : List Nat) (p : Nat) : Nat → Nat → Nat → Option (Nat × Nat)
  | 0, _, _ => none
  | fuel + 1, i, j =>
      if i + 1 = j then
        done a i p
      else do
        let mid := i + (j - i + 1) / 2
        if p < (← a[mid]?) then go a p fuel i mid else go a p fuel mid j

/-- `byteOffsetToLineCol`: each round of the search narrows the interval, so there are fewer
rounds than offsets.
-/
def byteOffsetToLineCol (offsets : LineOffsets) (p : Nat) : Option (Nat × Nat) :=
  let a := offsets.lineOffsets
  if a.length = 0 then
    some (0, p)
  else if a.length = 1 then do
    if p < (← a[0]?) then return (0, p) else done a 0 p
  else do
    let e := if offsets.endsInNewline then a.length - 1 else a.length - 2
    if p < (← a[0]?) then
      return (0, p)
    else if (← a[e]?) ≤ p then
      done a e p
    else
      go a p a.length 0 e

/-- Of the lines up to `e` those up to `k` begin no later than `p`, and the others after it. -/
structure IsLast (a : List Nat) (p e k : Nat) : Prop where
  inside : e < a.length
  begins : ∀ line ≤ k, ∀ start, a[line]? = some start → start ≤ p
  later : ∀ line ≤ e, k < line → ∀ start, a[line]? = some start → p < start

theorem go_finds {a : List Nat} {p e k : Nat} (isLast : IsLast a p e k) {fuel i j : Nat}
    (inside : j ≤ e) (low : i ≤ k) (high : k < j) (enough : j - i ≤ fuel)
    : go a p fuel i j = done a k p := by
  induction fuel generalizing i j with
  | zero => omega
  | succ fuel ih =>
      rw [go]
      by_cases found : i + 1 = j
      · have isLine : i = k := by omega
        rw [if_pos found, isLine]
      · have between : i < i + (j - i + 1) / 2 ∧ i + (j - i + 1) / 2 < j := by omega
        rw [if_neg found]
        generalize i + (j - i + 1) / 2 = mid at between
        have below : mid ≤ e := Nat.le_trans (Nat.le_of_lt between.2) inside
        have indexed := Nat.lt_of_le_of_lt below isLast.inside
        have isStart := List.getElem?_eq_getElem indexed
        simp only [isStart, Option.bind_eq_bind, Option.bind_some]
        by_cases before : p < a[mid]
        · have high : k < mid := by
            by_contra reached
            have begins := isLast.begins mid (Nat.le_of_not_lt reached) _ isStart
            exact absurd before (Nat.not_lt.mpr begins)
          rw [if_pos before]
          exact ih below low high (by omega)
        · have low : mid ≤ k := by
            by_contra passed
            exact before (isLast.later mid below (Nat.lt_of_not_le passed) _ isStart)
          rw [if_neg before]
          exact ih inside low high (by omega)

theorem length_newlinesFrom (start : Nat) (content : ByteString)
    : (newlinesFrom start content).length = content.count newline := by
  induction content generalizing start with
  | nil => rfl
  | cons byte rest ih =>
      rw [newlinesFrom, List.count_cons]
      split
      · next isNewline => simp [ih, isNewline]
      · next other => simp [ih, other]

theorem le_newlinesFrom {start position : Nat} {content : ByteString}
    (isNewline : position ∈ newlinesFrom start content)
    : start ≤ position := by
  induction content generalizing start with
  | nil => cases isNewline
  | cons byte rest ih =>
      rw [newlinesFrom] at isNewline
      split at isNewline
      · rcases List.mem_cons.mp isNewline with rfl | later
        · exact Nat.le_refl _
        · exact Nat.le_of_succ_le (ih later)
      · exact Nat.le_of_succ_le (ih isNewline)

/-- A newline stands before an offset if its number is below the number of newlines there. -/
theorem newline_before_iff {start p index position : Nat} {content : ByteString}
    (isNewline : (newlinesFrom start content)[index]? = some position)
    : position < start + p ↔ index < (content.take p).count newline := by
  induction content generalizing start p index with
  | nil => cases isNewline
  | cons byte rest ih =>
      cases p with
      | zero =>
          have low := le_newlinesFrom (List.mem_of_getElem? isNewline)
          rw [List.take_zero, List.count_nil]
          omega
      | succ p =>
          have shift : start + (p + 1) = start + 1 + p := by omega
          rw [newlinesFrom] at isNewline
          rw [List.take_succ_cons, List.count_cons, shift]
          by_cases first : byte = newline
          · rw [if_pos first] at isNewline
            cases index with
            | zero =>
                cases isNewline
                simp only [first, BEq.rfl, if_true]
                omega
            | succ index =>
                rw [List.getElem?_cons_succ] at isNewline
                simp [first, ih isNewline]
          · rw [if_neg first] at isNewline
            simp [first, ih isNewline]

/-- The offset just after the last newline before an offset, or the start of the file. -/
structure IsLineStart (content : ByteString) (p start : Nat) : Prop where
  before : start ≤ p
  follows : start = 0 ∨ content[start - 1]? = some newline
  free : ∀ position, start ≤ position → position < p → content[position]? ≠ some newline

theorem IsLineStart.zero (content : ByteString) : IsLineStart content 0 0 :=
  ⟨Nat.le_refl 0, .inl rfl, fun _ _ before => absurd before (Nat.not_lt_zero _)⟩

theorem IsLineStart.nil (p : Nat) : IsLineStart [] p 0 :=
  ⟨Nat.zero_le p, .inl rfl, fun _ _ _ isNewline => by cases isNewline⟩

/-- A further byte in front of a line that a newline precedes. -/
theorem IsLineStart.cons {rest : ByteString} {p start : Nat} {byte : Fin 256}
    (isStart : IsLineStart rest p start) (precedes : start = 0 → byte = newline)
    : IsLineStart (byte :: rest) (p + 1) (start + 1) where
  before := Nat.succ_le_succ isStart.before
  follows := by
    refine .inr ?_
    rw [Nat.add_sub_cancel]
    cases start with
    | zero => simp [precedes rfl]
    | succ start =>
        rcases isStart.follows with none | follows
        · cases none
        · simpa using follows
  free := by
    intro position low high
    cases position with
    | zero => cases low
    | succ position =>
        exact isStart.free position (Nat.le_of_succ_le_succ low) (Nat.lt_of_succ_lt_succ high)

/-- A further byte in front of the first line. -/
theorem IsLineStart.cons_first {rest : ByteString} {p : Nat} {byte : Fin 256}
    (isStart : IsLineStart rest p 0) (other : byte ≠ newline)
    : IsLineStart (byte :: rest) (p + 1) 0 where
  before := Nat.zero_le _
  follows := .inl rfl
  free := by
    intro position _ high
    cases position with
    | zero => simpa using other
    | succ position => exact isStart.free position (Nat.zero_le _) (Nat.lt_of_succ_lt_succ high)

/-- Where the lines start. -/
def lineStarts (start : Nat) (content : ByteString) : List Nat :=
  start :: (newlinesFrom start content).map Nat.succ

theorem length_lineStarts (start : Nat) (content : ByteString)
    : (lineStarts start content).length = content.count newline + 1 := by
  rw [lineStarts, List.length_cons, List.length_map, length_newlinesFrom]

theorem lineStarts_isLast (start p : Nat) (content : ByteString)
    : IsLast (lineStarts start content) (start + p) (content.count newline)
        ((content.take p).count newline) := by
  constructor
  · rw [length_lineStarts]
    exact Nat.lt_succ_self _
  · intro line atMost position isStart
    cases line with
    | zero =>
        cases isStart
        exact Nat.le_add_right _ _
    | succ line =>
        rw [lineStarts, List.getElem?_cons_succ, List.getElem?_map] at isStart
        obtain ⟨newlineAt, isNewline, rfl⟩ := Option.map_eq_some_iff.mp isStart
        exact (newline_before_iff isNewline).mpr atMost
  · intro line _ past position isStart
    cases line with
    | zero => cases past
    | succ line =>
        rw [lineStarts, List.getElem?_cons_succ, List.getElem?_map] at isStart
        obtain ⟨newlineAt, isNewline, rfl⟩ := Option.map_eq_some_iff.mp isStart
        have notAmong := Nat.not_lt.mpr (Nat.le_of_lt_succ past)
        exact Nat.lt_succ_of_le (Nat.le_of_not_lt (mt (newline_before_iff isNewline).mp notAmong))

/-- Entries after the starts of the lines do not matter. -/
theorem IsLast.append {a : List Nat} {p e k : Nat} (isLast : IsLast a p e k) (more : List Nat)
    (among : k ≤ e)
    : IsLast (a ++ more) p e k where
  inside := by
    rw [List.length_append]
    exact Nat.lt_of_lt_of_le isLast.inside (Nat.le_add_right _ _)
  begins line atMost start isStart := by
    rw [List.getElem?_append_left (by have := isLast.inside; omega)] at isStart
    exact isLast.begins line atMost start isStart
  later line inside past start isStart := by
    rw [List.getElem?_append_left (Nat.lt_of_le_of_lt inside isLast.inside)] at isStart
    exact isLast.later line inside past start isStart

theorem lineStart_exists (start p : Nat) (content : ByteString)
    : ∃ offset,
        (lineStarts start content)[(content.take p).count newline]? = some (start + offset)
      ∧ IsLineStart content p offset := by
  induction content generalizing start p with
  | nil => exact ⟨0, by simp [lineStarts], .nil p⟩
  | cons byte rest ih =>
      cases p with
      | zero => exact ⟨0, by simp [lineStarts], .zero _⟩
      | succ p =>
          obtain ⟨offset, isStart, line⟩ := ih (start + 1) p
          have shift : start + 1 + offset = start + (offset + 1) := by omega
          rw [shift] at isStart
          rw [List.take_succ_cons, List.count_cons]
          by_cases first : byte = newline
          · refine ⟨offset + 1, ?_, line.cons fun _ => first⟩
            simpa [lineStarts, newlinesFrom, first] using isStart
          · cases number : (rest.take p).count newline with
            | zero =>
                rw [number] at isStart
                have isFirst : offset = 0 := by
                  have same := Option.some.inj isStart
                  omega
                rw [isFirst] at line
                exact ⟨0, by simp [lineStarts, first], line.cons_first first⟩
            | succ number' =>
                rw [number, lineStarts, List.getElem?_cons_succ] at isStart
                refine ⟨offset + 1, ?_, line.cons ?_⟩
                · simpa [lineStarts, newlinesFrom, first] using isStart
                · rintro rfl
                  obtain ⟨position, isNewline, same⟩ :=
                    Option.map_eq_some_iff.mp (List.getElem?_map .. ▸ isStart)
                  have low := le_newlinesFrom (List.mem_of_getElem? isNewline)
                  exact absurd same (by omega)

theorem endsInNewline_cons {byte : Fin 256} {rest : ByteString} (notEmpty : rest ≠ [])
    : endsInNewline (byte :: rest) = endsInNewline rest := by
  cases rest with
  | nil => exact absurd rfl notEmpty
  | cons next rest => simp [endsInNewline]

/-- After the starts of the lines comes the end of a line without a newline. -/
def lastEnd (start : Nat) (content : ByteString) : List Nat :=
  if content = [] ∨ endsInNewline content then [] else [start + content.length]

theorem lineOffsets_eq (content : ByteString)
    : getLineOffsets content
      = ⟨lineStarts 0 content ++ lastEnd 0 content, endsInNewline content,
        hasUnicodeOrTabs content⟩ := by
  rw [getLineOffsets, lastEnd]
  split
  · next empty => subst empty; rfl
  · next notEmpty =>
      cases isEnd : endsInNewline content with
      | true => simp [lineStarts]
      | false => simp [lineStarts, notEmpty]

theorem lastEnd_cons {start : Nat} {byte : Fin 256} {rest : ByteString} (notEmpty : rest ≠ [])
    : lastEnd start (byte :: rest) = lastEnd (start + 1) rest := by
  have length : start + (rest.length + 1) = start + 1 + rest.length := by omega
  simp [lastEnd, notEmpty, endsInNewline_cons notEmpty, length]

theorem lineLengths_ne_nil {content : ByteString} (notEmpty : content ≠ [])
    : lineLengths content ≠ [] := by
  cases content with
  | nil => exact absurd rfl notEmpty
  | cons byte rest =>
      rw [lineLengths]
      split
      · exact List.cons_ne_nil _ _
      · split <;> exact List.cons_ne_nil _ _

theorem scanl_lineLengths (start : Nat) (content : ByteString)
    : (lineLengths content).scanl (· + ·) start
      = lineStarts start content ++ lastEnd start content := by
  induction content generalizing start with
  | nil => rfl
  | cons byte rest ih =>
      have later := ih (start + 1)
      rw [lineLengths]
      by_cases isEmpty : rest = []
      · subst isEmpty
        by_cases first : byte = newline
        · simp [lineLengths, lineStarts, newlinesFrom, lastEnd, endsInNewline, first]
        · simp [lineLengths, lineStarts, newlinesFrom, lastEnd, endsInNewline, first]
      · rw [lastEnd_cons isEmpty]
        by_cases first : byte = newline
        · rw [if_pos first, List.scanl_cons, later]
          simp [lineStarts, newlinesFrom, first]
        · rw [if_neg first]
          cases lengths : lineLengths rest with
          | nil => exact absurd lengths (lineLengths_ne_nil isEmpty)
          | cons length others =>
              rw [lengths, List.scanl_cons, lineStarts, List.cons_append, List.cons.injEq]
                at later
              rw [List.scanl_cons, lineStarts, newlinesFrom, if_neg first, List.cons_append,
                ← later.2]
              congr 2
              omega

/-- The lengths of the lines of a file determine its offsets. -/
theorem lengthsToLineOffsets_fileLines (content : ByteString)
    : lengthsToLineOffsets (fileLines content) = getLineOffsets content := by
  rw [lineOffsets_eq, lengthsToLineOffsets, fileLines, scanl_lineLengths]

theorem length_lineOffsets (content : ByteString)
    : (getLineOffsets content).lineOffsets.length
      = content.count newline + 1 + (lastEnd 0 content).length := by
  rw [lineOffsets_eq, List.length_append, length_lineStarts]

/-- A file with a single offset is empty. -/
theorem eq_nil_of_single {content : ByteString}
    (single : (getLineOffsets content).lineOffsets.length = 1)
    : content = [] := by
  by_contra notEmpty
  rw [length_lineOffsets, lastEnd] at single
  split at single
  · next ended =>
      have last := of_decide_eq_true (ended.resolve_left notEmpty)
      have some := List.count_pos_iff.mpr (List.mem_of_getLast? last)
      omega
  · rw [List.length_singleton] at single
    omega

/-- The line of the last newline, or of the start of the file, is where the search ends. -/
theorem searched_end {content : ByteString} (notEmpty : content ≠ [])
    : (if (getLineOffsets content).endsInNewline then
        (getLineOffsets content).lineOffsets.length - 1
      else
        (getLineOffsets content).lineOffsets.length - 2) = content.count newline := by
  rw [length_lineOffsets, lineOffsets_eq]
  cases ended : endsInNewline content with
  | true => simp [lastEnd, ended]
  | false => simp [lastEnd, ended, notEmpty]

/-- The search finds the line of every offset. -/
theorem byteOffsetToLineCol_eq (content : ByteString) (p : Nat)
    : byteOffsetToLineCol (getLineOffsets content) p
      = done (getLineOffsets content).lineOffsets ((content.take p).count newline) p := by
  have among : (content.take p).count newline ≤ content.count newline :=
    (List.take_sublist p content).count_le newline
  have isLast := (lineStarts_isLast 0 p content).append (lastEnd 0 content) among
  have offsets : (getLineOffsets content).lineOffsets
      = lineStarts 0 content ++ lastEnd 0 content := by
    rw [lineOffsets_eq]
  rw [← offsets, Nat.zero_add] at isLast
  have first : (getLineOffsets content).lineOffsets[0]? = some 0 := by
    rw [offsets]
    rfl
  rw [byteOffsetToLineCol]
  split
  · next none =>
      rw [length_lineOffsets] at none
      omega
  · split
    · next single =>
        rw [eq_nil_of_single single]
        simp [getLineOffsets]
    · next several =>
        have notEmpty : content ≠ [] := by
          rintro rfl
          exact several rfl
        rw [searched_end notEmpty, first]
        simp only [Option.bind_eq_bind, Option.bind_some, Nat.not_lt_zero, if_false]
        have isEnd := List.getElem?_eq_getElem isLast.inside
        rw [isEnd]
        simp only [Option.bind_some]
        split
        · next reached =>
            have last : (content.take p).count newline = content.count newline := by
              refine Nat.le_antisymm among (Nat.le_of_not_lt fun before => ?_)
              have later := isLast.later _ (Nat.le_refl _) before _ isEnd
              exact absurd reached (Nat.not_le.mpr later)
            rw [last]
        · next before =>
            refine go_finds isLast (Nat.le_refl _) (Nat.zero_le _) ?_ ?_
            · refine Nat.lt_of_le_of_ne among fun same => before ?_
              exact isLast.begins _ (Nat.le_of_eq same.symm) _ isEnd
            · exact Nat.le_of_lt isLast.inside

/-- Where the line starts that the search finds. -/
theorem byteOffsetToLineCol_found (content : ByteString) (p : Nat)
    : ∃ start, IsLineStart content p start
      ∧ (getLineOffsets content).lineOffsets[(content.take p).count newline]? = some start
      ∧ byteOffsetToLineCol (getLineOffsets content) p
        = some ((content.take p).count newline + 1, p - start) := by
  obtain ⟨start, isStart, line⟩ := lineStart_exists 0 p content
  have inside := (List.getElem?_eq_some_iff.mp isStart).1
  have found : (getLineOffsets content).lineOffsets[(content.take p).count newline]?
      = some start := by
    rw [lineOffsets_eq, List.getElem?_append_left inside, isStart, Nat.zero_add]
  refine ⟨start, line, found, ?_⟩
  rw [byteOffsetToLineCol_eq, done, found]
  rfl

/-- The line of an offset is numbered by the newlines before it, and its column counts from the
last of them, whether the offsets come from the content or from the lengths of its lines.
-/
theorem byteOffsetToLineCol_exact (content : ByteString) (p : Nat)
    : ∃ start, IsLineStart content p start
      ∧ byteOffsetToLineCol (getLineOffsets content) p
        = some (1 + (content.take p).count newline, p - start)
      ∧ byteOffsetToLineCol (lengthsToLineOffsets (fileLines content)) p
        = some (1 + (content.take p).count newline, p - start) := by
  obtain ⟨start, line, _, found⟩ := byteOffsetToLineCol_found content p
  rw [Nat.add_comm 1]
  exact ⟨start, line, found, by rw [lengthsToLineOffsets_fileLines, found]⟩

end Glean.Util
