import Glean.Library.JsonString
import Glean.RTS.MangledString

/-! Escaping of strings in JSON output (`json.cpp`): a first pass counts the bytes that the
second one writes. Texts are given as they are or mangled.
-/

namespace Glean.RTS.Json

open JsonString (BytesDenote hexDigit hexNumber letterEscape)

/-- The entries of escape tables: `K`, `Z`, `X` and the letter behind a backslash. -/
inductive Escape where
  | keep
  | nul
  | hex
  | letter (letter : Byte)
  deriving DecidableEq

abbrev EscapeTable := Byte → Escape

def regularEscapes : EscapeTable := fun byte =>
  if byte = 0x08 then .letter 0x62
  else if byte = 0x09 then .letter 0x74
  else if byte = 0x0A then .letter 0x6E
  else if byte = 0x0C then .letter 0x66
  else if byte = 0x0D then .letter 0x72
  else if byte < 0x20 then .hex
  else if byte = 0x22 ∨ byte = 0x5C then .letter byte
  else .keep

def mangledEscapes : EscapeTable := fun byte =>
  if byte = 0 then .nul else regularEscapes byte

/-- `escaped_size`. The byte behind a zero of a mangled text is skipped. -/
def escapedSize (escapes : EscapeTable) : Bytes → Nat
  | [] => 0
  | byte :: text =>
      match escapes byte with
      | .keep => escapedSize escapes text + 1
      | .nul =>
          match text with
          | [] => 6
          | _ :: text => escapedSize escapes text + 6
      | .hex => escapedSize escapes text + 6
      | .letter _ => escapedSize escapes text + 2

def hex (digit : Byte) : Byte :=
  digit + (if digit < 10 then 0x30 else 0x61 - 10)

/-- The bytes written for a byte that is hex-escaped. -/
def hexEscape (byte : Byte) : Bytes :=
  [0x5C, 0x75, 0x30, 0x30, hex (byte / 16), hex (byte % 16)]

/-- The loop of `escape`, as the bytes it writes. -/
def escapeLoop (escapes : EscapeTable) : Bytes → Bytes
  | [] => []
  | byte :: text =>
      match escapes byte with
      | .keep => byte :: escapeLoop escapes text
      | .nul =>
          match text with
          | [] => hexEscape byte
          | _ :: text => hexEscape byte ++ escapeLoop escapes text
      | .hex => hexEscape byte ++ escapeLoop escapes text
      | .letter letter => 0x5C :: letter :: escapeLoop escapes text

/-- `escape`: without escapes the text is copied. There is nothing where an assertion about the
size fails.
-/
def escape (escapes : EscapeTable) (text : Bytes) (size : Nat) : Outcome Bytes :=
  if size < text.length then
    .undefined
  else if size = text.length then
    .ok text
  else
    let out := escapeLoop escapes text
    if out.length = size then .ok out else .undefined

def gleanJsonStringEscapedSize (text : Bytes) : Nat :=
  escapedSize regularEscapes text

def gleanJsonStringEscape (text : Bytes) (size : Nat) : Outcome Bytes :=
  escape regularEscapes text size

def gleanJsonMangledStringEscapedSize (text : Bytes) : Outcome Nat :=
  if text.length < 2 then .undefined
  else .ok (escapedSize mangledEscapes (text.take (text.length - 2)))

def gleanJsonMangledStringEscape (text : Bytes) (size : Nat) : Outcome Bytes :=
  if text.length < 2 then .undefined
  else escape mangledEscapes (text.take (text.length - 2)) size

section

variable {escapes : EscapeTable} {byte letter : Byte} {text : Bytes}

theorem escapedSize_keep (isKeep : escapes byte = .keep)
    : escapedSize escapes (byte :: text) = escapedSize escapes text + 1 := by
  rw [escapedSize.eq_def]
  simp only [isKeep]

theorem escapedSize_hex (isHex : escapes byte = .hex)
    : escapedSize escapes (byte :: text) = escapedSize escapes text + 6 := by
  rw [escapedSize.eq_def]
  simp only [isHex]

theorem escapedSize_letter (isLetter : escapes byte = .letter letter)
    : escapedSize escapes (byte :: text) = escapedSize escapes text + 2 := by
  rw [escapedSize.eq_def]
  simp only [isLetter]

theorem escapeLoop_keep (isKeep : escapes byte = .keep)
    : escapeLoop escapes (byte :: text) = byte :: escapeLoop escapes text := by
  rw [escapeLoop.eq_def]
  simp only [isKeep]

theorem escapeLoop_hex (isHex : escapes byte = .hex)
    : escapeLoop escapes (byte :: text) = hexEscape byte ++ escapeLoop escapes text := by
  rw [escapeLoop.eq_def]
  simp only [isHex]

theorem escapeLoop_letter (isLetter : escapes byte = .letter letter)
    : escapeLoop escapes (byte :: text) = 0x5C :: letter :: escapeLoop escapes text := by
  rw [escapeLoop.eq_def]
  simp only [isLetter]

theorem length_hexEscape (byte : Byte) : (hexEscape byte).length = 6 := rfl

variable (escapes)

/-- The second pass writes what the first one counts. -/
theorem length_escapeLoop (text : Bytes)
    : (escapeLoop escapes text).length = escapedSize escapes text := by
  induction text using escapeLoop.induct escapes with
  | case1 => rfl
  | case2 byte text isKeep ih =>
      rw [escapeLoop_keep isKeep, escapedSize_keep isKeep, List.length_cons, ih]
  | case3 byte isNul => simp [escapeLoop, escapedSize, isNul, length_hexEscape]
  | case4 byte isNul skipped text ih =>
      simp [escapeLoop, escapedSize, isNul, length_hexEscape, ih, Nat.add_comm]
  | case5 byte text isHex ih =>
      rw [escapeLoop_hex isHex, escapedSize_hex isHex, List.length_append, length_hexEscape, ih,
        Nat.add_comm]
  | case6 byte text letter isLetter ih =>
      rw [escapeLoop_letter isLetter, escapedSize_letter isLetter, List.length_cons,
        List.length_cons, ih]

theorem length_le_escapedSize (text : Bytes) : text.length ≤ escapedSize escapes text := by
  induction text using escapeLoop.induct escapes with
  | case1 => rfl
  | case2 byte text isKeep ih =>
      rw [escapedSize_keep isKeep]
      exact Nat.succ_le_succ ih
  | case3 byte isNul => simp [escapedSize, isNul]
  | case4 byte isNul skipped text ih =>
      simp only [escapedSize, isNul, List.length_cons]
      omega
  | case5 byte text isHex ih =>
      rw [escapedSize_hex isHex, List.length_cons]
      omega
  | case6 byte text letter isLetter ih =>
      rw [escapedSize_letter isLetter, List.length_cons]
      omega

variable {escapes}

/-- The loop copies a text whose escaped size is its own. -/
theorem escapeLoop_eq_self (same : escapedSize escapes text = text.length)
    : escapeLoop escapes text = text := by
  induction text using escapeLoop.induct escapes with
  | case1 => rfl
  | case2 byte text isKeep ih =>
      rw [escapedSize_keep isKeep, List.length_cons] at same
      rw [escapeLoop_keep isKeep, ih (Nat.succ.inj same)]
  | case3 byte isNul => simp [escapedSize, isNul] at same
  | case4 byte isNul skipped text ih =>
      have atLeast := length_le_escapedSize escapes text
      simp only [escapedSize, isNul, List.length_cons] at same
      omega
  | case5 byte text isHex ih =>
      have atLeast := length_le_escapedSize escapes text
      rw [escapedSize_hex isHex, List.length_cons] at same
      omega
  | case6 byte text letter isLetter ih =>
      have atLeast := length_le_escapedSize escapes text
      rw [escapedSize_letter isLetter, List.length_cons] at same
      omega

/-- With the size of the first pass, the second pass writes what its loop writes. -/
theorem escape_escapedSize (escapes : EscapeTable) (text : Bytes)
    : escape escapes text (escapedSize escapes text) = .ok (escapeLoop escapes text) := by
  have atLeast := length_le_escapedSize escapes text
  unfold escape
  rw [if_neg (by omega)]
  by_cases same : escapedSize escapes text = text.length
  · rw [if_pos same, escapeLoop_eq_self same]
  · rw [if_neg same]
    dsimp only
    rw [if_pos (length_escapeLoop escapes text)]

theorem escapeLoop_append_of_keep {bytes : Bytes} (keeps : ∀ byte ∈ bytes, escapes byte = .keep)
    (rest : Bytes)
    : escapeLoop escapes (bytes ++ rest) = bytes ++ escapeLoop escapes rest := by
  induction bytes with
  | nil => rfl
  | cons byte bytes ih =>
      rw [List.forall_mem_cons] at keeps
      rw [List.cons_append, escapeLoop_keep keeps.1, ih keeps.2, List.cons_append]

end

/-- The characters written for a code point. -/
def characters (code : Nat) : List Nat :=
  if code < 0x80 then
    (escapeLoop regularEscapes [Fin.ofNat 256 code]).map Fin.val
  else
    [code]

section

variable {byte letter : Byte} {code : Nat}

theorem regularEscapes_keep (isKeep : regularEscapes byte = .keep)
    : 0x20 ≤ byte.val ∧ byte.val ≠ 0x22 ∧ byte.val ≠ 0x5C := by
  unfold regularEscapes at isKeep
  split_ifs at isKeep with _ _ _ _ _ notControl notQuoted
  rw [not_or] at notQuoted
  refine ⟨not_lt.mp notControl, ?_, ?_⟩
  · exact fun same => notQuoted.1 (Fin.ext same)
  · exact fun same => notQuoted.2 (Fin.ext same)

theorem regularEscapes_high (high : 0x80 ≤ byte.val) : regularEscapes byte = .keep := by
  have ne (other : Byte) (low : other.val < 0x80) : byte ≠ other := fun same => by
    rw [same] at high
    omega
  have notControl : ¬ byte < 0x20 := by
    rw [Fin.lt_def]
    simp only [Fin.isValue, Fin.coe_ofNat_eq_mod]
    omega
  simp [regularEscapes, ne, notControl]

theorem regularEscapes_letter (isLetter : regularEscapes byte = .letter letter)
    : letterEscape letter.val = some byte.val ∧ letter.val < 0x80 := by
  unfold regularEscapes at isLetter
  split_ifs at isLetter with isB isT isN isF isR _ isQuoted <;> cases isLetter
  · subst isB; exact ⟨rfl, by decide⟩
  · subst isT; exact ⟨rfl, by decide⟩
  · subst isN; exact ⟨rfl, by decide⟩
  · subst isF; exact ⟨rfl, by decide⟩
  · subst isR; exact ⟨rfl, by decide⟩
  · rcases isQuoted with rfl | rfl
    · exact ⟨rfl, by decide⟩
    · exact ⟨rfl, by decide⟩

theorem regularEscapes_ne_nul (byte : Byte) : regularEscapes byte ≠ .nul := by
  unfold regularEscapes
  split_ifs <;> simp

theorem hexDigit_hex (digit : Byte) (small : digit.val < 16)
    : hexDigit (hex digit).val = some digit.val ∧ (hex digit).val < 0x80 := by
  have all : ∀ nibble : Fin 16, hexDigit (hex (Fin.ofNat 256 nibble.val)).val = some nibble.val
      ∧ (hex (Fin.ofNat 256 nibble.val)).val < 0x80 := by
    decide
  have found := all ⟨digit.val, small⟩
  rwa [show Fin.ofNat 256 digit.val = digit from Fin.ext (Nat.mod_eq_of_lt digit.isLt)] at found

theorem div_val (byte : Byte) : (byte / 16).val = byte.val / 16 := rfl

theorem mod_val (byte : Byte) : (byte % 16).val = byte.val % 16 := rfl

/-- The digits behind `\\u` are those of the byte. -/
theorem hexEscape_eq (byte : Byte)
    : ∃ digits, (hexEscape byte).map Fin.val = 0x5C :: 0x75 :: digits ∧ digits.length = 4
        ∧ hexNumber digits = some byte.val ∧ ∀ digit ∈ digits, digit < 0x80 := by
  have inside := byte.isLt
  have high := hexDigit_hex (byte / 16) (by rw [div_val]; omega)
  have low := hexDigit_hex (byte % 16) (by rw [mod_val]; omega)
  refine ⟨[0x30, 0x30, (hex (byte / 16)).val, (hex (byte % 16)).val], rfl, rfl, ?_, ?_⟩
  · have zero : hexDigit 0x30 = some 0 := rfl
    simp only [hexNumber, List.foldlM_cons, List.foldlM_nil, zero, high.1, low.1, Option.map_some,
      Option.bind_eq_bind, Option.bind_some, div_val, mod_val]
    refine congrArg some ?_
    omega
  · simp only [List.forall_mem_cons, List.not_mem_nil, false_implies, implies_true, and_true]
    exact ⟨by decide, by decide, high.2, low.2⟩

/-- The escape of an ASCII character, by cases on the table: it denotes the character and is ASCII
itself.
-/
theorem escapeLoop_ascii (byte : Byte) (ascii : byte.val < 0x80)
    : (∀ {literal text},
          JsonString.Denotes literal text
          → JsonString.Denotes ((escapeLoop regularEscapes [byte]).map Fin.val ++ literal)
              (byte.val :: text))
      ∧ ∀ other ∈ escapeLoop regularEscapes [byte], other.val < 0x80 := by
  cases kind : regularEscapes byte with
  | keep =>
      obtain ⟨notControl, notQuote, notBackslash⟩ := regularEscapes_keep kind
      rw [escapeLoop_keep kind]
      refine ⟨fun rest => ?_, ?_⟩
      · exact .plain notControl notQuote notBackslash rest
      · simpa [escapeLoop] using ascii
  | nul => exact absurd kind (regularEscapes_ne_nul byte)
  | hex =>
      obtain ⟨digits, shape, four, isNumber, allAscii⟩ := hexEscape_eq byte
      rw [escapeLoop_hex kind, escapeLoop, List.append_nil]
      refine ⟨fun rest => ?_, fun other member => ?_⟩
      · rw [shape]
        exact .hex four isNumber (.inl (by omega)) rest
      · have isCode := List.mem_map_of_mem (f := Fin.val) member
        rw [shape] at isCode
        rcases List.mem_cons.mp isCode with isBackslash | later
        · omega
        · rcases List.mem_cons.mp later with isU | isDigit
          · omega
          · exact allAscii _ isDigit
  | letter letter =>
      obtain ⟨isEscape, letterAscii⟩ := regularEscapes_letter kind
      rw [escapeLoop_letter kind, escapeLoop]
      refine ⟨fun rest => ?_, ?_⟩
      · exact .letter isEscape rest
      · simpa using letterAscii

theorem encodeAll_ascii {bytes : Bytes} (ascii : ∀ byte ∈ bytes, byte.val < 0x80)
    : Utf8.encodeAll (bytes.map Fin.val) = bytes := by
  induction bytes with
  | nil => rfl
  | cons byte bytes ih =>
      rw [List.forall_mem_cons] at ascii
      rw [List.map_cons, Utf8.encodeAll_cons, ih ascii.2, Utf8.encode_ascii ascii.1,
        show Fin.ofNat 256 byte.val = byte from Fin.ext (Nat.mod_eq_of_lt byte.isLt)]
      rfl

theorem ofNat_ascii (ascii : code < 0x80) : (Fin.ofNat 256 code).val = code := by
  rw [Fin.val_ofNat]
  omega

theorem characters_denote {literal text : List Nat} (rest : JsonString.Denotes literal text)
    : JsonString.Denotes (characters code ++ literal) (code :: text) := by
  unfold characters
  split
  · next ascii =>
      have escaped := (escapeLoop_ascii (Fin.ofNat 256 code)
        (by rwa [ofNat_ascii ascii])).1 rest
      rwa [ofNat_ascii ascii] at escaped
  · next high => exact .plain (by omega) (by omega) (by omega) rest

theorem characters_scalar (scalar : Utf8.Scalar code)
    : ∀ character ∈ characters code, Utf8.Scalar character := by
  intro character member
  unfold characters at member
  split at member
  · next ascii =>
      obtain ⟨byte, written, rfl⟩ := List.mem_map.mp member
      have small := (escapeLoop_ascii (Fin.ofNat 256 code)
        (by rwa [ofNat_ascii ascii])).2 byte written
      exact .inl (by omega)
  · rw [List.mem_singleton] at member
    rwa [member]

/-- A byte that is escaped as in the regular table. -/
theorem escapeLoop_cons {escapes : EscapeTable} (agrees : escapes byte = regularEscapes byte)
    (rest : Bytes)
    : escapeLoop escapes (byte :: rest)
      = escapeLoop regularEscapes [byte] ++ escapeLoop escapes rest := by
  cases kind : regularEscapes byte with
  | keep => rw [escapeLoop_keep kind, escapeLoop_keep (agrees.trans kind)]; rfl
  | nul => exact absurd kind (regularEscapes_ne_nul byte)
  | hex => rw [escapeLoop_hex kind, escapeLoop_hex (agrees.trans kind)]; rfl
  | letter letter => rw [escapeLoop_letter kind, escapeLoop_letter (agrees.trans kind)]; rfl

/-- A code point whose bytes are escaped as in the regular table. -/
theorem escapeLoop_encode {escapes : EscapeTable} (scalar : Utf8.Scalar code)
    (agrees : ∀ byte ∈ Utf8.encode code, escapes byte = regularEscapes byte) (rest : Bytes)
    : escapeLoop escapes (Utf8.encode code ++ rest)
      = Utf8.encodeAll (characters code) ++ escapeLoop escapes rest := by
  by_cases ascii : code < 0x80
  · have written := (escapeLoop_ascii (Fin.ofNat 256 code)
      (by rwa [ofNat_ascii ascii])).2
    rw [Utf8.encode_ascii ascii] at agrees ⊢
    rw [characters, if_pos ascii, encodeAll_ascii written]
    exact escapeLoop_cons (agrees _ List.mem_cons_self) rest
  · have keeps : ∀ byte ∈ Utf8.encode code, escapes byte = .keep := fun byte member =>
      (agrees byte member).trans
        (regularEscapes_high (Utf8.high_of_mem_encode scalar (not_lt.mp ascii) member))
    rw [characters, if_neg ascii, escapeLoop_append_of_keep keeps, Utf8.encodeAll_cons,
      Utf8.encodeAll_nil, List.append_nil]

end

section

variable {codes : List Nat} (scalar : ∀ code ∈ codes, Utf8.Scalar code)

include scalar

/-- The characters written for a text are a literal that denotes it. -/
theorem characters_bytesDenote
    : BytesDenote (Utf8.encodeAll (codes.flatMap characters)) codes := by
  refine ⟨codes.flatMap characters, ?_, rfl, ?_⟩
  · intro character member
    obtain ⟨code, isCode, written⟩ := List.mem_flatMap.mp member
    exact characters_scalar (scalar code isCode) character written
  · induction codes with
    | nil => exact .nil
    | cons code codes ih =>
        rw [List.forall_mem_cons] at scalar
        exact characters_denote (ih scalar.2)

theorem escapeLoop_regular
    : escapeLoop regularEscapes (Utf8.encodeAll codes)
      = Utf8.encodeAll (codes.flatMap characters) := by
  induction codes with
  | nil => rfl
  | cons code codes ih =>
      rw [List.forall_mem_cons] at scalar
      rw [Utf8.encodeAll_cons, escapeLoop_encode scalar.1 (fun _ _ => rfl), ih scalar.2,
        List.flatMap_cons, Utf8.encodeAll_append]

/-- What is written for a mangled text, without the two bytes that end it. -/
theorem escapeLoop_mangled
    : ∃ body, mangleString (Utf8.encodeAll codes) = body ++ [0, 0]
        ∧ escapeLoop mangledEscapes body = Utf8.encodeAll (codes.flatMap characters) := by
  induction codes with
  | nil => exact ⟨[], rfl, rfl⟩
  | cons code codes ih =>
      rw [List.forall_mem_cons] at scalar
      obtain ⟨body, isBody, written⟩ := ih scalar.2
      rw [Utf8.encodeAll_cons, List.flatMap_cons, Utf8.encodeAll_append]
      by_cases isZero : code = 0
      · subst isZero
        refine ⟨0 :: 1 :: body, ?_, ?_⟩
        · rw [Utf8.encode_zero, List.singleton_append, mangleString, if_pos rfl, isBody]
          rfl
        · rw [← written]
          rfl
      · have noZero : ∀ byte ∈ Utf8.encode code, byte ≠ 0 := fun byte =>
          Utf8.ne_zero_of_mem_encode scalar.1 isZero
        refine ⟨Utf8.encode code ++ body, ?_, ?_⟩
        · rw [mangleString_append noZero, isBody, List.append_assoc]
        · have agrees : ∀ byte ∈ Utf8.encode code,
              mangledEscapes byte = regularEscapes byte :=
            fun byte member => if_neg (noZero byte member)
          rw [escapeLoop_encode scalar.1 agrees, written]

/-- A string in JSON output is a literal that denotes it. -/
theorem stringEscape_exact
    : ∃ output,
        gleanJsonStringEscape (Utf8.encodeAll codes)
            (gleanJsonStringEscapedSize (Utf8.encodeAll codes))
          = .ok output
        ∧ BytesDenote output codes := by
  refine ⟨_, ?_, characters_bytesDenote scalar⟩
  rw [gleanJsonStringEscape, gleanJsonStringEscapedSize, escape_escapedSize,
    escapeLoop_regular scalar]

/-- A mangled string in JSON output: the first pass succeeds with a size, and with it the second
one writes as many bytes, which are those of the general path and the characters of a literal
that denotes exactly the text.
-/
theorem mangledString_exact
    : ∃ size output,
        gleanJsonMangledStringEscapedSize (mangleString (Utf8.encodeAll codes)) = .ok size
          ∧ gleanJsonMangledStringEscape (mangleString (Utf8.encodeAll codes)) size = .ok output
          ∧ output.length = size
          ∧ output = escapeLoop mangledEscapes
              ((mangleString (Utf8.encodeAll codes)).take
                ((mangleString (Utf8.encodeAll codes)).length - 2))
          ∧ ∀ text, BytesDenote output text ↔ text = codes := by
  obtain ⟨body, isBody, written⟩ := escapeLoop_mangled scalar
  have text : (body ++ [0, 0]).take ((body ++ [0, 0]).length - 2) = body := by simp
  have long : ¬ (body ++ [0, 0]).length < 2 := by simp
  have denotes := characters_bytesDenote scalar
  rw [isBody, gleanJsonMangledStringEscapedSize, if_neg long, text]
  refine ⟨_, escapeLoop mangledEscapes body, rfl, ?_, ?_, rfl, fun other => ?_⟩
  · rw [gleanJsonMangledStringEscape, if_neg long, text, escape_escapedSize]
  · exact length_escapeLoop mangledEscapes body
  · rw [written]
    constructor
    · intro denotesOther
      exact denotesOther.unique denotes
    · rintro rfl
      exact denotes

end

theorem stringEscape_exact_quote
    : ∃ output,
        gleanJsonStringEscape (Utf8.encodeAll [0x22, 0x1F600])
            (gleanJsonStringEscapedSize (Utf8.encodeAll [0x22, 0x1F600]))
          = .ok output
        ∧ BytesDenote output [0x22, 0x1F600] :=
  stringEscape_exact (by simp [Utf8.Scalar])

/-- A text with a quote, a zero, a control character and a character of four bytes. -/
theorem mangledString_exact_quoteZero
    : ∃ size output,
        gleanJsonMangledStringEscapedSize
            (mangleString (Utf8.encodeAll [0x22, 0, 0x1F, 0x61, 0x1F600]))
          = .ok size
        ∧ gleanJsonMangledStringEscape
            (mangleString (Utf8.encodeAll [0x22, 0, 0x1F, 0x61, 0x1F600])) size
          = .ok output
        ∧ ∀ text, BytesDenote output text ↔ text = [0x22, 0, 0x1F, 0x61, 0x1F600] := by
  have scalar : ∀ code ∈ [0x22, 0, 0x1F, 0x61, 0x1F600], Utf8.Scalar code := by
    simp [Utf8.Scalar]
  obtain ⟨size, output, isSize, isOutput, -, -, denotes⟩ := mangledString_exact scalar
  exact ⟨size, output, isSize, isOutput, denotes⟩

end Glean.RTS.Json
