import ScriptMachine.Journal
import ScriptMachine.Number.Arithmetic

/-! Splitting a script into tokens. Every reading step leaves a shorter rest, so the end of the
script is reached after finitely many tokens. -/
namespace ScriptMachine.Token

/-- A place in a script: the offset and the text from there on. -/
structure Cursor where
  offset : Nat
  rest : Bytes
  deriving DecidableEq, Repr

/-- Skips blanks and comments. A comment starts with `#` or `//` and ends before a line feed. -/
def skip (inComment : Bool) (offset : Nat) : Bytes → Cursor
  | [] => ⟨offset, []⟩
  | b :: rest =>
    if inComment then skip (b ≠ Byte.lineFeed) (offset + 1) rest
    else if Byte.isBlank b then skip false (offset + 1) rest
    else if b = 35 ∨ (b = 47 ∧ rest.head? = some 47) then skip true (offset + 1) rest
    else ⟨offset, b :: rest⟩

/-- The byte that a backslash followed by this one stands for. An escaped line feed stays. -/
def unescape? (b : UInt8) : Option UInt8 :=
  match Byte.char b with
  | '\\' => some Byte.backslash
  | '"' => some Byte.quote
  | 'n' => some Byte.lineFeed
  | 'r' => some Byte.carriageReturn
  | 't' => some Byte.tab
  | '0' => some 0
  | '\n' => some Byte.lineFeed
  | _ => none

/-- Reads on after an opening quote at `start`; `read` holds the bytes so far, last first. -/
def readString (start offset : Nat) (read : Bytes) : Bytes → Body × Cursor
  | [] => (.invalid .unterminatedString ⟨start, start + 1⟩, ⟨offset, []⟩)
  | b :: rest =>
    if b = Byte.quote then (.string read.reverse, ⟨offset + 1, rest⟩)
    else if b = Byte.lineFeed then
      (.invalid .lineBreakInString ⟨offset, offset + 1⟩, ⟨offset, b :: rest⟩)
    else if b = Byte.backslash then
      match rest with
      | [] => (.invalid .unterminatedString ⟨start, start + 1⟩, ⟨offset + 1, []⟩)
      | e :: rest =>
        match unescape? e with
        | some c => readString start (offset + 2) (c :: read) rest
        | none => (.invalid (.badEscape e) ⟨offset, offset + 2⟩, ⟨offset + 2, rest⟩)
    else readString start (offset + 1) (b :: read) rest

/-- The digits after a point, if the text goes on with a point and a digit. -/
def fractionOf (rest : Bytes) : Bytes :=
  match rest with
  | 46 :: more => more.takeWhile Byte.isDigit
  | _ => []

/-- Reads a number whose first digit is at `start`. -/
def readNumber (start : Nat) (first : UInt8) (rest : Bytes) : Body × Cursor :=
  let whole := first :: rest.takeWhile Byte.isDigit
  let rest := rest.dropWhile Byte.isDigit
  let fraction := fractionOf rest
  let taken := if fraction.isEmpty then 0 else fraction.length + 1
  let stop := start + whole.length + taken
  let body :=
    match Number.ofLiteral? whole fraction with
    | some value => .number value
    | none => .invalid .numberOutOfRange ⟨start, stop⟩
  (body, ⟨stop, rest.drop taken⟩)

/-- Reads a name or a reserved word. -/
def readWord (start : Nat) (first : UInt8) (rest : Bytes) : Body × Cursor :=
  let word := first :: rest.takeWhile Byte.isNamePart
  let body :=
    match reservedWords.lookup word with
    | some symbol => .symbol symbol
    | none => .name word
  (body, ⟨start + word.length, rest.dropWhile Byte.isNamePart⟩)

/-- A symbol other than a reserved word, and whether the next byte belongs to it. -/
def symbolAt? (b : UInt8) (next : Option UInt8) : Option (Symbol × Bool) :=
  let orEquals (long short : Symbol) : Option (Symbol × Bool) :=
    if next = some 61 then some (long, true) else some (short, false)
  match Byte.char b with
  | '+' => some (.plus, false)
  | '-' => some (.minus, false)
  | '*' => some (.star, false)
  | '/' => some (.slash, false)
  | '%' => some (.percent, false)
  | '=' => orEquals .equalsEquals .equals
  | '!' => orEquals .notEquals .bang
  | '<' => orEquals .lessEquals .less
  | '>' => orEquals .moreEquals .more
  | ';' => some (.semicolon, false)
  | '(' => some (.leftParen, false)
  | ')' => some (.rightParen, false)
  | '{' => some (.leftBrace, false)
  | '}' => some (.rightBrace, false)
  | ',' => some (.comma, false)
  | '.' => some (.dot, false)
  | _ => none

/-- Reads the token that starts with `b` at `start`. -/
def readBody (start : Nat) (b : UInt8) (rest : Bytes) : Body × Cursor :=
  match symbolAt? b rest.head? with
  | some (symbol, false) => (.symbol symbol, ⟨start + 1, rest⟩)
  | some (symbol, true) => (.symbol symbol, ⟨start + 2, rest.tail⟩)
  | none =>
    if b = Byte.quote then readString start (start + 1) [] rest
    else if Byte.isDigit b then readNumber start b rest
    else if Byte.isNameStart b then readWord start b rest
    else (.invalid (.unexpectedByte b) ⟨start, start + 1⟩, ⟨start + 1, rest⟩)

/-- The next token at or after the cursor, and the cursor behind it. -/
def read (source : Source) (cursor : Cursor) : Token × Cursor :=
  let start := skip false cursor.offset cursor.rest
  match start.rest with
  | [] =>
    (⟨.endOfScript, ⟨start.offset, start.offset⟩, source.position start.offset, []⟩, start)
  | b :: rest =>
    let (body, after) := readBody start.offset b rest
    (⟨body, ⟨start.offset, after.offset⟩, source.position start.offset,
      start.rest.take (after.offset - start.offset)⟩, after)

theorem length_skip_le (inComment : Bool) (offset : Nat) (text : Bytes) :
    (skip inComment offset text).rest.length ≤ text.length := by
  induction text generalizing inComment offset with
  | nil => simp [skip]
  | cons b rest ih =>
    simp only [skip, List.length_cons]
    split
    · exact Nat.le_succ_of_le (ih ..)
    split
    · exact Nat.le_succ_of_le (ih ..)
    split
    · exact Nat.le_succ_of_le (ih ..)
    · simp

theorem length_readString_le (start offset : Nat) (read text : Bytes) :
    (readString start offset read text).2.rest.length ≤ text.length := by
  fun_induction readString start offset read text <;> simp_all <;> omega

theorem length_readNumber_le (start : Nat) (first : UInt8) (rest : Bytes) :
    (readNumber start first rest).2.rest.length ≤ rest.length := by
  have := (List.dropWhile_sublist Byte.isDigit : (rest.dropWhile _).Sublist rest).length_le
  simp only [readNumber, List.length_drop]
  omega

theorem length_readWord_le (start : Nat) (first : UInt8) (rest : Bytes) :
    (readWord start first rest).2.rest.length ≤ rest.length :=
  (List.dropWhile_sublist Byte.isNamePart).length_le

theorem length_readBody_le (start : Nat) (b : UInt8) (rest : Bytes) :
    (readBody start b rest).2.rest.length ≤ rest.length := by
  unfold readBody
  split
  · simp
  · simp
  split
  · exact length_readString_le ..
  split
  · exact length_readNumber_le ..
  split
  · exact length_readWord_le ..
  · simp

/-- A token other than the end takes at least one byte. -/
theorem length_read_lt (source : Source) (cursor : Cursor)
    (h : (read source cursor).1.body ≠ .endOfScript) :
    (read source cursor).2.rest.length < cursor.rest.length := by
  have hs := length_skip_le false cursor.offset cursor.rest
  cases he : (skip false cursor.offset cursor.rest).rest with
  | nil => simp [read, he] at h
  | cons b rest =>
    have hb := length_readBody_le (skip false cursor.offset cursor.rest).offset b rest
    simp only [he, List.length_cons] at hs
    simp only [read, he]
    omega

/-- All tokens from the cursor on, up to and including the end. -/
def readAll (source : Source) (cursor : Cursor) : List Token :=
  let token := read source cursor
  if token.1.body = .endOfScript then [token.1]
  else token.1 :: readAll source token.2
termination_by cursor.rest.length
decreasing_by exact length_read_lt source cursor ‹_›

/-- The tokens of a script. -/
def tokens (source : Source) : List Token :=
  readAll source ⟨0, source.text⟩

/-- What a faulty token is refused for. -/
def diagnostic? (source : Source) (token : Token) : Option Diagnostic :=
  match token.body with
  | .invalid fault place => some (.locate source (.lexical fault) place)
  | _ => none

end Token

/-- What the scanner knows once it has read this token. -/
def Journal.hear (j : Journal) (source : Source) (token : Token) : Journal :=
  match token.diagnostic? source with
  | some d => j.note .scanner d
  | none => j

/-- Reads tokens one by one and keeps a journal of the faulty ones. -/
structure Scanner where
  source : Source
  cursor : Token.Cursor
  journal : Journal

namespace Scanner

/-- A scanner that has a listener. -/
def start (source : Source) : Scanner :=
  ⟨source, ⟨0, source.text⟩, .aloud⟩

/-- A scanner without a listener. -/
def silent (source : Source) : Scanner :=
  ⟨source, ⟨0, source.text⟩, .silent⟩

/-- Starts again. What has been told stays told. -/
def reset (s : Scanner) : Scanner :=
  { s with cursor := ⟨0, s.source.text⟩, journal := { s.journal with fault := none } }

/-- The first fault since the start. -/
def fault (s : Scanner) : Option Diagnostic :=
  s.journal.fault

def reported (s : Scanner) : List Diagnostic :=
  s.journal.told.map (·.diagnostic)

def next (s : Scanner) : Token × Scanner :=
  let (token, cursor) := Token.read s.source s.cursor
  (token, { s with cursor, journal := s.journal.hear s.source token })

/-- Reads up to and including the end of the script. -/
def all (s : Scanner) : List Token × Scanner :=
  let tokens := Token.readAll s.source s.cursor
  (tokens, tokens.foldl (fun s _ => s.next.2) s)

end Scanner

end ScriptMachine
