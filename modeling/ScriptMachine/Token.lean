import ScriptMachine.Source

/-! The words of the language. A token is a symbol of fixed spelling, a literal, a name, a faulty
stretch of text, or the end of the script. -/
namespace ScriptMachine

/-- Operators, punctuation and reserved words. -/
inductive Symbol where
  | plus | minus | star | slash | percent
  | bang | equals | notEquals | equalsEquals
  | less | lessEquals | more | moreEquals | dot
  | semicolon | leftParen | rightParen | leftBrace | rightBrace | comma
  | andWord | orWord | breakWord | continueWord | elifWord | elseWord | falseWord | funWord
  | ifWord | varWord | loopWord | nilWord | printWord | returnWord | structWord | trueWord
  | whileWord
  deriving DecidableEq, Repr

namespace Symbol

def all : List Symbol :=
  [plus, minus, star, slash, percent, bang, equals, notEquals, equalsEquals, less, lessEquals,
    more, moreEquals, dot, semicolon, leftParen, rightParen, leftBrace, rightBrace, comma, andWord,
    orWord, breakWord, continueWord, elifWord, elseWord, falseWord, funWord, ifWord, varWord,
    loopWord, nilWord, printWord, returnWord, structWord, trueWord, whileWord]

/-- How the symbol is written; `fun` and `var` have a second spelling. -/
def spelling : Symbol → String
  | plus => "+" | minus => "-" | star => "*" | slash => "/" | percent => "%"
  | bang => "!" | equals => "=" | notEquals => "!=" | equalsEquals => "=="
  | less => "<" | lessEquals => "<=" | more => ">" | moreEquals => ">=" | dot => "."
  | semicolon => ";" | leftParen => "(" | rightParen => ")" | leftBrace => "\x7b"
  | rightBrace => "\x7d" | comma => ","
  | andWord => "and" | orWord => "or" | breakWord => "break" | continueWord => "continue"
  | elifWord => "elif" | elseWord => "else" | falseWord => "false" | funWord => "fun"
  | ifWord => "if" | varWord => "var" | loopWord => "loop" | nilWord => "nil"
  | printWord => "print" | returnWord => "return" | structWord => "struct" | trueWord => "true"
  | whileWord => "while"

end Symbol

/-- The nineteen reserved words. -/
def reservedWords : List (Bytes × Symbol) :=
  [(ascii "and", .andWord), (ascii "or", .orWord), (ascii "break", .breakWord),
    (ascii "continue", .continueWord), (ascii "elif", .elifWord), (ascii "else", .elseWord),
    (ascii "false", .falseWord), (ascii "fun", .funWord), (ascii "func", .funWord),
    (ascii "if", .ifWord), (ascii "var", .varWord), (ascii "let", .varWord),
    (ascii "loop", .loopWord), (ascii "nil", .nilWord), (ascii "print", .printWord),
    (ascii "return", .returnWord), (ascii "struct", .structWord), (ascii "true", .trueWord),
    (ascii "while", .whileWord)]

/-- What is wrong with a stretch of text that is no token. -/
inductive LexicalFault where
  | unexpectedByte (b : UInt8)
  | numberOutOfRange
  | unterminatedString
  | lineBreakInString
  | badEscape (b : UInt8)
  deriving DecidableEq, Repr

def LexicalFault.message : LexicalFault → Bytes
  | unexpectedByte b =>
    if Byte.isPrintable b then ascii "unexpected character '" ++ b :: ascii "'"
    else ascii "unexpected character 0x" ++ hexPair b
  | numberOutOfRange => ascii "number literal out of range"
  | unterminatedString => ascii "unterminated string"
  | lineBreakInString => ascii "newline inside string literal"
  | badEscape b =>
    if Byte.isPrintable b then ascii "invalid escape sequence '\\" ++ b :: ascii "'"
    else ascii "invalid escape sequence"

namespace Token

/-- What a token is, without what it holds. -/
inductive Kind where
  | symbol (s : Symbol)
  | number
  | name
  | string
  | invalid
  | endOfScript
  deriving DecidableEq, Repr

namespace Kind

def all : List Kind :=
  Symbol.all.map symbol ++ [number, name, string, invalid, endOfScript]

/-- How messages speak of the kind. -/
def text : Kind → Bytes
  | symbol s => ascii "'" ++ ascii s.spelling ++ ascii "'"
  | number => ascii "number"
  | name => ascii "identifier"
  | string => ascii "string"
  | invalid => ascii "invalid token"
  | endOfScript => ascii "end of file"

end Kind

inductive Body where
  | symbol (s : Symbol)
  | number (value : Float)
  | name (spelling : Bytes)
  | string (text : Bytes)
  | invalid (fault : LexicalFault) (place : Span)
  | endOfScript
  deriving DecidableEq, Repr

def Body.kind : Body → Kind
  | symbol s => .symbol s
  | number _ => .number
  | name _ => .name
  | string _ => .string
  | invalid .. => .invalid
  | endOfScript => .endOfScript

end Token

structure Token where
  body : Token.Body
  span : Span
  position : Position
  lexeme : Bytes
  deriving DecidableEq, Repr

namespace Token

def kind (t : Token) : Kind :=
  t.body.kind

def is (t : Token) (s : Symbol) : Bool :=
  t.kind = .symbol s

end Token

end ScriptMachine
