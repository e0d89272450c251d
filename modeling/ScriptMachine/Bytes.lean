/-! Scripts, names and messages are byte strings. Text written in this library is ASCII, one byte
a character. -/
namespace ScriptMachine

abbrev Bytes := List UInt8

/-- The bytes of a text whose characters are all below U+0100. -/
def ascii (text : String) : Bytes :=
  text.toList.map fun c => UInt8.ofNat c.toNat

/-- The bytes of a number in base ten. -/
def decimal (n : Nat) : Bytes :=
  (Nat.toDigits 10 n).map fun c => UInt8.ofNat c.toNat

/-- The number that a row of digit bytes spells in base ten. -/
def decimalValue (digits : Bytes) : Nat :=
  digits.foldl (fun n b => 10 * n + (b.toNat - 48)) 0

/-- Two lower case hexadecimal digits. -/
def hexPair (b : UInt8) : Bytes :=
  let digits := (Nat.toDigits 16 b.toNat).map fun c => UInt8.ofNat c.toNat
  if digits.length < 2 then 48 :: digits else digits

namespace Byte

abbrev lineFeed : UInt8 := 10
abbrev carriageReturn : UInt8 := 13
abbrev tab : UInt8 := 9
abbrev quote : UInt8 := 34
abbrev backslash : UInt8 := 92

/-- The character with the byte's code. -/
def char (b : UInt8) : Char :=
  Char.ofNat b.toNat

/-- Printable ASCII, the space included. -/
def isPrintable (b : UInt8) : Bool :=
  0x20 ≤ b && b < 0x7F

def isDigit (b : UInt8) : Bool :=
  48 ≤ b && b ≤ 57

def isNameStart (b : UInt8) : Bool :=
  (97 ≤ b && b ≤ 122) || (65 ≤ b && b ≤ 90) || b == 95

def isNamePart (b : UInt8) : Bool :=
  isNameStart b || isDigit b

/-- What separates tokens: space, tab, carriage return, form feed and line feed. -/
def isBlank (b : UInt8) : Bool :=
  b == 32 || b == tab || b == carriageReturn || b == 12 || b == lineFeed

end Byte

namespace Bytes

/-- Fills up with spaces on the right. -/
def padRight (width : Nat) (text : Bytes) : Bytes :=
  text ++ List.replicate (width - text.length) 32

/-- Fills up with spaces on the left. -/
def padLeft (width : Nat) (text : Bytes) : Bytes :=
  List.replicate (width - text.length) 32 ++ text

/-- Byte-wise lexicographic order. -/
def before : Bytes → Bytes → Bool
  | _, [] => false
  | [], _ :: _ => true
  | a :: as, b :: bs => if a < b then true else if a = b then before as bs else false

end Bytes

end ScriptMachine
