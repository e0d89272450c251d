import ScriptMachine.Bytes

/-! A script with the offsets at which its lines start. Offsets count bytes from zero, lines and
columns from one; a line begins after each line feed. -/
namespace ScriptMachine

/-- A half-open range of offsets. -/
structure Span where
  start : Nat
  stop : Nat
  deriving DecidableEq, Repr

structure Position where
  line : Nat
  column : Nat
  deriving DecidableEq, Repr

/-- The offset after each line feed of a text that starts at `offset`. -/
def startsAfterLineFeeds (offset : Nat) : Bytes → List Nat
  | [] => []
  | b :: rest =>
    if b = Byte.lineFeed then (offset + 1) :: startsAfterLineFeeds (offset + 1) rest
    else startsAfterLineFeeds (offset + 1) rest

structure Source where
  text : Bytes
  size : Nat
  lineStarts : Array Nat
  size_eq : size = text.length
  lineStarts_eq : lineStarts = (0 :: startsAfterLineFeeds 0 text).toArray

namespace Source

def ofText (text : Bytes) : Source :=
  ⟨text, text.length, (0 :: startsAfterLineFeeds 0 text).toArray, rfl, rfl⟩

def lineCount (source : Source) : Nat :=
  source.lineStarts.size

def lineStart (source : Source) (line : Nat) : Nat :=
  source.lineStarts.getD (line - 1) 0

/-- How many of the ascending `starts` are at most `offset`, by bisection between `low` and
`high`. -/
def countUpTo (starts : Array Nat) (offset low high : Nat) : Nat :=
  if low < high then
    let middle := (low + high) / 2
    if starts.getD middle 0 ≤ offset then countUpTo starts offset (middle + 1) high
    else countUpTo starts offset low middle
  else low
termination_by high - low

def line (source : Source) (offset : Nat) : Nat :=
  countUpTo source.lineStarts offset 0 source.lineStarts.size

def position (source : Source) (offset : Nat) : Position :=
  let line := source.line offset
  ⟨line, offset - source.lineStart line + 1⟩

def slice (source : Source) (start stop : Nat) : Bytes :=
  (source.text.drop start).take (stop - start)

/-- Drops the byte from the end of a text, once. -/
def dropFinal (b : UInt8) (text : Bytes) : Bytes :=
  if text.getLast? = some b then text.dropLast else text

/-- A line without its line feed and without a carriage return before that. -/
def lineText (source : Source) (line : Nat) : Bytes :=
  let stop := if line = source.lineCount then source.size else source.lineStart (line + 1)
  dropFinal Byte.carriageReturn
    (dropFinal Byte.lineFeed (source.slice (source.lineStart line) stop))

end Source

end ScriptMachine
