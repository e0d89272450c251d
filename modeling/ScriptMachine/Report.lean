import ScriptMachine.Diagnostic
import ScriptMachine.Machine.Fault

/-! Errors as a terminal shows them: a headline with its colours, then the source lines concerned
with a row of marks under each, or the active functions. -/
namespace ScriptMachine.Report

def red : Bytes := ascii "\x1B[31m"
def cyan : Bytes := ascii "\x1B[36m"
def plain : Bytes := ascii "\x1B[0m"

/-- Where the script comes from, and how wide tabs are. -/
structure Setting where
  file : Bytes
  source : Source
  tab : Nat

def headline (place kind message : Bytes) : Bytes :=
  place ++ ascii ": " ++ red ++ ascii "error: " ++ plain ++ cyan ++ kind ++ ascii ": " ++ message ++
    plain ++ [Byte.lineFeed]

def markWith (width : Nat) : Bytes :=
  red ++ List.replicate width 126 ++ plain

/-- The marks under a byte at an offset; a tab is as wide as the setting says. -/
def mark (tab : Nat) (span : Span) (offset : Nat) (b : UInt8) : Bytes :=
  let width := if b = Byte.tab then tab else 1
  if span.start ≤ offset ∧ offset < span.stop then markWith width else List.replicate width 32

/-- The row of marks under a line that starts at an offset. -/
def markRow (tab : Nat) (span : Span) (offset : Nat) : Bytes → Bytes
  | [] => []
  | b :: rest => mark tab span offset b ++ markRow tab span (offset + 1) rest

def isBlankLine (text : Bytes) : Bool :=
  text.all fun b => Byte.isBlank b || b == 11

/-- A line and its marks. An empty range, or one behind the text of the line, has one more mark. -/
def lineWithMarks (s : Setting) (span : Span) (line : Nat) : Bytes :=
  let text := s.source.lineText line
  let start := s.source.lineStart line
  let pointer :=
    if span.start = span.stop ∨ start + text.length ≤ span.start then markWith 1 else []
  text ++ [Byte.lineFeed] ++ markRow s.tab span start text ++ pointer ++ [Byte.lineFeed]

/-- The lines of a range, its last byte included; blank ones are left out if there are several. -/
def lines (s : Setting) (span : Span) : List Nat :=
  let first := s.source.line span.start
  let last := s.source.line (if span.start < span.stop then span.stop - 1 else span.start)
  (List.range' first (last + 1 - first)).filter fun line =>
    first = last || !isBlankLine (s.source.lineText line)

/-- An error at a place of the script. -/
def located (s : Setting) (kind message : Bytes) (span : Span) (position : Position) : Bytes :=
  headline (s.file ++ ascii ":" ++ decimal position.line ++ ascii ":" ++ decimal position.column)
      kind message ++
    (lines s span).flatMap (lineWithMarks s span)

def refusal (s : Setting) (d : Diagnostic) : Bytes :=
  located s d.category.name d.message d.span d.position

def traceRow (entry : TraceEntry) : Bytes :=
  ascii "line " ++ decimal entry.line ++ ascii " in " ++ entry.function ++ ascii "()" ++
    [Byte.lineFeed]

/-- An error of a run, with the active functions. -/
def traced (file kind message : Bytes) (trace : List TraceEntry) : Bytes :=
  let place :=
    match trace with
    | entry :: _ => file ++ ascii ":" ++ decimal entry.line
    | [] => file
  headline place kind message ++ trace.flatMap traceRow

def failure (s : Setting) (e : RuntimeError) : Bytes :=
  traced s.file e.fault.category.name e.fault.message e.trace

end ScriptMachine.Report
