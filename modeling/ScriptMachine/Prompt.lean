import ScriptMachine.Report
import ScriptMachine.Session

/-! The interactive prompt. Lines are gathered until they compile, or until more lines could not
help any more. -/
namespace ScriptMachine.Prompt

def question : Bytes := ascii ">>> "
def continuation : Bytes := ascii "... "
def fileName : Bytes := ascii "<repl>"

def setting (text : Bytes) : Report.Setting :=
  ⟨fileName, .ofText text, 4⟩

/-- What the gathered lines come to. -/
inductive Reading where
  | more
  | refused (d : Diagnostic)
  | ready (chunk : Chunk)

def read (gathered : Bytes) : Reading :=
  match (Source.ofText gathered).compile with
  | .ok chunk => .ready chunk
  | .error d => if d.atEnd then .more else .refused d

/-- What is printed after a run: its value, unless that is nil. -/
def answer (m : Machine) : Outcome → Bytes
  | .value .nil => []
  | .value v => m.heap.text v ++ [Byte.lineFeed]
  | _ => []

def complaint (gathered : Bytes) : Outcome → Bytes
  | .error e => Report.failure (setting gathered) e
  | _ => []

/-- A dialogue: the machine, the lines gathered, and all that was printed. -/
structure Dialogue where
  machine : Machine
  gathered : Bytes
  out : Bytes
  err : Bytes

namespace Dialogue

def start (machine : Machine) : Dialogue :=
  ⟨machine, [], question, []⟩

/-- Takes one more line. -/
def enter (fuel : Nat) (d : Dialogue) (line : Bytes) : Dialogue :=
  let gathered := d.gathered ++ line ++ [Byte.lineFeed]
  match read gathered with
  | .more => { d with gathered, out := d.out ++ continuation }
  | .refused reason =>
    { d with
      gathered := []
      out := d.out ++ question
      err := d.err ++ Report.refusal (setting gathered) reason }
  | .ready chunk =>
    let (outcome, machine) := d.machine.execute fuel chunk
    let (printed, machine) := machine.takeOutput
    { machine
      gathered := []
      out := d.out ++ printed ++ answer machine outcome ++ question
      err := d.err ++ complaint gathered outcome }

def finish (d : Dialogue) : Dialogue :=
  { d with out := d.out ++ [Byte.lineFeed] }

end Dialogue

/-- The lines of an input; what follows the last line feed is a line if it is not empty. -/
def inputLines (input : Bytes) : List Bytes :=
  let pieces := input.splitOn Byte.lineFeed
  if pieces.getLast? = some [] then pieces.dropLast else pieces

/-- A whole dialogue. -/
def converse (fuel : Nat) (clock : Float) (input : Bytes) : Dialogue :=
  ((inputLines input).foldl (Dialogue.enter fuel) (.start (.standard clock))).finish

end ScriptMachine.Prompt
