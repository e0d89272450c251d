import ScriptMachine.Compile
import ScriptMachine.Machine.Run

/-! A sequence of runs on one machine that share a table of globals. -/
namespace ScriptMachine

/-- `program` is the last one that compiled. -/
structure Session where
  machine : Machine
  program : Option Chunk

namespace Session

/-- What is visible after a run. -/
structure Report where
  outcome : Outcome
  output : Bytes
  machine : Machine

def start (policy : Policy) (clock : Float) (builtins : Bool) (natives : List Native) : Session :=
  let machine := Machine.new policy clock
  let machine := if builtins then machine.defineBuiltins else machine
  ⟨natives.foldl (fun m native => m.defineNative native.name native) machine, none⟩

/-- Takes over the machine after a run. -/
def conclude (s : Session) (run : Machine → Outcome × Machine) : Report × Session :=
  let (outcome, machine) := run { s.machine with output := #[] }
  (⟨outcome, machine.output.toList, machine⟩, { s with machine })

/-- Runs the last program that compiled. -/
def again (fuel : Nat) (s : Session) : Option (Report × Session) :=
  s.program.map fun chunk => s.conclude (Machine.execute fuel chunk)

/-- Compiles and runs a script; a refused one changes nothing. -/
def exec (fuel : Nat) (s : Session) (text : Bytes) : Except Diagnostic (Report × Session) := do
  let chunk ← (Source.ofText text).compile
  return { s with program := some chunk }.conclude (Machine.execute fuel chunk)

/-- Compiles and runs a script with globals of its own. -/
def execAlone (fuel : Nat) (s : Session) (text : Bytes) : Except Diagnostic (Report × Session) := do
  let chunk ← (Source.ofText text).compile
  return { s with program := some chunk }.conclude (Machine.executeAlone fuel chunk)

def reset (s : Session) : Session :=
  { s with machine := s.machine.reset }

def collect (s : Session) : Session :=
  { s with machine := s.machine.collect }

def setGlobal (s : Session) (name : Bytes) (value : Value) : Session :=
  { s with machine := s.machine.after (Action.setGlobalNamed name value) }

/-- A string value is interned before it is stored. -/
def setGlobalString (s : Session) (name text : Bytes) : Session :=
  { s with machine := s.machine.after do
      let h ← Action.allocateString text
      Action.setGlobalNamed name (.object h) }

def defineNative (s : Session) (name : Bytes) (native : Native) : Session :=
  { s with machine := s.machine.defineNative name native }

end Session

/-- Everything that compiling and running a script step by step shows: each finished function, each
step, and at last the result. -/
def tracedRun (fuel : Nat) (clock : Float) (text : Bytes) : Bytes :=
  let compiled := (Source.ofText text).compileVerbose
  let listed (title : Bytes) (chunk : Chunk) : Bytes :=
    ascii "----" ++ title ++ [Byte.lineFeed] ++ chunk.listing
  let functions := compiled.finished.flatMap fun chunk => listed chunk.name chunk
  let ending (kind message : Bytes) : Bytes := kind ++ ascii ": " ++ message ++ [Byte.lineFeed]
  match compiled.outcome with
  | .error d => functions ++ ending d.category.name d.message
  | .ok chunk =>
    let (outcome, m) := (Machine.standard clock).executeTraced fuel chunk
    functions ++ listed (ascii "<script>") chunk ++ m.output.toList ++
      match outcome with
      | .value v => ascii "=> " ++ m.heap.text v ++ [Byte.lineFeed]
      | .error e => ending e.fault.category.name e.fault.message
      | .stuck | .unfinished => []

end ScriptMachine
