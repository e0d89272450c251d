import ScriptMachine.Prompt

/-! The command line: without an argument it converses, with one it runs a script file. -/
namespace ScriptMachine.CommandLine

structure Result where
  exitCode : Nat
  out : Bytes
  err : Bytes
  deriving DecidableEq, Repr

def usage : Bytes := ascii "usage: lla [file.lla]\n"

def suffix : Bytes := ascii ".lla"

def wrongExtension : Bytes :=
  ascii "fatal error: input file does not use the '.lla' file extension\n"

def cannotOpen (path : Bytes) : Bytes :=
  ascii "fatal error: failed to open file '" ++ path ++ ascii "'\n"

def failed (err : Bytes) : Result :=
  ⟨1, [], err⟩

/-- Runs a script with the builtin functions. -/
def runScript (fuel : Nat) (clock : Float) (s : Report.Setting) : Result :=
  match s.source.compile with
  | .error d => failed (Report.refusal s d)
  | .ok chunk =>
    let (outcome, machine) := (Machine.standard clock).execute fuel chunk
    match outcome with
    | .error e => ⟨1, machine.output.toList, Report.failure s e⟩
    | _ => ⟨0, machine.output.toList, []⟩

/-- Runs the script at a path; `contents` is what can be read there. -/
def runFile (fuel : Nat) (clock : Float) (path : Bytes) (contents : Option Bytes) : Result :=
  if suffix.isSuffixOf path then
    match contents with
    | some text => runScript fuel clock ⟨path, .ofText text, 4⟩
    | none => failed (cannotOpen path)
  else failed wrongExtension

/-- Acts on the arguments. -/
def run (fuel : Nat) (clock : Float) (arguments : List Bytes) (contents : Bytes → Option Bytes)
    (input : Bytes) : Result :=
  match arguments with
  | [] =>
    let dialogue := Prompt.converse fuel clock input
    ⟨0, dialogue.out, dialogue.err⟩
  | [path] => runFile fuel clock path (contents path)
  | _ => failed usage

end ScriptMachine.CommandLine
