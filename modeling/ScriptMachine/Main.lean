import ScriptMachine.CommandLine

/-! The program on a real terminal. Runs go on in slices, so that output appears and the clock moves
while a script is running. -/
namespace ScriptMachine.Terminal

/-- How many steps are taken between two looks at the clock. -/
def slice : Nat := 4096

def seconds : IO Float := do
  return Float.ofNat (← IO.monoNanosNow) / 1e9

def emit (stream : IO.FS.Stream) (text : Bytes) : IO Unit := do
  stream.write ⟨text.toArray⟩
  stream.flush

/-- Goes on with a run to its end. -/
partial def drive (m : Machine) : IO (Outcome × Machine) := do
  let (outcome, m) := { m with clock := ← seconds }.resume slice
  let (printed, m) := m.takeOutput
  unless printed.isEmpty do
    emit (← IO.getStdout) printed
  match outcome with
  | .unfinished => drive m
  | _ => return (outcome, m)

def execute (chunk : Chunk) (m : Machine) : IO (Outcome × Machine) :=
  match m.execute 0 chunk with
  | (.unfinished, m) => drive m
  | stopped => return stopped

def runFile (path : String) : IO UInt32 := do
  let err ← IO.getStderr
  let name := path.toUTF8.toList
  let refuse (text : Bytes) : IO UInt32 := do
    emit err text
    return 1
  unless CommandLine.suffix.isSuffixOf name do
    return ← refuse CommandLine.wrongExtension
  let contents ← try some <$> IO.FS.readBinFile path catch _ => pure none
  match contents with
  | none => refuse (CommandLine.cannotOpen name)
  | some bytes =>
    let setting : Report.Setting := ⟨name, .ofText bytes.toList, 4⟩
    match setting.source.compile with
    | .error d => refuse (Report.refusal setting d)
    | .ok chunk =>
      match ← execute chunk (.standard (← seconds)) with
      | (.error e, _) => refuse (Report.failure setting e)
      | _ => return 0

/-- The next line of the input with its line feed; empty at the end of the input. -/
partial def readLine (stream : IO.FS.Stream) (read : Array UInt8) : IO Bytes := do
  let next ← stream.read 1
  let read := read ++ next.data
  if next.isEmpty || next.data.contains Byte.lineFeed then return read.toList
  readLine stream read

/-- Answers the lines of the standard input, one after the other. -/
partial def converse (m : Machine) (gathered : Bytes) : IO Unit := do
  let out ← IO.getStdout
  let err ← IO.getStderr
  let text ← readLine (← IO.getStdin) #[]
  if text.isEmpty then
    emit out [Byte.lineFeed]
  else
    let ended := if text.getLast? = some Byte.lineFeed then text else text ++ [Byte.lineFeed]
    let gathered := gathered ++ ended
    match Prompt.read gathered with
    | .more =>
      emit out Prompt.continuation
      converse m gathered
    | .refused d =>
      emit err (Report.refusal (Prompt.setting gathered) d)
      emit out Prompt.question
      converse m []
    | .ready chunk =>
      let (outcome, m) ← execute chunk m
      emit err (Prompt.complaint gathered outcome)
      emit out (Prompt.answer m outcome ++ Prompt.question)
      converse m []

end ScriptMachine.Terminal

open ScriptMachine in
def main (arguments : List String) : IO UInt32 := do
  match arguments with
  | [] =>
    Terminal.emit (← IO.getStdout) Prompt.question
    Terminal.converse (.standard (← Terminal.seconds)) []
    return 0
  | [path] => Terminal.runFile path
  | _ =>
    Terminal.emit (← IO.getStderr) CommandLine.usage
    return 1
