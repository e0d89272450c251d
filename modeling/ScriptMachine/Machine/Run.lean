import ScriptMachine.Code.Listing
import ScriptMachine.Machine.Step

/-! Running a chunk. Loading turns the constants of a chunk and of the functions nested in it into
objects; a run then takes as many steps as it is given fuel for. -/
namespace ScriptMachine

namespace Action

def addConstant (value : Value) : Object → Object
  | .function chunk constants => .function chunk (constants.push value)
  | other => other

mutual

/-- Loads a function. Until it is finished it is kept alive as one being loaded. -/
def load : Chunk → Action Handle
  | ⟨name, parameterCount, captureCount, code, lines, constants⟩ => do
    let h ← allocateFunction ⟨name, parameterCount, captureCount, code, lines, constants⟩
    modify fun m => { m with loading := h :: m.loading }
    loadConstants h constants
    return h

def loadConstants (h : Handle) : List (Constant Chunk) → Action Unit
  | [] => return ()
  | first :: rest => do
    let value ← loadConstant first
    updateObject h (addConstant value)
    loadConstants h rest

def loadConstant : Constant Chunk → Action Value
  | .number value => return .number value
  | .string text => return .object (← allocateString text)
  | .function chunk => return .object (← load chunk)

end

/-- Prepares a run: the chunk's closure lies on the stack and its frame is the only one. -/
def start (chunk : Chunk) : Action Unit := do
  modify fun m => { m.reset with status := .running }
  let function ← load chunk
  let closure ← allocateClosure function
  push (.object closure)
  modify fun m => { m with loading := [] }
  callClosure closure 0

end Action

/-- What a run comes to. It is unfinished when the fuel ran out. -/
inductive Outcome where
  | value (result : Value)
  | error (error : RuntimeError)
  | stuck
  | unfinished
  deriving DecidableEq, Repr

namespace Machine

/-- The machine stops; after a fault it keeps its stacks. -/
def conclude (m : Machine) : Stop → Outcome × Machine
  | .finished => (.value m.result, { m with status := .halted })
  | .fault error => (.error error, { m with status := .pausedOnError })
  | .stuck => (.stuck, m)

/-- Goes on with a run under a host. -/
def resumeWith (host : Host) : Nat → Machine → Outcome × Machine
  | 0, m => (.unfinished, m)
  | fuel + 1, m =>
    match (Action.step host).run m with
    | .ok _ m => resumeWith host fuel m
    | .error stop m => m.conclude stop

def resume (fuel : Nat) (m : Machine) : Outcome × Machine :=
  m.resumeWith .standard fuel

/-- Runs a chunk with the globals in use. -/
def executeWith (host : Host) (fuel : Nat) (chunk : Chunk) (m : Machine) : Outcome × Machine :=
  match (Action.start chunk).run m with
  | .ok _ m => m.resumeWith host fuel
  | .error stop m => m.conclude stop

def execute (fuel : Nat) (chunk : Chunk) (m : Machine) : Outcome × Machine :=
  m.executeWith .standard fuel chunk

/-- Runs a chunk with globals of its own, which go when it ends. -/
def executeAlone (fuel : Nat) (chunk : Chunk) (m : Machine) : Outcome × Machine :=
  let (outcome, after) :=
    execute fuel chunk { m with globals := ∅, shelved := m.globals :: m.shelved }
  (outcome, { after with globals := m.globals, shelved := m.shelved })

/-- The stack and the next instruction, as a trace shows them. -/
def snapshot (m : Machine) : Bytes :=
  let values := m.stack.toList.flatMap fun value => m.heap.text value ++ ascii " "
  let row :=
    match m.frames with
    | frame :: _ =>
      match m.functionOf? frame.closure with
      | some (chunk, _) => (chunk.row frame.ip).1
      | none => []
    | [] => []
  ascii "[ " ++ values ++ ascii "]" ++ [Byte.lineFeed] ++ row ++ [Byte.lineFeed]

/-- Goes on with a run and writes a snapshot before each step. -/
def resumeTraced : Nat → Machine → Outcome × Machine
  | 0, m => (.unfinished, m)
  | fuel + 1, m =>
    match (Action.step .standard).run { m with output := m.output ++ m.snapshot } with
    | .ok _ m => resumeTraced fuel m
    | .error stop m => m.conclude stop

def executeTraced (fuel : Nat) (chunk : Chunk) (m : Machine) : Outcome × Machine :=
  match (Action.start chunk).run m with
  | .ok _ m => m.resumeTraced fuel
  | .error stop m => m.conclude stop

/-- The machine after an action, whatever it came to. -/
def after {α : Type} (m : Machine) (action : Action α) : Machine :=
  match action.run m with
  | .ok _ m => m
  | .error _ m => m

def defineNative (m : Machine) (name : Bytes) (native : Native) : Machine :=
  m.after (Action.defineNative name native)

/-- The functions that every script finds: `str` and `clock`. -/
def defineBuiltins (m : Machine) : Machine :=
  (m.defineNative (ascii "str") .str).defineNative (ascii "clock") .clock

/-- A machine with the standard policy and the builtin functions. -/
def standard (clock : Float) : Machine :=
  (new .standard clock).defineBuiltins

def global? (m : Machine) (name : Bytes) : Option Value := do
  m.globals[← m.heap.find? name]?

/-- What the machine wrote since its output was last taken. -/
def takeOutput (m : Machine) : Bytes × Machine :=
  (m.output.toList, { m with output := #[] })

end Machine

end ScriptMachine
