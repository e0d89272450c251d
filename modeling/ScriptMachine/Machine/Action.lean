import ScriptMachine.Machine

/-! The primitive actions of the machine. An action may stop the run: because it is over, by a fault
of the program, or stuck, when the state is not one that compiled code can lead to. -/
namespace ScriptMachine

inductive Stop where
  | finished
  | fault (error : RuntimeError)
  | stuck
  deriving DecidableEq, Repr

abbrev Action := EStateM Stop Machine

namespace Action

def stuck {α : Type} : Action α :=
  throw .stuck

/-- Stops with a fault at the current place. -/
def fault {α : Type} (f : RuntimeFault) : Action α := do
  throw (.fault ⟨f, (← get).trace⟩)

/-- The value, unless it is missing. -/
def need {α : Type} : Option α → Action α
  | some a => return a
  | none => stuck

def push (value : Value) : Action Unit := do
  if Machine.stackLimit ≤ (← get).stack.size then fault .stackFull
  modify fun m => { m with stack := m.stack.push value }

def pop : Action Unit := do
  if (← get).stack.isEmpty then stuck
  modify fun m => { m with stack := m.stack.pop }

/-- The value with `depth` others above it. -/
def peek (depth : Nat) : Action Value := do
  let m ← get
  if depth < m.stack.size then need m.stack[m.stack.size - 1 - depth]? else stuck

def slot (index : Nat) : Action Value := do
  need (← get).stack[index]?

def setSlot (index : Nat) (value : Value) : Action Unit := do
  unless index < (← get).stack.size do stuck
  modify fun m => { m with stack := m.stack.setIfInBounds index value }

def replaceTop (value : Value) : Action Unit := do
  let size := (← get).stack.size
  if size = 0 then stuck
  setSlot (size - 1) value

/-- Drops values until `size` are left. -/
def shrinkTo (size : Nat) : Action Unit := do
  unless size ≤ (← get).stack.size do stuck
  modify fun m => { m with stack := m.stack.shrink size }

def frame : Action Frame := do
  need (← get).frames.head?

def modifyFrame (change : Frame → Frame) : Action Unit :=
  modify fun m => { m with frames := m.frames.modifyHead change }

def object (h : Handle) : Action Object := do
  need ((← get).heap.get? h)

def updateObject (h : Handle) (change : Object → Object) : Action Unit :=
  modify fun m => { m with heap := m.heap.update h change }

/-- The object of a value, if it is one. -/
def objectOf? (value : Value) : Action (Option Object) :=
  match value with
  | .object h => some <$> object h
  | _ => return none

def stringOf? (value : Value) : Action (Option Bytes) := do
  match ← objectOf? value with
  | some (.string text) => return some text
  | _ => return none

def typeName (value : Value) : Action Bytes := do
  return (← get).heap.typeName value

def text (value : Value) : Action Bytes := do
  return (← get).heap.text value

/-- The handle of a string that a constant names. -/
def nameOf (value : Value) : Action Handle := do
  match value with
  | .object h =>
    match ← object h with
    | .string _ => return h
    | _ => stuck
  | _ => stuck

def nameText (name : Handle) : Action Bytes := do
  return (← get).heap.stringText name

def runningFunction : Action (Chunk × Array Value) := do
  let m ← get
  match m.frames with
  | frame :: _ => need (m.functionOf? frame.closure)
  | [] => stuck

def constant (index : Nat) : Action Value := do
  let (_, constants) ← runningFunction
  need constants[index]?

/-- The cell that the running closure captured as number `index`. -/
def capturedCell (index : Nat) : Action Handle := do
  match ← object (← frame).closure with
  | .closure _ captures => need captures[index]?
  | _ => stuck

def cellState (h : Handle) : Action Cell := do
  match ← object h with
  | .cell state => return state
  | _ => stuck

def collect : Action Unit :=
  modify Machine.collect

/-- Runs a collection if the policy asks for one before an allocation of so many bytes. -/
def makeRoom (size : Nat) : Action Unit := do
  if (← get).heap.isDue size then collect

def allocate (object : Object) (size : Nat) : Action Handle := do
  makeRoom size
  modifyGet fun m =>
    let (h, heap) := m.heap.insert object size
    (h, { m with heap })

/-- The interned string with these bytes, new or already there. -/
def allocateString (text : Bytes) : Action Handle := do
  match (← get).heap.find? text with
  | some h => return h
  | none =>
    makeRoom (Footprint.string text)
    modifyGet fun m =>
      let (h, heap) := m.heap.insertString text
      (h, { m with heap })

def allocateFunction (chunk : Chunk) : Action Handle :=
  allocate (.function chunk #[]) (Footprint.function chunk)

def allocateClosure (function : Handle) : Action Handle := do
  match ← object function with
  | .function chunk _ => allocate (.closure function #[]) (Footprint.closure chunk.captureCount)
  | _ => stuck

def allocateCell (slot : Nat) : Action Handle :=
  allocate (.cell (.onStack slot)) Footprint.cell

def allocateNative (name : Bytes) (function : Native) : Action Handle :=
  allocate (.native name function) (Footprint.native name)

def allocateStruct (name : Handle) (fields : List Handle) : Action Handle :=
  allocate (.struct name fields) (Footprint.struct fields.length)

/-- A record starts with all its fields nil. -/
def allocateRecord (struct : Handle) : Action Handle := do
  match ← object struct with
  | .struct _ fields =>
    allocate (.record struct (Array.replicate fields.length .nil)) (Footprint.record fields.length)
  | _ => stuck

/-- Keeps a value alive during an action. -/
def pinning {α : Type} (value : Value) (action : Action α) : Action α := do
  modify fun m => { m with pinned := value :: m.pinned }
  let result ← action
  modify fun m => { m with pinned := m.pinned.tail }
  return result

/-- Stores a global under a name given by its bytes. -/
def setGlobalNamed (name : Bytes) (value : Value) : Action Unit := do
  let h ← pinning value (allocateString name)
  modify fun m => { m with globals := m.globals.insert h value }

def defineNative (name : Bytes) (function : Native) : Action Unit := do
  let h ← allocateNative name function
  setGlobalNamed name (.object h)

def write (bytes : Bytes) : Action Unit :=
  modify fun m => { m with output := m.output ++ bytes }

end Action

end ScriptMachine
