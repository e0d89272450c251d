import ScriptMachine.Machine.NativeCall
import ScriptMachine.Number.Arithmetic

/-! One instruction. Operands stay on the stack until nothing can fail any more, so a failing
instruction leaves the state as it was and a collection in between finds them. -/
namespace ScriptMachine.Action

def arithmetic (op : BinaryOp) (lhs rhs : Float) : Value :=
  match op with
  | .add => .number (lhs + rhs)
  | .subtract => .number (lhs - rhs)
  | .multiply => .number (lhs * rhs)
  | .divide => .number (lhs / rhs)
  | .remainder => .number (Number.remainder lhs rhs)
  | .less => .bool (lhs < rhs)
  | .lessEqual => .bool (lhs ≤ rhs)
  | .more => .bool (rhs < lhs)
  | .moreEqual => .bool (rhs ≤ lhs)
  | .equal => .bool (lhs == rhs)
  | .notEqual => .bool (lhs != rhs)

/-- What two strings give: their order, or nothing for an operation on numbers only. -/
def comparison? (op : BinaryOp) (lhs rhs : Bytes) : Option Bool :=
  match op with
  | .less => some (lhs.before rhs)
  | .lessEqual => some (!rhs.before lhs)
  | .more => some (rhs.before lhs)
  | .moreEqual => some (!lhs.before rhs)
  | _ => none

/-- Replaces the two topmost values. -/
def finishBinary (result : Value) : Action Unit := do
  pop
  replaceTop result

def binaryFault (op : BinaryOp) (lhs rhs : Value) : Action Unit := do
  fault (.operands op (← typeName lhs) (← typeName rhs))

/-- Strings can be joined and ordered. -/
def binaryStrings (op : BinaryOp) (lhs rhs : Value) : Action Unit := do
  match ← stringOf? lhs, ← stringOf? rhs with
  | some a, some b =>
    if op = .add then
      let joined ← allocateString (a ++ b)
      finishBinary (.object joined)
    else
      match comparison? op a b with
      | some result => finishBinary (.bool result)
      | none => binaryFault op lhs rhs
  | _, _ => binaryFault op lhs rhs

def binary (op : BinaryOp) : Action Unit := do
  let rhs ← peek 0
  let lhs ← peek 1
  match op, lhs, rhs with
  | .equal, _, _ => finishBinary (.bool (lhs.equals rhs))
  | .notEqual, _, _ => finishBinary (.bool (!lhs.equals rhs))
  | op, .number a, .number b => finishBinary (arithmetic op a b)
  | op, lhs, rhs => binaryStrings op lhs rhs

def unary (op : UnaryOp) : Action Unit := do
  let value ← peek 0
  match op, value with
  | .negate, .number n => replaceTop (.number (-n))
  | .not, .bool b => replaceTop (.bool (!b))
  | op, value => fault (.operand op (← typeName value))

def getGlobal (name : Handle) : Action Unit := do
  match (← get).globals[name]? with
  | some value => push value
  | none => fault (.notDefined (← nameText name))

def setGlobal (name : Handle) : Action Unit := do
  if (← get).globals.contains name then
    let value ← peek 0
    modify fun m => { m with globals := m.globals.insert name value }
  else fault (.notDefined (← nameText name))

def getCapture (index : Nat) : Action Unit := do
  match ← cellState (← capturedCell index) with
  | .onStack place => push (← slot place)
  | .closed value => push value

def setCapture (index : Nat) : Action Unit := do
  let cell ← capturedCell index
  let value ← peek 0
  match ← cellState cell with
  | .onStack place => setSlot place value
  | .closed _ => updateObject cell fun _ => .cell (.closed value)

/-- The struct and the fields of a record, if the value is one. -/
def record? (value : Value) : Action (Option (Handle × Array Value)) := do
  match ← objectOf? value with
  | some (.record struct fields) => return some (struct, fields)
  | _ => return none

/-- The place of a field in a struct. -/
def fieldIndex (struct label : Handle) : Action Nat := do
  match ← object struct with
  | .struct name labels =>
    match labels.findIdx? (· = label) with
    | some index => return index
    | none => fault (.noField (← nameText name) (← nameText label))
  | _ => stuck

def getField (label : Handle) : Action Unit := do
  let value ← peek 0
  match ← record? value with
  | some (struct, fields) => replaceTop (← need fields[← fieldIndex struct label]?)
  | none => fault (.getFieldOf (← nameText label) (← typeName value))

def setFieldAt (index : Nat) (value : Value) : Object → Object
  | .record struct fields => .record struct (fields.setIfInBounds index value)
  | other => other

def setField (label : Handle) : Action Unit := do
  let target ← peek 0
  let value ← peek 1
  match target, ← record? target with
  | .object h, some (struct, fields) =>
    let index ← fieldIndex struct label
    unless index < fields.size do stuck
    updateObject h (setFieldAt index value)
    pop
  | _, _ => fault (.setFieldOf (← nameText label) (← typeName target))

/-- The cell of a stack slot: the open one if there is one, else a new one. -/
def captureSlot (place : Nat) : Action Handle := do
  let m ← get
  match m.openCells.find? fun h => match m.heap.get? h with
      | some (.cell (.onStack p)) => p = place
      | _ => false with
  | some h => return h
  | none =>
    let h ← allocateCell place
    modify fun m => { m with openCells := h :: m.openCells }
    return h

def addCapture (cell : Handle) : Object → Object
  | .closure function captures => .closure function (captures.push cell)
  | other => other

/-- The cell that a new closure captures. -/
def captureCell (capture : Capture) : Action Handle := do
  if capture.isLocal then captureSlot ((← frame).base + capture.index)
  else capturedCell capture.index

def addCaptures (closure : Handle) : List Capture → Action Unit
  | [] => return ()
  | first :: rest => do
    let cell ← captureCell first
    updateObject closure (addCapture cell)
    addCaptures closure rest

/-- Makes a closure. It goes onto the stack before its captures are added, so that it is kept; if
there is no room for it, only the first five bytes of the instruction have been read. -/
def makeClosure (function : Handle) (captures : List Capture) : Action Unit := do
  let closure ← allocateClosure function
  if Machine.stackLimit ≤ (← get).stack.size then
    modifyFrame fun f => { f with ip := f.ip - (1 + 2 * captures.length) }
    fault .stackFull
  push (.object closure)
  addCaptures closure captures

/-- Closes those of the open cells whose slots are at or above `place`: each keeps the value of its
slot. The others are returned. -/
def closeFrom (place : Nat) : List Handle → Action (List Handle)
  | [] => return []
  | h :: rest => do
    match ← cellState h with
    | .onStack p =>
      if p < place then return h :: (← closeFrom place rest)
      let value ← slot p
      updateObject h fun _ => .cell (.closed value)
      closeFrom place rest
    | .closed _ => stuck

/-- Takes the cells of all slots from `place` on off the stack. -/
def closeCells (place : Nat) : Action Unit := do
  let keep ← closeFrom place (← get).openCells
  modify fun m => { m with openCells := keep }

def callClosure (closure : Handle) (arguments : Nat) : Action Unit := do
  let m ← get
  let (chunk, _) ← need (m.functionOf? closure)
  if arguments ≠ chunk.parameterCount then
    fault (.argumentCount chunk.name chunk.parameterCount arguments)
  if Machine.frameLimit ≤ m.frames.length then fault .callStackFull
  unless arguments ≤ m.stack.size do stuck
  modify fun m => { m with frames := ⟨closure, 0, m.stack.size - arguments⟩ :: m.frames }

def callNative (host : Host) (name : Bytes) (native : Native) (arguments : Nat) : Action Unit := do
  match host.arity native with
  | some expected =>
    if arguments ≠ expected then fault (.argumentCount name expected arguments)
  | none => pure ()
  let stack := (← get).stack
  unless arguments < stack.size do stuck
  let values := (stack.extract (stack.size - arguments) stack.size).toList
  match ← (host.call native values).run with
  | .ok result =>
    shrinkTo ((← get).stack.size - arguments - 1)
    push result
  | .error failure => fault (.native name failure.category failure.message)

def construct (struct : Handle) (name : Handle) (labels : List Handle) (arguments : Nat) :
    Action Unit := do
  if arguments ≠ labels.length then
    fault (.argumentCount (← nameText name) labels.length arguments)
  let h ← allocateRecord struct
  let stack := (← get).stack
  unless arguments < stack.size do stuck
  let values := stack.extract (stack.size - arguments) stack.size
  updateObject h fun _ => .record struct values
  shrinkTo (stack.size - arguments - 1)
  push (.object h)

def call (host : Host) (arguments : Nat) : Action Unit := do
  let callee ← peek arguments
  match callee, ← objectOf? callee with
  | .object h, some (.closure ..) => callClosure h arguments
  | .object _, some (.native name native) => callNative host name native arguments
  | .object h, some (.struct name labels) => construct h name labels arguments
  | _, _ => fault (.notCallable (← typeName callee))

/-- Ends the running frame; its value replaces the callee and everything above it. -/
def ret : Action Unit := do
  let result ← peek 0
  let ended ← frame
  closeCells ended.base
  modify fun m => { m with frames := m.frames.tail }
  if ended.base = 0 then stuck
  shrinkTo (ended.base - 1)
  if (← get).frames.isEmpty then
    modify fun m => { m with result }
    throw .finished
  push result

def jumpForward (distance : Nat) : Action Unit :=
  modifyFrame fun f => { f with ip := f.ip + distance }

def jumpBack (distance : Nat) : Action Unit := do
  unless distance ≤ (← frame).ip do stuck
  modifyFrame fun f => { f with ip := f.ip - distance }

def jumpIf (condition : Bool) (distance : Nat) : Action Unit := do
  match ← peek 0 with
  | .bool b =>
    pop
    if b = condition then jumpForward distance
  | other => fault (.condition (← typeName other))

/-- The handles of the strings that some constants name. -/
def namesOf : List Nat → Action (List Handle)
  | [] => return []
  | first :: rest => do
    let name ← nameOf (← constant first)
    return name :: (← namesOf rest)

def execute (host : Host) (i : Instr) : Action Unit := do
  match i with
  | .binary op => binary op
  | .unary op => unary op
  | .loadConstant n => push (← constant n)
  | .getLocal n => push (← slot ((← frame).base + n))
  | .setLocal n => setSlot ((← frame).base + n) (← peek 0)
  | .defineGlobal n =>
    let name ← nameOf (← constant n)
    let value ← peek 0
    modify fun m => { m with globals := m.globals.insert name value }
    pop
  | .getGlobal n => getGlobal (← nameOf (← constant n))
  | .setGlobal n => setGlobal (← nameOf (← constant n))
  | .getCapture n => getCapture n
  | .setCapture n => setCapture n
  | .getField n => getField (← nameOf (← constant n))
  | .setField n => setField (← nameOf (← constant n))
  | .loadNil => push .nil
  | .loadBool b => push (.bool b)
  | .closure n captures =>
    match ← constant n with
    | .object function => makeClosure function captures
    | _ => stuck
  | .createStruct n fields =>
    let name ← nameOf (← constant n)
    let labels ← namesOf fields
    push (.object (← allocateStruct name labels))
  | .jump n => jumpForward n
  | .jumpIf condition n => jumpIf condition n
  | .jumpBack n => jumpBack n
  | .call n => call host n
  | .ret => ret
  | .closeCell =>
    let size := (← get).stack.size
    if size = 0 then stuck
    closeCells (size - 1)
    pop
  | .pop => pop
  | .duplicate => push (← peek 0)
  | .print =>
    write ((← text (← peek 0)) ++ [Byte.lineFeed])
    pop

/-- Reads the next instruction of the running frame. -/
def fetch : Action Instr := do
  let (chunk, _) ← runningFunction
  let i ← need (chunk.instr? (← frame).ip)
  modifyFrame fun f => { f with ip := f.ip + i.size }
  return i

def step (host : Host) : Action Unit := do
  execute host (← fetch)

end ScriptMachine.Action
