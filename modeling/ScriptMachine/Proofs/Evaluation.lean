import Mathlib
import ScriptMachine.Compile
import ScriptMachine.Machine.Run

/-! What a script means, read off its tree. There is no code, no stack and no frame: variables of open
blocks have names, and what the script shares with its host is in the store. Only scripts without
functions of their own have a meaning here. -/
namespace ScriptMachine

namespace Heap

/-- The text of a value, if it is a string. -/
def string? (heap : Heap) (value : Value) : Option Bytes :=
  match value.handle?.bind heap.get? with
  | some (.string text) => some text
  | _ => none

end Heap

/-- The variables of one block, latest first. -/
abbrev Bindings := List (Bytes × Value)

/-- The open blocks, innermost first, and what all of them share: objects, globals and the output. -/
structure World where
  store : Machine
  blocks : List Bindings

/-- Why an evaluation does not go on. A stuck one has met a function, or a native function that stops
the machine. -/
inductive Halt where
  | leave
  | again
  | fault (fault : RuntimeFault)
  | stuck
  | unfinished

abbrev Evaluation := EStateM Halt World

namespace World

def setHeap (w : World) (heap : Heap) : World :=
  { w with store := { w.store with heap } }

def setGlobal (w : World) (h : Handle) (value : Value) : World :=
  { w with store := { w.store with globals := w.store.globals.insert h value } }

def write (w : World) (bytes : Bytes) : World :=
  { w with store := { w.store with output := w.store.output ++ bytes } }

/-- Only the outermost `depth` blocks stay. -/
def cut (depth : Nat) (w : World) : World :=
  { w with blocks := w.blocks.drop (w.blocks.length - depth) }

/-- The values of all variables of blocks, latest first. -/
def values (w : World) : List Value :=
  w.blocks.flatten.map Prod.snd

/-- The names of all variables, block by block. -/
def names (w : World) : List (List Bytes) :=
  w.blocks.map (List.map Prod.fst)

/-- The value of the latest variable of a name. -/
def local? (w : World) (name : Bytes) : Option Value :=
  (w.blocks.flatten.find? (·.1 = name)).map Prod.snd

end World

namespace Bindings

/-- Gives the latest variable of a name another value. -/
def assign (name : Bytes) (value : Value) : Bindings → Bindings
  | [] => []
  | (other, old) :: rest =>
    if other = name then (other, value) :: rest else (other, old) :: assign name value rest

/-- The same across blocks, from the innermost on. -/
def assignIn (name : Bytes) (value : Value) : List Bindings → List Bindings
  | [] => []
  | block :: outer =>
    if block.any (·.1 = name) then block.assign name value :: outer
    else block :: assignIn name value outer

end Bindings

namespace Evaluation

def fail {α : Type} (f : RuntimeFault) : Evaluation α :=
  throw (.fault f)

def heap : Evaluation Heap := do
  return (← get).store.heap

def setHeap (heap : Heap) : Evaluation Unit :=
  modify fun w => w.setHeap heap

/-- The one string with these bytes. -/
def intern (text : Bytes) : Evaluation Handle := do
  let heap ← heap
  match heap.find? text with
  | some h => return h
  | none =>
    setHeap (heap.insertString text).2
    return (heap.insertString text).1

/-- A string as a value. -/
def string (text : Bytes) : Evaluation Value := do
  return .object (← intern text)

def internAll : List Bytes → Evaluation (List Handle)
  | [] => return []
  | first :: rest => do
    let h ← intern first
    return h :: (← internAll rest)

/-- A new object. -/
def create (object : Object) (size : Nat) : Evaluation Value := do
  let heap ← heap
  setHeap (heap.insert object size).2
  return .object (heap.insert object size).1

/-! Operators. -/

def refuse (op : BinaryOp) (lhs rhs : Value) : Evaluation Value := do
  let heap ← heap
  fail (.operands op (heap.typeName lhs) (heap.typeName rhs))

/-- Strings can be joined and ordered. -/
def strings (op : BinaryOp) (lhs rhs : Value) : Evaluation Value := do
  let heap ← heap
  match heap.string? lhs, heap.string? rhs with
  | some a, some b =>
    if op = .add then string (a ++ b)
    else
      match Action.comparison? op a b with
      | some result => return .bool result
      | none => refuse op lhs rhs
  | _, _ => refuse op lhs rhs

/-- Equality is defined on all values, the other operators on two numbers and some on two strings. -/
def binary (op : BinaryOp) (lhs rhs : Value) : Evaluation Value :=
  match op, lhs, rhs with
  | .equal, _, _ => return .bool (lhs.equals rhs)
  | .notEqual, _, _ => return .bool (!lhs.equals rhs)
  | op, .number a, .number b => return Action.arithmetic op a b
  | op, lhs, rhs => strings op lhs rhs

def unary (op : UnaryOp) (operand : Value) : Evaluation Value :=
  match op, operand with
  | .negate, .number n => return .number (-n)
  | .not, .bool b => return .bool (!b)
  | op, operand => do fail (.operand op ((← heap).typeName operand))

/-- The truth of a condition. -/
def truth (condition : Value) : Evaluation Bool :=
  match condition with
  | .bool b => return b
  | other => do fail (.condition ((← heap).typeName other))

/-! Variables. -/

def readGlobal (name : Bytes) : Evaluation Value := do
  let m := (← get).store
  match (m.heap.find? name).bind (m.globals[·]?) with
  | some value => return value
  | none => fail (.notDefined name)

def read (name : Bytes) : Evaluation Value := do
  match (← get).local? name with
  | some value => return value
  | none => readGlobal name

def setGlobal (h : Handle) (value : Value) : Evaluation Unit :=
  modify fun w => w.setGlobal h value

/-- Only a global that exists can be assigned to. -/
def assignGlobal (name : Bytes) (value : Value) : Evaluation Value := do
  let m := (← get).store
  match (m.heap.find? name).filter (m.globals.contains ·) with
  | some h =>
    setGlobal h value
    return value
  | none => fail (.notDefined name)

def assign (name : Bytes) (value : Value) : Evaluation Value := do
  let w ← get
  match w.local? name with
  | some _ =>
    set { w with blocks := Bindings.assignIn name value w.blocks }
    return value
  | none => assignGlobal name value

/-- A declaration in a block is a new variable of it, and one outside of all blocks a global. -/
def define (name : Bytes) (value : Value) : Evaluation Unit := do
  let w ← get
  match w.blocks with
  | [] => setGlobal (← intern name) value
  | block :: outer => set { w with blocks := ((name, value) :: block) :: outer }

/-! Records and calls. -/

/-- The place of a field in a struct. -/
def fieldIndex (struct : Handle) (label : Bytes) : Evaluation Nat := do
  let heap ← heap
  match heap.get? struct with
  | some (.struct title labels) =>
    match labels.findIdx? (heap.stringText · = label) with
    | some index => return index
    | none => fail (.noField (heap.stringText title) label)
  | _ => throw .stuck

def getField (target : Value) (label : Bytes) : Evaluation Value := do
  let heap ← heap
  match target.handle?.bind heap.get? with
  | some (.record struct fields) =>
    match fields[← fieldIndex struct label]? with
    | some value => return value
    | none => throw .stuck
  | _ => fail (.getFieldOf label (heap.typeName target))

def setField (target : Value) (label : Bytes) (value : Value) : Evaluation Value := do
  let heap ← heap
  match target, target.handle?.bind heap.get? with
  | .object h, some (.record struct _) =>
    setHeap (heap.update h (Action.setFieldAt (← fieldIndex struct label) value))
    return value
  | _, _ => fail (.setFieldOf label (heap.typeName target))

/-- A function refuses another number of arguments than it takes. -/
def checkCount (name : Bytes) (given : Nat) : Option Nat → Evaluation Unit
  | some expected => if given ≠ expected then fail (.argumentCount name expected given) else return ()
  | none => return ()

section

variable (host : Host)

def callNative (name : Bytes) (native : Native) (arguments : List Value) : Evaluation Value := do
  let w ← get
  match (host.call native arguments).run w.store with
  | .ok (.ok value) store =>
    set { w with store }
    return value
  | .ok (.error failure) store =>
    set { w with store }
    fail (.native name failure.category failure.message)
  | .error _ _ => throw .stuck

/-- Calling a struct makes a record of it. -/
def call (callee : Value) (arguments : List Value) : Evaluation Value := do
  let heap ← heap
  match callee, callee.handle?.bind heap.get? with
  | .object _, some (.closure ..) => throw .stuck
  | .object _, some (.native name native) =>
    checkCount name arguments.length (host.arity native)
    callNative host name native arguments
  | .object h, some (.struct title labels) =>
    checkCount (heap.stringText title) arguments.length (some labels.length)
    create (.record h arguments.toArray) (Footprint.record labels.length)
  | _, _ => fail (.notCallable (heap.typeName callee))

end

/-! Blocks and loops. -/

def inBlock (body : Evaluation Unit) : Evaluation Unit := do
  modify fun w => { w with blocks := [] :: w.blocks }
  body
  modify fun w => { w with blocks := w.blocks.tail }

/-- The body of a loop, with whether the loop goes on. Leaving it or starting the next round ends the
blocks opened in it. -/
def round (depth : Nat) (body : Evaluation Unit) : Evaluation Bool :=
  tryCatch (do body; return true) fun
    | .leave => do modify (World.cut depth); return false
    | .again => do modify (World.cut depth); return true
    | other => throw other

/-- Goes on for so many rounds at most. -/
def rounds (step : Evaluation Bool) : Nat → Evaluation Unit
  | 0 => throw .unfinished
  | count + 1 => do
    if ← step then rounds step count else return ()

def print (value : Value) : Evaluation Unit :=
  modify fun w => w.write (w.store.heap.text value ++ [Byte.lineFeed])

section

variable (host : Host) (limit : Nat)

mutual

/-- Operands, callees and arguments are evaluated from left to right, and an assigned value before the
object whose field it goes to. -/
def expr : Expr → Evaluation Value
  | .number _ value => return .number value
  | .string _ text => string text
  | .bool _ value => return .bool value
  | .nil _ => return .nil
  | .binary _ op lhs rhs => do
    let lhs ← expr lhs
    let rhs ← expr rhs
    binary op lhs rhs
  | .logical _ op lhs rhs => do
    let lhs ← expr lhs
    if (← truth lhs) = (op = .either) then return lhs
    else expr rhs
  | .unary _ op operand => do
    let operand ← expr operand
    unary op operand
  | .name _ spelling => read spelling
  | .call _ callee arguments => do
    let callee ← expr callee
    let arguments ← exprs arguments
    call host callee arguments
  | .assign _ (.name _ spelling) value => do
    let value ← expr value
    assign spelling value
  | .assign _ (.field _ object label) value => do
    let value ← expr value
    let object ← expr object
    setField object label value
  | .assign .. => throw .stuck
  | .field _ object label => do
    let object ← expr object
    getField object label
  | .lambda .. => throw .stuck

def exprs : List Expr → Evaluation (List Value)
  | [] => return []
  | first :: rest => do
    let first ← expr first
    return first :: (← exprs rest)

/-- `limit` bounds the rounds of each loop. -/
def stmt : Stmt → Evaluation Unit
  | .expression _ value => do
    let _ ← expr value
    return ()
  | .print _ value => do
    let value ← expr value
    print value
  | .declare _ name none => define name .nil
  | .declare _ name (some value) => do
    let value ← expr value
    define name value
  | .block _ body => inBlock (stmts body)
  | .function .. => throw .stuck
  | .struct _ name fields => do
    let title ← intern name
    let labels ← internAll fields
    let struct ← create (.struct title labels) (Footprint.struct labels.length)
    define name struct
  | .ret .. => throw .stuck
  | .branch _ condition yes none => do
    let condition ← expr condition
    if ← truth condition then inBlock (stmts yes) else return ()
  | .branch _ condition yes (some no) => do
    let condition ← expr condition
    if ← truth condition then inBlock (stmts yes) else inBlock (stmts no)
  | .loop _ none body => do
    let depth := (← get).blocks.length
    rounds (round depth (inBlock (stmts body))) limit
  | .loop _ (some condition) body => do
    let depth := (← get).blocks.length
    rounds (do
      let condition ← expr condition
      if ← truth condition then round depth (inBlock (stmts body)) else return false) limit
  | .breakLoop _ => throw .leave
  | .continueLoop _ => throw .again

def stmts : List Stmt → Evaluation Unit
  | [] => return ()
  | first :: rest => do
    stmt first
    stmts rest

end

/-- If the last statement is an expression, its value is that of the script. -/
def script : List Stmt → Evaluation Value
  | [] => return .nil
  | [.expression _ value] => expr host limit value
  | first :: rest => do
    stmt host limit first
    script rest

end

end Evaluation

end ScriptMachine
