import ScriptMachine.Heap.Collect

/-! A heap used on its own: values registered under names are its roots, and an allocation collects
first when that is due. -/
namespace ScriptMachine

structure Store where
  heap : Heap
  registered : List (Bytes × Value)

namespace Store

def new (policy : Policy) : Store :=
  ⟨.empty policy, []⟩

def roots (s : Store) : List Handle :=
  s.registered.filterMap (·.2.handle?)

def collect (s : Store) : Store :=
  { s with heap := s.heap.collect s.roots }

/-- Registers a value; a name holds one value. -/
def register (s : Store) (name : Bytes) (value : Value) : Store :=
  { s with registered := (name, value) :: s.registered.filter (·.1 ≠ name) }

def unregister (s : Store) (name : Bytes) : Store :=
  { s with registered := s.registered.filter (·.1 ≠ name) }

def makeRoom (s : Store) (size : Nat) : Store :=
  if s.heap.isDue size then s.collect else s

def allocate (s : Store) (object : Object) (size : Nat) : Handle × Store :=
  let s := s.makeRoom size
  let (h, heap) := s.heap.insert object size
  (h, { s with heap })

def allocateString (s : Store) (text : Bytes) : Handle × Store :=
  match s.heap.find? text with
  | some h => (h, s)
  | none =>
    let s := s.makeRoom (Footprint.string text)
    let (h, heap) := s.heap.insertString text
    (h, { s with heap })

def allocateFunction (s : Store) (chunk : Chunk) : Handle × Store :=
  s.allocate (.function chunk #[]) (Footprint.function chunk)

def captureCount (s : Store) (function : Handle) : Nat :=
  match s.heap.get? function with
  | some (.function chunk _) => chunk.captureCount
  | _ => 0

def allocateClosure (s : Store) (function : Handle) : Handle × Store :=
  s.allocate (.closure function #[]) (Footprint.closure (s.captureCount function))

def allocateCell (s : Store) (slot : Nat) : Handle × Store :=
  s.allocate (.cell (.onStack slot)) Footprint.cell

def allocateNative (s : Store) (name : Bytes) (function : Native) : Handle × Store :=
  s.allocate (.native name function) (Footprint.native name)

def allocateStruct (s : Store) (name : Handle) (fields : List Handle) : Handle × Store :=
  s.allocate (.struct name fields) (Footprint.struct fields.length)

def fieldNames (s : Store) (struct : Handle) : List Handle :=
  match s.heap.get? struct with
  | some (.struct _ fields) => fields
  | _ => []

def allocateRecord (s : Store) (struct : Handle) : Handle × Store :=
  let count := (s.fieldNames struct).length
  s.allocate (.record struct (Array.replicate count .nil)) (Footprint.record count)

def update (s : Store) (h : Handle) (change : Object → Object) : Store :=
  { s with heap := s.heap.update h change }

def closeCell (s : Store) (cell : Handle) (value : Value) : Store :=
  s.update cell fun _ => .cell (.closed value)

def isOpen (s : Store) (cell : Handle) : Bool :=
  match s.heap.get? cell with
  | some (.cell (.onStack _)) => true
  | _ => false

def addCapture (s : Store) (closure cell : Handle) : Store :=
  s.update closure fun
    | .closure function captures => .closure function (captures.push cell)
    | other => other

def addConstant (s : Store) (function : Handle) (value : Value) : Store :=
  s.update function fun
    | .function chunk constants => .function chunk (constants.push value)
    | other => other

def setField (s : Store) (record : Handle) (index : Nat) (value : Value) : Store :=
  s.update record fun
    | .record struct fields => .record struct (fields.setIfInBounds index value)
    | other => other

/-- How many captures, constants or fields an object holds. -/
def partCount (s : Store) (h : Handle) : Nat :=
  match s.heap.get? h with
  | some (.closure _ captures) => captures.size
  | some (.function _ constants) => constants.size
  | some (.record _ fields) => fields.size
  | _ => 0

/-- The place of a field name in a struct; one past the last if it is not there. -/
def fieldIndex (s : Store) (struct label : Handle) : Nat :=
  (s.fieldNames struct).findIdx (· = label)

end Store

end ScriptMachine
