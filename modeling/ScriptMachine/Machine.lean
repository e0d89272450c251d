import ScriptMachine.Heap.Collect
import ScriptMachine.Machine.Fault

/-! The state of a run: an operand stack, the active frames, and a heap. What the collector must
keep is what the machine itself holds. -/
namespace ScriptMachine

/-- A running closure. Its arguments start at `base`; the closure itself lies just below. -/
structure Frame where
  closure : Handle
  ip : Nat
  base : Nat
  deriving DecidableEq, Repr

/-- Global variables, by the handle of the interned name. -/
abbrev Globals := Std.TreeMap Handle Value

namespace Globals

def handles (table : Globals) : List Handle :=
  table.toList.flatMap fun (name, value) => name :: value.handle?.toList

end Globals

inductive Status where
  | ready
  | running
  | pausedOnError
  | halted
  deriving DecidableEq, Repr

namespace Status

def all : List Status :=
  [ready, running, pausedOnError, halted]

def name : Status → Bytes
  | ready => ascii "ready"
  | running => ascii "running"
  | pausedOnError => ascii "paused on error"
  | halted => ascii "halted"

end Status

/-- `globals` is the table in use and `shelved` the tables that merely exist; `loading` holds
functions that nothing refers to yet, and `pinned` values that a native function works on. `clock`
is the time in seconds and `counter` the sum kept by the counting native. -/
structure Machine where
  heap : Heap
  stack : Array Value
  frames : List Frame
  openCells : List Handle
  loading : List Handle
  pinned : List Value
  result : Value
  status : Status
  globals : Globals
  shelved : List Globals
  output : Array UInt8
  clock : Float
  counter : Float

namespace Machine

def stackLimit : Nat := 8192
def frameLimit : Nat := 256

def new (policy : Policy) (clock : Float) : Machine where
  heap := .empty policy
  stack := #[]
  frames := []
  openCells := []
  loading := []
  pinned := []
  result := .nil
  status := .ready
  globals := ∅
  shelved := []
  output := #[]
  clock
  counter := 0

/-- A frame keeps the function and the captures of its closure alive. -/
def frameRoots (m : Machine) (frame : Frame) : List Handle :=
  m.heap.references frame.closure

/-- Everything the machine holds on to. -/
def roots (m : Machine) : List Handle :=
  m.stack.toList.filterMap Value.handle? ++ m.frames.flatMap m.frameRoots ++ m.openCells ++
    m.loading ++ m.result.handle?.toList ++ m.globals.handles ++
    m.shelved.flatMap Globals.handles ++ m.pinned.filterMap Value.handle?

def collect (m : Machine) : Machine :=
  { m with heap := m.heap.collect m.roots }

/-- Forgets the state of the last run. -/
def reset (m : Machine) : Machine :=
  { m with
    stack := #[]
    frames := []
    openCells := []
    loading := []
    result := .nil
    status := .ready }

/-- The chunk and the constants of a closure's function. -/
def functionOf? (m : Machine) (closure : Handle) : Option (Chunk × Array Value) :=
  match m.heap.get? closure with
  | some (.closure function _) =>
    match m.heap.get? function with
    | some (.function chunk constants) => some (chunk, constants)
    | _ => none
  | _ => none

/-- The line of the last byte that a frame has read. -/
def traceEntry (m : Machine) (frame : Frame) : TraceEntry :=
  match m.functionOf? frame.closure with
  | some (chunk, _) => ⟨chunk.name, chunk.line (frame.ip - 1)⟩
  | none => ⟨[], 0⟩

def trace (m : Machine) : List TraceEntry :=
  m.frames.map m.traceEntry

end Machine

end ScriptMachine
