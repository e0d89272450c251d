import Std.Data.TreeMap
import ScriptMachine.Code.Chunk

/-! Values and the objects they refer to. -/
namespace ScriptMachine

/-- The place of an object in the heap. -/
structure Handle where
  index : Nat
  deriving DecidableEq, Repr

namespace Handle

/-- Handles are ordered by their places. -/
instance : Ord Handle where
  compare a b := compare a.index b.index

instance : Std.TransOrd Handle where
  eq_swap {a b} := Std.OrientedOrd.eq_swap (a := a.index) (b := b.index)
  isLE_trans {a b c} := Std.TransOrd.isLE_trans (a := a.index) (b := b.index) (c := c.index)

instance : Std.LawfulEqOrd Handle where
  eq_of_compare {a b} same := by
    have same : a.index = b.index :=
      Std.LawfulEqOrd.eq_of_compare (a := a.index) (b := b.index) same
    cases a
    cases b
    simp_all

end Handle

inductive Value where
  | number (value : Float)
  | bool (value : Bool)
  | nil
  | object (handle : Handle)
  deriving DecidableEq, Repr

namespace Value

/-- Numbers compare by value, so that zero equals negative zero and no NaN equals itself; objects
compare by identity. -/
def equals : Value → Value → Bool
  | number a, number b => a == b
  | bool a, bool b => a == b
  | nil, nil => true
  | object a, object b => a = b
  | _, _ => false

def handle? : Value → Option Handle
  | object h => some h
  | _ => none

/-- The names of the kinds of values. -/
def kindNames : List Bytes :=
  [ascii "number", ascii "bool", ascii "nil", ascii "object"]

end Value

/-- The functions that a host can offer to scripts: those with a name of their own, and any number
of others that only their host knows. -/
inductive Native where
  | str | clock
  | put | twice | flip | len | count | type | tick | depth | frames | gc | live | state | mix | fail
  | pair | inspect | constants
  | custom (id : Nat)
  deriving DecidableEq, Repr

namespace Native

/-- The functions with a name of their own. -/
def all : List Native :=
  [str, clock, put, twice, flip, len, count, type, tick, depth, frames, gc, live, state, mix, fail,
    pair, inspect, constants]

def name : Native → Bytes
  | str => ascii "str" | clock => ascii "clock" | put => ascii "put" | twice => ascii "twice"
  | flip => ascii "flip" | len => ascii "len" | count => ascii "count" | type => ascii "type"
  | tick => ascii "tick" | depth => ascii "depth" | frames => ascii "frames" | gc => ascii "gc"
  | live => ascii "live" | state => ascii "state" | mix => ascii "mix" | fail => ascii "fail"
  | pair => ascii "pair" | inspect => ascii "inspect" | constants => ascii "constants"
  | custom id => ascii "custom " ++ decimal id

def ofName? (text : Bytes) : Option Native :=
  all.find? (·.name = text)

/-- How many arguments the function takes; none stands for any number. -/
def arity : Native → Option Nat
  | count | custom _ => none
  | clock | depth | frames | gc | live | state => some 0
  | str | put | twice | flip | len | type | tick | inspect | constants => some 1
  | fail | pair => some 2
  | mix => some 3

end Native

/-- A captured variable: while it is on the stack the cell tells its slot, afterwards the cell holds
its value. -/
inductive Cell where
  | onStack (slot : Nat)
  | closed (value : Value)
  deriving DecidableEq, Repr

inductive Object where
  | string (text : Bytes)
  | function (chunk : Chunk) (constants : Array Value)
  | closure (function : Handle) (captures : Array Handle)
  | cell (state : Cell)
  | native (name : Bytes) (function : Native)
  | struct (name : Handle) (fields : List Handle)
  | record (struct : Handle) (fields : Array Value)

namespace Object

/-- The objects that an object keeps alive. -/
def references : Object → List Handle
  | string _ | native .. | cell (.onStack _) => []
  | function _ constants => constants.toList.filterMap Value.handle?
  | closure code captures => code :: captures.toList
  | cell (.closed value) => value.handle?.toList
  | struct title fields => title :: fields
  | record shape fields => shape :: fields.toList.filterMap Value.handle?

def typeName : Object → Bytes
  | string _ => ascii "string"
  | function .. | closure .. => ascii "function"
  | cell _ => ascii "upvalue"
  | native .. => ascii "native function"
  | struct .. => ascii "struct"
  | record .. => ascii "instance"

/-- The type names of the kinds of objects. -/
def kindNames : List Bytes :=
  [ascii "string", ascii "function", ascii "function", ascii "upvalue", ascii "native function",
    ascii "struct", ascii "instance"]

end Object

/-! How many bytes each kind of object is accounted for. -/
namespace Footprint

def string (text : Bytes) : Nat := 56 + text.length
def function (chunk : Chunk) : Nat := 64 + 16 * chunk.constants.length
def closure (captureCount : Nat) : Nat := 56 + 4 * captureCount
def cell : Nat := 48
def native (name : Bytes) : Nat := 80 + name.length
def struct (fieldCount : Nat) : Nat := 56 + 4 * fieldCount
def record (fieldCount : Nat) : Nat := 56 + 16 * fieldCount

end Footprint

end ScriptMachine
