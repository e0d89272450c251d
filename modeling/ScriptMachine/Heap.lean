import Std.Data.TreeMap
import ScriptMachine.Heap.Object
import ScriptMachine.Number.Text

/-! An arena of objects with interned strings. Places of freed objects are reused, the last freed
first. -/
namespace ScriptMachine

/-- When to collect: on every allocation under stress, otherwise when the bytes in use would pass a
limit. After a collection the limit is the bytes that remain times `growth`, but never below
`threshold`. -/
structure Policy where
  threshold : Nat
  growth : Float
  stress : Bool

def Policy.standard : Policy :=
  ⟨1048576, 2.0, false⟩

/-- An object with the bytes it is accounted for. -/
structure Resident where
  object : Object
  size : Nat

structure Heap where
  policy : Policy
  slots : Array (Option Resident)
  free : List Nat
  strings : Std.TreeMap Bytes Handle
  bytes : Nat
  limit : Nat
  collections : Nat

namespace Heap

def empty (policy : Policy) : Heap :=
  ⟨policy, #[], [], ∅, 0, policy.threshold, 0⟩

def get? (heap : Heap) (h : Handle) : Option Object :=
  (heap.slots[h.index]?).join.map (·.object)

def isAlive (heap : Heap) (h : Handle) : Bool :=
  (heap.get? h).isSome

/-- The interned string with these bytes. -/
def find? (heap : Heap) (text : Bytes) : Option Handle :=
  heap.strings[text]?

def liveCount (heap : Heap) : Nat :=
  heap.slots.size - heap.free.length

/-- Must a collection run before an allocation of so many bytes? -/
def isDue (heap : Heap) (size : Nat) : Bool :=
  heap.policy.stress || heap.limit < heap.bytes + size

/-- Puts an object into a free place. -/
def insert (heap : Heap) (object : Object) (size : Nat) : Handle × Heap :=
  match heap.free with
  | index :: free =>
    (⟨index⟩, { heap with
      slots := heap.slots.setIfInBounds index (some ⟨object, size⟩)
      free
      bytes := heap.bytes + size })
  | [] =>
    (⟨heap.slots.size⟩, { heap with
      slots := heap.slots.push (some ⟨object, size⟩)
      bytes := heap.bytes + size })

/-- Puts a string that is not yet interned into a free place, and interns it. -/
def insertString (heap : Heap) (text : Bytes) : Handle × Heap :=
  let (h, heap) := heap.insert (.string text) (Footprint.string text)
  (h, { heap with strings := heap.strings.insert text h })

/-- Changes what an object holds; its accounted size stays. -/
def update (heap : Heap) (h : Handle) (change : Object → Object) : Heap :=
  { heap with slots := heap.slots.modify h.index fun resident =>
      resident.map fun r => { r with object := change r.object } }

def stringText (heap : Heap) (h : Handle) : Bytes :=
  match heap.get? h with
  | some (.string text) => text
  | _ => []

def functionName (heap : Heap) (h : Handle) : Bytes :=
  match heap.get? h with
  | some (.function chunk _) => chunk.name
  | _ => []

def structName (heap : Heap) (h : Handle) : Bytes :=
  match heap.get? h with
  | some (.struct name _) => heap.stringText name
  | _ => []

def typeName (heap : Heap) : Value → Bytes
  | .number _ => ascii "number"
  | .bool _ => ascii "bool"
  | .nil => ascii "nil"
  | .object h => ((heap.get? h).map Object.typeName).getD (ascii "object")

/-- The printed form of an object. -/
def objectText (heap : Heap) : Object → Bytes
  | .string text => text
  | .function chunk _ => ascii "<fn " ++ chunk.name ++ ascii ">"
  | .closure function _ => ascii "<fn " ++ heap.functionName function ++ ascii ">"
  | .cell _ => ascii "<upvalue>"
  | .native name _ => ascii "<native fn " ++ name ++ ascii ">"
  | .struct name _ => ascii "<struct " ++ heap.stringText name ++ ascii ">"
  | .record struct _ => ascii "<" ++ heap.structName struct ++ ascii " instance>"

/-- The printed form of a value. -/
def text (heap : Heap) : Value → Bytes
  | .number value => Number.text value
  | .bool value => ascii (if value then "true" else "false")
  | .nil => ascii "nil"
  | .object h => ((heap.get? h).map heap.objectText).getD []

end Heap

end ScriptMachine
