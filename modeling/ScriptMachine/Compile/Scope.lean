import ScriptMachine.Code.Chunk

/-! The variables in scope while a function is compiled. Locals take stack slots in the order of
their declaration; a variable of an enclosing function is reached through a chain of captures. -/
namespace ScriptMachine.Compile

structure Local where
  name : Bytes
  slot : Nat
  captured : Bool
  deriving DecidableEq, Repr

/-- The locals of one block, latest first. -/
abbrev Block := List Local

/-- A function under construction: its open blocks, innermost first, its captures, and its
constants, both in order. -/
structure FunctionScope where
  blocks : List Block
  captures : List Capture
  constants : List (Constant Chunk)

def localLimit : Nat := 256
def captureLimit : Nat := 255

namespace FunctionScope

def empty : FunctionScope := ⟨[], [], []⟩

def localCount (f : FunctionScope) : Nat :=
  f.blocks.flatten.length

/-- The slot of a variable, the innermost one of that name. -/
def slot? (f : FunctionScope) (name : Bytes) : Option Nat :=
  (f.blocks.flatten.find? (·.name = name)).map (·.slot)

def markCaptured (f : FunctionScope) (slot : Nat) : FunctionScope :=
  { f with blocks := f.blocks.map fun block =>
      block.map fun l => if l.slot = slot then { l with captured := true } else l }

/-- The index of a capture, new or already there; none when there are too many. -/
def capture? (f : FunctionScope) (c : Capture) : Option (Nat × FunctionScope) :=
  match f.captures.findIdx? (· = c) with
  | some index => some (index, f)
  | none =>
    if f.captures.length < captureLimit then
      some (f.captures.length, { f with captures := f.captures ++ [c] })
    else none

end FunctionScope

/-- What a search for a captured variable comes to. -/
inductive Resolution where
  | captured (index : Nat) (function : FunctionScope) (enclosing : List FunctionScope)
  | absent
  | full

/-- Looks a name up in the enclosing functions, nearest first. Every function between the variable
and its use captures it in turn. -/
def resolveCapture (name : Bytes) (function : FunctionScope) :
    List FunctionScope → Resolution
  | [] => .absent
  | outer :: rest =>
    match outer.slot? name with
    | some slot =>
      match function.capture? ⟨slot, true⟩ with
      | some (index, function) => .captured index function (outer.markCaptured slot :: rest)
      | none => .full
    | none =>
      match resolveCapture name outer rest with
      | .captured index outer rest =>
        match function.capture? ⟨index, false⟩ with
        | some (index, function) => .captured index function (outer :: rest)
        | none => .full
      | .absent => .absent
      | .full => .full

/-- Equal strings and bitwise equal numbers are one constant; functions are always distinct. -/
def sameConstant : Constant Chunk → Constant Chunk → Bool
  | .number a, .number b => a.toBits = b.toBits
  | .string a, .string b => a = b
  | _, _ => false

end ScriptMachine.Compile
