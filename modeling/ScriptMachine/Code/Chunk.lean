import ScriptMachine.Code.Instr

/-! A chunk is the compiled form of one function: its bytes, the line of each byte, and the
constants its instructions refer to, among them the functions nested in it. -/
namespace ScriptMachine

inductive Constant (φ : Type) where
  | number (value : Float)
  | string (text : Bytes)
  | function (body : φ)

structure Chunk where
  name : Bytes
  parameterCount : Nat
  captureCount : Nat
  code : Array UInt8
  lines : Array Nat
  constants : List (Constant Chunk)

namespace Chunk

/-- The line of the byte at an offset. -/
def line (chunk : Chunk) (offset : Nat) : Nat :=
  chunk.lines.getD offset 0

def instr? (chunk : Chunk) (offset : Nat) : Option Instr :=
  Instr.decode? chunk.code offset

end Chunk

end ScriptMachine
