import ScriptMachine.Tree

/-! The instructions of the machine. Operands count from zero; a jump distance counts bytes from the
end of the jump. -/
namespace ScriptMachine

/-- Where a new closure finds a captured variable: in a slot of the running frame, or among the
captures of the running closure. -/
structure Capture where
  index : Nat
  isLocal : Bool
  deriving DecidableEq, Repr

inductive Instr where
  | binary (op : BinaryOp)
  | unary (op : UnaryOp)
  | loadConstant (constant : Nat)
  | getLocal (slot : Nat)
  | setLocal (slot : Nat)
  | defineGlobal (constant : Nat)
  | getGlobal (constant : Nat)
  | setGlobal (constant : Nat)
  | getCapture (index : Nat)
  | setCapture (index : Nat)
  | getField (constant : Nat)
  | setField (constant : Nat)
  | loadNil
  | loadBool (value : Bool)
  | closure (constant : Nat) (captures : List Capture)
  | createStruct (constant : Nat) (fields : List Nat)
  | jump (distance : Nat)
  | jumpIf (condition : Bool) (distance : Nat)
  | jumpBack (distance : Nat)
  | call (arguments : Nat)
  | ret
  | closeCell
  | pop
  | duplicate
  | print
  deriving DecidableEq, Repr

def BinaryOp.opcode : BinaryOp → UInt8
  | add => 0 | subtract => 1 | multiply => 2 | divide => 3 | remainder => 4
  | less => 5 | lessEqual => 6 | more => 7 | moreEqual => 8
  | equal => 9 | notEqual => 10

def UnaryOp.opcode : UnaryOp → UInt8
  | negate => 11 | not => 12

namespace Instr

def opcode : Instr → UInt8
  | binary op => op.opcode
  | unary op => op.opcode
  | loadConstant _ => 13
  | getLocal _ => 14
  | setLocal _ => 15
  | defineGlobal _ => 16
  | getGlobal _ => 17
  | setGlobal _ => 18
  | getCapture _ => 19
  | setCapture _ => 20
  | getField _ => 21
  | setField _ => 22
  | loadNil => 23
  | loadBool true => 24
  | loadBool false => 25
  | closure .. => 26
  | createStruct .. => 27
  | jump _ => 28
  | jumpIf true _ => 29
  | jumpIf false _ => 30
  | jumpBack _ => 31
  | call _ => 32
  | ret => 33
  | closeCell => 34
  | pop => 35
  | duplicate => 36
  | print => 37

/-- How many bytes the instruction takes. -/
def size : Instr → Nat
  | binary _ | unary _ | loadNil | loadBool _ | ret | closeCell | pop | duplicate | print => 1
  | loadConstant _ | getLocal _ | setLocal _ | defineGlobal _ | getGlobal _ | setGlobal _
  | getCapture _ | setCapture _ | getField _ | setField _ | jump _ | jumpIf .. | jumpBack _
  | call _ => 5
  | closure _ captures => 6 + 2 * captures.length
  | createStruct _ fields => 9 + 4 * fields.length

theorem size_pos (i : Instr) : 0 < i.size := by
  cases i <;> simp only [size] <;> omega

/-- Four bytes, most significant first. -/
def word (n : Nat) : Bytes :=
  [UInt8.ofNat (n / 16777216), UInt8.ofNat (n / 65536), UInt8.ofNat (n / 256), UInt8.ofNat n]

def encodeCapture (c : Capture) : Bytes :=
  [UInt8.ofNat c.index, if c.isLocal then 1 else 0]

/-- The operands behind the opcode. -/
def operands : Instr → Bytes
  | loadConstant n | getLocal n | setLocal n | defineGlobal n | getGlobal n | setGlobal n
  | getCapture n | setCapture n | getField n | setField n | jump n | jumpIf _ n | jumpBack n
  | call n => word n
  | closure constant captures =>
    word constant ++ UInt8.ofNat captures.length :: captures.flatMap encodeCapture
  | createStruct constant fields => word constant ++ word fields.length ++ fields.flatMap word
  | _ => []

def encode (i : Instr) : Bytes :=
  i.opcode :: i.operands

theorem length_encode (i : Instr) : i.encode.length = i.size := by
  have hw (n : Nat) : (word n).length = 4 := rfl
  have hc (c : Capture) : (encodeCapture c).length = 2 := rfl
  cases i <;>
    simp [encode, operands, size, hw, hc, List.length_flatMap, List.map_const', Nat.mul_comm] <;>
    omega

def readWord? (code : Array UInt8) (offset : Nat) : Option Nat := do
  let a ← code[offset]?
  let b ← code[offset + 1]?
  let c ← code[offset + 2]?
  let d ← code[offset + 3]?
  return ((a.toNat * 256 + b.toNat) * 256 + c.toNat) * 256 + d.toNat

def readCaptures? (code : Array UInt8) (offset : Nat) : Nat → Option (List Capture)
  | 0 => some []
  | count + 1 => do
    let index ← code[offset]?
    let isLocal ← code[offset + 1]?
    let rest ← readCaptures? code (offset + 2) count
    return ⟨index.toNat, isLocal ≠ 0⟩ :: rest

def readWords? (code : Array UInt8) (offset : Nat) : Nat → Option (List Nat)
  | 0 => some []
  | count + 1 => do
    let first ← readWord? code offset
    let rest ← readWords? code (offset + 4) count
    return first :: rest

/-- The instruction at an offset, if a whole one is there. -/
def decode? (code : Array UInt8) (offset : Nat) : Option Instr := do
  let withWord (make : Nat → Instr) : Option Instr := make <$> readWord? code (offset + 1)
  match ← code[offset]? with
  | 0 => some (binary .add)
  | 1 => some (binary .subtract)
  | 2 => some (binary .multiply)
  | 3 => some (binary .divide)
  | 4 => some (binary .remainder)
  | 5 => some (binary .less)
  | 6 => some (binary .lessEqual)
  | 7 => some (binary .more)
  | 8 => some (binary .moreEqual)
  | 9 => some (binary .equal)
  | 10 => some (binary .notEqual)
  | 11 => some (unary .negate)
  | 12 => some (unary .not)
  | 13 => withWord loadConstant
  | 14 => withWord getLocal
  | 15 => withWord setLocal
  | 16 => withWord defineGlobal
  | 17 => withWord getGlobal
  | 18 => withWord setGlobal
  | 19 => withWord getCapture
  | 20 => withWord setCapture
  | 21 => withWord getField
  | 22 => withWord setField
  | 23 => some loadNil
  | 24 => some (loadBool true)
  | 25 => some (loadBool false)
  | 26 => do
    let constant ← readWord? code (offset + 1)
    let count ← code[offset + 5]?
    closure constant <$> readCaptures? code (offset + 6) count.toNat
  | 27 => do
    let constant ← readWord? code (offset + 1)
    let count ← readWord? code (offset + 5)
    createStruct constant <$> readWords? code (offset + 9) count
  | 28 => withWord jump
  | 29 => withWord (jumpIf true)
  | 30 => withWord (jumpIf false)
  | 31 => withWord jumpBack
  | 32 => withWord call
  | 33 => some ret
  | 34 => some closeCell
  | 35 => some pop
  | 36 => some duplicate
  | 37 => some print
  | _ => none

end Instr

end ScriptMachine
