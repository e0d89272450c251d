import ScriptMachine.Code.Chunk
import ScriptMachine.Number.Text

/-! Chunks as text, one instruction a row: offset, line, name and operands. A row on the line of the
byte before it shows a bar instead of the line. What stands behind an opcode is found in its place there;
nothing here relies on how the machine reads instructions. -/
namespace ScriptMachine

def Constant.listing : Constant Chunk → Bytes
  | number value => Number.text value
  | string text => ascii "\"" ++ text ++ ascii "\""
  | function body => ascii "<fn " ++ body.name ++ ascii ">"

/-- The text of a string constant; nothing for other constants. -/
def Constant.label : Constant Chunk → Bytes
  | string text => text
  | _ => []

/-- How the operands of an instruction are laid out: none, a number, the index of a constant, a distance
ahead or back, or one of the two lists. -/
inductive Layout where
  | plain
  | number
  | constant
  | ahead
  | back
  | closure
  | struct

/-- The name of an instruction and its layout. -/
def Layout.ofOpcode? (opcode : UInt8) : Option (String × Layout) :=
  match opcode with
  | 0 => some ("add", plain)
  | 1 => some ("subtract", plain)
  | 2 => some ("multiply", plain)
  | 3 => some ("divide", plain)
  | 4 => some ("modulo", plain)
  | 5 => some ("less", plain)
  | 6 => some ("lessEqual", plain)
  | 7 => some ("more", plain)
  | 8 => some ("moreEqual", plain)
  | 9 => some ("equals", plain)
  | 10 => some ("notEquals", plain)
  | 11 => some ("negate", plain)
  | 12 => some ("not", plain)
  | 13 => some ("loadConstant", constant)
  | 14 => some ("loadLocal", number)
  | 15 => some ("setLocal", number)
  | 16 => some ("defineGlobal", constant)
  | 17 => some ("loadGlobal", constant)
  | 18 => some ("setGlobal", constant)
  | 19 => some ("getUpvalue", number)
  | 20 => some ("setUpvalue", number)
  | 21 => some ("getField", constant)
  | 22 => some ("setField", constant)
  | 23 => some ("loadNil", plain)
  | 24 => some ("loadTrue", plain)
  | 25 => some ("loadFalse", plain)
  | 26 => some ("closure", closure)
  | 27 => some ("createStruct", struct)
  | 28 => some ("jump", ahead)
  | 29 => some ("jumpIfTrue", ahead)
  | 30 => some ("jumpIfFalse", ahead)
  | 31 => some ("jumpBack", back)
  | 32 => some ("call", number)
  | 33 => some ("return", plain)
  | 34 => some ("closeUpvalue", plain)
  | 35 => some ("popStack", plain)
  | 36 => some ("cloneTop", plain)
  | 37 => some ("print", plain)
  | _ => none

/-- What a row shows behind the name. -/
inductive Operand where
  | number (value : Nat)
  | constant (index : Nat)
  | field (index : Nat)
  | capture (c : Capture)
  | way (start target : Nat)
  deriving DecidableEq

namespace Chunk

/-- Offsets have 64 bits. -/
def offsetLimit : Nat := 18446744073709551616

/-- A jump shows its own offset and the one it leads to. -/
def operandText (chunk : Chunk) : Operand → Bytes
  | .number value => ascii " " ++ decimal value
  | .constant index => ascii " c[" ++ decimal index ++ ascii "] -> " ++
    ((chunk.constants[index]?).map Constant.listing).getD []
  | .field index => ascii " ." ++ ((chunk.constants[index]?).map Constant.label).getD []
  | .capture c => ascii (if c.isLocal then " |local-" else " |upvalue-") ++ decimal c.index
  | .way start target => ascii " " ++ decimal start ++ ascii " -> " ++ decimal target

/-! The operands of an instruction; none if they do not all lie in the code. -/

/-- A number of four bytes, most significant first. -/
def wordAt? (chunk : Chunk) (offset : Nat) : Option Nat :=
  (List.range 4).foldlM (fun value k => do return value * 256 + (← chunk.code[offset + k]?).toNat) 0

def capturesAt? (chunk : Chunk) (offset count : Nat) : Option (List Operand) :=
  (List.range count).mapM fun k => do
    let index ← chunk.code[offset + 6 + k * 2]?
    let isLocal ← chunk.code[offset + 6 + k * 2 + 1]?
    return .capture ⟨index.toNat, isLocal ≠ 0⟩

def fieldsAt? (chunk : Chunk) (offset count : Nat) : Option (List Operand) :=
  (List.range count).mapM fun k => do
    return .field (← chunk.wordAt? (offset + 9 + k * 4))

/-- The operands behind an opcode and how many bytes the instruction takes. -/
def operandsAt? (chunk : Chunk) (offset : Nat) : Layout → Option (List Operand × Nat)
  | .plain => some ([], 1)
  | .number => do
    let value ← chunk.wordAt? (offset + 1)
    return ([.number value], 5)
  | .constant => do
    let index ← chunk.wordAt? (offset + 1)
    return ([.constant index], 5)
  | .ahead => do
    let distance ← chunk.wordAt? (offset + 1)
    return ([.way offset ((offset + 5 + distance) % offsetLimit)], 5)
  | .back => do
    let distance ← chunk.wordAt? (offset + 1)
    return ([.way offset ((offset + 5 + offsetLimit - distance) % offsetLimit)], 5)
  | .closure => do
    let index ← chunk.wordAt? (offset + 1)
    let count ← chunk.code[offset + 5]?
    let captures ← chunk.capturesAt? offset count.toNat
    return (.constant index :: captures, 6 + count.toNat * 2)
  | .struct => do
    let index ← chunk.wordAt? (offset + 1)
    let count ← chunk.wordAt? (offset + 5)
    let fields ← chunk.fieldsAt? offset count
    return (.constant index :: fields, 9 + count * 4)

/-- The instruction at an offset: its name, its operands and how many bytes it takes. -/
def described? (chunk : Chunk) (offset : Nat) : Option (String × List Operand × Nat) := do
  let opcode ← chunk.code[offset]?
  let (title, layout) ← Layout.ofOpcode? opcode
  let (operands, size) ← chunk.operandsAt? offset layout
  return (title, operands, size)

def lineListing (chunk : Chunk) (offset : Nat) : Bytes :=
  if 0 < offset ∧ chunk.line offset = chunk.line (offset - 1) then ascii "     | "
  else (decimal (chunk.line offset)).padLeft 6 ++ ascii " "

/-- The row of the instruction at an offset, and how many bytes it takes. -/
def row (chunk : Chunk) (offset : Nat) : Bytes × Nat :=
  let place := (decimal offset).padRight 5 ++ chunk.lineListing offset
  match chunk.described? offset with
  | some (title, operands, size) =>
    (place ++ ascii title ++ operands.flatMap chunk.operandText, size)
  | none => (place ++ ascii "invalid op", 1)

theorem operandsAt?_size_pos {chunk : Chunk} {offset : Nat} {layout : Layout}
    {operands : List Operand} {size : Nat}
    (found : chunk.operandsAt? offset layout = some (operands, size)) : 0 < size := by
  cases layout <;>
    simp only [operandsAt?, Option.bind_eq_bind, Option.bind_eq_some_iff, Option.some_inj,
      Option.pure_def, Prod.mk.injEq] at found
  case plain => omega
  case closure =>
    obtain ⟨_, _, _, _, _, _, _, rfl⟩ := found
    omega
  case struct =>
    obtain ⟨_, _, _, _, _, _, _, rfl⟩ := found
    omega
  all_goals
    obtain ⟨_, _, _, rfl⟩ := found
    omega

theorem row_size_pos (chunk : Chunk) (offset : Nat) : 0 < (chunk.row offset).2 := by
  unfold row
  split
  next title operands size found =>
    simp only [described?, Option.bind_eq_bind, Option.bind_eq_some_iff, Option.pure_def,
      Option.some_inj, Prod.mk.injEq] at found
    obtain ⟨_, _, ⟨_, layout⟩, _, ⟨_, _⟩, here, _, _, rfl⟩ := found
    exact operandsAt?_size_pos here
  next => exact Nat.one_pos

/-- The rows from an offset on. -/
def rowsFrom (chunk : Chunk) (offset : Nat) : List Bytes :=
  if offset < chunk.code.size then
    (chunk.row offset).1 :: chunk.rowsFrom (offset + (chunk.row offset).2)
  else []
termination_by chunk.code.size - offset
decreasing_by
  have := chunk.row_size_pos offset
  omega

/-- All rows, each ended by a line feed. -/
def listing (chunk : Chunk) : Bytes :=
  (chunk.rowsFrom 0).flatMap (· ++ [Byte.lineFeed])

end Chunk

end ScriptMachine
