import ScriptMachine.Code.Chunk

/-! Code under construction: instructions with their lines. Jumps out of a loop and to its next
round are left open until the loop around them is complete, when their distances are known. -/
namespace ScriptMachine.Compile

inductive Step where
  | instr (i : Instr)
  | leaveLoop
  | nextRound
  deriving DecidableEq, Repr

/-- An open jump takes as many bytes as a closed one. -/
def Step.size : Step → Nat
  | instr i => i.size
  | leaveLoop | nextRound => 5

/-- Closes an open jump at an offset of a loop of `total` bytes. A jump out leads behind the loop, a
next round to its start. -/
def Step.close (total offset : Nat) : Step → Step
  | instr i => instr i
  | leaveLoop => instr (.jump (total - (offset + 5)))
  | nextRound => instr (.jumpBack (offset + 5))

structure Item where
  step : Step
  line : Nat
  deriving DecidableEq, Repr

abbrev Fragment := List Item

namespace Fragment

def size : Fragment → Nat
  | [] => 0
  | item :: rest => item.step.size + size rest

def one (line : Nat) (i : Instr) : Fragment :=
  [⟨.instr i, line⟩]

/-- Closes the open jumps of a loop of `total` bytes, of which `offset` stand before the
fragment. -/
def closeLoop (total offset : Nat) : Fragment → Fragment
  | [] => []
  | item :: rest =>
    ⟨item.step.close total offset, item.line⟩ :: closeLoop total (offset + item.step.size) rest

/-- The instructions of a fragment without open jumps. -/
def instrs (f : Fragment) : List Instr :=
  f.filterMap fun item => match item.step with
    | .instr i => some i
    | _ => none

def code (f : Fragment) : Array UInt8 :=
  (f.instrs.flatMap Instr.encode).toArray

/-- One line for each byte. -/
def lines (f : Fragment) : Array Nat :=
  (f.flatMap fun item => List.replicate item.step.size item.line).toArray

end Fragment

end ScriptMachine.Compile
