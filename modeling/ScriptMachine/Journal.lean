import ScriptMachine.Diagnostic

/-! What is found wrong with a script is told to a listener, if there is one. Each part of compiling
remembers the first fault that it meets and tells of no other. -/
namespace ScriptMachine

/-- The part of compiling that meets a fault. -/
inductive Origin where
  | scanner
  | parser
  | compiler
  deriving DecidableEq, Repr

/-- One call on the listener. -/
structure Notice where
  origin : Origin
  diagnostic : Diagnostic
  deriving DecidableEq, Repr

/-- Each part meets faults of its own kinds. -/
def Diagnostic.origin (d : Diagnostic) : Origin :=
  match d.category with
  | .lexical => .scanner
  | .grammar => .parser
  | .semantic | .duplicate => .compiler

/-- The first fault that a part of compiling has met, and what it has told. Without a listener nothing
is told. -/
structure Journal where
  listened : Bool
  fault : Option Diagnostic
  told : List Notice
  deriving DecidableEq, Repr

namespace Journal

def aloud : Journal := ⟨true, none, []⟩
def silent : Journal := ⟨false, none, []⟩

/-- Only the first fault is remembered, and only that is told. -/
def note (j : Journal) (origin : Origin) (d : Diagnostic) : Journal :=
  match j.fault with
  | some _ => j
  | none =>
    { j with
      fault := some d
      told := if j.listened then j.told ++ [⟨origin, d⟩] else j.told }

/-- A result counts if no fault was met. -/
def verdict {α : Type} (j : Journal) (result : Except Diagnostic α) : Except Diagnostic α :=
  match j.fault with
  | some d => .error d
  | none => result

end Journal

end ScriptMachine
