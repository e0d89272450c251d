import ScriptMachine.Message
import ScriptMachine.Tree

/-! Why a run stops early. Names come from the program, so messages show them up to a zero byte. -/
namespace ScriptMachine

namespace RuntimeFault

inductive Category where
  | type
  | arity
  | undefinedGlobal
  | stackOverflow
  deriving DecidableEq, Repr

namespace Category

def all : List Category :=
  [type, arity, undefinedGlobal, stackOverflow]

def name : Category → Bytes
  | type => ascii "RuntimeTypeError"
  | arity => ascii "ArityError"
  | undefinedGlobal => ascii "UndefinedGlobalError"
  | stackOverflow => ascii "StackOverflowError"

end Category

end RuntimeFault

/-- Types are given by their names, and so are functions, structs and fields. -/
inductive RuntimeFault where
  | operands (op : BinaryOp) (lhs rhs : Bytes)
  | operand (op : UnaryOp) (type : Bytes)
  | notDefined (name : Bytes)
  | getFieldOf (label type : Bytes)
  | setFieldOf (label type : Bytes)
  | noField (struct label : Bytes)
  | notCallable (type : Bytes)
  | argumentCount (function : Bytes) (expected given : Nat)
  | native (function : Bytes) (category : RuntimeFault.Category) (message : Bytes)
  | condition (type : Bytes)
  | stackFull
  | callStackFull
  deriving DecidableEq, Repr

def BinaryOp.symbol : BinaryOp → String
  | add => "+" | subtract => "-" | multiply => "*" | divide => "/" | remainder => "%"
  | less => "<" | lessEqual => "<=" | more => ">" | moreEqual => ">="
  | equal => "==" | notEqual => "!="

namespace RuntimeFault

def category : RuntimeFault → Category
  | notDefined _ => .undefinedGlobal
  | argumentCount .. => .arity
  | native _ category _ => category
  | stackFull | callStackFull => .stackOverflow
  | _ => .type

def message (fault : RuntimeFault) : Bytes :=
  Message.fit <|
    match fault with
    | operands op lhs rhs =>
      ascii "cannot apply '" ++ ascii op.symbol ++ ascii "' to " ++ lhs ++ ascii " and " ++ rhs
    | operand .negate type => ascii "cannot negate " ++ type
    | operand .not type => ascii "cannot apply '!' to " ++ type
    | notDefined name => ascii "'" ++ Message.visible name ++ ascii "' is not defined"
    | getFieldOf label type =>
      ascii "cannot get field '" ++ Message.visible label ++ ascii "' of " ++ type
    | setFieldOf label type =>
      ascii "cannot set field '" ++ Message.visible label ++ ascii "' of " ++ type
    | noField struct label =>
      ascii "'" ++ Message.visible struct ++ ascii "' has no field '" ++ Message.visible label ++
        ascii "'"
    | notCallable type => type ++ ascii " is not callable"
    | argumentCount function expected given =>
      Message.visible function ++ ascii "() expected " ++ decimal expected ++
        ascii " arguments but got " ++ decimal given
    | native function _ message =>
      Message.visible function ++ ascii "(): " ++ Message.visible message
    | condition type => ascii "condition must be a bool, found " ++ type
    | stackFull => ascii "stack overflow"
    | callStackFull => ascii "call stack overflow"

end RuntimeFault

/-- An active function and the line it is at. -/
structure TraceEntry where
  function : Bytes
  line : Nat
  deriving DecidableEq, Repr

/-- A fault with the active functions, innermost first. -/
structure RuntimeError where
  fault : RuntimeFault
  trace : List TraceEntry
  deriving DecidableEq, Repr

end ScriptMachine
