import ScriptMachine.Source

/-! The tree of a script. Every node keeps the range of text it was read from; parentheses leave no
node behind. -/
namespace ScriptMachine

inductive BinaryOp where
  | add | subtract | multiply | divide | remainder
  | less | lessEqual | more | moreEqual
  | equal | notEqual
  deriving DecidableEq, Repr

/-- Operators that evaluate their right operand only when the left one does not decide. -/
inductive LogicalOp where
  | both
  | either
  deriving DecidableEq, Repr

inductive UnaryOp where
  | negate
  | not
  deriving DecidableEq, Repr

mutual

inductive Expr where
  | number (span : Span) (value : Float)
  | string (span : Span) (text : Bytes)
  | bool (span : Span) (value : Bool)
  | nil (span : Span)
  | binary (span : Span) (op : BinaryOp) (lhs rhs : Expr)
  | logical (span : Span) (op : LogicalOp) (lhs rhs : Expr)
  | unary (span : Span) (op : UnaryOp) (operand : Expr)
  | name (span : Span) (spelling : Bytes)
  | call (span : Span) (callee : Expr) (arguments : List Expr)
  | assign (span : Span) (target value : Expr)
  | field (span : Span) (object : Expr) (label : Bytes)
  | lambda (span : Span) (parameters : List Bytes) (body : List Stmt)

inductive Stmt where
  | expression (span : Span) (value : Expr)
  | print (span : Span) (value : Expr)
  | declare (span : Span) (name : Bytes) (value : Option Expr)
  | block (span : Span) (body : List Stmt)
  | function (span : Span) (name : Bytes) (parameters : List Bytes) (body : List Stmt)
  | struct (span : Span) (name : Bytes) (fields : List Bytes)
  | ret (span : Span) (value : Option Expr)
  | branch (span : Span) (condition : Expr) (yes : List Stmt) (no : Option (List Stmt))
  | loop (span : Span) (condition : Option Expr) (body : List Stmt)
  | breakLoop (span : Span)
  | continueLoop (span : Span)

end

def Expr.span : Expr → Span
  | number s _ | string s _ | bool s _ | nil s | binary s .. | logical s .. | unary s .. | name s _
  | call s .. | assign s .. | field s .. | lambda s .. => s

def Stmt.span : Stmt → Span
  | expression s _ | print s _ | declare s .. | block s _ | function s .. | struct s .. | ret s _
  | branch s .. | loop s .. | breakLoop s | continueLoop s => s

end ScriptMachine
