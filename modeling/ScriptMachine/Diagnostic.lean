import ScriptMachine.Message
import ScriptMachine.Token

/-! Why a script is refused. A diagnostic is a cause with the place it concerns; its wording is a
function of the cause. -/
namespace ScriptMachine

/-- What the grammar called for at a token that did not fit. -/
inductive Expectation where
  | functionName
  | structName
  | fieldName
  | parameterName
  | variableName
  | symbol (s : Symbol)
  deriving DecidableEq, Repr

namespace Expectation

def kind : Expectation → Token.Kind
  | symbol s => .symbol s
  | _ => .name

def text : Expectation → Bytes
  | functionName => ascii "function name"
  | structName => ascii "struct name"
  | fieldName => ascii "field name"
  | parameterName => ascii "parameter name"
  | variableName => ascii "variable name"
  | symbol s => (Token.Kind.symbol s).text

end Expectation

namespace Diagnostic

inductive Category where
  | lexical
  | grammar
  | semantic
  | duplicate
  deriving DecidableEq, Repr

namespace Category

def all : List Category :=
  [lexical, grammar, semantic, duplicate]

def name : Category → Bytes
  | lexical => ascii "LexError"
  | grammar => ascii "ParseError"
  | semantic => ascii "CompileError"
  | duplicate => ascii "DuplicateDeclarationError"

end Category

inductive Cause where
  | lexical (fault : LexicalFault)
  | missing (what : Expectation) (found : Token.Kind)
  | noExpression (found : Token.Kind)
  | tooDeep (found : Token.Kind)
  | duplicateGlobal (name : Bytes)
  | duplicateVariable (name : Bytes)
  | duplicateField (name : Bytes)
  | returnOutsideFunction
  | breakOutsideLoop
  | continueOutsideLoop
  | badTarget
  | tooManyLocals
  | tooManyCaptures
  | tooManyConstants
  | jumpTooLarge
  deriving DecidableEq, Repr

namespace Cause

def category : Cause → Category
  | lexical _ => .lexical
  | missing .. | noExpression _ | tooDeep _ => .grammar
  | duplicateGlobal _ | duplicateVariable _ | duplicateField _ => .duplicate
  | _ => .semantic

/-- The one kind of token that would have fitted, where there is just one. -/
def expected : Cause → Option Token.Kind
  | missing what _ => some what.kind
  | _ => none

/-- The token that did not fit. -/
def found : Cause → Option Token.Kind
  | missing _ found | noExpression found | tooDeep found => some found
  | _ => none

def redeclared (what : String) (name : Bytes) : Bytes :=
  Message.fit (ascii "redeclaration of " ++ ascii what ++ ascii " '" ++ Message.visible name ++
    ascii "'")

def message : Cause → Bytes
  | lexical fault => fault.message
  | missing what found => ascii "expected " ++ what.text ++ ascii " but found " ++ found.text
  | noExpression found => ascii "expected expression, found " ++ found.text
  | tooDeep found => ascii "nesting too deep, found " ++ found.text
  | duplicateGlobal name => redeclared "global" name
  | duplicateVariable name => redeclared "variable" name
  | duplicateField name => redeclared "field" name
  | returnOutsideFunction => ascii "cannot return outside of a function"
  | breakOutsideLoop => ascii "cannot use break outside of a loop"
  | continueOutsideLoop => ascii "cannot use continue outside of a loop"
  | badTarget => ascii "invalid left side of assignment"
  | tooManyLocals => ascii "too many local variables in function"
  | tooManyCaptures => ascii "too many captured variables in function"
  | tooManyConstants => ascii "too many constants in function"
  | jumpTooLarge => ascii "jump too large"

end Cause

end Diagnostic

structure Diagnostic where
  cause : Diagnostic.Cause
  span : Span
  position : Position
  deriving DecidableEq, Repr

namespace Diagnostic

def category (d : Diagnostic) : Category :=
  d.cause.category

def message (d : Diagnostic) : Bytes :=
  d.cause.message

/-- More text could still make the script acceptable. -/
def atEnd (d : Diagnostic) : Bool :=
  d.cause.found = some .endOfScript

/-- The diagnostic of a cause at a place of a script. -/
def locate (source : Source) (cause : Cause) (span : Span) : Diagnostic :=
  ⟨cause, span, source.position span.start⟩

end Diagnostic

end ScriptMachine
