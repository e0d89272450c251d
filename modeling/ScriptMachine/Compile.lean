import ScriptMachine.Compile.Fragment
import ScriptMachine.Compile.Scope
import ScriptMachine.Tree.Parse

/-! Turning a tree into a chunk. The value of an expression is left on the stack; a statement leaves
the stack as it was, but for the local it may declare. Each instruction has the line on which the
innermost statement or expression around it begins. -/
namespace ScriptMachine.Compile

/-- The function under construction, those around it from the nearest on, the globals declared so
far, the nested functions already finished, and the journal. -/
structure State where
  function : FunctionScope
  enclosing : List FunctionScope
  globals : List Bytes
  finished : List Chunk
  journal : Journal

abbrev Compiler := EStateM Diagnostic State

/-- Operands and jump distances have 32 bits. -/
def wordLimit : Nat := 4294967296

section

variable (source : Source)

def refuse {α : Type} (cause : Diagnostic.Cause) (span : Span) : Compiler α := do
  let d := .locate source cause span
  modify fun s => { s with journal := s.journal.note .compiler d }
  throw d

def modifyFunction (change : FunctionScope → FunctionScope) : Compiler Unit :=
  modify fun s => { s with function := change s.function }

/-- The index of a constant of the current function. -/
def constant (c : Constant Chunk) (span : Span) : Compiler Nat := do
  let pool := (← get).function.constants
  match pool.findIdx? (sameConstant c) with
  | some index => return index
  | none =>
    unless pool.length + 1 < wordLimit do
      refuse source .tooManyConstants span
    modifyFunction fun f => { f with constants := pool ++ [c] }
    return pool.length

/-- Declares a variable in the innermost block, or a global outside of all blocks. -/
def declare (name : Bytes) (span : Span) : Compiler Unit := do
  let s ← get
  match s.function.blocks with
  | [] =>
    if s.globals.contains name then refuse source (.duplicateGlobal name) span
    set { s with globals := name :: s.globals }
  | block :: outer =>
    if block.any (·.name = name) then refuse source (.duplicateVariable name) span
    unless s.function.localCount < localLimit do
      refuse source .tooManyLocals span
    let added : Local := ⟨name, s.function.localCount, false⟩
    set { s with function := { s.function with blocks := (added :: block) :: outer } }

/-- Stores the declared value: a global takes it off the stack, a local is where it is. -/
def define (line : Nat) (name : Bytes) (span : Span) : Compiler Fragment := do
  if (← get).function.blocks.isEmpty then
    return .one line (.defineGlobal (← constant source (.string name) span))
  return []

/-- The instruction that reaches a variable, given its three forms. -/
def variableInstr (onLocal onCapture onGlobal : Nat → Instr) (name : Bytes) (span : Span) :
    Compiler Instr := do
  let s ← get
  match s.function.slot? name with
  | some slot => return onLocal slot
  | none =>
    match resolveCapture name s.function s.enclosing with
    | .captured index function enclosing =>
      set { s with function, enclosing }
      return onCapture index
    | .full => refuse source .tooManyCaptures span
    | .absent => return onGlobal (← constant source (.string name) span)

/-- Discards the locals of a block, latest first; a captured one has its cell closed. -/
def discard (line : Nat) (block : Block) : Fragment :=
  block.map fun l => ⟨.instr (if l.captured then .closeCell else .pop), line⟩

def openBlock : Compiler Unit :=
  modifyFunction fun f => { f with blocks := [] :: f.blocks }

/-- Ends the innermost block and discards its locals. -/
def closeBlock (line : Nat) : Compiler Fragment := do
  let blocks := (← get).function.blocks
  modifyFunction fun f => { f with blocks := blocks.tail }
  return discard line (blocks.headD [])

/-- Discards the locals of all blocks opened since the loop started. -/
def unwind (line depth : Nat) : Compiler Fragment := do
  let blocks := (← get).function.blocks
  return (blocks.take (blocks.length - depth)).flatMap (discard line)

def blockDepth : Compiler Nat := do
  return (← get).function.blocks.length

def declareAll (span : Span) : List Bytes → Compiler Unit
  | [] => return ()
  | first :: rest => do
    declare source first span
    declareAll span rest

/-- Starts a nested function: its parameters are the first locals of its outermost block. -/
def beginFunction (parameters : List Bytes) (span : Span) : Compiler Unit := do
  modify fun s =>
    { s with function := ⟨[[]], [], []⟩, enclosing := s.function :: s.enclosing }
  declareAll source span parameters

/-- Ends a nested function. Its body falls through to returning nil, and its locals go with its
frame; the enclosing function makes the closure. -/
def endFunction (line : Nat) (name : Bytes) (parameterCount : Nat) (span : Span)
    (body : Fragment) : Compiler Fragment := do
  let s ← get
  let whole := body ++ .one line .loadNil ++ .one line .ret
  let chunk : Chunk :=
    ⟨name, parameterCount, s.function.captures.length, whole.code, whole.lines,
      s.function.constants⟩
  set { s with
    function := s.enclosing.headD .empty
    enclosing := s.enclosing.tail
    finished := s.finished ++ [chunk] }
  return .one line (.closure (← constant source (.function chunk) span) s.function.captures)

def checkDistance (distance : Nat) (span : Span) : Compiler Unit := do
  unless distance < wordLimit do
    refuse source .jumpTooLarge span

/-- Code that runs only if the condition on the stack is the opposite of `jumpOn`. -/
def guarded (line : Nat) (jumpOn : Bool) (code : Fragment) (span : Span) : Compiler Fragment := do
  checkDistance source code.size span
  return .one line (.jumpIf jumpOn code.size) ++ code

/-- Makes a loop of what one round runs. A condition leaves the loop when it is false. -/
def closeLoop (line : Nat) (condition : Option Fragment) (body : Fragment) (span : Span) :
    Compiler Fragment := do
  let test : Fragment :=
    match condition with
    | some code => code ++ .one line (.jumpIf false (body.size + 5))
    | none => []
  let total := test.size + body.size + 5
  checkDistance source total span
  return (test ++ body ++ .one line (.jumpBack total)).closeLoop total 0

/-- The constants of a struct's field names; a repeated name is refused. -/
def fieldConstants (span : Span) (seen : List Bytes) : List Bytes → Compiler (List Nat)
  | [] => return []
  | name :: rest => do
    if seen.contains name then refuse source (.duplicateField name) span
    let first ← constant source (.string name) span
    return first :: (← fieldConstants span (name :: seen) rest)

def anonymous : Bytes := ascii "anonymous"

mutual

def expr : Expr → Compiler Fragment
  | .number span value => do
    return .one (source.line span.start) (.loadConstant (← constant source (.number value) span))
  | .string span text => do
    return .one (source.line span.start) (.loadConstant (← constant source (.string text) span))
  | .bool span value => return .one (source.line span.start) (.loadBool value)
  | .nil span => return .one (source.line span.start) .loadNil
  | .binary span op lhs rhs => do
    let lhs ← expr lhs
    let rhs ← expr rhs
    return lhs ++ rhs ++ .one (source.line span.start) (.binary op)
  | .logical span op lhs rhs => do
    let line := source.line span.start
    let lhs ← expr lhs
    let rhs ← expr rhs
    let rest ← guarded source line (op = .either) (.one line .pop ++ rhs) span
    return lhs ++ .one line .duplicate ++ rest
  | .unary span op operand => do
    return (← expr operand) ++ .one (source.line span.start) (.unary op)
  | .name span spelling => do
    return .one (source.line span.start)
      (← variableInstr source .getLocal .getCapture .getGlobal spelling span)
  | .call span callee arguments => do
    let callee ← expr callee
    let values ← exprs arguments
    return callee ++ values ++ .one (source.line span.start) (.call arguments.length)
  | .assign span (.name _ spelling) value => do
    let value ← expr value
    return value ++ .one (source.line span.start)
      (← variableInstr source .setLocal .setCapture .setGlobal spelling span)
  | .assign span (.field _ object label) value => do
    let value ← expr value
    let object ← expr object
    return value ++ object ++ .one (source.line span.start)
      (.setField (← constant source (.string label) span))
  | .assign _ target _ => refuse source .badTarget target.span
  | .field span object label => do
    let object ← expr object
    return object ++ .one (source.line span.start)
      (.getField (← constant source (.string label) span))
  | .lambda span parameters body => do
    beginFunction source parameters span
    let body ← stmts none body
    endFunction source (source.line span.start) anonymous parameters.length span body

def exprs : List Expr → Compiler Fragment
  | [] => return []
  | first :: rest => do
    let first ← expr first
    return first ++ (← exprs rest)

/-- `loop` is the number of blocks that were open at the start of the innermost loop around. -/
def stmt (loop : Option Nat) : Stmt → Compiler Fragment
  | .expression span value => do
    return (← expr value) ++ .one (source.line span.start) .pop
  | .print span value => do
    return (← expr value) ++ .one (source.line span.start) .print
  | .declare span name none => do
    let line := source.line span.start
    declare source name span
    return .one line .loadNil ++ (← define source line name span)
  | .declare span name (some value) => do
    let value ← expr value
    declare source name span
    return value ++ (← define source (source.line span.start) name span)
  | .block span body => do
    openBlock
    let body ← stmts loop body
    return body ++ (← closeBlock (source.line span.start))
  | .function span name parameters body => do
    let line := source.line span.start
    declare source name span
    beginFunction source parameters span
    let body ← stmts none body
    let closure ← endFunction source line name parameters.length span body
    return closure ++ (← define source line name span)
  | .struct span name fields => do
    let line := source.line span.start
    let labels ← fieldConstants source span [] fields
    let title ← constant source (.string name) span
    declare source name span
    return .one line (.createStruct title labels) ++ (← define source line name span)
  | .ret span value => do
    if (← get).enclosing.isEmpty then refuse source .returnOutsideFunction span
    let line := source.line span.start
    match value with
    | some value => return (← expr value) ++ .one line .ret
    | none => return .one line .loadNil ++ .one line .ret
  | .branch span condition yes none => do
    let line := source.line span.start
    let condition ← expr condition
    openBlock
    let yes ← stmts loop yes
    let yes := yes ++ (← closeBlock line)
    return condition ++ (← guarded source line false yes span)
  | .branch span condition yes (some no) => do
    let line := source.line span.start
    let condition ← expr condition
    openBlock
    let yes ← stmts loop yes
    let yes := yes ++ (← closeBlock line)
    openBlock
    let no ← stmts loop no
    let no := no ++ (← closeBlock line)
    checkDistance source no.size span
    let yes := yes ++ .one line (.jump no.size)
    return condition ++ (← guarded source line false yes span) ++ no
  | .loop span condition body => do
    let line := source.line span.start
    let depth ← blockDepth
    let condition ← match condition with
      | some condition => some <$> expr condition
      | none => pure none
    openBlock
    let body ← stmts (some depth) body
    let body := body ++ (← closeBlock line)
    closeLoop source line condition body span
  | .breakLoop span => do
    match loop with
    | some depth =>
      let line := source.line span.start
      return (← unwind line depth) ++ [⟨.leaveLoop, line⟩]
    | none => refuse source .breakOutsideLoop span
  | .continueLoop span => do
    match loop with
    | some depth =>
      let line := source.line span.start
      return (← unwind line depth) ++ [⟨.nextRound, line⟩]
    | none => refuse source .continueOutsideLoop span

def stmts (loop : Option Nat) : List Stmt → Compiler Fragment
  | [] => return []
  | first :: rest => do
    let first ← stmt loop first
    return first ++ (← stmts loop rest)

end

/-- The statements of a script. The last one, if it is an expression, gives the script's value;
otherwise the script gives nil, on its last line. -/
def script : List Stmt → Compiler Fragment
  | [] =>
    let line := max source.lineCount 1
    return .one line .loadNil ++ .one line .ret
  | [.expression span value] => do
    return (← expr source value) ++ .one (source.line span.start) .ret
  | first :: rest => do
    let first ← stmt source none first
    return first ++ (← script rest)

end

def State.initial : State :=
  ⟨.empty, [], [], [], .aloud⟩

/-- What compiling comes to: a chunk or a refusal, and in either case the nested functions that were
finished, in order, and what the listener was told. -/
structure Result where
  outcome : Except Diagnostic Chunk
  finished : List Chunk
  told : List Notice

def Result.reports (r : Result) : List Diagnostic :=
  r.told.map (·.diagnostic)

def scriptName : Bytes := ascii "script"

/-- A chunk counts only if the journal holds no fault, whatever the last step came to. -/
def tree (source : Source) (program : List Stmt) : Result :=
  let result (s : State) (outcome : Except Diagnostic Chunk) : Result :=
    ⟨s.journal.verdict outcome, s.finished, s.journal.told⟩
  match (script source program).run .initial with
  | .ok code s => result s (.ok ⟨scriptName, 0, 0, code.code, code.lines, s.function.constants⟩)
  | .error d s => result s (.error d)

end ScriptMachine.Compile

namespace ScriptMachine.Source

/-- Compiles a script and tells which nested functions were finished on the way, and what a listener
hears. The scanner has no listener: of a faulty token the parser tells, when it comes upon it. The
compiler sees only what the parser accepts. -/
def compileVerbose (source : Source) : Compile.Result :=
  let scanner := Scanner.silent source
  let (program, account) := Parse.read ⟨scanner.journal, .aloud⟩ source scanner.all.1
  match account.parser.fault with
  | some d => ⟨.error d, [], account.told⟩
  | none =>
    let compiled := Compile.tree source program
    { compiled with told := account.told ++ compiled.told }

/-- The chunk of a script, or the one reason why it is refused. -/
def compile (source : Source) : Except Diagnostic Chunk :=
  source.compileVerbose.outcome

end ScriptMachine.Source
