import ScriptMachine.Token.Scan
import ScriptMachine.Tree

/-! Reading a tree off the tokens. The grammar is layered by nesting: every construct that nests
goes one level deeper, and the levels end after 256. A level is built from the one below it, so
reading is recursion on the levels left; only the loops over statements and lists count tokens. -/
namespace ScriptMachine.Parse

/-- What the scanner and the parser know and have told. -/
structure Account where
  scanner : Journal
  parser : Journal

namespace Account

/-- Only the parser has a listener. -/
def start : Account := ⟨.silent, .aloud⟩

/-- The scanner reads the first of these tokens, if there is one. -/
def hear (a : Account) (source : Source) : List Token → Account
  | [] => a
  | token :: _ => { a with scanner := a.scanner.hear source token }

/-- The parser takes over the fault that the scanner remembers. -/
def lexical (a : Account) : Account :=
  match a.scanner.fault with
  | some d => { a with parser := a.parser.note .scanner d }
  | none => a

def told (a : Account) : List Notice :=
  a.scanner.told ++ a.parser.told

end Account

/-- Where reading stands: the token just taken, the one in view, and those behind it. The scanner has
read one token behind the one in view. -/
structure State where
  source : Source
  previous : Token
  current : Token
  ahead : List Token
  account : Account

/-- Reading stops at the first refusal. What it was is in the account. -/
abbrev Parser := StateT State (Except Account)

/-- Refuses the token in view. -/
def fail {α : Type} (cause : Token.Kind → Diagnostic.Cause) : Parser α := fun s =>
  .error { s.account with
    parser := s.account.parser.note .parser
      ⟨cause s.current.kind, s.current.span, s.current.position⟩ }

/-- Takes the token in view, and the scanner reads on. A faulty token is refused when it comes into
view; the end of the script is never taken. -/
def advance : Parser Unit := fun s =>
  match s.ahead with
  | [] => .ok ((), s)
  | token :: ahead =>
    let account := s.account.hear s.source ahead
    match token.diagnostic? s.source with
    | some _ => .error account.lexical
    | none => .ok ((), { s with previous := s.current, current := token, ahead, account })

def sees (symbol : Symbol) : Parser Bool := fun s =>
  .ok (s.current.is symbol, s)

def accept (symbol : Symbol) : Parser Bool := do
  if ← sees symbol then
    advance
    return true
  return false

def expect (symbol : Symbol) : Parser Unit := do
  unless ← accept symbol do
    fail (.missing (.symbol symbol))

def expectName (what : Expectation) : Parser Bytes := fun s =>
  match s.current.body with
  | .name spelling => (do advance; return spelling) s
  | _ => fail (.missing what) s

def currentStart : Parser Nat := fun s => .ok (s.current.span.start, s)
def previousStart : Parser Nat := fun s => .ok (s.previous.span.start, s)
def previousStop : Parser Nat := fun s => .ok (s.previous.span.stop, s)

/-- The range from an offset to the end of the token just taken. -/
def spanFrom (start : Nat) : Parser Span := do
  return ⟨start, ← previousStop⟩

/-- One more than the tokens behind the one in view: no loop below goes round more often. -/
def budget : Parser Nat := fun s => .ok (s.ahead.length + 1, s)

/-- Items divided by commas, at least one. -/
def commaSeparated {α : Type} (item : Parser α) : Nat → Parser (List α)
  | 0 => return []
  | fuel + 1 => do
    let first ← item
    if ← accept .comma then
      return first :: (← commaSeparated item fuel)
    return [first]

/-- Names divided by commas up to a closing brace; a comma may follow the last. -/
def fieldNames : Nat → Parser (List Bytes)
  | 0 => return []
  | fuel + 1 => do
    if ← sees .rightBrace then return []
    let first ← expectName .fieldName
    if ← accept .comma then
      return first :: (← fieldNames fuel)
    return [first]

/-- Statements up to the end of the script, or to a closing brace in a block. Lone semicolons are
dropped. -/
def statements (inBlock : Bool) (statement : Parser Stmt) : Nat → Parser (List Stmt)
  | 0 => return []
  | fuel + 1 => do
    let s ← get
    if s.current.body = .endOfScript || (inBlock && s.current.is .rightBrace) then return []
    if ← accept .semicolon then statements inBlock statement fuel
    else
      let first ← statement
      return first :: (← statements inBlock statement fuel)

def parameters : Parser (List Bytes) := do
  expect .leftParen
  let names ←
    if ← sees .rightParen then pure []
    else commaSeparated (expectName .parameterName) (← budget)
  expect .rightParen
  return names

/-- A statement ends with a semicolon, or before a closing brace or the end of the script. -/
def terminator : Parser Unit := do
  unless ← accept .semicolon do
    let s ← get
    unless s.current.is .rightBrace || s.current.body = .endOfScript do
      fail (.missing (.symbol .semicolon))

/-- An operator between two operands. -/
inductive Connective where
  | binary (op : BinaryOp)
  | logical (op : LogicalOp)
  deriving DecidableEq, Repr

def Connective.node (span : Span) (lhs rhs : Expr) : Connective → Expr
  | binary op => .binary span op lhs rhs
  | logical op => .logical span op lhs rhs

/-- The symbols of one precedence. -/
abbrev Tier := List (Symbol × Connective)

/-- The precedences, loosest first; all associate to the left. -/
def tiers : List Tier :=
  [[(.orWord, .logical .either)],
    [(.andWord, .logical .both)],
    [(.equalsEquals, .binary .equal), (.notEquals, .binary .notEqual)],
    [(.less, .binary .less), (.lessEquals, .binary .lessEqual), (.more, .binary .more),
      (.moreEquals, .binary .moreEqual)],
    [(.plus, .binary .add), (.minus, .binary .subtract)],
    [(.star, .binary .multiply), (.slash, .binary .divide), (.percent, .binary .remainder)]]

/-- The operator in view, if it is of the precedence. -/
def connective? (tier : Tier) : Parser (Option Connective) := fun s =>
  match s.current.body with
  | .symbol symbol => .ok (tier.lookup symbol, s)
  | _ => .ok (none, s)

/-- The readers of one nesting level that the level above calls. `chain` and `suffixes` go on after
an operand that starts at the given offset. -/
structure Level where
  expression : Parser Expr
  assignment : Parser Expr
  operand : List Tier → Parser Expr
  chain : Tier → List Tier → Nat → Expr → Parser Expr
  unary : Parser Expr
  suffixes : Nat → Expr → Parser Expr
  statement : Parser Stmt
  conditional : Parser Stmt

section Build

variable (inner : Option Level)

/-- Goes one level deeper, if there is one. -/
def deeper {α : Type} (reader : Level → Parser α) : Parser α :=
  match inner with
  | some level => reader level
  | none => fail .tooDeep

def expression : Parser Expr :=
  deeper inner (·.assignment)

/-- The statements of a block behind its opening brace, and the closing brace. -/
def blockRest : Parser (List Stmt) :=
  deeper inner fun level => do
    let body ← statements true level.statement (← budget)
    expect .rightBrace
    return body

def block : Parser (List Stmt) := do
  expect .leftBrace
  blockRest inner

def primary : Parser Expr := do
  let token := (← get).current
  let literal (node : Expr) : Parser Expr := do
    advance
    return node
  match token.body with
  | .number value => literal (.number token.span value)
  | .string text => literal (.string token.span text)
  | .name spelling => literal (.name token.span spelling)
  | .symbol .trueWord => literal (.bool token.span true)
  | .symbol .falseWord => literal (.bool token.span false)
  | .symbol .nilWord => literal (.nil token.span)
  | .symbol .leftParen =>
    advance
    let value ← expression inner
    expect .rightParen
    return value
  | .symbol .funWord =>
    advance
    let names ← parameters
    let body ← block inner
    return .lambda (← spanFrom token.span.start) names body
  | _ => fail .noExpression

def arguments (level : Level) : Parser (List Expr) := do
  if ← sees .rightParen then return []
  commaSeparated level.expression (← budget)

/-- Calls and field accesses behind an operand; each goes one level deeper. -/
def suffixes (start : Nat) (value : Expr) : Parser Expr := do
  if ← sees .leftParen then
    deeper inner fun level => do
      advance
      let values ← arguments level
      expect .rightParen
      level.suffixes start (.call (← spanFrom start) value values)
  else if ← sees .dot then
    deeper inner fun level => do
      advance
      let label ← expectName .fieldName
      level.suffixes start (.field (← spanFrom start) value label)
  else return value

def unary : Parser Expr := do
  let start ← currentStart
  if ← accept .minus then
    let operand ← deeper inner (·.unary)
    return .unary (← spanFrom start) .negate operand
  else if ← accept .bang then
    let operand ← deeper inner (·.unary)
    return .unary (← spanFrom start) .not operand
  else
    let value ← primary inner
    suffixes inner start value

/-- Further operators of one precedence behind a left operand; each goes one level deeper. -/
def chain (tier : Tier) (tighter : List Tier) (start : Nat) (lhs : Expr) : Parser Expr := do
  match ← connective? tier with
  | none => return lhs
  | some op =>
    advance
    deeper inner fun level => do
      let rhs ← level.operand tighter
      level.chain tier tighter start (op.node (← spanFrom start) lhs rhs)

/-- An operand made of the given precedences and what binds tighter. -/
def operand : List Tier → Parser Expr
  | [] => unary inner
  | tier :: tighter => do
    let start ← currentStart
    let lhs ← operand tighter
    chain inner tier tighter start lhs

/-- Assignment associates to the right. -/
def assignment : Parser Expr := do
  let start ← currentStart
  let target ← operand inner tiers
  if ← accept .equals then
    let value ← deeper inner (·.assignment)
    return .assign (← spanFrom start) target value
  return target

/-- What a branch does otherwise: a branch of its own behind `elif`, a block behind `else`. -/
def otherwise : Parser (Option (List Stmt)) := do
  if ← accept .elifWord then
    let nested ← deeper inner (·.conditional)
    return some [nested]
  else if ← accept .elseWord then
    let body ← block inner
    return some body
  else return none

/-- A branch behind its `if` or `elif`. -/
def conditional : Parser Stmt := do
  let start ← previousStart
  let condition ← expression inner
  let yes ← block inner
  let no ← otherwise inner
  return .branch (← spanFrom start) condition yes no

/-- Closes a statement that a terminator follows: its range ends before the terminator. -/
def terminated (start : Nat) (node : Span → Stmt) : Parser Stmt := do
  let span ← spanFrom start
  terminator
  return node span

def functionRest : Parser Stmt := do
  let start ← previousStart
  let name ← expectName .functionName
  let names ← parameters
  let body ← block inner
  return .function (← spanFrom start) name names body

def declarationRest : Parser Stmt := do
  let start ← previousStart
  let name ← expectName .variableName
  let value ← if ← accept .equals then some <$> expression inner else pure none
  terminated start (.declare · name value)

def structRest : Parser Stmt := do
  let start ← previousStart
  let name ← expectName .structName
  expect .leftBrace
  let fields ← fieldNames (← budget)
  expect .rightBrace
  return .struct (← spanFrom start) name fields

def returnRest : Parser Stmt := do
  let start ← previousStart
  let s ← get
  let value ←
    if s.current.is .semicolon || s.current.is .rightBrace || s.current.body = .endOfScript then
      pure none
    else some <$> expression inner
  terminated start (.ret · value)

def loopRest (condition : Parser (Option Expr)) : Parser Stmt := do
  let start ← previousStart
  let condition ← condition
  let body ← block inner
  return .loop (← spanFrom start) condition body

def expressionStatement : Parser Stmt := do
  let start ← currentStart
  let value ← expression inner
  terminated start (.expression · value)

def statement : Parser Stmt := do
  let s ← get
  match s.current.body with
  | .symbol .leftBrace =>
    advance
    let start ← previousStart
    let body ← blockRest inner
    return .block (← spanFrom start) body
  | .symbol .funWord =>
    if (s.ahead.head?.map (·.kind)) = some .name then
      advance
      functionRest inner
    else expressionStatement inner
  | .symbol .varWord =>
    advance
    declarationRest inner
  | .symbol .structWord =>
    advance
    structRest
  | .symbol .printWord =>
    advance
    let start ← previousStart
    let value ← expression inner
    terminated start (.print · value)
  | .symbol .returnWord =>
    advance
    returnRest inner
  | .symbol .ifWord =>
    advance
    conditional inner
  | .symbol .loopWord =>
    advance
    loopRest inner (pure none)
  | .symbol .whileWord =>
    advance
    loopRest inner (some <$> expression inner)
  | .symbol .breakWord =>
    advance
    terminated (← previousStart) .breakLoop
  | .symbol .continueWord =>
    advance
    terminated (← previousStart) .continueLoop
  | _ => expressionStatement inner

def build : Level where
  expression := expression inner
  assignment := assignment inner
  operand := operand inner
  chain := chain inner
  unary := unary inner
  suffixes := suffixes inner
  statement := statement inner
  conditional := conditional inner

end Build

/-- The readers with a number of levels left below them. -/
def level : Nat → Level
  | 0 => build none
  | below + 1 => build (some (level below))

/-- How many constructs may nest. -/
def depthLimit : Nat := 256

/-- Reads a whole token sequence, and gives no statements if one of its tokens is refused. At the
start the scanner reads two tokens. -/
def read (account : Account) (source : Source) (tokens : List Token) : List Stmt × Account :=
  match tokens with
  | [] => ([], account)
  | first :: ahead =>
    let account := (account.hear source tokens).hear source ahead
    match first.diagnostic? source with
    | some _ => ([], account.lexical)
    | none =>
      let start : State := ⟨source, first, first, ahead, account⟩
      match statements false (level depthLimit).statement (ahead.length + 1) start with
      | .ok (program, s) => (program, s.account)
      | .error account => ([], account)

/-- The tree of a token sequence, or the reason why there is none. -/
def program (source : Source) (tokens : List Token) : Except Diagnostic (List Stmt) :=
  let (program, account) := read .start source tokens
  account.parser.verdict (.ok program)

end ScriptMachine.Parse

/-- The tree of a script. -/
def ScriptMachine.Source.parse (source : Source) : Except Diagnostic (List Stmt) :=
  Parse.program source (Token.tokens source)
