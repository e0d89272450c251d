import ScriptMachine.Machine.Action

/-! What the native functions do. They see their arguments and the machine, and refuse wrong
arguments with a message of their own. -/
namespace ScriptMachine

structure NativeFault where
  category : RuntimeFault.Category
  message : Bytes
  deriving DecidableEq, Repr

abbrev NativeAction := ExceptT NativeFault Action

namespace Native

/-- The argument has another type than the function takes. -/
def refuse {α : Type} (index : Nat) (expected : String) (found : Value) : NativeAction α := do
  let found ← Action.typeName found
  throw ⟨.type, Message.fit (ascii "expected argument " ++ decimal index ++ ascii " to be " ++
    ascii expected ++ ascii ", found " ++ found)⟩

def argument (arguments : List Value) (index : Nat) : NativeAction Value := do
  let value ← (Action.need arguments[index]? : Action Value)
  return value

def number (arguments : List Value) (index : Nat) : NativeAction Float := do
  match ← argument arguments index with
  | .number value => return value
  | other => refuse index "number" other

def bool (arguments : List Value) (index : Nat) : NativeAction Bool := do
  match ← argument arguments index with
  | .bool value => return value
  | other => refuse index "bool" other

def string (arguments : List Value) (index : Nat) : NativeAction Bytes := do
  let value ← argument arguments index
  match ← Action.stringOf? value with
  | some text => return text
  | none => refuse index "string" value

def newString (text : Bytes) : NativeAction Value := do
  return .object (← Action.allocateString text)

def boolText (value : Bool) : Bytes :=
  ascii (if value then "true" else "false")

/-- The category that a script asks a failure to have. -/
def failureCategory (kind : Bytes) : RuntimeFault.Category :=
  if kind = ascii "arity" then .arity
  else if kind = ascii "undefined" then .undefinedGlobal
  else if kind = ascii "overflow" then .stackOverflow
  else .type

/-- Joins the printed forms of two values with a colon, and collects twice on the way. -/
def joinPair (lhs rhs : Value) : Action Value := do
  let left ← Action.text lhs
  let l ← Action.allocateString left
  Action.pinning (.object l) do
    let right ← Action.text rhs
    let r ← Action.allocateString right
    Action.pinning (.object r) do
      Action.collect
      let joined ← Action.allocateString (left ++ ascii ":" ++ right)
      Action.pinning (.object joined) do
        Action.collect
        return .object joined

/-- Tells the kind and the content of a value apart. -/
def inspection (value : Value) : Action Bytes := do
  match value with
  | .number n => return ascii "number " ++ Number.text n
  | .bool b => return ascii "bool " ++ boolText b
  | .nil => return ascii "nil"
  | .object _ =>
    match ← Action.stringOf? value with
    | some text => return ascii "string " ++ text
    | none => return ascii "other " ++ (← Action.typeName value)

/-- Runs a native function on as many arguments as it takes. -/
def call (native : Native) (arguments : List Value) : NativeAction Value := do
  match native with
  | str =>
    let value ← argument arguments 0
    match ← Action.stringOf? value with
    | some _ => return value
    | none => newString (← Action.text value)
  | clock => return .number (← getThe Machine).clock
  | put =>
    Action.write (← Action.text (← argument arguments 0))
    return .nil
  | twice => return .number ((← number arguments 0) * 2)
  | flip => return .bool (!(← bool arguments 0))
  | len => return .number (Float.ofNat (← string arguments 0).length)
  | count => return .number (Float.ofNat arguments.length)
  | type => newString (← Action.typeName (← argument arguments 0))
  | tick =>
    let step ← number arguments 0
    modifyThe Machine fun m => { m with counter := m.counter + step }
    return .number (← getThe Machine).counter
  | depth => return .number (Float.ofNat (← getThe Machine).stack.size)
  | frames => return .number (Float.ofNat (← getThe Machine).frames.length)
  | gc =>
    Action.collect
    return .nil
  | live => return .number (Float.ofNat (← getThe Machine).heap.liveCount)
  | state => newString (← getThe Machine).status.name
  | mix =>
    let n ← number arguments 0
    let b ← bool arguments 1
    let s ← string arguments 2
    newString (Number.text n ++ ascii "|" ++ boolText b ++ ascii "|" ++ s)
  | fail =>
    let kind ← string arguments 0
    let message ← string arguments 1
    throw ⟨failureCategory kind, message⟩
  | pair => joinPair (← argument arguments 0) (← argument arguments 1)
  | inspect => newString (← inspection (← argument arguments 0))
  | constants =>
    let n ← number arguments 0
    if n == 0 then return .nil
    else if n < 0 then return .bool true
    else return .number (n + 0.5)
  | custom _ => throw ⟨.type, ascii "not offered"⟩

end Native

/-- What native functions do is up to the host that offers them: how many arguments each takes, none
for any number, and what a call comes to. -/
structure Host where
  arity : Native → Option Nat
  call : Native → List Value → NativeAction Value

/-- The host of the functions that have a name of their own. -/
def Host.standard : Host :=
  ⟨Native.arity, Native.call⟩

end ScriptMachine
