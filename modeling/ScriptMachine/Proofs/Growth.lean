import Mathlib
import ScriptMachine.Proofs.CommonTokens
import ScriptMachine.Proofs.Nesting

/-! How a tree grows when its script goes on. Only what stands last can grow: an expression becomes the
left part of a larger one or gets a larger right part, a declaration gets a value, a branch an
alternative. Ranges grow along and are left out of account. -/
namespace ScriptMachine

open Parse

/-- The second expression is what the first may turn into. -/
inductive Expr.Grows : Expr → Expr → Prop
  | same (e : Expr) : Grows e e
  | lambda {span span' : Span} {parameters : List Bytes} {body : List Stmt} :
      Grows (.lambda span parameters body) (.lambda span' parameters body)
  | call {span span' : Span} {callee : Expr} {arguments : List Expr} :
      Grows (.call span callee arguments) (.call span' callee arguments)
  | callee {e callee : Expr} {span : Span} {arguments : List Expr} (inner : Grows e callee) :
      Grows e (.call span callee arguments)
  | field {span span' : Span} {object : Expr} {label : Bytes} :
      Grows (.field span object label) (.field span' object label)
  | object {e object : Expr} {span : Span} {label : Bytes} (inner : Grows e object) :
      Grows e (.field span object label)
  | left {e lhs rhs : Expr} {span : Span} {op : Connective} (inner : Grows e lhs) :
      Grows e (op.node span lhs rhs)
  | right {lhs rhs rhs' : Expr} {span span' : Span} {op : Connective} (inner : Grows rhs rhs') :
      Grows (op.node span lhs rhs) (op.node span' lhs rhs')
  | operand {e e' : Expr} {span span' : Span} {op : UnaryOp} (inner : Grows e e') :
      Grows (.unary span op e) (.unary span' op e')
  | target {e target value : Expr} {span : Span} (inner : Grows e target) :
      Grows e (.assign span target value)
  | value {target value value' : Expr} {span span' : Span} (inner : Grows value value') :
      Grows (.assign span target value) (.assign span' target value')

/-- The second statement is what the first may turn into. -/
inductive Stmt.Grows : Stmt → Stmt → Prop
  | expression {span span' : Span} {e e' : Expr} (inner : e.Grows e') :
      Grows (.expression span e) (.expression span' e')
  | print {span span' : Span} {e e' : Expr} (inner : e.Grows e') :
      Grows (.print span e) (.print span' e')
  | declare {span span' : Span} {name : Bytes} {e e' : Expr} (inner : e.Grows e') :
      Grows (.declare span name (some e)) (.declare span' name (some e'))
  | given {span span' : Span} {name : Bytes} {value : Option Expr} :
      Grows (.declare span name none) (.declare span' name value)
  | ret {span span' : Span} {e e' : Expr} (inner : e.Grows e') :
      Grows (.ret span (some e)) (.ret span' (some e'))
  | give {span span' : Span} {value : Option Expr} : Grows (.ret span none) (.ret span' value)
  | block {span span' : Span} {body : List Stmt} : Grows (.block span body) (.block span' body)
  | function {span span' : Span} {name : Bytes} {parameters : List Bytes} {body : List Stmt} :
      Grows (.function span name parameters body) (.function span' name parameters body)
  | struct {span span' : Span} {name : Bytes} {fields : List Bytes} :
      Grows (.struct span name fields) (.struct span' name fields)
  | branch {span span' : Span} {condition : Expr} {yes : List Stmt} {no : Option (List Stmt)} :
      Grows (.branch span condition yes none) (.branch span' condition yes no)
  | alternative {span span' : Span} {condition : Expr} {yes no : List Stmt} :
      Grows (.branch span condition yes (some no)) (.branch span' condition yes (some no))
  | elif {span span' : Span} {condition : Expr} {yes : List Stmt} {nested nested' : Stmt}
      (inner : Grows nested nested') :
      Grows (.branch span condition yes (some [nested])) (.branch span' condition yes (some [nested']))
  | loop {span span' : Span} {condition : Option Expr} {body : List Stmt} :
      Grows (.loop span condition body) (.loop span' condition body)
  | breakLoop {span span' : Span} : Grows (.breakLoop span) (.breakLoop span')
  | continueLoop {span span' : Span} : Grows (.continueLoop span) (.continueLoop span')

/-- What a branch does otherwise may grow too. -/
inductive Stmt.GrowsOtherwise : Option (List Stmt) → Option (List Stmt) → Prop
  | none {no : Option (List Stmt)} : GrowsOtherwise none no
  | same {no : List Stmt} : GrowsOtherwise (some no) (some no)
  | elif {nested nested' : Stmt} (inner : nested.Grows nested') :
      GrowsOtherwise (some [nested]) (some [nested'])

/-- The last of some statements grows, and others come behind it. -/
inductive Stmt.AllGrow : List Stmt → List Stmt → Prop
  | nil {more : List Stmt} : AllGrow [] more
  | last {first first' : Stmt} {more : List Stmt} (inner : first.Grows first') :
      AllGrow [first] (first' :: more)
  | cons {first : Stmt} {rest rest' : List Stmt} (later : AllGrow rest rest') :
      AllGrow (first :: rest) (first :: rest')

theorem Stmt.Grows.refl (st : Stmt) : st.Grows st := by
  cases st with
  | expression | print => constructor; exact .same _
  | declare _ _ value =>
    cases value with
    | none => exact .given
    | some value => exact .declare (.same value)
  | ret _ value =>
    cases value with
    | none => exact .give
    | some value => exact .ret (.same value)
  | branch _ _ _ no =>
    cases no with
    | none => exact .branch
    | some no => exact .alternative
  | _ => constructor

instance : Std.Refl Expr.Grows := ⟨.same⟩
instance : Std.Refl Stmt.Grows := ⟨.refl⟩

instance : Std.Refl Stmt.GrowsOtherwise where
  refl no := by
    cases no with
    | none => exact .none
    | some no => exact .same

instance : Std.Refl Stmt.AllGrow where
  refl body := by
    induction body with
    | nil => exact .nil
    | cons first rest ih => exact .cons ih

theorem Stmt.GrowsOtherwise.branch {no no' : Option (List Stmt)} (grows : GrowsOtherwise no no')
    {span span' : Span} {condition : Expr} {yes : List Stmt} :
    Stmt.Grows (.branch span condition yes no) (.branch span' condition yes no') := by
  cases grows with
  | none => exact .branch
  | same => exact .alternative
  | elif inner => exact .elif inner

namespace Parse

namespace Fork

/-- The only token in common is refused, or what comes behind it is. -/
def SinksAt {α : Type} (k : Fork) (t : Token) (p : Parser α) : Prop :=
  ∀ previous, ∃ e, p (k.short previous [t]) = .error e ∧ e.Faults k.Stops

/-- The readers of a level follow the tokens and only let trees grow. -/
structure Tame (k : Fork) (level : Level) : Prop where
  expression : k.Follows 1 level.expression level.expression Expr.Grows
  assignment : k.Follows 1 level.assignment level.assignment Expr.Grows
  operand (tiers : List Tier) : k.Follows 1 (level.operand tiers) (level.operand tiers) Expr.Grows
  unary : k.Follows 1 level.unary level.unary Expr.Grows
  statement : k.Follows 1 level.statement level.statement Stmt.Grows
  conditional : k.Follows 1 level.conditional level.conditional Stmt.Grows
  chain (tier : Tier) (tighter : List Tier) (start : Nat) (lhs : Expr) :
    k.Follows 0 (level.chain tier tighter start lhs) (level.chain tier tighter start lhs) Expr.Grows
  chainEnd (tier : Tier) (tighter : List Tier) (start start' : Nat) {lhs lhs' : Expr}
    (grows : lhs.Grows lhs') :
    k.Trails (level.chain tier tighter start lhs) (level.chain tier tighter start' lhs') Expr.Grows
  chainGives (tier : Tier) (tighter : List Tier) (start : Nat) {e lhs : Expr} (grows : e.Grows lhs) :
    Yields (level.chain tier tighter start lhs) e.Grows
  suffixes (start : Nat) (value : Expr) :
    k.Follows 0 (level.suffixes start value) (level.suffixes start value) Expr.Grows
  suffixesEnd (start start' : Nat) {value value' : Expr} (grows : value.Grows value') :
    k.Trails (level.suffixes start value) (level.suffixes start' value') Expr.Grows
  suffixesGive (start : Nat) {e value : Expr} (grows : e.Grows value) :
    Yields (level.suffixes start value) e.Grows
  expressionSinks : k.Sinks level.expression
  assignmentSinks : k.Sinks level.assignment
  operandSinks (tiers : List Tier) : k.Sinks (level.operand tiers)
  unarySinks : k.Sinks level.unary
  statementSinks : k.Sinks level.statement
  conditionalSinks : k.Sinks level.conditional
  function {t : Token} (is : t.body = .symbol .funWord) : k.SinksAt t level.assignment

end Fork

end Parse

end ScriptMachine
