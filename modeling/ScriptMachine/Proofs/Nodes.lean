import ScriptMachine.Tree

/-! The nodes of a tree: its statements and expressions, and their ranges. -/
namespace ScriptMachine

/-- A node of a tree. -/
inductive Node where
  | expr (e : Expr)
  | stmt (s : Stmt)

namespace Node

def span : Node → Span
  | expr e => e.span
  | stmt s => s.span

/-- What stands directly under a node, in the order of the text. -/
def children : Node → List Node
  | expr (.binary _ _ lhs rhs) | expr (.logical _ _ lhs rhs) => [.expr lhs,.expr rhs]
  | expr (.unary _ _ operand) => [.expr operand]
  | expr (.call _ callee arguments) => .expr callee :: arguments.map .expr
  | expr (.assign _ target value) => [.expr target,.expr value]
  | expr (.field _ object _) => [.expr object]
  | expr (.lambda _ _ body) => body.map .stmt
  | expr _ => []
  | stmt (.expression _ value) | stmt (.print _ value) => [.expr value]
  | stmt (.declare _ _ value) | stmt (.ret _ value) => value.toList.map .expr
  | stmt (.block _ body) | stmt (.function _ _ _ body) => body.map .stmt
  | stmt (.branch _ condition yes no) => .expr condition :: (yes.map .stmt ++ (no.getD []).map .stmt)
  | stmt (.loop _ condition body) => condition.toList.map .expr ++ body.map .stmt
  | stmt _ => []

/-- A node of the tree under `root`, the root among them. -/
inductive Under (root : Node) : Node → Prop
  | root : Under root root
  | child {parent child : Node} (above : Under root parent) (member : child ∈ parent.children) :
      Under root child

/-- A node of a program. -/
def Of (program : List Stmt) (n : Node) : Prop :=
  ∃ st ∈ program, (stmt st).Under n

theorem Of.top {program : List Stmt} {st : Stmt} (member : st ∈ program) : (stmt st).Of program :=
  ⟨st,member,.root⟩

theorem Of.child {program : List Stmt} {parent child : Node} (above : parent.Of program)
    (member : child ∈ parent.children) : child.Of program := by
  obtain ⟨st,top,under⟩ := above
  exact ⟨st,top,under.child member⟩

end Node

mutual

/-- All nodes of an expression have such ranges. -/
def Expr.Ranged (good : Span → Prop) : Expr → Prop
  | .number span _ | .string span _ | .bool span _ | .nil span | .name span _ => good span
  | .binary span _ lhs rhs | .logical span _ lhs rhs => good span ∧ lhs.Ranged good ∧ rhs.Ranged good
  | .unary span _ operand => good span ∧ operand.Ranged good
  | .call span callee arguments => good span ∧ callee.Ranged good ∧ Expr.AllRanged good arguments
  | .assign span target value => good span ∧ target.Ranged good ∧ value.Ranged good
  | .field span object _ => good span ∧ object.Ranged good
  | .lambda span _ body => good span ∧ Stmt.AllRanged good body

def Expr.AllRanged (good : Span → Prop) : List Expr → Prop
  | [] => True
  | first :: rest => first.Ranged good ∧ Expr.AllRanged good rest

def Stmt.Ranged (good : Span → Prop) : Stmt → Prop
  | .expression span value | .print span value => good span ∧ value.Ranged good
  | .declare span _ none | .ret span none | .struct span _ _ | .breakLoop span | .continueLoop span =>
    good span
  | .declare span _ (some value) | .ret span (some value) => good span ∧ value.Ranged good
  | .block span body | .function span _ _ body | .loop span none body =>
    good span ∧ Stmt.AllRanged good body
  | .branch span condition yes none =>
    good span ∧ condition.Ranged good ∧ Stmt.AllRanged good yes
  | .branch span condition yes (some no) =>
    good span ∧ condition.Ranged good ∧ Stmt.AllRanged good yes ∧ Stmt.AllRanged good no
  | .loop span (some condition) body =>
    good span ∧ condition.Ranged good ∧ Stmt.AllRanged good body

def Stmt.AllRanged (good : Span → Prop) : List Stmt → Prop
  | [] => True
  | first :: rest => first.Ranged good ∧ Stmt.AllRanged good rest

end

theorem Expr.Ranged.span {good : Span → Prop} {e : Expr} (ranged : e.Ranged good) : good e.span := by
  cases e <;> simp_all [Expr.Ranged,Expr.span]

theorem ranged_anywhere :
    (∀ e : Expr, e.Ranged fun _ => True) ∧ (∀ body, Stmt.AllRanged (fun _ => True) body) ∧
    (∀ st : Stmt, st.Ranged fun _ => True) ∧ ∀ es, Expr.AllRanged (fun _ => True) es := by
  apply Expr.Ranged.mutual_induct <;> intros <;>
    simp_all only [Expr.Ranged,Expr.AllRanged,Stmt.Ranged,Stmt.AllRanged,and_self]

end ScriptMachine
