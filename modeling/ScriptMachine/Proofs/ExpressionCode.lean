import Mathlib
import ScriptMachine.Proofs.Placement

/-! The code of an expression does what evaluating it does, and leaves its value on the stack. -/
namespace ScriptMachine

mutual

/-- No function is made in it. -/
def Expr.functionless : Expr → Bool
  | .number .. | .string .. | .bool .. | .nil _ | .name .. => true
  | .binary _ _ lhs rhs | .logical _ _ lhs rhs | .assign _ lhs rhs =>
    lhs.functionless && rhs.functionless
  | .unary _ _ operand | .field _ operand _ => operand.functionless
  | .call _ callee arguments => callee.functionless && Expr.functionlessAll arguments
  | .lambda .. => false

def Expr.functionlessAll : List Expr → Bool
  | [] => true
  | first :: rest => first.functionless && Expr.functionlessAll rest

/-- Nor is one declared. -/
def Stmt.functionless : Stmt → Bool
  | .expression _ value | .print _ value => value.functionless
  | .declare _ _ none | .struct .. | .breakLoop _ | .continueLoop _ | .ret _ none => true
  | .declare _ _ (some value) | .ret _ (some value) => value.functionless
  | .block _ body | .loop _ none body => Stmt.functionlessAll body
  | .function .. => false
  | .branch _ condition yes none => condition.functionless && Stmt.functionlessAll yes
  | .branch _ condition yes (some no) =>
    condition.functionless && Stmt.functionlessAll yes && Stmt.functionlessAll no
  | .loop _ (some condition) body => condition.functionless && Stmt.functionlessAll body

def Stmt.functionlessAll : List Stmt → Bool
  | [] => true
  | first :: rest => first.functionless && Stmt.functionlessAll rest

end

namespace Compile

open ScriptMachine.Code

variable {source : Source} {span : Span} {line : Nat} {s t u : State} {code : Code} {host : Host}
  {limit : Nat}

/-- The code of an expression leaves its value. -/
def ExprWorks (source : Source) (code : Code) (host : Host) (limit : Nat) (e : Expr) : Prop :=
  ∀ s f t, expr source e s = .ok f t → s.Alone → e.functionless = true → ∀ exits temps,
    Works code host limit exits s t f temps (Evaluation.expr host limit e) fun value => value :: temps

/-- The values of several expressions lie one above the other. -/
def ExprsWork (source : Source) (code : Code) (host : Host) (limit : Nat) (es : List Expr) : Prop :=
  ∀ s f t, exprs source es s = .ok f t → s.Alone → Expr.functionlessAll es = true → ∀ exits temps,
    Works code host limit exits s t f temps (Evaluation.exprs host limit es)
      fun values => values.reverse ++ temps

/-- An instruction that leaves the variables as they are. -/
theorem Works.emit {α : Type} {x : Evaluation α} {temps : List Value} {left : α → List Value}
    {exits : Option Exits} {i : Instr} (raises : s.Raises t)
    (does : ∀ offset names, s.function.names = names → code.chunk.instr? offset = some i.stored →
      t.function.constants <+: code.chunk.constants →
      code.Does host limit exits ⟨offset,names,temps⟩ x
        fun a => ⟨offset + i.size,names,left a⟩) :
    Works code host limit exits s t (.one line i) temps x left := by
  refine .one fun offset found pool => ?_
  rw [raises.function.names]
  exact does offset _ rfl found pool

/-- A constant of the function is one of the chunk. -/
theorem known {pool more : List (Constant Chunk)} (grown : pool <+: more) {n : Nat} {c : Constant Chunk}
    (found : pool[n]? = some c) : more[n]? = some c := by
  obtain ⟨rest,rfl⟩ := grown
  exact List.getElem?_append_left (List.getElem?_eq_some_iff.mp found).1 ▸ found

theorem constant_number {number : Float} {n : Nat}
    (run : constant source (.number number) span s = .ok n t) (alone : s.Alone) :
    s.Raises t ∧ t.function.constants[n]? = some (.number number) := by
  obtain ⟨-,raises,-,-,d,found,same⟩ := constant_spec run alone.regular (by simp)
  refine ⟨raises,?_⟩
  rcases same with rfl | same
  · exact found
  · cases d with
    | number other =>
      simp only [sameConstant,decide_eq_true_eq] at same
      rw [found,Float.toBits_inj.mp same]
    | string text => simp [sameConstant] at same
    | function chunk => simp [sameConstant] at same

/-! Expressions. -/

attribute [local simp] expr exprs Evaluation.expr Evaluation.exprs

theorem exprWorks_number (value : Float) : ExprWorks source code host limit (.number span value) := by
  intro s f t run alone _ exits temps
  rw [expr] at run
  obtain ⟨n,_,found,run⟩ := bind_ok run
  cases run
  obtain ⟨raises,there⟩ := constant_number found alone
  rw [Evaluation.expr]
  exact .emit raises fun offset names _ here pool => .loadNumber here (known pool there)

theorem exprWorks_string (text : Bytes) : ExprWorks source code host limit (.string span text) := by
  intro s f t run alone _ exits temps
  rw [expr] at run
  obtain ⟨n,_,found,run⟩ := bind_ok run
  cases run
  obtain ⟨-,raises,-,-,there⟩ := constant_string found alone.regular
  rw [Evaluation.expr]
  exact .emit raises fun offset names _ here pool => .loadString here (known pool there)

/-- An instruction that only pushes a value. -/
theorem literal {exits : Option Exits} {offset : Nat} {names : List (List Bytes)} {temps : List Value}
    {i : Instr} {value : Value} (found : code.chunk.instr? offset = some i)
    (pushes : Action.execute host i = Action.push value) (avoids : value.Avoids code.hidden) :
    code.Does host limit exits ⟨offset,names,temps⟩ (Pure.pure value)
      fun v => ⟨offset + i.size,names,v :: temps⟩ :=
  (Does.push found pushes avoids ()).before
    (.pure (q := fun v => ⟨offset + i.size,names,v :: temps⟩) value)

theorem exprWorks_bool (value : Bool) : ExprWorks source code host limit (.bool span value) := by
  intro s f t run alone _ exits temps
  rw [expr] at run
  cases run
  rw [Evaluation.expr]
  exact .emit (.refl s) fun offset names _ here _ => literal here rfl (by simp)

theorem exprWorks_nil : ExprWorks source code host limit (.nil span) := by
  intro s f t run alone _ exits temps
  rw [expr] at run
  cases run
  rw [Evaluation.expr]
  exact .emit (.refl s) fun offset names _ here _ => literal here rfl (by simp)

theorem exprWorks_binary {op : BinaryOp} {lhs rhs : Expr}
    (left : ExprWorks source code host limit lhs) (right : ExprWorks source code host limit rhs) :
    ExprWorks source code host limit (.binary span op lhs rhs) := by
  intro s f t run alone plain exits temps
  obtain ⟨leftPlain,rightPlain⟩ := Bool.and_eq_true_iff.mp plain
  rw [expr] at run
  obtain ⟨a,mid,first,run⟩ := bind_ok run
  obtain ⟨b,_,second,run⟩ := bind_ok run
  cases run
  have leftValue := (compiled_flows source).1 lhs s a mid first alone.regular
  have rightValue := (compiled_flows source).1 rhs mid b t second leftValue.regular
  rw [Evaluation.expr,List.append_assoc]
  refine (left s a mid first alone leftPlain exits temps).then rightValue.raises.function.constants
    fun v => (right mid b t second (leftValue.alone alone) rightPlain exits _).then List.prefix_rfl
      fun w => ?_
  exact .emit (.refl t) fun offset names _ here _ => .binary here

theorem exprWorks_unary {op : UnaryOp} {operand : Expr}
    (inner : ExprWorks source code host limit operand) :
    ExprWorks source code host limit (.unary span op operand) := by
  intro s f t run alone plain exits temps
  rw [expr] at run
  obtain ⟨a,_,first,run⟩ := bind_ok run
  cases run
  rw [Evaluation.expr]
  refine (inner s a t first alone plain exits temps).then List.prefix_rfl fun v => ?_
  exact .emit (.refl t) fun offset names _ here _ => .unary here

theorem exprWorks_name (spelling : Bytes) :
    ExprWorks source code host limit (.name span spelling) := by
  intro s f t run alone _ exits temps
  rw [expr] at run
  obtain ⟨i,_,found,run⟩ := bind_ok run
  cases run
  obtain ⟨-,raises,-⟩ := variableInstr_spec found alone.regular
  rw [Evaluation.expr]
  rcases variableInstr_alone found alone with ⟨slot,place,rfl⟩ | ⟨n,free,there,rfl⟩
  · exact .emit raises fun offset names same here _ => .getLocal here (same ▸ place)
  · exact .emit raises fun offset names same here pool =>
      .getGlobal here (same ▸ free) (known pool there)

theorem exprWorks_assignName {inner : Span} {spelling : Bytes} {value : Expr}
    (given : ExprWorks source code host limit value) :
    ExprWorks source code host limit (.assign span (.name inner spelling) value) := by
  intro s f t run alone plain exits temps
  have valuePlain := (Bool.and_eq_true_iff.mp plain).2
  rw [expr] at run
  obtain ⟨a,mid,first,run⟩ := bind_ok run
  obtain ⟨i,_,found,run⟩ := bind_ok run
  cases run
  have valued := (compiled_flows source).1 value s a mid first alone.regular
  have still := valued.alone alone
  obtain ⟨-,raises,-⟩ := variableInstr_spec found still.regular
  rw [Evaluation.expr]
  refine (given s a mid first alone valuePlain exits temps).then raises.function.constants fun v => ?_
  rcases variableInstr_alone found still with ⟨slot,place,rfl⟩ | ⟨n,free,there,rfl⟩
  · exact .emit raises fun offset names same here _ => .setLocal here (same ▸ place)
  · exact .emit raises fun offset names same here pool =>
      .setGlobal here (same ▸ free) (known pool there)

theorem exprWorks_assignField {inner : Span} {object value : Expr} {label : Bytes}
    (given : ExprWorks source code host limit value)
    (target : ExprWorks source code host limit object) :
    ExprWorks source code host limit (.assign span (.field inner object label) value) := by
  intro s f t run alone plain exits temps
  obtain ⟨objectPlain,valuePlain⟩ := Bool.and_eq_true_iff.mp plain
  rw [expr] at run
  obtain ⟨a,mid,first,run⟩ := bind_ok run
  obtain ⟨b,late,second,run⟩ := bind_ok run
  obtain ⟨n,_,found,run⟩ := bind_ok run
  cases run
  have valued := (compiled_flows source).1 value s a mid first alone.regular
  have targetValue := (compiled_flows source).1 object mid b late second valued.regular
  obtain ⟨-,raises,-,-,there⟩ := constant_string found targetValue.regular
  rw [Evaluation.expr,List.append_assoc]
  refine (given s a mid first alone valuePlain exits temps).then
    (targetValue.raises.trans raises).function.constants fun v => ?_
  refine (target mid b late second (valued.alone alone) objectPlain exits _).then
    raises.function.constants fun w => ?_
  exact .emit raises fun offset names _ here pool => .setField here (known pool there)

theorem exprWorks_field {object : Expr} {label : Bytes}
    (target : ExprWorks source code host limit object) :
    ExprWorks source code host limit (.field span object label) := by
  intro s f t run alone plain exits temps
  rw [expr] at run
  obtain ⟨a,mid,first,run⟩ := bind_ok run
  obtain ⟨n,_,found,run⟩ := bind_ok run
  cases run
  have valued := (compiled_flows source).1 object s a mid first alone.regular
  obtain ⟨-,raises,-,-,there⟩ := constant_string found valued.regular
  rw [Evaluation.expr]
  refine (target s a mid first alone plain exits temps).then raises.function.constants fun v => ?_
  exact .emit raises fun offset names _ here pool => .getField here (known pool there)

/-- There are as many values as expressions. -/
theorem length_exprs {es : List Expr} {values : List Value} {w w' : World}
    (run : Evaluation.exprs host limit es w = .ok values w') : values.length = es.length := by
  induction es generalizing values w with
  | nil =>
    rw [Evaluation.exprs] at run
    cases run
    rfl
  | cons first rest ih =>
    rw [Evaluation.exprs] at run
    obtain ⟨v,mid,-,run⟩ := of_run_bind run
    obtain ⟨others,last,later,run⟩ := of_run_bind run
    cases run
    rw [List.length_cons,List.length_cons,ih later]

theorem exprWorks_call {callee : Expr} {arguments : List Expr}
    (function : ExprWorks source code host limit callee)
    (values : ExprsWork source code host limit arguments) :
    ExprWorks source code host limit (.call span callee arguments) := by
  intro s f t run alone plain exits temps
  obtain ⟨calleePlain,argumentsPlain⟩ := Bool.and_eq_true_iff.mp plain
  rw [expr] at run
  obtain ⟨a,mid,first,run⟩ := bind_ok run
  obtain ⟨b,_,second,run⟩ := bind_ok run
  cases run
  obtain ⟨expressions,-,-,lists⟩ := compiled_flows source
  have calleeValue := expressions callee s a mid first alone.regular
  have rest := lists arguments mid b t second calleeValue.regular
  rw [Evaluation.expr,List.append_assoc]
  refine (function s a mid first alone calleePlain exits temps).then rest.raises.function.constants
    fun v => (values mid b t second (calleeValue.alone alone) argumentsPlain exits _).thenOf
      (fun _ _ _ => length_exprs) List.prefix_rfl fun given count => ?_
  refine .emit (.refl t) fun offset names _ here _ => .call ?_
  rw [count]
  exact here

/-- If the left operand decides, its copy on the stack is the value; else it makes way for the right
operand. -/
theorem exprWorks_logical {op : LogicalOp} {lhs rhs : Expr}
    (left : ExprWorks source code host limit lhs) (right : ExprWorks source code host limit rhs) :
    ExprWorks source code host limit (.logical span op lhs rhs) := by
  intro s f t run alone plain exits temps
  obtain ⟨leftPlain,rightPlain⟩ := Bool.and_eq_true_iff.mp plain
  rw [expr] at run
  obtain ⟨a,mid,first,run⟩ := bind_ok run
  obtain ⟨b,late,second,run⟩ := bind_ok run
  obtain ⟨rest,_,tested,run⟩ := bind_ok run
  cases run
  obtain ⟨rfl,-,rfl⟩ := guarded_spec tested
  have leftValue := (compiled_flows source).1 lhs s a mid first alone.regular
  have rightValue := (compiled_flows source).1 rhs mid b t second leftValue.regular
  have same := rightValue.raises.function.names
  rw [Evaluation.expr,List.append_assoc]
  refine (left s a mid first alone leftPlain exits temps).then rightValue.raises.function.constants
    fun v => ?_
  intro offset pool lies
  simp only [Fragment.lies_append,Fragment.lies_one] at lies
  obtain ⟨copy,test,drop,other⟩ := lies
  rw [same]
  have ending : offset + Fragment.size (.one (source.line span.start) .duplicate ++
      (.one (source.line span.start)
        (.jumpIf (decide (op = .either)) (.one (source.line span.start) .pop ++ b).size) ++
      (.one (source.line span.start) .pop ++ b))) = offset + 1 + 5 + (1 + b.size) := by
    simp [Instr.size]
    omega
  rw [ending]
  refine (Does.duplicate copy).before ((Does.jumpIf test).bind fun holds => ?_)
  have meaning : ((holds = true) = (op = .either)) ↔ holds = decide (op = .either) := by
    cases holds <;> simp
  by_cases decides : holds = decide (op = .either)
  · rw [if_pos decides,if_pos (meaning.mpr decides)]
    exact .pure (q := fun value => ⟨_,_,value :: temps⟩) v
  · rw [if_neg decides,if_neg (meaning.not.mpr decides)]
    have does := right mid b t second (leftValue.alone alone) rightPlain exits temps _ pool other
    rw [same] at does
    rw [← Nat.add_assoc]
    exact (Does.pop drop).before does

theorem exprsWork_nil : ExprsWork source code host limit [] := by
  intro s f t run alone _ exits temps
  rw [exprs] at run
  cases run
  rw [Evaluation.exprs]
  exact .nil (l := fun values => values.reverse ++ temps) []

theorem exprsWork_cons {first : Expr} {rest : List Expr}
    (head : ExprWorks source code host limit first)
    (tail : ExprsWork source code host limit rest) :
    ExprsWork source code host limit (first :: rest) := by
  intro s f t run alone plain exits temps
  obtain ⟨headPlain,tailPlain⟩ := Bool.and_eq_true_iff.mp plain
  rw [exprs] at run
  obtain ⟨a,mid,first,run⟩ := bind_ok run
  obtain ⟨b,_,second,run⟩ := bind_ok run
  cases run
  obtain ⟨expressions,-,-,lists⟩ := compiled_flows source
  have value := expressions _ s a mid first alone.regular
  have values := lists rest mid b t second value.regular
  rw [Evaluation.exprs]
  refine (head s a mid first alone headPlain exits temps).then values.raises.function.constants
    fun v => ?_
  refine (tail mid b t second (value.alone alone) tailPlain exits (v :: temps)).map
    (p := fun others => v :: others) (fun others => ?_) rfl
  rw [List.reverse_cons,List.append_assoc,List.singleton_append]

end Compile

end ScriptMachine
