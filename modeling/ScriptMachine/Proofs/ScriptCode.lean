import Mathlib
import ScriptMachine.Proofs.LoopCode

/-! The code of a whole script does what the script means, by induction over its tree. -/
namespace ScriptMachine.Compile

open ScriptMachine.Code

variable {source : Source} {span : Span} {code : Code} {host : Host} {limit : Nat} {loop : Option Nat}

/-- There is no return outside of functions. -/
theorem stmtWorks_ret {value : Option Expr} : StmtWorks source code host limit loop (.ret span value) := by
  intro s f t run alone
  rw [stmt] at run
  obtain ⟨_,_,got,run⟩ := bind_ok run
  cases got
  simp only [alone.enclosing,List.isEmpty_nil,↓reduceIte] at run
  cases run

theorem stmtsWork_nil : StmtsWork source code host limit loop [] := by
  intro s f t run _ _ _ exits _
  rw [stmts] at run
  cases run
  rw [Evaluation.stmts]
  exact .nil (l := fun _ => []) ()

theorem stmtsWork_cons {first : Stmt} {rest : List Stmt}
    (head : StmtWorks source code host limit loop first)
    (tail : StmtsWork source code host limit loop rest) :
    StmtsWork source code host limit loop (first :: rest) := by
  intro s f t run alone within plain exits around
  obtain ⟨firstPlain,restPlain⟩ := Bool.and_eq_true_iff.mp plain
  rw [stmts] at run
  obtain ⟨a,mid,compiled,run⟩ := bind_ok run
  obtain ⟨b,_,more,run⟩ := bind_ok run
  cases run
  have flowing := (compiled_flows source).2.2.1 loop first s a mid compiled alone.regular within
  have still := alone.extend flowing.regular flowing.grown
  have inside := within.mono flowing.grown.function
  have flowingToo := (compiled_flows source).2.1 loop rest mid b t more still.regular inside
  rw [Evaluation.stmts]
  exact (head s a mid compiled alone within firstPlain exits around).then
    flowingToo.grown.function.constants fun _ =>
      tail mid b t more still inside restPlain exits (around.extend within flowing.grown)

/-- By induction over the tree, each kind of expression and statement in turn. -/
theorem compiled_works (source : Source) (code : Code) (host : Host) (limit : Nat) :
    (∀ e, ExprWorks source code host limit e) ∧
      (∀ loop sts, StmtsWork source code host limit loop sts) ∧
      (∀ loop st, StmtWorks source code host limit loop st) ∧
      ∀ es, ExprsWork source code host limit es := by
  refine expr.mutual_induct source (ExprWorks source code host limit)
    (StmtsWork source code host limit) (StmtWorks source code host limit)
    (ExprsWork source code host limit) ?number ?string ?bool ?nil ?binary ?logical ?unary ?name ?call
    ?assignName ?assignField ?assignOther ?field ?lambda ?expression ?print ?declareNil ?declare ?block
    ?function ?struct ?ret ?branch ?branchElse ?loop ?breakLoop ?breakOutside ?continueLoop
    ?continueOutside ?noExprs ?exprs ?noStmts ?stmts
  case number => exact fun _ value => exprWorks_number value
  case string => exact fun _ text => exprWorks_string text
  case bool => exact fun _ value => exprWorks_bool value
  case nil => exact fun _ => exprWorks_nil
  case binary => exact fun _ _ _ _ left right => exprWorks_binary left right
  case logical => exact fun _ _ _ _ left right => exprWorks_logical left right
  case unary => exact fun _ _ _ inner => exprWorks_unary inner
  case name => exact fun _ spelling => exprWorks_name spelling
  case call => exact fun _ _ _ function values => exprWorks_call function values
  case assignName => exact fun _ _ _ _ given => exprWorks_assignName given
  case assignField => exact fun _ _ _ _ _ given target => exprWorks_assignField given target
  case assignOther =>
    intro span target value notName notField s f t run
    rw [expr] at run
    · cases run
    · exact notName
    · exact notField
  case field => exact fun _ _ _ target => exprWorks_field target
  case lambda =>
    intro _ _ _ _ s f t _ _ plain
    cases plain
  case expression => exact fun _ _ _ inner => stmtWorks_expression inner
  case print => exact fun _ _ _ inner => stmtWorks_print inner
  case declareNil => exact fun _ _ _ => stmtWorks_declareNil
  case declare => exact fun _ _ _ _ inner => stmtWorks_declare inner
  case block => exact fun _ _ _ inner => stmtWorks_block inner
  case function =>
    intro _ _ _ _ _ _ s f t _ _ _ plain
    cases plain
  case struct => exact fun _ _ _ _ => stmtWorks_struct
  case ret => exact fun _ _ _ _ => stmtWorks_ret
  case branch => exact fun _ _ _ _ test inner => stmtWorks_branch test inner
  case branchElse => exact fun _ _ _ _ _ test inner other => stmtWorks_branchElse test inner other
  case loop =>
    intro _ _ condition _ inner test
    cases condition with
    | none => exact stmtWorks_loop inner
    | some condition => exact stmtWorks_while test inner
  case breakLoop => exact fun _ _ => stmtWorks_breakLoop
  case breakOutside => exact fun _ => stmtWorks_breakLoop
  case continueLoop => exact fun _ _ => stmtWorks_continueLoop
  case continueOutside => exact fun _ => stmtWorks_continueLoop
  case noExprs => exact exprsWork_nil
  case exprs => exact fun _ _ head tail => exprsWork_cons head tail
  case noStmts => exact fun _ => stmtsWork_nil
  case stmts => exact fun _ _ _ head tail => stmtsWork_cons head tail

/-- Before the return at the end, the value of the script is left. -/
theorem script_works (source : Source) (code : Code) (host : Host) (limit : Nat) (sts : List Stmt) :
    ∀ s f t, script source sts s = .ok f t → s.Alone → s.function.blocks = [] →
      Stmt.functionlessAll sts = true → ∃ front line, f = front ++ .one line .ret ∧
        Works code host limit none s t front [] (Evaluation.script host limit sts)
          fun value => [value] := by
  obtain ⟨exprs,-,stmts,-⟩ := compiled_works source code host limit
  induction sts using script.induct source with
  | case1 =>
    intro s f t run _ _ _
    cases run
    refine ⟨_,_,rfl,?_⟩
    exact .emit (.refl s) fun offset names _ here _ => literal here rfl (by simp)
  | case2 span value =>
    intro s f t run alone _ plain
    obtain ⟨firstPlain,-⟩ := Bool.and_eq_true_iff.mp plain
    rw [script] at run
    obtain ⟨a,_,compiled,run⟩ := bind_ok run
    cases run
    exact ⟨a,_,rfl,exprs value s a t compiled alone firstPlain none []⟩
  | case3 first rest other ih =>
    intro s f t run alone outside plain
    obtain ⟨firstPlain,restPlain⟩ := Bool.and_eq_true_iff.mp plain
    rw [script.eq_3 _ _ _ other] at run
    obtain ⟨a,mid,compiled,run⟩ := bind_ok run
    obtain ⟨b,_,more,run⟩ := bind_ok run
    cases run
    have inside : Within s.function none := by simp [Within]
    have flowing := (compiled_flows source).2.2.1 none first s a mid compiled alone.regular inside
    have still := alone.extend flowing.regular flowing.grown
    have outsideToo := blocks_outside flowing.grown.function outside
    obtain ⟨-,grown,-⟩ := scriptFlows source rest mid b t more still.regular outsideToo
    obtain ⟨front,line,rfl,works⟩ := ih mid b t more still outsideToo restPlain
    refine ⟨a ++ front,line,by simp,?_⟩
    have starts := stmts none first s a mid compiled alone inside firstPlain none (by simp [Around])
    rw [Evaluation.script]
    · exact starts.then grown.function.constants fun _ => works
    · exact other

end ScriptMachine.Compile
