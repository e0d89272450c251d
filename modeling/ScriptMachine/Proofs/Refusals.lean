import Mathlib
import ScriptMachine.Proofs.Judging

/-! A script is refused if and only if it breaks a rule, and for a rule that it breaks, at the place where
it breaks it. -/
namespace ScriptMachine.Compile

variable {source : Source} {h : Setting}

/-- A statement and those behind it. -/
theorem Judged.sequence {first : Stmt} {rest : List Stmt} {inLoop : Bool} {x y : Compiler Fragment}
    (head : Judged source h (h.after first) x (first.mentions h.scopes)
      (first.faults h.scopes inLoop ++ h.clashes first.declaration?.toList))
    (tail : Judged source (h.after first) ((h.after first).afterAll rest) y
      (Stmt.mentionsIn (h.after first).scopes rest)
      (Stmt.faultsIn (h.after first).scopes inLoop rest ++
        (h.after first).clashes (declarations rest))) :
    Judged source h (h.afterAll (first :: rest)) (do return (← x) ++ (← y))
      (Stmt.mentionsIn h.scopes (first :: rest))
      (Stmt.faultsIn h.scopes inLoop (first :: rest) ++ h.clashes (declarations (first :: rest))) := by
  have declared : h.clashes (declarations (first :: rest)) =
      h.clashes first.declaration?.toList ++ (h.after first).clashes (declarations rest) := by
    rw [← Setting.clashes_append,declarations,List.filterMap_cons]
    cases first.declaration? <;> rfl
  have scopes := h.scopes_after first
  rw [Stmt.mentionsIn,Stmt.faultsIn,declared]
  refine (head.bind fun _ => tail.bind fun _ => .pure).same ?_ fun fault => ?_
  · rw [scopes,List.append_nil]
  · rw [scopes]
    simp only [List.append_nil,List.mem_append]
    tauto

/-- The verdict on an expression, on expressions, on a statement and on statements. -/
def ExprJudged (source : Source) (e : Expr) : Prop :=
  ∀ h, Judged source h h (expr source e) (e.mentions h.scopes) (e.faults h.scopes)

def ExprsJudged (source : Source) (es : List Expr) : Prop :=
  ∀ h, Judged source h h (exprs source es) (Expr.mentionsOf h.scopes es) (Expr.faultsOf h.scopes es)

def StmtJudged (source : Source) (loop : Option Nat) (st : Stmt) : Prop :=
  ∀ h, Judged source h (h.after st) (stmt source loop st) (st.mentions h.scopes)
    (st.faults h.scopes loop.isSome ++ h.clashes st.declaration?.toList)

def StmtsJudged (source : Source) (loop : Option Nat) (sts : List Stmt) : Prop :=
  AllJudged source loop.isSome sts (stmts source loop sts)

/-- By induction over the tree, each kind of expression and statement in turn. -/
theorem compiled_judged (source : Source) :
    (∀ e, ExprJudged source e) ∧ (∀ loop sts, StmtsJudged source loop sts) ∧
    (∀ loop st, StmtJudged source loop st) ∧ ∀ es, ExprsJudged source es := by
  refine expr.mutual_induct source (ExprJudged source) (StmtsJudged source) (StmtJudged source)
    (ExprsJudged source)
    ?number ?string ?bool ?nil ?binary ?logical ?unary ?name ?call ?assignName
    ?assignField ?assignOther ?field ?lambda ?expression ?print ?declareNil ?declare ?block
    ?function ?struct ?ret ?branch ?branchElse ?loop ?breakLoop ?breakOutside ?continueLoop
    ?continueOutside ?noExprs ?exprs ?noStmts ?stmts
  case number =>
    intro span value h
    rw [expr,Expr.mentions,Expr.faults]
    exact (Judged.constant (by simp)).bind fun _ => .pure
  case string =>
    intro span text h
    rw [expr,Expr.mentions,Expr.faults]
    exact Judged.name.bind fun _ => .pure
  case bool =>
    intro span value h
    rw [expr,Expr.mentions,Expr.faults]
    exact .pure
  case nil =>
    intro span h
    rw [expr,Expr.mentions,Expr.faults]
    exact .pure
  case binary =>
    intro span op lhs rhs left right h
    rw [expr,Expr.mentions,Expr.faults]
    exact ((left h).bind fun _ => (right h).bind fun _ => .pure).same (by simp) (by simp)
  case logical =>
    intro span op lhs rhs left right h
    rw [expr,Expr.mentions,Expr.faults]
    exact ((left h).bind fun _ => (right h).bind fun _ => Judged.guarded.bind fun _ => .pure).same
      (by simp) (by simp)
  case unary =>
    intro span op operand inner h
    rw [expr,Expr.mentions,Expr.faults]
    exact ((inner h).bind fun _ => .pure).same (by simp) (by simp)
  case name =>
    intro span spelling h
    rw [expr,Expr.mentions,Expr.faults]
    exact (Judged.variableInstr.bind fun _ => .pure).same (by simp) (by simp)
  case call =>
    intro span callee arguments function values h
    rw [expr,Expr.mentions,Expr.faults]
    exact ((function h).bind fun _ => (values h).bind fun _ => .pure).same (by simp) (by simp)
  case assignName =>
    intro span inner spelling value given h
    rw [expr,Expr.mentions,Expr.faults]
    exact ((given h).bind fun _ => Judged.variableInstr.bind fun _ => .pure).same (by simp) (by simp)
  case assignField =>
    intro span inner object label value given target h
    rw [expr,Expr.mentions,Expr.faults]
    exact ((given h).bind fun _ => (target h).bind fun _ => Judged.name.bind fun _ => .pure).same
      (by simp) (by simp)
  case assignOther =>
    intro span target value notName notField h
    rw [expr,Expr.faults]
    · exact fun s placed => .refuse List.mem_cons_self
    · exact notName
    · exact notField
    · exact notName
    · exact notField
  case field =>
    intro span object label target h
    rw [expr,Expr.mentions,Expr.faults]
    exact ((target h).bind fun _ => Judged.name.bind fun _ => .pure).same (by simp) (by simp)
  case lambda =>
    intro span parameters body inner h
    rw [expr_lambda,Expr.mentions,Expr.faults]
    exact .closureCode inner
  case noExprs =>
    intro h
    rw [exprs,Expr.mentionsOf,Expr.faultsOf]
    exact .pure
  case exprs =>
    intro first rest head tail h
    rw [exprs,Expr.mentionsOf,Expr.faultsOf]
    exact ((head h).bind fun _ => (tail h).bind fun _ => .pure).same (by simp) (by simp)
  case noStmts =>
    intro loop h
    rw [stmts,Stmt.mentionsIn,Stmt.faultsIn]
    exact .pure
  case stmts =>
    intro loop first rest head tail h
    rw [stmts]
    exact .sequence (head h) (tail (h.after first))
  case expression | print =>
    intro loop span value inner h
    rw [stmt,Stmt.mentions,Stmt.faults]
    exact ((inner h).bind fun _ => .pure).same (by simp) (by simp [Stmt.declaration?])
  case declareNil =>
    intro loop span name h
    rw [stmt,Stmt.mentions,Stmt.faults]
    refine (Judged.declare.bind fun _ => Judged.define.bind fun _ => .pure).same rfl fun fault => ?_
    simp only [List.append_nil,List.mem_append,Stmt.declaration?,Option.toList_some]
    tauto
  case declare =>
    intro loop span name value inner h
    rw [stmt,Stmt.mentions,Stmt.faults]
    refine ((inner h).bind fun _ => Judged.declare.bind fun _ => Judged.define.bind fun _ => .pure).same
      (by simp) fun fault => ?_
    simp only [List.append_nil,List.mem_append,Stmt.declaration?,Option.toList_some]
    tauto
  case block =>
    intro loop span body inner h
    rw [stmt_block,Stmt.mentions,Stmt.faults]
    exact (Judged.blockCode inner).same rfl (by simp [Stmt.declaration?])
  case function =>
    intro loop span name parameters body inner h
    rw [stmt_function,Stmt.mentions,Stmt.faults]
    refine (Judged.declare.bind fun _ => (Judged.closureCode inner).bind fun closure =>
      Judged.define.bind fun rest => .pure).same (by simp [Setting.declare]) fun fault => ?_
    simp only [List.append_nil,List.mem_append,Stmt.declaration?,Option.toList_some,Setting.declare]
    tauto
  case struct =>
    intro loop span name fields h
    rw [stmt,Stmt.mentions,Stmt.faults]
    refine ((Judged.fieldConstants _ _).bind fun labels => Judged.name.bind fun title =>
      Judged.declare.bind fun _ => Judged.define.bind fun _ => .pure).same rfl fun fault => ?_
    simp only [List.append_nil,List.mem_append,Stmt.declaration?,Option.toList_some]
    tauto
  case breakLoop | continueLoop =>
    intro span depth h
    rw [stmt,Stmt.mentions,Stmt.faults]
    exact (Judged.unwind.bind fun _ => .pure).same rfl (by simp [Stmt.declaration?])
  case breakOutside | continueOutside =>
    intro span h
    rw [stmt,Stmt.mentions,Stmt.faults]
    exact fun s placed => .refuse (List.mem_append_left _ (Fault.broken (by simp)))
  case ret =>
    intro loop span value inner h s placed
    have nested : s.enclosing.isEmpty = true ↔ ¬1 < h.scopes.length := by
      rw [placed.names]
      cases s.enclosing <;> simp
    rw [stmt]
    refine .get (.ite (fun alone => ?_) fun around => ?_)
    · have broken : ⟨.returnOutsideFunction,span⟩ ∈
          Fault.check (1 < h.scopes.length) .returnOutsideFunction span :=
        Fault.broken (nested.mp alone)
      refine .refused (List.mem_append_left _ ?_)
      cases value with
      | none => exact broken
      | some value => exact List.mem_append_left _ broken
    · have kept : 1 < h.scopes.length := by
        rw [nested,not_not] at around
        exact around
      cases value with
      | none =>
        rw [Stmt.mentions,Stmt.faults]
        exact (Judged.pure s placed).same rfl (by simp [kept,Stmt.declaration?])
      | some value =>
        rw [Stmt.mentions,Stmt.faults]
        exact ((inner h s placed).bind fun _ => .pure).same (by simp)
          (by simp [kept,Stmt.declaration?])
  case branch =>
    intro loop span condition yes test inner h
    rw [stmt_branch,Stmt.mentions,Stmt.faults]
    exact ((test h).bind fun _ => (Judged.blockCode inner).bind fun _ => Judged.guarded.bind fun _ =>
      .pure).same (by simp) (by simp [Stmt.declaration?])
  case branchElse =>
    intro loop span condition yes no test inner other h
    rw [stmt_branchElse,Stmt.mentions,Stmt.faults]
    exact ((test h).bind fun _ => (Judged.blockCode inner).bind fun _ =>
      (Judged.blockCode other).bind fun _ => (Judged.checkDistance _).bind fun _ =>
        Judged.guarded.bind fun _ => .pure).same (by simp) (by simp [Stmt.declaration?])
  case loop =>
    intro loop span condition body inner test h
    have rounds (depth : Nat) : Judged source h h
        (blockCode source (some depth) (source.line span.start) body) _
        (blockFaults body (Stmt.faultsIn h.scopes.openBlock true body)) := .blockCode (inner depth)
    cases condition with
    | none =>
      rw [stmt_loop,Stmt.mentions,Stmt.faults]
      exact (Judged.blockDepth.bind fun depth => (rounds depth).bind fun _ => .closeLoop).same (by simp)
        (by simp [Stmt.declaration?])
    | some condition =>
      rw [stmt_while,Stmt.mentions,Stmt.faults]
      exact (Judged.blockDepth.bind fun depth => (test h).bind fun _ => (rounds depth).bind fun _ =>
        .closeLoop).same (by simp) (by simp [Stmt.declaration?])

theorem script_judged (source : Source) (program : List Stmt) :
    AllJudged source false program (script source program) := by
  obtain ⟨exprs,-,stmts,-⟩ := compiled_judged source
  induction program using script.induct source with
  | case1 =>
    intro h
    rw [script,Stmt.mentionsIn,Stmt.faultsIn]
    exact .pure
  | case2 span value =>
    intro h
    rw [script,Stmt.mentionsIn,Stmt.mentionsIn,Stmt.faultsIn,Stmt.faultsIn,Stmt.mentions,
      Stmt.faults]
    exact ((exprs value h).bind fun _ => .pure).same (by simp)
      (by simp [show declarations [Stmt.expression span value] = [] from rfl])
  | case3 first rest other ih =>
    intro h
    rw [script.eq_3 _ _ _ other]
    exact .sequence (stmts none first h) (ih (h.after first))

theorem placed_initial : Placed ⟨[[]],[]⟩ State.initial :=
  ⟨lexical_initial,rfl⟩

/-- A chunk comes of a script if and only if it keeps all rules; a refusal tells of a rule that it breaks,
and where. -/
structure Exact (source : Source) (program : List Stmt) (outcome : Except Diagnostic Chunk) : Prop where
  accepted : (∃ chunk, outcome = .ok chunk) ↔ programFaults program = []
  refused : ∀ d, outcome = .error d → ∃ fault ∈ programFaults program, d = fault.located source

/-- The compiler refuses exactly the scripts that break a rule, but for those that are too large for
constants and jumps of 32 bits. -/
theorem tree_exact (source : Source) (program : List Stmt)
    (fits : ∀ d, (tree source program).outcome = .error d → ¬d.Oversize) :
    Exact source program (tree source program).outcome := by
  have verdict := script_judged source program ⟨[[]],[]⟩ _ placed_initial
  have whole (fault : Fault) : fault ∈ Stmt.faultsIn [[]] false program ++
      Setting.clashes ⟨[[]],[]⟩ (declarations program) ↔ fault ∈ programFaults program := by
    rw [programFaults,List.mem_append,List.mem_append,or_comm]
    rfl
  have refused (d : Diagnostic) (failed : (tree source program).outcome = .error d) :
      ∃ fault ∈ programFaults program, d = fault.located source := by
    obtain ⟨t,run⟩ := tree_eq_error.mp failed
    cases verdict.refuses d t run with
    | oversize oversize => exact absurd oversize (fits d failed)
    | @fault fault member located => exact ⟨fault,(whole fault).mp member,located⟩
    | overfull bound => simp [State.chain,State.initial] at bound
  refine ⟨⟨?_,fun none => ?_⟩,refused⟩
  · rintro ⟨chunk,compiled⟩
    obtain ⟨code,t,run,-⟩ := tree_eq_ok.mp compiled
    have none := (verdict.accepts code t run).2.2
    exact List.eq_nil_iff_forall_not_mem.mpr fun fault member => by
      rw [← whole,none] at member
      exact List.not_mem_nil member
  · cases outcome : (tree source program).outcome with
    | ok chunk => exact ⟨chunk,rfl⟩
    | error d =>
      obtain ⟨fault,member,-⟩ := refused d outcome
      rw [none] at member
      exact absurd member List.not_mem_nil

/-- A function that declares a parameter once more, next to a local that may have the name. -/
theorem tree_exact_parameter : ∃ source program d, Source.parse source = .ok program ∧
    (tree source program).outcome = .error d ∧ d.cause = .duplicateVariable (ascii "a") ∧
      Exact source program (tree source program).outcome := by
  let source := Source.ofText (ascii
    "\x7b var a = 1; fun f(a) \x7b \x7b var a = 2; \x7d var a = 3; return a; \x7d \x7d")
  have computed : (source.parse.toOption.any fun program =>
      match (tree source program).outcome with
      | .error d => d.cause = .duplicateVariable (ascii "a")
      | .ok _ => false) = true := by decide +kernel
  obtain ⟨program,read,refused⟩ := (Option.any_eq_true _ _).mp computed
  cases outcome : (tree source program).outcome with
  | ok chunk => simp [outcome] at refused
  | error d =>
    have cause : d.cause = .duplicateVariable (ascii "a") := by simpa [outcome] using refused
    refine ⟨source,program,d,toOption_eq_some.mp read,outcome,cause,
      tree_exact source program fun e failed => ?_⟩
    obtain rfl : d = e := Except.error.inj (outcome.symm.trans failed)
    simp [Diagnostic.Oversize,cause]

end ScriptMachine.Compile
