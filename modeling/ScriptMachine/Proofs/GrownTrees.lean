import Mathlib
import ScriptMachine.Proofs.FewerConstants
import ScriptMachine.Proofs.Growth
import ScriptMachine.Proofs.Refusals

/-! Trees that grow. A tree that has grown is compiled only if it was compiled before: what stood last in it
is still compiled, before or after what has come. -/
namespace ScriptMachine.Compile

section

variable {source other : Source} {span span' : Span} {loop : Option Nat}

/-! The same tree in two scripts. Ranges do not matter. -/

section

variable (name : Bytes)

theorem lags_read : Lags (variableInstr source .getLocal .getCapture .getGlobal name span)
    (variableInstr other .getLocal .getCapture .getGlobal name span') fun i j => i.size = j.size :=
  lags_variableInstr name (fun _ => rfl) (fun _ => rfl) fun _ _ => rfl

theorem lags_written : Lags (variableInstr source .setLocal .setCapture .setGlobal name span)
    (variableInstr other .setLocal .setCapture .setGlobal name span') fun i j => i.size = j.size :=
  lags_variableInstr name (fun _ => rfl) (fun _ => rfl) fun _ _ => rfl

theorem lags_readWritten : Lags (variableInstr source .getLocal .getCapture .getGlobal name span)
    (variableInstr other .setLocal .setCapture .setGlobal name span') fun i j => i.size = j.size :=
  lags_variableInstr name (fun _ => rfl) (fun _ => rfl) fun _ _ => rfl

end

theorem lags_closureCode {line line' : Nat} {name : Bytes} {parameters : List Bytes} {body : List Stmt}
    (inner : Lags (stmts source none body) (stmts other none body) Shorter) :
    Lags (closureCode source line name parameters span body)
      (closureCode other line' name parameters span' body) Shorter :=
  (lags_beginFunction _).bind fun _ _ _ => inner.bind fun _ _ _ => lags_endFunction _ _ _ _

theorem lags_lambda {parameters : List Bytes} {body : List Stmt}
    (inner : Lags (stmts source none body) (stmts other none body) Shorter) :
    Lags (expr source (.lambda span parameters body)) (expr other (.lambda span' parameters body))
      Shorter := by
  rw [expr_lambda,expr_lambda]
  exact lags_closureCode inner

theorem lags_call {callee : Expr} {arguments : List Expr}
    (function : Lags (expr source callee) (expr other callee) Shorter)
    (values : Lags (exprs source arguments) (exprs other arguments) Shorter) :
    Lags (expr source (.call span callee arguments)) (expr other (.call span' callee arguments))
      Shorter := by
  rw [expr,expr]
  exact function.bind fun _ _ first => values.bind fun _ _ second =>
    .pure ((first.append second).append (.one rfl))

theorem lags_field {object : Expr} {label : Bytes}
    (target : Lags (expr source object) (expr other object) Shorter) :
    Lags (expr source (.field span object label)) (expr other (.field span' object label))
      Shorter := by
  rw [expr,expr]
  exact target.bind fun _ _ first => (lags_constant rfl).bind fun _ _ _ =>
    .pure (first.append (.one rfl))

theorem lags_blockCode {body : List Stmt} {line line' : Nat}
    (inner : Lags (stmts source loop body) (stmts other loop body) Shorter) :
    Lags (blockCode source loop line body) (blockCode other loop line' body) Shorter :=
  lags_openBlock.bind fun _ _ _ => inner.bind fun _ _ first => lags_closeBlock.bind fun _ _ second =>
    .pure (first.append second)

theorem lags_blockStatement {body : List Stmt}
    (inner : Lags (stmts source loop body) (stmts other loop body) Shorter) :
    Lags (stmt source loop (.block span body)) (stmt other loop (.block span' body)) Shorter := by
  rw [stmt_block,stmt_block]
  exact lags_blockCode inner

theorem lags_functionStatement {name : Bytes} {parameters : List Bytes} {body : List Stmt}
    (inner : Lags (stmts source none body) (stmts other none body) Shorter) :
    Lags (stmt source loop (.function span name parameters body))
      (stmt other loop (.function span' name parameters body)) Shorter := by
  rw [stmt_function,stmt_function]
  exact (lags_declare _).bind fun _ _ _ => (lags_closureCode inner).bind fun _ _ first =>
    (lags_define _).bind fun _ _ second => .pure (first.append second)

theorem lags_struct {name : Bytes} {fields : List Bytes} :
    Lags (stmt source loop (.struct span name fields)) (stmt other loop (.struct span' name fields))
      Shorter := by
  rw [stmt,stmt]
  refine (lags_fieldConstants _ _).bind fun labels labels' same => (lags_constant rfl).bind
    fun _ _ _ => (lags_declare _).bind fun _ _ _ => (lags_define _).bind fun _ _ second => .pure ?_
  exact Shorter.append (.one (by simp [Instr.size,same])) second

theorem lags_branch {condition : Expr} {yes : List Stmt}
    (test : Lags (expr source condition) (expr other condition) Shorter)
    (inner : Lags (stmts source loop yes) (stmts other loop yes) Shorter) :
    Lags (stmt source loop (.branch span condition yes none))
      (stmt other loop (.branch span' condition yes none)) Shorter := by
  rw [stmt_branch,stmt_branch]
  exact test.bind fun _ _ first => (lags_blockCode inner).bind fun _ _ shorter =>
    (lags_guarded _ shorter).bind fun _ _ second => .pure (first.append second)

theorem lags_branchElse {condition : Expr} {yes no : List Stmt}
    (test : Lags (expr source condition) (expr other condition) Shorter)
    (inner : Lags (stmts source loop yes) (stmts other loop yes) Shorter)
    (otherwise : Lags (stmts source loop no) (stmts other loop no) Shorter) :
    Lags (stmt source loop (.branch span condition yes (some no)))
      (stmt other loop (.branch span' condition yes (some no))) Shorter := by
  rw [stmt_branchElse,stmt_branchElse]
  refine test.bind fun _ _ first => (lags_blockCode inner).bind fun _ _ shorter =>
    (lags_blockCode otherwise).bind fun _ _ last => (lags_checkDistance last).bind fun _ _ _ => ?_
  have jump (line line' n m : Nat) : Shorter (.one line (.jump n)) (.one line' (.jump m)) := .one rfl
  exact (lags_guarded _ (shorter.append (jump _ _ _ _))).bind fun _ _ second =>
    .pure ((first.append second).append last)

theorem lags_loop {condition : Option Expr} {body : List Stmt}
    (test : ∀ e ∈ condition, Lags (expr source e) (expr other e) Shorter)
    (inner : ∀ depth, Lags (stmts source (some depth) body) (stmts other (some depth) body) Shorter) :
    Lags (stmt source loop (.loop span condition body)) (stmt other loop (.loop span' condition body))
      Shorter := by
  cases condition with
  | none =>
    rw [stmt_loop,stmt_loop]
    refine lags_blockDepth.bind fun depth _ same => ?_
    subst same
    exact (lags_blockCode (inner depth)).bind fun _ _ shorter => lags_closeLoop .none shorter
  | some e =>
    rw [stmt_while,stmt_while]
    refine lags_blockDepth.bind fun depth _ same => ?_
    subst same
    exact (test e rfl).bind fun _ _ tested => (lags_blockCode (inner depth)).bind fun _ _ shorter =>
      lags_closeLoop (.some tested) shorter

theorem lags_breakLoop :
    Lags (stmt source loop (.breakLoop span)) (stmt other loop (.breakLoop span')) Shorter := by
  cases loop with
  | none => exact fun _ _ _ => .never fun b t' => by rw [stmt]; exact nofun
  | some depth =>
    rw [stmt,stmt]
    exact (lags_unwind depth).bind fun _ _ first => .pure (first.append (le_refl 5))

theorem lags_continueLoop :
    Lags (stmt source loop (.continueLoop span)) (stmt other loop (.continueLoop span')) Shorter := by
  cases loop with
  | none => exact fun _ _ _ => .never fun b t' => by rw [stmt]; exact nofun
  | some depth =>
    rw [stmt,stmt]
    exact (lags_unwind depth).bind fun _ _ first => .pure (first.append (le_refl 5))

end

/-- By induction over the tree, each kind of expression and statement in turn. -/
theorem compiled_lags (source other : Source) :
    (∀ e, Lags (expr source e) (expr other e) Shorter) ∧
    (∀ loop sts, Lags (stmts source loop sts) (stmts other loop sts) Shorter) ∧
    (∀ loop st, Lags (stmt source loop st) (stmt other loop st) Shorter) ∧
    ∀ es, Lags (exprs source es) (exprs other es) Shorter := by
  refine expr.mutual_induct source (fun e => Lags (expr source e) (expr other e) Shorter)
    (fun loop sts => Lags (stmts source loop sts) (stmts other loop sts) Shorter)
    (fun loop st => Lags (stmt source loop st) (stmt other loop st) Shorter)
    (fun es => Lags (exprs source es) (exprs other es) Shorter)
    ?number ?string ?bool ?nil ?binary ?logical ?unary ?name ?call ?assignName
    ?assignField ?assignOther ?field ?lambda ?expression ?print ?declareNil ?declare ?block
    ?function ?struct ?ret ?branch ?branchElse ?loop ?breakLoop ?breakOutside ?continueLoop
    ?continueOutside ?noExprs ?exprs ?noStmts ?stmts
  case number | string =>
    intro span value
    rw [expr,expr]
    exact (lags_constant rfl).bind fun _ _ _ => .pure (.one rfl)
  case bool =>
    intro span value
    rw [expr,expr]
    exact .pure (.one rfl)
  case nil =>
    intro span
    rw [expr,expr]
    exact .pure (.one rfl)
  case binary =>
    intro span op lhs rhs left right
    rw [expr,expr]
    exact left.bind fun _ _ first => right.bind fun _ _ second =>
      .pure ((first.append second).append (.one rfl))
  case logical =>
    intro span op lhs rhs left right
    rw [expr,expr]
    exact left.bind fun _ _ first => right.bind fun _ _ second =>
      (lags_guarded _ (Shorter.append (.one rfl) second)).bind fun _ _ rest =>
        .pure ((first.append (.one rfl)).append rest)
  case unary =>
    intro span op operand inner
    rw [expr,expr]
    exact inner.bind fun _ _ first => .pure (first.append (.one rfl))
  case name =>
    intro span spelling
    rw [expr,expr]
    exact (lags_read _).bind fun _ _ same => .pure (.one same)
  case call => exact fun span callee arguments function values => lags_call function values
  case assignName =>
    intro span inner spelling value given
    rw [expr,expr]
    exact given.bind fun _ _ first => (lags_written _).bind fun _ _ same =>
      .pure (first.append (.one same))
  case assignField =>
    intro span inner object label value given target
    rw [expr,expr]
    exact given.bind fun _ _ first => target.bind fun _ _ second => (lags_constant rfl).bind
      fun _ _ _ => .pure ((first.append second).append (.one rfl))
  case assignOther =>
    intro span target value notName notField s t within
    refine .never fun b t' => ?_
    rw [expr]
    · exact refuse_ne
    · exact notName
    · exact notField
  case field => exact fun span object label target => lags_field target
  case lambda => exact fun span parameters body inner => lags_lambda inner
  case noExprs =>
    rw [exprs,exprs]
    exact .pure .nil
  case exprs =>
    intro first rest head tail
    rw [exprs,exprs]
    exact head.bind fun _ _ first => tail.bind fun _ _ second => .pure (first.append second)
  case noStmts =>
    intro loop
    rw [stmts,stmts]
    exact .pure .nil
  case stmts =>
    intro loop first rest head tail
    rw [stmts,stmts]
    exact head.bind fun _ _ first => tail.bind fun _ _ second => .pure (first.append second)
  case expression | print =>
    intro loop span value inner
    rw [stmt,stmt]
    exact inner.bind fun _ _ first => .pure (first.append (.one rfl))
  case declareNil =>
    intro loop span name
    rw [stmt,stmt]
    exact (lags_declare _).bind fun _ _ _ => (lags_define _).bind fun _ _ second =>
      .pure (Shorter.append (.one rfl) second)
  case declare =>
    intro loop span name value inner
    rw [stmt,stmt]
    exact inner.bind fun _ _ first => (lags_declare _).bind fun _ _ _ => (lags_define _).bind
      fun _ _ second => .pure (first.append second)
  case block => exact fun loop span body inner => lags_blockStatement inner
  case function => exact fun loop span name parameters body inner => lags_functionStatement inner
  case struct => exact fun loop span name fields => lags_struct
  case ret =>
    intro loop span value inner
    rw [stmt,stmt]
    refine .get fun s t within => ?_
    have nested : s.enclosing.isEmpty = t.enclosing.isEmpty := by
      rw [Bool.eq_iff_iff,List.isEmpty_iff_length_eq_zero,List.isEmpty_iff_length_eq_zero,
        within.enclosing.length_eq]
    rw [nested]
    refine .ite Iff.rfl .refused ?_
    cases value with
    | none => exact .pure ((Shorter.one rfl).append (.one rfl))
    | some value => exact inner.bind fun _ _ first => .pure (first.append (.one rfl))
  case branch => exact fun loop span condition yes test inner => lags_branch test inner
  case branchElse =>
    exact fun loop span condition yes no test inner otherwise => lags_branchElse test inner otherwise
  case loop =>
    intro loop span condition body inner test
    refine lags_loop (fun e known => ?_) fun depth => inner depth
    cases known
    exact test
  case breakLoop => exact fun span depth => lags_breakLoop
  case continueLoop => exact fun span depth => lags_continueLoop
  case breakOutside => exact fun span => lags_breakLoop
  case continueOutside => exact fun span => lags_continueLoop

/-! Outside of all functions and with no locals in scope, code that is compiled in addition only adds
constants. -/

/-- So many blocks are open, all of them empty, and no function is around. -/
def Bare (depth : Nat) (t : State) : Prop :=
  Lexical [List.replicate depth []] t

variable {source other : Source} {span span' : Span} {depth : Nat} {s t u : State} {α β γ : Type}

theorem Bare.enclosing (bare : Bare depth t) : t.enclosing = [] := by
  have names := bare.names
  rw [State.scopes,List.map_cons,List.cons.injEq,List.map_eq_nil_iff] at names
  exact names.2

theorem Bare.blocks (bare : Bare depth t) : t.function.blocks = List.replicate depth [] := by
  have names := bare.names
  rw [State.scopes,List.map_cons,List.cons.injEq] at names
  have empty : t.function.blocks.map (List.map (·.name)) = List.replicate depth [] := names.1
  rw [List.eq_replicate_iff] at empty ⊢
  refine ⟨by simpa using empty.1,fun block member => ?_⟩
  exact List.map_eq_nil_iff.mp (empty.2 _ (List.mem_map_of_mem member))

theorem Bare.nested (bare : Bare depth t) : t.function.Regular ∧ t.function.captures = [] := by
  have regular := bare.regular
  rwa [State.Regular,bare.enclosing] at regular

theorem Bare.refl (bare : Bare depth t) : t.Within t :=
  ⟨⟨rfl,rfl,.refl _,bare.nested.1.constants⟩,by rw [bare.enclosing]; exact .nil,rfl⟩

/-- Something that declares nothing, and leaves no more in scope. -/
structure Steady (x : Compiler α) : Prop where
  globals : ∀ h s, Placed h s → ∀ a t, x s = .ok a t → t.globals = h.globals
  names : ∀ scopes, Scoped scopes scopes x fun _ _ _ => True

theorem Steady.of {x : Compiler α} {mentions : Setting → List Mention} {faults : Setting → List Fault}
    {good : Scopes → Prospect α} (judged : ∀ h, Judged source h h x (mentions h) (faults h))
    (names : ∀ scopes, Scoped scopes scopes x (good scopes)) : Steady x :=
  ⟨fun h s placed a t run => ((judged h s placed).accepts a t run).1.globals,
    fun scopes => (names scopes).imp fun _ _ _ _ => trivial⟩

theorem Steady.bare {x : Compiler α} (steady : Steady x) (bare : Bare depth t) {a : α}
    (run : x t = .ok a u) : Bare depth u :=
  (steady.names _ t a u run bare).1

/-- What is compiled in addition does not matter. -/
theorem Steady.within {x : Compiler α} (steady : Steady x) (bare : Bare depth t) {a : α}
    (run : x t = .ok a u) : t.Within u := by
  have after := steady.bare bare run
  have grows := (steady.names _ t a u run bare).2.1
  refine ⟨⟨bare.blocks.trans after.blocks.symm,bare.nested.2.trans after.nested.2.symm,?_,
    after.nested.1.constants⟩,?_,?_⟩
  · exact (grows.constants.sublist.map keyOf).subperm
  · rw [bare.enclosing,after.enclosing]
    exact .nil
  · exact (steady.globals ⟨_,t.globals⟩ t ⟨bare,rfl⟩ a u run).symm

theorem steady_expr (source : Source) (e : Expr) : Steady (expr source e) :=
  .of ((compiled_judged source).1 e) ((compiled_uses source).1 e)

theorem steady_exprs (source : Source) (es : List Expr) : Steady (exprs source es) :=
  .of ((compiled_judged source).2.2.2 es) ((compiled_uses source).2.2.2 es)

/-! Expressions. -/

theorem LagsAt.trans {x : Compiler α} {y : Compiler β} {z : Compiler γ} {good : α → β → Prop}
    {fine : β → γ → Prop} {best : α → γ → Prop} (first : LagsAt s t x y good)
    (second : LagsAt t t y z fine) (both : ∀ a b c, good a b → fine b c → best a c) :
    LagsAt s t x z best := by
  intro c u run
  obtain ⟨b,mid,ended,close,within⟩ := second c u run
  obtain ⟨a,v,endedToo,closeToo,withinToo⟩ := first b mid ended
  exact ⟨a,v,endedToo,both a b c closeToo close,withinToo.trans within⟩

/-- More is compiled behind. -/
theorem LagsAt.before {x : Compiler α} {y : Compiler β} {k : β → Compiler γ} {good : α → β → Prop}
    {fine : α → γ → Prop} (first : LagsAt s t x y good)
    (rest : ∀ a b mid, good a b → y t = .ok b mid → ∀ c u, k b mid = .ok c u →
      mid.Within u ∧ fine a c) : LagsAt s t x (y >>= k) fine := by
  intro c u run
  obtain ⟨b,mid,head,tail⟩ := bind_ok run
  obtain ⟨a,v,ended,holds,within⟩ := first b mid head
  obtain ⟨more,holds⟩ := rest a b mid holds head c u tail
  exact ⟨a,v,ended,holds,within.trans more⟩

/-- More is compiled in front. -/
theorem LagsAt.behind {x : Compiler α} {y : Compiler β} {k : β → Compiler γ} {fine : α → γ → Prop}
    (rest : ∀ b mid, y t = .ok b mid → LagsAt s mid x (k b) fine) : LagsAt s t x (y >>= k) fine := by
  intro c u run
  obtain ⟨b,mid,head,tail⟩ := bind_ok run
  exact rest b mid head c u tail

theorem Shorter.trans {f g h : Fragment} (first : Shorter f g) (second : Shorter g h) : Shorter f h :=
  Nat.le_trans first second

theorem Shorter.more {f g : Fragment} (shorter : Shorter f g) (h : Fragment) : Shorter f (g ++ h) := by
  rw [Shorter,Fragment.size_append]
  exact Nat.le_add_right_of_le shorter

theorem Shorter.later {f g : Fragment} (shorter : Shorter f g) (h : Fragment) : Shorter f (h ++ g) := by
  rw [Shorter,Fragment.size_append]
  exact Nat.le_add_left_of_le shorter

theorem steady_name (source : Source) (text : Bytes) (span : Span) :
    Steady (constant source (.string text) span) :=
  .of (fun _ => .name) fun _ => .name

theorem steady_guarded {line : Nat} {jumpOn : Bool} {code : Fragment} :
    Steady (guarded source line jumpOn code span) :=
  .of (fun _ => .guarded) fun _ => .guarded

/-- An expression becomes the target of an assignment, whose value is compiled before it. -/
theorem target_grows {e target value : Expr} (inner : ∀ s t, s.Within t → Bare depth t →
      LagsAt s t (expr source e) (expr other target) Shorter)
    (s t : State) (within : s.Within t) (bare : Bare depth t) :
    LagsAt s t (expr source e) (expr other (.assign span target value)) Shorter := by
  have first (mid : State) {code : Fragment} (run : expr other value t = .ok code mid) :
      mid.Within mid ∧ LagsAt s mid (expr source e) (expr other target) Shorter := by
    have still := (steady_expr other value).bare bare run
    exact ⟨still.refl,inner s mid (within.trans ((steady_expr other value).within bare run)) still⟩
  cases target with
  | name place spelling =>
    rw [expr]
    refine .behind fun code mid run => ?_
    obtain ⟨same,read⟩ := first mid run
    rw [expr] at read
    refine read.trans ?_ fun _ _ _ => Shorter.trans
    exact ((lags_readWritten spelling).bind fun _ _ even => .pure
      ((Shorter.one even).later code)) mid mid same
  | field place object label =>
    rw [expr]
    refine .behind fun code mid run => ?_
    obtain ⟨same,read⟩ := first mid run
    rw [expr] at read
    refine read.trans ?_ fun _ _ _ => Shorter.trans
    have tail : Lags (do
          let object ← expr other object
          return object ++ .one (other.line place.start)
            (.getField (← constant other (.string label) place)))
        (do
          let object ← expr other object
          return code ++ object ++ .one (other.line span.start)
            (.setField (← constant other (.string label) span))) Shorter :=
      ((compiled_lags other other).1 object).bind fun _ _ shorter => (lags_constant rfl).bind
        fun _ _ _ => .pure ((shorter.later code).append (.one rfl))
    exact tail mid mid same
  | _ =>
    refine .never fun b u => ?_
    rw [expr]
    · exact refuse_ne
    all_goals simp

/-- The value of an assignment grows. -/
theorem value_grows {span' : Span} {target value value' : Expr} (inner : ∀ s t, s.Within t →
      Bare depth t → LagsAt s t (expr source value) (expr other value') Shorter)
    (s t : State) (within : s.Within t) (bare : Bare depth t) :
    LagsAt s t (expr source (.assign span target value))
      (expr other (.assign span' target value')) Shorter := by
  cases target with
  | name place spelling =>
    rw [expr,expr]
    exact (inner s t within bare).bind fun _ _ s' t' first within _ =>
      ((lags_written spelling).bind fun _ _ even => .pure (first.append (.one even))) s' t' within
  | field place object label =>
    rw [expr,expr]
    refine (inner s t within bare).bind fun _ _ s' t' first within _ => ?_
    refine ((compiled_lags source other).1 object s' t' within).bind fun _ _ s' t' second within _ => ?_
    refine (lags_constant rfl s' t' within).bind fun _ _ _ _ _ within _ => .pure within ?_
    exact (first.append second).append (.one rfl)
  | _ =>
    refine .never fun b u => ?_
    rw [expr]
    · exact refuse_ne
    all_goals simp

theorem expr_grows {e e' : Expr} (grows : e.Grows e') (s t : State) (within : s.Within t)
    (bare : Bare depth t) : LagsAt s t (expr source e) (expr other e') Shorter := by
  obtain ⟨each,bodies,-,lists⟩ := compiled_lags source other
  induction grows generalizing s t with
  | same e => exact each e s t within
  | lambda => exact lags_lambda (bodies none _) s t within
  | call => exact lags_call (each _) (lists _) s t within
  | field => exact lags_field (each _) s t within
  | callee inner ih =>
    rw [expr]
    refine (ih s t within bare).before fun a b mid shorter run c u tail => ?_
    obtain ⟨values,last,listed,finished⟩ := bind_ok tail
    cases finished
    have still := (steady_expr other _).bare bare run
    exact ⟨(steady_exprs other _).within still listed,(shorter.more _).more _⟩
  | object inner ih =>
    rw [expr]
    refine (ih s t within bare).before fun a b mid shorter run c u tail => ?_
    obtain ⟨n,last,named,finished⟩ := bind_ok tail
    cases finished
    have still := (steady_expr other _).bare bare run
    exact ⟨(steady_name other _ _).within still named,shorter.more _⟩
  | @left e lhs rhs span op inner ih =>
    cases op with
    | binary op =>
      rw [Parse.Connective.node,expr]
      refine (ih s t within bare).before fun a b mid shorter run c u tail => ?_
      obtain ⟨code,last,right,finished⟩ := bind_ok tail
      cases finished
      have still := (steady_expr other _).bare bare run
      exact ⟨(steady_expr other _).within still right,(shorter.more _).more _⟩
    | logical op =>
      rw [Parse.Connective.node,expr]
      refine (ih s t within bare).before fun a b mid shorter run c u tail => ?_
      obtain ⟨code,next,right,tail⟩ := bind_ok tail
      obtain ⟨rest,last,guard,finished⟩ := bind_ok tail
      cases finished
      have still := (steady_expr other _).bare bare run
      have later := (steady_expr other _).bare still right
      exact ⟨((steady_expr other _).within still right).trans (steady_guarded.within later guard),
        (shorter.more _).more _⟩
  | @right lhs rhs rhs' span span' op inner ih =>
    cases op with
    | binary op =>
      rw [Parse.Connective.node,Parse.Connective.node,expr,expr]
      refine (each lhs s t within).bind fun a b s' t' first within run => ?_
      have still := (steady_expr other _).bare bare run
      exact (ih s' t' within still).bind fun _ _ _ _ second within _ =>
        .pure within ((first.append second).append (.one rfl))
    | logical op =>
      rw [Parse.Connective.node,Parse.Connective.node,expr,expr]
      refine (each lhs s t within).bind fun a b s' t' first within run => ?_
      have still := (steady_expr other _).bare bare run
      refine (ih s' t' within still).bind fun _ _ s' t' second within _ => ?_
      refine (lags_guarded _ (Shorter.append (.one rfl) second) s' t' within).bind fun _ _ _ _ rest
        within _ => ?_
      exact .pure within ((first.append (.one rfl)).append rest)
  | operand inner ih =>
    rw [expr,expr]
    exact (ih s t within bare).bind fun _ _ _ _ first within _ =>
      .pure within (first.append (.one rfl))
  | target _ ih => exact target_grows (fun s t within bare => ih s t within bare) s t within bare
  | value _ ih => exact value_grows (fun s t within bare => ih s t within bare) s t within bare

/-! Every expression has some code. -/

def Emits (x : Compiler Fragment) : Prop :=
  ∀ s f t, x s = .ok f t → 0 < f.size

theorem Emits.skip {x : Compiler α} {k : α → Compiler Fragment} (rest : ∀ a, Emits (k a)) :
    Emits (x >>= k) := by
  intro s f t run
  obtain ⟨a,mid,-,tail⟩ := bind_ok run
  exact rest a mid f t tail

theorem Emits.pure {f : Fragment} {line : Nat} {i : Instr} :
    Emits (Pure.pure (f ++ .one line i)) := by
  intro s g t run
  cases run
  rw [Fragment.size_append]
  exact Nat.add_pos_right _ i.size_pos

theorem Emits.one {line : Nat} {i : Instr} : Emits (Pure.pure (.one line i)) :=
  pure (f := [])

theorem emits_expr (source : Source) (e : Expr) : Emits (expr source e) := by
  cases e with
  | number | string | name => rw [expr]; exact .skip fun _ => .one
  | bool | nil => rw [expr]; exact .one
  | unary => rw [expr]; exact .skip fun _ => .pure
  | binary | call | field => rw [expr]; exact .skip fun _ => .skip fun _ => .pure
  | logical =>
    rw [expr]
    refine .skip fun _ => .skip fun _ => .skip fun rest s f t run => ?_
    cases run
    rw [Fragment.size_append,Fragment.size_append]
    exact Nat.add_pos_left (Nat.add_pos_right _ Nat.one_pos) _
  | lambda =>
    rw [expr]
    exact .skip fun _ => .skip fun _ => .skip fun _ => .skip fun _ => .skip fun _ => .one
  | assign span target value =>
    cases target with
    | name => rw [expr]; exact .skip fun _ => .skip fun _ => .pure
    | field => rw [expr]; exact .skip fun _ => .skip fun _ => .skip fun _ => .pure
    | _ =>
      intro s f t run
      rw [expr] at run
      · cases run
      all_goals simp

/-! Statements. -/

theorem steady_blockCode (source : Source) (line : Nat) (body : List Stmt) :
    Steady (blockCode source none line body) :=
  .of (fun _ => .blockCode ((compiled_judged source).2.1 none body)) fun _ =>
    .blockCode ((compiled_uses source).2.1 none body)

theorem steady_checkDistance {distance : Nat} : Steady (checkDistance source distance span) :=
  .of (fun _ => .checkDistance _) fun _ => .checkDistance _

/-- A block with one statement that grows. -/
theorem blockCode_grows {st st' : Stmt} {line line' : Nat} (within : s.Within t) (bare : Bare depth t)
    (grows : ∀ s t, s.Within t → Bare (depth + 1) t →
      LagsAt s t (stmt source none st) (stmt other none st') Shorter) :
    LagsAt s t (blockCode source none line [st]) (blockCode other none line' [st']) Shorter := by
  refine (lags_openBlock s t within).bind fun _ _ s' t' _ within opened => ?_
  have still : Bare (depth + 1) t' := (Scoped.openBlock t () t' opened bare).1
  rw [stmts,stmts,stmts,stmts]
  have one : LagsAt s' t' (do return (← stmt source none st) ++ (← (pure [] : Compiler Fragment)))
      (do return (← stmt other none st') ++ (← (pure [] : Compiler Fragment))) Shorter :=
    (grows s' t' within still).bind fun _ _ _ _ first within _ =>
      .pure within (first.append (.nil (f := [])))
  exact one.bind fun _ _ s' t' first within _ => (lags_closeBlock s' t' within).bind
    fun _ _ _ _ second within _ => .pure within (first.append second)

theorem ret_refused (bare : Bare depth t) (value : Option Expr) (f : Fragment) (u : State) :
    stmt source none (.ret span value) t ≠ .ok f u := by
  intro run
  rw [stmt] at run
  obtain ⟨_,_,got,run⟩ := bind_ok run
  cases got
  rw [if_pos (by rw [bare.enclosing]; rfl)] at run
  exact nomatch run

theorem stmt_grows {st st' : Stmt} (grows : st.Grows st') (depth : Nat) (s t : State)
    (within : s.Within t) (bare : Bare depth t) :
    LagsAt s t (stmt source none st) (stmt other none st') Shorter := by
  obtain ⟨each,bodies,-,lists⟩ := compiled_lags source other
  induction grows generalizing depth s t with
  | expression inner | print inner =>
    rw [stmt,stmt]
    exact (expr_grows inner s t within bare).bind fun _ _ _ _ first within _ =>
      .pure within (first.append (.one rfl))
  | declare inner =>
    rw [stmt,stmt]
    refine (expr_grows inner s t within bare).bind fun _ _ s' t' first within _ => ?_
    exact ((lags_declare _).bind fun _ _ _ => (lags_define _).bind fun _ _ second =>
      .pure (first.append second)) s' t' within
  | @given span span' name value =>
    cases value with
    | none =>
      rw [stmt,stmt]
      exact ((lags_declare _).bind fun _ _ _ => (lags_define _).bind fun _ _ second =>
        .pure (Shorter.append (.one rfl) second)) s t within
    | some value =>
      rw [stmt,stmt]
      refine .behind fun code mid run => ?_
      have nil : Shorter (.one (source.line span.start) .loadNil) code := emits_expr other value _ _ _ run
      exact ((lags_declare _).bind fun _ _ _ => (lags_define _).bind fun _ _ second =>
        .pure (nil.append second)) s mid (within.trans ((steady_expr other value).within bare run))
  | ret | give => exact .never (ret_refused bare _)
  | block => exact lags_blockStatement (bodies none _) s t within
  | function => exact lags_functionStatement (bodies none _) s t within
  | struct => exact lags_struct s t within
  | @branch span span' condition yes no =>
    cases no with
    | none => exact lags_branch (each _) (bodies none _) s t within
    | some no =>
      rw [stmt_branch,stmt_branchElse]
      refine (each condition s t within).bind fun a b s' t' first within run => ?_
      have still := (steady_expr other _).bare bare run
      refine (lags_blockCode (bodies none _) s' t' within).bind fun f g s' t' shorter within run => ?_
      have later := (steady_blockCode other _ _).bare still run
      refine .behind fun last mid compiled => .behind fun _ u checked => ?_
      have both := ((steady_blockCode other _ _).within later compiled).trans
        (steady_checkDistance.within ((steady_blockCode other _ _).bare later compiled) checked)
      exact (lags_guarded _ (shorter.more _) s' u (within.trans both)).bind fun _ _ _ _ second
        within _ => .pure within ((first.append second).more _)
  | alternative => exact lags_branchElse (each _) (bodies none _) (bodies none _) s t within
  | @elif span span' condition yes nested nested' inner ih =>
    rw [stmt_branchElse,stmt_branchElse]
    refine (each condition s t within).bind fun a b s' t' first within run => ?_
    have still := (steady_expr other _).bare bare run
    refine (lags_blockCode (bodies none _) s' t' within).bind fun f g s' t' shorter within run => ?_
    have later := (steady_blockCode other _ _).bare still run
    refine (blockCode_grows within later fun s t within bare => ih (depth + 1) s t within bare).bind
      fun no no' s' t' last within _ => ?_
    refine (lags_checkDistance last s' t' within).bind fun _ _ s' t' _ within _ => ?_
    have jump (line line' n m : Nat) : Shorter (.one line (.jump n)) (.one line' (.jump m)) := .one rfl
    exact (lags_guarded _ (shorter.append (jump _ _ _ _)) s' t' within).bind
      fun _ _ _ _ second within _ => .pure within ((first.append second).append last)
  | loop => exact lags_loop (fun e _ => each e) (fun depth => bodies (some depth) _) s t within
  | breakLoop => exact lags_breakLoop s t within
  | continueLoop => exact lags_continueLoop s t within

/-! Scripts. -/

theorem bind_run {x : Compiler α} {k : α → Compiler β} {a : α} (run : x s = .ok a t) :
    (x >>= k) s = k a t := by
  change EStateM.bind x k s = _
  rw [EStateM.bind,run]

theorem script_cons {first : Stmt} {rest : List Stmt} (more : rest ≠ []) :
    script source (first :: rest) = (do
      let first ← stmt source none first
      return first ++ (← script source rest)) := by
  rw [script]
  exact fun _ _ _ last => more last

/-- The first statement of a script is compiled if the script is. -/
theorem script_first {first : Stmt} {rest : List Stmt} {f : Fragment}
    (run : script source (first :: rest) t = .ok f u) : ∃ g v, stmt source none first t = .ok g v := by
  generalize whole : first :: rest = program at run
  cases program using script.fun_cases source with
  | case1 => contradiction
  | case2 span value =>
    cases whole
    rw [script] at run
    obtain ⟨code,mid,head,-⟩ := bind_ok run
    rw [stmt,bind_run head]
    exact ⟨_,_,rfl⟩
  | case3 first rest other =>
    cases whole
    rw [script.eq_3 _ _ _ other] at run
    obtain ⟨code,mid,head,-⟩ := bind_ok run
    exact ⟨code,mid,head⟩

theorem script_single {st : Stmt} {f : Fragment} (run : stmt source none st t = .ok f u) :
    ∃ g v, script source [st] t = .ok g v := by
  by_cases last : ∃ span value, st = .expression span value
  · obtain ⟨span,value,rfl⟩ := last
    rw [stmt] at run
    obtain ⟨code,mid,head,-⟩ := bind_ok run
    rw [script,bind_run head]
    exact ⟨_,_,rfl⟩
  · rw [script]
    · rw [bind_run run,script,pure_bind]
      exact ⟨_,_,rfl⟩
    · exact fun span value same _ => last ⟨span,value,same⟩

/-- The last statement of a script. -/
theorem script_last {first first' : Stmt} {more : List Stmt} (grows : first.Grows first')
    (within : s.Within t) (bare : Bare 0 t) {f : Fragment}
    (run : script other (first' :: more) t = .ok f u) : ∃ g v, script source [first] s = .ok g v := by
  obtain ⟨code,mid,compiled⟩ := script_first run
  obtain ⟨_,_,before,-⟩ := stmt_grows grows 0 s t within bare code mid compiled
  exact script_single before

/-- By induction on how the statements grow: all but the last are the same. -/
theorem script_grows {trees trees' : List Stmt} (grow : Stmt.AllGrow trees trees') (within : s.Within t)
    (bare : Bare 0 t) {f : Fragment} (run : script other trees' t = .ok f u) :
    ∃ g v, script source trees s = .ok g v := by
  induction grow generalizing s t u f with
  | nil => exact ⟨_,_,rfl⟩
  | last inner => exact script_last inner within bare run
  | @cons first rest rest' later ih =>
    cases rest with
    | nil => exact script_last (.refl first) within bare run
    | cons second rest =>
      have more : rest' ≠ [] := by
        rintro rfl
        cases later
      rw [script_cons more] at run
      obtain ⟨code,mid,head,tail⟩ := bind_ok run
      obtain ⟨others,_,tail,-⟩ := bind_ok tail
      obtain ⟨_,s',before,-,within⟩ := (compiled_lags source other).2.2.1 none first s t within code mid
        head
      have still : Bare 0 mid := by
        have after := ((compiled_uses other).2.2.1 none first _ t code mid head bare).1
        have same : first.after [List.replicate 0 []] = [List.replicate 0 []] := by
          cases first <;> rfl
        rwa [same] at after
      obtain ⟨_,_,after⟩ := ih within still tail
      rw [script_cons (List.cons_ne_nil second rest),bind_run before,bind_run after]
      exact ⟨_,_,rfl⟩

theorem bare_initial : Bare 0 State.initial :=
  lexical_initial

/-- What is compiled when a script has grown was compiled before. -/
theorem tree_grows {trees trees' : List Stmt} {chunk : Chunk} (source : Source)
    (grow : Stmt.AllGrow trees trees') (accepted : (tree other trees').outcome = .ok chunk) :
    ∃ c, (tree source trees).outcome = .ok c := by
  obtain ⟨f,t,run,-⟩ := tree_eq_ok.mp accepted
  obtain ⟨g,u,before⟩ : ∃ g u, script source trees .initial = .ok g u :=
    script_grows grow bare_initial.refl bare_initial run
  exact ⟨_,tree_eq_ok.mpr ⟨g,u,before,rfl⟩⟩

end ScriptMachine.Compile
