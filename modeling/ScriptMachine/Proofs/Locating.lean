import Mathlib
import ScriptMachine.Proofs.Emitting
import ScriptMachine.Proofs.Nodes

/-! Where the compiler refuses a tree: at the range of one of its nodes, with the position at which that
starts, and for a reason that is neither lexical nor of the grammar. -/
namespace ScriptMachine

/-- A refusal by the compiler at such a range. -/
structure Diagnostic.Located (source : Source) (good : Span → Prop) (d : Diagnostic) : Prop where
  span : good d.span
  position : d.position = source.position d.span.start
  category : d.category = .semantic ∨ d.category = .duplicate

namespace Compile

/-- Something was found wrong at such a range and was entered into the journal, or nothing was. -/
inductive Concludes {α : Type} (source : Source) (good : Span → Prop) (s : State) :
    EStateM.Result Diagnostic State α → Prop
  | onward {a : α} {t : State} (same : t.journal = s.journal) : Concludes source good s (.ok a t)
  | refused {d : Diagnostic} {t : State} (located : d.Located source good)
      (noted : t.journal = s.journal.note .compiler d) : Concludes source good s (.error d t)

/-- What a part of the compiler refuses, it refuses at such a range. -/
def Locates {α : Type} (source : Source) (good : Span → Prop) (x : Compiler α) : Prop :=
  ∀ s, Concludes source good s (x s)

variable {source : Source} {good : Span → Prop} {span : Span} {line : Nat} {α β : Type}
  {x : Compiler α} {k : α → Compiler β}

theorem Concludes.after {s t : State} {r : EStateM.Result Diagnostic State α}
    (same : t.journal = s.journal) (concludes : Concludes source good t r) :
    Concludes source good s r := by
  cases concludes with
  | onward still => exact .onward (still.trans same)
  | refused located noted => exact .refused located (by rw [noted,same])

theorem Locates.bind (first : Locates source good x) (rest : ∀ a, Locates source good (k a)) :
    Locates source good (x >>= k) := by
  intro s
  change Concludes source good s (EStateM.bind x k s)
  have concludes := first s
  rw [EStateM.bind]
  generalize x s = r at concludes
  cases concludes with
  | onward same => exact (rest _ _).after same
  | refused located noted => exact .refused located noted

theorem Locates.pure (a : α) : Locates source good (Pure.pure a : Compiler α) :=
  fun _ => .onward rfl

theorem Locates.get {k : State → Compiler β} (rest : ∀ s, Concludes source good s (k s s)) :
    Locates source good (MonadState.get >>= k) :=
  fun s => rest s

theorem Locates.modify {change : State → State} (same : ∀ s, (change s).journal = s.journal) :
    Locates source good (modifyGet fun s => ((),change s) : Compiler Unit) :=
  fun s => .onward (same s)

/-- The state is replaced by one with the same journal. -/
theorem Concludes.set {k : Unit → Compiler β} {s t : State} (same : t.journal = s.journal)
    (rest : Locates source good (k ())) :
    Concludes source good s ((MonadStateOf.set t >>= k) s) :=
  (rest t).after same

theorem Locates.ite {c : Prop} [Decidable c] {yes no : Compiler α} (first : Locates source good yes)
    (second : Locates source good no) : Locates source good (if c then yes else no) := by
  split
  · exact first
  · exact second

section

variable (here : good span)

include here

theorem Locates.refuse {cause : Diagnostic.Cause}
    (kind : cause.category = .semantic ∨ cause.category = .duplicate := by
      simp [Diagnostic.Cause.category]) : Locates source good (Compile.refuse source cause span : Compiler α) :=
  fun _ => .refused ⟨here,rfl,kind⟩ rfl

/-- Nothing is done behind a refusal. -/
theorem Locates.refuseBind {cause : Diagnostic.Cause} {k : α → Compiler β}
    (kind : cause.category = .semantic ∨ cause.category = .duplicate := by
      simp [Diagnostic.Cause.category]) :
    Locates source good (Compile.refuse source cause span >>= k) :=
  fun _ => .refused ⟨here,rfl,kind⟩ rfl

theorem Locates.constant (c : Constant Chunk) :
    Locates source good (Compile.constant source c span) := by
  intro s
  rw [constant_run]
  split
  · exact .onward rfl
  · split
    · exact .onward rfl
    · exact .refused ⟨here,rfl,.inl rfl⟩ rfl

theorem Locates.declare (name : Bytes) : Locates source good (Compile.declare source name span) := by
  refine .get fun s => ?_
  cases s.function.blocks <;> dsimp only <;> split
  · exact .refused ⟨here,rfl,.inr rfl⟩ rfl
  · exact .onward rfl
  · exact .refused ⟨here,rfl,.inr rfl⟩ rfl
  · split
    · exact .onward rfl
    · exact .refused ⟨here,rfl,.inl rfl⟩ rfl

theorem Locates.define (name : Bytes) :
    Locates source good (Compile.define source line name span) := by
  refine .get fun s => ?_
  split
  · exact Locates.bind (.constant here _) (fun _ => .pure _) s
  · exact .onward rfl

theorem Locates.variableInstr {onLocal onCapture onGlobal : Nat → Instr} (name : Bytes) :
    Locates source good (Compile.variableInstr source onLocal onCapture onGlobal name span) := by
  refine .get fun s => ?_
  cases s.function.slot? name with
  | some slot => exact .onward rfl
  | none =>
    cases resolveCapture name s.function s.enclosing with
    | captured => exact .onward rfl
    | full => exact .refused ⟨here,rfl,.inl rfl⟩ rfl
    | absent => exact Locates.bind (.constant here _) (fun _ => .pure _) s

theorem Locates.declareAll (names : List Bytes) :
    Locates source good (Compile.declareAll source span names) := by
  induction names with
  | nil => exact .pure _
  | cons first rest ih => exact .bind (.declare here first) fun _ => ih

theorem Locates.beginFunction (parameters : List Bytes) :
    Locates source good (Compile.beginFunction source parameters span) :=
  .bind (.modify fun _ => rfl) fun _ => .declareAll here parameters

theorem Locates.endFunction (name : Bytes) (count : Nat) (body : Fragment) :
    Locates source good (Compile.endFunction source line name count span body) :=
  .get fun _ => .set rfl (.bind (.constant here _) fun _ => .pure _)

theorem Locates.checkDistance (distance : Nat) :
    Locates source good (Compile.checkDistance source distance span) :=
  .ite (.pure _) (.refuse here)

theorem Locates.guarded (jumpOn : Bool) (code : Fragment) :
    Locates source good (Compile.guarded source line jumpOn code span) :=
  .bind (.checkDistance here _) fun _ => .pure _

theorem Locates.closeLoop (condition : Option Fragment) (body : Fragment) :
    Locates source good (Compile.closeLoop source line condition body span) :=
  .bind (.checkDistance here _) fun _ => .pure _

theorem Locates.fieldConstants (seen names : List Bytes) :
    Locates source good (Compile.fieldConstants source span seen names) := by
  induction names generalizing seen with
  | nil => exact .pure _
  | cons name rest ih =>
    have others : Locates source good (do
        let first ← Compile.constant source (.string name) span
        return first :: (← Compile.fieldConstants source span (name :: seen) rest)) :=
      .bind (.constant here _) fun _ => .bind (ih _) fun _ => .pure _
    exact .ite (.refuseBind here) others

end

theorem Locates.openBlock : Locates source good Compile.openBlock :=
  .modify fun _ => rfl

theorem Locates.closeBlock : Locates source good (Compile.closeBlock line) :=
  .get fun _ => .onward rfl

theorem Locates.unwind (depth : Nat) : Locates source good (Compile.unwind line depth) :=
  .get fun _ => .onward rfl

theorem Locates.blockCode {loop : Option Nat} {body : List Stmt}
    (inner : Locates source good (stmts source loop body)) :
    Locates source good (Compile.blockCode source loop line body) :=
  .bind .openBlock fun _ => .bind inner fun _ => .bind .closeBlock fun _ => .pure _

theorem Locates.closureCode {name : Bytes} {parameters : List Bytes} {body : List Stmt}
    (here : good span) (inner : Locates source good (stmts source none body)) :
    Locates source good (Compile.closureCode source line name parameters span body) :=
  .bind (.beginFunction here _) fun _ => .bind inner fun _ => .endFunction here _ _ _

/-- By induction over the tree, each kind of expression and statement in turn. -/
theorem compiled_located (source : Source) (good : Span → Prop) :
    (∀ e, e.Ranged good → Locates source good (expr source e)) ∧
    (∀ loop sts, Stmt.AllRanged good sts → Locates source good (stmts source loop sts)) ∧
    (∀ loop st, st.Ranged good → Locates source good (stmt source loop st)) ∧
    ∀ es, Expr.AllRanged good es → Locates source good (exprs source es) := by
  refine expr.mutual_induct source (fun e => e.Ranged good → Locates source good (expr source e))
    (fun loop sts => Stmt.AllRanged good sts → Locates source good (stmts source loop sts))
    (fun loop st => st.Ranged good → Locates source good (stmt source loop st))
    (fun es => Expr.AllRanged good es → Locates source good (exprs source es))
    ?number ?string ?bool ?nil ?binary ?logical ?unary ?name ?call ?assignName
    ?assignField ?assignOther ?field ?lambda ?expression ?print ?declareNil ?declare ?block
    ?function ?struct ?ret ?branch ?branchElse ?loop ?breakLoop ?breakOutside ?continueLoop
    ?continueOutside ?noExprs ?exprs ?noStmts ?stmts
  case number | string =>
    intro span value here
    rw [expr]
    exact .bind (.constant here _) fun _ => .pure _
  case bool =>
    intro span value here
    rw [expr]
    exact .pure _
  case nil =>
    intro span here
    rw [expr]
    exact .pure _
  case binary =>
    rintro span op lhs rhs left right ⟨here,first,second⟩
    rw [expr]
    exact .bind (left first) fun _ => .bind (right second) fun _ => .pure _
  case logical =>
    rintro span op lhs rhs left right ⟨here,first,second⟩
    rw [expr]
    exact .bind (left first) fun _ => .bind (right second) fun _ => .bind (.guarded here _ _) fun _ =>
      .pure _
  case unary =>
    rintro span op operand inner ⟨here,ranged⟩
    rw [expr]
    exact .bind (inner ranged) fun _ => .pure _
  case name =>
    intro span spelling here
    rw [expr]
    exact .bind (.variableInstr here _) fun _ => .pure _
  case call =>
    rintro span callee arguments function values ⟨here,first,second⟩
    rw [expr]
    exact .bind (function first) fun _ => .bind (values second) fun _ => .pure _
  case assignName =>
    rintro span inner spelling value given ⟨here,-,ranged⟩
    rw [expr]
    exact .bind (given ranged) fun _ => .bind (.variableInstr here _) fun _ => .pure _
  case assignField =>
    rintro span inner object label value given target ⟨here,⟨-,first⟩,second⟩
    rw [expr]
    exact .bind (given second) fun _ => .bind (target first) fun _ => .bind (.constant here _) fun _ =>
      .pure _
  case assignOther =>
    rintro span target value notName notField ⟨-,ranged,-⟩
    rw [expr]
    · exact .refuse ranged.span
    · exact notName
    · exact notField
  case field =>
    rintro span object label target ⟨here,ranged⟩
    rw [expr]
    exact .bind (target ranged) fun _ => .bind (.constant here _) fun _ => .pure _
  case lambda =>
    rintro span parameters body inner ⟨here,ranged⟩
    rw [expr_lambda]
    exact .closureCode here (inner ranged)
  case noExprs =>
    intro _
    rw [exprs]
    exact .pure _
  case exprs =>
    rintro first rest head tail ⟨one,others⟩
    rw [exprs]
    exact .bind (head one) fun _ => .bind (tail others) fun _ => .pure _
  case noStmts =>
    intro loop _
    rw [stmts]
    exact .pure _
  case stmts =>
    rintro loop first rest head tail ⟨one,others⟩
    rw [stmts]
    exact .bind (head one) fun _ => .bind (tail others) fun _ => .pure _
  case expression | print =>
    rintro loop span value inner ⟨here,ranged⟩
    rw [stmt]
    exact .bind (inner ranged) fun _ => .pure _
  case declareNil =>
    intro loop span name here
    rw [stmt]
    exact .bind (.declare here _) fun _ => .bind (.define here _) fun _ => .pure _
  case declare =>
    rintro loop span name value inner ⟨here,ranged⟩
    rw [stmt]
    exact .bind (inner ranged) fun _ => .bind (.declare here _) fun _ => .bind (.define here _) fun _ =>
      .pure _
  case block =>
    rintro loop span body inner ⟨here,ranged⟩
    rw [stmt_block]
    exact .blockCode (inner ranged)
  case function =>
    rintro loop span name parameters body inner ⟨here,ranged⟩
    rw [stmt_function]
    exact .bind (.declare here _) fun _ => .bind (.closureCode here (inner ranged)) fun _ =>
      .bind (.define here _) fun _ => .pure _
  case struct =>
    intro loop span name fields here
    rw [stmt]
    exact .bind (.fieldConstants here _ _) fun _ => .bind (.constant here _) fun _ =>
      .bind (.declare here _) fun _ => .bind (.define here _) fun _ => .pure _
  case breakLoop | continueLoop =>
    intro span depth here
    rw [stmt]
    exact .bind (.unwind _) fun _ => .pure _
  case breakOutside | continueOutside =>
    intro span here
    rw [stmt]
    exact .refuse here
  case ret =>
    intro loop span value inner ranged
    rw [stmt]
    cases value with
    | none => exact .get fun s => Locates.ite (.refuseBind ranged) (.pure _) s
    | some value =>
      have given : Locates source good (do
          return (← expr source value) ++ .one (source.line span.start) .ret) :=
        .bind (inner ranged.2) fun _ => .pure _
      exact .get fun s => Locates.ite (.refuseBind ranged.1) given s
  case branch =>
    rintro loop span condition yes test inner ⟨here,first,second⟩
    rw [stmt_branch]
    exact .bind (test first) fun _ => .bind (.blockCode (inner second)) fun _ =>
      .bind (.guarded here _ _) fun _ => .pure _
  case branchElse =>
    rintro loop span condition yes no test inner other ⟨here,first,second,third⟩
    rw [stmt_branchElse]
    exact .bind (test first) fun _ => .bind (.blockCode (inner second)) fun _ =>
      .bind (.blockCode (other third)) fun _ => .bind (.checkDistance here _) fun _ =>
        .bind (.guarded here _ _) fun _ => .pure _
  case loop =>
    intro loop span condition body inner test ranged
    cases condition with
    | none =>
      rw [stmt_loop]
      exact .get fun s => Locates.bind (.blockCode (inner _ ranged.2)) (fun _ => .closeLoop ranged.1 _ _) s
    | some condition =>
      rw [stmt_while]
      exact .get fun s => Locates.bind (test ranged.2.1) (fun _ =>
        .bind (.blockCode (inner _ ranged.2.2)) fun _ => .closeLoop ranged.1 _ _) s

/-- A script. -/
theorem script_located (source : Source) {good : Span → Prop} {program : List Stmt}
    (ranged : Stmt.AllRanged good program) : Locates source good (script source program) := by
  obtain ⟨exprs,-,stmts,-⟩ := compiled_located source good
  induction program using script.induct source with
  | case1 => exact .pure _
  | case2 span value =>
    rw [script]
    exact .bind (exprs value ranged.1.2) fun _ => .pure _
  | case3 first rest other ih =>
    rw [script.eq_3 _ _ _ other]
    exact .bind (stmts none first ranged.1) fun _ => .bind (ih ranged.2) fun _ => .pure _

/-- A script is compiled and nothing is told, or it is refused and that is told. -/
theorem script_tells (source : Source) (program : List Stmt) :
    (∃ code t, script source program .initial = .ok code t ∧ t.journal = .aloud) ∨
      ∃ d t, script source program .initial = .error d t ∧ t.journal = ⟨true,some d,[⟨d.origin,d⟩]⟩ := by
  have concludes := script_located source (ranged_anywhere.2.1 program) State.initial
  generalize script source program .initial = r at concludes
  cases concludes with
  | onward same => exact .inl ⟨_,_,rfl,same⟩
  | refused located noted =>
    refine .inr ⟨_,_,rfl,?_⟩
    rw [noted,Diagnostic.origin]
    rcases located.category with kind | kind <;> rw [kind] <;> rfl

/-- A tree becomes a chunk when the code of all of it has been emitted. -/
theorem tree_eq_ok {program : List Stmt} {chunk : Chunk} :
    (tree source program).outcome = .ok chunk ↔
      ∃ code t, script source program .initial = .ok code t ∧
        chunk = ⟨scriptName,0,0,code.code,code.lines,t.function.constants⟩ := by
  rcases script_tells source program with ⟨code,t,run,journal⟩ | ⟨d,t,run,journal⟩ <;>
    simp [tree,EStateM.run,run,journal,Journal.verdict,Journal.aloud,eq_comm]

theorem tree_eq_error {program : List Stmt} {d : Diagnostic} :
    (tree source program).outcome = .error d ↔ ∃ t, script source program .initial = .error d t := by
  rcases script_tells source program with ⟨code,t,run,journal⟩ | ⟨d,t,run,journal⟩ <;>
    simp [tree,EStateM.run,run,journal,Journal.verdict,Journal.aloud]

/-- What is told of a tree. -/
theorem tree_tells (source : Source) (program : List Stmt) :
    (∃ chunk, (tree source program).outcome = .ok chunk ∧ (tree source program).told = []) ∨
      ∃ d, (tree source program).outcome = .error d ∧ (tree source program).told = [⟨d.origin,d⟩] := by
  rcases script_tells source program with ⟨code,t,run,journal⟩ | ⟨d,t,run,journal⟩ <;>
    simp [tree,EStateM.run,run,journal,Journal.verdict,Journal.aloud]

end Compile

namespace Source

variable {source : Source}

/-- Nothing was refused by the parser: it has told nothing. -/
theorem parse_eq_ok {program : List Stmt} : source.parse = .ok program ↔
    ∃ account, Parse.read .start source (Token.tokens source) = (program,account) ∧
      account.parser.fault = none := by
  rw [parse,Parse.program]
  rcases Parse.read .start source (Token.tokens source) with ⟨tree,account⟩
  cases fault : account.parser.fault <;> simp [Journal.verdict,fault]

theorem parse_eq_error {d : Diagnostic} : source.parse = .error d ↔
    (Parse.read .start source (Token.tokens source)).2.parser.fault = some d := by
  rw [parse,Parse.program]
  rcases Parse.read .start source (Token.tokens source) with ⟨tree,account⟩
  cases fault : account.parser.fault <;> simp [Journal.verdict,fault]

/-- The scanner gives the parser all tokens of the script. -/
theorem compileVerbose_eq (source : Source) : source.compileVerbose =
    let (program,account) := Parse.read .start source (Token.tokens source)
    match account.parser.fault with
    | some d => ⟨.error d,[],account.told⟩
    | none =>
      let compiled := Compile.tree source program
      { compiled with told := account.told ++ compiled.told } :=
  rfl

theorem compile_parseError {d : Diagnostic} (refused : source.parse = .error d) :
    source.compile = .error d := by
  rw [compile,compileVerbose_eq]
  dsimp only
  rw [parse_eq_error.mp refused]

theorem compile_parsed {trees : List Stmt} (parsed : source.parse = .ok trees) :
    source.compile = (Compile.tree source trees).outcome := by
  obtain ⟨account,read,none⟩ := parse_eq_ok.mp parsed
  rw [compile,compileVerbose_eq,read]
  simp only [none]

theorem compile_eq_ok {chunk : Chunk} : source.compile = .ok chunk ↔
    ∃ program, source.parse = .ok program ∧ (Compile.tree source program).outcome = .ok chunk := by
  cases parsed : source.parse with
  | ok program => simp [compile_parsed parsed]
  | error d => simp [compile_parseError parsed]

theorem finished_compile {program : List Stmt} {code : Compile.Fragment} {t : Compile.State}
    (parsed : source.parse = .ok program) (run : Compile.script source program .initial = .ok code t) :
    source.compileVerbose.finished = t.finished := by
  obtain ⟨account,read,none⟩ := parse_eq_ok.mp parsed
  rw [compileVerbose_eq,read]
  simp only [none,Compile.tree,EStateM.run,run]

end Source

end ScriptMachine
