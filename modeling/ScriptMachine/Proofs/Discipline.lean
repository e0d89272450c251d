import Mathlib
import ScriptMachine.Proofs.Finishing

/-! The discipline of the stack. Each instruction of compiled code has a height of its own, whichever way
one gets there, and between statements the stack holds the locals and nothing else. -/
namespace ScriptMachine

namespace Compile

variable {source : Source} {span : Span} {line : Nat} {s t : State}

/-- By induction over the tree, each kind of expression and statement in turn. -/
theorem compiled_lists (source : Source) :
    (∀ e, Lists (Assembles source) (Expr.functions e) (expr source e)) ∧
    (∀ loop sts, Lists (Assembles source) (Stmt.functionsIn sts) (stmts source loop sts)) ∧
    (∀ loop st, Lists (Assembles source) (Stmt.functions st) (stmt source loop st)) ∧
    ∀ es, Lists (Assembles source) (Expr.functionsOf es) (exprs source es) := by
  refine expr.mutual_induct source (fun e => Lists (Assembles source) (Expr.functions e) (expr source e))
    (fun loop sts => Lists (Assembles source) (Stmt.functionsIn sts) (stmts source loop sts))
    (fun loop st => Lists (Assembles source) (Stmt.functions st) (stmt source loop st))
    (fun es => Lists (Assembles source) (Expr.functionsOf es) (exprs source es))
    ?number ?string ?bool ?nil ?binary ?logical ?unary ?name ?call ?assignName
    ?assignField ?assignOther ?field ?lambda ?expression ?print ?declareNil ?declare ?block
    ?function ?struct ?ret ?branch ?branchElse ?loop ?breakLoop ?breakOutside ?continueLoop
    ?continueOutside ?noExprs ?exprs ?noStmts ?stmts
  case number =>
    intro span value
    rw [expr,Expr.functions]
    exact (Lists.constant (by simp)).skip fun n => .pure _
  case string =>
    intro span text
    rw [expr,Expr.functions]
    exact Lists.name.skip fun n => .pure _
  case bool =>
    intro span value
    rw [expr,Expr.functions]
    exact .pure _
  case nil =>
    intro span
    rw [expr,Expr.functions]
    exact .pure _
  case binary =>
    intro span op lhs rhs left right
    rw [expr,Expr.functions]
    exact left.bind fun a => right.close fun b => .pure _
  case logical =>
    intro span op lhs rhs left right
    rw [expr,Expr.functions]
    exact left.bind fun a => right.close fun b => Lists.guarded.skip fun c => .pure _
  case unary =>
    intro span op operand inner
    rw [expr,Expr.functions]
    exact inner.close fun a => .pure _
  case name =>
    intro span spelling
    rw [expr,Expr.functions]
    exact Lists.variableInstr.skip fun i => .pure _
  case call =>
    intro span callee arguments function values
    rw [expr,Expr.functions]
    exact function.bind fun a => values.close fun b => .pure _
  case assignName =>
    intro span inner spelling value given
    rw [expr,Expr.functions]
    · exact given.close fun a => Lists.variableInstr.skip fun i => .pure _
    · simp
  case assignField =>
    intro span inner object label value given target
    rw [expr,Expr.functions]
    exact given.bind fun a => target.close fun b => Lists.name.skip fun n => .pure _
  case assignOther =>
    intro span target value notName notField
    rw [expr]
    · exact .refuse _ _
    · exact notName
    · exact notField
  case field =>
    intro span object label target
    rw [expr,Expr.functions]
    exact target.close fun a => Lists.name.skip fun n => .pure _
  case lambda =>
    intro span parameters body inner
    rw [expr_lambda,Expr.functions]
    exact .closureCode inner
  case expression | print =>
    intro loop span value inner
    rw [stmt,Stmt.functions]
    exact inner.close fun a => .pure _
  case declareNil =>
    intro loop span name
    rw [stmt,Stmt.functions]
    exact Lists.declare.skip fun _ => Lists.define.skip fun a => .pure _
  case declare =>
    intro loop span name value inner
    rw [stmt,Stmt.functions]
    exact inner.close fun a => Lists.declare.skip fun _ => Lists.define.skip fun b => .pure _
  case block =>
    intro loop span body inner
    rw [stmt_block,Stmt.functions]
    exact .blockCode inner
  case function =>
    intro loop span name parameters body inner
    rw [stmt_function,Stmt.functions]
    exact Lists.declare.skip fun _ => (Lists.closureCode inner).close fun closure =>
      Lists.define.skip fun rest => .pure _
  case struct =>
    intro loop span name fields
    rw [stmt,Stmt.functions]
    exact (Lists.fieldConstants _ _).skip fun labels => Lists.name.skip fun title =>
      Lists.declare.skip fun _ => Lists.define.skip fun a => .pure _
  case ret =>
    intro loop span value inner
    rw [stmt]
    refine .get fun s => .ite ?_ ?_
    · intro s a t run
      cases run
    · cases value with
      | none =>
        rw [Stmt.functions]
        exact .pure _
      | some value =>
        rw [Stmt.functions]
        exact inner.close fun a => .pure _
  case branch =>
    intro loop span condition yes test inner
    rw [stmt_branch,Stmt.functions]
    exact test.bind fun a => (Lists.blockCode inner).close fun b => Lists.guarded.skip fun c => .pure _
  case branchElse =>
    intro loop span condition yes no test inner other
    rw [stmt_branchElse,Stmt.functions,List.append_assoc]
    exact test.bind fun a => (Lists.blockCode inner).bind fun b => (Lists.blockCode other).close fun c =>
      (Lists.checkDistance _).skip fun _ => Lists.guarded.skip fun d => .pure _
  case loop =>
    intro loop span condition body inner test
    cases condition with
    | none =>
      rw [stmt_loop,Stmt.functions]
      exact Lists.blockDepth.skip fun depth => (Lists.blockCode (inner depth)).close fun a => .closeLoop
    | some condition =>
      rw [stmt_while,Stmt.functions]
      exact Lists.blockDepth.skip fun depth => test.bind fun a =>
        (Lists.blockCode (inner depth)).close fun b => .closeLoop
  case breakLoop | continueLoop =>
    intro span depth
    rw [stmt,Stmt.functions]
    exact Lists.unwind.skip fun a => .pure _
  case breakOutside | continueOutside =>
    intro span
    rw [stmt]
    exact .refuse _ _
  case noExprs =>
    rw [exprs,Expr.functionsOf]
    exact .pure _
  case exprs =>
    intro first rest head tail
    rw [exprs,Expr.functionsOf]
    exact head.bind fun a => tail.close fun b => .pure _
  case noStmts =>
    intro loop
    rw [stmts,Stmt.functionsIn]
    exact .pure _
  case stmts =>
    intro loop first rest head tail
    rw [stmts,Stmt.functionsIn]
    exact head.bind fun a => tail.close fun b => .pure _

theorem script_assembles (source : Source) (program : List Stmt) :
    Lists (Assembles source) (Stmt.functionsIn program) (script source program) := by
  obtain ⟨exprs,-,stmts,-⟩ := compiled_lists source
  induction program using script.induct source with
  | case1 =>
    rw [script,Stmt.functionsIn]
    exact .pure _
  | case2 span value =>
    rw [script,Stmt.functionsIn,Stmt.functionsIn,Stmt.functions,List.append_nil]
    exact (exprs value).close fun a => .pure _
  | case3 first rest other ih =>
    rw [script.eq_3 _ _ _ other,Stmt.functionsIn]
    exact (stmts none first).bind fun a => ih.close fun b => .pure _

theorem script_lists (source : Source) (program : List Stmt) :
    Lists (Makes source) (Stmt.functionsIn program) (script source program) :=
  fun s f t run regular =>
    have ⟨kept,finishes⟩ := script_assembles source program s f t run regular
    ⟨kept,finishes.imp fun _ _ => And.left⟩

/-- The seams of a script. If the last statement is an expression, its value stays on the stack, so
there is no seam behind it. -/
inductive ScriptSeam (source : Source) : List Stmt → State → Nat → State → Prop
  | here {sts : List Stmt} {s : State} : ScriptSeam source sts s 0 s
  | first {st : Stmt} {rest : List Stmt} {s u : State} {offset : Nat}
      (inside : Inside source none st s offset u) : ScriptSeam source (st :: rest) s offset u
  | rest {st : Stmt} {rest : List Stmt} {s mid u : State} {f : Fragment} {offset : Nat}
      (goesOn : ∀ span value, st = .expression span value → rest ≠ [])
      (run : stmt source none st s = .ok f mid) (later : ScriptSeam source rest mid offset u) :
      ScriptSeam source (st :: rest) s (f.size + offset) u

def ScriptStitched (source : Source) (sts : List Stmt) : Prop :=
  ∀ s f t, script source sts s = .ok f t → s.Regular → s.function.blocks = [] →
    ∃ front line, f = front ++ .one line .ret ∧
      Fragment.Knotted t.function.constants t.function.captures.length none ⟨0,∅⟩ front ⟨1,∅⟩
        (knotsOf (ScriptSeam source sts s))

/-- A script that is one value. -/
theorem Valued.script {code : Fragment} {sts : List Stmt} (valued : Valued 1 s t code)
    (outside : s.function.blocks = []) (alone : ∀ offset u, ScriptSeam source sts s offset u →
      offset = 0 ∧ u = s) :
    Fragment.Knotted t.function.constants t.function.captures.length none ⟨0,∅⟩ code ⟨1,∅⟩
      (knotsOf (ScriptSeam source sts s)) := by
  refine (Fragment.Knotted.of_flows (valued.outside outside)).imp ?_
  rintro offset p ⟨u,seam,rfl⟩
  obtain ⟨rfl,rfl⟩ := alone offset u seam
  exact ⟨_,.inl ⟨rfl,rfl⟩,⟨localCount_outside outside,subset_rfl⟩⟩

theorem scriptStitched (source : Source) (sts : List Stmt) : ScriptStitched source sts := by
  obtain ⟨exprs,-,stmts,-⟩ := compiled_flows source
  induction sts using script.induct source with
  | case1 =>
    intro s f t run regular outside
    cases run
    have valued : Valued 1 s s (.one (max source.lineCount 1) .loadNil) :=
      .push (.refl s) regular regular _ (fun _ _ => trivial) (fun _ => trivial) rfl rfl rfl rfl
    refine ⟨_,_,rfl,valued.script outside fun offset u seam => ?_⟩
    cases seam with
    | here => exact ⟨rfl,rfl⟩
  | case2 span value =>
    intro s f t run regular outside
    rw [script] at run
    obtain ⟨a,_,compiled,run⟩ := bind_ok run
    cases run
    refine ⟨a,_,rfl,(exprs value s a t compiled regular).script outside fun offset u seam => ?_⟩
    cases seam with
    | here => exact ⟨rfl,rfl⟩
    | first inside => cases inside
    | rest goesOn => exact absurd rfl (goesOn span value rfl)
  | case3 first rest other ih =>
    intro s f t run regular outside
    rw [script.eq_3 _ _ _ other] at run
    obtain ⟨a,mid,compiled,run⟩ := bind_ok run
    obtain ⟨b,_,more,run⟩ := bind_ok run
    cases run
    have within : Within s.function none := by simp [Within]
    have flowing := stmts none first s a mid compiled regular within
    have still := blocks_outside flowing.grown.function outside
    have grown := (scriptFlows source rest mid b t more flowing.regular still).2.1
    obtain ⟨front,line,rfl,knotted⟩ := ih mid b t more flowing.regular still
    have head := (compiled_stitched source).2 none first s a mid compiled regular within ∅
      (Set.empty_subset _)
    rw [localCount_outside outside,localCount_outside still,cells_outside outside,
      cells_outside still,Set.union_self] at head
    have noLoop : ∀ p : Point, none = some p → ∃ q, (none : Option Point) = some q ∧ p ≤ q := by
      simp
    have early := head.ends.mono grown.function.constants grown.function.captures.length_le noLoop
    refine ⟨a ++ front,line,by simp,(early.append knotted).imp ?_⟩
    rintro offset p ⟨u,seam,rfl⟩
    cases seam with
    | here => exact ⟨_,.inl (.inr (.inl ⟨rfl,rfl⟩)),⟨localCount_outside outside,subset_rfl⟩⟩
    | first inside => exact ⟨_,.inl (.inl ⟨u,inside,rfl⟩),le_rfl⟩
    | rest _ ran later =>
      cases compiled.symm.trans ran
      exact ⟨_,.inr ⟨_,rfl,u,later,rfl⟩,le_rfl⟩

theorem scriptSeam_regular {sts : List Stmt} {offset : Nat} {u : State}
    (seam : ScriptSeam source sts s offset u) (regular : s.Regular) : u.Regular := by
  have within (s : State) : Within s.function none := by simp [Within]
  induction seam with
  | here => exact regular
  | @first st rest s u offset inside =>
    have seam : Seam source none (st :: rest) s offset u := .first inside
    exact seam_regular seam regular (within s)
  | @rest st rest s mid u f offset _ run _ ih =>
    exact ih ((compiled_flows source).2.2.1 none st s f mid run regular (within s)).regular

/-- If all chunks nested in those of a list are in the list, so are those nested deeper. -/
theorem mem_of_within {chunks : List Chunk} {inner outer : Chunk}
    (closed : ∀ chunk ∈ chunks, ∀ nested, .function nested ∈ chunk.constants → nested ∈ chunks)
    (within : inner.Within outer) (member : outer ∈ chunks) : inner ∈ chunks := by
  induction within with
  | self => exact member
  | nested _ known ih => exact ih (closed _ member _ known)

end Compile

open Compile

/-- The script has heights. -/
theorem Source.compile_ruled {source : Source} {program : List Stmt} {chunk : Chunk}
    (parsed : source.parse = .ok program) (compiled : source.compile = .ok chunk) :
    Ruled chunk (ScriptSeam source program .initial) := by
  rw [compile_parsed parsed] at compiled
  obtain ⟨code,t,run,rfl⟩ := tree_eq_ok.mp compiled
  obtain ⟨front,line,rfl,knotted⟩ :=
    scriptStitched source program _ _ _ run regular_initial rfl
  obtain ⟨kept,enclosing,-⟩ := script_lists source program _ _ _ run regular_initial
  have alone : t.enclosing = [] := List.map_eq_nil_iff.mp enclosing
  rw [State.Regular,alone] at kept
  rw [kept.2,List.length_nil] at knotted
  exact ruled_of_knotted line scriptName knotted ⟨le_rfl,by simp,by simp,trivial,fun _ => trivial⟩
    fun offset u seam => scriptSeam_regular seam regular_initial

/-- Every chunk of a compiled script has heights: that of the script itself, and one for each function
of its tree, which together are all there are. Between statements a height is the number of locals. -/
theorem Source.compile_disciplined {source : Source} {program : List Stmt} {chunk : Chunk}
    (parsed : source.parse = .ok program) (compiled : source.compile = .ok chunk) :
    Ruled chunk (ScriptSeam source program .initial) ∧
    List.Forall₂ (Makes source) (Stmt.functionsIn program) source.compileVerbose.finished ∧
    ∀ inner : Chunk, inner.Within chunk →
      inner = chunk ∨ inner ∈ source.compileVerbose.finished := by
  refine ⟨compile_ruled parsed compiled,?_⟩
  rw [compile_parsed parsed] at compiled
  obtain ⟨code,t,run,rfl⟩ := tree_eq_ok.mp compiled
  obtain ⟨-,-,new,finished,made,constants,closed⟩ :=
    script_lists source program _ _ _ run regular_initial
  obtain rfl : t.finished = new := finished
  rw [finished_compile parsed run]
  refine ⟨made,fun inner within => ?_⟩
  cases within with
  | self => exact .inl rfl
  | nested deeper member =>
    rcases constants _ member with impossible | known
    · exact absurd impossible List.not_mem_nil
    · exact .inr (mem_of_within closed deeper known)

/-- A loop that is left from an inner block, in a function that captures a variable of a block. -/
theorem Source.compile_disciplined_nested : ∃ (source : Source) (program : List Stmt) (chunk : Chunk),
    source.parse = .ok program ∧ source.compile = .ok chunk ∧
      (Stmt.functionsIn program).length = 2 ∧ Ruled chunk (ScriptSeam source program .initial) ∧
      List.Forall₂ (Makes source) (Stmt.functionsIn program) source.compileVerbose.finished := by
  let source := Source.ofText (ascii
    "\x7b var a = 1; fun f(x) \x7b while (x) \x7b var y = fun() \x7b return a; \x7d; break; \x7d \x7d f(true); \x7d")
  have written : (source.parse.toOption.any fun program =>
      (Stmt.functionsIn program).length = 2) = true := by decide +kernel
  have computed : source.compile.toOption.isSome = true := by decide +kernel
  obtain ⟨program,read,count⟩ := (Option.any_eq_true _ _).mp written
  obtain ⟨chunk,accepted⟩ := Option.isSome_iff_exists.mp computed
  have parsed := toOption_eq_some.mp read
  have compiled := toOption_eq_some.mp accepted
  obtain ⟨ruled,made,-⟩ := Source.compile_disciplined parsed compiled
  exact ⟨source,program,chunk,parsed,compiled,of_decide_eq_true count,ruled,made⟩

/-- The slot of a function that captures itself is the one in which its closure is about to be. -/
theorem Source.compile_selfCapture : ∃ chunk,
    (Source.ofText (ascii "\x7b fun f() \x7b return f; \x7d \x7d")).compile = .ok chunk ∧
      ¬∃ heights : Nat → Nat, heights 0 = chunk.parameterCount ∧
        ∀ offset n captures, chunk.Boundary offset →
          chunk.instr? offset = some (.closure n captures) →
            ∀ c ∈ captures, c.isLocal = true → c.index < heights offset := by
  have computed : ((Source.ofText (ascii "\x7b fun f() \x7b return f; \x7d \x7d")).compile.toOption.any
      fun chunk => chunk.parameterCount = 0 ∧
        chunk.instr? 0 = some (.closure 0 [⟨0,true⟩])) = true := by decide +kernel
  obtain ⟨chunk,accepted,holds⟩ := (Option.any_eq_true _ _).mp computed
  obtain ⟨parameters,found⟩ := of_decide_eq_true holds
  refine ⟨chunk,toOption_eq_some.mp accepted,?_⟩
  rintro ⟨heights,entry,below⟩
  have inside := below 0 0 _ .start found ⟨0,true⟩ List.mem_cons_self rfl
  rw [entry,parameters] at inside
  exact Nat.lt_irrefl 0 inside

end ScriptMachine
