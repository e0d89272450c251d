import Mathlib
import ScriptMachine.Proofs.Finishing
import ScriptMachine.Proofs.Resolution

/-! Every name of a compiled script is compiled to an instruction that designates what the name refers
to. This is read off the parts of the compiler one by one: each starts with some names in scope, ends
with some, and emits instructions for the names in between. -/
namespace ScriptMachine

/-- What is in scope behind some statements. -/
def Stmt.afterAll (scopes : Scopes) (sts : List Stmt) : Scopes :=
  sts.foldl Stmt.after scopes

namespace Scopes

/-- Declarations only concern the innermost block, which is closed with them. -/
theorem closeBlock_after (scopes : Scopes) (body : List Stmt) :
    (Stmt.afterAll scopes.openBlock body).closeBlock = scopes := by
  cases scopes with
  | nil =>
    have same : Stmt.afterAll ([] : Scopes) body = [] := by
      induction body with
      | nil => rfl
      | cons first rest ih => cases first <;> exact ih
    exact congrArg closeBlock same
  | cons blocks outer =>
    suffices kept : ∀ block, ∃ more, Stmt.afterAll ((block :: blocks) :: outer : Scopes) body =
        (more :: blocks) :: outer by
      obtain ⟨more,same⟩ := kept []
      exact congrArg closeBlock same
    induction body with
    | nil => exact fun block => ⟨block,rfl⟩
    | cons first rest ih =>
      intro block
      cases first
      case declare span name value => exact ih (name :: block)
      case function span name parameters body => exact ih (name :: block)
      case struct span name fields => exact ih (name :: block)
      all_goals exact ih block

end Scopes

namespace Compile

variable {source : Source} {span : Span} {line : Nat} {s t u : State} {α β : Type}
  {scopes mid later : Scopes}

/-- A result may depend on what the captures and constants become in the end. -/
abbrev Prospect (α : Type) := List (List Capture) → List (Constant Chunk) → α → Prop

/-- A part of the compiler starts and ends with these names in scope, and its result is good. -/
def Scoped (scopes later : Scopes) (x : Compiler α) (good : Prospect α) : Prop :=
  ∀ s a t, x s = .ok a t → Lexical scopes s →
    Lexical later t ∧ Grows s t ∧ ∀ captures pool, Final t captures pool → good captures pool a

/-- The code does with names what the tree says. -/
def Uses (uses : List Use) : Prospect Fragment :=
  fun captures pool f => ResolvesAll captures pool uses f.uses

/-- The code uses no names. -/
def Nameless : Prospect Fragment := fun _ _ f => f.uses = []

namespace Uses

variable {uses more : List Use} {use : Use} {captures : List (List Capture)}
  {pool : List (Constant Chunk)} {f g : Fragment} {i : Instr}

theorem nothing (nameless : f.uses = []) : Uses [] captures pool f := by
  rw [Uses,nameless]
  exact .nil

theorem append (first : Uses uses captures pool f) (second : Uses more captures pool g) :
    Uses (uses ++ more) captures pool (f ++ g) := by
  rw [Uses,Fragment.uses_append]
  exact ResolvesAll.append first second

theorem plain (first : Uses uses captures pool f) (nameless : g.uses = []) :
    Uses uses captures pool (f ++ g) := by
  simpa using first.append (.nothing nameless)

theorem behind (nameless : f.uses = []) (second : Uses uses captures pool g) :
    Uses uses captures pool (f ++ g) :=
  (nothing nameless).append second

theorem one (resolves : Resolves captures pool use i) : Uses [use] captures pool (.one line i) := by
  have known : i.isUse = true := by
    cases resolves with
    | read designates => cases designates <;> rfl
    | assign designates => cases designates <;> rfl
    | function => rfl
  rw [Uses,Fragment.uses_one,if_pos known]
  exact .cons resolves .nil

end Uses

theorem Scoped.bind {x : Compiler α} {k : α → Compiler β} {good : Prospect α} {fine : Prospect β}
    (first : Scoped scopes mid x good)
    (rest : ∀ a, Scoped mid later (k a) fun captures pool b =>
      good captures pool a → fine captures pool b) : Scoped scopes later (x >>= k) fine := by
  intro s b t run lexical
  obtain ⟨a,middle,head,tail⟩ := bind_ok run
  obtain ⟨between,grows,holds⟩ := first s a middle head lexical
  obtain ⟨last,more,follows⟩ := rest a middle b t tail between
  exact ⟨last,grows.trans more,fun captures pool final =>
    follows captures pool final (holds captures pool (final.before more))⟩

/-- First something whose result does not matter. -/
theorem Scoped.skip {x : Compiler α} {k : α → Compiler β} {good : Prospect α} {fine : Prospect β}
    (first : Scoped scopes mid x good) (rest : ∀ a, Scoped mid later (k a) fine) :
    Scoped scopes later (x >>= k) fine :=
  first.bind fun a s b t run lexical =>
    have ⟨last,grows,holds⟩ := rest a s b t run lexical
    ⟨last,grows,fun captures pool final _ => holds captures pool final⟩

theorem Scoped.imp {x : Compiler α} {good fine : Prospect α} (first : Scoped scopes later x good)
    (holds : ∀ captures pool a, good captures pool a → fine captures pool a) :
    Scoped scopes later x fine :=
  fun s a t run lexical =>
    have ⟨last,grows,known⟩ := first s a t run lexical
    ⟨last,grows,fun captures pool final => holds captures pool a (known captures pool final)⟩

theorem Scoped.pure {a : α} {good : Prospect α} (holds : ∀ captures pool, good captures pool a) :
    Scoped scopes scopes (Pure.pure a : Compiler α) good := by
  intro s b t run lexical
  cases run
  exact ⟨lexical,.refl s,fun captures pool _ => holds captures pool⟩

theorem Scoped.refuse {good : Prospect α} (cause : Diagnostic.Cause) (span : Span) :
    Scoped scopes later (Compile.refuse source cause span : Compiler α) good := by
  intro s a t run
  cases run

theorem Scoped.get {k : State → Compiler β} {good : Prospect β}
    (rest : ∀ s, Scoped scopes later (k s) good) :
    Scoped scopes later (MonadState.get >>= k) good := by
  intro s b t run lexical
  obtain ⟨_,_,got,run⟩ := bind_ok run
  cases got
  exact rest s s b t run lexical

theorem Scoped.ite {c : Prop} [Decidable c] {yes no : Compiler α} {good : Prospect α}
    (first : Scoped scopes later yes good) (second : Scoped scopes later no good) :
    Scoped scopes later (if c then yes else no) good := by
  split
  · exact first
  · exact second

/-- Storing a constant captures nothing. -/
theorem captures_constant {c : Constant Chunk} {n : Nat}
    (run : Compile.constant source c span s = .ok n t) :
    t.function.captures = s.function.captures ∧ t.enclosing = s.enclosing := by
  obtain ⟨-,rfl⟩ | ⟨-,-,-,rfl⟩ := constant_ok run
  · exact ⟨rfl,rfl⟩
  · exact ⟨rfl,rfl⟩

theorem Scoped.constant {c : Constant Chunk} (plain : ∀ chunk, c ≠ .function chunk) :
    Scoped scopes scopes (Compile.constant source c span)
      fun _ pool n => ∃ d, pool[n]? = some d ∧ (d = c ∨ sameConstant c d = true) := by
  intro s n t run lexical
  obtain ⟨kept,raises,-,-,d,known,same⟩ :=
    constant_spec run lexical.regular fun chunk is => absurd is (plain chunk)
  obtain ⟨own,around⟩ := captures_constant run
  have chain : t.chain = s.chain := by simp [State.chain,own,around]
  obtain ⟨still,grows⟩ := lexical.raise kept raises (chain ▸ lexical.distinct)
  refine ⟨still,grows,fun captures pool final => ⟨d,?_,same⟩⟩
  obtain ⟨rest,rfl⟩ := final.constants
  rw [List.getElem?_append_left (List.getElem?_eq_some_iff.mp known).1,known]

theorem Scoped.name {text : Bytes} :
    Scoped scopes scopes (Compile.constant source (.string text) span)
      fun _ pool n => pool[n]? = some (.string text) := by
  intro s n t run lexical
  obtain ⟨still,grows,holds⟩ := Scoped.constant (by simp) s n t run lexical
  refine ⟨still,grows,fun captures pool final => ?_⟩
  obtain ⟨d,found,rfl | same⟩ := holds captures pool final
  · exact found
  · cases d with
    | string other =>
      obtain rfl : text = other := by simpa [sameConstant] using same
      exact found
    | number value => simp [sameConstant] at same
    | function chunk => simp [sameConstant] at same

/-- A declared name is in scope. -/
theorem Scoped.declare {name : Bytes} :
    Scoped scopes (scopes.declare name) (Compile.declare source name span) fun _ _ _ => True := by
  intro s a t run lexical
  have kept := (declare_spec run lexical.regular).1
  have names := lexical.names
  obtain ⟨blocks,-,rfl⟩ | ⟨block,outer,blocks,-,-,rfl⟩ := declare_ok run
  · refine ⟨⟨kept,?_,lexical.distinct⟩,⟨chain_refl _,List.prefix_rfl,rfl⟩,fun _ _ _ => trivial⟩
    rw [← names]
    simp [State.scopes,FunctionScope.names,blocks,Scopes.declare]
  · refine ⟨⟨kept,?_,lexical.distinct⟩,⟨chain_refl _,List.prefix_rfl,rfl⟩,fun _ _ _ => trivial⟩
    rw [← names]
    simp [State.scopes,FunctionScope.names,blocks,Scopes.declare]

theorem Scoped.define {name : Bytes} :
    Scoped scopes scopes (Compile.define source line name span) Nameless :=
  .get fun _ => .ite (Scoped.name.skip fun _ => .pure fun _ _ => by simp [Nameless,Instr.isUse])
    (.pure fun _ _ => rfl)

/-- The instruction for a name designates what the name refers to. -/
theorem Scoped.variableInstr {onLocal onCapture onGlobal : Nat → Instr} {name : Bytes} :
    Scoped scopes scopes (Compile.variableInstr source onLocal onCapture onGlobal name span)
      fun captures pool i =>
        Designates captures pool onLocal onCapture onGlobal name (scopes.find name) i := by
  intro s i t run lexical
  have regular := lexical.regular
  have kinds := variableInstr_spec run regular
  have inner := Nested.regular regular
  have names : scopes = s.function.names :: s.enclosing.map (·.names) := lexical.names.symm
  obtain ⟨slot,known,rfl,rfl⟩ | ⟨known,⟨index,function,enclosing,resolved,rfl,rfl⟩ |
    ⟨resolved,n,stored,rfl⟩⟩ := variableInstr_ok run
  · refine ⟨lexical,.refl t,fun captures pool _ => ?_⟩
    rw [names,inner.find_inside known]
    exact .inside slot
  · have unique : ∀ f ∈ s.function :: s.enclosing, f.captures.Nodup :=
      fun f member => lexical.distinct _ (List.mem_map_of_mem member)
    obtain ⟨distinct,v,found,leads⟩ := resolveCapture_leads resolved regular unique
    obtain ⟨still,grows⟩ := lexical.raise kinds.1 kinds.2.1 (List.forall_mem_map.mpr distinct)
    refine ⟨still,grows,fun captures pool final => ?_⟩
    rw [names,inner.find_outside known,found]
    exact .around (follow_grown final.chain leads)
  · obtain ⟨still,grows,holds⟩ := Scoped.name s n t stored lexical
    refine ⟨still,grows,fun captures pool final => ?_⟩
    rw [names,inner.find_outside known,resolveCapture_absent resolved regular]
    exact .outside (holds captures pool final)

theorem Scoped.openBlock :
    Scoped scopes scopes.openBlock Compile.openBlock fun _ _ _ => True := by
  intro s a t run lexical
  cases run
  refine ⟨⟨regular_open lexical.regular,?_,lexical.distinct⟩,⟨chain_refl _,List.prefix_rfl,rfl⟩,
    fun _ _ _ => trivial⟩
  rw [← lexical.names]
  rfl

theorem Scoped.closeBlock :
    Scoped scopes scopes.closeBlock (Compile.closeBlock line) Nameless := by
  intro s a t run lexical
  have kept := regular_closeBlock run lexical.regular
  obtain ⟨rfl,rfl⟩ := closeBlock_ok run
  refine ⟨⟨kept,?_,lexical.distinct⟩,⟨chain_refl _,List.prefix_rfl,rfl⟩,
    fun _ _ _ => Fragment.uses_discard _ _⟩
  rw [← lexical.names]
  simp [State.scopes,FunctionScope.names,Scopes.closeBlock]

/-- A block is left with what was in scope before it. -/
theorem Scoped.leave {body : List Stmt} :
    Scoped (Stmt.afterAll scopes.openBlock body) scopes (Compile.closeBlock line) Nameless := by
  have closed : Scoped (Stmt.afterAll scopes.openBlock body) _ (Compile.closeBlock line) Nameless :=
    .closeBlock
  rwa [Scopes.closeBlock_after] at closed

theorem Scoped.unwind {depth : Nat} :
    Scoped scopes scopes (Compile.unwind line depth) Nameless :=
  .get fun _ => .pure fun _ _ => Fragment.uses_unwind _ _

theorem Scoped.checkDistance (distance : Nat) :
    Scoped scopes scopes (Compile.checkDistance source distance span) fun _ _ _ => True :=
  .ite (.pure fun _ _ => trivial) (.refuse _ _)

theorem Scoped.guarded {jumpOn : Bool} {code : Fragment} :
    Scoped scopes scopes (Compile.guarded source line jumpOn code span)
      fun captures pool f => ∀ uses, Uses uses captures pool code → Uses uses captures pool f :=
  (Scoped.checkDistance _).skip fun _ => .pure fun _ _ _ known => known.behind rfl

theorem Scoped.closeLoop {condition : Option Fragment} {body : Fragment} :
    Scoped scopes scopes (Compile.closeLoop source line condition body span)
      fun captures pool f => ∀ tested uses, Uses tested captures pool (condition.getD []) →
        Uses uses captures pool body → Uses (tested ++ uses) captures pool f := by
  refine (Scoped.checkDistance _).skip fun _ => .pure fun captures pool tested uses check rounds => ?_
  have joined := (check.append rounds).plain (rfl : (Fragment.one line (.jumpBack 0)).uses = [])
  cases condition <;> simpa [Uses,Instr.isUse] using joined

theorem Scoped.fieldConstants (seen names : List Bytes) :
    Scoped scopes scopes (Compile.fieldConstants source span seen names) fun _ _ _ => True := by
  induction names generalizing seen with
  | nil => exact .pure fun _ _ => trivial
  | cons name rest ih =>
    refine .ite ?_ (Scoped.name.skip fun _ => (ih _).skip fun _ => .pure fun _ _ => trivial)
    intro s a t run
    cases run

theorem Scoped.declareAll (names : List Bytes) :
    Scoped scopes (scopes.declareAll names) (Compile.declareAll source span names)
      fun _ _ _ => True := by
  induction names generalizing scopes with
  | nil => exact .pure fun _ _ => trivial
  | cons first rest ih => exact Scoped.declare.skip fun _ => ih

/-- What the captures become of a function that ends, and of the functions around it. -/
theorem Final.inside {captures : List (List Capture)} {pool : List (Constant Chunk)}
    {outer : FunctionScope} {others : List FunctionScope} (final : Final t captures pool)
    (lexical : Lexical scopes s) (enclosing : s.enclosing = outer :: others)
    (chain : t.chain = (outer :: others).map (·.captures))
    (around : t.scopes = (outer :: others).map (·.names)) :
    Final s (s.function.captures :: captures) s.function.constants := by
  have grown := final.chain
  have chained := final.chained
  rw [chain] at grown
  rw [around] at chained
  refine ⟨?_,List.prefix_rfl,?_⟩
  · rw [State.chain,enclosing]
    exact .cons List.prefix_rfl grown
  · rw [State.scopes,enclosing]
    cases grown with
    | @cons _ own _ rest head tail =>
      refine .function (lexical.distinct _ List.mem_cons_self) (fun c member => ?_) chained
      have regular := lexical.regular
      rw [State.Regular,enclosing] at regular
      obtain ⟨-,linked,nested⟩ := regular
      have link := linked c member
      split at link
      next isLocal =>
        rw [if_pos isLocal,outer.length_names]
        exact nested.regular.cells_lt link
      next notLocal =>
        rw [if_neg notLocal]
        exact Nat.lt_of_lt_of_le link head.length_le

/-- A function that has begun has nothing in scope but what is around it. -/
theorem Lexical.enter (lexical : Lexical scopes s) : Lexical ([[]] :: scopes)
    { s with function := ⟨[[]],[],[]⟩, enclosing := s.function :: s.enclosing } := by
  have empty : FunctionScope.Regular ⟨[[]],[],[]⟩ :=
    ⟨rfl,Nat.zero_le _,Nat.zero_le _,by decide,by simp⟩
  refine ⟨⟨empty,by simp [FunctionScope.Linked],lexical.regular⟩,?_,
    List.forall_mem_cons.mpr ⟨List.nodup_nil,lexical.distinct⟩⟩
  rw [← lexical.names]
  rfl

/-- A function as a whole: its closure is the one use of it, and its own code does what its body says. -/
theorem Scoped.closureCode {name : Bytes} {parameters : List Bytes} {body : List Stmt}
    (inner : ∀ scopes, Scoped scopes (Stmt.afterAll scopes body) (stmts source none body)
      (Uses (Stmt.usesIn scopes body))) :
    Scoped scopes scopes (Compile.closureCode source line name parameters span body)
      (Uses [.function scopes (Stmt.usesIn (scopes.enter parameters) body)]) := by
  intro s f t run lexical
  rw [Compile.closureCode] at run
  obtain ⟨_,inside,begun,run⟩ := bind_ok run
  obtain ⟨code,last,compiled,ended⟩ := bind_ok run
  have started := (beginFunction_spec begun lexical.regular).1
  have flowing := (compiled_flows source).2.1 none body inside code last compiled started
    (by simp [Within])
  obtain ⟨kept,raises,-⟩ := function_spec begun flowing ended lexical.regular
  rw [beginFunction] at begun
  obtain ⟨_,_,fresh,begun⟩ := bind_ok begun
  cases fresh
  obtain ⟨entered,declared,-⟩ := Scoped.declareAll parameters _ _ _ begun lexical.enter
  obtain ⟨ending,grown,holds⟩ := inner _ inside code last compiled entered
  have grows := declared.trans grown
  obtain ⟨chunk,made⟩ : ∃ chunk : Chunk, chunk = ⟨name,parameters.length,
      last.function.captures.length,(code ++ .one line .loadNil ++ .one line .ret : Fragment).code,
      (code ++ .one line .loadNil ++ .one line .ret : Fragment).lines,last.function.constants⟩ :=
    ⟨_,rfl⟩
  obtain ⟨behind,-,constants,captured,rfl⟩ := endFunction_finishes ended made
  cases enclosing : last.enclosing with
  | nil =>
    have none := grows.chain.length_eq
    simp [State.chain,enclosing] at none
  | cons outer others =>
    rw [enclosing] at behind constants captured
    have chain : t.chain = (outer :: others).map (·.captures) := by
      rw [State.chain,behind,List.map_cons,captured]
      rfl
    have around : s.scopes = (outer :: others).map (·.names) := by
      rw [← enclosing]
      exact grows.around.symm
    have distinct : ∀ own ∈ t.chain, own.Nodup := by
      rw [chain,← enclosing]
      exact (List.forall_mem_cons.mp ending.distinct).2
    obtain ⟨still,more⟩ := lexical.raise kept raises distinct
    refine ⟨still,more,fun captures pool final => ?_⟩
    have known := final.inside ending enclosing chain (still.names.trans (lexical.names.symm.trans around))
    have chained := known.chained
    have names : last.scopes = last.function.names :: scopes := by
      rw [← lexical.names,around,← enclosing]
      rfl
    rw [names] at chained
    have plain : ∀ item ∈ Fragment.one line .loadNil ++ Fragment.one line .ret,
        ∃ i : Instr, item.step = .instr i ∧ i.Fits := by
      simp [Fragment.one,Instr.Fits]
    have whole : chunk.code = (code ++ (.one line .loadNil ++ .one line .ret) : Fragment).code := by
      rw [made,List.append_assoc]
    obtain ⟨listing,reads,same⟩ := (flowing.flows ∅ (Set.empty_subset _)).reads whole plain
    have stored : pool[outer.constants.length]? = some (.function chunk) := by
      obtain ⟨rest,rfl⟩ := final.constants
      simp [constants]
    have body := holds _ _ known
    have pooled : chunk.constants = last.function.constants := by rw [made]
    rw [← pooled] at body
    refine .one (.function stored (fun k bound => chained.leads bound)
      (fun j first k second => chained.apart first second) reads ?_)
    rw [same]
    simpa [Uses,Instr.isUse,Scopes.enter] using body

theorem Scoped.blockDepth : Scoped scopes scopes Compile.blockDepth fun _ _ _ => True :=
  .get fun _ => .pure fun _ _ => trivial

theorem Scoped.blockCode {loop : Option Nat} {body : List Stmt}
    (inner : ∀ scopes, Scoped scopes (Stmt.afterAll scopes body) (stmts source loop body)
      (Uses (Stmt.usesIn scopes body))) :
    Scoped scopes scopes (Compile.blockCode source loop line body)
      (Uses (Stmt.usesIn scopes.openBlock body)) :=
  Scoped.openBlock.skip fun _ => (inner _).bind fun _ => Scoped.leave.bind fun _ =>
    .pure fun _ _ rest first => first.plain rest

/-- By induction over the tree, each kind of expression and statement in turn. -/
theorem compiled_uses (source : Source) :
    (∀ e scopes, Scoped scopes scopes (expr source e) (Uses (e.uses scopes))) ∧
    (∀ loop sts scopes, Scoped scopes (Stmt.afterAll scopes sts) (stmts source loop sts)
      (Uses (Stmt.usesIn scopes sts))) ∧
    (∀ loop st scopes, Scoped scopes (st.after scopes) (stmt source loop st)
      (Uses (st.uses scopes))) ∧
    ∀ es scopes, Scoped scopes scopes (exprs source es) (Uses (Expr.usesOf scopes es)) := by
  refine expr.mutual_induct source
    (fun e => ∀ scopes, Scoped scopes scopes (expr source e) (Uses (e.uses scopes)))
    (fun loop sts => ∀ scopes, Scoped scopes (Stmt.afterAll scopes sts) (stmts source loop sts)
      (Uses (Stmt.usesIn scopes sts)))
    (fun loop st => ∀ scopes, Scoped scopes (st.after scopes) (stmt source loop st)
      (Uses (st.uses scopes)))
    (fun es => ∀ scopes, Scoped scopes scopes (exprs source es) (Uses (Expr.usesOf scopes es)))
    ?number ?string ?bool ?nil ?binary ?logical ?unary ?name ?call ?assignName
    ?assignField ?assignOther ?field ?lambda ?expression ?print ?declareNil ?declare ?block
    ?function ?struct ?ret ?branch ?branchElse ?loop ?breakLoop ?breakOutside ?continueLoop
    ?continueOutside ?noExprs ?exprs ?noStmts ?stmts
  case number =>
    intro span value scopes
    rw [expr,Expr.uses]
    exact (Scoped.constant (by simp)).skip fun n => .pure fun _ _ => .nothing rfl
  case string =>
    intro span text scopes
    rw [expr,Expr.uses]
    exact Scoped.name.skip fun n => .pure fun _ _ => .nothing rfl
  case bool =>
    intro span value scopes
    rw [expr,Expr.uses]
    exact .pure fun _ _ => .nothing rfl
  case nil =>
    intro span scopes
    rw [expr,Expr.uses]
    exact .pure fun _ _ => .nothing rfl
  case binary =>
    intro span op lhs rhs left right scopes
    rw [expr,Expr.uses]
    exact (left scopes).bind fun a => (right scopes).bind fun b => .pure fun _ _ second first =>
      (first.append second).plain rfl
  case logical =>
    intro span op lhs rhs left right scopes
    rw [expr,Expr.uses]
    exact (left scopes).bind fun a => (right scopes).bind fun b => Scoped.guarded.bind fun c =>
      .pure fun _ _ rest second first => (first.plain rfl).append (rest _ (second.behind rfl))
  case unary =>
    intro span op operand inner scopes
    rw [expr,Expr.uses]
    exact (inner scopes).bind fun a => .pure fun _ _ first => first.plain rfl
  case name =>
    intro span spelling scopes
    rw [expr,Expr.uses]
    exact Scoped.variableInstr.bind fun i => .pure fun _ _ designates => .one (.read designates)
  case call =>
    intro span callee arguments function values scopes
    rw [expr,Expr.uses]
    exact (function scopes).bind fun a => (values scopes).bind fun b =>
      .pure fun _ _ second first => (first.append second).plain rfl
  case assignName =>
    intro span inner spelling value given scopes
    rw [expr,Expr.uses]
    exact (given scopes).bind fun a => Scoped.variableInstr.bind fun i =>
      .pure fun _ _ designates first => first.append (.one (.assign designates))
  case assignField =>
    intro span inner object label value given target scopes
    rw [expr,Expr.uses]
    exact (given scopes).bind fun a => (target scopes).bind fun b => Scoped.name.skip fun n =>
      .pure fun _ _ second first => (first.append second).plain rfl
  case assignOther =>
    intro span target value notName notField scopes
    rw [expr]
    · exact .refuse _ _
    · exact notName
    · exact notField
  case field =>
    intro span object label target scopes
    rw [expr,Expr.uses]
    exact (target scopes).bind fun a => Scoped.name.skip fun n =>
      .pure fun _ _ first => first.plain rfl
  case lambda =>
    intro span parameters body inner scopes
    rw [expr_lambda,Expr.uses]
    exact .closureCode inner
  case expression | print =>
    intro loop span value inner scopes
    rw [stmt,Stmt.uses]
    exact (inner scopes).bind fun a => .pure fun _ _ first => first.plain rfl
  case declareNil =>
    intro loop span name scopes
    rw [stmt,Stmt.uses]
    exact Scoped.declare.skip fun _ => Scoped.define.bind fun a =>
      .pure fun _ _ rest => (Uses.nothing rfl).plain rest
  case declare =>
    intro loop span name value inner scopes
    rw [stmt,Stmt.uses]
    exact (inner scopes).bind fun a => Scoped.declare.skip fun _ => Scoped.define.bind fun b =>
      .pure fun _ _ rest first => first.plain rest
  case block =>
    intro loop span body inner scopes
    rw [stmt_block,Stmt.uses]
    exact .blockCode inner
  case function =>
    intro loop span name parameters body inner scopes
    rw [stmt_function,Stmt.uses]
    exact Scoped.declare.skip fun _ => (Scoped.closureCode inner).bind fun closure =>
      Scoped.define.bind fun rest => .pure fun _ _ last first => first.plain last
  case struct =>
    intro loop span name fields scopes
    rw [stmt,Stmt.uses]
    exact (Scoped.fieldConstants _ _).skip fun labels => Scoped.name.skip fun title =>
      Scoped.declare.skip fun _ => Scoped.define.bind fun a =>
        .pure fun _ _ rest => (Uses.nothing rfl).plain rest
  case ret =>
    intro loop span value inner scopes
    rw [stmt]
    refine .get fun s => .ite ?_ ?_
    · intro s a t run
      cases run
    · cases value with
      | none =>
        rw [Stmt.uses]
        exact .pure fun _ _ => .nothing rfl
      | some value =>
        rw [Stmt.uses]
        exact (inner scopes).bind fun a => .pure fun _ _ first => first.plain rfl
  case branch =>
    intro loop span condition yes test inner scopes
    rw [stmt_branch,Stmt.uses]
    exact (test scopes).bind fun a => (Scoped.blockCode inner).bind fun b =>
      Scoped.guarded.bind fun c => .pure fun _ _ whole body first => first.append (whole _ body)
  case branchElse =>
    intro loop span condition yes no test inner other scopes
    rw [stmt_branchElse,Stmt.uses]
    exact (test scopes).bind fun a => (Scoped.blockCode inner).bind fun b =>
      (Scoped.blockCode other).bind fun c => (Scoped.checkDistance _).skip fun _ =>
        Scoped.guarded.bind fun d => .pure fun _ _ whole second body first =>
          (first.append (whole _ (body.plain rfl))).append second
  case loop =>
    intro loop span condition body inner test scopes
    cases condition with
    | none =>
      rw [stmt_loop,Stmt.uses]
      exact Scoped.blockDepth.skip fun depth => (Scoped.blockCode (inner depth)).bind fun a =>
        Scoped.closeLoop.imp fun _ _ _ whole body => whole [] _ (.nothing rfl) body
    | some condition =>
      rw [stmt_while,Stmt.uses]
      exact Scoped.blockDepth.skip fun depth => (test scopes).bind fun a =>
        (Scoped.blockCode (inner depth)).bind fun b =>
          Scoped.closeLoop.imp fun _ _ _ whole body tested => whole _ _ tested body
  case breakLoop =>
    intro span depth scopes
    rw [stmt,Stmt.uses]
    exact Scoped.unwind.bind fun a => .pure fun _ _ rest =>
      (Uses.nothing rest).plain (Fragment.uses_open _).1
  case continueLoop =>
    intro span depth scopes
    rw [stmt,Stmt.uses]
    exact Scoped.unwind.bind fun a => .pure fun _ _ rest =>
      (Uses.nothing rest).plain (Fragment.uses_open _).2
  case breakOutside | continueOutside =>
    intro span scopes
    rw [stmt]
    exact .refuse _ _
  case noExprs =>
    intro scopes
    rw [exprs,Expr.usesOf]
    exact .pure fun _ _ => .nothing rfl
  case exprs =>
    intro first rest head tail scopes
    rw [exprs,Expr.usesOf]
    exact (head scopes).bind fun a => (tail scopes).bind fun b =>
      .pure fun _ _ others one => one.append others
  case noStmts =>
    intro loop scopes
    rw [stmts,Stmt.usesIn]
    exact .pure fun _ _ => .nothing rfl
  case stmts =>
    intro loop first rest head tail scopes
    rw [stmts,Stmt.usesIn]
    exact (head scopes).bind fun a => (tail _).bind fun b =>
      .pure fun _ _ others one => one.append others

theorem script_uses (source : Source) (program : List Stmt) (scopes : Scopes) :
    Scoped scopes (Stmt.afterAll scopes program) (script source program)
      (Uses (Stmt.usesIn scopes program)) := by
  obtain ⟨exprs,-,stmts,-⟩ := compiled_uses source
  induction program using script.induct source generalizing scopes with
  | case1 =>
    rw [script,Stmt.usesIn]
    exact .pure fun _ _ => .nothing rfl
  | case2 span value =>
    rw [script,Stmt.usesIn,Stmt.usesIn,Stmt.uses,List.append_nil]
    exact (exprs value scopes).bind fun a => .pure fun _ _ one => one.plain rfl
  | case3 first rest other ih =>
    rw [script.eq_3 _ _ _ other,Stmt.usesIn]
    exact (stmts none first scopes).bind fun a => (ih _).bind fun b =>
      .pure fun _ _ others one => one.append others

theorem lexical_initial : Lexical [[]] State.initial :=
  ⟨regular_initial,rfl,by simp [State.chain,State.initial,FunctionScope.empty]⟩

end Compile

open Compile

/-- Every name that is read or assigned, in the script and in the functions nested in it, is compiled to
an instruction that designates the variable the name refers to, or the global of that name. -/
theorem Source.compile_resolves {source : Source} {program : List Stmt} {chunk : Chunk}
    (parsed : source.parse = .ok program) (compiled : source.compile = .ok chunk) :
    ∃ code, chunk.Reads 0 code chunk.code.size ∧
      ResolvesAll [[]] chunk.constants (Stmt.usesIn [[]] program) (code.filter Instr.isUse) := by
  rw [compile_parsed parsed] at compiled
  obtain ⟨f,t,run,made⟩ := tree_eq_ok.mp compiled
  have code : chunk.code = f.code := by rw [made]
  have constants : chunk.constants = t.function.constants := by rw [made]
  obtain ⟨kept,grown,front,line,rfl,flows⟩ := scriptFlows source program _ _ _ run
    regular_initial rfl
  obtain ⟨ending,grows,holds⟩ := script_uses source program [[]] _ _ _ run lexical_initial
  have alone : t.enclosing = [] := List.forall₂_nil_left_iff.mp grown.enclosing
  rw [State.Regular,alone] at kept
  have chain : t.chain = [[]] := by rw [State.chain,alone,List.map_singleton,kept.2]
  have final : Final t [[]] t.function.constants := by
    refine ⟨by rw [chain]; exact chain_refl _,List.prefix_rfl,?_⟩
    rw [State.scopes,alone]
    exact .script _
  have plain : ∀ item ∈ Fragment.one line .ret, ∃ i : Instr, item.step = .instr i ∧ i.Fits := by
    simp [Fragment.one,Instr.Fits]
  obtain ⟨listing,reads,same⟩ := flows.reads code plain
  refine ⟨listing,reads,?_⟩
  rw [same,constants]
  exact holds _ _ final

/-- A function that assigns a variable two functions out, whose initializer reads the global it shadows. -/
theorem Source.compile_resolves_shadowed : ∃ (source : Source) (program : List Stmt) (chunk : Chunk)
    (code : List Instr), source.parse = .ok program ∧ source.compile = .ok chunk ∧
      (Stmt.usesIn [[]] program).length = 5 ∧ chunk.Reads 0 code chunk.code.size ∧
      ResolvesAll [[]] chunk.constants (Stmt.usesIn [[]] program) (code.filter Instr.isUse) := by
  let source := Source.ofText (ascii
    "var a = 1; \x7b var a = a; fun f(x) \x7b return fun() \x7b a = x; \x7d; \x7d f(a); \x7d a;")
  have written : (source.parse.toOption.any fun program =>
      (Stmt.usesIn [[]] program).length = 5) = true := by decide +kernel
  have computed : source.compile.toOption.isSome = true := by decide +kernel
  obtain ⟨program,read,count⟩ := (Option.any_eq_true _ _).mp written
  obtain ⟨chunk,accepted⟩ := Option.isSome_iff_exists.mp computed
  have parsed := toOption_eq_some.mp read
  have compiled := toOption_eq_some.mp accepted
  obtain ⟨code,reads,resolves⟩ := Source.compile_resolves parsed compiled
  exact ⟨source,program,chunk,code,parsed,compiled,of_decide_eq_true count,reads,resolves⟩

end ScriptMachine
