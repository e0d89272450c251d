import Mathlib
import ScriptMachine.Proofs.Discipline
import ScriptMachine.Proofs.Nodes

/-! Where instructions come from. Each step of the code of a script is marked with the innermost statement
or expression that was being compiled when it was emitted; its line is the one on which that begins. -/
namespace ScriptMachine

namespace Node

/-- The name, the parameters and the body of a function. -/
def function? : Node → Option (Bytes × List Bytes × List Stmt)
  | expr (.lambda _ parameters body) => some (Compile.anonymous, parameters, body)
  | stmt (.function _ name parameters body) => some (name, parameters, body)
  | _ => none

end Node

namespace Compile

/-- Code with the innermost node that was being compiled when a step was emitted. At the end of a script
there is none. -/
abbrev Marked := List (Step × Option Node)

section

variable (source : Source)

/-- The line of a step: that on which its node begins, or the last one. -/
def markLine : Option Node → Nat
  | some node => source.line node.span.start
  | none => max source.lineCount 1

/-- The code without its marks. -/
def Marked.plain (code : Marked) : Fragment :=
  code.map fun (step, node) => ⟨step, markLine source node⟩

/-- Code that belongs to a node itself. -/
def own (node : Node) (code : Fragment) : Marked :=
  code.map fun item => (item.step, some node)

def mark (node : Node) (i : Instr) : Marked :=
  [(.instr i, some node)]

def Marked.closeLoop (total offset : Nat) : Marked → Marked
  | [] => []
  | (step, node) :: rest =>
    (step.close total offset, node) :: closeLoop total (offset + step.size) rest

def guardedMarks (node : Node) (jumpOn : Bool) (code : Marked) : Compiler Marked := do
  checkDistance source (code.plain source).size node.span
  return mark node (.jumpIf jumpOn (code.plain source).size) ++ code

def loopMarks (node : Node) (condition : Option Marked) (body : Marked) : Compiler Marked := do
  let size := (body.plain source).size
  let test : Marked :=
    match condition with
    | some code => code ++ mark node (.jumpIf false (size + 5))
    | none => []
  let total := (test.plain source).size + size + 5
  checkDistance source total node.span
  return (test ++ body ++ mark node (.jumpBack total)).closeLoop total 0

mutual

def markExpr : Expr → Compiler Marked
  | .binary span op lhs rhs => do
    let left ← markExpr lhs
    let right ← markExpr rhs
    return left ++ right ++ mark (.expr (.binary span op lhs rhs)) (.binary op)
  | .logical span op lhs rhs => do
    let node := Node.expr (.logical span op lhs rhs)
    let left ← markExpr lhs
    let right ← markExpr rhs
    let rest ← guardedMarks source node (op = .either) (mark node .pop ++ right)
    return left ++ mark node .duplicate ++ rest
  | .unary span op operand => do
    return (← markExpr operand) ++ mark (.expr (.unary span op operand)) (.unary op)
  | .call span callee arguments => do
    let function ← markExpr callee
    let values ← markExprs arguments
    return function ++ values ++ mark (.expr (.call span callee arguments)) (.call arguments.length)
  | .assign span (.name inner spelling) value => do
    let code ← markExpr value
    let i ← variableInstr source .setLocal .setCapture .setGlobal spelling span
    return code ++ mark (.expr (.assign span (.name inner spelling) value)) i
  | .assign span (.field inner object label) value => do
    let code ← markExpr value
    let target ← markExpr object
    let n ← constant source (.string label) span
    return code ++ target ++ mark (.expr (.assign span (.field inner object label) value)) (.setField n)
  | .field span object label => do
    let code ← markExpr object
    let n ← constant source (.string label) span
    return code ++ mark (.expr (.field span object label)) (.getField n)
  | e => own (.expr e) <$> expr source e

def markExprs : List Expr → Compiler Marked
  | [] => return []
  | first :: rest => do
    let head ← markExpr first
    return head ++ (← markExprs rest)

def markStmt (loop : Option Nat) : Stmt → Compiler Marked
  | .expression span value => do
    return (← markExpr value) ++ mark (.stmt (.expression span value)) .pop
  | .print span value => do
    return (← markExpr value) ++ mark (.stmt (.print span value)) .print
  | .declare span name (some value) => do
    let code ← markExpr value
    declare source name span
    let rest ← define source (source.line span.start) name span
    return code ++ own (.stmt (.declare span name (some value))) rest
  | .block span body => do
    openBlock
    let code ← markStmts loop body
    return code ++ own (.stmt (.block span body)) (← closeBlock (source.line span.start))
  | .ret span (some value) => do
    if (← get).enclosing.isEmpty then refuse source .returnOutsideFunction span
    return (← markExpr value) ++ mark (.stmt (.ret span (some value))) .ret
  | .branch span condition yes none => do
    let node := Node.stmt (.branch span condition yes none)
    let line := source.line span.start
    let test ← markExpr condition
    openBlock
    let code ← markStmts loop yes
    let code := code ++ own node (← closeBlock line)
    return test ++ (← guardedMarks source node false code)
  | .branch span condition yes (some no) => do
    let node := Node.stmt (.branch span condition yes (some no))
    let line := source.line span.start
    let test ← markExpr condition
    openBlock
    let code ← markStmts loop yes
    let code := code ++ own node (← closeBlock line)
    openBlock
    let other ← markStmts loop no
    let other := other ++ own node (← closeBlock line)
    checkDistance source (other.plain source).size span
    let code := code ++ mark node (.jump (other.plain source).size)
    return test ++ (← guardedMarks source node false code) ++ other
  | .loop span condition body => do
    let node := Node.stmt (.loop span condition body)
    let depth ← blockDepth
    let test ← match condition with
      | some condition => some <$> markExpr condition
      | none => pure none
    openBlock
    let code ← markStmts (some depth) body
    let code := code ++ own node (← closeBlock (source.line span.start))
    loopMarks source node test code
  | st => own (.stmt st) <$> stmt source loop st

def markStmts (loop : Option Nat) : List Stmt → Compiler Marked
  | [] => return []
  | first :: rest => do
    let head ← markStmt loop first
    return head ++ (← markStmts loop rest)

end

/-- The code of a function. When its body has ended, it returns nil. -/
def markFunction (node : Node) (parameters : List Bytes) (body : List Stmt) : Compiler Marked := do
  beginFunction source parameters node.span
  let code ← markStmts source none body
  return code ++ mark node .loadNil ++ mark node .ret

def markScript : List Stmt → Compiler Marked
  | [] => return [(.instr .loadNil, none), (.instr .ret, none)]
  | [.expression span value] => do
    return (← markExpr source value) ++ mark (.stmt (.expression span value)) .ret
  | first :: rest => do
    let head ← markStmt source none first
    return head ++ (← markScript rest)

end

/-- This is how the code of a chunk of the script came about: that of the script itself, or of one of its
functions. -/
inductive Writes (source : Source) (program : List Stmt) : Chunk → Marked → Prop
  | script {code : Marked} {t : State} (run : markScript source program .initial = .ok code t) :
      Writes source program ⟨scriptName,0,0,(code.plain source).code,(code.plain source).lines,
        t.function.constants⟩ code
  | function {node : Node} {name : Bytes} {parameters : List Bytes} {body : List Stmt} {s t : State}
      {code : Marked} (of : node.Of program) (is : node.function? = some (name,parameters,body))
      (run : markFunction source node parameters body s = .ok code t) :
      Writes source program ⟨name,parameters.length,t.function.captures.length,
        (code.plain source).code,(code.plain source).lines,t.function.constants⟩ code

variable {source : Source} {program : List Stmt} {span : Span} {node : Node} {line : Nat} {s t : State}

/-! Marks and lines. -/

@[simp]
theorem plain_nil : Marked.plain source [] = [] := rfl

@[simp]
theorem plain_append (code more : Marked) :
    Marked.plain source (code ++ more) = code.plain source ++ more.plain source :=
  List.map_append

@[simp]
theorem plain_mark (i : Instr) : (mark node i).plain source = .one (source.line node.span.start) i := rfl

theorem plain_own {f : Fragment} (level : ∀ item ∈ f, item.line = source.line node.span.start) :
    (own node f).plain source = f := by
  induction f with
  | nil => rfl
  | cons item rest ih =>
    obtain ⟨first,others⟩ := List.forall_mem_cons.mp level
    obtain ⟨step,line⟩ := item
    obtain rfl : line = _ := first
    exact congrArg _ (ih others)

theorem plain_closeLoop (code : Marked) (total offset : Nat) :
    (code.closeLoop total offset).plain source = (code.plain source).closeLoop total offset := by
  induction code generalizing offset with
  | nil => rfl
  | cons first rest ih => exact congrArg _ (ih _)

/-- The mark is a node of the program. -/
def Signed (program : List Stmt) (place : Step × Option Node) : Prop :=
  ∃ node, place.2 = some node ∧ node.Of program

/-- This code has these marks, and each step has one. -/
structure Marks (source : Source) (program : List Stmt) (f : Fragment) (code : Marked) : Prop where
  plain : code.plain source = f
  each : ∀ place ∈ code, Signed program place

theorem Marks.nil : Marks source program [] [] :=
  ⟨rfl,by simp⟩

theorem Marks.append {f g : Fragment} {code more : Marked} (first : Marks source program f code)
    (second : Marks source program g more) : Marks source program (f ++ g) (code ++ more) :=
  ⟨by rw [plain_append,first.plain,second.plain],List.forall_mem_append.mpr ⟨first.each,second.each⟩⟩

theorem Marks.mark (of : node.Of program) (here : node.span = span) (i : Instr) :
    Marks source program (.one (source.line span.start) i) (Compile.mark node i) :=
  ⟨here ▸ plain_mark i,by simpa [Compile.mark,Signed] using of⟩

theorem Marks.own (of : node.Of program) {f : Fragment}
    (level : ∀ item ∈ f, item.line = source.line node.span.start) :
    Marks source program f (Compile.own node f) := by
  refine ⟨plain_own level,fun place member => ?_⟩
  obtain ⟨item,-,rfl⟩ := List.mem_map.mp member
  exact ⟨node,rfl,of⟩

theorem Marks.closeLoop {f : Fragment} {code : Marked} (marks : Marks source program f code)
    (total offset : Nat) :
    Marks source program (f.closeLoop total offset) (code.closeLoop total offset) := by
  refine ⟨by rw [plain_closeLoop,marks.plain],?_⟩
  have each := marks.each
  clear marks
  induction code generalizing offset with
  | nil => simp [Marked.closeLoop]
  | cons first rest ih =>
    rw [List.forall_mem_cons] at each
    exact List.forall_mem_cons.mpr ⟨each.1,ih _ each.2⟩

/-- The chunk was made of this code, in which all jumps are closed and all operands fit, but for those of
calls. -/
structure Bears (source : Source) (program : List Stmt) (chunk : Chunk) (code : Marked) : Prop where
  writes : Writes source program chunk code
  closed : (code.plain source).Closed
  fits : ∀ item ∈ code.plain source, ∀ i, item.step = .instr i → (∀ n, i ≠ .call n) → i.Fits

/-- The chunk is that of a function of the program. -/
def Written (source : Source) (program : List Stmt) (chunk : Chunk) : Prop :=
  ∃ code, Bears source program chunk code ∧ ∀ place ∈ code, Signed program place

/-! The marked code comes about as the code does. -/

section

variable {α β γ δ : Type} {r : α → β → Prop} {q : γ → δ → Prop} {x : Compiler α} {y : Compiler β}

/-- Wherever the one comes to an end so does the other, in the same state and with a result that corresponds;
and new chunks have been written. -/
def Mirrors (source : Source) (program : List Stmt) (r : α → β → Prop) (x : Compiler α) (y : Compiler β) :
    Prop :=
  ∀ s a t, x s = .ok a t → s.Regular → t.Regular ∧ (∃ b, y s = .ok b t ∧ r a b) ∧
    ∀ chunk ∈ t.finished, chunk ∈ s.finished ∨ Written source program chunk

theorem bind_of_ok {k : β → Compiler δ} {b : β} {mid : State} (run : y s = .ok b mid) :
    (y >>= k) s = k b mid := by
  change EStateM.bind y k s = _
  rw [EStateM.bind,run]

theorem Mirrors.bind {k : α → Compiler γ} {l : β → Compiler δ} (first : Mirrors source program r x y)
    (rest : ∀ a b, r a b → Mirrors source program q (k a) (l b)) :
    Mirrors source program q (x >>= k) (y >>= l) := by
  intro s c t run regular
  obtain ⟨a,mid,head,tail⟩ := bind_ok run
  obtain ⟨kept,⟨b,other,same⟩,written⟩ := first s a mid head regular
  obtain ⟨last,⟨d,others,sameToo⟩,writtenToo⟩ := rest a b same mid c t tail kept
  refine ⟨last,⟨d,(bind_of_ok other).trans others,sameToo⟩,fun chunk member => ?_⟩
  rcases writtenToo chunk member with early | late
  · exact written chunk early
  · exact .inr late

theorem Mirrors.pure {a : α} {b : β} (same : r a b) :
    Mirrors source program r (Pure.pure a) (Pure.pure b) := by
  intro s c t run regular
  cases run
  exact ⟨regular,⟨b,rfl,same⟩,fun chunk member => .inl member⟩

/-- What finishes no function is the same on both sides. -/
theorem Mirrors.refl {z : Compiler α} (plain : Lists (fun _ _ => False) [] z) :
    Mirrors source program Eq z z := by
  intro s a t run regular
  obtain ⟨kept,-,new,finished,made,-⟩ := plain s a t run regular
  obtain rfl := List.forall₂_nil_left_iff.mp made
  rw [List.append_nil] at finished
  exact ⟨kept,⟨a,run,rfl⟩,fun chunk member => .inl (finished ▸ member)⟩

theorem Mirrors.skip {k : α → Compiler γ} {l : α → Compiler δ} {z : Compiler α}
    (plain : Lists (fun _ _ => False) [] z) (rest : ∀ a, Mirrors source program q (k a) (l a)) :
    Mirrors source program q (z >>= k) (z >>= l) :=
  (Mirrors.refl plain).bind fun a _ same => same ▸ rest a

theorem Mirrors.refuse (cause : Diagnostic.Cause) :
    Mirrors source program r (Compile.refuse source cause span) y := by
  intro s a t run
  cases run

theorem Mirrors.get {k : State → Compiler γ} {l : State → Compiler δ}
    (rest : ∀ s, Mirrors source program q (k s) (l s)) :
    Mirrors source program q (MonadState.get >>= k) (MonadState.get >>= l) :=
  fun s a t run regular => rest s s a t run regular

theorem Mirrors.ite {c : Prop} [Decidable c] {x' : Compiler α} {y' : Compiler β}
    (yes : c → Mirrors source program r x y) (no : ¬c → Mirrors source program r x' y') :
    Mirrors source program r (if c then x else x') (if c then y else y') := by
  split
  next holds => exact yes holds
  next fails => exact no fails

end

/-! Code that belongs to one node. -/

/-- The code has the line of the node, and it is the same on both sides. -/
def Level (source : Source) (node : Node) (f g : Fragment) : Prop :=
  g = f ∧ ∀ item ∈ f, item.line = source.line node.span.start

theorem Level.one (here : node.span = span) (i : Instr) :
    Level source node (.one (source.line span.start) i) (.one (source.line span.start) i) :=
  ⟨rfl,by simp [Fragment.one,here]⟩

theorem Level.append {f g f' g' : Fragment} (first : Level source node f f')
    (second : Level source node g g') : Level source node (f ++ g) (f' ++ g') :=
  ⟨by rw [first.1,second.1],List.forall_mem_append.mpr ⟨first.2,second.2⟩⟩

theorem Mirrors.own {x : Compiler Fragment} (of : node.Of program)
    (level : Mirrors source program (Level source node) x x) :
    Mirrors source program (Marks source program) x (Compile.own node <$> x) := by
  have marked : Mirrors source program (Marks source program) (x >>= Pure.pure)
      (x >>= fun f => Pure.pure (Compile.own node f)) := by
    refine level.bind fun f g ⟨same,level⟩ => .pure ?_
    subst same
    exact .own of level
  simpa only [bind_pure,map_eq_pure_bind] using marked

/-- What belongs to a node is marked with it. -/
theorem Mirrors.then {α β : Type} {r : α → β → Prop} {x : Compiler Fragment} {k : Fragment → Compiler α}
    {l : Fragment → Compiler β} (level : Mirrors source program (Level source node) x x)
    (of : node.Of program)
    (rest : ∀ f, Marks source program f (Compile.own node f) → Mirrors source program r (k f) (l f)) :
    Mirrors source program r (x >>= k) (x >>= l) :=
  level.bind fun f _ same => same.1 ▸ rest f (.own of same.2)

theorem Mirrors.define (node : Node) (name : Bytes) (here : node.span = span) :
    Mirrors source program (Level source node)
      (Compile.define source (source.line span.start) name span)
      (Compile.define source (source.line span.start) name span) :=
  .get fun _ => .ite (fun _ => .skip .name fun _ => .pure (.one here _)) fun _ => .pure ⟨rfl,by simp⟩

theorem level_discard (here : node.span = span) (block : Block) :
    ∀ item ∈ discard (source.line span.start) block, item.line = source.line node.span.start := by
  simp [discard,here]

theorem Mirrors.closeBlock (node : Node) (here : node.span = span) :
    Mirrors source program (Level source node) (Compile.closeBlock (source.line span.start))
      (Compile.closeBlock (source.line span.start)) := by
  have same : Mirrors source program Eq (Compile.closeBlock (source.line span.start))
      (Compile.closeBlock (source.line span.start)) := .refl .closeBlock
  intro s f t run regular
  obtain ⟨kept,⟨_,again,rfl⟩,written⟩ := same s f t run regular
  refine ⟨kept,⟨f,again,rfl,?_⟩,written⟩
  obtain ⟨rfl,-⟩ := closeBlock_ok run
  exact level_discard here _

theorem Mirrors.unwind (here : node.span = span) {depth : Nat} :
    Mirrors source program (Level source node) (Compile.unwind (source.line span.start) depth)
      (Compile.unwind (source.line span.start) depth) := by
  refine .get fun s => .pure ⟨rfl,fun item member => ?_⟩
  obtain ⟨block,-,inside⟩ := List.mem_flatMap.mp member
  exact level_discard here block item inside

theorem Mirrors.guarded (of : node.Of program) (here : node.span = span) {f : Fragment} {code : Marked}
    (marks : Marks source program f code) {jumpOn : Bool} :
    Mirrors source program (Marks source program)
      (Compile.guarded source (source.line span.start) jumpOn f span)
      (guardedMarks source node jumpOn code) := by
  rw [Compile.guarded,guardedMarks,marks.plain,here]
  exact .skip (.checkDistance _) fun _ => .pure (.append (.mark of here _) marks)

theorem Mirrors.closeLoop (of : node.Of program) (here : node.span = span) {condition : Option Fragment}
    {test : Option Marked} {f : Fragment} {code : Marked}
    (tests : Option.Rel (Marks source program) condition test) (marks : Marks source program f code) :
    Mirrors source program (Marks source program)
      (Compile.closeLoop source (source.line span.start) condition f span)
      (loopMarks source node test code) := by
  unfold Compile.closeLoop loopMarks
  rw [marks.plain,here]
  cases tests with
  | none =>
    exact .skip (.checkDistance _) fun _ =>
      .pure (((Marks.nil.append marks).append (.mark of here _)).closeLoop _ _)
  | some known =>
    have whole {n : Nat} := known.append (.mark of here (.jumpIf false n))
    dsimp only
    rw [whole.plain]
    exact .skip (.checkDistance _) fun _ =>
      .pure (((whole.append marks).append (.mark of here _)).closeLoop _ _)

/-- The marked code of a block, which is left for the node. -/
def blockMarks (source : Source) (node : Node) (loop : Option Nat) (body : List Stmt) :
    Compiler Marked := do
  openBlock
  let code ← markStmts source loop body
  return code ++ Compile.own node (← closeBlock (source.line node.span.start))

section

attribute [local simp] markStmt

theorem markStmt_block {loop : Option Nat} {body : List Stmt} :
    markStmt source loop (.block span body) = blockMarks source (.stmt (.block span body)) loop body := by
  simp [blockMarks,Node.span,Stmt.span]

theorem markStmt_branch {loop : Option Nat} {condition : Expr} {yes : List Stmt} :
    markStmt source loop (.branch span condition yes none) = (do
      let test ← markExpr source condition
      let code ← blockMarks source (.stmt (.branch span condition yes none)) loop yes
      return test ++
        (← guardedMarks source (.stmt (.branch span condition yes none)) false code)) := by
  simp [blockMarks,Node.span,Stmt.span]

theorem markStmt_branchElse {loop : Option Nat} {condition : Expr} {yes no : List Stmt} :
    markStmt source loop (.branch span condition yes (some no)) = (do
      let node := Node.stmt (.branch span condition yes (some no))
      let test ← markExpr source condition
      let code ← blockMarks source node loop yes
      let other ← blockMarks source node loop no
      checkDistance source (other.plain source).size span
      return test ++ (← guardedMarks source node false
        (code ++ mark node (.jump (other.plain source).size))) ++ other) := by
  simp [blockMarks,Node.span,Stmt.span]

theorem markStmt_loop {loop : Option Nat} {body : List Stmt} :
    markStmt source loop (.loop span none body) = (do
      let depth ← blockDepth
      let code ← blockMarks source (.stmt (.loop span none body)) (some depth) body
      loopMarks source (.stmt (.loop span none body)) none code) := by
  simp [blockMarks,Node.span,Stmt.span]

theorem markStmt_while {loop : Option Nat} {condition : Expr} {body : List Stmt} :
    markStmt source loop (.loop span (some condition) body) = (do
      let depth ← blockDepth
      let test ← markExpr source condition
      let code ← blockMarks source (.stmt (.loop span (some condition) body)) (some depth) body
      loopMarks source (.stmt (.loop span (some condition) body)) (some test) code) := by
  simp [blockMarks,Node.span,Stmt.span]

end

theorem Mirrors.blockCode (of : node.Of program) (here : node.span = span) {loop : Option Nat}
    {body : List Stmt} (inner : Mirrors source program (Marks source program) (stmts source loop body)
      (markStmts source loop body)) :
    Mirrors source program (Marks source program)
      (Compile.blockCode source loop (source.line span.start) body) (blockMarks source node loop body) := by
  subst here
  exact .skip .openBlock fun _ => inner.bind fun _ _ first =>
    (Mirrors.closeBlock node rfl).then of fun _ rest => .pure (first.append rest)

/-- A function as a whole: its chunk is written, and its closure is made where it stands. -/
theorem Mirrors.closureCode (here : node.span = span) {name : Bytes} {parameters : List Bytes}
    {body : List Stmt} (of : node.Of program) (is : node.function? = some (name,parameters,body))
    (inner : Mirrors source program (Marks source program) (stmts source none body)
      (markStmts source none body)) :
    Mirrors source program (Level source node)
      (Compile.closureCode source (source.line span.start) name parameters span body)
      (Compile.closureCode source (source.line span.start) name parameters span body) := by
  subst here
  intro s f t run regular
  have again := run
  rw [Compile.closureCode] at run
  obtain ⟨_,inside,begun,run⟩ := bind_ok run
  obtain ⟨f',last,compiled,ended⟩ := bind_ok run
  obtain ⟨started,-,-,-⟩ := beginFunction_spec begun regular
  have within : Within inside.function none := by simp [Within]
  have flowing := (compiled_flows source).2.1 none body inside f' last compiled started within
  obtain ⟨kept,-⟩ := function_spec begun flowing ended regular
  obtain ⟨-,earlier,-⟩ := beginFunction_finishes begun regular
  obtain ⟨-,⟨code,marked,marks⟩,written⟩ := inner inside f' last compiled started
  obtain ⟨-,finished,-,-,closure⟩ := endFunction_finishes ended rfl
  refine ⟨kept,⟨f,again,rfl,?_⟩,fun chunk member => ?_⟩
  · rw [closure]
    simp [Fragment.one]
  rw [finished] at member
  rcases List.mem_append.mp member with early | late
  · exact earlier ▸ written chunk early
  have wholeMarks : Marks source program (f' ++ .one (source.line node.span.start) .loadNil ++
      .one (source.line node.span.start) .ret) (code ++ mark node .loadNil ++ mark node .ret) :=
    (marks.append (.mark of (by rfl) _)).append (.mark of (by rfl) _)
  have run : markFunction source node parameters body s =
      .ok (code ++ mark node .loadNil ++ mark node .ret) last := by
    rw [markFunction,bind_of_ok begun,bind_of_ok marked]
    rfl
  have plain : ∀ item ∈ Fragment.one (source.line node.span.start) .loadNil ++
      Fragment.one (source.line node.span.start) .ret, ∃ i : Instr, item.step = .instr i ∧ i.Fits := by
    simp [Fragment.one,Instr.Fits]
  obtain ⟨closed,fits⟩ := (flowing.flows ∅ (Set.empty_subset _)).fits plain
  rw [← List.append_assoc] at closed fits
  obtain rfl := List.mem_singleton.mp late
  have writes := Writes.function of is run
  rw [wholeMarks.plain] at writes
  rw [← wholeMarks.plain] at closed fits
  exact .inr ⟨_,⟨writes,closed,fits⟩,wholeMarks.each⟩

theorem mirrors_expr {e : Expr} (marked : markExpr source e = own (.expr e) <$> expr source e)
    (of : (Node.expr e).Of program)
    (level : Mirrors source program (Level source (.expr e)) (expr source e) (expr source e)) :
    Mirrors source program (Marks source program) (expr source e) (markExpr source e) :=
  marked ▸ .own of level

theorem mirrors_stmt {st : Stmt} {loop : Option Nat}
    (marked : markStmt source loop st = own (.stmt st) <$> stmt source loop st)
    (of : (Node.stmt st).Of program)
    (level : Mirrors source program (Level source (.stmt st)) (stmt source loop st)
      (stmt source loop st)) :
    Mirrors source program (Marks source program) (stmt source loop st) (markStmt source loop st) :=
  marked ▸ .own of level

/-- By induction over the tree, each kind of expression and statement in turn. -/
theorem compiled_mirrors (source : Source) (program : List Stmt) :
    (∀ e, (Node.expr e).Of program →
      Mirrors source program (Marks source program) (expr source e) (markExpr source e)) ∧
    (∀ loop sts, (∀ st ∈ sts, (Node.stmt st).Of program) →
      Mirrors source program (Marks source program) (stmts source loop sts) (markStmts source loop sts)) ∧
    (∀ loop st, (Node.stmt st).Of program →
      Mirrors source program (Marks source program) (stmt source loop st) (markStmt source loop st)) ∧
    ∀ es, (∀ e ∈ es, (Node.expr e).Of program) →
      Mirrors source program (Marks source program) (exprs source es) (markExprs source es) := by
  refine expr.mutual_induct source
    (fun e => (Node.expr e).Of program →
      Mirrors source program (Marks source program) (expr source e) (markExpr source e))
    (fun loop sts => (∀ st ∈ sts, (Node.stmt st).Of program) →
      Mirrors source program (Marks source program) (stmts source loop sts) (markStmts source loop sts))
    (fun loop st => (Node.stmt st).Of program →
      Mirrors source program (Marks source program) (stmt source loop st) (markStmt source loop st))
    (fun es => (∀ e ∈ es, (Node.expr e).Of program) →
      Mirrors source program (Marks source program) (exprs source es) (markExprs source es))
    ?number ?string ?bool ?nil ?binary ?logical ?unary ?name ?call ?assignName
    ?assignField ?assignOther ?field ?lambda ?expression ?print ?declareNil ?declare ?block
    ?function ?struct ?ret ?branch ?branchElse ?loop ?breakLoop ?breakOutside ?continueLoop
    ?continueOutside ?noExprs ?exprs ?noStmts ?stmts
  case number =>
    intro span value of
    refine mirrors_expr rfl of ?_
    rw [expr]
    exact .skip (.constant (by simp)) fun n => .pure (.one (by rfl) _)
  case string =>
    intro span text of
    refine mirrors_expr rfl of ?_
    rw [expr]
    exact .skip .name fun n => .pure (.one (by rfl) _)
  case bool =>
    intro span value of
    refine mirrors_expr rfl of ?_
    rw [expr]
    exact .pure (.one (by rfl) _)
  case nil =>
    intro span of
    refine mirrors_expr rfl of ?_
    rw [expr]
    exact .pure (.one (by rfl) _)
  case binary =>
    intro span op lhs rhs left right of
    rw [expr,markExpr]
    exact (left (of.child (by simp [Node.children]))).bind fun a a' first =>
      (right (of.child (by simp [Node.children]))).bind fun b b' second =>
      .pure ((first.append second).append (.mark of (by rfl) _))
  case logical =>
    intro span op lhs rhs left right of
    rw [expr,markExpr]
    exact (left (of.child (by simp [Node.children]))).bind fun a a' first =>
      (right (of.child (by simp [Node.children]))).bind fun b b' second =>
      (Mirrors.guarded of (by rfl) (.append (.mark of (by rfl) _) second)).bind
      fun c c' third => .pure ((first.append (.mark of (by rfl) _)).append third)
  case unary =>
    intro span op operand inner of
    rw [expr,markExpr]
    exact (inner (of.child (by simp [Node.children]))).bind fun a a' first =>
      .pure (first.append (.mark of (by rfl) _))
  case name =>
    intro span spelling of
    refine mirrors_expr rfl of ?_
    rw [expr]
    exact .skip .variableInstr fun i => .pure (.one (by rfl) _)
  case call =>
    intro span callee arguments function values of
    rw [expr,markExpr]
    exact (function (of.child (by simp [Node.children]))).bind fun a a' first =>
      (values fun e member => of.child (by simp [Node.children,member])).bind fun b b' second =>
      .pure ((first.append second).append (.mark of (by rfl) _))
  case assignName =>
    intro span inner spelling value given of
    rw [expr,markExpr]
    exact (given (of.child (by simp [Node.children]))).bind fun a a' first =>
      .skip .variableInstr fun i => .pure (first.append (.mark of (by rfl) _))
  case assignField =>
    intro span inner object label value given target of
    have field : (Node.expr (.field inner object label)).Of program :=
      of.child (by simp [Node.children])
    rw [expr,markExpr]
    exact (given (of.child (by simp [Node.children]))).bind fun a a' first =>
      (target (field.child (by simp [Node.children]))).bind fun b b' second =>
      .skip .name fun n => .pure ((first.append second).append (.mark of (by rfl) _))
  case assignOther =>
    intro span target value notName notField of
    rw [expr]
    · exact .refuse _
    · exact notName
    · exact notField
  case field =>
    intro span object label target of
    rw [expr,markExpr]
    exact (target (of.child (by simp [Node.children]))).bind fun a a' first =>
      .skip .name fun n => .pure (first.append (.mark of (by rfl) _))
  case lambda =>
    intro span parameters body inner of
    refine mirrors_expr rfl of ?_
    rw [expr_lambda]
    exact .closureCode rfl of rfl (inner fun st member => of.child (by simp [Node.children,member]))
  case expression | print =>
    intro loop span value inner of
    rw [stmt,markStmt]
    exact (inner (of.child (by simp [Node.children]))).bind fun a a' first =>
      .pure (first.append (.mark of (by rfl) _))
  case declareNil =>
    intro loop span name of
    refine mirrors_stmt rfl of ?_
    rw [stmt]
    exact .skip .declare fun _ => (Mirrors.define _ name (by rfl)).bind fun a a' rest =>
      .pure (.append (.one (by rfl) _) rest)
  case declare =>
    intro loop span name value inner of
    rw [stmt,markStmt]
    exact (inner (of.child (by simp [Node.children]))).bind fun a a' first =>
      .skip .declare fun _ => (Mirrors.define (.stmt (.declare span name (some value))) name rfl).then of
        fun b rest => .pure (first.append rest)
  case block =>
    intro loop span body inner of
    rw [stmt_block,markStmt_block]
    exact .blockCode of rfl (inner fun st member => of.child (by simp [Node.children,member]))
  case function =>
    intro loop span name parameters body inner of
    refine mirrors_stmt rfl of ?_
    rw [stmt_function]
    exact .skip .declare fun _ => (Mirrors.closureCode (by rfl) of rfl (inner fun st member =>
      of.child (by simp [Node.children,member]))).bind fun a a' closure =>
        (Mirrors.define _ name (by rfl)).bind fun b b' rest => .pure (closure.append rest)
  case struct =>
    intro loop span name fields of
    refine mirrors_stmt rfl of ?_
    rw [stmt]
    exact .skip (.fieldConstants _ _) fun labels => .skip .name fun title =>
      .skip .declare fun _ => (Mirrors.define _ name (by rfl)).bind fun a a' rest =>
      .pure (.append (.one (by rfl) _) rest)
  case ret =>
    intro loop span value inner of
    cases value with
    | none =>
      refine mirrors_stmt rfl of ?_
      rw [stmt]
      exact .get fun s => .ite (fun _ => .refuse _) fun _ =>
        .pure (.append (.one (by rfl) _) (.one (by rfl) _))
    | some value =>
      rw [stmt,markStmt]
      exact .get fun s => .ite (fun _ => .refuse _) fun _ =>
        (inner (of.child (by simp [Node.children]))).bind fun a a' first =>
        .pure (first.append (.mark of (by rfl) _))
  case branch =>
    intro loop span condition yes test inner of
    rw [stmt_branch,markStmt_branch]
    exact (test (of.child (by simp [Node.children]))).bind fun a a' first =>
      (Mirrors.blockCode of (by rfl) (inner fun st member =>
        of.child (by simp [Node.children,member]))).bind fun b b' second =>
      (Mirrors.guarded of (by rfl) second).bind fun c c' guarded => .pure (first.append guarded)
  case branchElse =>
    intro loop span condition yes no test inner other of
    rw [stmt_branchElse,markStmt_branchElse]
    refine (test (of.child (by simp [Node.children]))).bind fun a a' first =>
      (Mirrors.blockCode of (by rfl) (inner fun st member =>
        of.child (by simp [Node.children,member]))).bind fun b b' second =>
      (Mirrors.blockCode of (by rfl) (other fun st member =>
        of.child (by simp [Node.children,member]))).bind fun c c' third => ?_
    rw [third.plain]
    exact .skip (.checkDistance _) fun _ =>
      (Mirrors.guarded of (by rfl) (second.append (.mark of (by rfl) _))).bind
        fun d d' guarded => .pure ((first.append guarded).append third)
  case loop =>
    intro loop span condition body inner test of
    have rounds (depth : Nat) := Mirrors.blockCode of (by rfl) (inner depth fun st member =>
      of.child (by simp [Node.children,member]))
    cases condition with
    | none =>
      rw [stmt_loop,markStmt_loop]
      exact .skip .blockDepth fun depth => (rounds depth).bind fun a a' first =>
        .closeLoop of (by rfl) .none first
    | some condition =>
      rw [stmt_while,markStmt_while]
      exact .skip .blockDepth fun depth => (test (of.child (by simp [Node.children]))).bind
        fun a a' known => (rounds depth).bind fun b b' first =>
          .closeLoop of (by rfl) (.some known) first
  case breakLoop | continueLoop =>
    intro span depth of
    refine mirrors_stmt rfl of ?_
    rw [stmt]
    exact (Mirrors.unwind (by rfl)).bind fun a a' rest =>
      .pure (rest.append ⟨rfl,by simp [Node.span,Stmt.span]⟩)
  case breakOutside | continueOutside =>
    intro span of
    rw [stmt]
    exact .refuse _
  case noExprs =>
    intro of
    rw [exprs,markExprs]
    exact .pure .nil
  case exprs =>
    intro first rest head tail of
    rw [exprs,markExprs]
    exact (head (of first List.mem_cons_self)).bind fun a a' one =>
      (tail fun e member => of e (List.mem_cons_of_mem _ member)).bind fun b b' others =>
      .pure (one.append others)
  case noStmts =>
    intro loop of
    rw [stmts,markStmts]
    exact .pure .nil
  case stmts =>
    intro loop first rest head tail of
    rw [stmts,markStmts]
    exact (head (of first List.mem_cons_self)).bind fun a a' one =>
      (tail fun e member => of e (List.mem_cons_of_mem _ member)).bind fun b b' others =>
      .pure (one.append others)

end Compile

end ScriptMachine
