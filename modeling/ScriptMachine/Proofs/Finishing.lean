import Mathlib
import ScriptMachine.Proofs.StatementBoundaries
import ScriptMachine.Proofs.WellFormed

/-! The functions of a tree and the chunks that are made of them. Functions are finished one after the
other, those nested in others first, and every chunk is among the constants of the next one around. -/
namespace ScriptMachine

/-- A function as it is written: its parameters and its body. -/
structure FunctionTree where
  parameters : List Bytes
  body : List Stmt

mutual

/-- The functions in an expression, in the order in which they end. -/
def Expr.functions : Expr → List FunctionTree
  | .number .. | .string .. | .bool .. | .nil _ | .name .. => []
  | .binary _ _ lhs rhs | .logical _ _ lhs rhs => lhs.functions ++ rhs.functions
  | .unary _ _ operand => operand.functions
  | .call _ callee arguments => callee.functions ++ Expr.functionsOf arguments
  | .assign _ (.field _ object _) value => value.functions ++ object.functions
  | .assign _ _ value => value.functions
  | .field _ object _ => object.functions
  | .lambda _ parameters body => Stmt.functionsIn body ++ [⟨parameters, body⟩]

def Expr.functionsOf : List Expr → List FunctionTree
  | [] => []
  | first :: rest => first.functions ++ Expr.functionsOf rest

/-- The functions in a statement. -/
def Stmt.functions : Stmt → List FunctionTree
  | .expression _ value | .print _ value | .declare _ _ (some value) => value.functions
  | .declare _ _ none | .struct .. | .breakLoop _ | .continueLoop _ => []
  | .block _ body => Stmt.functionsIn body
  | .function _ _ parameters body => Stmt.functionsIn body ++ [⟨parameters, body⟩]
  | .ret _ (some value) => value.functions
  | .ret _ none => []
  | .branch _ condition yes none => condition.functions ++ Stmt.functionsIn yes
  | .branch _ condition yes (some no) =>
    condition.functions ++ Stmt.functionsIn yes ++ Stmt.functionsIn no
  | .loop _ none body => Stmt.functionsIn body
  | .loop _ (some condition) body => condition.functions ++ Stmt.functionsIn body

def Stmt.functionsIn : List Stmt → List FunctionTree
  | [] => []
  | first :: rest => first.functions ++ Stmt.functionsIn rest

end

namespace Instr

/-- The slots of the running frame that an instruction refers to are in use. A closure lies above the
slots that it captures, one of which may be its own. -/
def Reaches (height : Nat) : Instr → Prop
  | getLocal n | setLocal n => n < height
  | closure _ captures => ∀ c ∈ captures, c.isLocal = true → c.index ≤ height
  | _ => True

end Instr

namespace Chunk

/-- So many values lie above the base of the frame before each instruction. Heights are those of a
stack as long as operands, which have 32 bits, can tell them. -/
structure Disciplined (chunk : Chunk) (heights : Nat → Nat) : Prop where
  entry : heights 0 = chunk.parameterCount
  each : ∀ offset i, chunk.Boundary offset → chunk.instr? offset = some i →
    heights offset < Compile.wordLimit →
      i.takes ≤ heights offset ∧ i.Reaches (heights offset) ∧
      ∀ target ∈ i.targets offset, heights target = heights offset - i.takes + i.gives

end Chunk

example : Instr.decode? (Instr.call 4294967296).encode.toArray 0 = some (.call 0) := by decide

namespace Compile

/-- The chunk has heights, which between statements are the numbers of locals: each local, the latest
first, has the slot in which its value was pushed. -/
def Ruled (chunk : Chunk) (seams : Nat → State → Prop) : Prop :=
  ∃ heights, chunk.Disciplined heights ∧ ∀ offset u, seams offset u →
    chunk.Boundary offset ∧ heights offset = u.function.localCount ∧
      u.function.blocks.flatten.map (·.slot) = (List.range (heights offset)).reverse

/-- The compiler has made this chunk of the function. -/
def Makes (source : Source) (fn : FunctionTree) (chunk : Chunk) : Prop :=
  ∃ name line span s inside body finished,
    beginFunction source fn.parameters span s = .ok () inside ∧
    stmts source none fn.body inside = .ok body finished ∧
    chunk = ⟨name,fn.parameters.length,finished.function.captures.length,
      (body ++ .one line .loadNil ++ .one line .ret : Fragment).code,
      (body ++ .one line .loadNil ++ .one line .ret : Fragment).lines,
      finished.function.constants⟩ ∧ Ruled chunk (Seam source none fn.body inside)

/-- And it has assembled its code. -/
def Assembles (source : Source) (fn : FunctionTree) (chunk : Chunk) : Prop :=
  Makes source fn chunk ∧ ∃ emitted, chunk.Assembled emitted

/-- These functions were finished between two states, each in its way. Chunks that are now among the
constants, or among those of a chunk that was finished, were finished before. -/
structure Finishes (make : FunctionTree → Chunk → Prop) (functions : List FunctionTree)
    (s t : State) : Prop where
  enclosing : t.enclosing.map (·.constants) = s.enclosing.map (·.constants)
  finished : ∃ new, t.finished = s.finished ++ new ∧ List.Forall₂ make functions new ∧
    (∀ chunk, .function chunk ∈ t.function.constants →
      .function chunk ∈ s.function.constants ∨ chunk ∈ new) ∧
    ∀ chunk ∈ new, ∀ inner, .function inner ∈ chunk.constants → inner ∈ new

variable {source : Source} {span : Span} {line : Nat} {s t u : State} {α β : Type}
  {make : FunctionTree → Chunk → Prop} {functions more : List FunctionTree}

/-- Nothing is finished when no function is added. -/
theorem Finishes.same (enclosing : t.enclosing.map (·.constants) = s.enclosing.map (·.constants))
    (finished : t.finished = s.finished)
    (constants : ∀ chunk, .function chunk ∈ t.function.constants →
      .function chunk ∈ s.function.constants) : Finishes make [] s t :=
  ⟨enclosing,[],by rw [finished,List.append_nil],.nil,fun chunk member => .inl (constants chunk member),
    by simp⟩

theorem Finishes.refl (s : State) : Finishes make [] s s :=
  .same rfl rfl fun _ => id

theorem Finishes.trans (first : Finishes make functions s t) (second : Finishes make more t u) :
    Finishes make (functions ++ more) s u := by
  obtain ⟨outside,new,grown,made,constants,closed⟩ := first
  obtain ⟨outsideToo,newer,grownToo,madeToo,constantsToo,closedToo⟩ := second
  refine ⟨outsideToo.trans outside,new ++ newer,by rw [grownToo,grown,List.append_assoc],
    List.rel_append made madeToo,fun chunk member => ?_,fun chunk member inner nested => ?_⟩
  · rcases constantsToo chunk member with old | fresh
    · exact (constants chunk old).imp_right (List.mem_append_left newer)
    · exact .inr (List.mem_append_right new fresh)
  · rcases List.mem_append.mp member with early | late
    · exact List.mem_append_left _ (closed chunk early inner nested)
    · exact List.mem_append_right _ (closedToo chunk late inner nested)

theorem Finishes.imp {other : FunctionTree → Chunk → Prop} (finishes : Finishes make functions s t)
    (more : ∀ fn chunk, make fn chunk → other fn chunk) : Finishes other functions s t := by
  obtain ⟨outside,new,grown,made,constants,closed⟩ := finishes
  exact ⟨outside,new,grown,made.imp more,constants,closed⟩

/-- A part of the compiler finishes these functions, and keeps what is under construction in order. -/
def Lists (make : FunctionTree → Chunk → Prop) (functions : List FunctionTree) (x : Compiler α) :
    Prop :=
  ∀ s a t, x s = .ok a t → s.Regular → t.Regular ∧ Finishes make functions s t

theorem Lists.bind {x : Compiler α} {k : α → Compiler β} (first : Lists make functions x)
    (rest : ∀ a, Lists make more (k a)) : Lists make (functions ++ more) (x >>= k) := by
  intro s b t run regular
  obtain ⟨a,mid,head,tail⟩ := bind_ok run
  obtain ⟨kept,finishes⟩ := first s a mid head regular
  obtain ⟨last,finishesToo⟩ := rest a mid b t tail kept
  exact ⟨last,finishes.trans finishesToo⟩

/-- First something that finishes no function. -/
theorem Lists.skip {x : Compiler α} {k : α → Compiler β} (first : Lists make [] x)
    (rest : ∀ a, Lists make functions (k a)) : Lists make functions (x >>= k) :=
  first.bind rest

/-- Last something that finishes no function. -/
theorem Lists.close {x : Compiler α} {k : α → Compiler β} (first : Lists make functions x)
    (rest : ∀ a, Lists make [] (k a)) : Lists make functions (x >>= k) := by
  simpa using first.bind rest

theorem Lists.pure (a : α) : Lists make [] (Pure.pure a : Compiler α) := by
  intro s b t run regular
  cases run
  exact ⟨regular,.refl s⟩

theorem Lists.refuse (cause : Diagnostic.Cause) (span : Span) :
    Lists make functions (Compile.refuse source cause span : Compiler α) := by
  intro s a t run
  cases run

theorem Lists.get {k : State → Compiler β} (rest : ∀ s, Lists make functions (k s)) :
    Lists make functions (MonadState.get >>= k) := by
  intro s b t run regular
  obtain ⟨_,_,got,run⟩ := bind_ok run
  cases got
  exact rest s s b t run regular

theorem Lists.ite {c : Prop} [Decidable c] {yes no : Compiler α} (first : Lists make functions yes)
    (second : Lists make functions no) : Lists make functions (if c then yes else no) := by
  split
  · exact first
  · exact second

/-- What is no function is no function among the constants either. -/
theorem Lists.constant {c : Constant Chunk} (plain : ∀ chunk, c ≠ .function chunk) :
    Lists make [] (Compile.constant source c span) := by
  intro s n t run regular
  obtain ⟨kept,-⟩ := constant_spec run regular fun chunk same => absurd same (plain chunk)
  refine ⟨kept,?_⟩
  obtain ⟨-,rfl⟩ | ⟨-,-,-,rfl⟩ := constant_ok run
  · exact .refl t
  · refine .same rfl rfl fun chunk member => ?_
    rcases List.mem_append.mp member with old | new
    · exact old
    · exact absurd (List.mem_singleton.mp new).symm (plain chunk)

theorem Lists.name {text : Bytes} : Lists make [] (Compile.constant source (.string text) span) :=
  .constant (by simp)

theorem Lists.declare {name : Bytes} : Lists make [] (Compile.declare source name span) := by
  intro s a t run regular
  obtain ⟨kept,-⟩ := declare_spec run regular
  refine ⟨kept,?_⟩
  obtain ⟨-,-,rfl⟩ | ⟨block,outer,-,-,-,rfl⟩ := declare_ok run
  · exact .same rfl rfl fun _ => id
  · exact .same rfl rfl fun _ => id

theorem Lists.define {name : Bytes} : Lists make [] (Compile.define source line name span) :=
  .get fun _ => .ite (Lists.name.skip fun _ => .pure _) (.pure _)

/-- A search for a variable changes no constants. -/
theorem constants_resolveCapture {name : Bytes} {f g : FunctionScope}
    {enclosing around : List FunctionScope} {index : Nat}
    (found : resolveCapture name f enclosing = .captured index g around) :
    g.constants = f.constants ∧ around.map (·.constants) = enclosing.map (·.constants) := by
  induction enclosing generalizing f g around index with
  | nil => simp [resolveCapture] at found
  | cons outer rest ih =>
    rw [resolveCapture] at found
    split at found
    next slot known =>
      split at found
      next place larger added =>
        cases found
        exact ⟨constants_capture? added,rfl⟩
      next => contradiction
    next =>
      split at found
      next place larger beyond resolved =>
        obtain ⟨same,others⟩ := ih resolved
        split at found
        next position larger added =>
          cases found
          exact ⟨constants_capture? added,by rw [List.map_cons,List.map_cons,same,others]⟩
        next => contradiction
      next => contradiction
      next => contradiction

theorem Lists.variableInstr {onLocal onCapture onGlobal : Nat → Instr} {name : Bytes} :
    Lists make [] (Compile.variableInstr source onLocal onCapture onGlobal name span) := by
  intro s i t run regular
  obtain ⟨kept,-⟩ := variableInstr_spec run regular
  obtain ⟨slot,-,-,rfl⟩ | ⟨-,⟨index,function,enclosing,resolved,-,rfl⟩ | ⟨-,n,found,-⟩⟩ :=
    variableInstr_ok run
  · exact ⟨kept,.refl t⟩
  · obtain ⟨same,others⟩ := constants_resolveCapture resolved
    exact ⟨kept,.same others rfl fun chunk member => same ▸ member⟩
  · exact Lists.name s n t found regular

theorem Lists.openBlock : Lists make [] Compile.openBlock := by
  intro s a t run regular
  cases run
  exact ⟨regular_open regular,.same rfl rfl fun _ => id⟩

/-- The blocks around the one that is closed are in order. -/
theorem regular_closeBlock {f : Fragment} (run : Compile.closeBlock line s = .ok f t)
    (regular : s.Regular) : t.Regular := by
  obtain ⟨-,rfl⟩ := closeBlock_ok run
  have inner := Nested.regular regular
  cases blocks : s.function.blocks with
  | nil =>
    refine Nested.replace regular ?_ rfl
    rw [List.tail_nil,← blocks]
    exact inner
  | cons block outer => exact Nested.replace regular (inner.leave blocks) rfl

theorem Lists.closeBlock : Lists make [] (Compile.closeBlock line) := by
  intro s a t run regular
  refine ⟨regular_closeBlock run regular,?_⟩
  obtain ⟨rfl,rfl⟩ := closeBlock_ok run
  exact .same rfl rfl fun _ => id

theorem Lists.unwind {depth : Nat} : Lists make [] (Compile.unwind line depth) :=
  .get fun _ => .pure _

theorem Lists.checkDistance (distance : Nat) :
    Lists make [] (Compile.checkDistance source distance span) :=
  .ite (.pure _) (.refuse _ _)

theorem Lists.guarded {jumpOn : Bool} {code : Fragment} :
    Lists make [] (Compile.guarded source line jumpOn code span) :=
  (Lists.checkDistance _).skip fun _ => .pure _

theorem Lists.closeLoop {condition : Option Fragment} {body : Fragment} :
    Lists make [] (Compile.closeLoop source line condition body span) :=
  (Lists.checkDistance _).skip fun _ => .pure _

theorem Lists.fieldConstants (seen names : List Bytes) :
    Lists make [] (Compile.fieldConstants source span seen names) := by
  induction names generalizing seen with
  | nil => exact .pure _
  | cons name rest ih =>
    refine .ite ?_ (Lists.name.skip fun _ => (ih _).skip fun _ => .pure _)
    intro s a t run
    cases run

/-- Code that is known up to a final return gives its chunk heights. -/
theorem ruled_of_knotted (line : Nat) (name : Bytes) {front : Fragment} {mid : Point}
    {parameterCount count : Nat} {pool : List (Constant Chunk)} {seams : Nat → State → Prop}
    (knotted : Fragment.Knotted pool count none ⟨parameterCount,∅⟩ front mid (knotsOf seams))
    (ready : Instr.Ready pool count front.size .ret mid)
    (regular : ∀ offset u, seams offset u → u.Regular) :
    Ruled ⟨name,parameterCount,count,(front ++ .one line .ret : Fragment).code,
      (front ++ .one line .ret : Fragment).lines,pool⟩ seams := by
  obtain ⟨points,charted,entry,stop,known⟩ := knotted
  have chart := charted.chunk line name entry stop ready
  refine ⟨fun offset => (points offset).height,⟨entry.1.symm,?_⟩,?_⟩
  · intro offset i boundary found bounded
    obtain ⟨j,same,fits,leads⟩ := chart.next offset (chart.edge_of_boundary boundary found) bounded
    obtain rfl : i = j := Option.some_inj.mp (found.symm.trans same)
    refine ⟨fits.enough,?_,fun target member => (leads target member).2.1.symm⟩
    have legal := fits.legal
    cases i with
    | getLocal n => exact legal
    | setLocal n => exact legal
    | closure n captures =>
      intro c member isLocal
      simpa [isLocal] using legal.2 c member
    | _ => trivial
  · rintro offset u seam
    obtain ⟨edge,below⟩ := known offset _ ⟨u,seam,rfl⟩
    have height : (points offset).height = u.function.localCount := below.1.symm
    refine ⟨chart.aligned offset edge,height,?_⟩
    change _ = (List.range (points offset).height).reverse
    rw [height]
    exact (Nested.regular (regular offset u seam)).slots

theorem Lists.declareAll (names : List Bytes) :
    Lists make [] (Compile.declareAll source span names) := by
  induction names with
  | nil => exact .pure ()
  | cons first rest ih => exact Lists.declare.skip fun _ => ih

/-- A function starts with no constants. -/
theorem beginFunction_finishes {parameters : List Bytes}
    (begun : beginFunction source parameters span s = .ok () t) (regular : s.Regular) :
    t.enclosing.map (·.constants) = (s.function :: s.enclosing).map (·.constants) ∧
      t.finished = s.finished ∧ ∀ chunk, .function chunk ∉ t.function.constants := by
  rw [beginFunction] at begun
  obtain ⟨_,_,started,run⟩ := bind_ok begun
  cases started
  have fresh : FunctionScope.Regular ⟨[[]],[],[]⟩ :=
    ⟨rfl,Nat.zero_le _,Nat.zero_le _,by decide,by simp⟩
  have declared : Lists (fun _ _ => False) [] (declareAll source span parameters) :=
    .declareAll parameters
  obtain ⟨-,enclosing,new,finished,made,constants,-⟩ :=
    declared _ () t run ⟨fresh,by simp [FunctionScope.Linked],regular⟩
  obtain rfl := List.forall₂_nil_left_iff.mp made
  refine ⟨enclosing,finished.trans (List.append_nil _),fun chunk member => ?_⟩
  rcases constants chunk member with impossible | impossible
  · exact List.not_mem_nil impossible
  · exact List.not_mem_nil impossible

/-- The chunk of a function goes to the constants of the function around it. -/
theorem endFunction_finishes {name : Bytes} {count : Nat} {body f : Fragment} {chunk : Chunk}
    (ended : endFunction source line name count span body s = .ok f t)
    (made : chunk = ⟨name,count,s.function.captures.length,
      (body ++ .one line .loadNil ++ .one line .ret : Fragment).code,
      (body ++ .one line .loadNil ++ .one line .ret : Fragment).lines,s.function.constants⟩) :
    t.enclosing = s.enclosing.tail ∧ t.finished = s.finished ++ [chunk] ∧
      t.function.constants = (s.enclosing.headD .empty).constants ++ [.function chunk] ∧
      t.function.captures = (s.enclosing.headD .empty).captures ∧
      f = .one line (.closure (s.enclosing.headD .empty).constants.length s.function.captures) := by
  subst made
  rw [endFunction] at ended
  obtain ⟨_,_,got,ended⟩ := bind_ok ended
  cases got
  obtain ⟨_,_,stored,ended⟩ := bind_ok ended
  cases stored
  obtain ⟨n,_,found,ended⟩ := bind_ok ended
  cases ended
  obtain ⟨known,-⟩ | ⟨-,-,rfl,rfl⟩ := constant_ok found
  · have new {chunk : Chunk} :
        (s.enclosing.headD .empty).constants.findIdx? (sameConstant (.function chunk)) = none :=
      List.findIdx?_eq_none_iff.mpr fun c _ => by cases c <;> rfl
    exact absurd (new.symm.trans known) (by simp)
  · exact ⟨rfl,rfl,rfl,rfl,rfl⟩

theorem Lists.blockDepth : Lists make [] Compile.blockDepth :=
  .get fun _ => .pure _

theorem Lists.blockCode {loop : Option Nat} {body : List Stmt}
    (inner : Lists make functions (stmts source loop body)) :
    Lists make functions (Compile.blockCode source loop line body) :=
  Lists.openBlock.skip fun _ => inner.close fun _ => Lists.closeBlock.skip fun _ => .pure _

/-- A function as a whole: those in its body, and then the function itself. -/
theorem Lists.closureCode {name : Bytes} {parameters : List Bytes} {body : List Stmt}
    (inner : Lists (Assembles source) (Stmt.functionsIn body) (stmts source none body)) :
    Lists (Assembles source) (Stmt.functionsIn body ++ [⟨parameters,body⟩])
      (Compile.closureCode source line name parameters span body) := by
  intro s f t run regular
  rw [Compile.closureCode] at run
  obtain ⟨_,inside,begun,run⟩ := bind_ok run
  obtain ⟨code,last,compiled,ended⟩ := bind_ok run
  obtain ⟨started,noCells,count,-⟩ := beginFunction_spec begun regular
  have within : Within inside.function none := by simp [Within]
  have flowing := (compiled_flows source).2.1 none body inside code last compiled started within
  obtain ⟨kept,-⟩ := function_spec begun flowing ended regular
  refine ⟨kept,?_⟩
  obtain ⟨around,earlier,empty⟩ := beginFunction_finishes begun regular
  obtain ⟨-,enclosing,new,grown,made,constants,closed⟩ := inner inside code last compiled started
  have outside := enclosing.trans around
  obtain ⟨outer,others,nonempty,same,rest⟩ := List.map_eq_cons_iff.mp outside
  obtain ⟨tail,finished,pool,-⟩ := endFunction_finishes ended rfl
  have knotted := (compiled_stitched source).1 none body inside code last compiled started within ∅
    (Set.empty_subset _)
  have cells : last.function.cells ⊆ Set.Iio last.function.localCount :=
    fun _ => (Nested.regular flowing.regular).cells_lt
  rw [noCells,count,Set.union_self,Set.union_empty] at knotted
  have value : Fragment.Knotted last.function.constants last.function.captures.length none
      ⟨parameters.length,∅⟩ (code ++ .one line .loadNil)
      ⟨last.function.localCount + 1,last.function.cells⟩
      (knotsOf (Seam source none body inside)) :=
    (knotted.append (.of_flows (flows_plain .loadNil line trivial (fun _ => trivial) cells
      (Nat.zero_le _) rfl rfl rfl))).imp fun offset p knot => ⟨p,.inl knot,le_rfl⟩
  have ruled := ruled_of_knotted line name value
    ⟨Nat.le_add_left 1 _,fun _ member => Nat.lt_succ_of_lt (cells member),
      fun _ _ member => cells member,trivial,fun _ => trivial⟩
    fun offset u seam => seam_regular seam started within
  have plain : ∀ item ∈ Fragment.one line .loadNil ++ Fragment.one line .ret,
      ∃ i : Instr, item.step = .instr i ∧ i.Fits := by
    simp [Fragment.one,Instr.Fits]
  have assembled : ∃ emitted, Chunk.Assembled ⟨name,parameters.length,last.function.captures.length,
      (code ++ .one line .loadNil ++ .one line .ret : Fragment).code,
      (code ++ .one line .loadNil ++ .one line .ret : Fragment).lines,last.function.constants⟩
        emitted :=
    ⟨_,(flowing.flows ∅ (Set.empty_subset _)).assembled (by rw [List.append_assoc]) plain⟩
  refine ⟨by rw [tail,nonempty]; exact rest,_,by rw [finished,grown,earlier,List.append_assoc],
    List.rel_append made (.cons ⟨⟨name,line,span,s,inside,code,last,begun,compiled,rfl,ruled⟩,
      assembled⟩ .nil),
    fun chunk member => ?_,fun chunk member nested deeper => ?_⟩
  · rw [pool,nonempty,List.headD_cons,same] at member
    rcases List.mem_append.mp member with old | fresh
    · exact .inl old
    · cases List.mem_singleton.mp fresh
      exact .inr (List.mem_append_right _ List.mem_cons_self)
  · rcases List.mem_append.mp member with early | late
    · exact List.mem_append_left _ (closed chunk early nested deeper)
    · obtain rfl := List.mem_singleton.mp late
      rcases constants nested deeper with impossible | known
      · exact absurd impossible (empty nested)
      · exact List.mem_append_left _ known

end Compile

end ScriptMachine
