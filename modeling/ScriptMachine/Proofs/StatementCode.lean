import Mathlib
import ScriptMachine.Proofs.ExpressionCode

/-! The code of a statement does what the statement means. The variables of a block go with it, also when a
loop is left from the inside, and each round of a loop takes at least one step. -/
namespace ScriptMachine

namespace Code

open ScriptMachine.Action ScriptMachine.Compile

variable {code : Code} {host : Host} {limit o : Nat} {exits : Option Exits} {line : Nat}
  {names : List (List Bytes)} {temps : List Value} {w : World} {m : Machine}

/-- The variables of inner blocks are values on top of those of the blocks around. -/
theorem Stands.expose (stands : code.Stands ⟨o,names,[]⟩ w m) (count : Nat) :
    code.Stands ⟨o,names.drop count,(w.blocks.take count).flatten.map Prod.snd⟩
      { w with blocks := w.blocks.drop count } m := by
  have split : w.values = (w.blocks.take count).flatten.map Prod.snd ++
      World.values { w with blocks := w.blocks.drop count } := by
    simp only [World.values]
    rw [← List.map_append,← List.flatten_append,List.take_append_drop]
  have values := stands.values
  rw [split] at values
  refine ⟨?_,stands.plain,stands.function,stands.shuns,?_,?_,?_⟩
  · rw [stands.here,state,split]
    rfl
  · exact fun value member => values value (List.mem_append_left _ member)
  · exact fun value member => values value (List.mem_append_right _ member)
  · have same : w.names = names := stands.names
    change List.map (List.map Prod.fst) (w.blocks.drop count) = names.drop count
    rw [List.map_drop,← same]
    rfl

/-- There are as many values as names. -/
theorem length_exposed (same : w.names = names) (count : Nat) :
    ((w.blocks.take count).flatten.map Prod.snd).length = (names.take count).flatten.length := by
  rw [← same,World.names,← List.map_take,← List.map_flatten,List.length_map,List.length_map]

/-- The code at the end of a block takes the values of its variables off the stack. -/
theorem Does.discard {locals : Block} {values : List Value} (count : values.length = locals.length)
    (lies : (discard line locals).Lies code.chunk exits o) :
    code.Does host limit exits ⟨o,names,values ++ temps⟩ (Pure.pure ())
      fun _ => ⟨o + (discard line locals).size,names,temps⟩ := by
  induction locals generalizing values o with
  | nil =>
    obtain rfl := List.length_eq_zero_iff.mp count
    exact .pure (q := fun _ => ⟨o,names,temps⟩) ()
  | cons l rest ih =>
    obtain ⟨value,values,rfl⟩ := List.exists_cons_of_length_eq_add_one count
    obtain ⟨here,later⟩ := lies
    have size : (Compile.discard line (l :: rest)).size = 1 + (Compile.discard line rest).size := by
      cases known : l.captured <;> simp [Compile.discard,Fragment.size,Step.size,known,Instr.size]
    have behind : o + Step.size (.instr (if l.captured then .closeCell else .pop)) = o + 1 := by
      cases l.captured <;> rfl
    rw [behind] at later
    rw [size,← Nat.add_assoc]
    suffices first : code.Does host limit exits ⟨o,names,value :: values ++ temps⟩ (Pure.pure ())
        fun _ => ⟨o + 1,names,values ++ temps⟩ from first.before (ih (by simpa using count) later)
    change code.chunk.instr? o = some (Instr.stored (if l.captured then .closeCell else .pop)) at here
    cases known : l.captured with
    | true =>
      rw [known] at here
      exact .closeCell here
    | false =>
      rw [known] at here
      exact .pop here

end Code

namespace Compile

open ScriptMachine.Code

variable {source : Source} {span : Span} {line : Nat} {s t u : State} {code : Code} {host : Host}
  {limit : Nat} {loop : Option Nat} {exits : Option Exits} {f : Fragment}

/-! Blocks. -/

theorem names_open (s : State) : s.open.function.names = [] :: s.function.names := rfl

theorem Works.opens : Works code host limit exits s s.open [] []
    (modify fun w => { w with blocks := [] :: w.blocks }) fun _ => [] := by
  intro offset _ _ w m stands
  refine .of_eq (y := Pure.pure ()) (v := { w with blocks := [] :: w.blocks }) rfl (.pure ?_)
  refine ⟨stands.here,stands.plain,stands.function,stands.shuns,stands.temps,stands.values,?_⟩
  exact congrArg ([] :: ·) stands.names

/-- A block is closed in the state that it was opened in, but for its own variables. -/
theorem Works.closes {rest : Fragment} (closed : closeBlock line t = .ok rest u) {block : Block}
    {outer : List Block} (blocks : t.function.blocks = block :: outer) :
    Works code host limit exits t u rest []
      (modify fun w => { w with blocks := w.blocks.tail }) fun _ => [] := by
  obtain ⟨rfl,rfl⟩ := closeBlock_ok closed
  rw [blocks,List.headD_cons,List.tail_cons]
  intro offset _ lies w m stands
  have names : t.function.names = block.map (·.name) :: outer.map (List.map (·.name)) := by
    rw [FunctionScope.names,blocks,List.map_cons]
  have count : ((w.blocks.take 1).flatten.map Prod.snd).length = block.length := by
    rw [length_exposed stands.names 1,names]
    simp
  have exposed := stands.expose 1
  rw [names,List.drop_one] at exposed
  refine .of_eq (y := Pure.pure ()) (v := { w with blocks := w.blocks.tail }) rfl ?_
  rw [← List.drop_one]
  have does : code.Does host limit exits ⟨offset,outer.map (List.map (·.name)),_ ++ []⟩ (Pure.pure ())
      fun _ => ⟨_,outer.map (List.map (·.name)),[]⟩ := Does.discard count lies
  rw [List.append_nil] at does
  exact does _ m exposed

theorem Works.block {inner : Evaluation Unit} {body rest : Fragment} (opened : s.open.Extends t)
    (works : Works code host limit exits s.open t body [] inner fun _ => [])
    (closed : closeBlock line t = .ok rest u) :
    Works code host limit exits s u (body ++ rest) [] (Evaluation.inBlock inner) fun _ => [] := by
  obtain ⟨block,outer,blocks,-⟩ := blocks_inside opened
  have late : t.function.constants <+: u.function.constants := by
    rw [(closeBlock_ok closed).2]
  rw [Evaluation.inBlock,← List.nil_append (body ++ rest)]
  exact Works.opens.then (opened.function.constants.trans late) fun _ =>
    works.then late fun _ => .closes closed blocks

/-! Statements. -/

attribute [local simp] Evaluation.stmt Evaluation.stmts

/-- A loop around starts with some of the blocks that are open now, which are the outermost ones. -/
def Around (f : FunctionScope) (loop : Option Nat) (exits : Option Exits) : Prop :=
  ∀ depth, loop = some depth → ∃ e, exits = some e ∧ depth ≤ f.names.length ∧
    e.names = f.names.drop (f.names.length - depth)

/-- The code of a statement leaves nothing but the variables it declares. -/
def StmtWorks (source : Source) (code : Code) (host : Host) (limit : Nat) (loop : Option Nat)
    (st : Stmt) : Prop :=
  ∀ s f t, stmt source loop st s = .ok f t → s.Alone → Within s.function loop →
    st.functionless = true → ∀ exits, Around s.function loop exits →
      Works code host limit exits s t f [] (Evaluation.stmt host limit st) fun _ => []

def StmtsWork (source : Source) (code : Code) (host : Host) (limit : Nat) (loop : Option Nat)
    (sts : List Stmt) : Prop :=
  ∀ s f t, stmts source loop sts s = .ok f t → s.Alone → Within s.function loop →
    Stmt.functionlessAll sts = true → ∀ exits, Around s.function loop exits →
      Works code host limit exits s t f [] (Evaluation.stmts host limit sts) fun _ => []

theorem stmtWorks_expression {value : Expr} (inner : ExprWorks source code host limit value) :
    StmtWorks source code host limit loop (.expression span value) := by
  intro s f t run alone _ plain exits _
  rw [stmt] at run
  obtain ⟨a,_,first,run⟩ := bind_ok run
  cases run
  rw [Evaluation.stmt]
  refine (inner s a t first alone plain exits []).then List.prefix_rfl fun v => ?_
  exact .emit (.refl t) fun offset names _ here _ => .pop here

theorem stmtWorks_print {value : Expr} (inner : ExprWorks source code host limit value) :
    StmtWorks source code host limit loop (.print span value) := by
  intro s f t run alone _ plain exits _
  rw [stmt] at run
  obtain ⟨a,_,first,run⟩ := bind_ok run
  cases run
  rw [Evaluation.stmt]
  refine (inner s a t first alone plain exits []).then List.prefix_rfl fun v => ?_
  exact .emit (.refl t) fun offset names _ here _ => .print here

/-- A declaration in a block adds a name to it. -/
theorem names_declare {name : Bytes} (run : declare source name span s = .ok () t) :
    t.function.names = match s.function.names with
      | [] => []
      | block :: outer => (name :: block) :: outer := by
  obtain ⟨blocks,-,rfl⟩ | ⟨block,outer,blocks,-,-,rfl⟩ := declare_ok run <;>
    simp [FunctionScope.names,blocks]

/-- The declared value is taken off the stack, or is where the variable is. -/
theorem Works.stored {name : Bytes} (alone : s.Alone) (declared : declare source name span s = .ok () t)
    (defined : define source line name span t = .ok f u) (value : Value) :
    Works code host limit exits s u f [value] (Evaluation.define name value) fun _ => [] := by
  obtain ⟨regular,-,-,-,same,-,-⟩ := declare_spec declared alone.regular
  have names := names_declare declared
  rw [define] at defined
  obtain ⟨_,_,got,defined⟩ := bind_ok defined
  cases got
  cases blocks : s.function.blocks with
  | nil =>
    have outside : t.function.blocks.isEmpty = true := by simpa using same.mpr blocks
    simp only [outside,↓reduceIte] at defined
    obtain ⟨n,_,found,defined⟩ := bind_ok defined
    cases defined
    obtain ⟨-,raises,-,-,there⟩ := constant_string found regular
    have before : s.function.names = [] := by simp [FunctionScope.names,blocks]
    have after : u.function.names = [] := by
      rw [raises.function.names,names,before]
    refine .one fun offset here pool => ?_
    rw [before,after]
    exact .defineGlobal here (known pool there)
  | cons block outer =>
    have inside : t.function.blocks.isEmpty = false := by simp [same,blocks]
    simp only [inside,Bool.false_eq_true,↓reduceIte] at defined
    cases defined
    have before : s.function.names = block.map (·.name) :: outer.map (List.map (·.name)) := by
      simp [FunctionScope.names,blocks]
    intro offset _ _
    rw [names,before]
    exact .define offset

theorem constants_define {name : Bytes} (alone : s.Alone)
    (declared : declare source name span s = .ok () t)
    (defined : define source line name span t = .ok f u) :
    s.function.constants <+: u.function.constants := by
  obtain ⟨regular,grown,-⟩ := declare_spec declared alone.regular
  obtain ⟨-,raises,-⟩ := define_spec defined regular
  exact grown.function.constants.trans raises.function.constants

theorem stmtWorks_declareNil {name : Bytes} :
    StmtWorks source code host limit loop (.declare span name none) := by
  intro s f t run alone _ _ exits _
  rw [stmt] at run
  obtain ⟨_,mid,declared,run⟩ := bind_ok run
  obtain ⟨rest,_,defined,run⟩ := bind_ok run
  cases run
  rw [Evaluation.stmt]
  have pushes : Works code host limit exits s s (.one (source.line span.start) .loadNil) []
      (Pure.pure Value.nil) fun value => [value] :=
    .emit (.refl s) fun offset names _ here _ => literal here rfl (by simp)
  exact pushes.then (constants_define alone declared defined) fun value =>
    .stored alone declared defined value

theorem stmtWorks_declare {name : Bytes} {value : Expr} (inner : ExprWorks source code host limit value) :
    StmtWorks source code host limit loop (.declare span name (some value)) := by
  intro s f t run alone _ plain exits _
  rw [stmt] at run
  obtain ⟨a,mid,first,run⟩ := bind_ok run
  obtain ⟨_,late,declared,run⟩ := bind_ok run
  obtain ⟨rest,_,defined,run⟩ := bind_ok run
  cases run
  have valued := (compiled_flows source).1 value s a mid first alone.regular
  have still := valued.alone alone
  rw [Evaluation.stmt]
  exact (inner s a mid first alone plain exits []).then (constants_define still declared defined)
    fun v => .stored still declared defined v

/-! Statements in blocks. -/

theorem State.Alone.open (alone : s.Alone) : s.open.Alone :=
  ⟨regular_open alone.regular,alone.enclosing⟩

theorem Around.open (around : Around s.function loop exits) : Around s.open.function loop exits := by
  intro depth known
  obtain ⟨e,inside,bound,same⟩ := around depth known
  have more : (s.function.names.length + 1) - depth = (s.function.names.length - depth) + 1 := by omega
  refine ⟨e,inside,Nat.le_succ_of_le bound,?_⟩
  rw [names_open,List.length_cons,more,List.drop_succ_cons,same]

/-- New variables are in the innermost block, which is inside of the loop around. -/
theorem Around.extend (around : Around s.function loop exits) (within : Within s.function loop)
    (grown : s.Extends t) : Around t.function loop exits := by
  intro depth known
  obtain ⟨e,inside,bound,same⟩ := around depth known
  obtain ⟨new,layout⟩ := grown.function.layout
  have low := within depth known
  have names : t.function.names = s.function.names.modifyHead (new.map Prod.fst ++ ·) := by
    rw [FunctionScope.names_layout,FunctionScope.names_layout,layout]
    cases s.function.layout <;> simp
  have length : s.function.names.length = s.function.blocks.length := by
    rw [FunctionScope.names,List.length_map]
  refine ⟨e,inside,by rwa [names,List.length_modifyHead],?_⟩
  rw [names,List.length_modifyHead,same]
  cases whole : s.function.names with
  | nil => rfl
  | cons block outer =>
    rw [whole,List.length_cons] at length
    have some : outer.length + 1 - depth = (outer.length - depth) + 1 := by omega
    rw [List.length_cons,some,List.modifyHead_cons,List.drop_succ_cons,List.drop_succ_cons]

/-- Some statements in a block of their own. -/
theorem StmtsWork.inBlock {body : List Stmt} {a rest : Fragment}
    (inner : StmtsWork source code host limit loop body) (alone : s.Alone)
    (within : Within s.open.function loop) (plain : Stmt.functionlessAll body = true)
    (around : Around s.open.function loop exits) (first : stmts source loop body s.open = .ok a t)
    (closed : closeBlock line t = .ok rest u) :
    Works code host limit exits s u (a ++ rest) []
      (Evaluation.inBlock (Evaluation.stmts host limit body)) fun _ => [] := by
  have flowing := (compiled_flows source).2.1 loop body s.open a t first alone.open.regular within
  exact .block flowing.grown (inner s.open a t first alone.open within plain exits around) closed

theorem stmtWorks_block {body : List Stmt} (inner : StmtsWork source code host limit loop body) :
    StmtWorks source code host limit loop (.block span body) := by
  intro s f t run alone within plain exits around
  rw [stmt_block] at run
  obtain ⟨a,mid,rest,first,closed,rfl⟩ := blockCode_ok run
  rw [Evaluation.stmt]
  exact inner.inBlock alone within.open plain around.open first closed

theorem stmtWorks_struct {name : Bytes} {fields : List Bytes} :
    StmtWorks source code host limit loop (.struct span name fields) := by
  intro s f t run alone _ _ exits _
  rw [stmt] at run
  obtain ⟨labels,mid,placed,run⟩ := bind_ok run
  obtain ⟨title,late,found,run⟩ := bind_ok run
  obtain ⟨_,_,declared,run⟩ := bind_ok run
  obtain ⟨rest,_,defined,run⟩ := bind_ok run
  cases run
  obtain ⟨kept,raises,-,-,same⟩ := fieldConstants_spec [] fields placed alone.regular
  obtain ⟨keptToo,more,-,-,there⟩ := constant_string found kept
  have still : late.Alone := alone.extend keptToo (raises.trans more).extends
  have count : labels.length = fields.length := by simpa using congrArg List.length same
  have makes : Works code host limit exits s late
      (.one (source.line span.start) (.createStruct title labels)) [] (do
        let title ← Evaluation.intern name
        let handles ← Evaluation.internAll fields
        Evaluation.create (.struct title handles) (Footprint.struct handles.length))
      fun value => [value] := by
    refine .emit (raises.trans more) fun offset names _ here pool => ?_
    have each : ∀ l ∈ labels.zip fields, code.chunk.constants[l.1]? = some (.string l.2) := by
      intro l member
      obtain ⟨i,bound,rfl⟩ := List.mem_iff_getElem.mp member
      have place := congrArg (·[i]?) same
      simp only [List.length_zip] at bound
      have left : i < labels.length := by omega
      have right : i < fields.length := by omega
      simp only [List.getElem?_map,List.getElem?_eq_getElem left,List.getElem?_eq_getElem right,
        Option.map_some,Option.some_inj] at place
      rw [List.getElem_zip]
      exact known pool (known more.function.constants place)
    have first : (labels.zip fields).map Prod.fst = labels := List.map_fst_zip count.le
    have second : (labels.zip fields).map Prod.snd = fields := List.map_snd_zip count.ge
    have does : code.Does host limit exits ⟨offset,names,[]⟩ _
        fun value => ⟨_,names,[value]⟩ :=
      .createStruct (by rw [first]; exact here) (known pool there) each
    rw [first,second] at does
    exact does
  rw [Evaluation.stmt]
  have whole : ∀ define : Value → Evaluation Unit, (do
      let title ← Evaluation.intern name
      let labels ← Evaluation.internAll fields
      let struct ← Evaluation.create (.struct title labels) (Footprint.struct labels.length)
      define struct) = (do
        let title ← Evaluation.intern name
        let handles ← Evaluation.internAll fields
        Evaluation.create (.struct title handles) (Footprint.struct handles.length)) >>= define := by
    intro define
    simp only [bind_assoc]
  rw [whole]
  exact makes.then (constants_define still declared defined) fun v =>
    .stored still declared defined v

/-! Branches. -/

/-- Nothing is left open by a block. -/
theorem block_kept {body : List Stmt} {a rest : Fragment} (alone : s.Alone)
    (around : ∀ depth, loop = some depth → depth ≤ s.function.blocks.length)
    (first : stmts source loop body s.open = .ok a t) (closed : closeBlock line t = .ok rest u) :
    u.Alone ∧ s.Raises u := by
  have flowing := (compiled_flows source).2.1 loop body s.open a t first alone.open.regular
    fun depth known => Nat.lt_succ_of_le (around depth known)
  obtain ⟨regular,raises,-⟩ := block_spec alone.regular flowing closed around
  exact ⟨alone.extend regular raises.extends,raises⟩

theorem stmtWorks_branch {condition : Expr} {yes : List Stmt}
    (test : ExprWorks source code host limit condition)
    (inner : StmtsWork source code host limit loop yes) :
    StmtWorks source code host limit loop (.branch span condition yes none) := by
  intro s f t run alone within plain exits around
  obtain ⟨testPlain,innerPlain⟩ := Bool.and_eq_true_iff.mp plain
  rw [stmt_branch] at run
  obtain ⟨a,mid,first,run⟩ := bind_ok run
  obtain ⟨_,last,block,run⟩ := bind_ok run
  obtain ⟨whole,_,tested,run⟩ := bind_ok run
  cases run
  obtain ⟨b,late,rest,second,closed,rfl⟩ := blockCode_ok block
  obtain ⟨rfl,-,rfl⟩ := guarded_spec tested
  have valued := (compiled_flows source).1 condition s a mid first alone.regular
  have still := valued.alone alone
  have inside := within.mono valued.raises.function.extends
  have nearby := around.extend within valued.raises.extends
  obtain ⟨-,raises⟩ := block_kept still inside.le second closed
  rw [Evaluation.stmt]
  refine (test s a mid first alone testPlain exits []).then raises.function.constants fun v => ?_
  intro offset pool lies
  obtain ⟨jump,body⟩ := Fragment.lies_append.mp lies
  have block := inner.inBlock still inside.open innerPlain nearby.open second closed _ pool body
  rw [Fragment.size_append,← Nat.add_assoc]
  refine (Does.jumpIf (Fragment.lies_one.mp jump)).bind fun holds => ?_
  cases holds with
  | true => exact block
  | false =>
    rw [raises.function.names]
    exact .pure (q := fun _ => ⟨offset + 5 + (b ++ rest).size,mid.function.names,[]⟩) ()

theorem stmtWorks_branchElse {condition : Expr} {yes no : List Stmt}
    (test : ExprWorks source code host limit condition)
    (inner : StmtsWork source code host limit loop yes)
    (other : StmtsWork source code host limit loop no) :
    StmtWorks source code host limit loop (.branch span condition yes (some no)) := by
  intro s f t run alone within plain exits around
  obtain ⟨plain,otherPlain⟩ := Bool.and_eq_true_iff.mp plain
  obtain ⟨testPlain,innerPlain⟩ := Bool.and_eq_true_iff.mp plain
  rw [stmt_branchElse] at run
  obtain ⟨a,mid,first,run⟩ := bind_ok run
  obtain ⟨_,middle,block,run⟩ := bind_ok run
  obtain ⟨_,last,blockToo,run⟩ := bind_ok run
  obtain ⟨_,_,checked,run⟩ := bind_ok run
  obtain ⟨whole,_,tested,run⟩ := bind_ok run
  cases run
  obtain ⟨b,late,rest,second,closed,rfl⟩ := blockCode_ok block
  obtain ⟨c,later,rest',third,closedToo,rfl⟩ := blockCode_ok blockToo
  obtain ⟨rfl,-⟩ := checkDistance_spec checked
  obtain ⟨rfl,-,rfl⟩ := guarded_spec tested
  have valued := (compiled_flows source).1 condition s a mid first alone.regular
  have still := valued.alone alone
  have inside := within.mono valued.raises.function.extends
  have nearby := around.extend within valued.raises.extends
  obtain ⟨stillToo,raises⟩ := block_kept still inside.le second closed
  have insideToo := inside.mono raises.function.extends
  have nearbyToo := nearby.extend inside raises.extends
  obtain ⟨-,raisesToo⟩ := block_kept stillToo insideToo.le third closedToo
  rw [Evaluation.stmt,List.append_assoc]
  refine (test s a mid first alone testPlain exits []).then
    (raises.trans raisesToo).function.constants fun v => ?_
  intro offset pool lies
  obtain ⟨front,instead⟩ := Fragment.lies_append.mp lies
  obtain ⟨jump,front⟩ := Fragment.lies_append.mp front
  obtain ⟨body,skip⟩ := Fragment.lies_append.mp front
  have block := inner.inBlock still inside.open innerPlain nearby.open second closed _
    (raisesToo.function.constants.trans pool) body
  have alternative := other.inBlock stillToo insideToo.open otherPlain nearbyToo.open third closedToo _
    pool instead
  have behind : code.Does host limit exits ⟨_,middle.function.names,[]⟩ (Pure.pure ())
      fun _ => ⟨_,middle.function.names,[]⟩ := .jump (Fragment.lies_one.mp skip)
  rw [raisesToo.function.names,raises.function.names] at alternative ⊢
  rw [raises.function.names] at block behind
  simp only [Fragment.size_append,Fragment.size_one,Instr.size,← Nat.add_assoc] at block behind
  simp only [Fragment.size_append,Fragment.size_one,Instr.size,← Nat.add_assoc] at alternative ⊢
  refine (Does.jumpIf (Fragment.lies_one.mp jump)).bind fun holds => ?_
  cases holds with
  | true => exact block.behind fun _ => behind
  | false =>
    simp only [Fragment.size_append,Fragment.size_one,Instr.size,← Nat.add_assoc]
    exact alternative

end Compile

end ScriptMachine
