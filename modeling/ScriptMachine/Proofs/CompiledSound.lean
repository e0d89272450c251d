import Mathlib
import ScriptMachine.Proofs.CompiledFlow
import ScriptMachine.Proofs.Locating

/-! Every chunk the compiler makes is sound. A block gives back the slots of its locals, and the
rounds of a loop start and end at one point, which allows for all cells that the loop may open. -/
namespace ScriptMachine.Compile

variable {source : Source} {span : Span} {line : Nat} {s t u : State} {loop : Option Nat}

/-! Blocks. -/

/-- Opening or closing a block does not touch the locals of the blocks around it. -/
theorem outerCount_cons {f g : FunctionScope} {block : Block} {depth : Nat}
    (blocks : f.blocks = block :: g.blocks) (around : depth ≤ g.blocks.length) :
    f.outerCount depth = g.outerCount depth := by
  have skip : g.blocks.length + 1 - depth = (g.blocks.length - depth) + 1 := by omega
  simp [FunctionScope.outerCount,FunctionScope.layout,blocks,skip]

theorem loopHeight_cons {f g : FunctionScope} {block : Block}
    (blocks : f.blocks = block :: g.blocks)
    (around : ∀ depth, loop = some depth → depth ≤ g.blocks.length) :
    loopHeight f loop = loopHeight g loop := by
  cases loop with
  | none => rfl
  | some depth => exact outerCount_cons blocks (around depth rfl)

/-- The state inside of a new block. -/
def State.open (s : State) : State :=
  { s with function := { s.function with blocks := [] :: s.function.blocks } }

theorem cells_open (s : State) : s.open.function.cells = s.function.cells := by
  simp [State.open,FunctionScope.cells]

theorem localCount_open (s : State) : s.open.function.localCount = s.function.localCount := by
  simp [State.open,FunctionScope.localCount]

theorem regular_open (regular : s.Regular) : s.open.Regular := by
  have inner := Nested.regular regular
  refine Nested.replace regular ⟨?_,?_,inner.captures,inner.constants,inner.nested⟩ rfl
  · rw [localCount_open]
    exact inner.slots
  · rw [localCount_open]
    exact inner.locals

theorem Within.open (within : Within s.function loop) : Within s.open.function loop :=
  fun depth known => Nat.lt_succ_of_lt (within depth known)

/-- The block of a loop is one in which the loop has started. -/
theorem within_open (blocks : s.function.blocks.length = t.function.blocks.length) :
    Within t.open.function (some s.function.blocks.length) := by
  rintro _ ⟨⟩
  exact blocks ▸ Nat.lt_succ_self _

theorem blockCode_ok {body : List Stmt} {f : Fragment}
    (run : blockCode source loop line body s = .ok f t) : ∃ code mid rest,
      stmts source loop body s.open = .ok code mid ∧ closeBlock line mid = .ok rest t ∧
        f = code ++ rest := by
  rw [blockCode] at run
  obtain ⟨_,_,opened,run⟩ := bind_ok run
  cases opened
  obtain ⟨code,mid,compiled,run⟩ := bind_ok run
  obtain ⟨rest,_,closed,run⟩ := bind_ok run
  cases run
  exact ⟨code,mid,rest,compiled,closed,rfl⟩

/-- Inside of a new block only that block gets locals. -/
theorem blocks_inside (grown : s.open.Extends t) : ∃ block outer,
    t.function.blocks = block :: outer ∧
      ({ t.function with blocks := outer } : FunctionScope).layout = s.function.layout := by
  obtain ⟨new,layout⟩ := grown.function.layout
  cases blocks : t.function.blocks with
  | nil => simp [FunctionScope.layout,blocks,State.open] at layout
  | cons block outer =>
    simp only [FunctionScope.layout,blocks,State.open,List.map_cons,List.modifyHead_cons] at layout
    exact ⟨block,outer,rfl,(List.cons.inj layout).2⟩

/-- Leaving a block inside of a loop does not change the point of the loop. -/
theorem loopPoint_leave {f : FunctionScope} (regular : f.Regular) {block : Block}
    {outer : List Block} (blocks : f.blocks = block :: outer)
    (around : ∀ depth, loop = some depth → depth ≤ outer.length) (more : Set Nat) :
    ∀ p, loopPoint f loop more = some p →
      ∃ q, loopPoint { f with blocks := outer } loop more = some q ∧ p ≤ q := by
  intro p known
  cases loop with
  | none => simp [loopPoint] at known
  | some depth =>
    have rooms : f.outerCount depth =
        ({ f with blocks := outer } : FunctionScope).outerCount depth :=
      outerCount_cons blocks (around depth rfl)
    have high := ({ f with blocks := outer } : FunctionScope).outerCount_le depth
    simp only [loopPoint,Option.map_some,Option.some_inj] at known ⊢
    refine ⟨_,rfl,?_⟩
    rw [← known,rooms]
    refine ⟨rfl,?_⟩
    rintro slot ⟨captured | other,below⟩
    · exact ⟨.inl (regular.cells_leave blocks ⟨captured,Nat.lt_of_lt_of_le below high⟩),below⟩
    · exact ⟨.inr other,below⟩

/-- The end of a block discards its locals, and otherwise leaves everything as it is. -/
theorem dropped_spec {body rest : Fragment} (regular : s.Regular)
    (flowing : Flowing s.open t loop body) (closed : closeBlock line t = .ok rest u)
    (around : ∀ depth, loop = some depth → depth ≤ s.function.blocks.length) :
    u.Regular ∧ s.Raises u ∧ u.function.constants = t.function.constants ∧
      u.function.captures = t.function.captures ∧ ∀ more ⊆ Set.Iio (loopHeight s.function loop),
        Fragment.Flows u.function.constants u.function.captures.length
          (loopPoint t.function loop more) ⟨t.function.localCount,t.function.cells ∪ more⟩ rest
          ⟨s.function.localCount,u.function.cells ∪ more⟩ ∧
        ∀ p, loopPoint t.function loop more = some p →
          ∃ q, loopPoint u.function loop more = some q ∧ p ≤ q := by
  have inner := Nested.regular flowing.regular
  obtain ⟨block,outer,blocks,layout⟩ := blocks_inside flowing.grown
  obtain ⟨rfl,rfl⟩ := closeBlock_ok closed
  rw [blocks,List.headD_cons,List.tail_cons]
  have count : outer.flatten.length = s.function.localCount := by
    rw [s.function.localCount_layout,← layout,← FunctionScope.localCount_layout]
    rfl
  have total : t.function.localCount = s.function.localCount + block.length := by
    rw [FunctionScope.localCount,blocks,List.flatten_cons,List.length_append,count,Nat.add_comm]
  have depths : outer.length = s.function.blocks.length := by
    rw [← FunctionScope.length_layout,← layout,FunctionScope.length_layout]
  have leave := inner.cells_leave blocks
  rw [count] at leave
  have kept : s.function.cells ⊆ ({ t.function with blocks := outer } : FunctionScope).cells := by
    intro slot member
    have opened : slot ∈ s.open.function.cells := cells_open s ▸ member
    exact leave ⟨flowing.grown.function.cells opened,(Nested.regular regular).cells_lt member⟩
  refine ⟨Nested.replace flowing.regular (inner.leave blocks) rfl,
    ⟨⟨layout,kept,flowing.grown.function.captures,flowing.grown.function.constants⟩,
      flowing.grown.enclosing⟩,rfl,rfl,?_⟩
  intro more inside
  refine ⟨?_,loopPoint_leave inner blocks (depths ▸ around) more⟩
  have low : more ⊆ Set.Iio s.function.localCount :=
    inside.trans (Set.Iio_subset_Iio (loopHeight_le s.function loop))
  have slots := (inner.split [block] blocks).1
  rw [count] at slots
  simp only [List.flatten_cons,List.flatten_nil,List.append_nil] at slots
  have dropped : Fragment.Flows t.function.constants t.function.captures.length
      (loopPoint t.function loop more)
      ⟨s.function.localCount + block.length,t.function.cells ∪ more⟩ (discard line block)
      ⟨s.function.localCount,(t.function.cells ∪ more) ∩ Set.Iio s.function.localCount⟩ := by
    refine flows_discard line block _ slots ?_ ?_
    · exact total ▸ cells_below inner le_rfl (low.trans (Set.Iio_subset_Iio (by omega)))
    · rintro l member (captured | other)
      · exact inner.captured (by simp [blocks,member]) captured
      · have found : l.slot ∈ block.map (·.slot) := List.mem_map_of_mem member
        rw [slots] at found
        simp only [List.mem_reverse,List.mem_map] at found
        obtain ⟨k,-,above⟩ := found
        have : l.slot < s.function.localCount := low other
        omega
  rw [total]
  refine dropped.weaken le_rfl ⟨rfl,?_⟩
  rintro slot ⟨captured | other,below⟩
  · exact .inl (leave ⟨captured,below⟩)
  · exact .inr other

/-- The code in a block, before its locals are discarded. -/
theorem Flowing.inside {body : Fragment} (flowing : Flowing s.open t loop body)
    (around : ∀ depth, loop = some depth → depth ≤ s.function.blocks.length) :
    ∀ more ⊆ Set.Iio (loopHeight s.function loop),
      Fragment.Flows t.function.constants t.function.captures.length
        (loopPoint t.function loop more) ⟨s.function.localCount,s.function.cells ∪ more⟩ body
        ⟨t.function.localCount,t.function.cells ∪ more⟩ := by
  intro more inside
  have code := flowing.flows more (by rwa [loopHeight_cons rfl around])
  rwa [localCount_open,cells_open] at code

/-- A block leaves as many values as it found. -/
theorem block_spec {body rest : Fragment} (regular : s.Regular)
    (flowing : Flowing s.open t loop body) (closed : closeBlock line t = .ok rest u)
    (around : ∀ depth, loop = some depth → depth ≤ s.function.blocks.length) :
    u.Regular ∧ s.Raises u ∧ ∀ more ⊆ Set.Iio (loopHeight s.function loop),
      Fragment.Flows u.function.constants u.function.captures.length
        (loopPoint u.function loop more) ⟨s.function.localCount,s.function.cells ∪ more⟩
        (body ++ rest) ⟨s.function.localCount,u.function.cells ∪ more⟩ := by
  obtain ⟨kept,raises,constants,captures,drops⟩ := dropped_spec regular flowing closed around
  refine ⟨kept,raises,fun more inside => ?_⟩
  obtain ⟨dropped,laxer⟩ := drops more inside
  have code := flowing.inside around more inside
  rw [← constants,← captures] at code
  exact (code.append dropped).mono List.prefix_rfl le_rfl laxer

/-! Statements. -/

/-- The statements of a block, and the code that discards its locals. -/
theorem StmtsFlow.block {body : List Stmt} {f : Fragment} (inner : StmtsFlow source loop body)
    (run : blockCode source loop line body s = .ok f t) (regular : s.Regular)
    (within : Within s.function loop) :
    t.Regular ∧ s.Raises t ∧ ∀ more ⊆ Set.Iio (loopHeight s.function loop),
      Fragment.Flows t.function.constants t.function.captures.length
        (loopPoint t.function loop more) ⟨s.function.localCount,s.function.cells ∪ more⟩ f
        ⟨s.function.localCount,t.function.cells ∪ more⟩ := by
  obtain ⟨code,mid,rest,compiled,closed,rfl⟩ := blockCode_ok run
  exact block_spec regular (inner s.open code mid compiled (regular_open regular) within.open) closed
    within.le

theorem Valued.flowing {f : Fragment} (valued : Valued 0 s t f) (loop : Option Nat) :
    Flowing s t loop f := by
  refine ⟨valued.regular,valued.raises.extends,fun more inside => ?_⟩
  rw [valued.raises.function.localCount]
  exact (valued.flows _ le_rfl more
    (inside.trans (Set.Iio_subset_Iio (loopHeight_le s.function loop)))).anywhere _

theorem stmtFlows_expression {value : Expr} (inner : ExprFlows source value) :
    StmtFlows source loop (.expression span value) := by
  intro s f t run regular within
  rw [stmt] at run
  obtain ⟨a,_,first,run⟩ := bind_ok run
  cases run
  have valued := inner s a t first regular
  have used : Valued 0 s t (a ++ .one (source.line span.start) .pop) :=
    valued.emit (.refl t) valued.regular _ (fun _ _ => trivial) (fun _ => trivial) le_rfl rfl rfl rfl
  exact used.flowing loop

theorem stmtFlows_print {value : Expr} (inner : ExprFlows source value) :
    StmtFlows source loop (.print span value) := by
  intro s f t run regular within
  rw [stmt] at run
  obtain ⟨a,_,first,run⟩ := bind_ok run
  cases run
  have valued := inner s a t first regular
  have used : Valued 0 s t (a ++ .one (source.line span.start) .print) :=
    valued.emit (.refl t) valued.regular _ (fun _ _ => trivial) (fun _ => trivial) le_rfl rfl rfl rfl
  exact used.flowing loop

/-- Outside of all blocks there are no locals. -/
theorem localCount_outside {f : FunctionScope} (outside : f.blocks = []) : f.localCount = 0 := by
  simp [FunctionScope.localCount,outside]

/-- A declaration: the value is left on the stack, which is where the local is, or goes to a
global. Only its own cell may be open above the locals of before. -/
theorem Flowing.stored {name : Bytes} {value rest : Fragment} (regular : t.Regular)
    (grown : s.Extends t) (same : t.function.blocks = [] ↔ s.function.blocks = [])
    (count : t.function.localCount = s.function.localCount +
      (if s.function.blocks = [] then 0 else 1))
    (flows : ∀ more ⊆ Set.Iio (loopHeight s.function loop), ∀ around,
      Fragment.Flows t.function.constants t.function.captures.length around
        ⟨s.function.localCount,s.function.cells ∪ more⟩ value
        ⟨s.function.localCount + 1,t.function.cells ∪ more⟩)
    (defined : define source line name span t = .ok rest u) : Flowing s u loop (value ++ rest) := by
  obtain ⟨kept,raises,-,stores⟩ := define_spec defined regular
  refine ⟨kept,grown.trans raises.extends,fun more inside => ?_⟩
  have first := (flows more inside (loopPoint u.function loop more)).mono
    raises.function.constants raises.function.captures.length_le (fun p known => ⟨p,known,le_rfl⟩)
  have second := stores (loopPoint u.function loop more) s.function.localCount
    (t.function.cells ∪ more) (by
      intro outside
      have none := localCount_outside (same.mp outside)
      have zero := loopHeight_le s.function loop
      rw [none] at zero
      refine cells_below (Nested.regular regular) (by rw [count,same.mp outside]; simp) ?_
      rw [localCount_outside outside]
      exact inside.trans (Set.Iio_subset_Iio zero))
  refine (first.append second).weaken le_rfl ⟨?_,?_⟩
  · simp only [same,← count]
    exact raises.function.localCount.symm
  · exact Set.union_subset_union_left _ raises.function.cells

/-- The value of a declaration, computed before its name is declared. -/
theorem Valued.declared {name : Bytes} {value : Fragment} (valued : Valued 1 s t value)
    (declared : declare source name span t = .ok () u) (more : Set Nat)
    (inside : more ⊆ Set.Iio (loopHeight s.function loop)) (around : Option Point) :
    Fragment.Flows u.function.constants u.function.captures.length around
      ⟨s.function.localCount,s.function.cells ∪ more⟩ value
      ⟨s.function.localCount + 1,u.function.cells ∪ more⟩ := by
  obtain ⟨-,-,cells,-,-,constants,captures⟩ := declare_spec declared valued.regular
  rw [constants,captures,cells]
  exact (valued.flows _ le_rfl more
    (inside.trans (Set.Iio_subset_Iio (loopHeight_le s.function loop)))).anywhere around

theorem Flowing.declared {name : Bytes} {value rest : Fragment} {last : State}
    (valued : Valued 1 s t value) (declared : declare source name span t = .ok () u)
    (defined : define source line name span u = .ok rest last) :
    Flowing s last loop (value ++ rest) := by
  obtain ⟨kept,grown,-,count,same,-,-⟩ := declare_spec declared valued.regular
  have blocks : t.function.blocks = [] ↔ s.function.blocks = [] := by
    rw [← List.length_eq_zero_iff,← List.length_eq_zero_iff,valued.raises.function.length_blocks]
  refine .stored kept (valued.raises.extends.trans grown) (same.trans blocks) ?_
    (valued.declared declared) defined
  rw [count,valued.raises.function.localCount]
  simp only [blocks]

theorem stmtFlows_declareNil {name : Bytes} :
    StmtFlows source loop (.declare span name none) := by
  intro s f t run regular within
  rw [stmt] at run
  obtain ⟨_,mid,declared,run⟩ := bind_ok run
  obtain ⟨rest,_,defined,run⟩ := bind_ok run
  cases run
  have valued : Valued 1 s s (.one (source.line span.start) .loadNil) :=
    .push (.refl s) regular regular _ (fun _ _ => trivial) (fun _ => trivial) rfl rfl rfl rfl
  exact .declared valued declared defined

theorem stmtFlows_declare {name : Bytes} {value : Expr} (inner : ExprFlows source value) :
    StmtFlows source loop (.declare span name (some value)) := by
  intro s f t run regular within
  rw [stmt] at run
  obtain ⟨a,mid,first,run⟩ := bind_ok run
  obtain ⟨_,late,declared,run⟩ := bind_ok run
  obtain ⟨rest,_,defined,run⟩ := bind_ok run
  cases run
  exact .declared (inner s a mid first regular) declared defined

theorem stmtFlows_block {body : List Stmt} (inner : StmtsFlow source loop body) :
    StmtFlows source loop (.block span body) := by
  intro s f t run regular within
  rw [stmt_block] at run
  obtain ⟨kept,raises,flows⟩ := inner.block run regular within
  refine ⟨kept,raises.extends,fun more inside => ?_⟩
  rw [raises.function.localCount]
  exact flows more inside

/-- The name is declared first, so that the function may call itself. -/
theorem stmtFlows_function {name : Bytes} {parameters : List Bytes} {body : List Stmt}
    (inner : StmtsFlow source none body) :
    StmtFlows source loop (.function span name parameters body) := by
  intro s f t run regular within
  rw [stmt] at run
  obtain ⟨_,mid,declared,run⟩ := bind_ok run
  obtain ⟨_,inside,begun,run⟩ := bind_ok run
  obtain ⟨code,finished,compiled,run⟩ := bind_ok run
  obtain ⟨closure,late,ended,run⟩ := bind_ok run
  obtain ⟨rest,_,defined,run⟩ := bind_ok run
  cases run
  obtain ⟨kept,grown,cells,count,same,-,-⟩ := declare_spec declared regular
  have flowing := inner inside code finished compiled (beginFunction_spec begun kept).1
    (by simp [Within])
  obtain ⟨keptToo,raises,flows⟩ := function_spec begun flowing ended kept
  have blocks : late.function.blocks = [] ↔ mid.function.blocks = [] := by
    rw [← List.length_eq_zero_iff,← List.length_eq_zero_iff,raises.function.length_blocks]
  refine .stored keptToo (grown.trans raises.extends) (blocks.trans same)
    (raises.function.localCount.trans count) ?_ defined
  intro more low around
  rw [← cells]
  refine flows around s.function.localCount more (by rw [count]; split <;> omega) ?_
  rw [cells]
  exact cells_below (Nested.regular regular) le_rfl
    (low.trans (Set.Iio_subset_Iio (loopHeight_le s.function loop)))

/-- The field names of a struct are distinct, and so are the constants that hold them. -/
theorem fieldConstants_spec (seen names : List Bytes) {labels : List Nat}
    (run : fieldConstants source span seen names s = .ok labels t) (regular : s.Regular) :
    t.Regular ∧ s.Raises t ∧ names.Nodup ∧ (∀ name ∈ names, name ∉ seen) ∧
      labels.map (t.function.constants[·]?) = names.map fun name => some (.string name) := by
  induction names generalizing s seen labels with
  | nil =>
    rw [fieldConstants] at run
    cases run
    exact ⟨regular,.refl t,List.nodup_nil,by simp,rfl⟩
  | cons name rest ih =>
    rw [fieldConstants] at run
    by_cases known : name ∈ seen
    · have found : seen.contains name = true := by simpa using known
      simp only [found,↓reduceIte] at run
      cases run
    · have fresh : seen.contains name = false := by simpa using known
      simp only [fresh,Bool.false_eq_true,↓reduceIte] at run
      obtain ⟨first,mid,placed,run⟩ := bind_ok run
      obtain ⟨others,_,later,run⟩ := bind_ok run
      cases run
      obtain ⟨kept,raises,-,-,here⟩ := constant_string placed regular
      obtain ⟨last,more,distinct,new,same⟩ := ih (name :: seen) later kept
      refine ⟨last,raises.trans more,List.nodup_cons.mpr ⟨?_,distinct⟩,?_,?_⟩
      · exact fun again => new name again List.mem_cons_self
      · intro other member
        rcases List.mem_cons.mp member with rfl | later
        · exact known
        · exact fun old => new other later (List.mem_cons_of_mem _ old)
      · obtain ⟨added,grown⟩ := more.function.constants
        have still : t.function.constants[first]? = some (.string name) := by
          rw [← grown,List.getElem?_append_left (List.getElem?_eq_some_iff.mp here).1,here]
        simp [still,same]

/-- There are no more fields than constants, hence their number fits. -/
theorem length_labels {pool : List (Constant Chunk)} {labels : List Nat} {names : List Bytes}
    (distinct : names.Nodup)
    (same : labels.map (pool[·]?) = names.map fun name => some (.string name)) :
    labels.length ≤ pool.length := by
  have separate : (labels.map (pool[·]?)).Nodup := by
    rw [same]
    exact distinct.map fun a b equal => by simpa using equal
  have bounded : labels ⊆ List.range pool.length := by
    intro n member
    have found : pool[n]? ∈ labels.map (pool[·]?) := List.mem_map_of_mem member
    rw [same] at found
    obtain ⟨name,-,here⟩ := List.mem_map.mp found
    exact List.mem_range.mpr (List.getElem?_eq_some_iff.mp here.symm).1
  simpa using (List.subperm_of_subset separate.of_map bounded).length_le

theorem stmtFlows_struct {name : Bytes} {fields : List Bytes} :
    StmtFlows source loop (.struct span name fields) := by
  intro s f t run regular within
  rw [stmt] at run
  obtain ⟨labels,mid,placed,run⟩ := bind_ok run
  obtain ⟨title,late,found,run⟩ := bind_ok run
  obtain ⟨_,_,declared,run⟩ := bind_ok run
  obtain ⟨rest,_,defined,run⟩ := bind_ok run
  cases run
  obtain ⟨kept,raises,distinct,-,same⟩ := fieldConstants_spec [] fields placed regular
  obtain ⟨keptToo,more,small,-,known⟩ := constant_string found kept
  have limit := (Nested.regular kept).constants
  have few := length_labels distinct same
  have each (n : Nat) (member : n ∈ labels) :
      n < wordLimit ∧ Instr.Names mid.function.constants n := by
    have found : mid.function.constants[n]? ∈ labels.map (mid.function.constants[·]?) :=
      List.mem_map_of_mem member
    rw [same] at found
    obtain ⟨label,-,here⟩ := List.mem_map.mp found
    exact ⟨(List.getElem?_eq_some_iff.mp here.symm).1.trans limit,label,here.symm⟩
  have valued : Valued 1 s late (.one (source.line span.start) (.createStruct title labels)) := by
    refine .push (raises.trans more) keptToo regular _ (fun _ _ => ⟨⟨name,known⟩,?_⟩)
      (fun _ => ⟨small,Nat.lt_of_le_of_lt few limit,fun n member => (each n member).1⟩) rfl rfl
      (by simp [Instr.targets]) rfl
    exact fun n member => (each n member).2.mono more.function.constants
  exact .declared valued declared defined

/-- A return leaves nothing behind, so any height and any cells may follow. -/
theorem Valued.ret {f : Fragment} (valued : Valued 1 s t f) (line : Nat) :
    Flowing s t loop (f ++ .one line .ret) := by
  refine ⟨valued.regular,valued.raises.extends,fun more inside => ?_⟩
  have low := inside.trans (Set.Iio_subset_Iio (loopHeight_le s.function loop))
  have below := valued.below low
  exact ((valued.flows _ le_rfl more low).anywhere _).append
    (.ret _ ⟨Nat.le_add_left 1 _,fun _ member => Nat.lt_succ_of_lt (below member),
      fun _ _ member => below member,trivial,fun _ => trivial⟩)

theorem stmtFlows_ret {value : Option Expr} (inner : ∀ e, value = some e → ExprFlows source e) :
    StmtFlows source loop (.ret span value) := by
  intro s f t run regular within
  rw [stmt] at run
  obtain ⟨_,_,got,run⟩ := bind_ok run
  cases got
  by_cases outermost : s.enclosing.isEmpty = true
  · simp only [outermost,↓reduceIte] at run
    cases run
  · simp only [outermost,Bool.false_eq_true,↓reduceIte] at run
    cases value with
    | some value =>
      obtain ⟨a,_,first,run⟩ := bind_ok run
      cases run
      exact (inner value rfl s a t first regular).ret _
    | none =>
      cases run
      have valued : Valued 1 s s (.one (source.line span.start) .loadNil) :=
        .push (.refl s) regular regular _ (fun _ _ => trivial) (fun _ => trivial) rfl rfl rfl rfl
      exact valued.ret _

/-! Branches. -/

theorem stmtFlows_branch {condition : Expr} {yes : List Stmt} (test : ExprFlows source condition)
    (inner : StmtsFlow source loop yes) :
    StmtFlows source loop (.branch span condition yes none) := by
  intro s f t run regular within
  rw [stmt_branch] at run
  obtain ⟨a,mid,first,run⟩ := bind_ok run
  obtain ⟨code,_,compiled,run⟩ := bind_ok run
  obtain ⟨tested,_,jumped,run⟩ := bind_ok run
  cases run
  obtain ⟨rfl,small,rfl⟩ := guarded_spec jumped
  have valued := test s a mid first regular
  obtain ⟨kept,raises,flows⟩ := inner.block compiled valued.regular
    (within.mono valued.raises.function.extends)
  refine ⟨kept,valued.raises.extends.trans raises.extends,fun more inside => ?_⟩
  have same := valued.raises.function.localCount
  have low := inside.trans (Set.Iio_subset_Iio (loopHeight_le s.function loop))
  have body := flows more (by rwa [loopHeight_extends valued.raises.function.extends within])
  rw [same] at body
  rw [raises.function.localCount,same]
  refine (flows_later raises.function.extends _ (valued.flows _ le_rfl more low)).append
    (.guarded (ready_jumpIf false small (valued.below low)) (after_jumpIf _ _ _ _) ?_ body)
  exact ⟨rfl,Set.union_subset_union_left _ raises.function.cells⟩

theorem stmtFlows_branchElse {condition : Expr} {yes no : List Stmt}
    (test : ExprFlows source condition) (inner : StmtsFlow source loop yes)
    (other : StmtsFlow source loop no) :
    StmtFlows source loop (.branch span condition yes (some no)) := by
  intro s f t run regular within
  rw [stmt_branchElse] at run
  obtain ⟨a,mid,first,run⟩ := bind_ok run
  obtain ⟨code,between,compiled,run⟩ := bind_ok run
  obtain ⟨codeToo,last,compiledToo,run⟩ := bind_ok run
  obtain ⟨_,_,checked,run⟩ := bind_ok run
  obtain ⟨tested,_,jumped,run⟩ := bind_ok run
  cases run
  obtain ⟨rfl,short⟩ := checkDistance_spec checked
  obtain ⟨rfl,small,rfl⟩ := guarded_spec jumped
  have valued := test s a mid first regular
  have here := within.mono valued.raises.function.extends
  obtain ⟨kept,raises,flows⟩ := inner.block compiled valued.regular here
  have there := here.mono raises.function.extends
  obtain ⟨keptToo,raisesToo,flowsToo⟩ := other.block compiledToo kept there
  refine ⟨keptToo,valued.raises.extends.trans (raises.trans raisesToo).extends,?_⟩
  intro more inside
  have same := valued.raises.function.localCount
  have sameToo := raises.function.localCount.trans same
  have low := inside.trans (Set.Iio_subset_Iio (loopHeight_le s.function loop))
  have level := loopHeight_extends valued.raises.function.extends within
  have body := (flows more (by rwa [level])).mono raisesToo.function.constants
    raisesToo.function.captures.length_le (loopPoint_mono raisesToo.function.extends there more)
  have bodyToo := flowsToo more (by rwa [loopHeight_extends raises.function.extends here,level])
  rw [same] at body
  rw [sameToo] at bodyToo
  rw [raisesToo.function.localCount,sameToo]
  have below : t.function.cells ∪ more ⊆ Set.Iio s.function.localCount :=
    cells_below (Nested.regular keptToo) (raisesToo.function.localCount.trans sameToo).le
      (by rwa [raisesToo.function.localCount,sameToo])
  have early := Set.union_subset_union_left more raises.function.cells
  have grown := Set.union_subset_union_left more raisesToo.function.cells
  have size : (code ++ Fragment.one (source.line span.start) (.jump codeToo.size)).size =
      code.size + 5 := by
    simp [Instr.size]
  rw [size] at small ⊢
  have shape (head yes jump no : Fragment) :
      a ++ (head ++ (yes ++ jump)) ++ no = a ++ (head ++ (yes ++ (jump ++ no))) := by simp
  rw [shape]
  refine (flows_later (raises.trans raisesToo).function.extends _
    (valued.flows _ le_rfl more low)).append
    (.branch (ready_jumpIf false small (valued.below low)) (after_jumpIf _ _ _ _) ?_
      (body.weaken le_rfl ⟨rfl,grown⟩) (bodyToo.weaken ⟨rfl,early⟩ le_rfl))
  exact ⟨Nat.zero_le _,below,fun _ => below,trivial,fun _ => short⟩

/-! Loops. -/

theorem outerCount_all (f : FunctionScope) : f.outerCount f.blocks.length = f.localCount := by
  rw [FunctionScope.outerCount,FunctionScope.length_layout,Nat.sub_self,List.drop_zero,
    FunctionScope.localCount_layout]

/-- What one round runs, closed to a loop by the jump back. -/
theorem flows_rounds {round : Fragment} {h total : Nat} {cells : Set Nat}
    {pool : List (Constant Chunk)} {count : Nat} (around : Option Point)
    (small : total < wordLimit) (whole : round.size + 5 = total) (below : cells ⊆ Set.Iio h)
    (flows : Fragment.Flows pool count (some ⟨h,cells⟩) ⟨h,cells⟩ (round ++ [⟨.nextRound,line⟩])
      ⟨h,cells⟩) :
    Fragment.Flows pool count around ⟨h,cells⟩
      ((round ++ Fragment.one line (.jumpBack total)).closeLoop total 0) ⟨h,cells⟩ := by
  rw [Fragment.closeLoop_jumpBack whole]
  exact .closeLoop small (by simpa [Fragment.size,Step.size] using whole) below flows

/-- The rounds of a loop, with or without a condition, start and end at a point that allows for
every cell opened in the loop. -/
theorem closeLoop_spec {condition : Option Fragment} {body f : Fragment} {h : Nat}
    {cells : Set Nat} {pool : List (Constant Chunk)} {count : Nat} {around : Option Point}
    (run : closeLoop source line condition body span s = .ok f t) (below : cells ⊆ Set.Iio h)
    (test : ∀ code, condition = some code →
      Fragment.Flows pool count (some ⟨h,cells⟩) ⟨h,cells⟩ code ⟨h + 1,cells⟩)
    (flows : Fragment.Flows pool count (some ⟨h,cells⟩) ⟨h,cells⟩ body ⟨h,cells⟩) :
    t = s ∧ Fragment.Flows pool count around ⟨h,cells⟩ f ⟨h,cells⟩ := by
  have again : Fragment.Flows pool count (some ⟨h,cells⟩) ⟨h,cells⟩
      (body ++ [⟨.nextRound,line⟩]) ⟨h,cells⟩ :=
    flows.append (.openJump _ (.inr rfl) le_rfl)
  have length : Fragment.size (body ++ [⟨.nextRound,line⟩]) = body.size + 5 := by
    simp [Fragment.size,Step.size]
  cases condition with
  | none =>
    unfold closeLoop at run
    obtain ⟨_,_,checked,done⟩ := bind_ok run
    obtain ⟨rfl,small⟩ := checkDistance_spec checked
    cases done
    exact ⟨rfl,flows_rounds around small (by simp [Fragment.size]) below again⟩
  | some code =>
    unfold closeLoop at run
    obtain ⟨_,_,checked,done⟩ := bind_ok run
    obtain ⟨rfl,small⟩ := checkDistance_spec checked
    cases done
    refine ⟨rfl,flows_rounds around small (by simp [Nat.add_assoc]) below ?_⟩
    have distance : Fragment.size (body ++ [⟨.nextRound,line⟩]) < wordLimit := by
      rw [length]
      exact Nat.lt_of_le_of_lt (by simp) small
    have skips : Fragment.Flows pool count (some ⟨h,cells⟩) ⟨h + 1,cells⟩
        (.one line (.jumpIf false (Fragment.size (body ++ [⟨.nextRound,line⟩]))) ++
          (body ++ [⟨.nextRound,line⟩])) ⟨h,cells⟩ :=
      .guarded (ready_jumpIf false distance below) (after_jumpIf _ _ _ _) le_rfl again
    rw [length] at skips
    simpa using (test code rfl).append skips

/-- All cells that may be open in a loop are assumed open at its start: the condition and the block
around which the loop goes flow from there, and back to there. -/
theorem rounds_spec (loop : Option Nat) {check : Option Fragment} {code rest : Fragment}
    {mid late last : State}
    (regular : mid.Regular) (raises : s.Raises mid)
    (test : ∀ condition, check = some condition → Valued 1 s mid condition)
    (flowing : Flowing mid.open late (some s.function.blocks.length) code)
    (closed : closeBlock line late = .ok rest last) :
    last.Regular ∧ s.Raises last ∧
      loopHeight mid.function (some s.function.blocks.length) = s.function.localCount ∧
      ∀ others ⊆ Set.Iio (loopHeight s.function loop), ∀ cells,
        cells = last.function.cells ∪ others →
        s.function.cells ⊆ cells ∧ cells ⊆ Set.Iio s.function.localCount ∧
        mid.function.cells ∪ cells = cells ∧ last.function.cells ∪ cells = cells ∧
        (∀ condition, check = some condition →
          Fragment.Flows last.function.constants last.function.captures.length
            (some ⟨s.function.localCount,cells⟩) ⟨s.function.localCount,cells⟩ condition
            ⟨s.function.localCount + 1,cells⟩) ∧
        ∀ p, loopPoint last.function (some s.function.blocks.length) cells = some p →
          ∃ q, some (⟨s.function.localCount,cells⟩ : Point) = some q ∧ p ≤ q := by
  have depth := raises.function.length_blocks
  have same := raises.function.localCount
  obtain ⟨kept,more,-⟩ := block_spec regular flowing closed (by
    rintro _ ⟨⟩
    exact depth.ge)
  have sameToo := more.function.localCount.trans same
  have room : last.function.outerCount s.function.blocks.length = s.function.localCount := by
    rw [← depth,← more.function.length_blocks,outerCount_all,sameToo]
  have grown : s.function.cells ⊆ last.function.cells :=
    raises.function.cells.trans more.function.cells
  refine ⟨kept,raises.trans more,?_,?_⟩
  · rw [loopHeight,← depth,outerCount_all,same]
  rintro others inside cells rfl
  have low := inside.trans (Set.Iio_subset_Iio (loopHeight_le s.function loop))
  have below : last.function.cells ∪ others ⊆ Set.Iio s.function.localCount :=
    cells_below (Nested.regular kept) sameToo.le (by rwa [sameToo])
  have absorb (cells : Set Nat) (part : cells ⊆ last.function.cells) :
      cells ∪ (last.function.cells ∪ others) = last.function.cells ∪ others :=
    Set.union_eq_self_of_subset_left (part.trans Set.subset_union_left)
  refine ⟨grown.trans Set.subset_union_left,below,absorb _ more.function.cells,
    absorb _ subset_rfl,fun condition known => ?_,fun p known => ?_⟩
  · have value := (test condition known).flows _ le_rfl _ below
    rw [absorb _ grown,absorb _ more.function.cells] at value
    exact flows_later more.function.extends _ value
  · simp only [loopPoint,Option.map_some,Option.some_inj,room] at known
    exact ⟨_,rfl,by rw [← known,absorb _ subset_rfl]; exact ⟨rfl,Set.inter_subset_left⟩⟩

/-- A loop around a block, behind a condition that was compiled if there is one. -/
theorem Flowing.rounds {check : Option Fragment} {code rest f : Fragment} {mid late last : State}
    (regular : mid.Regular) (raises : s.Raises mid)
    (test : ∀ condition, check = some condition → Valued 1 s mid condition)
    (flowing : Flowing mid.open late (some s.function.blocks.length) code)
    (closed : closeBlock line late = .ok rest last)
    (looped : closeLoop source line check (code ++ rest) span last = .ok f t) :
    Flowing s t loop f := by
  obtain ⟨kept,grown,level,frames⟩ := rounds_spec loop regular raises test flowing closed
  obtain ⟨-,-,flows⟩ := block_spec regular flowing closed (by
    rintro _ ⟨⟩
    exact raises.function.length_blocks.ge)
  have every (others : Set Nat) (inside : others ⊆ Set.Iio (loopHeight s.function loop)) :
      t = last ∧ Fragment.Flows last.function.constants last.function.captures.length
        (loopPoint last.function loop others)
        ⟨s.function.localCount,last.function.cells ∪ others⟩ f
        ⟨s.function.localCount,last.function.cells ∪ others⟩ := by
    obtain ⟨-,below,before,after,check,laxer⟩ := frames others inside _ rfl
    refine closeLoop_spec looped below check ?_
    have body := flows (last.function.cells ∪ others) (by rwa [level])
    rw [raises.function.localCount,before,after] at body
    exact body.mono List.prefix_rfl le_rfl laxer
  obtain rfl := (every ∅ (Set.empty_subset _)).1
  refine ⟨kept,grown.extends,fun others inside => ?_⟩
  rw [grown.function.localCount]
  exact (every others inside).2.weaken
    ⟨rfl,Set.union_subset_union_left _ grown.function.cells⟩ le_rfl

theorem stmtFlows_loop {condition : Option Expr} {body : List Stmt}
    (test : ∀ e, condition = some e → ExprFlows source e)
    (inner : ∀ depth, StmtsFlow source (some depth) body) :
    StmtFlows source loop (.loop span condition body) := by
  intro s f t run regular within
  cases condition with
  | none =>
    rw [stmt_loop] at run
    obtain ⟨_,_,counted,run⟩ := bind_ok run
    cases counted
    obtain ⟨_,last,block,looped⟩ := bind_ok run
    obtain ⟨code,late,rest,compiled,closed,rfl⟩ := blockCode_ok block
    have flowing := inner _ s.open code late compiled (regular_open regular) (within_open rfl)
    exact .rounds regular (.refl s) (by simp) flowing closed looped
  | some condition =>
    rw [stmt_while] at run
    obtain ⟨_,_,counted,run⟩ := bind_ok run
    cases counted
    obtain ⟨a,mid,first,run⟩ := bind_ok run
    obtain ⟨_,last,block,looped⟩ := bind_ok run
    obtain ⟨code,late,rest,compiled,closed,rfl⟩ := blockCode_ok block
    have valued := test condition rfl s a mid first regular
    have flowing := inner _ mid.open code late compiled (regular_open valued.regular)
      (within_open valued.raises.function.length_blocks.symm)
    refine .rounds valued.regular valued.raises ?_ flowing closed looped
    rintro _ ⟨⟩
    exact valued

/-- The locals of the blocks around a loop. -/
theorem outerCount_drop (f : FunctionScope) (depth : Nat) :
    f.outerCount depth = (f.blocks.drop (f.blocks.length - depth)).flatten.length := by
  rw [FunctionScope.outerCount,FunctionScope.length_layout,FunctionScope.layout,← List.map_drop]
  simp [List.length_flatten,Function.comp_def]

/-- A jump out of a loop, or to its next round, first discards the variables declared in it. -/
theorem Flowing.openJump {depth : Nat} {f : Fragment} {step : Step} (regular : s.Regular)
    (run : unwind line depth s = .ok f t) (isOpen : step = .leaveLoop ∨ step = .nextRound) :
    Flowing s t (some depth) (f ++ [⟨step,line⟩]) := by
  have inner := Nested.regular regular
  rw [unwind] at run
  obtain ⟨_,_,got,run⟩ := bind_ok run
  cases got
  cases run
  refine ⟨regular,.refl s,fun more inside => ?_⟩
  have blocks := (List.take_append_drop (s.function.blocks.length - depth) s.function.blocks).symm
  have slots := (inner.split _ blocks).1
  have total : s.function.localCount = s.function.outerCount depth +
      (s.function.blocks.take (s.function.blocks.length - depth)).flatten.length := by
    rw [outerCount_drop,Nat.add_comm,← List.length_append,← List.flatten_append,← blocks,
      FunctionScope.localCount]
  rw [← outerCount_drop] at slots
  have low : more ⊆ Set.Iio s.function.localCount :=
    inside.trans (Set.Iio_subset_Iio (s.function.outerCount_le depth))
  have code : (s.function.blocks.take (s.function.blocks.length - depth)).flatMap (discard line) =
      discard line (s.function.blocks.take (s.function.blocks.length - depth)).flatten := by
    unfold discard
    rw [List.map_flatten,List.flatMap_def]
  rw [code]
  refine Fragment.Flows.append ?_ (.openJump _ isOpen le_rfl)
  rw [total]
  refine flows_discard line _ _ slots ?_ ?_
  · exact total ▸ cells_below inner le_rfl low
  · rintro l member (captured | other)
    · refine inner.captured ?_ captured
      rw [blocks,List.flatten_append]
      exact List.mem_append_left _ member
    · have found : l.slot ∈ (s.function.blocks.take
          (s.function.blocks.length - depth)).flatten.map (·.slot) := List.mem_map_of_mem member
      rw [slots] at found
      simp only [List.mem_reverse,List.mem_map] at found
      obtain ⟨k,-,above⟩ := found
      have : l.slot < s.function.outerCount depth := inside other
      omega

theorem stmtFlows_breakLoop : StmtFlows source loop (.breakLoop span) := by
  intro s f t run regular within
  cases loop with
  | none =>
    rw [stmt] at run
    cases run
  | some depth =>
    rw [stmt] at run
    obtain ⟨code,_,unwound,run⟩ := bind_ok run
    cases run
    exact .openJump regular unwound (.inl rfl)

theorem stmtFlows_continueLoop : StmtFlows source loop (.continueLoop span) := by
  intro s f t run regular within
  cases loop with
  | none =>
    rw [stmt] at run
    cases run
  | some depth =>
    rw [stmt] at run
    obtain ⟨code,_,unwound,run⟩ := bind_ok run
    cases run
    exact .openJump regular unwound (.inr rfl)

theorem stmtsFlow_nil : StmtsFlow source loop [] := by
  intro s f t run regular within
  rw [stmts] at run
  cases run
  exact ⟨regular,.refl s,fun _ _ => .nil le_rfl⟩

theorem stmtsFlow_cons {first : Stmt} {rest : List Stmt} (head : StmtFlows source loop first)
    (tail : StmtsFlow source loop rest) : StmtsFlow source loop (first :: rest) := by
  intro s f t run regular within
  rw [stmts] at run
  obtain ⟨a,mid,first,run⟩ := bind_ok run
  obtain ⟨b,_,second,run⟩ := bind_ok run
  cases run
  have flowing := head s a mid first regular within
  exact flowing.then (tail mid b t second flowing.regular (within.mono flowing.grown.function))
    within

/-- By induction over the tree, each kind of expression and statement in turn. -/
theorem compiled_flows (source : Source) :
    (∀ e, ExprFlows source e) ∧ (∀ loop sts, StmtsFlow source loop sts) ∧
      (∀ loop st, StmtFlows source loop st) ∧ ∀ es, ExprsFlow source es := by
  refine expr.mutual_induct source (ExprFlows source) (StmtsFlow source) (StmtFlows source)
    (ExprsFlow source) ?number ?string ?bool ?nil ?binary ?logical ?unary ?name ?call ?assignName
    ?assignField ?assignOther ?field ?lambda ?expression ?print ?declareNil ?declare ?block
    ?function ?struct ?ret ?branch ?branchElse ?loop ?breakLoop ?breakOutside ?continueLoop
    ?continueOutside ?noExprs ?exprs ?noStmts ?stmts
  case number => exact fun _ value => exprFlows_number value
  case string => exact fun _ text => exprFlows_string text
  case bool => exact fun _ value => exprFlows_bool value
  case nil => exact fun _ => exprFlows_nil
  case binary => exact fun _ _ _ _ left right => exprFlows_binary left right
  case logical => exact fun _ _ _ _ left right => exprFlows_logical left right
  case unary => exact fun _ _ _ inner => exprFlows_unary inner
  case name => exact fun _ spelling => exprFlows_name spelling
  case call => exact fun _ _ _ function values => exprFlows_call function values
  case assignName => exact fun _ _ _ _ given => exprFlows_assignName given
  case assignField => exact fun _ _ _ _ _ given target => exprFlows_assignField given target
  case assignOther =>
    intro span target value notName notField s f t run
    rw [expr] at run
    · cases run
    · exact notName
    · exact notField
  case field => exact fun _ _ _ target => exprFlows_field target
  case lambda => exact fun _ _ _ inner => exprFlows_lambda inner
  case expression => exact fun _ _ _ inner => stmtFlows_expression inner
  case print => exact fun _ _ _ inner => stmtFlows_print inner
  case declareNil => exact fun _ _ _ => stmtFlows_declareNil
  case declare => exact fun _ _ _ _ inner => stmtFlows_declare inner
  case block => exact fun _ _ _ inner => stmtFlows_block inner
  case function => exact fun _ _ _ _ _ inner => stmtFlows_function inner
  case struct => exact fun _ _ _ _ => stmtFlows_struct
  case ret => exact fun _ _ _ inner => stmtFlows_ret (by rintro e rfl; exact inner)
  case branch => exact fun _ _ _ _ test inner => stmtFlows_branch test inner
  case branchElse => exact fun _ _ _ _ _ test inner other => stmtFlows_branchElse test inner other
  case loop =>
    exact fun _ _ _ _ inner test => stmtFlows_loop (by rintro e rfl; exact test) inner
  case breakLoop => exact fun _ _ => stmtFlows_breakLoop
  case breakOutside => exact fun _ => stmtFlows_breakLoop
  case continueLoop => exact fun _ _ => stmtFlows_continueLoop
  case continueOutside => exact fun _ => stmtFlows_continueLoop
  case noExprs => exact exprsFlow_nil
  case exprs => exact fun _ _ head tail => exprsFlow_cons head tail
  case noStmts => exact fun _ => stmtsFlow_nil
  case stmts => exact fun _ _ _ head tail => stmtsFlow_cons head tail

/-! Scripts. -/

/-- Nothing lies on the stack between the statements of a script, and no cell is open. -/
def ScriptFlows (source : Source) (sts : List Stmt) : Prop :=
  ∀ s f t, script source sts s = .ok f t → s.Regular → s.function.blocks = [] →
    t.Regular ∧ s.Extends t ∧ ∃ front line, f = front ++ .one line .ret ∧
      Fragment.Flows t.function.constants t.function.captures.length none ⟨0,∅⟩ front ⟨1,∅⟩

theorem cells_outside {f : FunctionScope} (outside : f.blocks = []) : f.cells = ∅ := by
  simp [FunctionScope.cells,outside]

theorem blocks_outside {f g : FunctionScope} (grown : f.Extends g) (outside : f.blocks = []) :
    g.blocks = [] := by
  rw [← List.length_eq_zero_iff,grown.length_blocks,outside,List.length_nil]

theorem Valued.outside {code : Fragment} (valued : Valued 1 s t code)
    (outside : s.function.blocks = []) :
    Fragment.Flows t.function.constants t.function.captures.length none ⟨0,∅⟩ code ⟨1,∅⟩ := by
  have flows := valued.flows 0 (localCount_outside outside).le ∅ (Set.empty_subset _)
  rwa [cells_outside outside,
    cells_outside (blocks_outside valued.raises.function.extends outside),Set.union_self] at flows

theorem scriptFlows (source : Source) (sts : List Stmt) : ScriptFlows source sts := by
  obtain ⟨exprs,-,stmts,-⟩ := compiled_flows source
  induction sts using script.induct source with
  | case1 =>
    intro s f t run regular outside
    cases run
    have valued : Valued 1 s s (.one (max source.lineCount 1) .loadNil) :=
      .push (.refl s) regular regular _ (fun _ _ => trivial) (fun _ => trivial) rfl rfl rfl rfl
    exact ⟨regular,.refl s,_,_,rfl,valued.outside outside⟩
  | case2 span value =>
    intro s f t run regular outside
    rw [script] at run
    obtain ⟨a,_,compiled,run⟩ := bind_ok run
    cases run
    have valued := exprs value s a t compiled regular
    exact ⟨valued.regular,valued.raises.extends,a,_,rfl,valued.outside outside⟩
  | case3 first rest other ih =>
    intro s f t run regular outside
    rw [script.eq_3 _ _ _ other] at run
    obtain ⟨a,mid,compiled,run⟩ := bind_ok run
    obtain ⟨b,_,more,run⟩ := bind_ok run
    cases run
    have flowing := stmts none first s a mid compiled regular (by simp [Within])
    have still := blocks_outside flowing.grown.function outside
    obtain ⟨kept,grown,front,line,rfl,flows⟩ := ih mid b t more flowing.regular still
    refine ⟨kept,flowing.grown.trans grown,a ++ front,line,by simp,?_⟩
    have head := flowing.flows ∅ (Set.empty_subset _)
    rw [localCount_outside outside,localCount_outside still,cells_outside outside,
      cells_outside still,Set.union_self] at head
    exact (flows_later grown.function none head).append flows

theorem regular_initial : State.initial.Regular :=
  ⟨⟨rfl,by decide,by decide,by decide,by simp [State.initial,FunctionScope.empty]⟩,rfl⟩

end ScriptMachine.Compile

namespace ScriptMachine

/-- A chunk that was compiled can be run from any of its instructions, as can all the functions
nested in it. It has no parameters and captures nothing. -/
theorem Source.compile_sound {source : Source} {chunk : Chunk}
    (compiled : source.compile = .ok chunk) :
    chunk.Sound ∧ chunk.parameterCount = 0 ∧ chunk.captureCount = 0 := by
  obtain ⟨program,-,accepted⟩ := compile_eq_ok.mp compiled
  obtain ⟨code,t,run,rfl⟩ := Compile.tree_eq_ok.mp accepted
  obtain ⟨kept,grown,front,line,rfl,flows⟩ := Compile.scriptFlows source program _ _ _ run
    Compile.regular_initial rfl
  have alone : t.enclosing = [] := List.forall₂_nil_left_iff.mp grown.enclosing
  rw [Compile.State.Regular,alone] at kept
  obtain ⟨regular,none⟩ := kept
  rw [none,List.length_nil] at flows
  obtain ⟨edges,points,charted⟩ := flows.charted
    ⟨le_rfl,by simp,by simp,trivial,fun _ => trivial⟩
  exact ⟨.intro charted regular.nested,rfl,rfl⟩

end ScriptMachine
