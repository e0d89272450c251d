import Mathlib
import ScriptMachine.Proofs.Emitting

/-! Everything the compiler emits flows. The code of an expression leaves one value more; that of a
statement leaves one value for each local it declares. The slots that may have an open cell are
those captured so far and, inside of a loop, those of variables declared outside of it that are
captured anywhere in it. A jump out of the loop discards only variables declared inside of it, for
which nothing but the captures so far can have happened. -/
namespace ScriptMachine.Compile

variable {source : Source} {span : Span} {line : Nat} {s t u : State}

/-- How many locals were there when the loop around started. -/
def loopHeight (f : FunctionScope) : Option Nat → Nat
  | none => 0
  | some depth => f.outerCount depth

/-- Where the rounds of the loop around start and end. -/
def loopPoint (f : FunctionScope) (loop : Option Nat) (more : Set Nat) : Option Point :=
  loop.map fun depth => ⟨f.outerCount depth,(f.cells ∪ more) ∩ Set.Iio (f.outerCount depth)⟩

/-- The code between two states leaves so many values. Cells other than those captured here may be
open, as long as they belong to locals. -/
structure Valued (n : Nat) (s t : State) (f : Fragment) : Prop where
  regular : t.Regular
  raises : s.Raises t
  flows : ∀ h, s.function.localCount ≤ h → ∀ more ⊆ Set.Iio s.function.localCount,
    Fragment.Flows t.function.constants t.function.captures.length none
      ⟨h,s.function.cells ∪ more⟩ f ⟨h + n,t.function.cells ∪ more⟩

/-- The code between two states leaves the new locals. Other cells that may be open belong to
variables declared outside of the loop around. -/
structure Flowing (s t : State) (loop : Option Nat) (f : Fragment) : Prop where
  regular : t.Regular
  grown : s.Extends t
  flows : ∀ more ⊆ Set.Iio (loopHeight s.function loop),
    Fragment.Flows t.function.constants t.function.captures.length
      (loopPoint t.function loop more) ⟨s.function.localCount,s.function.cells ∪ more⟩ f
      ⟨t.function.localCount,t.function.cells ∪ more⟩

/-- The loop around started inside of the blocks that are open now. -/
def Within (f : FunctionScope) (loop : Option Nat) : Prop :=
  ∀ depth, loop = some depth → depth < f.blocks.length

theorem Within.mono {f g : FunctionScope} {loop : Option Nat} (within : Within f loop)
    (grown : f.Extends g) : Within g loop :=
  fun depth known => grown.length_blocks ▸ within depth known

theorem Within.le {f : FunctionScope} {loop : Option Nat} (within : Within f loop) (depth : Nat)
    (known : loop = some depth) : depth ≤ f.blocks.length :=
  (within depth known).le

theorem loopHeight_le (f : FunctionScope) (loop : Option Nat) : loopHeight f loop ≤ f.localCount := by
  cases loop with
  | none => exact Nat.zero_le _
  | some depth => exact f.outerCount_le depth

theorem loopHeight_extends {f g : FunctionScope} {loop : Option Nat} (grown : f.Extends g)
    (within : Within f loop) : loopHeight g loop = loopHeight f loop := by
  cases loop with
  | none => rfl
  | some depth => exact grown.outerCount (within depth rfl)

/-- Later captures only make the point of the loop laxer. -/
theorem loopPoint_mono {f g : FunctionScope} {loop : Option Nat} (grown : f.Extends g)
    (within : Within f loop) (more : Set Nat) :
    ∀ p, loopPoint f loop more = some p → ∃ q, loopPoint g loop more = some q ∧ p ≤ q := by
  intro p known
  cases loop with
  | none => simp [loopPoint] at known
  | some depth =>
    simp only [loopPoint,Option.map_some,Option.some_inj] at known ⊢
    refine ⟨_,rfl,?_⟩
    rw [← known,grown.outerCount (within depth rfl)]
    exact ⟨rfl,Set.inter_subset_inter_left _ (Set.union_subset_union_left _ grown.cells)⟩

/-- Code that flowed in an earlier function flows in a later one. -/
theorem flows_later {f g : FunctionScope} (grown : f.Extends g) {pre post : Point}
    {code : Fragment} (loop : Option Point)
    (flows : Fragment.Flows f.constants f.captures.length none pre code post) :
    Fragment.Flows g.constants g.captures.length loop pre code post :=
  flows.mono grown.constants grown.captures.length_le (by simp)

/-- The cells of locals, captured or assumed, lie below every value of an expression. -/
theorem cells_below {f : FunctionScope} (regular : f.Regular) {h : Nat} (high : f.localCount ≤ h)
    {more : Set Nat} (inside : more ⊆ Set.Iio f.localCount) : f.cells ∪ more ⊆ Set.Iio h := by
  rintro slot (captured | other)
  · exact Nat.lt_of_lt_of_le (regular.cells_lt captured) high
  · exact Nat.lt_of_lt_of_le (inside other) high

theorem Valued.nil (regular : s.Regular) : Valued 0 s s [] :=
  ⟨regular,.refl s,fun _ _ _ _ => .nil le_rfl⟩

/-- No cell is open above the locals. -/
theorem Valued.below {n : Nat} {f : Fragment} (valued : Valued n s t f) {more : Set Nat}
    (inside : more ⊆ Set.Iio s.function.localCount) :
    t.function.cells ∪ more ⊆ Set.Iio s.function.localCount := by
  have same := valued.raises.function.localCount
  exact cells_below (Nested.regular valued.regular) same.le (by rwa [same])

/-- Values pile up. -/
theorem Valued.append {m n : Nat} {f g : Fragment} (first : Valued m s t f)
    (second : Valued n t u g) : Valued (m + n) s u (f ++ g) where
  regular := second.regular
  raises := first.raises.trans second.raises
  flows h high more inside := by
    have same := first.raises.function.localCount
    have later := second.flows (h + m) (by omega) more (by rwa [same])
    rw [Nat.add_assoc] at later
    exact (flows_later second.raises.function.extends none
      (first.flows h high more inside)).append later

/-- An instruction behind some values takes them, or some of them. -/
theorem Valued.emit {i : Instr} {n k : Nat} {f : Fragment} (valued : Valued n s t f)
    (raises : t.Raises u) (regular : u.Regular) (line : Nat)
    (legal : ∀ h, s.function.localCount ≤ h →
      i.Legal u.function.constants u.function.captures.length 0 (h + n))
    (fits : (∀ n, i ≠ .call n) → i.Fits) (enough : i.takes ≤ n)
    (result : k = n - i.takes + i.gives) (plain : i.targets 0 = [i.size])
    (nothing : i.captured = ∅) : Valued k s u (f ++ .one line i) where
  regular := regular
  raises := valued.raises.trans raises
  flows h high more inside := by
    have same : u.function.localCount = s.function.localCount :=
      raises.function.localCount.trans valued.raises.function.localCount
    have below : u.function.cells ∪ more ⊆ Set.Iio h :=
      cells_below (Nested.regular regular) (by omega) (by rwa [same])
    have first : Fragment.Flows u.function.constants u.function.captures.length none
        ⟨h,s.function.cells ∪ more⟩ f ⟨h + n,u.function.cells ∪ more⟩ :=
      (flows_later raises.function.extends none (valued.flows h high more inside)).weaken
        le_rfl ⟨rfl,Set.union_subset_union_left _ raises.function.cells⟩
    refine first.append (flows_plain i line (legal h high) fits ?_ (by omega) (by omega) plain
      nothing)
    exact fun slot member => Nat.lt_of_lt_of_le (below member) (by omega)

/-- An instruction that only pushes a value. -/
theorem Valued.push {i : Instr} (raises : s.Raises t) (regular : t.Regular) (start : s.Regular)
    (line : Nat)
    (legal : ∀ h, s.function.localCount ≤ h →
      i.Legal t.function.constants t.function.captures.length 0 h)
    (fits : (∀ n, i ≠ .call n) → i.Fits) (enough : i.takes = 0) (one : i.gives = 1)
    (plain : i.targets 0 = [i.size]) (nothing : i.captured = ∅) :
    Valued 1 s t (.one line i) :=
  (Valued.nil start).emit raises regular line legal fits (by omega) (by omega) plain nothing

theorem Flowing.then {loop : Option Nat} {f g : Fragment} (first : Flowing s t loop f)
    (second : Flowing t u loop g) (within : Within s.function loop) :
    Flowing s u loop (f ++ g) where
  regular := second.regular
  grown := first.grown.trans second.grown
  flows more inside := by
    have later := (first.flows more inside).mono second.grown.function.constants
      second.grown.function.captures.length_le
      (loopPoint_mono second.grown.function (within.mono first.grown.function) more)
    refine later.append (second.flows more ?_)
    rwa [loopHeight_extends first.grown.function within]

/-! Expressions. -/

attribute [local simp] expr

/-- Whatever this expression compiles to leaves its value. -/
def ExprFlows (source : Source) (e : Expr) : Prop :=
  ∀ s f t, expr source e s = .ok f t → s.Regular → Valued 1 s t f

def ExprsFlow (source : Source) (es : List Expr) : Prop :=
  ∀ s f t, exprs source es s = .ok f t → s.Regular → Valued es.length s t f

theorem exprFlows_number (value : Float) : ExprFlows source (.number span value) := by
  intro s f t run regular
  rw [expr] at run
  obtain ⟨n,_,found,run⟩ := bind_ok run
  cases run
  obtain ⟨kept,raises,small,-,d,known,same⟩ := constant_spec found regular (by simp)
  refine .push raises kept regular _ (fun _ _ => ⟨d,known,?_⟩) (fun _ => small) rfl rfl rfl rfl
  rintro chunk rfl
  simp [sameConstant] at same

theorem exprFlows_string (text : Bytes) : ExprFlows source (.string span text) := by
  intro s f t run regular
  rw [expr] at run
  obtain ⟨n,_,found,run⟩ := bind_ok run
  cases run
  obtain ⟨kept,raises,small,-,known⟩ := constant_string found regular
  exact .push raises kept regular _ (fun _ _ => ⟨_,known,by simp⟩) (fun _ => small) rfl rfl rfl rfl

theorem exprFlows_bool (value : Bool) : ExprFlows source (.bool span value) := by
  intro s f t run regular
  rw [expr] at run
  cases run
  exact .push (.refl s) regular regular _ (fun _ _ => trivial) (fun _ => trivial) rfl rfl rfl rfl

theorem exprFlows_nil : ExprFlows source (.nil span) := by
  intro s f t run regular
  rw [expr] at run
  cases run
  exact .push (.refl s) regular regular _ (fun _ _ => trivial) (fun _ => trivial) rfl rfl rfl rfl

theorem exprFlows_binary {op : BinaryOp} {lhs rhs : Expr} (left : ExprFlows source lhs)
    (right : ExprFlows source rhs) : ExprFlows source (.binary span op lhs rhs) := by
  intro s f t run regular
  rw [expr] at run
  obtain ⟨a,mid,first,run⟩ := bind_ok run
  obtain ⟨b,_,second,run⟩ := bind_ok run
  cases run
  have leftValue := left s a mid first regular
  have rightValue := right mid b t second leftValue.regular
  exact (leftValue.append rightValue).emit (.refl t) rightValue.regular _ (fun _ _ => trivial)
    (fun _ => trivial) le_rfl rfl rfl rfl

theorem exprFlows_unary {op : UnaryOp} {operand : Expr} (inner : ExprFlows source operand) :
    ExprFlows source (.unary span op operand) := by
  intro s f t run regular
  rw [expr] at run
  obtain ⟨a,_,first,run⟩ := bind_ok run
  cases run
  have value := inner s a t first regular
  exact value.emit (.refl t) value.regular _ (fun _ _ => trivial) (fun _ => trivial) le_rfl rfl rfl
    rfl

theorem exprFlows_name (spelling : Bytes) : ExprFlows source (.name span spelling) := by
  intro s f t run regular
  rw [expr] at run
  obtain ⟨i,_,found,run⟩ := bind_ok run
  cases run
  obtain ⟨kept,raises,kinds⟩ := variableInstr_spec found regular
  have few := (Nested.regular kept).captures
  have locals := (Nested.regular regular).locals
  rcases kinds with ⟨slot,bound,rfl⟩ | ⟨index,bound,rfl⟩ | ⟨n,small,names,rfl⟩
  · exact .push raises kept regular _ (fun h high => Nat.lt_of_lt_of_le bound high)
      (fun _ => (by omega : slot < 4294967296)) rfl rfl rfl rfl
  · exact .push raises kept regular _ (fun _ _ => bound)
      (fun _ => (by omega : index < 4294967296)) rfl rfl rfl rfl
  · exact .push raises kept regular _ (fun _ _ => names) (fun _ => small) rfl rfl rfl rfl

theorem exprFlows_call {callee : Expr} {arguments : List Expr} (function : ExprFlows source callee)
    (values : ExprsFlow source arguments) : ExprFlows source (.call span callee arguments) := by
  intro s f t run regular
  rw [expr] at run
  obtain ⟨a,mid,first,run⟩ := bind_ok run
  obtain ⟨b,_,second,run⟩ := bind_ok run
  cases run
  have calleeValue := function s a mid first regular
  have rest := values mid b t second calleeValue.regular
  exact (calleeValue.append rest).emit (.refl t) rest.regular _ (fun _ _ => trivial)
    (fun other => absurd rfl (other _)) (by simp [Instr.takes,Nat.add_comm])
    (by simp [Instr.takes,Instr.gives,Nat.add_comm]) rfl rfl

theorem exprFlows_assignName {inner : Span} {spelling : Bytes} {value : Expr}
    (given : ExprFlows source value) :
    ExprFlows source (.assign span (.name inner spelling) value) := by
  intro s f t run regular
  rw [expr] at run
  obtain ⟨a,mid,first,run⟩ := bind_ok run
  obtain ⟨i,_,found,run⟩ := bind_ok run
  cases run
  have valued := given s a mid first regular
  obtain ⟨kept,raises,kinds⟩ := variableInstr_spec found valued.regular
  have same := valued.raises.function.localCount
  have few := (Nested.regular kept).captures
  have locals := (Nested.regular valued.regular).locals
  rcases kinds with ⟨slot,bound,rfl⟩ | ⟨index,bound,rfl⟩ | ⟨n,small,names,rfl⟩
  · exact valued.emit raises kept _ (fun h high => (by omega : slot < h + 1))
      (fun _ => (by omega : slot < 4294967296)) le_rfl rfl rfl rfl
  · exact valued.emit raises kept _ (fun _ _ => bound)
      (fun _ => (by omega : index < 4294967296)) le_rfl rfl rfl rfl
  · exact valued.emit raises kept _ (fun _ _ => names) (fun _ => small) le_rfl rfl rfl rfl

theorem exprFlows_assignField {inner : Span} {object value : Expr} {label : Bytes}
    (given : ExprFlows source value) (target : ExprFlows source object) :
    ExprFlows source (.assign span (.field inner object label) value) := by
  intro s f t run regular
  rw [expr] at run
  obtain ⟨a,mid,first,run⟩ := bind_ok run
  obtain ⟨b,late,second,run⟩ := bind_ok run
  obtain ⟨n,_,found,run⟩ := bind_ok run
  cases run
  have valued := given s a mid first regular
  have objectValue := target mid b late second valued.regular
  obtain ⟨kept,raises,small,-,known⟩ := constant_string found objectValue.regular
  exact (valued.append objectValue).emit raises kept _ (fun _ _ => ⟨label,known⟩) (fun _ => small)
    le_rfl rfl rfl rfl

theorem exprFlows_field {object : Expr} {label : Bytes} (target : ExprFlows source object) :
    ExprFlows source (.field span object label) := by
  intro s f t run regular
  rw [expr] at run
  obtain ⟨a,mid,first,run⟩ := bind_ok run
  obtain ⟨n,_,found,run⟩ := bind_ok run
  cases run
  have valued := target s a mid first regular
  obtain ⟨kept,raises,small,-,known⟩ := constant_string found valued.regular
  exact valued.emit raises kept _ (fun _ _ => ⟨label,known⟩) (fun _ => small) le_rfl rfl rfl rfl

theorem checkDistance_spec {distance : Nat}
    (run : checkDistance source distance span s = .ok () t) : t = s ∧ distance < wordLimit := by
  rw [checkDistance] at run
  by_cases small : distance < wordLimit
  · simp only [small,↓reduceIte] at run
    cases run
    exact ⟨rfl,small⟩
  · simp only [small,↓reduceIte] at run
    cases run

theorem guarded_spec {jumpOn : Bool} {code rest : Fragment}
    (run : guarded source line jumpOn code span s = .ok rest t) :
    t = s ∧ code.size < wordLimit ∧ rest = .one line (.jumpIf jumpOn code.size) ++ code := by
  rw [guarded] at run
  obtain ⟨_,_,checked,done⟩ := bind_ok run
  obtain ⟨rfl,small⟩ := checkDistance_spec checked
  cases done
  exact ⟨rfl,small,rfl⟩

/-- A condition is taken off the stack, whether the jump is taken or not. -/
theorem ready_jumpIf {pool : List (Constant Chunk)} {count h distance : Nat} {cells : Set Nat}
    (jumpOn : Bool) (small : distance < wordLimit) (below : cells ⊆ Set.Iio h) :
    Instr.Ready pool count 0 (.jumpIf jumpOn distance) ⟨h + 1,cells⟩ :=
  ⟨Nat.le_add_left 1 h,fun _ member => Nat.lt_succ_of_lt (below member),
    fun _ _ member => below member,trivial,fun _ => small⟩

theorem after_jumpIf (jumpOn : Bool) (distance h : Nat) (cells : Set Nat) :
    (Instr.jumpIf jumpOn distance).after ⟨h + 1,cells⟩ ≤ ⟨h,cells⟩ := by
  refine ⟨rfl,?_⟩
  rintro slot (⟨known,-⟩ | impossible)
  · exact known
  · exact impossible.elim

theorem exprFlows_logical {op : LogicalOp} {lhs rhs : Expr} (left : ExprFlows source lhs)
    (right : ExprFlows source rhs) : ExprFlows source (.logical span op lhs rhs) := by
  intro s f t run regular
  rw [expr] at run
  obtain ⟨a,mid,first,run⟩ := bind_ok run
  obtain ⟨b,late,second,run⟩ := bind_ok run
  obtain ⟨rest,_,tested,run⟩ := bind_ok run
  cases run
  obtain ⟨rfl,small,rfl⟩ := guarded_spec tested
  have leftValue := left s a mid first regular
  have rightValue := right mid b t second leftValue.regular
  have twice : Valued 2 s mid (a ++ .one (source.line span.start) .duplicate) :=
    leftValue.emit (.refl mid) leftValue.regular _ (fun _ _ => trivial) (fun _ => trivial) le_rfl
      rfl rfl rfl
  refine ⟨rightValue.regular,leftValue.raises.trans rightValue.raises,?_⟩
  intro h high more inside
  have same := leftValue.raises.function.localCount
  have within : more ⊆ Set.Iio mid.function.localCount := by rwa [same]
  have below : mid.function.cells ∪ more ⊆ Set.Iio h :=
    cells_below (Nested.regular leftValue.regular) (by omega) within
  have dropped : Fragment.Flows t.function.constants t.function.captures.length none
      ⟨h + 1,mid.function.cells ∪ more⟩ (.one (source.line span.start) .pop)
      ⟨h,mid.function.cells ∪ more⟩ :=
    flows_plain .pop _ trivial (fun _ => trivial) below (Nat.le_add_left 1 h) rfl rfl rfl
  have other := dropped.append (rightValue.flows h (by omega) more within)
  refine (flows_later rightValue.raises.function.extends none
    (twice.flows h high more inside)).append (.guarded ?_ (after_jumpIf _ _ _ _) ?_ other)
  · exact ready_jumpIf _ small (fun slot member => Nat.lt_succ_of_lt (below member))
  · exact ⟨rfl,Set.union_subset_union_left _ rightValue.raises.function.cells⟩

theorem exprsFlow_nil : ExprsFlow source [] := by
  intro s f t run regular
  rw [exprs] at run
  cases run
  exact .nil regular

theorem exprsFlow_cons {first : Expr} {rest : List Expr} (head : ExprFlows source first)
    (tail : ExprsFlow source rest) : ExprsFlow source (first :: rest) := by
  intro s f t run regular
  rw [exprs] at run
  obtain ⟨a,mid,one,run⟩ := bind_ok run
  obtain ⟨b,_,others,run⟩ := bind_ok run
  cases run
  have headValue := head s a mid one regular
  rw [List.length_cons,Nat.add_comm]
  exact headValue.append (tail mid b t others headValue.regular)

/-! Functions. -/

theorem declareAll_spec (names : List Bytes) (run : declareAll source span names s = .ok () t)
    (regular : s.Regular) (inBlock : s.function.blocks ≠ []) :
    t.Regular ∧ s.Extends t ∧ t.function.cells = s.function.cells ∧
      t.function.localCount = s.function.localCount + names.length := by
  induction names generalizing s with
  | nil =>
    rw [declareAll] at run
    cases run
    exact ⟨regular,.refl t,rfl,rfl⟩
  | cons first rest ih =>
    rw [declareAll] at run
    obtain ⟨_,mid,declared,run⟩ := bind_ok run
    obtain ⟨kept,grown,cells,count,empty,-⟩ := declare_spec declared regular
    obtain ⟨last,more,same,total⟩ := ih run kept (fun none => inBlock (empty.mp none))
    refine ⟨last,grown.trans more,same.trans cells,?_⟩
    rw [total,count,if_neg inBlock,List.length_cons]
    omega

/-- A nested function starts with its parameters and nothing captured. -/
theorem beginFunction_spec {parameters : List Bytes}
    (run : beginFunction source parameters span s = .ok () t) (regular : s.Regular) :
    t.Regular ∧ t.function.cells = ∅ ∧ t.function.localCount = parameters.length ∧
      List.Forall₂ FunctionScope.Raises (s.function :: s.enclosing) t.enclosing := by
  rw [beginFunction] at run
  obtain ⟨_,_,started,run⟩ := bind_ok run
  cases started
  have fresh : FunctionScope.Regular ⟨[[]],[],[]⟩ :=
    ⟨rfl,Nat.zero_le _,Nat.zero_le _,by decide,by simp⟩
  obtain ⟨kept,grown,cells,count⟩ := declareAll_spec parameters run
    ⟨fresh,by simp [FunctionScope.Linked],regular⟩ (by simp)
  refine ⟨kept,?_,?_,grown.enclosing⟩
  · rw [cells]
    simp [FunctionScope.cells]
  · rw [count]
    simp [FunctionScope.localCount]

/-- Making a closure captures only slots of locals. -/
theorem flows_closure {f inner : FunctionScope} {chunk : Chunk} {n h : Nat} {more : Set Nat}
    (regular : f.Regular) (linked : inner.Linked f) (few : inner.captures.length ≤ 255)
    (small : n < wordLimit) (found : f.constants[n]? = some (.function chunk))
    (count : chunk.captureCount = inner.captures.length) (high : f.localCount ≤ h + 1)
    (below : more ⊆ Set.Iio h) (loop : Option Point) (line : Nat) :
    Fragment.Flows f.constants f.captures.length loop ⟨h,more⟩
      (.one line (.closure n inner.captures)) ⟨h + 1,f.cells ∪ more⟩ := by
  have locals := regular.locals
  have captures := regular.captures
  refine .single ⟨Nat.zero_le _,below,fun _ => below,⟨⟨chunk,found,count⟩,?_⟩,?_⟩
    (by simp [Instr.targets]) ⟨rfl,?_⟩
  · intro c member
    have link := linked c member
    split at link
    next isLocal =>
      have := regular.cells_lt link
      simp only [isLocal,↓reduceIte]
      omega
    next notLocal => simpa [notLocal] using link
  · refine fun _ => ⟨small,by omega,fun c member => ?_⟩
    have link := linked c member
    split at link
    next isLocal =>
      have := regular.cells_lt link
      omega
    next notLocal => omega
  · rintro slot (⟨known,-⟩ | captured)
    · exact .inr known
    · exact .inl (by simpa using linked _ captured)

/-- A whole function: its chunk is sound, and the function around it makes the closure. -/
theorem function_spec {parameters : List Bytes} {name : Bytes} {body f : Fragment}
    {inside finished : State} (begun : beginFunction source parameters span s = .ok () inside)
    (compiled : Flowing inside finished none body)
    (ended : endFunction source line name parameters.length span body finished = .ok f t)
    (regular : s.Regular) :
    t.Regular ∧ s.Raises t ∧ ∀ loop h more, s.function.localCount ≤ h + 1 →
      s.function.cells ∪ more ⊆ Set.Iio h →
      Fragment.Flows t.function.constants t.function.captures.length loop
        ⟨h,s.function.cells ∪ more⟩ f ⟨h + 1,t.function.cells ∪ more⟩ := by
  obtain ⟨-,noCells,count,outside⟩ := beginFunction_spec begun regular
  have around := State.enclosing_trans outside compiled.grown.enclosing
  cases known : finished.enclosing with
  | nil => simp [known] at around
  | cons outer others =>
    rw [known] at around
    obtain ⟨outerRaises,othersRaise⟩ := List.forall₂_cons.mp around
    have nested := compiled.regular
    rw [State.Regular,known] at nested
    obtain ⟨innerRegular,linked,outerNested⟩ := nested
    rw [endFunction] at ended
    obtain ⟨_,_,got,ended⟩ := bind_ok ended
    cases got
    obtain ⟨_,_,stored,ended⟩ := bind_ok ended
    cases stored
    obtain ⟨n,_,found,ended⟩ := bind_ok ended
    cases ended
    have flows := compiled.flows ∅ (Set.empty_subset _)
    rw [noCells,count,Set.union_self,Set.union_empty] at flows
    have cells : finished.function.cells ⊆ Set.Iio finished.function.localCount :=
      fun _ => innerRegular.cells_lt
    have value : Fragment.Flows finished.function.constants finished.function.captures.length none
        ⟨parameters.length,∅⟩ (body ++ .one line .loadNil)
        ⟨finished.function.localCount + 1,finished.function.cells⟩ :=
      flows.append (flows_plain .loadNil line trivial (fun _ => trivial) cells (Nat.zero_le _) rfl
        rfl rfl)
    have sound : Chunk.Sound ⟨name,parameters.length,finished.function.captures.length,
        (body ++ Fragment.one line .loadNil ++ Fragment.one line .ret).code,
        (body ++ Fragment.one line .loadNil ++ Fragment.one line .ret).lines,
        finished.function.constants⟩ := by
      obtain ⟨edges,points,charted⟩ := value.charted
        ⟨Nat.le_add_left 1 _,fun _ member => Nat.lt_succ_of_lt (cells member),
          fun _ _ member => cells member,trivial,fun _ => trivial⟩
      exact .intro charted innerRegular.nested
    have outerRegular : State.Regular { finished with
        function := finished.enclosing.headD .empty
        enclosing := finished.enclosing.tail
        finished := finished.finished ++ [⟨name,parameters.length,
          finished.function.captures.length,
          (body ++ Fragment.one line .loadNil ++ Fragment.one line .ret).code,
          (body ++ Fragment.one line .loadNil ++ Fragment.one line .ret).lines,
          finished.function.constants⟩] } := by
      simpa [State.Regular,known] using outerNested
    obtain ⟨kept,raises,small,-,placed⟩ := constant_function found outerRegular sound
    have function : outer.Raises t.function := by simpa [known] using raises.function
    have enclosing : List.Forall₂ FunctionScope.Raises others t.enclosing := by
      simpa [known] using raises.enclosing
    refine ⟨kept,⟨outerRaises.trans function,State.enclosing_trans othersRaise enclosing⟩,?_⟩
    intro loop h more high below
    have locals : t.function.localCount = s.function.localCount :=
      (outerRaises.trans function).localCount
    refine (flows_closure (Nested.regular kept) (linked.raise rfl function) innerRegular.captures
      small placed rfl (by omega) below loop line).weaken le_rfl ⟨rfl,?_⟩
    rintro slot (captured | earlier | other)
    · exact .inl captured
    · exact .inl ((outerRaises.trans function).cells earlier)
    · exact .inr other

def StmtFlows (source : Source) (loop : Option Nat) (st : Stmt) : Prop :=
  ∀ s f t, stmt source loop st s = .ok f t → s.Regular → Within s.function loop →
    Flowing s t loop f

def StmtsFlow (source : Source) (loop : Option Nat) (sts : List Stmt) : Prop :=
  ∀ s f t, stmts source loop sts s = .ok f t → s.Regular → Within s.function loop →
    Flowing s t loop f

theorem exprFlows_lambda {parameters : List Bytes} {body : List Stmt}
    (inner : StmtsFlow source none body) : ExprFlows source (.lambda span parameters body) := by
  intro s f t run regular
  rw [expr] at run
  obtain ⟨_,inside,begun,run⟩ := bind_ok run
  obtain ⟨code,finished,compiled,ended⟩ := bind_ok run
  have flowing := inner inside code finished compiled (beginFunction_spec begun regular).1
    (by simp [Within])
  obtain ⟨kept,raises,flows⟩ := function_spec begun flowing ended regular
  refine ⟨kept,raises,fun h high more within => flows none h more (by omega) ?_⟩
  exact cells_below (Nested.regular regular) high within

end ScriptMachine.Compile
