import Mathlib
import ScriptMachine.Proofs.Scoping

/-! What the parts of the compiler leave behind: each keeps the functions under construction in
order, and the code it emits flows from the height it is emitted at. -/
namespace ScriptMachine.Compile

variable {source : Source} {span : Span} {line : Nat} {s t : State}

theorem bind_ok {α β : Type} {x : Compiler α} {k : α → Compiler β} {b : β}
    (run : (x >>= k) s = .ok b t) : ∃ a mid, x s = .ok a mid ∧ k a mid = .ok b t := by
  change EStateM.bind x k s = .ok b t at run
  rw [EStateM.bind] at run
  split at run
  next a mid first => exact ⟨a,mid,first,run⟩
  next => contradiction

theorem bind_error {α β : Type} {x : Compiler α} {k : α → Compiler β} {d : Diagnostic}
    (run : (x >>= k) s = .error d t) :
    x s = .error d t ∨ ∃ a mid, x s = .ok a mid ∧ k a mid = .error d t := by
  change EStateM.bind x k s = .error d t at run
  rw [EStateM.bind] at run
  split at run
  next a mid first => exact .inr ⟨a,mid,first,run⟩
  next failed =>
    cases run
    exact .inl failed

/-! What the elementary steps of the compiler do. -/

/-- The state in which this was found wrong. -/
def State.refused (s : State) (d : Diagnostic) : State :=
  { s with journal := s.journal.note .compiler d }

/-- The state with one more constant. -/
def State.withConstant (s : State) (c : Constant Chunk) : State :=
  { s with function := { s.function with constants := s.function.constants ++ [c] } }

/-- A constant is there, or there is room for it. -/
theorem constant_run {c : Constant Chunk} : constant source c span s =
    match s.function.constants.findIdx? (sameConstant c) with
    | some index => .ok index s
    | none =>
      if s.function.constants.length + 1 < wordLimit then
        .ok s.function.constants.length (s.withConstant c)
      else .error (.locate source .tooManyConstants span)
        (s.refused (.locate source .tooManyConstants span)) := by
  change (match s.function.constants.findIdx? (sameConstant c) with
    | some index => _
    | none => _ : Compiler Nat) s = _
  cases s.function.constants.findIdx? (sameConstant c) with
  | some index => rfl
  | none =>
    dsimp only
    split <;> rfl

theorem constant_ok {c : Constant Chunk} {n : Nat} (run : constant source c span s = .ok n t) :
    (s.function.constants.findIdx? (sameConstant c) = some n ∧ t = s) ∨
      (s.function.constants.findIdx? (sameConstant c) = none ∧
        s.function.constants.length + 1 < wordLimit ∧ n = s.function.constants.length ∧
        t = s.withConstant c) := by
  rw [constant_run] at run
  cases known : s.function.constants.findIdx? (sameConstant c) with
  | some index =>
    rw [known] at run
    cases run
    exact .inl ⟨rfl,rfl⟩
  | none =>
    rw [known] at run
    dsimp only at run
    split at run
    next room =>
      cases run
      exact .inr ⟨rfl,room,rfl,rfl⟩
    next => cases run

/-- A declaration adds a name to the globals outside of all blocks, and a local to the innermost one. -/
theorem declare_ok {name : Bytes} (run : declare source name span s = .ok () t) :
    (s.function.blocks = [] ∧ name ∉ s.globals ∧ t = { s with globals := name :: s.globals }) ∨
      ∃ block outer, s.function.blocks = block :: outer ∧ name ∉ block.map (·.name) ∧
        s.function.localCount < localLimit ∧
        t = { s with function := { s.function with
          blocks := (⟨name,s.function.localCount,false⟩ :: block) :: outer } } := by
  rw [declare] at run
  obtain ⟨_,_,got,run⟩ := bind_ok run
  cases got
  cases blocks : s.function.blocks with
  | nil =>
    rw [blocks] at run
    dsimp only at run
    split at run
    · cases run
    next new =>
      cases run
      exact .inl ⟨rfl,by simpa using new,rfl⟩
  | cons block outer =>
    rw [blocks] at run
    dsimp only at run
    split at run
    · cases run
    next new =>
      split at run
      next room =>
        cases run
        exact .inr ⟨block,outer,rfl,by simpa using new,room,rfl⟩
      next => cases run

/-- A name is that of a local, of a variable around that is captured, or of a global. -/
theorem variableInstr_ok {onLocal onCapture onGlobal : Nat → Instr} {name : Bytes} {i : Instr}
    (run : variableInstr source onLocal onCapture onGlobal name span s = .ok i t) :
    (∃ slot, s.function.slot? name = some slot ∧ i = onLocal slot ∧ t = s) ∨
      s.function.slot? name = none ∧
        ((∃ index function enclosing,
          resolveCapture name s.function s.enclosing = .captured index function enclosing ∧
            i = onCapture index ∧ t = { s with function, enclosing }) ∨
          resolveCapture name s.function s.enclosing = .absent ∧
            ∃ n, constant source (.string name) span s = .ok n t ∧ i = onGlobal n) := by
  rw [variableInstr] at run
  obtain ⟨_,_,got,run⟩ := bind_ok run
  cases got
  cases known : s.function.slot? name with
  | some slot =>
    rw [known] at run
    cases run
    exact .inl ⟨slot,rfl,rfl,rfl⟩
  | none =>
    rw [known] at run
    cases resolved : resolveCapture name s.function s.enclosing with
    | captured index function enclosing =>
      rw [resolved] at run
      cases run
      exact .inr ⟨rfl,.inl ⟨index,function,enclosing,rfl,rfl,rfl⟩⟩
    | full =>
      rw [resolved] at run
      cases run
    | absent =>
      rw [resolved] at run
      obtain ⟨n,_,found,run⟩ := bind_ok run
      cases run
      exact .inr ⟨rfl,.inr ⟨rfl,n,found,rfl⟩⟩

theorem closeBlock_ok {f : Fragment} (run : closeBlock line s = .ok f t) :
    f = discard line (s.function.blocks.headD []) ∧
      t = { s with function := { s.function with blocks := s.function.blocks.tail } } := by
  rw [closeBlock] at run
  obtain ⟨_,_,got,run⟩ := bind_ok run
  cases got
  cases run
  exact ⟨rfl,rfl⟩

/-- The index of a constant leads to it, or to one that counts as the same. -/
theorem constant_spec {c : Constant Chunk} {n : Nat} (run : constant source c span s = .ok n t)
    (regular : s.Regular) (sound : ∀ chunk, c = .function chunk → chunk.Sound) :
    t.Regular ∧ s.Raises t ∧ n < wordLimit ∧ t.function.blocks = s.function.blocks ∧
      ∃ d, t.function.constants[n]? = some d ∧ (d = c ∨ sameConstant c d = true) := by
  have inner : s.function.Regular := Nested.regular regular
  obtain ⟨known,rfl⟩ | ⟨-,room,rfl,rfl⟩ := constant_ok run
  · obtain ⟨bound,same,-⟩ := List.findIdx?_eq_some_iff_getElem.mp known
    refine ⟨regular,.refl t,bound.trans inner.constants,rfl,_,List.getElem?_eq_getElem bound,?_⟩
    exact .inr same
  · have raises : s.function.Raises
        { s.function with constants := s.function.constants ++ [c] } :=
      ⟨rfl,subset_rfl,List.prefix_rfl,List.prefix_append _ _⟩
    have limited : (s.function.constants ++ [c]).length < wordLimit := by simpa using room
    have grown := raises.regular inner inner.captures limited (by
      intro chunk member
      rcases List.mem_append.mp member with old | new
      · exact inner.nested chunk old
      · exact sound chunk (List.mem_singleton.mp new).symm)
    exact ⟨Nested.replace regular grown rfl,⟨raises,State.enclosing_refl _⟩,by omega,rfl,c,
      by simp [State.withConstant],.inl rfl⟩

theorem constant_string {text : Bytes} {n : Nat}
    (run : constant source (.string text) span s = .ok n t) (regular : s.Regular) :
    t.Regular ∧ s.Raises t ∧ n < wordLimit ∧ t.function.blocks = s.function.blocks ∧
      t.function.constants[n]? = some (.string text) := by
  obtain ⟨kept,raises,small,blocks,d,found,same⟩ := constant_spec run regular (by simp)
  refine ⟨kept,raises,small,blocks,?_⟩
  rcases same with rfl | same
  · exact found
  · cases d with
    | string other =>
      obtain rfl : text = other := by simpa [sameConstant] using same
      exact found
    | number value => simp [sameConstant] at same
    | function chunk => simp [sameConstant] at same

theorem constant_function {chunk : Chunk} {n : Nat}
    (run : constant source (.function chunk) span s = .ok n t) (regular : s.Regular)
    (sound : chunk.Sound) :
    t.Regular ∧ s.Raises t ∧ n < wordLimit ∧ t.function.blocks = s.function.blocks ∧
      t.function.constants[n]? = some (.function chunk) := by
  obtain ⟨kept,raises,small,blocks,d,found,same⟩ :=
    constant_spec run regular (by rintro _ ⟨⟩; exact sound)
  refine ⟨kept,raises,small,blocks,?_⟩
  rcases same with rfl | same
  · exact found
  · simp [sameConstant] at same

section

variable {pool : List (Constant Chunk)} {count : Nat} {loop : Option Point}

/-- An instruction that takes what lies above all open cells and goes on to the next. -/
theorem flows_plain (i : Instr) {h k : Nat} {cells : Set Nat} (line : Nat)
    (legal : i.Legal pool count 0 h) (fits : (∀ n, i ≠ .call n) → i.Fits)
    (clear : cells ⊆ Set.Iio (h - i.takes)) (enough : i.takes ≤ h)
    (result : k = h - i.takes + i.gives) (plain : i.targets 0 = [i.size])
    (nothing : i.captured = ∅) :
    Fragment.Flows pool count loop ⟨h,cells⟩ (.one line i) ⟨k,cells⟩ := by
  refine .single ⟨enough,?_,fun _ => clear,legal,fits⟩ plain ⟨result.symm,?_⟩
  · intro slot member
    have : slot < h - i.takes := clear member
    exact (by omega : slot < h)
  · rintro slot (⟨known,-⟩ | captured)
    · exact known
    · simp [nothing] at captured

/-- The end of a block: each of its locals is popped or, if it is captured, has its cell closed. -/
theorem flows_discard (line : Nat) (locals : List Local) (base : Nat) {cells : Set Nat}
    (slots : locals.map (·.slot) = ((List.range locals.length).map (base + ·)).reverse)
    (inside : cells ⊆ Set.Iio (base + locals.length))
    (marked : ∀ l ∈ locals, l.slot ∈ cells → l.captured = true) :
    Fragment.Flows pool count loop ⟨base + locals.length,cells⟩ (discard line locals)
      ⟨base,cells ∩ Set.Iio base⟩ := by
  induction locals generalizing cells with
  | nil => exact .nil ⟨rfl,fun slot member => ⟨member,by simpa using inside member⟩⟩
  | cons l rest ih =>
    rw [List.length_cons,List.range_succ,List.map_append,List.reverse_append] at slots
    obtain ⟨first,others⟩ := List.cons.inj slots
    change l.slot = base + rest.length at first
    have fewer := @ih (cells ∩ Set.Iio (base + rest.length)) others Set.inter_subset_right
      (fun l member known => marked l (List.mem_cons_of_mem _ member) known.1)
    have last : ∀ slot ∈ cells, slot < base + rest.length + 1 := fun slot member =>
      inside member
    have head : Fragment.Flows pool count loop ⟨base + rest.length + 1,cells⟩
        (.one line (if l.captured then .closeCell else .pop))
        ⟨base + rest.length,cells ∩ Set.Iio (base + rest.length)⟩ := by
      split
      next captured =>
        refine .single ⟨?_,last,fun other => absurd rfl other,trivial,fun _ => trivial⟩ rfl
          ⟨rfl,?_⟩
        · exact Nat.le_add_left 1 _
        · rintro slot (⟨member,below⟩ | impossible)
          · exact ⟨member,below⟩
          · exact impossible.elim
      next plain =>
        have below : cells ⊆ Set.Iio (base + rest.length) := by
          intro slot member
          have bound := last slot member
          have other : slot ≠ base + rest.length := by
            rintro rfl
            exact plain (marked l List.mem_cons_self (by rwa [first]))
          exact (by omega : slot < base + rest.length)
        refine (flows_plain .pop line trivial (fun _ => trivial) below ?_ rfl rfl rfl).weaken
          le_rfl ⟨rfl,fun slot member => ⟨member,below member⟩⟩
        exact Nat.le_add_left 1 _
    refine (head.append fewer).weaken le_rfl ⟨rfl,?_⟩
    rintro slot ⟨⟨member,-⟩,below⟩
    exact ⟨member,below⟩

end

/-! Declaring and defining variables. -/

/-- A local that nothing captured yet adds no cell. -/
theorem cells_declared (f : FunctionScope) (name : Bytes) (slot : Nat) (block : Block)
    (outer : List Block) (blocks : f.blocks = block :: outer) :
    ({ f with blocks := (⟨name,slot,false⟩ :: block) :: outer } : FunctionScope).cells =
      f.cells := by
  ext place
  simp [FunctionScope.cells,blocks]

theorem declare_spec {name : Bytes} (run : declare source name span s = .ok () t)
    (regular : s.Regular) :
    t.Regular ∧ s.Extends t ∧ t.function.cells = s.function.cells ∧
      t.function.localCount = s.function.localCount + (if s.function.blocks = [] then 0 else 1) ∧
      (t.function.blocks = [] ↔ s.function.blocks = []) ∧
      t.function.constants = s.function.constants ∧ t.function.captures = s.function.captures := by
  have inner : s.function.Regular := Nested.regular regular
  obtain ⟨blocks,-,rfl⟩ | ⟨block,outer,blocks,-,room,rfl⟩ := declare_ok run
  · exact ⟨regular,⟨(FunctionScope.Raises.refl _).extends,State.enclosing_refl _⟩,rfl,by simp [blocks],
      by simp [blocks],rfl,rfl⟩
  · have count : ((⟨name,s.function.localCount,false⟩ :: block) :: outer).flatten.length =
        s.function.localCount + 1 := by
      simp [FunctionScope.localCount,blocks]
    have cells := cells_declared s.function name s.function.localCount block outer blocks
    refine ⟨Nested.replace regular ⟨?_,?_,inner.captures,inner.constants,inner.nested⟩ rfl,
      ⟨⟨⟨[(name,s.function.localCount)],?_⟩,cells.ge,List.prefix_rfl,List.prefix_rfl⟩,
        State.enclosing_refl _⟩,cells,?_,by simp [blocks],rfl,rfl⟩
    · have slots := inner.slots
      simp only [blocks] at slots
      simp only [FunctionScope.localCount] at count ⊢
      rw [count,List.range_succ,List.reverse_append]
      simpa [FunctionScope.localCount] using slots
    · simp only [FunctionScope.localCount] at count ⊢
      rw [count]
      simpa [FunctionScope.localCount,localLimit] using room
    · simp [FunctionScope.layout,blocks]
    · rw [if_neg (by simp [blocks])]
      simpa [FunctionScope.localCount] using count

/-- A declared value is stored as a global outside of all blocks, and else stays where it is. -/
theorem define_spec {name : Bytes} {f : Fragment} (run : define source line name span s = .ok f t)
    (regular : s.Regular) :
    t.Regular ∧ s.Raises t ∧ t.function.blocks = s.function.blocks ∧
      ∀ loop h cells, (s.function.blocks = [] → cells ⊆ Set.Iio h) →
        Fragment.Flows t.function.constants t.function.captures.length loop ⟨h + 1,cells⟩ f
          ⟨h + (if s.function.blocks = [] then 0 else 1),cells⟩ := by
  rw [define] at run
  obtain ⟨_,_,got,run⟩ := bind_ok run
  cases got
  by_cases outside : s.function.blocks = []
  · simp only [outside,List.isEmpty_nil,↓reduceIte] at run
    obtain ⟨n,_,found,run⟩ := bind_ok run
    cases run
    obtain ⟨kept,raises,small,blocks,known⟩ := constant_string found regular
    refine ⟨kept,raises,by rw [blocks],fun loop h cells inside => ?_⟩
    exact flows_plain (.defineGlobal n) line ⟨name,known⟩ (fun _ => small) (inside outside)
      (Nat.le_add_left 1 h) (by simp [outside,Instr.takes,Instr.gives]) rfl rfl
  · have some : s.function.blocks.isEmpty = false := by simpa using outside
    simp only [some,Bool.false_eq_true,↓reduceIte] at run
    cases run
    exact ⟨regular,.refl _,rfl,fun loop h cells _ => .nil (by simp [outside])⟩

/-- A variable is a local, a capture or a global. -/
theorem variableInstr_spec {onLocal onCapture onGlobal : Nat → Instr} {name : Bytes} {i : Instr}
    (run : variableInstr source onLocal onCapture onGlobal name span s = .ok i t)
    (regular : s.Regular) :
    t.Regular ∧ s.Raises t ∧
      ((∃ slot < s.function.localCount, i = onLocal slot) ∨
        (∃ index < t.function.captures.length, i = onCapture index) ∨
        ∃ n < wordLimit, Instr.Names t.function.constants n ∧ i = onGlobal n) := by
  have inner : s.function.Regular := Nested.regular regular
  obtain ⟨slot,known,rfl,rfl⟩ | ⟨-,⟨index,function,enclosing,resolved,rfl,rfl⟩ | ⟨-,n,found,rfl⟩⟩ :=
    variableInstr_ok run
  · exact ⟨regular,.refl t,.inl ⟨slot,inner.slot?_lt known,rfl⟩⟩
  · obtain ⟨raises,others,nested,bound⟩ := resolveCapture_spec resolved regular
    exact ⟨nested,⟨raises,others⟩,.inr (.inl ⟨index,bound,rfl⟩)⟩
  · obtain ⟨kept,raises,small,-,known⟩ := constant_string found regular
    exact ⟨kept,raises,.inr (.inr ⟨n,small,⟨name,known⟩,rfl⟩)⟩

/-! Statements by their parts: a block is left with its locals discarded, and a nested function ends in
the code that makes its closure. -/

/-- The code of a block. -/
def blockCode (source : Source) (loop : Option Nat) (line : Nat) (body : List Stmt) :
    Compiler Fragment := do
  openBlock
  let code ← stmts source loop body
  return code ++ (← closeBlock line)

/-- The code that makes the closure of a nested function. -/
def closureCode (source : Source) (line : Nat) (name : Bytes) (parameters : List Bytes) (span : Span)
    (body : List Stmt) : Compiler Fragment := do
  beginFunction source parameters span
  let code ← stmts source none body
  endFunction source line name parameters.length span code

section

attribute [local simp] expr stmt

theorem expr_lambda {parameters : List Bytes} {body : List Stmt} :
    expr source (.lambda span parameters body) =
      closureCode source (source.line span.start) anonymous parameters span body := by
  simp [closureCode]

theorem stmt_block {loop : Option Nat} {body : List Stmt} :
    stmt source loop (.block span body) = blockCode source loop (source.line span.start) body := by
  simp [blockCode]

theorem stmt_function {loop : Option Nat} {name : Bytes} {parameters : List Bytes} {body : List Stmt} :
    stmt source loop (.function span name parameters body) = (do
      declare source name span
      let closure ← closureCode source (source.line span.start) name parameters span body
      return closure ++ (← define source (source.line span.start) name span)) := by
  simp [closureCode]

theorem stmt_branch {loop : Option Nat} {condition : Expr} {yes : List Stmt} :
    stmt source loop (.branch span condition yes none) = (do
      let condition ← expr source condition
      let yes ← blockCode source loop (source.line span.start) yes
      return condition ++ (← guarded source (source.line span.start) false yes span)) := by
  simp [blockCode]

theorem stmt_branchElse {loop : Option Nat} {condition : Expr} {yes no : List Stmt} :
    stmt source loop (.branch span condition yes (some no)) = (do
      let condition ← expr source condition
      let yes ← blockCode source loop (source.line span.start) yes
      let no ← blockCode source loop (source.line span.start) no
      checkDistance source no.size span
      return condition ++ (← guarded source (source.line span.start) false
        (yes ++ .one (source.line span.start) (.jump no.size)) span) ++ no) := by
  simp [blockCode]

theorem stmt_loop {loop : Option Nat} {body : List Stmt} :
    stmt source loop (.loop span none body) = (do
      let depth ← blockDepth
      let body ← blockCode source (some depth) (source.line span.start) body
      closeLoop source (source.line span.start) none body span) := by
  simp [blockCode]

theorem stmt_while {loop : Option Nat} {condition : Expr} {body : List Stmt} :
    stmt source loop (.loop span (some condition) body) = (do
      let depth ← blockDepth
      let condition ← expr source condition
      let body ← blockCode source (some depth) (source.line span.start) body
      closeLoop source (source.line span.start) (some condition) body span) := by
  simp [blockCode]

end

end ScriptMachine.Compile

namespace ScriptMachine

theorem toOption_eq_some {ε α : Type} {x : Except ε α} {a : α} :
    x.toOption = some a ↔ x = .ok a := by
  cases x <;> simp [Except.toOption]

end ScriptMachine
