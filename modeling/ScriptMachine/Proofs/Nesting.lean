import Mathlib
import ScriptMachine.Proofs.Accounts

/-! How deep the tree of a script is. The levels of the grammar are counted while a construct is read,
but a chain of operators or suffixes wraps an operand whose own levels are no longer counted. -/
namespace ScriptMachine

mutual

/-- The number of nodes on the longest path down to a leaf. -/
@[simp] def Expr.height : Expr → Nat
  | .number .. | .string .. | .bool .. | .nil _ | .name .. => 1
  | .binary _ _ lhs rhs | .logical _ _ lhs rhs => 1 + max lhs.height rhs.height
  | .unary _ _ operand => 1 + operand.height
  | .call _ callee arguments => 1 + max callee.height (Expr.heights arguments)
  | .assign _ target value => 1 + max target.height value.height
  | .field _ object _ => 1 + object.height
  | .lambda _ _ body => 1 + Stmt.heights body

@[simp] def Expr.heights : List Expr → Nat
  | [] => 0
  | first :: rest => max first.height (Expr.heights rest)

@[simp] def Stmt.height : Stmt → Nat
  | .expression _ value | .print _ value => 1 + value.height
  | .declare _ _ none | .struct .. | .ret _ none | .breakLoop _ | .continueLoop _ => 1
  | .declare _ _ (some value) | .ret _ (some value) => 1 + value.height
  | .block _ body | .function _ _ _ body | .loop _ none body => 1 + Stmt.heights body
  | .branch _ condition yes none => 1 + max condition.height (Stmt.heights yes)
  | .branch _ condition yes (some no) =>
    1 + max condition.height (max (Stmt.heights yes) (Stmt.heights no))
  | .loop _ (some condition) body => 1 + max condition.height (Stmt.heights body)

@[simp] def Stmt.heights : List Stmt → Nat
  | [] => 0
  | first :: rest => max first.height (Stmt.heights rest)

end

namespace Parse

/-- What a parser reads, if it does, has the property. -/
def Yields {α : Type} (parser : Parser α) (good : α → Prop) : Prop :=
  ∀ s a s', parser s = .ok (a,s') → good a

section

variable {α β : Type} {good : α → Prop} {parser : Parser α}

theorem Yields.bind {next : α → Parser β} {fine : β → Prop} (first : Yields parser good)
    (rest : ∀ a, good a → Yields (next a) fine) : Yields (parser >>= next) fine := by
  intro s b s' run
  change (parser s >>= fun x => next x.1 x.2) = _ at run
  cases read : parser s with
  | error d =>
    rw [read] at run
    cases run
  | ok x =>
    rw [read] at run
    exact rest x.1 (first s x.1 x.2 read) x.2 b s' run

theorem Yields.skip {next : α → Parser β} {fine : β → Prop} (rest : ∀ a, Yields (next a) fine) :
    Yields (parser >>= next) fine := by
  have anything : Yields parser fun _ => True := fun _ _ _ _ => trivial
  exact anything.bind fun a _ => rest a

theorem Yields.pure {a : α} (holds : good a) : Yields (Pure.pure a) good := by
  intro s b s' run
  cases run
  exact holds

theorem Yields.fail {cause : Token.Kind → Diagnostic.Cause} : Yields (Parse.fail cause) good := by
  intro s a s' run
  cases run

theorem Yields.ite {c : Prop} [Decidable c] {yes no : Parser α} (first : c → Yields yes good)
    (second : ¬c → Yields no good) : Yields (if c then yes else no) good := by
  split
  next h => exact first h
  next h => exact second h

theorem Yields.mono {better : α → Prop} (yields : Yields parser good)
    (more : ∀ a, good a → better a) : Yields parser better :=
  fun s a s' run => more a (yields s a s' run)

theorem Yields.deeper {inner : Option Level} {reader : Level → Parser α}
    (each : ∀ level, inner = some level → Yields (reader level) good) :
    Yields (Parse.deeper inner reader) good := by
  cases inner with
  | none => exact .fail
  | some level => exact each level rfl

end

/-- A bound for what is read with so many levels left. Each level adds at most as many nodes as there
are levels left, once for each precedence and once for suffixes. -/
def bound (below : Nat) : Nat :=
  4 * (below + 1) ^ 2

theorem square_le (n : Nat) : 4 * n ^ 2 ≤ 4 * (n + 1) ^ 2 :=
  Nat.mul_le_mul_left 4 (Nat.pow_le_pow_left (Nat.le_succ n) 2)

theorem le_bound (n : Nat) : 4 * n ^ 2 + 7 * n + 2 ≤ bound n := by
  simp only [bound]
  linarith [show 4 * (n + 1) ^ 2 = 4 * n ^ 2 + 8 * n + 4 by ring]

/-- The readers of a level stay within its bound. A chain or a row of suffixes adds a node to what
stands before it for each level it goes down. -/
structure Level.Bounded (n : Nat) (level : Level) : Prop where
  expression : Yields level.expression (·.height ≤ bound n)
  assignment : Yields level.assignment (·.height ≤ bound n)
  operand : ∀ list, list.length ≤ 6 → Yields (level.operand list) (·.height ≤ bound n)
  unary : Yields level.unary (·.height ≤ bound n)
  statement : Yields level.statement (·.height ≤ bound n)
  conditional : Yields level.conditional (·.height ≤ bound n)
  chain : ∀ tier list start (lhs : Expr) b, list.length ≤ 6 → lhs.height ≤ b → 4 * n ^ 2 ≤ b →
    Yields (level.chain tier list start lhs) (·.height ≤ b + n)
  suffixes : ∀ start (value : Expr) b, value.height ≤ b → 4 * n ^ 2 ≤ b →
    Yields (level.suffixes start value) (·.height ≤ b + n)

theorem commaSeparated_bounded {item : Parser Expr} {b : Nat} (each : Yields item (·.height ≤ b))
    (fuel : Nat) : Yields (commaSeparated item fuel) (Expr.heights · ≤ b) := by
  induction fuel with
  | zero => exact .pure (Nat.zero_le b)
  | succ fuel ih =>
    refine each.bind fun first low => .skip fun more => .ite (fun _ => ih.bind fun rest also => ?_)
      fun _ => ?_
    · exact .pure (Nat.max_le.mpr ⟨low,also⟩)
    · exact .pure (Nat.max_le.mpr ⟨low,Nat.zero_le b⟩)

theorem statements_bounded {statement : Parser Stmt} {b : Nat} (inBlock : Bool)
    (each : Yields statement (·.height ≤ b)) (fuel : Nat) :
    Yields (statements inBlock statement fuel) (Stmt.heights · ≤ b) := by
  induction fuel with
  | zero => exact .pure (Nat.zero_le b)
  | succ fuel ih =>
    refine .skip fun s => .ite (fun _ => .pure (Nat.zero_le b)) fun _ => .skip fun lone =>
      .ite (fun _ => ih) fun _ => each.bind fun first low => ih.bind fun rest also => ?_
    exact .pure (Nat.max_le.mpr ⟨low,also⟩)

theorem terminated_bounded {start b : Nat} {node : Span → Stmt}
    (low : ∀ span, (node span).height ≤ b) : Yields (terminated start node) (·.height ≤ b) :=
  .skip fun span => .skip fun _ => .pure (low span)

/-- A statement that may hold an expression. -/
theorem optional_bounded {value : Parser (Option Expr)} {start b : Nat}
    {node : Option Expr → Span → Stmt} (low : Yields value fun v => ∀ e, v = some e → e.height ≤ b)
    (nothing : ∀ span, (node none span).height ≤ b + 1)
    (something : ∀ e span, (node (some e) span).height ≤ 1 + e.height) :
    Yields (value >>= fun v => terminated start (node v)) (·.height ≤ b + 1) := by
  refine low.bind fun v low => terminated_bounded fun span => ?_
  cases v with
  | none => exact nothing span
  | some e =>
    have := low e rfl
    have := something e span
    omega

/-! One level, given that the level below it, if there is one, stays within its bound. -/
section

variable {inner : Option Level} {n : Nat}

/-- The level below. -/
def Inner (inner : Option Level) (n : Nat) : Prop :=
  ∀ level, inner = some level → ∃ below, n = below + 1 ∧ level.Bounded below

variable (bounded : Inner inner n)

include bounded

theorem deeper_bounded {α : Type} {reader : Level → Parser α} {good : α → Prop}
    (each : ∀ level below, n = below + 1 → level.Bounded below → Yields (reader level) good) :
    Yields (deeper inner reader) good := by
  refine .deeper fun level same => ?_
  obtain ⟨below,lower,bounded⟩ := bounded level same
  exact each level below lower bounded

theorem expression_bounded : Yields (expression inner) (·.height ≤ 4 * n ^ 2) :=
  deeper_bounded bounded fun _ _ lower bounded => lower ▸ bounded.assignment

theorem blockRest_bounded : Yields (blockRest inner) (Stmt.heights · ≤ 4 * n ^ 2) := by
  refine deeper_bounded bounded fun level below lower bounded => .skip fun fuel => ?_
  refine (statements_bounded true bounded.statement fuel).bind fun body low => .skip fun _ => ?_
  exact .pure (lower ▸ low)

theorem block_bounded : Yields (block inner) (Stmt.heights · ≤ 4 * n ^ 2) :=
  .skip fun _ => blockRest_bounded bounded

theorem primary_bounded : Yields (primary inner) (·.height ≤ 4 * n ^ 2 + 1) := by
  rw [primary]
  refine .skip fun s => ?_
  dsimp only
  split
  case h_7 =>
    refine .skip fun _ => (expression_bounded bounded).bind fun value low => .skip fun _ => ?_
    exact .pure (Nat.le_succ_of_le low)
  case h_8 =>
    refine .skip fun _ => .skip fun names => (block_bounded bounded).bind fun body low =>
      .skip fun span => .pure ?_
    rw [Expr.height]
    omega
  case h_9 => exact .fail
  all_goals exact .skip fun _ => .pure (by simp [Expr.height])

theorem suffixes_bounded {start : Nat} {value : Expr} {b : Nat} (low : value.height ≤ b)
    (high : 4 * n ^ 2 ≤ b) : Yields (suffixes inner start value) (·.height ≤ b + n) := by
  rw [suffixes]
  refine .skip fun called => .ite (fun _ => ?_) fun _ => .skip fun selected => .ite (fun _ => ?_)
    fun _ => .pure (Nat.le_add_right_of_le low)
  · refine deeper_bounded bounded fun level below lower within => .skip fun _ => ?_
    subst lower
    have listed : Yields (arguments level) (Expr.heights · ≤ b) := by
      refine .skip fun none => .ite (fun _ => .pure (Nat.zero_le b)) fun _ => .skip fun fuel => ?_
      exact (commaSeparated_bounded within.expression fuel).mono fun _ low => low.trans high
    refine listed.bind fun values lows => .skip fun _ => .skip fun span => ?_
    refine (within.suffixes start _ (b + 1) ?_ ?_).mono fun _ low => ?_
    · rw [Expr.height]
      omega
    · exact (square_le below).trans (Nat.le_succ_of_le high)
    · omega
  · refine deeper_bounded bounded fun level below lower within => .skip fun _ => ?_
    subst lower
    refine .skip fun label => .skip fun span => ?_
    refine (within.suffixes start _ (b + 1) ?_ ?_).mono fun _ low => ?_
    · rw [Expr.height]
      omega
    · exact (square_le below).trans (Nat.le_succ_of_le high)
    · omega

theorem unary_bounded : Yields (unary inner) (·.height ≤ 4 * n ^ 2 + 1 + n) := by
  have operand (op : UnaryOp) (start : Nat) : Yields (do
      let operand ← deeper inner fun level => level.unary
      return Expr.unary (← spanFrom start) op operand) (·.height ≤ 4 * n ^ 2 + 1 + n) := by
    have low : Yields (deeper inner fun level => level.unary) (·.height ≤ 4 * n ^ 2) :=
      deeper_bounded bounded fun _ _ lower bounded => lower ▸ bounded.unary
    refine low.bind fun value low => .skip fun span => .pure ?_
    rw [Expr.height]
    omega
  rw [unary]
  refine .skip fun start => .skip fun minus => .ite (fun _ => operand .negate start) fun _ =>
    .skip fun bang => .ite (fun _ => operand .not start) fun _ => ?_
  refine (primary_bounded bounded).bind fun value low => ?_
  exact suffixes_bounded bounded low (Nat.le_succ _)

theorem chain_bounded {tier : Tier} {list : List Tier} {start : Nat} {lhs : Expr} {b : Nat}
    (few : list.length ≤ 6) (low : lhs.height ≤ b) (high : 4 * n ^ 2 ≤ b) :
    Yields (chain inner tier list start lhs) (·.height ≤ b + n) := by
  rw [chain]
  refine .skip fun op => ?_
  split
  next => exact .pure (Nat.le_add_right_of_le low)
  next op =>
    refine .skip fun _ => deeper_bounded bounded fun level below lower within => ?_
    subst lower
    refine (within.operand list few).bind fun rhs also => .skip fun span => ?_
    refine (within.chain tier list start _ (b + 1) few ?_ ?_).mono fun _ low => ?_
    · have also : rhs.height ≤ b := also.trans high
      cases op <;> rw [Connective.node,Expr.height] <;> omega
    · exact (square_le below).trans (Nat.le_succ_of_le high)
    · omega

theorem operand_bounded (list : List Tier) (few : list.length ≤ 6) :
    Yields (operand inner list) (·.height ≤ 4 * n ^ 2 + 1 + n + list.length * n) := by
  induction list with
  | nil => simpa [operand] using unary_bounded bounded
  | cons tier rest ih =>
    rw [List.length_cons] at few
    rw [operand]
    refine .skip fun start => (ih (by omega)).bind fun lhs low => ?_
    refine (chain_bounded bounded (by omega) low (by omega)).mono fun _ low => low.trans ?_
    have more := Nat.add_mul rest.length 1 n
    rw [List.length_cons]
    omega

theorem assignment_bounded : Yields (assignment inner) (·.height ≤ 4 * n ^ 2 + 2 + 7 * n) := by
  have tiers : Yields (operand inner tiers) (·.height ≤ 4 * n ^ 2 + 1 + 7 * n) := by
    refine (operand_bounded bounded tiers (by decide)).mono fun _ low => low.trans ?_
    simp only [Parse.tiers,List.length_cons,List.length_nil]
    omega
  rw [assignment]
  refine .skip fun start => tiers.bind fun target low => .skip fun assigns => .ite (fun _ => ?_)
    fun _ => .pure (by omega)
  have value : Yields (deeper inner (·.assignment)) (·.height ≤ 4 * n ^ 2) :=
    deeper_bounded bounded fun _ _ lower bounded => lower ▸ bounded.assignment
  refine value.bind fun value also => .skip fun span => .pure ?_
  rw [Expr.height]
  omega

theorem otherwise_bounded : Yields (otherwise inner)
    fun no => ∀ body, no = some body → Stmt.heights body ≤ 4 * n ^ 2 := by
  have nested : Yields (deeper inner (·.conditional)) (·.height ≤ 4 * n ^ 2) :=
    deeper_bounded bounded fun _ _ lower bounded => lower ▸ bounded.conditional
  rw [otherwise]
  refine .skip fun elif => .ite (fun _ => ?_) fun _ => .skip fun otherwise => .ite (fun _ => ?_)
    fun _ => .pure (by simp)
  · exact nested.bind fun first low => .pure (by simpa using low)
  · exact (block_bounded bounded).bind fun body low => .pure (by simpa using low)

theorem conditional_bounded : Yields (conditional inner) (·.height ≤ 4 * n ^ 2 + 1) := by
  rw [conditional]
  refine .skip fun start => (expression_bounded bounded).bind fun condition low =>
    (block_bounded bounded).bind fun yes also => (otherwise_bounded bounded).bind fun no last =>
      .skip fun span => .pure ?_
  cases no with
  | none =>
    rw [Stmt.height]
    omega
  | some body =>
    have := last body rfl
    rw [Stmt.height]
    omega

theorem expression?_bounded : Yields (some <$> expression inner)
    fun value => ∀ e, value = some e → e.height ≤ 4 * n ^ 2 := by
  rw [← bind_pure_comp]
  exact (expression_bounded bounded).bind fun value low => .pure (by simpa using low)

theorem loopRest_bounded {condition : Parser (Option Expr)}
    (low : Yields condition fun value => ∀ e, value = some e → e.height ≤ 4 * n ^ 2) :
    Yields (loopRest inner condition) (·.height ≤ 4 * n ^ 2 + 1) := by
  refine .skip fun start => low.bind fun value low => (block_bounded bounded).bind fun body also =>
    .skip fun span => .pure ?_
  cases value with
  | none =>
    rw [Stmt.height]
    omega
  | some e =>
    have := low e rfl
    rw [Stmt.height]
    omega

theorem statement_bounded : Yields (statement inner) (·.height ≤ 4 * n ^ 2 + 1) := by
  have plain : Yields (expressionStatement inner) (·.height ≤ 4 * n ^ 2 + 1) := by
    refine .skip fun start => (expression_bounded bounded).bind fun value low =>
      terminated_bounded fun span => ?_
    rw [Stmt.height]
    omega
  rw [statement]
  refine .skip fun s => ?_
  split
  case h_1 =>
    refine .skip fun _ => .skip fun start => (blockRest_bounded bounded).bind fun body low =>
      .skip fun span => .pure ?_
    rw [Stmt.height]
    omega
  case h_2 =>
    refine .ite (fun _ => .skip fun _ => .skip fun start => .skip fun name => .skip fun names => ?_)
      fun _ => plain
    refine (block_bounded bounded).bind fun body low => .skip fun span => .pure ?_
    rw [Stmt.height]
    omega
  case h_3 =>
    refine .skip fun _ => .skip fun start => .skip fun name => .skip fun assigns => .ite (fun _ => ?_)
      fun _ => ?_
    · exact optional_bounded (expression?_bounded bounded) (by simp [Stmt.height])
        (by simp [Stmt.height])
    · exact optional_bounded (.pure (by simp)) (by simp [Stmt.height]) (by simp [Stmt.height])
  case h_4 =>
    refine .skip fun _ => .skip fun start => .skip fun name => .skip fun _ => .skip fun fuel =>
      .skip fun fields => .skip fun _ => .skip fun span => .pure ?_
    simp [Stmt.height]
  case h_5 =>
    refine .skip fun _ => .skip fun start => (expression_bounded bounded).bind fun value low =>
      terminated_bounded fun span => ?_
    rw [Stmt.height]
    omega
  case h_6 =>
    refine .skip fun _ => .skip fun start => .skip fun s => .ite (fun _ => ?_) fun _ => ?_
    · exact optional_bounded (.pure (by simp)) (by simp [Stmt.height]) (by simp [Stmt.height])
    · exact optional_bounded (expression?_bounded bounded) (by simp [Stmt.height])
        (by simp [Stmt.height])
  case h_7 => exact .skip fun _ => conditional_bounded bounded
  case h_8 => exact .skip fun _ => loopRest_bounded bounded (.pure (by simp))
  case h_9 => exact .skip fun _ => loopRest_bounded bounded (expression?_bounded bounded)
  case h_10 =>
    exact .skip fun _ => .skip fun start => terminated_bounded fun span => by simp [Stmt.height]
  case h_11 =>
    exact .skip fun _ => .skip fun start => terminated_bounded fun span => by simp [Stmt.height]
  case h_12 => exact plain

theorem build_bounded : (build inner).Bounded n := by
  have small := le_bound n
  refine ⟨(expression_bounded bounded).mono fun _ low => ?_,
    (assignment_bounded bounded).mono fun _ low => ?_,fun list few => ?_,
    (unary_bounded bounded).mono fun _ low => ?_,(statement_bounded bounded).mono fun _ low => ?_,
    (conditional_bounded bounded).mono fun _ low => ?_,
    fun tier list start lhs b few low high => chain_bounded bounded few low high,
    fun start value b low high => suffixes_bounded bounded low high⟩
  case refine_3 =>
    refine (operand_bounded bounded list few).mono fun _ low => ?_
    have := Nat.mul_le_mul_right n few
    omega
  all_goals omega

end

theorem level_bounded (n : Nat) : (level n).Bounded n := by
  induction n with
  | zero => exact build_bounded fun level same => by cases same
  | succ n ih =>
    refine build_bounded fun level same => ⟨n,rfl,?_⟩
    cases same
    exact ih

end Parse

theorem Stmt.height_le_heights {program : List Stmt} {statement : Stmt}
    (member : statement ∈ program) : statement.height ≤ Stmt.heights program := by
  induction program with
  | nil => cases member
  | cons first rest ih =>
    rw [Stmt.heights]
    rcases List.mem_cons.mp member with rfl | later
    · exact Nat.le_max_left _ _
    · exact (ih later).trans (Nat.le_max_right _ _)

/-- No path from a statement of an accepted script down to a leaf has more nodes than the bound for the
levels of the grammar. -/
theorem Source.height_parse {source : Source} {program : List Stmt}
    (parsed : source.parse = .ok program) {statement : Stmt} (member : statement ∈ program) :
    statement.height ≤ Parse.bound Parse.depthLimit := by
  refine (Stmt.height_le_heights member).trans ?_
  rw [parse] at parsed
  generalize Token.tokens source = tokens at parsed
  cases tokens with
  | nil =>
    cases parsed
    exact Nat.zero_le _
  | cons first ahead =>
    cases faulty : first.diagnostic? source with
    | some d =>
      rw [Parse.program_faulty faulty] at parsed
      cases parsed
    | none =>
      obtain ⟨s,read⟩ := (Parse.program_eq_ok faulty ahead).mp parsed
      exact Parse.statements_bounded false (Parse.level_bounded Parse.depthLimit).statement
        (ahead.length + 1) _ _ _ read

theorem Source.height_parse_sum : ∃ program, (Source.ofText (ascii "nil + nil;")).parse = .ok program ∧
    ∀ statement ∈ program, statement.height ≤ Parse.bound Parse.depthLimit := by
  have computed : (Source.ofText (ascii "nil + nil;")).parse.isOk = true := by decide +kernel
  cases parsed : (Source.ofText (ascii "nil + nil;")).parse with
  | ok program => exact ⟨program,rfl,fun statement member => Source.height_parse parsed member⟩
  | error d => simp [parsed,Except.isOk,Except.toBool] at computed

/-- Negations below a chain of additions: neither goes too deep, but the tree is deeper than the
limit. -/
theorem Source.height_parse_chain : ∃ program,
    (Source.ofText (List.replicate 200 45 ++ ascii "nil" ++
      (List.replicate 200 (ascii "+nil")).flatten)).parse = .ok program ∧
      Parse.depthLimit + 1 < Stmt.heights program := by
  have computed : ((Source.ofText (List.replicate 200 45 ++ ascii "nil" ++
      (List.replicate 200 (ascii "+nil")).flatten)).parse.toOption.any fun program =>
        Parse.depthLimit + 1 < Stmt.heights program) = true := by
    decide +kernel
  cases parsed : (Source.ofText (List.replicate 200 45 ++ ascii "nil" ++
      (List.replicate 200 (ascii "+nil")).flatten)).parse with
  | ok program =>
    rw [parsed] at computed
    exact ⟨program,rfl,of_decide_eq_true computed⟩
  | error d =>
    rw [parsed] at computed
    contradiction

end ScriptMachine
