import Mathlib
import ScriptMachine.Tree.Parse

/-! What the parser makes known of the faults of a script. As long as nothing is refused nobody has been
told anything. Once something is refused the parser remembers what, and its listener was told that and
nothing else: a lexical fault that the scanner has met further on stays unsaid. -/
namespace ScriptMachine

namespace Journal

theorem hear_sound {source : Source} {t : Token} (j : Journal) (sound : t.diagnostic? source = none) :
    j.hear source t = j := by
  rw [hear,sound]

theorem hear_faulty {source : Source} {t : Token} {d : Diagnostic} (j : Journal)
    (faulty : t.diagnostic? source = some d) : j.hear source t = j.note .scanner d := by
  rw [hear,faulty]

/-- Without a listener nothing is told. -/
theorem told_hear {source : Source} {t : Token} {j : Journal} (silent : j.listened = false) :
    (j.hear source t).listened = false ∧ (j.hear source t).told = j.told := by
  rw [hear]
  split
  · rw [note]
    split <;> simp [silent]
  · exact ⟨silent,rfl⟩

/-- Once a fault is remembered no other takes its place. -/
theorem hear_first {source : Source} {t : Token} {j : Journal} {d : Diagnostic}
    (first : j.fault = some d) : j.hear source t = j := by
  rw [hear]
  split
  · rw [note,first]
  · rfl

end Journal

theorem Token.origin_diagnostic? {source : Source} {t : Token} {d : Diagnostic}
    (faulty : t.diagnostic? source = some d) : d.origin = .scanner := by
  unfold diagnostic? at faulty
  split at faulty
  · cases faulty
    rfl
  · contradiction

namespace Parse

/-- A fault was met. The parser remembers it, and it is all that was told. -/
structure Account.Tells (a : Account) (d : Diagnostic) : Prop where
  fault : a.parser.fault = some d
  told : a.told = [⟨d.origin,d⟩]

/-- The parser remembers a fault of this kind. -/
def Account.Faults (a : Account) (kind : Diagnostic → Prop) : Prop :=
  ∃ d, a.parser.fault = some d ∧ kind d

/-- Nothing was refused so far. A fault that the scanner remembers is in the token behind the one in
view. -/
def State.Clear (s : State) : Prop :=
  s.account = Account.start.hear s.source s.ahead

/-- The state with these tokens in view in which nothing was refused. -/
def State.clear (source : Source) (previous current : Token) (ahead : List Token) : State :=
  ⟨source,previous,current,ahead,Account.start.hear source ahead⟩

section

variable (source : Source) (previous current : Token) (ahead : List Token)

@[simp] theorem State.source_clear : (State.clear source previous current ahead).source = source := rfl

@[simp] theorem State.previous_clear :
    (State.clear source previous current ahead).previous = previous := rfl

@[simp] theorem State.current_clear :
    (State.clear source previous current ahead).current = current := rfl

@[simp] theorem State.ahead_clear : (State.clear source previous current ahead).ahead = ahead := rfl

end

theorem Account.Tells.verdict {a : Account} {d : Diagnostic} {α : Type} (tells : a.Tells d)
    (result : Except Diagnostic α) : a.parser.verdict result = .error d := by
  rw [Journal.verdict,tells.fault]

namespace Account

variable {source : Source} {t : Token} {d : Diagnostic}

theorem parser_start_hear (source : Source) (ahead : List Token) :
    (start.hear source ahead).parser = .aloud := by
  cases ahead <;> rfl

theorem told_start_hear (source : Source) (ahead : List Token) :
    (start.hear source ahead).scanner.told = [] := by
  cases ahead with
  | nil => rfl
  | cons t rest => exact (Journal.told_hear rfl).2

theorem start_hear_sound (sound : t.diagnostic? source = none) (ahead : List Token) :
    start.hear source (t :: ahead) = start := by
  rw [hear,Journal.hear_sound _ sound]

/-- The scanner has read on behind the faulty token, but it remembers what is wrong with that one. -/
theorem tells_lexical (faulty : t.diagnostic? source = some d) (ahead rest : List Token) :
    ((start.hear source (t :: ahead)).hear source rest).lexical.Tells d := by
  have first : start.hear source (t :: ahead) = ⟨⟨false,some d,[]⟩,.aloud⟩ := by
    rw [hear,Journal.hear_faulty _ faulty]
    rfl
  have still : (start.hear source (t :: ahead)).hear source rest = ⟨⟨false,some d,[]⟩,.aloud⟩ := by
    rw [first]
    cases rest with
    | nil => rfl
    | cons u rest => rw [hear,Journal.hear_first rfl]
  rw [still]
  exact ⟨rfl,by rw [Token.origin_diagnostic? faulty]; rfl⟩

end Account

namespace State.Clear

variable {s : State} (clear : s.Clear)

include clear

theorem eq : s = .clear s.source s.previous s.current s.ahead := by
  rw [State.clear,← clear]

theorem parser : s.account.parser = .aloud := by
  rw [clear,Account.parser_start_hear]

theorem told : s.account.told = [] := by
  rw [clear,Account.told,Account.parser_start_hear,Account.told_start_hear]
  rfl

theorem verdict {α : Type} (result : Except Diagnostic α) :
    s.account.parser.verdict result = result := by
  rw [clear.parser]
  rfl

theorem fault_note (origin : Origin) (d : Diagnostic) :
    (s.account.parser.note origin d).fault = some d := by
  rw [clear.parser]
  rfl

end State.Clear

/-- Nothing was refused, or else a fault is told. -/
inductive Answered {α : Type} : Except Account (α × State) → Prop
  | onward {a : α} {s : State} (clear : s.Clear) : Answered (.ok (a,s))
  | refused {a : Account} {d : Diagnostic} (tells : a.Tells d) : Answered (.error a)

def Answers {α : Type} (p : Parser α) : Prop :=
  ∀ s, s.Clear → Answered (p s)

variable {α β : Type} {p : Parser α} {k : α → Parser β}

theorem Answers.bind (first : Answers p) (rest : ∀ a, Answers (k a)) : Answers (p >>= k) := by
  intro s clear
  change Answered (p s >>= fun x => k x.1 x.2)
  have answered := first s clear
  generalize p s = r at answered
  cases answered with
  | onward clear => exact rest _ _ clear
  | refused tells => exact .refused tells

theorem Answers.pure (a : α) : Answers (Pure.pure a : Parser α) :=
  fun _ clear => .onward clear

/-- A parser that only looks. -/
theorem answers_look {v : State → α} (reads : ∀ s, p s = .ok (v s,s)) : Answers p := by
  intro s clear
  rw [reads]
  exact .onward clear

theorem Answers.get {k : State → Parser β} (rest : ∀ s, Answers (k s)) :
    Answers (MonadState.get >>= k) :=
  (answers_look fun _ => rfl).bind rest

theorem Answers.ite {c : Prop} [Decidable c] {yes no : Parser α} (first : Answers yes)
    (second : Answers no) : Answers (if c then yes else no) := by
  split
  · exact first
  · exact second

theorem answers_fail {cause : Token.Kind → Diagnostic.Cause}
    (grammar : ∀ kind, (cause kind).category = .grammar := by intro; rfl) :
    Answers (fail cause : Parser α) := by
  intro s clear
  rw [fail,clear,Account.parser_start_hear]
  refine .refused ⟨rfl,?_⟩
  rw [Account.told,Account.told_start_hear,Diagnostic.origin,Diagnostic.category,grammar]
  rfl

section

variable {source : Source} {t : Token} (previous current : Token) (ahead : List Token)

theorem advance_sound (sound : t.diagnostic? source = none) :
    advance (.clear source previous current (t :: ahead)) = .ok ((),.clear source current t ahead) := by
  rw [advance]
  simp only [State.clear,sound,Account.start_hear_sound sound]

theorem advance_faulty {d : Diagnostic} (faulty : t.diagnostic? source = some d) :
    ∃ a, advance (.clear source previous current (t :: ahead)) = .error a ∧ a.Tells d := by
  refine ⟨_,?_,Account.tells_lexical faulty ahead ahead⟩
  rw [advance]
  simp only [State.clear,faulty]

end

theorem answers_advance : Answers advance := by
  intro s clear
  rw [clear.eq]
  cases s.ahead with
  | nil => exact .onward rfl
  | cons t ahead =>
    cases faulty : t.diagnostic? s.source with
    | some d =>
      obtain ⟨a,refused,tells⟩ := advance_faulty s.previous s.current ahead faulty
      rw [refused]
      exact .refused tells
    | none =>
      rw [advance_sound s.previous s.current ahead faulty]
      exact .onward rfl

theorem answers_accept (symbol : Symbol) : Answers (accept symbol) :=
  (answers_look fun _ => rfl).bind fun _ => .ite (answers_advance.bind fun _ => .pure _) (.pure _)

theorem answers_expect (symbol : Symbol) : Answers (expect symbol) :=
  (answers_accept symbol).bind fun _ => .ite (.pure _) answers_fail

theorem answers_expectName (what : Expectation) : Answers (expectName what) := by
  intro s
  rw [expectName]
  split
  · exact answers_advance.bind (fun _ => .pure _) s
  · exact answers_fail (fun _ => rfl) s

theorem answers_spanFrom (start : Nat) : Answers (spanFrom start) :=
  answers_look fun _ => rfl

theorem answers_connective? (tier : Tier) : Answers (connective? tier) := by
  intro s clear
  rw [connective?]
  split <;> exact .onward clear

theorem answers_terminator : Answers terminator :=
  (answers_accept _).bind fun _ => .ite (.pure _) (.get fun _ => .ite (.pure _) answers_fail)

theorem answers_commaSeparated {item : Parser α} (each : Answers item) (fuel : Nat) :
    Answers (commaSeparated item fuel) := by
  induction fuel with
  | zero => exact .pure _
  | succ fuel ih =>
    exact each.bind fun _ => (answers_accept _).bind fun _ => .ite (ih.bind fun _ => .pure _) (.pure _)

theorem answers_fieldNames (fuel : Nat) : Answers (fieldNames fuel) := by
  induction fuel with
  | zero => exact .pure _
  | succ fuel ih =>
    exact (answers_look fun _ => rfl).bind fun _ => .ite (.pure _) <| (answers_expectName _).bind
      fun _ => (answers_accept _).bind fun _ => .ite (ih.bind fun _ => .pure _) (.pure _)

theorem answers_statements {statement : Parser Stmt} (inBlock : Bool) (each : Answers statement)
    (fuel : Nat) : Answers (statements inBlock statement fuel) := by
  induction fuel with
  | zero => exact .pure _
  | succ fuel ih =>
    exact .get fun _ => .ite (.pure _) <| (answers_accept _).bind fun _ => .ite ih <|
      each.bind fun _ => ih.bind fun _ => .pure _

theorem answers_budget {k : Nat → Parser β} (rest : ∀ fuel, Answers (k fuel)) :
    Answers (budget >>= k) :=
  (answers_look fun _ => rfl).bind rest

theorem answers_parameters : Answers parameters :=
  (answers_expect _).bind fun _ => (answers_look fun _ => rfl).bind fun _ => by
    have closes (names : List Bytes) : Answers (do expect .rightParen; return names) :=
      (answers_expect _).bind fun _ => .pure _
    split
    · exact closes []
    · exact answers_budget fun fuel => (answers_commaSeparated (answers_expectName _) fuel).bind closes

theorem answers_terminated (start : Nat) (node : Span → Stmt) : Answers (terminated start node) :=
  (answers_spanFrom _).bind fun _ => answers_terminator.bind fun _ => .pure _

theorem answers_structRest : Answers structRest :=
  (answers_look fun _ => rfl).bind fun _ => (answers_expectName _).bind fun _ =>
    (answers_expect _).bind fun _ => answers_budget fun fuel => (answers_fieldNames fuel).bind fun _ =>
      (answers_expect _).bind fun _ => (answers_spanFrom _).bind fun _ => .pure _

/-- The readers of a level settle. -/
structure Level.Answered (level : Level) : Prop where
  expression : Answers level.expression
  assignment : Answers level.assignment
  operand : ∀ list, Answers (level.operand list)
  chain : ∀ tier list start lhs, Answers (level.chain tier list start lhs)
  unary : Answers level.unary
  suffixes : ∀ start value, Answers (level.suffixes start value)
  statement : Answers level.statement
  conditional : Answers level.conditional

/-! One level, given that the level below it, if there is one, answers. -/

section

variable {inner : Option Level} (below : ∀ level, inner = some level → level.Answered)

include below

theorem answers_deeper {reader : Level → Parser α}
    (each : ∀ level : Level, level.Answered → Answers (reader level)) :
    Answers (deeper inner reader) := by
  cases inner with
  | none => exact answers_fail
  | some level => exact each level (below level rfl)

theorem answers_expression : Answers (expression inner) :=
  answers_deeper below fun _ answered => answered.assignment

theorem answers_blockRest : Answers (blockRest inner) :=
  answers_deeper below fun _ answered => answers_budget fun fuel =>
    (answers_statements true answered.statement fuel).bind fun _ => (answers_expect _).bind fun _ =>
      .pure _

theorem answers_block : Answers (block inner) :=
  (answers_expect _).bind fun _ => answers_blockRest below

theorem answers_primary : Answers (primary inner) := by
  rw [primary]
  refine .get fun s => ?_
  dsimp only
  split
  case h_7 =>
    exact answers_advance.bind fun _ => (answers_expression below).bind fun _ =>
      (answers_expect _).bind fun _ => .pure _
  case h_8 =>
    exact answers_advance.bind fun _ => answers_parameters.bind fun _ => (answers_block below).bind
      fun _ => (answers_spanFrom _).bind fun _ => .pure _
  case h_9 => exact answers_fail
  all_goals exact answers_advance.bind fun _ => .pure _

omit below in
theorem answers_arguments {level : Level} (answered : level.Answered) : Answers (arguments level) :=
  (answers_look fun _ => rfl).bind fun _ => .ite (.pure _) <| answers_budget fun fuel =>
    answers_commaSeparated answered.expression fuel

theorem answers_suffixes (start : Nat) (value : Expr) : Answers (suffixes inner start value) := by
  rw [suffixes]
  refine (answers_look fun _ => rfl).bind fun _ => .ite ?_ <| (answers_look fun _ => rfl).bind fun _ =>
    .ite ?_ (.pure _)
  · exact answers_deeper below fun level answered => answers_advance.bind fun _ =>
      (answers_arguments answered).bind fun _ => (answers_expect _).bind fun _ =>
        (answers_spanFrom _).bind fun _ => answered.suffixes _ _
  · exact answers_deeper below fun level answered => answers_advance.bind fun _ =>
      (answers_expectName _).bind fun _ => (answers_spanFrom _).bind fun _ => answered.suffixes _ _

theorem answers_unary : Answers (unary inner) := by
  have operand (op : UnaryOp) (start : Nat) : Answers (do
      let operand ← deeper inner (·.unary)
      return Expr.unary (← spanFrom start) op operand) :=
    (answers_deeper below fun _ answered => answered.unary).bind fun _ => (answers_spanFrom _).bind
      fun _ => .pure _
  rw [unary]
  exact (answers_look fun _ => rfl).bind fun start => (answers_accept _).bind fun _ =>
    .ite (operand .negate start) <| (answers_accept _).bind fun _ => .ite (operand .not start) <|
      (answers_primary below).bind fun _ => answers_suffixes below _ _

theorem answers_chain (tier : Tier) (list : List Tier) (start : Nat) (lhs : Expr) :
    Answers (chain inner tier list start lhs) := by
  rw [chain]
  refine (answers_connective? tier).bind fun op => ?_
  split
  · exact .pure _
  · exact answers_advance.bind fun _ => answers_deeper below fun level answered =>
      (answered.operand _).bind fun _ => (answers_spanFrom _).bind fun _ => answered.chain _ _ _ _

theorem answers_operand (list : List Tier) : Answers (operand inner list) := by
  induction list with
  | nil => exact answers_unary below
  | cons tier rest ih =>
    rw [operand]
    exact (answers_look fun _ => rfl).bind fun _ => ih.bind fun _ => answers_chain below _ _ _ _

theorem answers_assignment : Answers (assignment inner) := by
  rw [assignment]
  exact (answers_look fun _ => rfl).bind fun _ => (answers_operand below _).bind fun _ =>
    (answers_accept _).bind fun _ => .ite ((answers_deeper below fun _ answered => answered.assignment).bind
      fun _ => (answers_spanFrom _).bind fun _ => .pure _) (.pure _)

theorem answers_otherwise : Answers (otherwise inner) := by
  rw [otherwise]
  refine (answers_accept _).bind fun _ => .ite ?_ <| (answers_accept _).bind fun _ => .ite ?_ (.pure _)
  · exact (answers_deeper below fun _ answered => answered.conditional).bind fun _ => .pure _
  · exact (answers_block below).bind fun _ => .pure _

theorem answers_conditional : Answers (conditional inner) := by
  rw [conditional]
  exact (answers_look fun _ => rfl).bind fun _ => (answers_expression below).bind fun _ =>
    (answers_block below).bind fun _ => (answers_otherwise below).bind fun _ =>
      (answers_spanFrom _).bind fun _ => .pure _

theorem answers_expression? : Answers (some <$> expression inner) := by
  rw [← bind_pure_comp]
  exact (answers_expression below).bind fun _ => .pure _

theorem answers_functionRest : Answers (functionRest inner) := by
  rw [functionRest]
  exact (answers_look fun _ => rfl).bind fun _ => (answers_expectName _).bind fun _ =>
    answers_parameters.bind fun _ => (answers_block below).bind fun _ =>
      (answers_spanFrom _).bind fun _ => .pure _

theorem answers_declarationRest : Answers (declarationRest inner) := by
  rw [declarationRest]
  refine (answers_look fun _ => rfl).bind fun _ => (answers_expectName _).bind fun _ =>
    (answers_accept _).bind fun _ => .ite ?_ ?_
  · exact (answers_expression? below).bind fun _ => answers_terminated _ _
  · exact (Answers.pure _).bind fun _ => answers_terminated _ _

theorem answers_returnRest : Answers (returnRest inner) := by
  rw [returnRest]
  refine (answers_look fun _ => rfl).bind fun _ => .get fun s => .ite ?_ ?_
  · exact (Answers.pure _).bind fun _ => answers_terminated _ _
  · exact (answers_expression? below).bind fun _ => answers_terminated _ _

theorem answers_loopRest {condition : Parser (Option Expr)} (answers : Answers condition) :
    Answers (loopRest inner condition) := by
  rw [loopRest]
  exact (answers_look fun _ => rfl).bind fun _ => answers.bind fun _ => (answers_block below).bind
    fun _ => (answers_spanFrom _).bind fun _ => .pure _

theorem answers_expressionStatement : Answers (expressionStatement inner) := by
  rw [expressionStatement]
  exact (answers_look fun _ => rfl).bind fun _ => (answers_expression below).bind fun _ =>
    answers_terminated _ _

theorem answers_statement : Answers (statement inner) := by
  have plain := answers_expressionStatement below
  rw [statement]
  refine .get fun s => ?_
  split
  case h_1 =>
    exact answers_advance.bind fun _ => (answers_look fun _ => rfl).bind fun _ =>
      (answers_blockRest below).bind fun _ => (answers_spanFrom _).bind fun _ => .pure _
  case h_2 =>
    exact .ite (answers_advance.bind fun _ => answers_functionRest below) plain
  case h_3 => exact answers_advance.bind fun _ => answers_declarationRest below
  case h_4 => exact answers_advance.bind fun _ => answers_structRest
  case h_5 =>
    exact answers_advance.bind fun _ => (answers_look fun _ => rfl).bind fun _ =>
      (answers_expression below).bind fun _ => answers_terminated _ _
  case h_6 => exact answers_advance.bind fun _ => answers_returnRest below
  case h_7 => exact answers_advance.bind fun _ => answers_conditional below
  case h_8 => exact answers_advance.bind fun _ => answers_loopRest below (.pure _)
  case h_9 => exact answers_advance.bind fun _ => answers_loopRest below (answers_expression? below)
  case h_10 | h_11 =>
    exact answers_advance.bind fun _ => (answers_look fun _ => rfl).bind fun _ => answers_terminated _ _
  case h_12 => exact plain

theorem answered_build : (build inner).Answered where
  expression := answers_expression below
  assignment := answers_assignment below
  operand := answers_operand below
  chain := answers_chain below
  unary := answers_unary below
  suffixes := answers_suffixes below
  statement := answers_statement below
  conditional := answers_conditional below

end

theorem answered_level (n : Nat) : (level n).Answered := by
  induction n with
  | zero => exact answered_build fun _ none => by cases none
  | succ n ih => exact answered_build fun level same => by cases same; exact ih

section

variable {source : Source} {t : Token}

theorem read_faulty {d : Diagnostic} (faulty : t.diagnostic? source = some d) (ahead : List Token) :
    ∃ a, read .start source (t :: ahead) = ([],a) ∧ a.Tells d := by
  refine ⟨_,?_,Account.tells_lexical faulty ahead ahead⟩
  rw [read,faulty]

theorem program_faulty {d : Diagnostic} (faulty : t.diagnostic? source = some d) (ahead : List Token) :
    program source (t :: ahead) = .error d := by
  obtain ⟨a,refused,tells⟩ := read_faulty faulty ahead
  rw [program,refused]
  exact tells.verdict _

theorem answered_statements (source : Source) (t : Token) (ahead : List Token) : Answered
    (statements false (level depthLimit).statement (ahead.length + 1) (.clear source t t ahead)) :=
  answers_statements false (answered_level depthLimit).statement _ _ rfl

variable (sound : t.diagnostic? source = none) (ahead : List Token)

include sound

/-- If the first token is not faulty, statements are read up to the end or the first refusal. -/
theorem read_sound : read .start source (t :: ahead) =
    match statements false (level depthLimit).statement (ahead.length + 1) (.clear source t t ahead) with
    | .ok (program,s) => (program,s.account)
    | .error account => ([],account) := by
  rw [read,sound,Account.start_hear_sound sound]
  rfl

/-- The tree is what the statements were read as. -/
theorem program_eq_ok {trees : List Stmt} : program source (t :: ahead) = .ok trees ↔
    ∃ s, statements false (level depthLimit).statement (ahead.length + 1) (.clear source t t ahead) =
      .ok (trees,s) := by
  have answered := answered_statements source t ahead
  rw [program,read_sound sound]
  generalize statements false _ _ _ = r at answered ⊢
  cases answered with
  | onward clear => simp [clear.verdict]
  | refused tells => simp [tells.verdict]

theorem program_eq_error {d : Diagnostic} : program source (t :: ahead) = .error d ↔
    ∃ a, statements false (level depthLimit).statement (ahead.length + 1) (.clear source t t ahead) =
      .error a ∧ a.parser.fault = some d := by
  have answered := answered_statements source t ahead
  rw [program,read_sound sound]
  generalize statements false _ _ _ = r at answered ⊢
  cases answered with
  | onward clear => simp [clear.verdict]
  | refused tells => simp [tells.verdict,tells.fault]

end

/-- Reading a script comes to a tree, and nothing is told, or to a fault, and that is told. -/
theorem read_answers (source : Source) (tokens : List Token) :
    let account := (read .start source tokens).2
    (account.parser.fault = none ∧ account.told = []) ∨ ∃ d, account.Tells d := by
  cases tokens with
  | nil => exact .inl ⟨rfl,rfl⟩
  | cons t ahead =>
    cases faulty : t.diagnostic? source with
    | some d =>
      obtain ⟨a,refused,tells⟩ := read_faulty faulty ahead
      rw [refused]
      exact .inr ⟨d,tells⟩
    | none =>
      have answered := answered_statements source t ahead
      rw [read_sound faulty]
      generalize statements false _ _ _ = r at answered
      cases answered with
      | onward clear => exact .inl ⟨by rw [clear.parser]; rfl,clear.told⟩
      | refused tells => exact .inr ⟨_,tells⟩

end Parse

end ScriptMachine
