import Mathlib
import ScriptMachine.Proofs.Growth

/-! The readers of a level go forward alike in scripts that begin alike, if those of the level below do.
Where the first script ends, what was read of it grows in the other. -/
namespace ScriptMachine.Parse.Fork

variable {k : Fork} {inner : Option Level} {α : Type} {n : Nat} {grows : α → α → Prop}

section

variable {reader : Level → Parser α}

theorem follows_deeper (each : ∀ level, inner = some level → k.Follows n (reader level) (reader level) grows) :
    k.Follows n (deeper inner reader) (deeper inner reader) grows := by
  cases inner with
  | none => exact follows_fail fun _ => rfl
  | some level => exact each level rfl

theorem sinks_deeper (each : ∀ level, inner = some level → k.Sinks (reader level)) :
    k.Sinks (deeper inner reader) := by
  cases inner with
  | none => exact sinks_fail fun _ => rfl
  | some level => exact each level rfl

end

section

variable (below : ∀ level, inner = some level → k.Tame level)

include below

/-! Expressions. -/

theorem follows_expression : k.Follows 1 (expression inner) (expression inner) Expr.Grows :=
  follows_deeper fun level known => (below level known).assignment

theorem sinks_expression : k.Sinks (expression inner) :=
  sinks_deeper fun level known => (below level known).assignmentSinks

omit below in
theorem statements_end (inBlock : Bool) (statement : Parser Stmt) (fuel : Nat) (ends : k.Ends)
    (previous : Token) : statements inBlock statement fuel (k.short previous []) =
      .ok ([],k.short previous []) := by
  cases fuel with
  | zero => rfl
  | succ fuel =>
    rw [statements,run_bind run_get,if_pos]
    · rfl
    · simp [short,before,ends.1]

/-- One statement after the other, each of at least one token. -/
theorem meets_statements {level : Level} (known : inner = some level) (inBlock : Bool)
    (fuel fuel' : Nat) (previous : Token) (ts : List Token) (enough : ts.length < fuel)
    (enough' : ts.length < fuel') (inside : ts ≠ []) (words : Words ts) :
    k.Meets 0 ts Stmt.AllGrow (statements inBlock level.statement fuel (k.short previous ts))
      (statements inBlock level.statement fuel' (k.long previous ts)) := by
  have tame := below level known
  induction fuel generalizing fuel' previous ts with
  | zero => exact absurd enough (Nat.not_lt_zero _)
  | succ fuel ih =>
    obtain ⟨fuel',rfl⟩ := Nat.exists_eq_add_one_of_ne_zero (Nat.ne_zero_of_lt enough')
    cases ts with
    | nil => exact absurd rfl inside
    | cons t rest =>
      rw [List.length_cons] at enough enough'
      have step (fuel : Nat) (s : State) : statements inBlock level.statement (fuel + 1) s =
          if (decide (s.current.body = .endOfScript) || inBlock && s.current.is .rightBrace) = true
          then (pure [] : Parser (List Stmt)) s
          else (Parse.accept .semicolon >>= fun lone =>
            if lone then statements inBlock level.statement fuel
            else do return (← level.statement) :: (← statements inBlock level.statement fuel)) s := by
        rw [statements,run_bind run_get]
        split <;> rfl
      rw [step,step]
      change k.Meets 0 (t :: rest) Stmt.AllGrow
        (if (decide (t.body = .endOfScript) || inBlock && t.is .rightBrace) = true then _ else _)
        (if (decide (t.body = .endOfScript) || inBlock && t.is .rightBrace) = true then _ else _)
      by_cases closes : (decide (t.body = .endOfScript) || inBlock && t.is .rightBrace) = true
      · rw [if_pos closes,if_pos closes]
        exact follows_pure [] previous _ inside words
      rw [if_neg closes,if_neg closes]
      refine .accept words (fun inside => ih fuel' t rest (by omega) (by omega) inside words.tail)
        (fun ends previous _ => .inr ⟨[],statements_end _ _ _ ends previous,fun _ _ _ => .nil⟩) ?_
      refine ((tame.statement previous _ inside words).bind (m := 0)
        (fun first previous used rest split taken inside => ?_)
        fun first first' grows => ?_).weaken (Nat.zero_le _)
      · have shorter := congrArg List.length split
        rw [List.length_append,List.length_cons] at shorter
        have later : Words rest := (split ▸ words).right
        exact (ih fuel' previous rest (by omega) (by omega) inside later).bind (m := 0)
          (fun body previous _ rest split _ inside =>
            follows_pure (first :: body) previous rest inside (split ▸ later).right)
          fun _ _ grows => trails_pure (.cons grows)
      · intro ends previous s
        refine .inr ⟨[first],?_,fun body t run => ?_⟩
        · rw [run_bind (statements_end _ _ _ ends previous)]
          rfl
        · obtain ⟨more,_,-,run⟩ := bind_ok run
          cases run
          exact .last grows

theorem follows_blockRest : k.Follows 1 (blockRest inner) (blockRest inner) Eq := by
  have closes (body : List Stmt) : k.Follows 1 (do expect .rightBrace; return body)
      (do expect .rightBrace; return body) Eq :=
    (follows_expect .rightBrace).bind (m := 0) (fun _ => follows_pure body)
      fun _ _ _ => trails_pure rfl
  have open_ (body : List Stmt) : k.Sinks (do expect .rightBrace; return body) :=
    (sinks_expect .rightBrace).bind _
  refine follows_deeper fun level known => ?_
  have listed : k.Follows 0 (do statements true level.statement (← Parse.budget))
      (do statements true level.statement (← Parse.budget)) Stmt.AllGrow :=
    .budget (meets_statements below known true)
  have whole := listed.bind closes fun body _ _ => (open_ body).trails
  rw [bind_assoc] at whole
  exact whole.weaken (Nat.le_add_left 1 0)

omit below in
theorem sinks_blockRest : k.Sinks (blockRest inner) := by
  refine sinks_deeper fun level known ends previous => ?_
  rw [run_bind (a := k.behind.length + 1) rfl,run_bind (statements_end _ _ _ ends previous)]
  exact (sinks_expect .rightBrace).bind _ ends previous

theorem follows_block : k.Follows 1 (block inner) (block inner) Eq := by
  rw [block]
  exact ((follows_expect .leftBrace).bind (fun _ => follows_blockRest below)
    fun _ _ _ => sinks_blockRest.trails).weaken (by omega)

omit below in
theorem sinks_block : k.Sinks (block inner) :=
  (sinks_expect .leftBrace).bind _

omit below in
theorem follows_take (node : α) [Std.Refl grows] :
    k.Follows 1 (do advance; return node) (do advance; return node) grows :=
  follows_advance.bind (m := 0) (fun _ => follows_pure node)
    fun _ _ _ => trails_pure (Std.Refl.refl node)

omit below in
/-- What an operand is read from, by its first token. -/
def primaryAt (inner : Option Level) (token : Token) : Parser Expr :=
  match token.body with
  | .number value => (do advance; return .number token.span value)
  | .string text => (do advance; return .string token.span text)
  | .name spelling => (do advance; return .name token.span spelling)
  | .symbol .trueWord => (do advance; return .bool token.span true)
  | .symbol .falseWord => (do advance; return .bool token.span false)
  | .symbol .nilWord => (do advance; return .nil token.span)
  | .symbol .leftParen => do
    advance
    let value ← expression inner
    expect .rightParen
    return value
  | .symbol .funWord => do
    advance
    let names ← parameters
    let body ← block inner
    return .lambda (← spanFrom token.span.start) names body
  | _ => fail .noExpression

theorem follows_primary : k.Follows 1 (primary inner) (primary inner) Expr.Grows := by
  have grouped : k.Follows 1
      (do advance; let value ← expression inner; expect .rightParen; return value)
      (do advance; let value ← expression inner; expect .rightParen; return value)
      Expr.Grows := by
    refine (follows_advance.bind (m := 0) (fun _ => ?_) fun _ _ _ =>
      ((sinks_expression below).bind _).trails)
    refine ((follows_expression below).bind (m := 0) (fun value => ?_) fun value _ _ =>
      ((sinks_expect .rightParen).bind _).trails).weaken (Nat.zero_le _)
    exact ((follows_expect .rightParen).bind (fun _ => follows_pure value)
      fun _ _ _ => trails_pure (.same value)).weaken (Nat.zero_le _)
  have lambda (start : Nat) : k.Follows 1
      (do
        advance
        let names ← parameters
        let body ← block inner
        return .lambda (← spanFrom start) names body)
      (do
        advance
        let names ← parameters
        let body ← block inner
        return .lambda (← spanFrom start) names body) Expr.Grows := by
    refine follows_advance.bind (m := 0) (fun _ => ?_) fun _ _ _ => (sinks_parameters.bind _).trails
    refine (follows_parameters.bind (m := 0) (fun names => ?_) fun _ _ _ =>
      (sinks_block.bind _).trails).weaken (Nat.zero_le _)
    refine ((follows_block below).bind (m := 0) (fun body => ?_) fun body _ same => ?_).weaken
      (Nat.zero_le _)
    · exact follows_spanFrom start fun span => follows_pure _
    · subst same
      exact trails_spanFrom start start fun _ _ => trails_pure .lambda
  change k.Follows 1 (fun s => primaryAt inner s.current s) (fun s => primaryAt inner s.current s) _
  refine Follows.view (f := primaryAt inner) fun t _ => ?_
  unfold primaryAt
  split
  all_goals first | exact follows_take _ | skip
  · exact grouped
  · exact lambda t.span.start
  · exact follows_fail fun _ => rfl

omit below in
theorem sinks_primary : k.Sinks (primary inner) := by
  intro ends previous
  rw [primary,run_bind run_get]
  simp only [short,before,State.current_clear,ends.1]
  exact sinks_fail (fun _ => rfl) ends previous

theorem follows_arguments {level : Level} (known : inner = some level) :
    k.Follows 0 (arguments level) (arguments level) fun _ _ => True := by
  have tame := below level known
  refine .look (shares_view fun _ current => current.is .rightParen) (fun _ => rfl) fun seen => ?_
  cases seen with
  | true => exact follows_pure []
  | false =>
    exact .budget (meets_commaSeparated (tame.expression.loosen fun _ _ _ => trivial)
      tame.expressionSinks)

theorem sinks_arguments {level : Level} (known : inner = some level) : k.Sinks (arguments level) := by
  intro ends previous
  rw [arguments,run_bind (a := k.stop.is .rightParen) rfl,symbol_end _ ends,
    if_neg Bool.false_ne_true,run_bind (a := k.behind.length + 1) rfl]
  exact (below level known).expressionSinks.bind _ ends previous

theorem follows_suffixes (start : Nat) (value : Expr) :
    k.Follows 0 (suffixes inner start value) (suffixes inner start value) Expr.Grows := by
  refine .look (shares_view fun _ current => current.is .leftParen) (fun _ => rfl) fun called => ?_
  cases called with
  | true =>
    rw [if_pos rfl]
    refine follows_deeper fun level known => ?_
    have tame := below level known
    refine (follows_advance.bind (m := 0) (fun _ => ?_) fun _ _ _ =>
      ((sinks_arguments below known).bind _).trails).weaken (Nat.zero_le _)
    refine (follows_arguments below known).bind (m := 0) (fun values => ?_) fun _ _ _ =>
      ((sinks_expect .rightParen).bind _).trails
    refine ((follows_expect .rightParen).bind (m := 0) (fun _ => ?_) fun _ _ _ => ?_).weaken
      (Nat.zero_le _)
    · exact follows_spanFrom start fun span => tame.suffixes start _
    · exact trails_spanFrom start start fun _ _ => tame.suffixesEnd start start .call
  | false =>
    rw [if_neg Bool.false_ne_true]
    refine .look (shares_view fun _ current => current.is .dot) (fun _ => rfl) fun accessed => ?_
    cases accessed with
    | true =>
      rw [if_pos rfl]
      refine follows_deeper fun level known => ?_
      have tame := below level known
      refine (follows_advance.bind (m := 0) (fun _ => ?_) fun _ _ _ =>
        ((sinks_expectName _).bind _).trails).weaken (Nat.zero_le _)
      refine ((follows_expectName _).bind (m := 0) (fun label => ?_) fun label _ same => ?_).weaken
        (Nat.zero_le _)
      · exact follows_spanFrom start fun span => tame.suffixes start _
      · subst same
        exact trails_spanFrom start start fun _ _ => tame.suffixesEnd start start .field
    | false => exact follows_pure value

theorem suffixes_give (start : Nat) {e value : Expr} (grows : e.Grows value) :
    Yields (suffixes inner start value) e.Grows := by
  refine .skip fun called => ?_
  split
  · refine .deeper fun level known => ?_
    exact .skip fun _ => .skip fun values => .skip fun _ => .skip fun span =>
      (below level known).suffixesGive start grows.callee
  refine .skip fun accessed => ?_
  split
  · refine .deeper fun level known => ?_
    exact .skip fun _ => .skip fun label => .skip fun span =>
      (below level known).suffixesGive start grows.object
  · exact .pure grows

theorem trails_suffixes (start start' : Nat) {value value' : Expr} (grows : value.Grows value') :
    k.Trails (suffixes inner start value) (suffixes inner start' value') Expr.Grows := by
  intro ends previous s
  refine .inr ⟨value,?_,fun b t run => suffixes_give below start' grows s b t run⟩
  rw [suffixes,run_bind (a := k.stop.is .leftParen) rfl,symbol_end _ ends,if_neg Bool.false_ne_true,
    run_bind (a := k.stop.is .dot) rfl,symbol_end _ ends]
  rfl

theorem follows_unary : k.Follows 1 (unary inner) (unary inner) Expr.Grows := by
  have prefixed (start : Nat) (op : UnaryOp) : k.Follows 1
      (do let operand ← deeper inner (·.unary); return .unary (← spanFrom start) op operand)
      (do let operand ← deeper inner (·.unary); return .unary (← spanFrom start) op operand)
      Expr.Grows := by
    refine (follows_deeper fun level known => (below level known).unary).bind (m := 0)
      (fun operand => follows_spanFrom start fun _ => follows_pure _) fun _ _ grows => ?_
    exact trails_spanFrom start start fun _ _ => trails_pure (.operand grows)
  have open_ (start : Nat) (op : UnaryOp) : k.Sinks
      (do let operand ← deeper inner (·.unary); return Expr.unary (← spanFrom start) op operand) :=
    (sinks_deeper fun level known => (below level known).unarySinks).bind _
  refine follows_currentStart fun start => ?_
  refine .accept (prefixed start .negate) (open_ start .negate).trails ?_
  refine .accept (prefixed start .not) (open_ start .not).trails ?_
  exact (follows_primary below).bind (m := 0) (follows_suffixes below start)
    fun _ _ grows => trails_suffixes below start start grows

omit below in
theorem sinks_unary : k.Sinks (unary inner) := by
  refine .look (fun _ => rfl) fun _ => ?_
  exact .decline (.decline (sinks_primary.bind _))

omit below in
theorem reads_connective (tier : Tier) (s : State) : connective? tier s =
    .ok ((match s.current.body with | .symbol symbol => tier.lookup symbol | _ => none),s) := by
  rw [connective?]
  split <;> simp_all

theorem follows_chain (tier : Tier) (tighter : List Tier) (start : Nat) (lhs : Expr) :
    k.Follows 0 (chain inner tier tighter start lhs) (chain inner tier tighter start lhs)
      Expr.Grows := by
  refine .look (shares_view fun _ current => match current.body with
    | .symbol symbol => tier.lookup symbol
    | _ => none) (reads_connective tier) fun seen => ?_
  cases seen with
  | none => exact follows_pure lhs
  | some op =>
    have more : k.Follows 0
        (deeper inner fun level => do
          let rhs ← level.operand tighter
          level.chain tier tighter start (op.node (← spanFrom start) lhs rhs))
        (deeper inner fun level => do
          let rhs ← level.operand tighter
          level.chain tier tighter start (op.node (← spanFrom start) lhs rhs)) Expr.Grows := by
      refine follows_deeper fun level known => ?_
      have tame := below level known
      refine ((tame.operand tighter).bind (m := 0) (fun rhs => ?_) fun _ _ grows => ?_).weaken
        (Nat.zero_le _)
      · exact follows_spanFrom start fun span => tame.chain tier tighter start _
      · exact trails_spanFrom start start fun _ _ =>
          tame.chainEnd tier tighter start start (.right grows)
    refine (follows_advance.bind (fun _ => more) fun _ _ _ => Sinks.trails ?_).weaken (Nat.zero_le _)
    exact sinks_deeper fun level known => ((below level known).operandSinks tighter).bind _

theorem chain_gives (tier : Tier) (tighter : List Tier) (start : Nat) {e lhs : Expr}
    (grows : e.Grows lhs) : Yields (chain inner tier tighter start lhs) e.Grows := by
  refine .skip fun seen => ?_
  cases seen with
  | none => exact .pure grows
  | some op =>
    refine .skip fun _ => .deeper fun level known => .skip fun rhs => .skip fun span => ?_
    exact (below level known).chainGives tier tighter start grows.left

theorem trails_chain (tier : Tier) (tighter : List Tier) (start start' : Nat) {lhs lhs' : Expr}
    (grows : lhs.Grows lhs') :
    k.Trails (chain inner tier tighter start lhs) (chain inner tier tighter start' lhs')
      Expr.Grows := by
  intro ends previous s
  refine .inr ⟨lhs,?_,fun b t run => chain_gives below tier tighter start' grows s b t run⟩
  have none : connective? tier (k.short previous []) = .ok (none,k.short previous []) := by
    rw [reads_connective]
    simp only [short,before,State.current_clear,ends.1]
  rw [chain,run_bind none]
  rfl

theorem follows_operand (tiers : List Tier) :
    k.Follows 1 (operand inner tiers) (operand inner tiers) Expr.Grows := by
  induction tiers with
  | nil => exact follows_unary below
  | cons tier tighter ih =>
    exact follows_currentStart fun start => ih.bind (m := 0)
      (follows_chain below tier tighter start)
      fun _ _ grows => trails_chain below tier tighter start start grows

omit below in
theorem sinks_operand (tiers : List Tier) : k.Sinks (operand inner tiers) := by
  induction tiers with
  | nil => exact sinks_unary
  | cons tier tighter ih => exact .look (fun _ => rfl) fun _ => ih.bind _

theorem follows_assignment : k.Follows 1 (assignment inner) (assignment inner) Expr.Grows := by
  refine follows_currentStart fun start => ?_
  refine (follows_operand below tiers).bind (m := 0) (fun target => ?_) fun target target' grows => ?_
  · have assigned : k.Follows 1 (deeper inner (·.assignment)) (deeper inner (·.assignment))
        Expr.Grows :=
      follows_deeper fun level known => (below level known).assignment
    refine .accept ((assigned.bind (m := 0) (fun value => ?_) fun _ _ grows => ?_).weaken
      (Nat.zero_le _)) (Sinks.trails ?_) (follows_pure target)
    · exact follows_spanFrom start fun span => follows_pure _
    · exact trails_spanFrom start start fun _ _ => trails_pure (.value grows)
    · exact (sinks_deeper fun level known => (below level known).assignmentSinks).bind _
  · refine .decline (trails_done fun s b t run => ?_)
    have given : Yields (do
        if ← Parse.accept .equals then
          let value ← deeper inner (·.assignment)
          return .assign (← spanFrom start) target' value
        return target') target.Grows := by
      refine .skip fun taken => ?_
      split
      · exact .skip fun value => .skip fun span => .pure grows.target
      · exact .pure grows
    exact given s b t run

omit below in
theorem sinks_assignment : k.Sinks (assignment inner) :=
  .look (fun _ => rfl) fun _ => (sinks_operand tiers).bind _

/-! Statements. -/

omit below in
/-- A statement that a terminator closes. -/
theorem follows_terminated (start : Nat) (node : Span → Stmt) :
    k.Follows 0 (terminated start node) (terminated start node) Stmt.Grows := by
  refine follows_spanFrom start fun span => ?_
  exact follows_terminator.bind (m := 0) (fun _ => follows_pure _) fun _ _ _ =>
    trails_pure (.refl _)

omit below in
theorem yields_terminated {start : Nat} {node : Span → Stmt} {good : Stmt → Prop}
    (each : ∀ span, good (node span)) : Yields (terminated start node) good :=
  .skip fun span => .skip fun _ => .pure (each span)

omit below in
theorem trails_terminated (start : Nat) {node : Span → Stmt} {q : Parser Stmt}
    (more : Yields q fun st => ∀ span, (node span).Grows st) :
    k.Trails (terminated start node) q Stmt.Grows := by
  intro ends previous s
  rcases trails_terminator (q := terminator) ends previous s with ⟨d,failed,stops⟩ | ⟨_,run,-⟩
  · refine .inl ⟨d,?_,stops⟩
    rw [terminated,run_bind rfl,bind_apply,failed]
    rfl
  · refine .inr ⟨node ⟨start,previous.span.stop⟩,?_,fun b t run => more s b t run _⟩
    rw [terminated,run_bind rfl,run_bind run]
    rfl

theorem follows_otherwise :
    k.Follows 0 (otherwise inner) (otherwise inner) Stmt.GrowsOtherwise := by
  refine .accept ?_ (Sinks.trails ?_) (.accept ?_ (Sinks.trails ?_) (follows_pure none))
  · exact ((follows_deeper fun level known => (below level known).conditional).bind (m := 0)
      (fun nested => follows_pure _) fun _ _ grows => trails_pure (.elif grows)).weaken
        (Nat.zero_le _)
  · exact (sinks_deeper fun level known => (below level known).conditionalSinks).bind _
  · exact ((follows_block below).bind (m := 0) (fun body => follows_pure _)
      fun _ _ same => trails_pure (same ▸ .same)).weaken (Nat.zero_le _)
  · exact sinks_block.bind _

omit below in
theorem trails_otherwise {q : Parser (Option (List Stmt))} :
    k.Trails (otherwise inner) q Stmt.GrowsOtherwise :=
  .decline (.decline (trails_done fun _ _ _ _ => .none))

theorem follows_conditional : k.Follows 1 (conditional inner) (conditional inner) Stmt.Grows := by
  refine follows_previousStart fun start => ?_
  refine (follows_expression below).bind (m := 0) (fun condition => ?_) fun _ _ _ =>
    (sinks_block.bind _).trails
  refine ((follows_block below).bind (m := 0) (fun yes => ?_) fun yes _ same => ?_).weaken
    (Nat.zero_le _)
  · refine (follows_otherwise below).bind (m := 0) (fun no => ?_) fun no no' grows => ?_
    · exact follows_spanFrom start fun span => follows_pure _
    · exact trails_spanFrom start start fun _ _ => trails_pure grows.branch
  · subst same
    refine trails_otherwise.bind fun no no' grows => ?_
    exact trails_spanFrom start start fun _ _ => trails_pure grows.branch

theorem sinks_conditional : k.Sinks (conditional inner) :=
  .look (fun _ => rfl) fun _ => (sinks_expression below).bind _

theorem follows_declarationRest :
    k.Follows 1 (declarationRest inner) (declarationRest inner) Stmt.Grows := by
  simp only [declarationRest,map_eq_pure_bind,bind_assoc,pure_bind]
  refine follows_previousStart fun start => ?_
  refine (follows_expectName _).bind (m := 0) (fun name => ?_) fun name _ same => ?_
  · refine .accept ?_ (((sinks_expression below).bind _).trails) (follows_terminated start _)
    refine ((follows_expression below).bind (m := 0) (fun value => ?_) fun _ _ grows => ?_).weaken
      (Nat.zero_le _)
    · exact follows_terminated start _
    · exact trails_terminated start (yields_terminated fun _ _ => .declare grows)
  · subst same
    refine .decline (trails_terminated start (.skip fun taken => ?_))
    split
    · exact .skip fun value => yields_terminated fun _ _ => .given
    · exact yields_terminated fun _ _ => .given

omit below in
theorem sinks_declarationRest : k.Sinks (declarationRest inner) :=
  .look (fun _ => rfl) fun _ => (sinks_expectName _).bind _

/-- The value behind `return` and its terminator, seen from the token in view. -/
def returnAt (inner : Option Level) (start : Nat) (t : Token) : Parser Stmt :=
  if t.is .semicolon || t.is .rightBrace || t.body = .endOfScript then
    terminated start (.ret · none)
  else do
    let value ← expression inner
    terminated start (.ret · (some value))

omit below in
theorem returnRest_eq : returnRest inner =
    previousStart >>= fun start s => returnAt inner start s.current s := by
  simp only [returnRest,map_eq_pure_bind,bind_assoc,pure_bind]
  refine congrArg _ (funext fun start => funext fun s => ?_)
  rw [run_bind run_get,returnAt]

theorem follows_returnRest : k.Follows 0 (returnRest inner) (returnRest inner) Stmt.Grows := by
  rw [returnRest_eq]
  refine follows_previousStart fun start => Follows.view fun t _ => ?_
  rw [returnAt]
  split
  · exact follows_terminated start _
  · refine ((follows_expression below).bind (m := 0) (fun value => ?_) fun _ _ grows => ?_).weaken
      (Nat.zero_le _)
    · exact follows_terminated start _
    · exact trails_terminated start (yields_terminated fun _ _ => .ret grows)

omit below in
theorem trails_returnRest : k.Trails (returnRest inner) (returnRest inner) Stmt.Grows := by
  have given (start : Nat) (s : State) : ∀ b t, returnAt inner start s.current s = .ok (b,t) →
      ∀ span, (Stmt.ret span none).Grows b := by
    have each (t : Token) : Yields (returnAt inner start t) fun b =>
        ∀ span, (Stmt.ret span none).Grows b := by
      rw [returnAt]
      split
      · exact yields_terminated fun _ _ => .give
      · exact .skip fun value => yields_terminated fun _ _ => .give
    exact each s.current s
  rw [returnRest_eq]
  refine .look (fun _ => rfl) fun start start' ends previous s => ?_
  have closed : returnAt inner start k.stop = terminated start (.ret · none) := by
    rw [returnAt,ends.1,if_pos (by simp)]
  change (∃ e, returnAt inner start k.stop (k.short previous []) = .error e ∧ e.Faults k.Stops) ∨
    ∃ a, returnAt inner start k.stop (k.short previous []) = .ok (a,k.short previous []) ∧ _
  rw [closed]
  exact trails_terminated start (q := fun s => returnAt inner start' s.current s)
    (fun s b t run => given start' s b t run) ends previous s

omit below in
theorem follows_structRest : k.Follows 1 structRest structRest Stmt.Grows := by
  have listed : k.Follows 0 (do fieldNames (← Parse.budget)) (do fieldNames (← Parse.budget))
      fun _ _ => True :=
    .budget meets_fieldNames
  refine follows_previousStart fun start => ?_
  refine (follows_expectName _).bind (m := 0) (fun name => ?_) fun _ _ _ =>
    ((sinks_expect .leftBrace).bind _).trails
  refine ((follows_expect .leftBrace).bind (m := 0) (fun _ => ?_) fun _ _ _ => ?_).weaken
    (Nat.zero_le _)
  · rw [← bind_assoc]
    refine listed.bind (m := 0) (fun fields => ?_) fun _ _ _ =>
      ((sinks_expect .rightBrace).bind _).trails
    refine ((follows_expect .rightBrace).bind (m := 0) (fun _ => ?_) fun _ _ _ => ?_).weaken
      (Nat.zero_le _)
    · exact follows_spanFrom start fun _ => follows_pure _
    · exact trails_spanFrom start start fun _ _ => trails_pure .struct
  · exact trails_budget fun fuel _ => (trails_fieldNames fuel).bind fun _ _ _ =>
      ((sinks_expect .rightBrace).bind _).trails

omit below in
theorem sinks_structRest : k.Sinks structRest :=
  .look (fun _ => rfl) fun _ => (sinks_expectName _).bind _

theorem follows_functionRest :
    k.Follows 1 (functionRest inner) (functionRest inner) Stmt.Grows := by
  refine follows_previousStart fun start => ?_
  refine (follows_expectName _).bind (m := 0) (fun name => ?_) fun _ _ _ =>
    (sinks_parameters.bind _).trails
  refine (follows_parameters.bind (m := 0) (fun names => ?_) fun _ _ _ =>
    (sinks_block.bind _).trails).weaken (Nat.zero_le _)
  refine ((follows_block below).bind (m := 0) (fun body => ?_) fun body _ same => ?_).weaken
    (Nat.zero_le _)
  · exact follows_spanFrom start fun _ => follows_pure _
  · subst same
    exact trails_spanFrom start start fun _ _ => trails_pure .function

omit below in
theorem sinks_functionRest : k.Sinks (functionRest inner) :=
  .look (fun _ => rfl) fun _ => (sinks_expectName _).bind _

/-- A loop whose condition has been read. -/
theorem follows_looped (start : Nat) (condition : Option Expr) : k.Follows 1
    (do let body ← block inner; return Stmt.loop (← spanFrom start) condition body)
    (do let body ← block inner; return Stmt.loop (← spanFrom start) condition body) Stmt.Grows := by
  refine (follows_block below).bind (m := 0) (fun body => ?_) fun body _ same => ?_
  · exact follows_spanFrom start fun _ => follows_pure _
  · subst same
    exact trails_spanFrom start start fun _ _ => trails_pure .loop

theorem follows_expressionStatement :
    k.Follows 1 (expressionStatement inner) (expressionStatement inner) Stmt.Grows := by
  refine follows_currentStart fun start => ?_
  refine (follows_expression below).bind (m := 0) (fun value => ?_) fun _ _ grows => ?_
  · exact follows_terminated start _
  · exact trails_terminated start (yields_terminated fun _ _ => .expression grows)

theorem sinks_expressionStatement : k.Sinks (expressionStatement inner) :=
  .look (fun _ => rfl) fun _ => (sinks_expression below).bind _

/-- A statement, seen from the token in view and whether a name comes next. -/
def statementAt (inner : Option Level) (t : Token) (named : Bool) : Parser Stmt :=
  match t.body with
  | .symbol .leftBrace => do
    advance
    let start ← previousStart
    let body ← blockRest inner
    return .block (← spanFrom start) body
  | .symbol .funWord =>
    if named then do
      advance
      functionRest inner
    else expressionStatement inner
  | .symbol .varWord => do
    advance
    declarationRest inner
  | .symbol .structWord => do
    advance
    structRest
  | .symbol .printWord => do
    advance
    let start ← previousStart
    let value ← expression inner
    terminated start (.print · value)
  | .symbol .returnWord => do
    advance
    returnRest inner
  | .symbol .ifWord => do
    advance
    conditional inner
  | .symbol .loopWord => do
    advance
    loopRest inner (pure none)
  | .symbol .whileWord => do
    advance
    loopRest inner (some <$> expression inner)
  | .symbol .breakWord => do
    advance
    terminated (← previousStart) .breakLoop
  | .symbol .continueWord => do
    advance
    terminated (← previousStart) .continueLoop
  | _ => expressionStatement inner

omit below in
theorem statement_eq (s : State) : statement inner s =
    statementAt inner s.current (decide (s.ahead.head?.map (·.kind) = some .name)) s := by
  rw [statement,run_bind run_get,statementAt]
  cases s.current.body with
  | symbol symbol =>
    cases symbol
    case funWord => simp only [decide_eq_true_eq]
    all_goals rfl
  | _ => rfl

theorem follows_statementAt (t : Token) (named : Bool) :
    k.Follows 1 (statementAt inner t named) (statementAt inner t named) Stmt.Grows := by
  have taken {p : Parser Stmt} {n : Nat} (follows : k.Follows n p p Stmt.Grows)
      (ended : k.Trails p p Stmt.Grows) :
      k.Follows 1 (advance >>= fun _ => p) (advance >>= fun _ => p) Stmt.Grows :=
    (follows_advance.bind (fun _ => follows) fun _ _ _ => ended).weaken (Nat.le_add_right 1 n)
  have left (node : Span → Stmt) (grows : ∀ span span', (node span).Grows (node span')) :
      k.Follows 1 (do advance; terminated (← previousStart) node)
        (do advance; terminated (← previousStart) node) Stmt.Grows :=
    taken (follows_previousStart fun start => follows_terminated start node) <|
      .look (fun _ => rfl) fun start _ => trails_terminated start
        (yields_terminated fun span' span => grows span span')
  rw [statementAt]
  split
  · refine taken (n := 1) ?_ (Sinks.trails (.look (fun _ => rfl) fun _ => sinks_blockRest.bind _))
    refine follows_previousStart fun start => (follows_blockRest below).bind (m := 0)
      (fun body => follows_spanFrom start fun _ => follows_pure _) fun body _ same => ?_
    subst same
    exact trails_spanFrom start start fun _ _ => trails_pure .block
  · split
    · exact taken (follows_functionRest below) sinks_functionRest.trails
    · exact follows_expressionStatement below
  · exact taken (follows_declarationRest below) sinks_declarationRest.trails
  · exact taken follows_structRest sinks_structRest.trails
  · refine taken (n := 1) ?_
      (Sinks.trails (.look (fun _ => rfl) fun _ => (sinks_expression below).bind _))
    refine follows_previousStart fun start => (follows_expression below).bind (m := 0)
      (fun value => follows_terminated start _) fun _ _ grows => ?_
    exact trails_terminated start (yields_terminated fun _ _ => .print grows)
  · exact taken (follows_returnRest below) trails_returnRest
  · exact taken (follows_conditional below) (sinks_conditional below).trails
  · simp only [loopRest,pure_bind]
    exact taken (follows_previousStart fun start => follows_looped below start none)
      (Sinks.trails (.look (fun _ => rfl) fun _ => sinks_block.bind _))
  · simp only [loopRest,map_eq_pure_bind,bind_assoc,pure_bind]
    refine taken (n := 1) ?_
      (Sinks.trails (.look (fun _ => rfl) fun _ => (sinks_expression below).bind _))
    exact follows_previousStart fun start => ((follows_expression below).bind (m := 0)
      (fun value => (follows_looped below start (some value)).weaken (Nat.zero_le _))
      fun _ _ _ => (sinks_block.bind _).trails)
  · exact left _ fun _ _ => .breakLoop
  · exact left _ fun _ _ => .continueLoop
  · exact follows_expressionStatement below

theorem sinks_statement : k.Sinks (statement inner) := by
  intro ends previous
  have refused : statement inner (k.short previous []) =
      expressionStatement inner (k.short previous []) := by
    rw [statement_eq]
    simp only [statementAt,short,before,State.current_clear,ends.1]
  rw [refused]
  exact sinks_expressionStatement below ends previous

/-! A function expression that ends behind its first word. -/

omit below in
theorem SinksAt.bind {p : Parser α} {β : Type} {t : Token} (sinks : k.SinksAt t p)
    (f : α → Parser β) : k.SinksAt t (p >>= f) := by
  intro previous
  obtain ⟨d,failed,stops⟩ := sinks previous
  exact ⟨d,by rw [bind_apply,failed]; rfl,stops⟩

section

variable {t : Token} (is : t.body = .symbol .funWord)

include is

omit below in
theorem funWord_sinks_primary : k.SinksAt t (primary inner) := by
  intro previous
  have seen : primary inner (k.short previous [t]) = (do
      advance
      let names ← parameters
      let body ← block inner
      return Expr.lambda (← spanFrom t.span.start) names body : Parser Expr) (k.short previous [t]) := by
    rw [primary,run_bind run_get]
    simp only [current_short,is]
  rw [seen]
  rcases advance_last k previous t with ⟨d,refused,stops⟩ | ⟨ends,taken⟩
  · exact ⟨d,by rw [bind_apply,refused]; rfl,stops⟩
  · rw [run_bind taken]
    exact sinks_parameters.bind _ ends t

omit below in
theorem funWord_sinks_unary : k.SinksAt t (unary inner) := by
  intro previous
  have other {symbol : Symbol} (differs : symbol ≠ .funWord) :
      Parse.accept symbol (k.short previous [t]) = .ok (false,k.short previous [t]) := by
    have missed : t.is symbol = false := by
      rw [Bool.eq_false_iff,Ne,is_iff,is]
      simpa using differs.symm
    rw [Parse.accept,run_bind (a := t.is symbol) rfl,missed]
    rfl
  rw [unary,run_bind (a := t.span.start) rfl,run_bind (other (by decide)),if_neg Bool.false_ne_true,
    run_bind (other (by decide)),if_neg Bool.false_ne_true]
  exact (funWord_sinks_primary is).bind _ previous

omit below in
theorem funWord_sinks_operand (tiers : List Tier) : k.SinksAt t (operand inner tiers) := by
  induction tiers with
  | nil => exact funWord_sinks_unary is
  | cons tier tighter ih =>
    intro previous
    rw [operand,run_bind (a := t.span.start) rfl]
    exact ih.bind _ previous

omit below in
theorem funWord_sinks_assignment : k.SinksAt t (assignment inner) := by
  intro previous
  rw [assignment,run_bind (a := t.span.start) rfl]
  exact (funWord_sinks_operand is tiers).bind _ previous

/-- Behind `fun` the two scripts part: one is stopped and the other has a name next. -/
theorem meets_funWord (named : k.next.kind = .name) (previous : Token) : k.Meets 1 [t] Stmt.Grows
    (expressionStatement inner (k.short previous [t]))
    ((advance >>= fun _ => functionRest inner) (k.long previous [t])) := by
  cases inner with
  | none =>
    have bodyless : Yields (block none) fun _ => False := .skip fun _ => .fail
    have never : Yields (advance >>= fun _ => functionRest none) fun _ => False :=
      .skip fun _ => .skip fun _ => .skip fun _ => .skip fun _ => bodyless.bind fun _ no => no.elim
    have clear := clear_before k.source k.stop k.behind previous [t]
    obtain ⟨e,refused,fault⟩ : ∃ e, expressionStatement none (k.short previous [t]) = .error e ∧
        e.parser.fault = some ⟨.tooDeep t.kind,t.span,t.position⟩ := ⟨_,rfl,clear.fault_note _ _⟩
    rw [refused]
    cases result : (advance >>= fun _ => functionRest none) (k.long previous [t]) with
    | ok x => exact (never _ x.1 x.2 result).elim
    | error e' =>
      exact .refused List.mem_cons_self ⟨_,fault,blames_fail .tooDeep (fun _ => rfl) t⟩
        fun differs => absurd named differs
  | some level =>
    obtain ⟨e,failed,stops⟩ := (below level rfl).function is previous
    have refused : expressionStatement (some level) (k.short previous [t]) = .error e := by
      rw [expressionStatement,run_bind (a := t.span.start) rfl,bind_apply]
      change (level.assignment (k.short previous [t])).bind _ = _
      rw [failed]
      rfl
    rw [refused]
    exact .stopped stops

end

omit below in
/-- The end of the first script is no name, nor is a faulty token. -/
theorem stop_kind (k : Fork) : k.stop.kind ≠ .name := by
  intro named
  unfold Token.kind at named
  rcases k.stops with ends | ⟨d,faulty⟩
  · simp [ends.1,Token.Body.kind] at named
  · cases body : k.stop.body <;> simp_all [Token.diagnostic?,Token.Body.kind]

theorem follows_statement : k.Follows 1 (statement inner) (statement inner) Stmt.Grows := by
  intro previous ts inside words
  cases ts with
  | nil => exact absurd rfl inside
  | cons t rest =>
    rw [statement_eq,statement_eq]
    cases rest with
    | cons u rest => exact follows_statementAt below t _ previous _ inside words
    | nil =>
      change k.Meets 1 [t] Stmt.Grows
        (statementAt inner t (decide (some k.stop.kind = some .name)) _)
        (statementAt inner t (decide (some k.next.kind = some .name)) _)
      rw [decide_eq_false fun same => stop_kind k (Option.some.inj same)]
      by_cases named : k.next.kind = .name
      · rw [named,decide_eq_true rfl]
        by_cases is : t.body = .symbol .funWord
        · have met := meets_funWord below is named previous
          rw [statementAt,statementAt,is]
          exact met
        · have same : statementAt inner t true = statementAt inner t false := by
            unfold statementAt
            split <;> simp_all
          rw [same]
          exact follows_statementAt below t false previous [t] inside words
      · rw [decide_eq_false fun same => named (Option.some.inj same)]
        exact follows_statementAt below t false previous [t] inside words

/-- The readers of the next level are tame too. -/
theorem tame_build : k.Tame (build inner) where
  expression := follows_expression below
  assignment := follows_assignment below
  operand := follows_operand below
  unary := follows_unary below
  statement := follows_statement below
  conditional := follows_conditional below
  chain := follows_chain below
  chainEnd tier tighter start start' _ _ := trails_chain below tier tighter start start'
  chainGives tier tighter start _ _ := chain_gives below tier tighter start
  suffixes := follows_suffixes below
  suffixesEnd start start' _ _ := trails_suffixes below start start'
  suffixesGive start _ _ := suffixes_give below start
  expressionSinks := sinks_expression below
  assignmentSinks := sinks_assignment
  operandSinks := sinks_operand
  unarySinks := sinks_unary
  statementSinks := sinks_statement below
  conditionalSinks := sinks_conditional below
  function is := funWord_sinks_assignment is

end

theorem tame_level (n : Nat) : k.Tame (level n) := by
  induction n with
  | zero => exact tame_build nofun
  | succ n ih =>
    refine tame_build fun level known => ?_
    cases known
    exact ih

end ScriptMachine.Parse.Fork
