import Mathlib
import ScriptMachine.Proofs.Reading

/-! Every tree that is read has a derivation. The readers of a level are sound if those of the level below
are, so by induction all levels are. -/
namespace ScriptMachine.Parse

open Grammar

variable {source : Source} {stop previous : Token} {ts : List Token} {α β : Type}

theorem start_inView {used : List Token} (nonempty : used ≠ []) (rest : List Token) :
    (inView stop (used ++ rest)).span.start = (spanOf used).start := by
  cases used with
  | nil => exact absurd rfl nonempty
  | cons t used => rfl

/-- A statement is read with its semicolon, or the next word closes what it stands in. -/
def ReadsStatement (source : Source) (stop : Token) (p : Parser Stmt) : Prop :=
  ∀ previous ts st s, Words ts → p (facing source stop previous ts) = .ok (st,s) →
    ∃ used rest, ts = used ++ rest ∧ s = facing source stop (latest previous used) rest ∧
      (Derives used (.whole st) ∨ Derives used (.simple st) ∧ Closes (inView stop rest).body)

/-- A branch is read behind its word. -/
def ReadsBranch (source : Source) (stop : Token) (p : Parser Stmt) : Prop :=
  ∀ word ts st s, Words ts → p (facing source stop word ts) = .ok (st,s) →
    ∃ used rest, ts = used ++ rest ∧ s = facing source stop (latest word used) rest ∧
      ∀ symbol, word.body = .symbol symbol → Derives (word :: used) (.conditional symbol st)

/-- A statement is read behind its word. -/
def ReadsBehind (source : Source) (stop : Token) (symbol : Symbol) (p : Parser Stmt) : Prop :=
  ∀ word ts st s, word.body = .symbol symbol → Words ts → p (facing source stop word ts) = .ok (st,s) →
    ∃ used rest, ts = used ++ rest ∧ s = facing source stop (latest word used) rest ∧
      (Derives (word :: used) (.whole st) ∨
        Derives (word :: used) (.simple st) ∧ Closes (inView stop rest).body)

/-- What the readers of a level read has a derivation. -/
structure Level.Sound (source : Source) (stop : Token) (level : Level) : Prop where
  expression : Reads source stop level.expression (Derives · <| .assignment ·)
  assignment : Reads source stop level.assignment (Derives · <| .assignment ·)
  operand : ∀ list, Reads source stop (level.operand list) (Derives · <| .operand list ·)
  chain : ∀ tier tighter before lhs, Derives before (.operand (tier :: tighter) lhs) →
    Reads source stop (level.chain tier tighter (spanOf before).start lhs) fun ts e =>
      Derives (before ++ ts) (.operand (tier :: tighter) e)
  unary : Reads source stop level.unary (Derives · <| .unary ·)
  suffixes : ∀ before value, Derives before (.call value) →
    Reads source stop (level.suffixes (spanOf before).start value) fun ts e =>
      Derives (before ++ ts) (.call e)
  statement : ReadsStatement source stop level.statement
  conditional : ReadsBranch source stop level.conditional

theorem connective?_spec {tier : Tier} {found : Option Connective} {s : State}
    (ends : stop.body = .endOfScript)
    (run : connective? tier (facing source stop previous ts) = .ok (found,s)) :
    s = facing source stop previous ts ∧ ∀ op, found = some op →
      ∃ t rest symbol, ts = t :: rest ∧ t.body = .symbol symbol ∧ (symbol,op) ∈ tier := by
  rw [connective?,current_facing] at run
  cases ts with
  | nil =>
    simp only [inView_nil,ends] at run
    cases run
    exact ⟨rfl,by simp⟩
  | cons t rest =>
    rw [inView_cons] at run
    split at run
    next symbol is =>
      cases run
      refine ⟨rfl,fun op found => ⟨t,rest,symbol,rfl,is,?_⟩⟩
      obtain ⟨before,after,rfl,-⟩ := List.lookup_eq_some_iff.mp found
      exact List.mem_append_right _ List.mem_cons_self
    next =>
      cases run
      exact ⟨rfl,by simp⟩

section

variable (ends : stop.body = .endOfScript)

include ends

theorem statements_spec {statement : Parser Stmt} (each : ReadsStatement source stop statement)
    (inBlock : Bool) (fuel : Nat) {body : List Stmt} {s : State} (enough : ts.length < fuel)
    (words : Words ts)
    (run : statements inBlock statement fuel (facing source stop previous ts) = .ok (body,s)) :
    ∃ used rest, ts = used ++ rest ∧ s = facing source stop (latest previous used) rest ∧
      Derives used (.statements body) ∧
      (inBlock = false → (inView stop rest).body = .endOfScript) := by
  induction fuel generalizing previous ts body s with
  | zero => exact absurd enough (Nat.not_lt_zero _)
  | succ fuel ih =>
    rw [statements] at run
    obtain ⟨_,_,got,run⟩ := bind_ok run
    cases got
    rw [current_facing] at run
    split at run
    next closed =>
      cases run
      refine ⟨[],ts,rfl,rfl,.done,fun outside => ?_⟩
      subst outside
      simpa using closed
    next =>
    obtain ⟨b,_,seen,run⟩ := bind_ok run
    rcases accept_spec ends words seen with ⟨rfl,t,rest,rfl,is,rfl⟩ | ⟨rfl,rfl,-⟩
    · rw [if_pos rfl] at run
      obtain ⟨used,rest,rfl,rfl,derives,closed⟩ := ih (Nat.lt_of_succ_lt_succ enough) words.tail run
      exact ⟨t :: used,rest,rfl,rfl,.lone is derives,closed⟩
    · rw [if_neg Bool.false_ne_true] at run
      obtain ⟨first,_,taken,run⟩ := bind_ok run
      obtain ⟨used,rest,rfl,rfl,derives⟩ := each _ _ _ _ words taken
      obtain ⟨others,_,taken,run⟩ := bind_ok run
      cases run
      have nonempty : used ≠ [] := by
        rcases derives with whole | ⟨simple,-⟩
        · exact whole.starts.ne_nil
        · exact simple.starts.ne_nil
      have shorter : rest.length < fuel := by
        rw [List.length_append] at enough
        have := List.length_pos_of_ne_nil nonempty
        omega
      obtain ⟨later,rest,rfl,rfl,more,closed⟩ := ih shorter words.right taken
      rcases derives with whole | ⟨simple,closes⟩
      · exact ⟨used ++ later,rest,by simp,by simp,.statement whole more,closed⟩
      -- Nothing can follow that starts with what closes the statement.
      · obtain ⟨nothing,starts⟩ := more.starts
        cases later with
        | nil =>
          obtain rfl := nothing rfl
          exact ⟨used,rest,rfl,rfl,.unterminated simple,closed⟩
        | cons t later =>
          rcases starts t rfl with is | is <;> rcases closes with closes | closes <;>
            simp_all [begins]

end

section

variable {inner : Option Level} (ends : stop.body = .endOfScript)
  (sound : ∀ level, inner = some level → level.Sound source stop)

include sound

omit sound in
theorem deeper_ok {reader : Level → Parser α} {a : α} {s t : State}
    (run : deeper inner reader s = .ok (a,t)) :
    ∃ level, inner = some level ∧ reader level s = .ok (a,t) := by
  cases inner with
  | none => cases run
  | some level => exact ⟨level,rfl,run⟩

theorem reads_expression : Reads source stop (expression inner) (Derives · <| .assignment ·) := by
  intro previous ts e s words run
  obtain ⟨level,inside,run⟩ := deeper_ok run
  exact (sound level inside).assignment _ _ _ _ words run

include ends

theorem reads_blockRest : Reads source stop (blockRest inner) fun ts body =>
    ∀ first, first.body = .symbol .leftBrace → Derives (first :: ts) (.block body) := by
  intro previous ts body s words run
  obtain ⟨level,inside,run⟩ := deeper_ok run
  rw [run_bind run_budget] at run
  obtain ⟨body,_,taken,run⟩ := bind_ok run
  obtain ⟨used,rest,rfl,rfl,derives,-⟩ :=
    statements_spec ends (sound level inside).statement true _ (Nat.lt_succ_self _) words taken
  obtain ⟨_,_,closed,run⟩ := bind_ok run
  obtain ⟨last,rest,rfl,closes,rfl⟩ := expect_spec ends words.right closed
  cases run
  exact ⟨used ++ [last],rest,by simp,by simp,fun first opens => .braces opens derives closes⟩

theorem reads_block : Reads source stop (block inner) (Derives · <| .block ·) := by
  intro previous ts body s words run
  rw [block] at run
  obtain ⟨_,_,opened,run⟩ := bind_ok run
  obtain ⟨first,ts,rfl,opens,rfl⟩ := expect_spec ends words opened
  obtain ⟨used,rest,rfl,rfl,derives⟩ := reads_blockRest ends sound _ _ _ _ words.tail run
  exact ⟨first :: used,rest,rfl,rfl,derives first opens⟩

theorem reads_primary : Reads source stop (primary inner) (Derives · <| .primary ·) := by
  intro previous ts e s words run
  rw [primary] at run
  obtain ⟨_,_,got,run⟩ := bind_ok run
  cases got
  rw [current_facing] at run
  cases ts with
  | nil =>
    simp only [inView_nil,ends] at run
    cases run
  | cons t rest =>
    rw [inView_cons] at run
    dsimp only at run
    have literal {node : Expr} (derives : Derives [t] (.primary node))
        (run : (advance >>= fun _ => pure node) (facing source stop previous (t :: rest)) = .ok (e,s)) :
        ∃ used rest', t :: rest = used ++ rest' ∧ s = facing source stop (latest previous used) rest' ∧
          Derives used (.primary e) := by
      rw [run_bind (run_advance ends words.tail)] at run
      cases run
      exact ⟨[t],rest,rfl,rfl,derives⟩
    cases is : t.body with
    | number => rw [is] at run; exact literal (.number is) run
    | string => rw [is] at run; exact literal (.string is) run
    | name => rw [is] at run; exact literal (.name is) run
    | invalid | endOfScript =>
      rw [is] at run
      cases run
    | symbol symbol =>
      rw [is] at run
      cases symbol with
      | trueWord => exact literal (.truth is) run
      | falseWord => exact literal (.falsehood is) run
      | nilWord => exact literal (.nil is) run
      | leftParen =>
        dsimp only at run
        rw [run_bind (run_advance ends words.tail)] at run
        obtain ⟨value,_,taken,run⟩ := bind_ok run
        obtain ⟨used,rest,rfl,rfl,derives⟩ := reads_expression sound _ _ _ _ words.tail taken
        obtain ⟨_,_,closed,run⟩ := bind_ok run
        obtain ⟨last,rest,rfl,closes,rfl⟩ := expect_spec ends words.tail.right closed
        cases run
        exact ⟨t :: (used ++ [last]),rest,by simp,by simp,.parens is derives closes⟩
      | funWord =>
        dsimp only at run
        rw [run_bind (run_advance ends words.tail)] at run
        obtain ⟨names,_,taken,run⟩ := bind_ok run
        obtain ⟨used,rest,rfl,rfl,head⟩ := reads_parameters ends _ _ _ _ words.tail taken
        obtain ⟨body,_,taken,run⟩ := bind_ok run
        obtain ⟨more,rest,rfl,rfl,block⟩ := reads_block ends sound _ _ _ _ words.tail.right taken
        rw [run_bind (run_spanFrom _)] at run
        cases run
        refine ⟨t :: (used ++ more),rest,by simp,by simp,?_⟩
        have whole := Derives.lambda is head block
        rwa [spanOf,latest_append] at whole
      | _ => cases run

omit sound in
theorem reads_arguments {level : Level} (below : level.Sound source stop) :
    Reads source stop (arguments level) (Derives · <| .arguments ·) := by
  intro previous ts values s words run
  rw [arguments] at run
  obtain ⟨_,_,seen,run⟩ := bind_ok run
  rw [run_sees] at seen
  cases seen
  split at run
  next =>
    cases run
    exact ⟨[],ts,rfl,rfl,.noArguments⟩
  next =>
    rw [run_bind run_budget] at run
    obtain ⟨used,rest,rfl,rfl,derives⟩ := commaSeparated_spec ends (Derives · <| .values ·)
      below.expression (fun _ _ => .last) (fun _ _ _ _ _ => .more) _ (Nat.lt_succ_self _) words run
    exact ⟨used,rest,rfl,rfl,.arguments derives⟩

theorem reads_suffixes {before : List Token} {value : Expr} (front : Derives before (.call value)) :
    Reads source stop (suffixes inner (spanOf before).start value) fun ts e =>
      Derives (before ++ ts) (.call e) := by
  intro previous ts e s words run
  have nonempty : before ≠ [] := (Opens.plain front.starts).ne_nil
  rw [suffixes] at run
  obtain ⟨_,_,seen,run⟩ := bind_ok run
  rw [run_sees] at seen
  cases seen
  split at run
  next called =>
    obtain ⟨level,inside,run⟩ := deeper_ok run
    have below := sound level inside
    cases ts with
    | nil => simp [is_iff,ends] at called
    | cons first ts =>
      have opens := is_iff.mp called
      rw [run_bind (run_advance ends words.tail)] at run
      obtain ⟨values,_,taken,run⟩ := bind_ok run
      obtain ⟨used,rest,rfl,rfl,derives⟩ := reads_arguments ends below _ _ _ _ words.tail taken
      obtain ⟨_,_,closed,run⟩ := bind_ok run
      obtain ⟨last,rest,rfl,closes,rfl⟩ := expect_spec ends words.tail.right closed
      rw [run_bind (run_spanFrom _)] at run
      have longer := Derives.call front opens derives closes
      rw [spanOf_append nonempty,latest_append] at longer
      have going := below.suffixes _ _ longer
      rw [start_append nonempty] at going
      obtain ⟨more,rest,rfl,rfl,derives⟩ := going _ _ _ _ words.tail.right.tail run
      exact ⟨first :: (used ++ last :: more),rest,by simp,by simp,by simpa using derives⟩
  next =>
    obtain ⟨_,_,seen,run⟩ := bind_ok run
    rw [run_sees] at seen
    cases seen
    split at run
    next selected =>
      obtain ⟨level,inside,run⟩ := deeper_ok run
      cases ts with
      | nil => simp [is_iff,ends] at selected
      | cons dot ts =>
        have is := is_iff.mp selected
        rw [run_bind (run_advance ends words.tail)] at run
        obtain ⟨label,_,taken,run⟩ := bind_ok run
        obtain ⟨name,rest,rfl,names,rfl⟩ := expectName_spec ends words.tail taken
        rw [run_bind (run_spanFrom _)] at run
        have longer := Derives.field front is names
        rw [spanOf_append nonempty] at longer
        have going := (sound level inside).suffixes _ _ longer
        rw [start_append nonempty] at going
        obtain ⟨more,rest,rfl,rfl,derives⟩ := going _ _ _ _ words.tail.tail run
        exact ⟨dot :: name :: more,rest,rfl,rfl,by simpa using derives⟩
    next =>
      cases run
      exact ⟨[],ts,rfl,rfl,by simpa using front⟩

omit ends in
/-- The operand of a unary operator. -/
theorem reads_applied {op : UnaryOp} {t : Token} {e : Expr} {s : State} (words : Words ts)
    (applied : ∀ used operand, Derives used (.unary operand) →
      Derives (t :: used) (.unary (.unary (spanOf (t :: used)) op operand)))
    (run : (do
      let operand ← deeper inner (·.unary)
      return Expr.unary (← spanFrom t.span.start) op operand) (facing source stop t ts) = .ok (e,s)) :
    ∃ used rest, t :: ts = used ++ rest ∧ s = facing source stop (latest previous used) rest ∧
      Derives used (.unary e) := by
  obtain ⟨operand,_,taken,run⟩ := bind_ok run
  obtain ⟨level,inside,taken⟩ := deeper_ok taken
  obtain ⟨used,rest,rfl,rfl,derives⟩ := (sound level inside).unary _ _ _ _ words taken
  rw [run_bind (run_spanFrom _)] at run
  cases run
  exact ⟨t :: used,rest,rfl,rfl,applied used operand derives⟩

theorem reads_unary : Reads source stop (unary inner) (Derives · <| .unary ·) := by
  intro previous ts e s words run
  rw [unary,run_bind run_currentStart] at run
  obtain ⟨b,_,seen,run⟩ := bind_ok run
  rcases accept_spec ends words seen with ⟨rfl,t,ts,rfl,is,rfl⟩ | ⟨rfl,rfl,-⟩
  · rw [if_pos rfl] at run
    exact reads_applied sound words.tail (fun _ _ => .negate is) run
  rw [if_neg Bool.false_ne_true] at run
  obtain ⟨b,_,seen,run⟩ := bind_ok run
  rcases accept_spec ends words seen with ⟨rfl,t,ts,rfl,is,rfl⟩ | ⟨rfl,rfl,-⟩
  · rw [if_pos rfl] at run
    exact reads_applied sound words.tail (fun _ _ => .not is) run
  rw [if_neg Bool.false_ne_true] at run
  obtain ⟨value,_,taken,run⟩ := bind_ok run
  obtain ⟨used,rest,rfl,rfl,derives⟩ := reads_primary ends sound _ _ _ _ words taken
  rw [start_inView (Opens.plain derives.starts).ne_nil] at run
  obtain ⟨more,rest,rfl,rfl,derives⟩ :=
    reads_suffixes ends sound (.uncalled derives) _ _ _ _ words.right run
  exact ⟨used ++ more,rest,by simp,by simp,.plain derives⟩

theorem reads_chain {tier : Tier} {tighter : List Tier} {before : List Token} {lhs : Expr}
    (left : Derives before (.operand (tier :: tighter) lhs)) :
    Reads source stop (chain inner tier tighter (spanOf before).start lhs) fun ts e =>
      Derives (before ++ ts) (.operand (tier :: tighter) e) := by
  intro previous ts e s words run
  have nonempty : before ≠ [] := left.starts.ne_nil
  rw [chain] at run
  obtain ⟨found,_,seen,run⟩ := bind_ok run
  obtain ⟨rfl,known⟩ := connective?_spec ends seen
  cases found with
  | none =>
    cases run
    exact ⟨[],ts,rfl,rfl,by simpa using left⟩
  | some op =>
    obtain ⟨t,ts,symbol,rfl,is,among⟩ := known op rfl
    dsimp only at run
    rw [run_bind (run_advance ends words.tail)] at run
    obtain ⟨level,inside,run⟩ := deeper_ok run
    have below := sound level inside
    obtain ⟨rhs,_,taken,run⟩ := bind_ok run
    obtain ⟨used,rest,rfl,rfl,right⟩ := below.operand tighter _ _ _ _ words.tail taken
    rw [run_bind (run_spanFrom _)] at run
    have longer := Derives.connect left is among right
    rw [spanOf_append nonempty] at longer
    have going := below.chain tier tighter _ _ longer
    rw [start_append nonempty] at going
    obtain ⟨more,rest,rfl,rfl,derives⟩ := going _ _ _ _ words.tail.right run
    exact ⟨t :: (used ++ more),rest,by simp,by simp,by simpa using derives⟩

theorem reads_operand (list : List Tier) :
    Reads source stop (operand inner list) (Derives · <| .operand list ·) := by
  induction list with
  | nil =>
    intro previous ts e s words run
    obtain ⟨used,rest,rfl,rfl,derives⟩ := reads_unary ends sound _ _ _ _ words run
    exact ⟨used,rest,rfl,rfl,.tightest derives⟩
  | cons tier tighter ih =>
    intro previous ts e s words run
    rw [operand,run_bind run_currentStart] at run
    obtain ⟨lhs,_,taken,run⟩ := bind_ok run
    obtain ⟨used,rest,rfl,rfl,derives⟩ := ih _ _ _ _ words taken
    rw [start_inView derives.starts.ne_nil] at run
    obtain ⟨more,rest,rfl,rfl,derives⟩ :=
      reads_chain ends sound (.tighter derives) _ _ _ _ words.right run
    exact ⟨used ++ more,rest,by simp,by simp,derives⟩

theorem reads_assignment : Reads source stop (assignment inner) (Derives · <| .assignment ·) := by
  intro previous ts e s words run
  rw [assignment,run_bind run_currentStart] at run
  obtain ⟨target,_,taken,run⟩ := bind_ok run
  obtain ⟨used,rest,rfl,rfl,left⟩ := reads_operand ends sound tiers _ _ _ _ words taken
  have nonempty : used ≠ [] := left.starts.ne_nil
  obtain ⟨b,_,seen,run⟩ := bind_ok run
  rcases accept_spec ends words.right seen with ⟨rfl,equals,rest,rfl,is,rfl⟩ | ⟨rfl,rfl,-⟩
  · rw [if_pos rfl] at run
    obtain ⟨value,_,taken,run⟩ := bind_ok run
    obtain ⟨level,inside,taken⟩ := deeper_ok taken
    obtain ⟨more,rest,rfl,rfl,right⟩ := (sound level inside).assignment _ _ _ _ words.right.tail taken
    rw [run_bind (run_spanFrom _),start_inView nonempty] at run
    cases run
    refine ⟨used ++ equals :: more,rest,by simp,by simp,?_⟩
    have whole := Derives.assign left is right
    rwa [spanOf_append nonempty] at whole
  · rw [if_neg Bool.false_ne_true] at run
    cases run
    exact ⟨used,rest,rfl,rfl,.unassigned left⟩

theorem reads_otherwise : Reads source stop (otherwise inner) (Derives · <| .otherwise ·) := by
  intro previous ts no s words run
  rw [otherwise] at run
  obtain ⟨b,_,seen,run⟩ := bind_ok run
  rcases accept_spec ends words seen with ⟨rfl,word,ts,rfl,is,rfl⟩ | ⟨rfl,rfl,-⟩
  · rw [if_pos rfl] at run
    obtain ⟨nested,_,taken,run⟩ := bind_ok run
    obtain ⟨level,inside,taken⟩ := deeper_ok taken
    obtain ⟨used,rest,rfl,rfl,derives⟩ := (sound level inside).conditional _ _ _ _ words.tail taken
    cases run
    exact ⟨word :: used,rest,rfl,rfl,.elif (derives _ is)⟩
  rw [if_neg Bool.false_ne_true] at run
  obtain ⟨b,_,seen,run⟩ := bind_ok run
  rcases accept_spec ends words seen with ⟨rfl,word,ts,rfl,is,rfl⟩ | ⟨rfl,rfl,-⟩
  · rw [if_pos rfl] at run
    obtain ⟨body,_,taken,run⟩ := bind_ok run
    obtain ⟨used,rest,rfl,rfl,derives⟩ := reads_block ends sound _ _ _ _ words.tail taken
    cases run
    exact ⟨word :: used,rest,rfl,rfl,.other is derives⟩
  · rw [if_neg Bool.false_ne_true] at run
    cases run
    exact ⟨[],ts,rfl,rfl,.nothing⟩

theorem reads_conditional : ReadsBranch source stop (conditional inner) := by
  intro word ts st s words run
  rw [conditional,run_bind run_previousStart] at run
  obtain ⟨condition,_,taken,run⟩ := bind_ok run
  obtain ⟨used,rest,rfl,rfl,test⟩ := reads_expression sound _ _ _ _ words taken
  obtain ⟨yes,_,taken,run⟩ := bind_ok run
  obtain ⟨first,rest,rfl,rfl,block⟩ := reads_block ends sound _ _ _ _ words.right taken
  obtain ⟨no,_,taken,run⟩ := bind_ok run
  obtain ⟨second,rest,rfl,rfl,last⟩ := reads_otherwise ends sound _ _ _ _ words.right.right taken
  rw [run_bind (run_spanFrom _)] at run
  cases run
  refine ⟨used ++ (first ++ second),rest,by simp,by simp,fun symbol is => ?_⟩
  have whole := Derives.branch is test block last
  rwa [spanOf,latest_append,latest_append] at whole

omit sound in
/-- A statement that a terminator follows. -/
theorem terminated_spec (word : Token) (used : List Token) {rest : List Token} {node : Span → Stmt}
    {st : Stmt} {s : State} (words : Words rest)
    (run : terminated word.span.start node (facing source stop (latest word used) rest) = .ok (st,s))
    (derives : Derives (word :: used) (.simple (node (spanOf (word :: used))))) :
    ∃ more after, used ++ rest = more ++ after ∧ s = facing source stop (latest word more) after ∧
      (Derives (word :: more) (.whole st) ∨
        Derives (word :: more) (.simple st) ∧ Closes (inView stop after).body) := by
  rw [terminated,run_bind (run_spanFrom _)] at run
  obtain ⟨_,_,ended,run⟩ := bind_ok run
  cases run
  rcases terminator_spec ends words ended with ⟨t,rest,rfl,is,rfl⟩ | ⟨rfl,closes⟩
  · exact ⟨used ++ [t],rest,by simp,by simp,.inl (.terminated derives is)⟩
  · exact ⟨used,rest,rfl,rfl,.inr ⟨derives,closes⟩⟩

theorem reads_functionRest : ReadsBehind source stop .funWord (functionRest inner) := by
  intro word ts st s is words run
  rw [functionRest,run_bind run_previousStart] at run
  obtain ⟨name,_,taken,run⟩ := bind_ok run
  obtain ⟨t,rest,rfl,named,rfl⟩ := expectName_spec ends words taken
  obtain ⟨names,_,taken,run⟩ := bind_ok run
  obtain ⟨used,rest,rfl,rfl,head⟩ := reads_parameters ends _ _ _ _ words.tail taken
  obtain ⟨body,_,taken,run⟩ := bind_ok run
  obtain ⟨more,rest,rfl,rfl,block⟩ := reads_block ends sound _ _ _ _ words.tail.right taken
  rw [run_bind (run_spanFrom _)] at run
  cases run
  refine ⟨t :: (used ++ more),rest,by simp,by simp,.inl ?_⟩
  have whole := Derives.function is named head block
  rwa [spanOf,latest_cons,latest_append] at whole

theorem reads_declarationRest : ReadsBehind source stop .varWord (declarationRest inner) := by
  intro word ts st s is words run
  rw [declarationRest,run_bind run_previousStart] at run
  obtain ⟨name,_,taken,run⟩ := bind_ok run
  obtain ⟨t,rest,rfl,named,rfl⟩ := expectName_spec ends words taken
  obtain ⟨b,_,seen,run⟩ := bind_ok run
  dsimp only at run
  rcases accept_spec ends words.tail seen with ⟨rfl,equals,rest,rfl,gives,rfl⟩ | ⟨rfl,rfl,-⟩
  · rw [if_pos rfl] at run
    obtain ⟨_,_,taken,run⟩ := bind_ok run
    rw [map_eq_pure_bind] at taken
    obtain ⟨value,_,taken,done⟩ := bind_ok taken
    cases done
    obtain ⟨used,rest,rfl,rfl,derives⟩ := reads_expression sound _ _ _ _ words.tail.tail taken
    exact terminated_spec ends word (t :: equals :: used) words.tail.tail.right run
      (.declare is named gives derives)
  · rw [if_neg Bool.false_ne_true] at run
    obtain ⟨_,_,taken,run⟩ := bind_ok run
    cases taken
    exact terminated_spec ends word [t] words.tail run (.declareNil is named)

theorem reads_returnRest : ReadsBehind source stop .returnWord (returnRest inner) := by
  intro word ts st s is words run
  rw [returnRest,run_bind run_previousStart,run_bind run_get] at run
  dsimp only at run
  split at run
  next =>
    obtain ⟨_,_,taken,run⟩ := bind_ok run
    cases taken
    exact terminated_spec ends word [] words run (.retNil is)
  next =>
    obtain ⟨_,_,taken,run⟩ := bind_ok run
    rw [map_eq_pure_bind] at taken
    obtain ⟨value,_,taken,done⟩ := bind_ok taken
    cases done
    obtain ⟨used,rest,rfl,rfl,derives⟩ := reads_expression sound _ _ _ _ words taken
    exact terminated_spec ends word used words.right run (.ret is derives)

theorem reads_expressionStatement :
    ReadsStatement source stop (expressionStatement inner) := by
  intro previous ts st s words run
  rw [expressionStatement,run_bind run_currentStart] at run
  obtain ⟨value,_,taken,run⟩ := bind_ok run
  obtain ⟨used,rest,rfl,rfl,derives⟩ := reads_expression sound _ _ _ _ words taken
  have nonempty : used ≠ [] := derives.starts.ne_nil
  rw [start_inView nonempty] at run
  obtain ⟨first,used,rfl⟩ := List.exists_cons_of_ne_nil nonempty
  obtain ⟨more,after,same,done,ended⟩ :=
    terminated_spec ends first used words.right run (.expression derives)
  exact ⟨first :: more,after,congrArg (first :: ·) same,done,ended⟩

omit sound in
theorem reads_structRest : ReadsBehind source stop .structWord structRest := by
  intro word ts st s is words run
  rw [structRest,run_bind run_previousStart] at run
  obtain ⟨name,_,taken,run⟩ := bind_ok run
  obtain ⟨t,rest,rfl,named,rfl⟩ := expectName_spec ends words taken
  obtain ⟨_,_,opened,run⟩ := bind_ok run
  obtain ⟨first,rest,rfl,opens,rfl⟩ := expect_spec ends words.tail opened
  rw [run_bind run_budget] at run
  obtain ⟨fields,_,taken,run⟩ := bind_ok run
  obtain ⟨used,rest,rfl,rfl,list⟩ :=
    fieldNames_spec ends _ (Nat.lt_succ_self _) words.tail.tail taken
  obtain ⟨_,_,closed,run⟩ := bind_ok run
  obtain ⟨last,rest,rfl,closes,rfl⟩ := expect_spec ends words.tail.tail.right closed
  rw [run_bind (run_spanFrom _)] at run
  cases run
  refine ⟨t :: first :: (used ++ [last]),rest,by simp,by simp,.inl ?_⟩
  have whole := Derives.struct is named opens list closes
  rwa [spanOf,latest_cons,latest_cons,latest_append] at whole

theorem reads_loopRest : ReadsBehind source stop .loopWord (loopRest inner (pure none)) := by
  intro word ts st s is words run
  rw [loopRest,run_bind run_previousStart,pure_bind] at run
  obtain ⟨body,_,taken,run⟩ := bind_ok run
  obtain ⟨used,rest,rfl,rfl,block⟩ := reads_block ends sound _ _ _ _ words taken
  rw [run_bind (run_spanFrom _)] at run
  cases run
  exact ⟨used,rest,rfl,rfl,.inl (.loop is block)⟩

theorem reads_whileRest :
    ReadsBehind source stop .whileWord (loopRest inner (some <$> expression inner)) := by
  intro word ts st s is words run
  rw [loopRest,run_bind run_previousStart,map_eq_pure_bind,bind_assoc] at run
  obtain ⟨condition,_,taken,run⟩ := bind_ok run
  rw [pure_bind] at run
  obtain ⟨used,rest,rfl,rfl,test⟩ := reads_expression sound _ _ _ _ words taken
  obtain ⟨body,_,taken,run⟩ := bind_ok run
  obtain ⟨more,rest,rfl,rfl,block⟩ := reads_block ends sound _ _ _ _ words.right taken
  rw [run_bind (run_spanFrom _)] at run
  cases run
  refine ⟨used ++ more,rest,by simp,by simp,.inl ?_⟩
  have whole := Derives.loopWhile is test block
  rwa [spanOf,latest_append] at whole

theorem reads_statement : ReadsStatement source stop (statement inner) := by
  intro previous ts st s words run
  have plain := reads_expressionStatement ends sound previous ts st s words
  rw [statement,run_bind run_get,current_facing] at run
  cases ts with
  | nil =>
    simp only [inView_nil,ends] at run
    exact plain run
  | cons t ts =>
    rw [inView_cons] at run
    have behind {symbol : Symbol} {p : Parser Stmt} (is : t.body = .symbol symbol)
        (reads : ReadsBehind source stop symbol p)
        (run : (advance >>= fun _ => p) (facing source stop previous (t :: ts)) = .ok (st,s)) :
        ∃ used rest, t :: ts = used ++ rest ∧ s = facing source stop (latest previous used) rest ∧
          (Derives used (.whole st) ∨ Derives used (.simple st) ∧ Closes (inView stop rest).body) := by
      rw [run_bind (run_advance ends words.tail)] at run
      obtain ⟨used,rest,rfl,rfl,derives⟩ := reads t ts st s is words.tail run
      exact ⟨t :: used,rest,rfl,rfl,derives⟩
    cases is : t.body with
    | number | string | name | invalid | endOfScript =>
      rw [is] at run
      exact plain run
    | symbol symbol =>
      rw [is] at run
      cases symbol with
      | leftBrace =>
        refine behind is (fun word ts st s is words run => ?_) run
        rw [run_bind run_previousStart] at run
        obtain ⟨body,_,taken,run⟩ := bind_ok run
        obtain ⟨used,rest,rfl,rfl,block⟩ := reads_blockRest ends sound _ _ _ _ words taken
        rw [run_bind (run_spanFrom _)] at run
        cases run
        exact ⟨used,rest,rfl,rfl,.inl (.block (block word is))⟩
      | funWord =>
        dsimp only at run
        split at run
        next => exact behind is (reads_functionRest ends sound) run
        next => exact plain run
      | varWord => exact behind is (reads_declarationRest ends sound) run
      | structWord => exact behind is (reads_structRest ends) run
      | printWord =>
        refine behind is (fun word ts st s is words run => ?_) run
        rw [run_bind run_previousStart] at run
        obtain ⟨value,_,taken,run⟩ := bind_ok run
        obtain ⟨used,rest,rfl,rfl,derives⟩ := reads_expression sound _ _ _ _ words taken
        exact terminated_spec ends word used words.right run (.print is derives)
      | returnWord => exact behind is (reads_returnRest ends sound) run
      | ifWord =>
        refine behind is (fun word ts st s is words run => ?_) run
        obtain ⟨used,rest,rfl,rfl,derives⟩ := reads_conditional ends sound _ _ _ _ words run
        exact ⟨used,rest,rfl,rfl,.inl (.conditional (derives _ is))⟩
      | loopWord => exact behind is (reads_loopRest ends sound) run
      | whileWord => exact behind is (reads_whileRest ends sound) run
      | breakWord =>
        refine behind is (fun word ts st s is words run => ?_) run
        rw [run_bind run_previousStart] at run
        exact terminated_spec ends word [] words run (.breakLoop is)
      | continueWord =>
        refine behind is (fun word ts st s is words run => ?_) run
        rw [run_bind run_previousStart] at run
        exact terminated_spec ends word [] words run (.continueLoop is)
      | _ => exact plain run

theorem sound_build : (build inner).Sound source stop :=
  ⟨reads_expression sound,reads_assignment ends sound,reads_operand ends sound,
    fun _ _ _ _ left => reads_chain ends sound left,reads_unary ends sound,
    fun _ _ front => reads_suffixes ends sound front,reads_statement ends sound,
    reads_conditional ends sound⟩

end

/-- By induction on how many levels are left. -/
theorem sound_level (ends : stop.body = .endOfScript) (n : Nat) : (level n).Sound source stop := by
  induction n with
  | zero => exact sound_build ends fun _ inside => nomatch inside
  | succ n ih =>
    refine sound_build ends fun _ inside => ?_
    cases inside
    exact ih

/-- A script is read from its first word on. -/
theorem program_start (source : Source) (ends : stop.body = .endOfScript) (words : Words ts) :
    ∃ t ahead, ts ++ [stop] = t :: ahead ∧ t.diagnostic? source = none ∧ ahead.length = ts.length ∧
      State.clear source t t ahead = facing source stop (inView stop ts) ts := by
  cases ts with
  | nil => exact ⟨stop,[],rfl,by simp [Token.diagnostic?,ends],rfl,rfl⟩
  | cons t rest =>
    exact ⟨t,rest ++ [stop],rfl,diagnostic?_word source (words t List.mem_cons_self),by simp,rfl⟩

/-- A script that is read was derived from its tokens. -/
theorem derives_of_program {body : List Stmt} (ends : stop.body = .endOfScript) (words : Words ts)
    (accepted : program source (ts ++ [stop]) = .ok body) : Derives ts (.statements body) := by
  obtain ⟨first,ahead,split,sound,length,start⟩ := program_start source ends words
  rw [split,program_eq_ok sound,start,length] at accepted
  obtain ⟨s,read⟩ := accepted
  obtain ⟨used,rest,rfl,-,derives,closed⟩ := statements_spec ends
    (sound_level ends depthLimit).statement false _ (Nat.lt_succ_self _) words read
  cases rest with
  | nil => rwa [List.append_nil]
  | cons t rest =>
    have word := words t (List.mem_append_right used List.mem_cons_self)
    have is : t.body = .endOfScript := closed rfl
    rw [Token.isWord,is] at word
    contradiction

end ScriptMachine.Parse
