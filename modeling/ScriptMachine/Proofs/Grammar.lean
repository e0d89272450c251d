import Mathlib
import ScriptMachine.Tree.Parse

/-! The grammar of scripts. It says which stretches of tokens stand for which trees, and nothing about
how they are read: there are no levels, no lookahead and no state. -/
namespace ScriptMachine

namespace Grammar

open Parse

/-- The last of some tokens, or the one before them. -/
def latest (previous : Token) : List Token → Token
  | [] => previous
  | t :: ts => latest t ts

@[simp] theorem latest_nil (previous : Token) : latest previous [] = previous := rfl

@[simp] theorem latest_cons (previous t : Token) (ts : List Token) :
    latest previous (t :: ts) = latest t ts := rfl

@[simp] theorem latest_append (previous : Token) (ts us : List Token) :
    latest previous (ts ++ us) = latest (latest previous ts) us := by
  induction ts generalizing previous with
  | nil => rfl
  | cons t ts ih => rw [List.cons_append,latest_cons,ih,latest_cons]

/-- The range of a stretch of tokens. -/
def spanOf : List Token → Span
  | [] => ⟨0, 0⟩
  | first :: rest => ⟨first.span.start, (latest first rest).span.stop⟩

/-- The binary operators by precedence, the loosest first. -/
def precedences : List Tier :=
  [[(.orWord, .logical .either)],
    [(.andWord, .logical .both)],
    [(.equalsEquals, .binary .equal), (.notEquals, .binary .notEqual)],
    [(.less, .binary .less), (.lessEquals, .binary .lessEqual), (.more, .binary .more),
      (.moreEquals, .binary .moreEqual)],
    [(.plus, .binary .add), (.minus, .binary .subtract)],
    [(.star, .binary .multiply), (.slash, .binary .divide), (.percent, .binary .remainder)]]

theorem start_append {ts : List Token} (nonempty : ts ≠ []) (us : List Token) :
    (spanOf (ts ++ us)).start = (spanOf ts).start := by
  cases ts with
  | nil => exact absurd rfl nonempty
  | cons t ts => rfl

theorem spanOf_append {ts : List Token} (nonempty : ts ≠ []) (t : Token) (us : List Token) :
    spanOf (ts ++ t :: us) = ⟨(spanOf ts).start,(latest t us).span.stop⟩ := by
  cases ts with
  | nil => exact absurd rfl nonempty
  | cons first ts => simp [spanOf]

/-- Names divided by commas, at least one. -/
inductive Names : List Token → List Bytes → Prop
  | one {t : Token} {name : Bytes} (is : t.body = .name name) : Names [t] [name]
  | more {t comma : Token} {ts : List Token} {name : Bytes} {names : List Bytes}
      (is : t.body = .name name) (divides : comma.body = .symbol .comma) (rest : Names ts names) :
      Names (t :: comma :: ts) (name :: names)

/-- Parameters with their parentheses. -/
inductive Parameters : List Token → List Bytes → Prop
  | none {first last : Token} (opens : first.body = .symbol .leftParen)
      (closes : last.body = .symbol .rightParen) : Parameters [first, last] []
  | some {first last : Token} {ts : List Token} {names : List Bytes}
      (opens : first.body = .symbol .leftParen) (list : Names ts names)
      (closes : last.body = .symbol .rightParen) : Parameters (first :: (ts ++ [last])) names

/-- The names of fields, divided by commas; a comma may follow the last. -/
inductive Fields : List Token → List Bytes → Prop
  | none : Fields [] []
  | one {t : Token} {name : Bytes} (is : t.body = .name name) : Fields [t] [name]
  | more {t comma : Token} {ts : List Token} {name : Bytes} {names : List Bytes}
      (is : t.body = .name name) (divides : comma.body = .symbol .comma) (rest : Fields ts names) :
      Fields (t :: comma :: ts) (name :: names)

/-- What a stretch of tokens can be. An operand is made of the given precedences and what binds tighter.
A simple statement stands without its semicolon, a whole one lacks nothing. -/
inductive Phrase where
  | assignment (value : Expr)
  | operand (tiers : List Tier) (value : Expr)
  | unary (value : Expr)
  | call (value : Expr)
  | primary (value : Expr)
  | values (values : List Expr)
  | arguments (values : List Expr)
  | block (body : List Stmt)
  | otherwise (no : Option (List Stmt))
  | conditional (word : Symbol) (branch : Stmt)
  | simple (statement : Stmt)
  | whole (statement : Stmt)
  | statements (body : List Stmt)

/-- The rules. Each binary precedence is left recursive and assignment is right recursive; a lone
semicolon leaves no node, and the last statement of a block or a script may lack its semicolon. -/
inductive Derives : List Token → Phrase → Prop
  | assign {ts us : List Token} {equals : Token} {target value : Expr}
      (left : Derives ts (.operand precedences target)) (is : equals.body = .symbol .equals)
      (right : Derives us (.assignment value)) :
      Derives (ts ++ equals :: us)
        (.assignment (.assign (spanOf (ts ++ equals :: us)) target value))
  | unassigned {ts : List Token} {value : Expr} (left : Derives ts (.operand precedences value)) :
      Derives ts (.assignment value)
  | connect {tier : Tier} {tighter : List Tier} {ts us : List Token} {t : Token} {s : Symbol}
      {op : Connective} {lhs rhs : Expr} (left : Derives ts (.operand (tier :: tighter) lhs))
      (is : t.body = .symbol s) (among : (s, op) ∈ tier) (right : Derives us (.operand tighter rhs)) :
      Derives (ts ++ t :: us) (.operand (tier :: tighter) (op.node (spanOf (ts ++ t :: us)) lhs rhs))
  | tighter {tier : Tier} {tighter : List Tier} {ts : List Token} {value : Expr}
      (inner : Derives ts (.operand tighter value)) : Derives ts (.operand (tier :: tighter) value)
  | tightest {ts : List Token} {value : Expr} (inner : Derives ts (.unary value)) :
      Derives ts (.operand [] value)
  | negate {ts : List Token} {minus : Token} {operand : Expr} (is : minus.body = .symbol .minus)
      (inner : Derives ts (.unary operand)) :
      Derives (minus :: ts) (.unary (.unary (spanOf (minus :: ts)) .negate operand))
  | not {ts : List Token} {bang : Token} {operand : Expr} (is : bang.body = .symbol .bang)
      (inner : Derives ts (.unary operand)) :
      Derives (bang :: ts) (.unary (.unary (spanOf (bang :: ts)) .not operand))
  | plain {ts : List Token} {value : Expr} (inner : Derives ts (.call value)) : Derives ts (.unary value)
  | call {ts us : List Token} {first last : Token} {callee : Expr} {values : List Expr}
      (front : Derives ts (.call callee)) (opens : first.body = .symbol .leftParen)
      (inner : Derives us (.arguments values)) (closes : last.body = .symbol .rightParen) :
      Derives (ts ++ first :: (us ++ [last]))
        (.call (.call (spanOf (ts ++ first :: (us ++ [last]))) callee values))
  | field {ts : List Token} {dot name : Token} {object : Expr} {label : Bytes}
      (front : Derives ts (.call object)) (is : dot.body = .symbol .dot) (names : name.body = .name label) :
      Derives (ts ++ [dot, name]) (.call (.field (spanOf (ts ++ [dot, name])) object label))
  | uncalled {ts : List Token} {value : Expr} (inner : Derives ts (.primary value)) :
      Derives ts (.call value)
  | number {t : Token} {value : Float} (is : t.body = .number value) :
      Derives [t] (.primary (.number t.span value))
  | string {t : Token} {text : Bytes} (is : t.body = .string text) :
      Derives [t] (.primary (.string t.span text))
  | name {t : Token} {spelling : Bytes} (is : t.body = .name spelling) :
      Derives [t] (.primary (.name t.span spelling))
  | truth {t : Token} (is : t.body = .symbol .trueWord) : Derives [t] (.primary (.bool t.span true))
  | falsehood {t : Token} (is : t.body = .symbol .falseWord) : Derives [t] (.primary (.bool t.span false))
  | nil {t : Token} (is : t.body = .symbol .nilWord) : Derives [t] (.primary (.nil t.span))
  | parens {ts : List Token} {first last : Token} {value : Expr}
      (opens : first.body = .symbol .leftParen) (inner : Derives ts (.assignment value))
      (closes : last.body = .symbol .rightParen) : Derives (first :: (ts ++ [last])) (.primary value)
  | lambda {ts us : List Token} {word : Token} {names : List Bytes} {body : List Stmt}
      (is : word.body = .symbol .funWord) (head : Parameters ts names) (inner : Derives us (.block body)) :
      Derives (word :: (ts ++ us)) (.primary (.lambda (spanOf (word :: (ts ++ us))) names body))
  | last {ts : List Token} {value : Expr} (only : Derives ts (.assignment value)) :
      Derives ts (.values [value])
  | more {ts us : List Token} {comma : Token} {value : Expr} {values : List Expr}
      (first : Derives ts (.assignment value)) (divides : comma.body = .symbol .comma)
      (rest : Derives us (.values values)) : Derives (ts ++ comma :: us) (.values (value :: values))
  | noArguments : Derives [] (.arguments [])
  | arguments {ts : List Token} {values : List Expr} (some : Derives ts (.values values)) :
      Derives ts (.arguments values)
  | braces {ts : List Token} {first last : Token} {body : List Stmt}
      (opens : first.body = .symbol .leftBrace) (inner : Derives ts (.statements body))
      (closes : last.body = .symbol .rightBrace) : Derives (first :: (ts ++ [last])) (.block body)
  | nothing : Derives [] (.otherwise none)
  | elif {ts : List Token} {branch : Stmt} (inner : Derives ts (.conditional .elifWord branch)) :
      Derives ts (.otherwise (some [branch]))
  | other {ts : List Token} {word : Token} {body : List Stmt} (is : word.body = .symbol .elseWord)
      (inner : Derives ts (.block body)) : Derives (word :: ts) (.otherwise (some body))
  | branch {ts us vs : List Token} {word : Token} {s : Symbol} {condition : Expr} {yes : List Stmt}
      {no : Option (List Stmt)} (is : word.body = .symbol s) (test : Derives ts (.assignment condition))
      (first : Derives us (.block yes)) (second : Derives vs (.otherwise no)) :
      Derives (word :: (ts ++ (us ++ vs)))
        (.conditional s (.branch (spanOf (word :: (ts ++ (us ++ vs)))) condition yes no))
  | expression {ts : List Token} {value : Expr} (inner : Derives ts (.assignment value)) :
      Derives ts (.simple (.expression (spanOf ts) value))
  | print {ts : List Token} {word : Token} {value : Expr} (is : word.body = .symbol .printWord)
      (inner : Derives ts (.assignment value)) :
      Derives (word :: ts) (.simple (.print (spanOf (word :: ts)) value))
  | declareNil {word t : Token} {name : Bytes} (is : word.body = .symbol .varWord)
      (names : t.body = .name name) :
      Derives [word, t] (.simple (.declare (spanOf [word, t]) name none))
  | declare {ts : List Token} {word t equals : Token} {name : Bytes} {value : Expr}
      (is : word.body = .symbol .varWord) (names : t.body = .name name)
      (gives : equals.body = .symbol .equals) (inner : Derives ts (.assignment value)) :
      Derives (word :: t :: equals :: ts)
        (.simple (.declare (spanOf (word :: t :: equals :: ts)) name (some value)))
  | retNil {word : Token} (is : word.body = .symbol .returnWord) :
      Derives [word] (.simple (.ret (spanOf [word]) none))
  | ret {ts : List Token} {word : Token} {value : Expr} (is : word.body = .symbol .returnWord)
      (inner : Derives ts (.assignment value)) :
      Derives (word :: ts) (.simple (.ret (spanOf (word :: ts)) (some value)))
  | breakLoop {word : Token} (is : word.body = .symbol .breakWord) :
      Derives [word] (.simple (.breakLoop (spanOf [word])))
  | continueLoop {word : Token} (is : word.body = .symbol .continueWord) :
      Derives [word] (.simple (.continueLoop (spanOf [word])))
  | terminated {ts : List Token} {semicolon : Token} {statement : Stmt}
      (inner : Derives ts (.simple statement)) (ends : semicolon.body = .symbol .semicolon) :
      Derives (ts ++ [semicolon]) (.whole statement)
  | block {ts : List Token} {body : List Stmt} (inner : Derives ts (.block body)) :
      Derives ts (.whole (.block (spanOf ts) body))
  | function {ts us : List Token} {word t : Token} {name : Bytes} {names : List Bytes} {body : List Stmt}
      (is : word.body = .symbol .funWord) (named : t.body = .name name) (head : Parameters ts names)
      (inner : Derives us (.block body)) :
      Derives (word :: t :: (ts ++ us))
        (.whole (.function (spanOf (word :: t :: (ts ++ us))) name names body))
  | struct {ts : List Token} {word t first last : Token} {name : Bytes} {fields : List Bytes}
      (is : word.body = .symbol .structWord) (named : t.body = .name name)
      (opens : first.body = .symbol .leftBrace) (list : Fields ts fields)
      (closes : last.body = .symbol .rightBrace) :
      Derives (word :: t :: first :: (ts ++ [last]))
        (.whole (.struct (spanOf (word :: t :: first :: (ts ++ [last]))) name fields))
  | conditional {ts : List Token} {branch : Stmt} (inner : Derives ts (.conditional .ifWord branch)) :
      Derives ts (.whole branch)
  | loop {ts : List Token} {word : Token} {body : List Stmt} (is : word.body = .symbol .loopWord)
      (inner : Derives ts (.block body)) :
      Derives (word :: ts) (.whole (.loop (spanOf (word :: ts)) none body))
  | loopWhile {ts us : List Token} {word : Token} {condition : Expr} {body : List Stmt}
      (is : word.body = .symbol .whileWord) (test : Derives ts (.assignment condition))
      (inner : Derives us (.block body)) :
      Derives (word :: (ts ++ us)) (.whole (.loop (spanOf (word :: (ts ++ us))) (some condition) body))
  | done : Derives [] (.statements [])
  | lone {ts : List Token} {semicolon : Token} {body : List Stmt}
      (is : semicolon.body = .symbol .semicolon) (rest : Derives ts (.statements body)) :
      Derives (semicolon :: ts) (.statements body)
  | statement {ts us : List Token} {first : Stmt} {body : List Stmt} (head : Derives ts (.whole first))
      (rest : Derives us (.statements body)) : Derives (ts ++ us) (.statements (first :: body))
  | unterminated {ts : List Token} {only : Stmt} (last : Derives ts (.simple only)) :
      Derives ts (.statements [only])

/-- Whether a literal, a name or an expression in parentheses can start with it. -/
def leads : Token.Body → Bool
  | .number _ | .string _ | .name _ => true
  | .symbol s => s ∈ [.trueWord, .falseWord, .nilWord, .leftParen]
  | _ => false

/-- Whether an expression can start with it. -/
def opens : Token.Body → Bool
  | .symbol s => s ∈ [.trueWord, .falseWord, .nilWord, .leftParen, .minus, .bang, .funWord]
  | body => leads body

/-- Whether a statement can start with it. -/
def begins : Token.Body → Bool
  | .symbol s => s ∉ [.semicolon, .rightBrace, .elifWord, .elseWord]
  | .endOfScript => false
  | _ => true

/-- An operand without a sign can start so. -/
inductive Leads : List Token → Prop
  | atom {t : Token} {rest : List Token} (is : leads t.body = true) : Leads (t :: rest)
  | lambda {word first : Token} {rest : List Token} (is : word.body = .symbol .funWord)
      (opens : first.body = .symbol .leftParen) : Leads (word :: first :: rest)

/-- An expression can start so. -/
inductive Opens : List Token → Prop
  | plain {ts : List Token} (leads : Leads ts) : Opens ts
  | signed {t : Token} {rest : List Token} (is : t.body = .symbol .minus ∨ t.body = .symbol .bang) :
      Opens (t :: rest)

/-- A statement can start so. -/
inductive Begins : List Token → Prop
  | first {t : Token} {rest : List Token} (is : begins t.body = true) : Begins (t :: rest)

theorem Leads.append {ts : List Token} (starts : Leads ts) (us : List Token) : Leads (ts ++ us) := by
  cases starts with
  | atom is => exact .atom is
  | lambda is opens => exact .lambda is opens

theorem Opens.append {ts : List Token} (starts : Opens ts) (us : List Token) : Opens (ts ++ us) := by
  cases starts with
  | plain leads => exact .plain (leads.append us)
  | signed is => exact .signed is

theorem Begins.append {ts : List Token} (starts : Begins ts) (us : List Token) : Begins (ts ++ us) := by
  cases starts with
  | first is => exact .first is

theorem Begins.ne_nil {ts : List Token} (starts : Begins ts) : ts ≠ [] := by
  cases starts
  exact List.cons_ne_nil _ _

theorem Opens.first {ts : List Token} (starts : Opens ts) :
    ∃ t rest, ts = t :: rest ∧ opens t.body = true := by
  cases starts with
  | plain leads =>
    cases leads with
    | @atom t rest is =>
      refine ⟨t,rest,rfl,?_⟩
      cases body : t.body <;> simp_all [opens,Grammar.leads]
      tauto
    | lambda is => exact ⟨_,_,rfl,by rw [is]; rfl⟩
  | signed is => rcases is with is | is <;> exact ⟨_,_,rfl,by rw [is]; rfl⟩

theorem Opens.ne_nil {ts : List Token} (starts : Opens ts) : ts ≠ [] := by
  obtain ⟨t,rest,rfl,-⟩ := starts.first
  exact List.cons_ne_nil _ _

theorem begins_of_opens {body : Token.Body} (is : opens body = true) : begins body = true := by
  cases body with
  | symbol s =>
    have among : s ∈ [.trueWord,.falseWord,.nilWord,.leftParen,.minus,.bang,.funWord] :=
      of_decide_eq_true is
    simp only [List.mem_cons,List.not_mem_nil,or_false] at among
    rcases among with rfl | rfl | rfl | rfl | rfl | rfl | rfl <;> rfl
  | invalid | endOfScript => contradiction
  | _ => rfl

theorem Opens.begins {ts : List Token} (starts : Opens ts) : Begins ts := by
  obtain ⟨t,rest,rfl,is⟩ := starts.first
  exact .first (begins_of_opens is)

/-- How a phrase starts. -/
def Phrase.Starts (ts : List Token) : Phrase → Prop
  | .assignment _ | .operand _ _ | .unary _ | .values _ => Opens ts
  | .call _ | .primary _ => Leads ts
  | .block _ => ∃ first rest, ts = first :: rest ∧ first.body = .symbol .leftBrace
  | .conditional s _ => ∃ word rest, ts = word :: rest ∧ word.body = .symbol s
  | .simple _ | .whole _ => Begins ts
  | .statements body => (ts = [] → body = []) ∧
    ∀ t ∈ ts.head?, t.body = .symbol .semicolon ∨ begins t.body = true
  | .arguments _ | .otherwise _ => True

theorem Parameters.starts {ts : List Token} {names : List Bytes} (parameters : Parameters ts names) :
    ∃ first rest, ts = first :: rest ∧ first.body = .symbol .leftParen := by
  cases parameters with
  | none opens => exact ⟨_,_,rfl,opens⟩
  | some opens => exact ⟨_,_,rfl,opens⟩

/-- By induction over the rules: no expression starts like the rest of a statement, and no statement
like what may follow one. -/
theorem Derives.starts {ts : List Token} {phrase : Phrase} (derives : Derives ts phrase) :
    phrase.Starts ts := by
  induction derives with
  | assign _ _ _ left | connect _ _ _ _ left | more _ _ _ left => exact left.append _
  | unassigned _ inner | tighter _ inner | tightest _ inner | last _ inner | uncalled _ inner =>
    exact inner
  | negate is => exact .signed (.inl is)
  | not is => exact .signed (.inr is)
  | plain _ inner => exact .plain inner
  | call _ _ _ _ front | field _ _ _ front => exact front.append _
  | number is | string is | name is | truth is | falsehood is | nil is | parens is =>
    exact .atom (by rw [is]; rfl)
  | lambda is head =>
    obtain ⟨first,rest,rfl,opens⟩ := head.starts
    exact .lambda is opens
  | braces is | branch is => exact ⟨_,_,rfl,is⟩
  | noArguments | arguments | nothing | elif | other => trivial
  | done => exact ⟨fun _ => rfl,by simp⟩
  | lone is => exact ⟨by simp,by simp [is]⟩
  | statement _ _ head | unterminated _ head =>
    cases head with
    | first is => exact ⟨by simp,by simp [is]⟩
  | expression _ inner => exact inner.begins
  | print is | declareNil is | declare is | retNil is | ret is | breakLoop is | continueLoop is
  | function is | struct is | loop is | loopWhile is => exact .first (by rw [is]; rfl)
  | terminated _ _ inner => exact inner.append _
  | block _ inner | conditional _ inner =>
    obtain ⟨first,rest,rfl,is⟩ := inner
    exact .first (by rw [is]; rfl)

end Grammar

end ScriptMachine
