import Mathlib
import ScriptMachine.Proofs.Derivation

/-! Every tree that has a derivation is read. How many levels that takes depends on the tree; with fewer
the reader says that the nesting is too deep. -/
namespace ScriptMachine.Parse

open Grammar

variable {source : Source} {stop previous : Token} {ts : List Token} {α β : Type}

/-- What is below the level with so many levels left. -/
def below : Nat → Option Level
  | 0 => none
  | n + 1 => some (level n)

theorem level_eq (n : Nat) : level n = build (below n) := by
  cases n <;> rfl

/-- With enough levels the reader takes this, and otherwise it finds the nesting too deep. -/
def Takes (reader : Option Level → Parser α) (s : State) (a : α) (t : State) : Prop :=
  ∃ need, ∀ n, (need ≤ n → reader (below n) s = .ok (a,t)) ∧
    (n < need → ∃ refusal : Account, reader (below n) s = .error refusal ∧
      refusal.Faults fun d => ∃ kind, d.cause = .tooDeep kind)

theorem run_error {p : Parser α} {s : State} {a : Account} (first : p s = .error a)
    (k : α → Parser β) : (p >>= k) s = .error a := by
  change (p s >>= fun x => k x.1 x.2) = _
  rw [first]
  rfl

section

variable {reader : Option Level → Parser α} {s t u : State} {a : α} {b : β}

theorem Takes.const {p : Parser α} (run : p s = .ok (a,t)) : Takes (fun _ => p) s a t :=
  ⟨0,fun n => ⟨fun _ => run,fun impossible => absurd impossible (Nat.not_lt_zero n)⟩⟩

theorem Takes.congr {other : Option Level → Parser α} (same : ∀ inner, reader inner s = other inner s)
    (takes : Takes other s a t) : Takes reader s a t := by
  simpa only [Takes,same] using takes

theorem Takes.bind {k : Option Level → α → Parser β} (first : Takes reader s a t)
    (rest : Takes (fun inner => k inner a) t b u) : Takes (fun inner => reader inner >>= k inner) s b u := by
  obtain ⟨need,known⟩ := first
  obtain ⟨more,others⟩ := rest
  refine ⟨max need more,fun n => ⟨fun enough => ?_,fun few => ?_⟩⟩ <;> dsimp only
  · rw [run_bind ((known n).1 (le_of_max_le_left enough))]
    exact (others n).1 (le_of_max_le_right enough)
  · by_cases enough : need ≤ n
    · rw [run_bind ((known n).1 enough)]
      exact (others n).2 ((lt_max_iff.mp few).resolve_left (Nat.not_lt.mpr enough))
    · obtain ⟨refusal,failed,deep⟩ := (known n).2 (Nat.lt_of_not_le enough)
      exact ⟨refusal,run_error failed _,deep⟩

/-- First something that does not nest. -/
theorem Takes.next {p : Parser α} {k : Option Level → α → Parser β} (first : p s = .ok (a,t))
    (rest : Takes (fun inner => k inner a) t b u) : Takes (fun inner => p >>= k inner) s b u :=
  (Takes.const first).bind rest

theorem Takes.map (f : α → β) (takes : Takes reader s a t) :
    Takes (fun inner => f <$> reader inner) s (f a) t := by
  simp only [map_eq_pure_bind]
  exact takes.bind (.const rfl)

/-- One level more is needed than by the reader below. -/
theorem Takes.deeper {reader : Level → Parser α}
    (inside : Takes (fun inner => reader (build inner)) (facing source stop previous ts) a t) :
    Takes (fun inner => Parse.deeper inner reader) (facing source stop previous ts) a t := by
  obtain ⟨need,known⟩ := inside
  refine ⟨need + 1,fun n => ?_⟩
  cases n with
  | zero =>
    refine ⟨fun impossible => absurd impossible (Nat.not_succ_le_zero need),fun _ => ⟨_,rfl,?_⟩⟩
    exact ⟨_,(clear_facing source stop previous ts).fault_note _ _,_,rfl⟩
  | succ n =>
    have here := known n
    dsimp only at here
    rw [← level_eq] at here
    exact ⟨fun enough => here.1 (Nat.le_of_succ_le_succ enough),
      fun few => here.2 (Nat.lt_of_succ_lt_succ few)⟩

theorem Takes.accepts {symbol : Symbol} {first : Token} {yes no : Option Level → Parser α}
    (ends : stop.body = .endOfScript) (is : first.body = .symbol symbol) (words : Words ts)
    (takes : Takes yes (facing source stop first ts) a t) :
    Takes (fun inner => accept symbol >>= fun b => if b = true then yes inner else no inner)
      (facing source stop previous (first :: ts)) a t :=
  .next (run_accept ends is words) takes

theorem Takes.declines {symbol : Symbol} {yes no : Option Level → Parser α}
    (other : (inView stop ts).body ≠ .symbol symbol)
    (takes : Takes no (facing source stop previous ts) a t) :
    Takes (fun inner => accept symbol >>= fun b => if b = true then yes inner else no inner)
      (facing source stop previous ts) a t :=
  .next (run_decline other) takes

end

/-- Nothing that continues an operand made of these precedences. -/
def apart (list : List Tier) : Token.Body → Bool
  | .symbol s => s ≠ .leftParen && s ≠ .dot && list.all fun tier => (tier.lookup s).isNone
  | _ => true

/-- Nothing that continues an expression. -/
def finishes (body : Token.Body) : Bool :=
  apart tiers body && body ≠ .symbol .equals

/-- Nothing that continues a branch. -/
def settles (body : Token.Body) : Bool :=
  body ≠ .symbol .elifWord && body ≠ .symbol .elseWord

theorem Closes.finishes {body : Token.Body} (closes : Closes body) : finishes body = true := by
  rcases closes with rfl | rfl <;> rfl

/-- How a phrase is read, whatever stands behind it that does not belong to it. An operand and a call are
read up to a point where more may be added to them. -/
def Readable (source : Source) (stop : Token) (ts : List Token) : Phrase → Prop
  | .assignment e => ∀ previous rest, Words (ts ++ rest) → finishes (inView stop rest).body = true →
    Takes assignment (facing source stop previous (ts ++ rest)) e
      (facing source stop (latest previous ts) rest)
  | .operand [] e | .unary e => ∀ previous rest, Words (ts ++ rest) →
    apart [] (inView stop rest).body = true →
    Takes unary (facing source stop previous (ts ++ rest)) e (facing source stop (latest previous ts) rest)
  | .operand (tier :: tighter) e => tier :: tighter <:+ tiers → ∀ previous rest, Words (ts ++ rest) →
    apart tighter (inView stop rest).body = true → ∀ x t,
    Takes (chain · tier tighter (spanOf ts).start e) (facing source stop (latest previous ts) rest) x t →
    Takes (operand · (tier :: tighter)) (facing source stop previous (ts ++ rest)) x t
  | .call e => ∀ previous rest, Words (ts ++ rest) → ∀ x t,
    Takes (suffixes · (spanOf ts).start e) (facing source stop (latest previous ts) rest) x t →
    Takes unary (facing source stop previous (ts ++ rest)) x t
  | .primary e => ∀ previous rest, Words (ts ++ rest) →
    Takes primary (facing source stop previous (ts ++ rest)) e (facing source stop (latest previous ts) rest)
  | .values es => ∀ fuel previous rest, ts.length < fuel → Words (ts ++ rest) →
    (inView stop rest).body = .symbol .rightParen →
    Takes (fun inner => commaSeparated (expression inner) fuel)
      (facing source stop previous (ts ++ rest)) es (facing source stop (latest previous ts) rest)
  | .arguments es => ∀ previous rest, Words (ts ++ rest) → (inView stop rest).body = .symbol .rightParen →
    Takes (fun inner => arguments (build inner))
      (facing source stop previous (ts ++ rest)) es (facing source stop (latest previous ts) rest)
  | .block body => ∀ first us, ts = first :: us → ∀ rest, Words (us ++ rest) →
    Takes blockRest (facing source stop first (us ++ rest)) body (facing source stop (latest first us) rest)
  | .otherwise no => ∀ previous rest, Words (ts ++ rest) → settles (inView stop rest).body = true →
    Takes otherwise (facing source stop previous (ts ++ rest)) no
      (facing source stop (latest previous ts) rest)
  | .conditional _ st => ∀ word us, ts = word :: us → ∀ rest, Words (us ++ rest) →
    settles (inView stop rest).body = true →
    Takes conditional (facing source stop word (us ++ rest)) st (facing source stop (latest word us) rest)
  | .simple st => ∀ previous rest, Words (ts ++ rest) → finishes (inView stop rest).body = true → ∀ t,
    terminator (facing source stop (latest previous ts) rest) = .ok ((),t) →
    Takes statement (facing source stop previous (ts ++ rest)) st t
  | .whole st => ∀ previous rest, Words (ts ++ rest) → settles (inView stop rest).body = true →
    Takes statement (facing source stop previous (ts ++ rest)) st
      (facing source stop (latest previous ts) rest)
  | .statements body => ∀ inBlock fuel previous rest, ts.length < fuel → Words (ts ++ rest) →
    ((inView stop rest).body = .endOfScript ∨
      inBlock = true ∧ (inView stop rest).body = .symbol .rightBrace) →
    Takes (fun inner => statements inBlock (statement inner) fuel)
      (facing source stop previous (ts ++ rest)) body (facing source stop (latest previous ts) rest)

theorem apart_tail {tier : Tier} {list : List Tier} {body : Token.Body}
    (other : apart (tier :: list) body = true) : apart list body = true := by
  cases body with
  | symbol s =>
    simp only [apart,List.all_cons,Bool.and_eq_true] at other ⊢
    exact ⟨other.1,other.2.2⟩
  | _ => rfl

/-- An operator of one precedence is known by its symbol and is of no tighter precedence. -/
theorem apart_tighter {tier : Tier} {tighter : List Tier} (among : tier :: tighter <:+ tiers)
    {s : Symbol} {op : Connective} (member : (s,op) ∈ tier) :
    tier.lookup s = some op ∧ apart tighter (.symbol s) = true := by
  have all : ∀ list ∈ tiers.tails, ∀ tier ∈ list.head?, ∀ pair ∈ tier,
      tier.lookup pair.1 = some pair.2 ∧ apart list.tail (.symbol pair.1) = true := by decide
  exact all _ ((List.mem_tails _ _).mpr among) tier rfl _ member

theorem finishes_tiers {body : Token.Body} (finished : finishes body = true) :
    apart tiers body = true ∧ body ≠ .symbol .equals := by
  simpa [finishes] using finished

section

variable {i : Option Level} {s t : State}

theorem takes_expression {e : Expr} (readable : Readable source stop ts (.assignment e))
    {rest : List Token} (words : Words (ts ++ rest))
    (finished : finishes (inView stop rest).body = true) :
    Takes expression (facing source stop previous (ts ++ rest)) e
      (facing source stop (latest previous ts) rest) :=
  .deeper (readable previous rest words finished)

/-- A chain ends where no operator of its precedence is in view. -/
theorem takes_chain {tier : Tier} {list : List Tier} {start : Nat} {e : Expr}
    (other : apart (tier :: list) (inView stop ts).body = true) :
    Takes (chain · tier list start e) (facing source stop previous ts) e
      (facing source stop previous ts) := by
  have nothing : connective? tier (facing source stop previous ts) =
      .ok (none,facing source stop previous ts) := by
    rw [connective?,current_facing]
    cases body : (inView stop ts).body with
    | symbol s =>
      rw [body] at other
      simp only [apart,List.all_cons,Bool.and_eq_true] at other
      change Except.ok (tier.lookup s,_) = _
      rw [Option.isNone_iff_eq_none.mp other.2.1]
    | _ => rfl
  exact .next nothing (.const rfl)

theorem takes_suffixes {list : List Tier} {start : Nat} {e : Expr}
    (other : apart list (inView stop ts).body = true) :
    Takes (suffixes · start e) (facing source stop previous ts) e (facing source stop previous ts) := by
  have uncalled : (inView stop ts).is .leftParen = false := by
    refine Bool.eq_false_iff.mpr fun is => ?_
    rw [is_iff.mp is] at other
    contradiction
  have unselected : (inView stop ts).is .dot = false := by
    refine Bool.eq_false_iff.mpr fun is => ?_
    rw [is_iff.mp is] at other
    contradiction
  refine .next (run_sees _) ?_
  simp only [uncalled,Bool.false_eq_true,↓reduceIte]
  refine .next (run_sees _) ?_
  simp only [unselected,Bool.false_eq_true,↓reduceIte]
  exact .const rfl

theorem takes_operand {list : List Tier} {e : Expr} (readable : Readable source stop ts (.operand list e))
    (among : list <:+ tiers) {rest : List Token} (words : Words (ts ++ rest))
    (other : apart list (inView stop rest).body = true) :
    Takes (operand · list) (facing source stop previous (ts ++ rest)) e
      (facing source stop (latest previous ts) rest) := by
  cases list with
  | nil => exact readable previous rest words other
  | cons tier tighter =>
    exact readable among previous rest words (apart_tail other) _ _ (takes_chain other)

end

section

variable (ends : stop.body = .endOfScript)

include ends

theorem takes_block {body : List Stmt} (derives : Derives ts (.block body))
    (readable : Readable source stop ts (.block body)) {rest : List Token} (words : Words (ts ++ rest)) :
    Takes block (facing source stop previous (ts ++ rest)) body
      (facing source stop (latest previous ts) rest) := by
  obtain ⟨first,us,rfl,opens⟩ := derives.starts
  exact .next (run_expect ends opens words.tail) (readable first us rfl rest words.tail)

theorem readable_assign {us : List Token} {equals : Token} {target value : Expr}
    (left : Derives ts (.operand precedences target)) (is : equals.body = .symbol .equals)
    (first : Readable source stop ts (.operand precedences target))
    (second : Readable source stop us (.assignment value)) :
    Readable source stop (ts ++ equals :: us)
      (.assignment (.assign (spanOf (ts ++ equals :: us)) target value)) := by
  intro previous rest words finished
  have nonempty : ts ≠ [] := left.starts.ne_nil
  rw [List.append_assoc,List.cons_append] at words ⊢
  refine .next run_currentStart ?_
  refine (takes_operand first List.suffix_rfl words (by rw [inView_cons,is]; rfl)).bind ?_
  refine .accepts ends is words.right.tail ?_
  refine (Takes.deeper (second equals rest words.right.tail finished)).bind ?_
  refine .next (run_spanFrom _) ?_
  rw [start_inView nonempty,spanOf_append nonempty,latest_append,latest_cons]
  exact .const rfl

omit ends in
theorem readable_unassigned {value : Expr} (left : Readable source stop ts (.operand precedences value)) :
    Readable source stop ts (.assignment value) := by
  intro previous rest words finished
  obtain ⟨other,unassigned⟩ := finishes_tiers finished
  refine .next run_currentStart ?_
  refine (takes_operand left List.suffix_rfl words other).bind ?_
  exact .declines unassigned (.const rfl)

theorem readable_connect {tier : Tier} {tighter : List Tier} {us : List Token} {t : Token} {s : Symbol}
    {op : Connective} {lhs rhs : Expr} (left : Derives ts (.operand (tier :: tighter) lhs))
    (is : t.body = .symbol s) (member : (s,op) ∈ tier)
    (first : Readable source stop ts (.operand (tier :: tighter) lhs))
    (second : Readable source stop us (.operand tighter rhs)) :
    Readable source stop (ts ++ t :: us)
      (.operand (tier :: tighter) (op.node (spanOf (ts ++ t :: us)) lhs rhs)) := by
  intro among previous rest words other x u going
  have nonempty : ts ≠ [] := left.starts.ne_nil
  obtain ⟨known,apart⟩ := apart_tighter among member
  rw [List.append_assoc,List.cons_append] at words ⊢
  refine first among previous _ words (by rwa [inView_cons,is]) x u ?_
  have found : connective? tier (facing source stop (latest previous ts) (t :: (us ++ rest))) =
      .ok (some op,facing source stop (latest previous ts) (t :: (us ++ rest))) := by
    simp only [connective?,current_facing,inView_cons,is,known]
  refine .next found (.next (run_advance ends words.right.tail) (.deeper ?_))
  refine Takes.bind (takes_operand second ((List.suffix_cons _ _).trans among) words.right.tail other) ?_
  refine .next (run_spanFrom _) ?_
  rwa [spanOf_append nonempty,latest_append,latest_cons] at going

omit ends in
theorem readable_tighter {tier : Tier} {tighter : List Tier} {value : Expr}
    (inner : Derives ts (.operand tighter value))
    (readable : Readable source stop ts (.operand tighter value)) :
    Readable source stop ts (.operand (tier :: tighter) value) := by
  intro among previous rest words other x u going
  refine .next run_currentStart ?_
  refine (takes_operand readable ((List.suffix_cons _ _).trans among) words other).bind ?_
  rwa [start_inView inner.starts.ne_nil]

theorem readable_negate {minus : Token} {operand : Expr} (is : minus.body = .symbol .minus)
    (inner : Readable source stop ts (.unary operand)) :
    Readable source stop (minus :: ts) (.unary (.unary (spanOf (minus :: ts)) .negate operand)) := by
  intro previous rest words other
  refine .next run_currentStart (.accepts ends is words.tail ?_)
  refine (Takes.deeper (inner minus rest words.tail other)).bind ?_
  exact .next (run_spanFrom _) (.const rfl)

theorem readable_not {bang : Token} {operand : Expr} (is : bang.body = .symbol .bang)
    (inner : Readable source stop ts (.unary operand)) :
    Readable source stop (bang :: ts) (.unary (.unary (spanOf (bang :: ts)) .not operand)) := by
  intro previous rest words other
  refine .next run_currentStart (.declines (by simp [is]) (.accepts ends is words.tail ?_))
  refine (Takes.deeper (inner bang rest words.tail other)).bind ?_
  exact .next (run_spanFrom _) (.const rfl)

omit ends in
theorem readable_plain {value : Expr} (inner : Readable source stop ts (.call value)) :
    Readable source stop ts (.unary value) :=
  fun previous rest words other => inner previous rest words _ _ (takes_suffixes other)

theorem readable_call {us : List Token} {first last : Token} {callee : Expr} {values : List Expr}
    (front : Derives ts (.call callee)) (opens : first.body = .symbol .leftParen)
    (closes : last.body = .symbol .rightParen) (head : Readable source stop ts (.call callee))
    (inner : Readable source stop us (.arguments values)) :
    Readable source stop (ts ++ first :: (us ++ [last]))
      (.call (.call (spanOf (ts ++ first :: (us ++ [last]))) callee values)) := by
  intro previous rest words x u going
  have nonempty : ts ≠ [] := (Opens.plain front.starts).ne_nil
  simp only [List.append_assoc,List.cons_append,List.nil_append] at words ⊢
  refine head previous _ words x u (.next (run_sees _) ?_)
  simp only [inView_cons,is_iff.mpr opens,↓reduceIte]
  refine .deeper (.next (run_advance ends words.right.tail) ?_)
  refine (inner first _ words.right.tail closes).bind ?_
  refine .next (run_expect ends closes words.right.tail.right.tail) (.next (run_spanFrom _) ?_)
  rw [start_append nonempty,spanOf_append nonempty,latest_append,latest_append] at going
  simp only [latest_cons,latest_append,latest_nil] at going
  exact going

theorem readable_field {dot name : Token} {object : Expr} {label : Bytes}
    (front : Derives ts (.call object)) (is : dot.body = .symbol .dot) (names : name.body = .name label)
    (head : Readable source stop ts (.call object)) :
    Readable source stop (ts ++ [dot,name])
      (.call (.field (spanOf (ts ++ [dot,name])) object label)) := by
  intro previous rest words x u going
  have nonempty : ts ≠ [] := (Opens.plain front.starts).ne_nil
  have uncalled : dot.is .leftParen = false := by simp [Token.is,Token.kind,Token.Body.kind,is]
  simp only [List.append_assoc,List.cons_append,List.nil_append] at words ⊢
  refine head previous _ words x u (.next (run_sees _) ?_)
  simp only [inView_cons,uncalled,Bool.false_eq_true,↓reduceIte]
  refine .next (run_sees _) ?_
  simp only [inView_cons,is_iff.mpr is,↓reduceIte]
  refine .deeper (.next (run_advance ends words.right.tail) ?_)
  refine .next (run_expectName ends _ names words.right.tail.tail) (.next (run_spanFrom _) ?_)
  rwa [start_append nonempty,spanOf_append nonempty,latest_append] at going

omit ends in
theorem readable_uncalled {value : Expr} (inner : Derives ts (.primary value))
    (readable : Readable source stop ts (.primary value)) : Readable source stop ts (.call value) := by
  intro previous rest words x u going
  have unsigned : ∀ symbol ∈ [.minus,.bang], (inView stop (ts ++ rest)).body ≠ .symbol symbol := by
    intro symbol member same
    have leads := inner.starts
    cases leads with
    | atom is =>
      rw [List.cons_append,inView_cons] at same
      rw [same] at is
      simp only [List.mem_cons,List.not_mem_nil,or_false] at member
      rcases member with rfl | rfl <;> contradiction
    | lambda is =>
      cases is.symm.trans same
      contradiction
  refine .next run_currentStart (.declines (unsigned _ (by decide)) (.declines (unsigned _ (by decide)) ?_))
  refine (readable previous rest words).bind ?_
  rwa [start_inView (Opens.plain inner.starts).ne_nil]

/-- A primary that is one token. -/
theorem readable_literal {t : Token} {node : Expr}
    (dispatch : ∀ (inner : Option Level) (s : State), s.current = t →
      primary inner s = (advance >>= fun _ => pure node) s) :
    Readable source stop [t] (.primary node) := by
  intro previous rest words
  rw [List.singleton_append] at words ⊢
  refine .congr (fun inner => dispatch inner _ rfl) ?_
  exact .next (run_advance ends words.tail) (.const rfl)

theorem readable_parens {first last : Token} {value : Expr} (opens : first.body = .symbol .leftParen)
    (closes : last.body = .symbol .rightParen) (inner : Readable source stop ts (.assignment value)) :
    Readable source stop (first :: (ts ++ [last])) (.primary value) := by
  intro previous rest words
  simp only [List.append_assoc,List.cons_append,List.nil_append] at words ⊢
  refine .next run_get ?_
  simp only [current_facing,inView_cons,opens]
  refine .next (run_advance ends words.tail) ?_
  refine (takes_expression inner words.tail (by rw [inView_cons,closes]; rfl)).bind ?_
  refine .next (run_expect ends closes words.tail.right.tail) ?_
  rw [latest_cons,latest_append]
  exact .const rfl

theorem readable_lambda {us : List Token} {word : Token} {names : List Bytes} {body : List Stmt}
    (is : word.body = .symbol .funWord) (head : Parameters ts names) (inner : Derives us (.block body))
    (readable : Readable source stop us (.block body)) :
    Readable source stop (word :: (ts ++ us))
      (.primary (.lambda (spanOf (word :: (ts ++ us))) names body)) := by
  intro previous rest words
  simp only [List.append_assoc,List.cons_append] at words ⊢
  refine .next run_get ?_
  simp only [current_facing,inView_cons,is]
  refine .next (run_advance ends words.tail) (.next (run_parameters ends head words.tail) ?_)
  refine (takes_block ends inner readable words.tail.right).bind (.next (run_spanFrom _) ?_)
  rw [spanOf,latest_cons,latest_append]
  exact .const rfl

omit ends in
theorem readable_last {value : Expr} (only : Readable source stop ts (.assignment value)) :
    Readable source stop ts (.values [value]) := by
  intro fuel previous rest enough words closes
  obtain ⟨fuel,rfl⟩ := Nat.exists_eq_add_one_of_ne_zero (Nat.ne_zero_of_lt enough)
  refine (takes_expression only words (by rw [closes]; rfl)).bind ?_
  exact .declines (by simp [closes]) (.const rfl)

theorem readable_more {us : List Token} {comma : Token} {value : Expr} {values : List Expr}
    (divides : comma.body = .symbol .comma) (first : Readable source stop ts (.assignment value))
    (others : Readable source stop us (.values values)) :
    Readable source stop (ts ++ comma :: us) (.values (value :: values)) := by
  intro fuel previous rest enough words closes
  obtain ⟨fuel,rfl⟩ := Nat.exists_eq_add_one_of_ne_zero (Nat.ne_zero_of_lt enough)
  rw [List.length_append,List.length_cons] at enough
  rw [List.append_assoc,List.cons_append] at words ⊢
  refine (takes_expression first words (by rw [inView_cons,divides]; rfl)).bind ?_
  refine .accepts ends divides words.right.tail ?_
  refine (others fuel comma rest (by omega) words.right.tail closes).bind ?_
  rw [latest_append,latest_cons]
  exact .const rfl

omit ends in
theorem readable_noArguments : Readable source stop [] (.arguments []) := by
  intro previous rest words closes
  refine .next (run_sees _) ?_
  simp only [List.nil_append,is_iff.mpr closes,↓reduceIte]
  exact .const rfl

omit ends in
theorem readable_arguments {values : List Expr} (inner : Derives ts (.values values))
    (readable : Readable source stop ts (.values values)) :
    Readable source stop ts (.arguments values) := by
  intro previous rest words closes
  have inside : (inView stop (ts ++ rest)).is .rightParen = false := by
    obtain ⟨t,us,rfl,opens⟩ := Opens.first inner.starts
    refine Bool.eq_false_iff.mpr fun same => ?_
    rw [List.cons_append,inView_cons,is_iff] at same
    rw [same] at opens
    contradiction
  refine .next (run_sees _) ?_
  simp only [inside,Bool.false_eq_true,↓reduceIte]
  refine .next run_budget (readable _ previous rest ?_ words closes)
  rw [List.length_append]
  omega

theorem readable_braces {first last : Token} {body : List Stmt}
    (closes : last.body = .symbol .rightBrace) (inner : Readable source stop ts (.statements body)) :
    Readable source stop (first :: (ts ++ [last])) (.block body) := by
  intro first us same rest words
  cases same
  rw [List.append_assoc,List.singleton_append] at words ⊢
  refine .deeper (.next run_budget ?_)
  refine Takes.bind (inner true _ first (last :: rest) ?_ words (.inr ⟨rfl,closes⟩)) ?_
  · rw [List.length_append]
    omega
  · refine .next (run_expect ends closes words.right.tail) ?_
    rw [latest_append]
    exact .const rfl

omit ends in
theorem readable_nothing : Readable source stop [] (.otherwise none) := by
  intro previous rest words settled
  have other : (inView stop rest).body ≠ .symbol .elifWord ∧
      (inView stop rest).body ≠ .symbol .elseWord := by simpa [settles] using settled
  exact .declines other.1 (.declines other.2 (.const rfl))

theorem readable_elif {branch : Stmt} (inner : Derives ts (.conditional .elifWord branch))
    (readable : Readable source stop ts (.conditional .elifWord branch)) :
    Readable source stop ts (.otherwise (some [branch])) := by
  intro previous rest words settled
  obtain ⟨word,us,rfl,is⟩ := inner.starts
  refine .accepts ends is words.tail ?_
  exact (Takes.deeper (readable word us rfl rest words.tail settled)).bind (.const rfl)

theorem readable_other {word : Token} {body : List Stmt} (is : word.body = .symbol .elseWord)
    (inner : Derives ts (.block body)) (readable : Readable source stop ts (.block body)) :
    Readable source stop (word :: ts) (.otherwise (some body)) := by
  intro previous rest words settled
  refine .declines (by simp [is]) (.accepts ends is words.tail ?_)
  exact (takes_block ends inner readable words.tail).bind (.const rfl)

theorem readable_branch {us vs : List Token} {word : Token} {symbol : Symbol} {condition : Expr}
    {yes : List Stmt} {no : Option (List Stmt)} (block : Derives us (.block yes))
    (test : Readable source stop ts (.assignment condition)) (first : Readable source stop us (.block yes))
    (second : Readable source stop vs (.otherwise no)) :
    Readable source stop (word :: (ts ++ (us ++ vs)))
      (.conditional symbol (.branch (spanOf (word :: (ts ++ (us ++ vs)))) condition yes no)) := by
  intro word us' same rest words settled
  cases same
  obtain ⟨brace,more,rfl,opens⟩ := block.starts
  rw [List.append_assoc,List.append_assoc] at words ⊢
  refine .next run_previousStart ?_
  refine (takes_expression test words (by rw [List.cons_append,inView_cons,opens]; rfl)).bind ?_
  refine (takes_block ends block first words.right).bind ?_
  refine (second _ rest words.right.right settled).bind (.next (run_spanFrom _) ?_)
  rw [spanOf,latest_append,latest_append]
  exact .const rfl

omit ends in
theorem takes_terminated (word : Token) (used : List Token) {rest : List Token} (node : Span → Stmt)
    {t : State} (ended : terminator (facing source stop (latest word used) rest) = .ok ((),t)) :
    Takes (fun _ => terminated word.span.start node) (facing source stop (latest word used) rest)
      (node (spanOf (word :: used))) t :=
  .next (run_spanFrom _) (.next ended (.const rfl))

omit ends in
/-- What starts like an expression is read as one. -/
theorem statement_eq (inner : Option Level) {rest : List Token} (opens : Opens ts) :
    statement inner (facing source stop previous (ts ++ rest)) =
      expressionStatement inner (facing source stop previous (ts ++ rest)) := by
  rw [statement,run_bind run_get]
  cases opens with
  | plain leads =>
    cases leads with
    | @atom t _ is =>
      simp only [List.cons_append,current_facing,inView_cons]
      cases body : t.body with
      | symbol symbol =>
        have among : symbol ∈ [.trueWord,.falseWord,.nilWord,.leftParen] := by
          rw [body] at is
          exact of_decide_eq_true is
        simp only [List.mem_cons,List.not_mem_nil,or_false] at among
        rcases among with rfl | rfl | rfl | rfl <;> rfl
      | _ => rfl
    | lambda is opens =>
      simp only [List.cons_append,current_facing,inView_cons,is]
      refine congrFun (if_neg ?_) _
      simp [facing,Token.kind,Token.Body.kind,opens]
  | signed is =>
    rcases is with is | is <;> simp only [List.cons_append,current_facing,inView_cons,is]

omit ends in
theorem readable_expression {value : Expr} (inner : Derives ts (.assignment value))
    (readable : Readable source stop ts (.assignment value)) :
    Readable source stop ts (.simple (.expression (spanOf ts) value)) := by
  intro previous rest words finished t ended
  refine .congr (fun i => statement_eq i inner.starts) (.next run_currentStart ?_)
  refine (takes_expression readable words finished).bind ?_
  have nonempty : ts ≠ [] := inner.starts.ne_nil
  rw [start_inView nonempty]
  obtain ⟨first,us,rfl⟩ := List.exists_cons_of_ne_nil nonempty
  exact takes_terminated first us (.expression · value) ended

theorem readable_print {word : Token} {value : Expr} (is : word.body = .symbol .printWord)
    (inner : Readable source stop ts (.assignment value)) :
    Readable source stop (word :: ts) (.simple (.print (spanOf (word :: ts)) value)) := by
  intro previous rest words finished t ended
  refine .next run_get ?_
  simp only [List.cons_append,current_facing,inView_cons,is]
  refine .next (run_advance ends words.tail) ?_
  refine .next run_previousStart ((takes_expression inner words.tail finished).bind ?_)
  exact takes_terminated word ts (.print · value) ended

theorem readable_declareNil {word t : Token} {name : Bytes} (is : word.body = .symbol .varWord)
    (names : t.body = .name name) :
    Readable source stop [word,t] (.simple (.declare (spanOf [word,t]) name none)) := by
  intro previous rest words finished u ended
  refine .next run_get ?_
  simp only [List.cons_append,current_facing,inView_cons,is]
  refine .next (run_advance ends words.tail) ?_
  refine .next run_previousStart (.next (run_expectName ends _ names words.tail.tail) ?_)
  refine .declines (finishes_tiers finished).2 (.next rfl ?_)
  exact takes_terminated word [t] (.declare · name none) ended

theorem readable_declare {word t equals : Token} {name : Bytes} {value : Expr}
    (is : word.body = .symbol .varWord) (names : t.body = .name name)
    (gives : equals.body = .symbol .equals) (inner : Readable source stop ts (.assignment value)) :
    Readable source stop (word :: t :: equals :: ts)
      (.simple (.declare (spanOf (word :: t :: equals :: ts)) name (some value))) := by
  intro previous rest words finished u ended
  refine .next run_get ?_
  simp only [List.cons_append,current_facing,inView_cons,is]
  refine .next (run_advance ends words.tail) ?_
  refine .next run_previousStart (.next (run_expectName ends _ names words.tail.tail) ?_)
  refine .accepts ends gives words.tail.tail.tail ?_
  refine ((takes_expression inner words.tail.tail.tail finished).map some).bind ?_
  exact takes_terminated word (t :: equals :: ts) (.declare · name (some value)) ended

theorem readable_retNil {word : Token} (is : word.body = .symbol .returnWord) :
    Readable source stop [word] (.simple (.ret (spanOf [word]) none)) := by
  intro previous rest words finished u ended
  refine .next run_get ?_
  simp only [List.cons_append,current_facing,inView_cons,is]
  refine .next (run_advance ends words.tail) (.next run_previousStart (.next run_get ?_))
  have stopped : ((inView stop rest).is .semicolon || (inView stop rest).is .rightBrace ||
      (inView stop rest).body = .endOfScript) = true := by
    rw [Bool.or_eq_true,Bool.or_eq_true,is_iff,is_iff,decide_eq_true_eq]
    rcases terminator_spec ends words.tail ended with ⟨t,more,rfl,is,-⟩ | ⟨-,closed⟩
    · exact .inl (.inl is)
    · exact closed.imp_left .inr
  simp only [List.nil_append,current_facing,stopped,↓reduceIte]
  exact .next rfl (takes_terminated word [] (.ret · none) ended)

theorem readable_ret {word : Token} {value : Expr} (is : word.body = .symbol .returnWord)
    (inner : Derives ts (.assignment value)) (readable : Readable source stop ts (.assignment value)) :
    Readable source stop (word :: ts) (.simple (.ret (spanOf (word :: ts)) (some value))) := by
  intro previous rest words finished u ended
  refine .next run_get ?_
  simp only [List.cons_append,current_facing,inView_cons,is]
  refine .next (run_advance ends words.tail) (.next run_previousStart (.next run_get ?_))
  obtain ⟨t,us,rfl,opens⟩ := Opens.first inner.starts
  have opened : (t.is .semicolon || t.is .rightBrace || t.body = .endOfScript) = false := by
    refine Bool.eq_false_iff.mpr fun stopped => ?_
    rw [Bool.or_eq_true,Bool.or_eq_true,is_iff,is_iff,decide_eq_true_eq] at stopped
    rcases stopped with (is | is) | is <;> rw [is] at opens <;> contradiction
  simp only [List.cons_append,current_facing,inView_cons,opened,Bool.false_eq_true,↓reduceIte]
  refine ((takes_expression readable words.tail finished).map some).bind ?_
  exact takes_terminated word (t :: us) (.ret · (some value)) ended

theorem readable_breakLoop {word : Token} (is : word.body = .symbol .breakWord) :
    Readable source stop [word] (.simple (.breakLoop (spanOf [word]))) := by
  intro previous rest words finished u ended
  refine .next run_get ?_
  simp only [List.cons_append,current_facing,inView_cons,is]
  refine .next (run_advance ends words.tail) ?_
  exact .next run_previousStart (takes_terminated word [] .breakLoop ended)

theorem readable_continueLoop {word : Token} (is : word.body = .symbol .continueWord) :
    Readable source stop [word] (.simple (.continueLoop (spanOf [word]))) := by
  intro previous rest words finished u ended
  refine .next run_get ?_
  simp only [List.cons_append,current_facing,inView_cons,is]
  refine .next (run_advance ends words.tail) ?_
  exact .next run_previousStart (takes_terminated word [] .continueLoop ended)

theorem readable_terminated {semicolon : Token} {st : Stmt} (closes : semicolon.body = .symbol .semicolon)
    (inner : Readable source stop ts (.simple st)) :
    Readable source stop (ts ++ [semicolon]) (.whole st) := by
  intro previous rest words settled
  rw [List.append_assoc,List.singleton_append] at words ⊢
  refine inner previous _ words (by rw [inView_cons,closes]; rfl) _ ?_
  rw [latest_append]
  exact run_terminator ends closes words.right.tail

theorem readable_block {body : List Stmt} (inner : Derives ts (.block body))
    (readable : Readable source stop ts (.block body)) :
    Readable source stop ts (.whole (.block (spanOf ts) body)) := by
  intro previous rest words settled
  obtain ⟨first,us,rfl,opens⟩ := inner.starts
  refine .next run_get ?_
  simp only [List.cons_append,current_facing,inView_cons,opens]
  refine .next (run_advance ends words.tail) (.next run_previousStart ?_)
  exact (readable first us rfl rest words.tail).bind (.next (run_spanFrom _) (.const rfl))

theorem readable_function {us : List Token} {word t : Token} {name : Bytes} {names : List Bytes}
    {body : List Stmt} (is : word.body = .symbol .funWord) (named : t.body = .name name)
    (head : Parameters ts names) (inner : Derives us (.block body))
    (readable : Readable source stop us (.block body)) :
    Readable source stop (word :: t :: (ts ++ us))
      (.whole (.function (spanOf (word :: t :: (ts ++ us))) name names body)) := by
  intro previous rest words settled
  have titled : (facing source stop previous (word :: t :: (ts ++ us ++ rest))).ahead.head?.map
      (·.kind) = some .name := by simp [facing,Token.kind,Token.Body.kind,named]
  refine .next run_get ?_
  simp only [List.cons_append,current_facing,inView_cons,is,titled,↓reduceIte]
  simp only [List.append_assoc,List.cons_append] at words ⊢
  refine .next (run_advance ends words.tail) (.next run_previousStart ?_)
  refine .next (run_expectName ends _ named words.tail.tail) ?_
  refine .next (run_parameters ends head words.tail.tail) ?_
  refine (takes_block ends inner readable words.tail.tail.right).bind (.next (run_spanFrom _) ?_)
  rw [spanOf,latest_cons,latest_cons,latest_cons,latest_append]
  exact .const rfl

theorem readable_struct {word t first last : Token} {name : Bytes} {fields : List Bytes}
    (is : word.body = .symbol .structWord) (named : t.body = .name name)
    (opens : first.body = .symbol .leftBrace) (list : Fields ts fields)
    (closes : last.body = .symbol .rightBrace) :
    Readable source stop (word :: t :: first :: (ts ++ [last]))
      (.whole (.struct (spanOf (word :: t :: first :: (ts ++ [last]))) name fields)) := by
  intro previous rest words settled
  refine .next run_get ?_
  simp only [List.cons_append,current_facing,inView_cons,is]
  simp only [List.append_assoc,List.cons_append,List.nil_append] at words ⊢
  refine .next (run_advance ends words.tail) (.next run_previousStart ?_)
  refine .next (run_expectName ends _ named words.tail.tail) ?_
  refine .next (run_expect ends opens words.tail.tail.tail) (.next run_budget ?_)
  have enough : ts.length < (ts ++ last :: rest).length + 1 := by
    rw [List.length_append]
    omega
  refine .next (run_fieldNames ends list closes _ enough words.tail.tail.tail) ?_
  refine .next (run_expect ends closes words.tail.tail.tail.right.tail) (.next (run_spanFrom _) ?_)
  rw [spanOf,latest_cons,latest_cons,latest_cons,latest_cons,latest_cons,latest_append]
  exact .const rfl

theorem readable_conditional {branch : Stmt} (inner : Derives ts (.conditional .ifWord branch))
    (readable : Readable source stop ts (.conditional .ifWord branch)) :
    Readable source stop ts (.whole branch) := by
  intro previous rest words settled
  obtain ⟨word,us,rfl,is⟩ := inner.starts
  refine .next run_get ?_
  simp only [List.cons_append,current_facing,inView_cons,is]
  exact .next (run_advance ends words.tail) (readable word us rfl rest words.tail settled)

theorem readable_loop {word : Token} {body : List Stmt} (is : word.body = .symbol .loopWord)
    (inner : Derives ts (.block body)) (readable : Readable source stop ts (.block body)) :
    Readable source stop (word :: ts) (.whole (.loop (spanOf (word :: ts)) none body)) := by
  intro previous rest words settled
  refine .next run_get ?_
  simp only [List.cons_append,current_facing,inView_cons,is]
  refine .next (run_advance ends words.tail) (.next run_previousStart (.next rfl ?_))
  exact (takes_block ends inner readable words.tail).bind (.next (run_spanFrom _) (.const rfl))

theorem readable_loopWhile {us : List Token} {word : Token} {condition : Expr} {body : List Stmt}
    (is : word.body = .symbol .whileWord) (inner : Derives us (.block body))
    (test : Readable source stop ts (.assignment condition))
    (readable : Readable source stop us (.block body)) :
    Readable source stop (word :: (ts ++ us))
      (.whole (.loop (spanOf (word :: (ts ++ us))) (some condition) body)) := by
  intro previous rest words settled
  obtain ⟨brace,more,rfl,opens⟩ := inner.starts
  refine .next run_get ?_
  simp only [List.cons_append,current_facing,inView_cons,is]
  simp only [List.append_assoc,List.cons_append] at words ⊢
  refine .next (run_advance ends words.tail) (.next run_previousStart ?_)
  have brace : finishes (inView stop (brace :: more ++ rest)).body = true := by
    rw [List.cons_append,inView_cons,opens]
    rfl
  refine ((takes_expression test words.tail brace).map some).bind ?_
  refine (takes_block ends inner readable words.tail.right).bind (.next (run_spanFrom _) ?_)
  simp only [spanOf,latest_cons,latest_append]
  exact .const rfl

omit ends in
theorem readable_done : Readable source stop [] (.statements []) := by
  intro inBlock fuel previous rest enough words closes
  obtain ⟨fuel,rfl⟩ := Nat.exists_eq_add_one_of_ne_zero (Nat.ne_zero_of_lt enough)
  have closed : ((inView stop rest).body = .endOfScript ||
      inBlock && (inView stop rest).is .rightBrace) = true := by
    rw [Bool.or_eq_true,Bool.and_eq_true,is_iff,decide_eq_true_eq]
    exact closes
  refine .next run_get ?_
  simp only [List.nil_append,current_facing,closed,↓reduceIte]
  exact .const rfl

omit ends in
/-- Statements go on where one starts, or a lone semicolon. -/
theorem unclosed {t : Token} (starts : t.body = .symbol .semicolon ∨ begins t.body = true)
    (inBlock : Bool) : (t.body = .endOfScript || inBlock && t.is .rightBrace) = false := by
  refine Bool.eq_false_iff.mpr fun closed => ?_
  rw [Bool.or_eq_true,Bool.and_eq_true,is_iff,decide_eq_true_eq] at closed
  rcases closed with same | ⟨-,same⟩ <;> rw [same] at starts <;> rcases starts with is | is <;>
    contradiction

omit ends in
theorem begins_unlike {t : Token} (starts : begins t.body = true) : t.body ≠ .symbol .semicolon := by
  intro is
  rw [is] at starts
  contradiction

theorem readable_lone {semicolon : Token} {body : List Stmt} (is : semicolon.body = .symbol .semicolon)
    (inner : Readable source stop ts (.statements body)) :
    Readable source stop (semicolon :: ts) (.statements body) := by
  intro inBlock fuel previous rest enough words closes
  obtain ⟨fuel,rfl⟩ := Nat.exists_eq_add_one_of_ne_zero (Nat.ne_zero_of_lt enough)
  refine .next run_get ?_
  simp only [List.cons_append,current_facing,inView_cons,unclosed (.inl is) inBlock,
    Bool.false_eq_true,↓reduceIte]
  refine .accepts ends is words.tail ?_
  exact inner inBlock fuel semicolon rest (Nat.lt_of_succ_lt_succ enough) words.tail closes

omit ends in
theorem settles_statements {us rest : List Token} {body : List Stmt} {inBlock : Bool}
    (derives : Derives us (.statements body)) (closes : (inView stop rest).body = .endOfScript ∨
      inBlock = true ∧ (inView stop rest).body = .symbol .rightBrace) :
    settles (inView stop (us ++ rest)).body = true := by
  cases us with
  | nil => rcases closes with is | ⟨-,is⟩ <;> rw [List.nil_append,is] <;> rfl
  | cons t us =>
    rw [List.cons_append,inView_cons]
    rcases derives.starts.2 t rfl with is | is
    · rw [is]
      rfl
    · cases body : t.body <;> simp_all [begins,settles]

omit ends in
theorem readable_statement {us : List Token} {first : Stmt} {body : List Stmt}
    (head : Derives ts (.whole first)) (rest : Derives us (.statements body))
    (whole : Readable source stop ts (.whole first)) (others : Readable source stop us (.statements body)) :
    Readable source stop (ts ++ us) (.statements (first :: body)) := by
  intro inBlock fuel previous after enough words closes
  obtain ⟨fuel,rfl⟩ := Nat.exists_eq_add_one_of_ne_zero (Nat.ne_zero_of_lt enough)
  have settled := settles_statements rest closes
  rw [List.append_assoc] at words ⊢
  have read := whole previous _ words settled
  cases head.starts with
  | @first t ts starts =>
    rw [List.cons_append,List.length_cons,List.length_append] at enough
    refine .next run_get ?_
    simp only [List.cons_append,current_facing,inView_cons,unclosed (.inr starts) inBlock,
      Bool.false_eq_true,↓reduceIte]
    refine .declines (begins_unlike starts) (read.bind ?_)
    refine (others inBlock fuel _ after (by omega) words.right closes).bind ?_
    rw [latest_cons,latest_cons,latest_append]
    exact .const rfl

omit ends in
theorem readable_unterminated {only : Stmt} (last : Derives ts (.simple only))
    (simple : Readable source stop ts (.simple only)) :
    Readable source stop ts (.statements [only]) := by
  intro inBlock fuel previous rest enough words closes
  obtain ⟨fuel,rfl⟩ := Nat.exists_eq_add_one_of_ne_zero (Nat.ne_zero_of_lt enough)
  have closed : Closes (inView stop rest).body := closes.symm.imp_left And.right
  have read := simple previous rest words closed.finishes _ (run_unterminated closed)
  cases last.starts with
  | @first t ts starts =>
    rw [List.length_cons] at enough
    refine .next run_get ?_
    simp only [List.cons_append,current_facing,inView_cons,unclosed (.inr starts) inBlock,
      Bool.false_eq_true,↓reduceIte]
    refine .declines (begins_unlike starts) (read.bind ?_)
    have enough : ([] : List Token).length < fuel := Nat.zero_lt_of_lt (Nat.lt_of_succ_lt_succ enough)
    exact (readable_done inBlock fuel _ rest enough words.right closes).bind (.const rfl)

/-- By induction over the rules. -/
theorem readable_of_derives (source : Source) {phrase : Phrase} (derives : Derives ts phrase) :
    Readable source stop ts phrase := by
  induction derives with
  | assign left is _ first second => exact readable_assign ends left is first second
  | unassigned _ left => exact readable_unassigned left
  | connect left is among _ first second => exact readable_connect ends left is among first second
  | tighter inner readable => exact readable_tighter inner readable
  | tightest _ readable => exact readable
  | negate is _ readable => exact readable_negate ends is readable
  | not is _ readable => exact readable_not ends is readable
  | plain _ readable => exact readable_plain readable
  | call front opens _ closes head inner => exact readable_call ends front opens closes head inner
  | field front is names head => exact readable_field ends front is names head
  | uncalled inner readable => exact readable_uncalled inner readable
  | number is | string is | name is | truth is | falsehood is | nil is =>
    exact readable_literal ends fun inner s view => by
      rw [primary,run_bind run_get]
      simp only [view,is]
  | parens opens _ closes inner => exact readable_parens ends opens closes inner
  | lambda is head inner readable => exact readable_lambda ends is head inner readable
  | last _ readable => exact readable_last readable
  | more _ divides _ first others => exact readable_more ends divides first others
  | noArguments => exact readable_noArguments
  | arguments inner readable => exact readable_arguments inner readable
  | braces _ _ closes inner => exact readable_braces ends closes inner
  | nothing => exact readable_nothing
  | elif inner readable => exact readable_elif ends inner readable
  | other is inner readable => exact readable_other ends is inner readable
  | branch is _ block _ test first second => exact readable_branch ends block test first second
  | expression inner readable => exact readable_expression inner readable
  | print is _ readable => exact readable_print ends is readable
  | declareNil is names => exact readable_declareNil ends is names
  | declare is names gives _ readable => exact readable_declare ends is names gives readable
  | retNil is => exact readable_retNil ends is
  | ret is inner readable => exact readable_ret ends is inner readable
  | breakLoop is => exact readable_breakLoop ends is
  | continueLoop is => exact readable_continueLoop ends is
  | terminated _ closes readable => exact readable_terminated ends closes readable
  | block inner readable => exact readable_block ends inner readable
  | function is named head inner readable => exact readable_function ends is named head inner readable
  | struct is named opens list closes => exact readable_struct ends is named opens list closes
  | conditional inner readable => exact readable_conditional ends inner readable
  | loop is inner readable => exact readable_loop ends is inner readable
  | loopWhile is _ inner test readable => exact readable_loopWhile ends is inner test readable
  | done => exact readable_done
  | lone is _ readable => exact readable_lone ends is readable
  | statement head rest whole others => exact readable_statement head rest whole others
  | unterminated last readable => exact readable_unterminated last readable

end

theorem Takes.unique {reader : Option Level → Parser α} {s t u : State} {a b : α}
    (first : Takes reader s a t) (second : Takes reader s b u) : a = b := by
  obtain ⟨need,known⟩ := first
  obtain ⟨more,others⟩ := second
  have one := (known (max need more)).1 (Nat.le_max_left _ _)
  have other := (others (max need more)).1 (Nat.le_max_right _ _)
  cases one.symm.trans other
  rfl

/-- A script is accepted with exactly the tree that it derives, unless its nesting is too deep; and it
derives at most one. -/
theorem program_derives (source : Source) (ends : stop.body = .endOfScript) (words : Words ts) :
    (∀ body, program source (ts ++ [stop]) = .ok body → Derives ts (.statements body)) ∧
    (∀ body, Derives ts (.statements body) → program source (ts ++ [stop]) = .ok body ∨
      ∃ d kind, program source (ts ++ [stop]) = .error d ∧ d.cause = .tooDeep kind) ∧
    ∀ one other, Derives ts (.statements one) → Derives ts (.statements other) → one = other := by
  have clear : Words (ts ++ []) := by rwa [List.append_nil]
  have taken {body : List Stmt} (derives : Derives ts (.statements body)) :
      Takes (fun inner => statements false (statement inner) (ts.length + 1))
        (facing source stop (inView stop ts) ts) body (facing source stop (latest (inView stop ts) ts) []) := by
    have readable := readable_of_derives ends source derives
    simpa using readable false _ (inView stop ts) [] (Nat.lt_succ_self _) clear (.inl ends)
  refine ⟨fun body => derives_of_program ends words,fun body derives => ?_,fun one other first second =>
    (taken first).unique (taken second)⟩
  obtain ⟨first,ahead,split,sound,length,start⟩ := program_start source ends words
  obtain ⟨need,known⟩ := taken derives
  dsimp only at known
  rw [split,program_eq_ok sound,start,length,level_eq]
  by_cases enough : need ≤ depthLimit
  · exact .inl ⟨_,(known depthLimit).1 enough⟩
  · obtain ⟨refusal,failed,d,fault,kind,deep⟩ := (known depthLimit).2 (Nat.lt_of_not_le enough)
    refine .inr ⟨d,kind,(program_eq_error sound ahead).mpr ⟨refusal,?_,fault⟩,deep⟩
    rw [start,length,level_eq]
    exact failed

/-- A branch with a chain of calls, an assignment without its semicolon, and a function. -/
theorem program_derives_branch : ∃ (source : Source) (ts : List Token) (stop : Token) (body : List Stmt),
    source.text = ascii "if a.b(c) \x7b ; \x7d else \x7b a = -b == c \x7d fun f(x) \x7b return \x7d" ∧
      Token.tokens source = ts ++ [stop] ∧ stop.body = .endOfScript ∧ Words ts ∧
      program source (ts ++ [stop]) = .ok body ∧ Derives ts (.statements body) := by
  let source := Source.ofText
    (ascii "if a.b(c) \x7b ; \x7d else \x7b a = -b == c \x7d fun f(x) \x7b return \x7d")
  have ended : ((Token.tokens source).getLast?.any fun stop => stop.body = .endOfScript) = true := by
    decide +kernel
  have inside : ((Token.tokens source).dropLast.all Token.isWord) = true := by decide +kernel
  have accepted : (program source (Token.tokens source)).toOption.isSome = true := by decide +kernel
  cases last : (Token.tokens source).getLast? with
  | none => simp [last] at ended
  | some stop =>
    obtain ⟨ts,shape⟩ := List.getLast?_eq_some_iff.mp last
    have ends : stop.body = .endOfScript := by simpa [last] using ended
    have words : Words ts := by simpa [shape,Words] using inside
    rw [shape] at accepted
    cases read : program source (ts ++ [stop]) with
    | error d =>
      rw [read] at accepted
      contradiction
    | ok body =>
      exact ⟨source,ts,stop,body,rfl,shape,ends,words,read,(program_derives source ends words).1 body read⟩

end ScriptMachine.Parse
