import Mathlib
import ScriptMachine.Proofs.Accounts
import ScriptMachine.Proofs.Grammar

/-! The readers that do not nest. A state in the middle of a script is known by the token just taken and
the words that are left; each reader takes some of them from the front. -/
namespace ScriptMachine

/-- The token is a word of the script, neither faulty nor its end. -/
def Token.isWord (t : Token) : Bool :=
  match t.body with
  | .invalid .. | .endOfScript => false
  | _ => true

namespace Parse

open Grammar

def Words (ts : List Token) : Prop :=
  ∀ t ∈ ts, t.isWord = true

theorem Words.right {ts us : List Token} (words : Words (ts ++ us)) : Words us :=
  fun t member => words t (List.mem_append_right ts member)

theorem Words.tail {t : Token} {ts : List Token} (words : Words (t :: ts)) : Words ts :=
  fun u member => words u (List.mem_cons_of_mem t member)

/-- The state with these words before the end of the script. -/
def facing (source : Source) (stop previous : Token) : List Token → State
  | [] => .clear source previous stop []
  | current :: ahead => .clear source previous current (ahead ++ [stop])

theorem clear_facing (source : Source) (stop previous : Token) (ts : List Token) :
    (facing source stop previous ts).Clear := by
  cases ts <;> rfl

/-- The first of the words, or the end behind them. -/
def inView (stop : Token) : List Token → Token
  | [] => stop
  | t :: _ => t

variable {source : Source} {stop previous : Token} {ts : List Token} {α β : Type}

@[simp] theorem inView_nil : inView stop [] = stop := rfl

@[simp] theorem inView_cons {t : Token} : inView stop (t :: ts) = t := rfl

@[simp] theorem previous_facing : (facing source stop previous ts).previous = previous := by
  cases ts <;> rfl

@[simp] theorem current_facing : (facing source stop previous ts).current = inView stop ts := by
  cases ts <;> rfl

theorem is_iff {t : Token} {symbol : Symbol} : t.is symbol = true ↔ t.body = .symbol symbol := by
  cases body : t.body <;> simp [Token.is,Token.kind,Token.Body.kind,body]

/-- What was read first, and then the rest. -/
theorem bind_ok {p : Parser α} {k : α → Parser β} {s t : State} {b : β}
    (run : (p >>= k) s = .ok (b,t)) : ∃ a u, p s = .ok (a,u) ∧ k a u = .ok (b,t) := by
  change (p s >>= fun x => k x.1 x.2) = _ at run
  cases first : p s with
  | error d =>
    rw [first] at run
    cases run
  | ok x =>
    rw [first] at run
    exact ⟨x.1,x.2,rfl,run⟩

theorem run_bind {p : Parser α} {s u : State} {a : α} (first : p s = .ok (a,u)) (k : α → Parser β) :
    (p >>= k) s = k a u := by
  change (p s >>= fun x => k x.1 x.2) = _
  rw [first]
  rfl

theorem run_get {s : State} : (get : Parser State) s = .ok (s,s) := rfl

theorem run_spanFrom (start : Nat) : spanFrom start (facing source stop previous ts) =
    .ok (⟨start,previous.span.stop⟩,facing source stop previous ts) := by
  change Except.ok _ = _
  rw [previous_facing]

theorem run_currentStart : currentStart (facing source stop previous ts) =
    .ok ((inView stop ts).span.start,facing source stop previous ts) := by
  rw [currentStart,current_facing]

theorem run_previousStart : previousStart (facing source stop previous ts) =
    .ok (previous.span.start,facing source stop previous ts) := by
  rw [previousStart,previous_facing]

theorem run_budget : budget (facing source stop previous ts) =
    .ok (ts.length + 1,facing source stop previous ts) := by
  cases ts with
  | nil => rfl
  | cons t rest =>
    change Except.ok ((rest ++ [stop]).length + 1,_) = _
    rw [List.length_append]
    rfl

theorem run_sees (symbol : Symbol) : sees symbol (facing source stop previous ts) =
    .ok ((inView stop ts).is symbol,facing source stop previous ts) := by
  rw [sees,current_facing]

theorem diagnostic?_word (source : Source) {t : Token} (word : t.isWord = true) :
    t.diagnostic? source = none := by
  unfold Token.isWord at word
  unfold Token.diagnostic?
  split at word <;> simp_all

section

variable (ends : stop.body = .endOfScript)

include ends

theorem run_advance {t : Token} (words : Words ts) :
    advance (facing source stop previous (t :: ts)) = .ok ((),facing source stop t ts) := by
  cases ts with
  | nil => exact advance_sound previous t [] (by simp [Token.diagnostic?,ends])
  | cons u rest => exact advance_sound previous t _ (diagnostic?_word source (words u List.mem_cons_self))

theorem run_accept {t : Token} {symbol : Symbol} (is : t.body = .symbol symbol) (words : Words ts) :
    accept symbol (facing source stop previous (t :: ts)) = .ok (true,facing source stop t ts) := by
  rw [accept,run_bind (run_sees symbol)]
  rw [inView_cons,is_iff.mpr is,if_pos rfl,run_bind (run_advance ends words)]
  rfl

omit ends in
theorem run_decline {symbol : Symbol} (other : (inView stop ts).body ≠ .symbol symbol) :
    accept symbol (facing source stop previous ts) = .ok (false,facing source stop previous ts) := by
  rw [accept,run_bind (run_sees symbol)]
  rw [Bool.eq_false_iff.mpr fun is => other (is_iff.mp is),if_neg Bool.false_ne_true]
  rfl

/-- The symbol is taken if it is in view. -/
theorem accept_spec {symbol : Symbol} {b : Bool} {s : State} (words : Words ts)
    (run : accept symbol (facing source stop previous ts) = .ok (b,s)) :
    (b = true ∧ ∃ t rest, ts = t :: rest ∧ t.body = .symbol symbol ∧ s = facing source stop t rest) ∨
      (b = false ∧ s = facing source stop previous ts ∧ (inView stop ts).body ≠ .symbol symbol) := by
  by_cases is : (inView stop ts).body = .symbol symbol
  · cases ts with
    | nil => simp [ends] at is
    | cons t rest =>
      rw [inView_cons] at is
      rw [run_accept ends is words.tail] at run
      cases run
      exact .inl ⟨rfl,t,rest,rfl,is,rfl⟩
  · rw [run_decline is] at run
    cases run
    exact .inr ⟨rfl,rfl,is⟩

theorem run_expect {t : Token} {symbol : Symbol} (is : t.body = .symbol symbol) (words : Words ts) :
    expect symbol (facing source stop previous (t :: ts)) = .ok ((),facing source stop t ts) := by
  rw [expect,run_bind (run_accept ends is words)]
  rfl

theorem expect_spec {symbol : Symbol} {s : State} (words : Words ts)
    (run : expect symbol (facing source stop previous ts) = .ok ((),s)) :
    ∃ t rest, ts = t :: rest ∧ t.body = .symbol symbol ∧ s = facing source stop t rest := by
  rw [expect] at run
  obtain ⟨b,_,taken,run⟩ := bind_ok run
  rcases accept_spec ends words taken with ⟨rfl,t,rest,rfl,is,rfl⟩ | ⟨rfl,-,-⟩
  · cases run
    exact ⟨t,rest,rfl,is,rfl⟩
  · cases run

theorem run_expectName {t : Token} {name : Bytes} (what : Expectation) (is : t.body = .name name)
    (words : Words ts) :
    expectName what (facing source stop previous (t :: ts)) = .ok (name,facing source stop t ts) := by
  rw [expectName,current_facing]
  simp only [inView_cons,is]
  rw [run_bind (run_advance ends words)]
  rfl

theorem expectName_spec {what : Expectation} {name : Bytes} {s : State} (words : Words ts)
    (run : expectName what (facing source stop previous ts) = .ok (name,s)) :
    ∃ t rest, ts = t :: rest ∧ t.body = .name name ∧ s = facing source stop t rest := by
  cases ts with
  | nil => simp [expectName,ends,fail] at run
  | cons t rest =>
    cases body : t.body with
    | name spelling =>
      rw [run_expectName ends what body words.tail] at run
      cases run
      exact ⟨t,rest,rfl,body,rfl⟩
    | _ => simp [expectName,body,fail] at run

/-- A statement may end here without a semicolon. -/
def Closes (body : Token.Body) : Prop :=
  body = .symbol .rightBrace ∨ body = .endOfScript

theorem terminator_spec {s : State} (words : Words ts)
    (run : terminator (facing source stop previous ts) = .ok ((),s)) :
    (∃ t rest, ts = t :: rest ∧ t.body = .symbol .semicolon ∧ s = facing source stop t rest) ∨
      s = facing source stop previous ts ∧ Closes (inView stop ts).body := by
  rw [terminator] at run
  obtain ⟨b,_,taken,run⟩ := bind_ok run
  rcases accept_spec ends words taken with ⟨rfl,t,rest,rfl,is,rfl⟩ | ⟨rfl,rfl,-⟩
  · cases run
    exact .inl ⟨t,rest,rfl,is,rfl⟩
  · refine .inr ?_
    rw [if_neg Bool.false_ne_true] at run
    obtain ⟨s,_,got,run⟩ := bind_ok run
    cases got
    split at run
    next closed =>
      cases run
      refine ⟨rfl,?_⟩
      rw [current_facing,Bool.or_eq_true,is_iff,decide_eq_true_eq] at closed
      exact closed
    next => cases run

theorem run_terminator {t : Token} (is : t.body = .symbol .semicolon) (words : Words ts) :
    terminator (facing source stop previous (t :: ts)) = .ok ((),facing source stop t ts) := by
  rw [terminator,run_bind (run_accept ends is words)]
  rfl

omit ends in
theorem run_unterminated (closes : Closes (inView stop ts).body) :
    terminator (facing source stop previous ts) = .ok ((),facing source stop previous ts) := by
  have other : (inView stop ts).body ≠ .symbol .semicolon := by
    rcases closes with is | is <;> simp [is]
  rw [terminator,run_bind (run_decline other)]
  have closed : ((inView stop ts).is .rightBrace || (inView stop ts).body = .endOfScript) = true := by
    rw [Bool.or_eq_true,is_iff,decide_eq_true_eq]
    exact closes
  rw [if_neg Bool.false_ne_true,run_bind run_get,current_facing,if_pos closed]
  rfl

end

/-- What the parser takes from the front of the words, if it succeeds, has the property. -/
def Reads (source : Source) (stop : Token) (p : Parser α) (good : List Token → α → Prop) : Prop :=
  ∀ previous ts a s, Words ts → p (facing source stop previous ts) = .ok (a,s) →
    ∃ used rest, ts = used ++ rest ∧ s = facing source stop (latest previous used) rest ∧ good used a

section

variable (ends : stop.body = .endOfScript)

include ends

theorem reads_expectName (what : Expectation) :
    Reads source stop (expectName what) fun ts name => ∃ t, ts = [t] ∧ t.body = .name name := by
  intro previous ts name s words run
  obtain ⟨t,rest,rfl,is,rfl⟩ := expectName_spec ends words run
  exact ⟨[t],rest,rfl,rfl,t,rfl,is⟩

/-- A list is as long as it can be, because the fuel lasts. -/
theorem commaSeparated_spec {item : Parser α} {One : List Token → α → Prop}
    (Many : List Token → List α → Prop) (each : Reads source stop item One)
    (last : ∀ ts a, One ts a → Many ts [a])
    (more : ∀ ts comma us a values, One ts a → comma.body = .symbol .comma → Many us values →
      Many (ts ++ comma :: us) (a :: values)) (fuel : Nat) {values : List α} {s : State}
    (enough : ts.length < fuel) (words : Words ts)
    (run : commaSeparated item fuel (facing source stop previous ts) = .ok (values,s)) :
    ∃ used rest, ts = used ++ rest ∧ s = facing source stop (latest previous used) rest ∧
      Many used values := by
  induction fuel generalizing previous ts values s with
  | zero => exact absurd enough (Nat.not_lt_zero _)
  | succ fuel ih =>
    rw [commaSeparated] at run
    obtain ⟨first,_,taken,run⟩ := bind_ok run
    obtain ⟨used,rest,rfl,rfl,one⟩ := each previous ts first _ words taken
    obtain ⟨b,_,seen,run⟩ := bind_ok run
    rcases accept_spec ends words.right seen with ⟨rfl,comma,rest,rfl,is,rfl⟩ | ⟨rfl,rfl,-⟩
    · rw [if_pos rfl] at run
      obtain ⟨others,_,taken,run⟩ := bind_ok run
      cases run
      have shorter : rest.length < fuel := by
        rw [List.length_append,List.length_cons] at enough
        omega
      obtain ⟨later,rest,rfl,rfl,many⟩ := ih shorter words.right.tail taken
      exact ⟨used ++ comma :: later,rest,by simp,by simp,more _ _ _ _ _ one is many⟩
    · rw [if_neg Bool.false_ne_true] at run
      cases run
      exact ⟨used,rest,rfl,rfl,last _ _ one⟩

theorem reads_parameters : Reads source stop parameters Parameters := by
  intro previous ts names s words run
  rw [parameters] at run
  obtain ⟨_,_,opened,run⟩ := bind_ok run
  obtain ⟨first,ts,rfl,opens,rfl⟩ := expect_spec ends words opened
  obtain ⟨b,_,seen,run⟩ := bind_ok run
  rw [run_sees] at seen
  cases seen
  dsimp only at run
  split at run
  next =>
    obtain ⟨_,_,nothing,run⟩ := bind_ok run
    cases nothing
    obtain ⟨_,_,closed,run⟩ := bind_ok run
    obtain ⟨last,rest,rfl,closes,rfl⟩ := expect_spec ends words.tail closed
    cases run
    exact ⟨[first,last],rest,rfl,rfl,.none opens closes⟩
  next =>
    obtain ⟨_,_,counted,run⟩ := bind_ok run
    rw [run_budget] at counted
    cases counted
    obtain ⟨names,_,taken,run⟩ := bind_ok run
    have each : Reads source stop (expectName .parameterName) _ := reads_expectName ends _
    obtain ⟨used,rest,rfl,rfl,list⟩ := commaSeparated_spec ends Names each
      (by rintro _ name ⟨t,rfl,is⟩; exact Names.one is)
      (by rintro _ comma us name names ⟨t,rfl,is⟩ divides rest; exact Names.more is divides rest)
      _ (Nat.lt_succ_self _) words.tail taken
    obtain ⟨_,_,closed,run⟩ := bind_ok run
    obtain ⟨last,rest,rfl,closes,rfl⟩ := expect_spec ends words.tail.right closed
    cases run
    exact ⟨first :: (used ++ [last]),rest,by simp,by simp,.some opens list closes⟩

theorem fieldNames_spec (fuel : Nat) {names : List Bytes} {s : State} (enough : ts.length < fuel)
    (words : Words ts) (run : fieldNames fuel (facing source stop previous ts) = .ok (names,s)) :
    ∃ used rest, ts = used ++ rest ∧ s = facing source stop (latest previous used) rest ∧
      Fields used names := by
  induction fuel generalizing previous ts names s with
  | zero => exact absurd enough (Nat.not_lt_zero _)
  | succ fuel ih =>
    rw [fieldNames] at run
    obtain ⟨b,_,seen,run⟩ := bind_ok run
    rw [run_sees] at seen
    cases seen
    split at run
    next =>
      cases run
      exact ⟨[],ts,rfl,rfl,.none⟩
    next =>
      obtain ⟨name,_,taken,run⟩ := bind_ok run
      obtain ⟨t,rest,rfl,is,rfl⟩ := expectName_spec ends words taken
      obtain ⟨b,_,seen,run⟩ := bind_ok run
      rcases accept_spec ends words.tail seen with ⟨rfl,comma,rest,rfl,divides,rfl⟩ | ⟨rfl,rfl,-⟩
      · rw [if_pos rfl] at run
        obtain ⟨others,_,taken,run⟩ := bind_ok run
        cases run
        have shorter : rest.length < fuel := by
          rw [List.length_cons,List.length_cons] at enough
          omega
        obtain ⟨later,rest,rfl,rfl,fields⟩ := ih shorter words.tail.tail taken
        exact ⟨t :: comma :: later,rest,rfl,rfl,.more is divides fields⟩
      · rw [if_neg Bool.false_ne_true] at run
        cases run
        exact ⟨[t],rest,rfl,rfl,.one is⟩

/-! What is written so is read back. -/

theorem run_names {names : List Bytes} (what : Expectation) (written : Names ts names) (fuel : Nat)
    {rest : List Token} (enough : ts.length < fuel) (words : Words (ts ++ rest))
    (other : (inView stop rest).body ≠ .symbol .comma) :
    commaSeparated (expectName what) fuel (facing source stop previous (ts ++ rest)) =
      .ok (names,facing source stop (latest previous ts) rest) := by
  induction written generalizing previous fuel with
  | one is =>
    obtain ⟨fuel,rfl⟩ := Nat.exists_eq_add_one_of_ne_zero (Nat.ne_zero_of_lt enough)
    rw [List.singleton_append] at words ⊢
    rw [commaSeparated,run_bind (run_expectName ends what is words.tail)]
    rw [run_bind (run_decline other),if_neg Bool.false_ne_true]
    rfl
  | more is divides _ ih =>
    obtain ⟨fuel,rfl⟩ := Nat.exists_eq_add_one_of_ne_zero (Nat.ne_zero_of_lt enough)
    rw [List.length_cons,List.length_cons] at enough
    rw [List.cons_append,List.cons_append] at words ⊢
    rw [commaSeparated,run_bind (run_expectName ends what is words.tail)]
    rw [run_bind (run_accept ends divides words.tail.tail),if_pos rfl]
    rw [run_bind (ih fuel (by omega) words.tail.tail)]
    rfl

theorem run_parameters {names : List Bytes} (written : Parameters ts names) {rest : List Token}
    (words : Words (ts ++ rest)) : parameters (facing source stop previous (ts ++ rest)) =
      .ok (names,facing source stop (latest previous ts) rest) := by
  cases written with
  | none opens closes =>
    rw [List.cons_append,List.singleton_append] at words ⊢
    rw [parameters,run_bind (run_expect ends opens words.tail),run_bind (run_sees _)]
    rw [inView_cons,if_pos (is_iff.mpr closes)]
    rw [run_bind rfl]
    dsimp only
    rw [run_bind (run_expect ends closes words.tail.tail)]
    rfl
  | @some first last ts _ opens list closes =>
    rw [List.cons_append,List.append_assoc,List.singleton_append] at words ⊢
    have inside : (inView stop (ts ++ last :: rest)).is .rightParen = false := by
      cases list <;> simp_all [Token.is,Token.kind,Token.Body.kind]
    have long : ts.length < (ts ++ last :: rest).length + 1 := by
      rw [List.length_append]
      omega
    rw [parameters,run_bind (run_expect ends opens words.tail),run_bind (run_sees _)]
    rw [inside,if_neg Bool.false_ne_true,run_bind run_budget]
    rw [run_bind (run_names ends _ list _ long words.tail (by simp [closes]))]
    dsimp only
    rw [run_bind (run_expect ends closes words.tail.right.tail),latest_cons,latest_append]
    rfl

theorem run_fieldNames {names : List Bytes} (written : Fields ts names) {close : Token}
    (closes : close.body = .symbol .rightBrace) (fuel : Nat) {rest : List Token}
    (enough : ts.length < fuel) (words : Words (ts ++ close :: rest)) :
    fieldNames fuel (facing source stop previous (ts ++ close :: rest)) =
      .ok (names,facing source stop (latest previous ts) (close :: rest)) := by
  obtain ⟨fuel,rfl⟩ := Nat.exists_eq_add_one_of_ne_zero (Nat.ne_zero_of_lt enough)
  have unlike {t : Token} {name : Bytes} (is : t.body = .name name) : t.is .rightBrace = false :=
    Bool.eq_false_iff.mpr fun same => nomatch is.symm.trans (is_iff.mp same)
  induction written generalizing previous fuel with
  | none =>
    rw [fieldNames,run_bind (run_sees _),List.nil_append,inView_cons,if_pos (is_iff.mpr closes)]
    rfl
  | one is =>
    rw [List.singleton_append] at words ⊢
    rw [fieldNames,run_bind (run_sees _),inView_cons,unlike is,if_neg Bool.false_ne_true]
    rw [run_bind (run_expectName ends _ is words.tail)]
    rw [run_bind (run_decline (by simp [closes])),if_neg Bool.false_ne_true]
    rfl
  | more is divides _ ih =>
    rw [List.cons_append,List.cons_append] at words ⊢
    rw [List.length_cons,List.length_cons] at enough
    obtain ⟨fuel,rfl⟩ := Nat.exists_eq_add_one_of_ne_zero (n := fuel) (by omega)
    rw [fieldNames,run_bind (run_sees _),inView_cons,unlike is,if_neg Bool.false_ne_true]
    rw [run_bind (run_expectName ends _ is words.tail)]
    rw [run_bind (run_accept ends divides words.tail.tail),if_pos rfl]
    rw [run_bind (ih words.tail.tail fuel (by omega))]
    rfl

end

end Parse

end ScriptMachine
