import Mathlib
import ScriptMachine.Proofs.Reading

/-! Two scripts that begin with the same tokens. The parser does not see what comes later: up to the place
where the scripts part it does the same on both, and if it refuses one of the tokens before that place it
refuses both scripts. -/
namespace ScriptMachine

/-- The refusal is of this token, and not for its being faulty. -/
structure Diagnostic.Blames (d : Diagnostic) (t : Token) : Prop where
  span : d.span = t.span
  position : d.position = t.position
  found : d.cause.found = some t.kind

namespace Parse

/-- What comes after the common tokens: in one script a faulty token, or its end, and anything in the
other. -/
structure Fork where
  source : Source
  stop : Token
  behind : List Token
  other : Source
  next : Token
  beyond : List Token
  stops : (stop.body = .endOfScript ∧ behind = []) ∨ ∃ d, stop.diagnostic? source = some d

/-- These words are in view, with the rest of a script behind them. -/
def before (source : Source) (stop : Token) (behind : List Token) (previous : Token) :
    List Token → State
  | [] => .clear source previous stop behind
  | current :: ahead => .clear source previous current (ahead ++ stop :: behind)

theorem clear_before (source : Source) (stop : Token) (behind : List Token) (previous : Token)
    (ts : List Token) : (before source stop behind previous ts).Clear := by
  cases ts <;> rfl

namespace Fork

variable (k : Fork)

def short (previous : Token) (ts : List Token) : State :=
  before k.source k.stop k.behind previous ts

def long (previous : Token) (ts : List Token) : State :=
  before k.other k.next k.beyond previous ts

@[simp] theorem current_short (previous t : Token) (ts : List Token) :
    (k.short previous (t :: ts)).current = t := rfl

@[simp] theorem current_long (previous t : Token) (ts : List Token) :
    (k.long previous (t :: ts)).current = t := rfl

/-- The first script ends where the two part. -/
def Ends : Prop :=
  k.stop.body = .endOfScript ∧ k.behind = []

/-- The refusal is of what stops the first script. -/
def Stops (d : Diagnostic) : Prop :=
  k.stop.diagnostic? k.source = some d ∨ k.Ends ∧ d.Blames k.stop

/-- What a parser comes to on the two scripts, with these words still in common: it goes on with both, or
both are refused, or else it has come to where they part. It takes at least `n` tokens. A lookahead tells
the scripts apart if a name follows in the other one. -/
inductive Meets {α : Type} (n : Nat) (ts : List Token) (grows : α → α → Prop) :
    Except Account (α × State) → Except Account (α × State) → Prop
  | onward {a : α} {previous : Token} {used rest : List Token} (split : ts = used ++ rest)
      (taken : n ≤ used.length) (inside : rest ≠ []) :
      Meets n ts grows (.ok (a,k.short previous rest)) (.ok (a,k.long previous rest))
  | refused {e e' : Account} {t : Token} (member : t ∈ ts) (blames : e.Faults (·.Blames t))
      (same : k.next.kind ≠ .name → e'.parser.fault = e.parser.fault) :
      Meets n ts grows (.error e) (.error e')
  | stopped {e : Account} {r : Except Account (α × State)} (stops : e.Faults k.Stops) :
      Meets n ts grows (.error e) r
  | ended {a : α} {previous : Token} {r : Except Account (α × State)} (ends : k.Ends)
      (more : ∀ b s, r = .ok (b,s) → grows a b) : Meets n ts grows (.ok (a,k.short previous [])) r

variable {k} {α β : Type} {n m : Nat} {p q : Parser α} {f g : α → Parser β} {grows : α → α → Prop}
  {grows' : β → β → Prop} {previous : Token} {ts : List Token}

instance refl_true : Std.Refl fun _ _ : α => True :=
  ⟨fun _ => trivial⟩

/-- The parsers do the same on the common words, up to where the first script stops. -/
def Follows (k : Fork) (n : Nat) (p q : Parser α) (grows : α → α → Prop) : Prop :=
  ∀ previous ts, ts ≠ [] → Words ts → k.Meets n ts grows (p (k.short previous ts)) (q (k.long previous ts))

/-- Where the first script has come to its end. -/
def Trails (k : Fork) (p q : Parser α) (grows : α → α → Prop) : Prop :=
  k.Ends → ∀ previous s, (∃ e, p (k.short previous []) = .error e ∧ e.Faults k.Stops) ∨
    ∃ a, p (k.short previous []) = .ok (a,k.short previous []) ∧ ∀ b t, q s = .ok (b,t) → grows a b

/-- The end of the first script is refused. -/
def Sinks (k : Fork) (p : Parser α) : Prop :=
  k.Ends → ∀ previous, ∃ e, p (k.short previous []) = .error e ∧ e.Faults k.Stops

theorem bind_apply (p : Parser α) (f : α → Parser β) (s : State) :
    (p >>= f) s = (p s).bind fun x => f x.1 x.2 := by
  change (p s >>= fun x => f x.1 x.2) = _
  rfl

theorem Sinks.bind (sinks : k.Sinks p) (f : α → Parser β) : k.Sinks (p >>= f) := by
  intro ends previous
  obtain ⟨d,failed,stops⟩ := sinks ends previous
  exact ⟨d,by rw [bind_apply,failed]; rfl,stops⟩

theorem Sinks.trails (sinks : k.Sinks p) : k.Trails p q grows :=
  fun ends previous _ => .inl (sinks ends previous)

theorem Trails.bind [Std.Refl grows] (first : k.Trails p q grows)
    (rest : ∀ a b, grows a b → k.Trails (f a) (g b) grows') : k.Trails (p >>= f) (q >>= g) grows' := by
  intro ends previous s
  rw [bind_apply,bind_apply]
  rcases first ends previous s with ⟨d,failed,stops⟩ | ⟨a,run,more⟩
  · exact .inl ⟨d,by rw [failed]; rfl,stops⟩
  rw [run]
  cases result : q s with
  | ok x => exact rest a x.1 (more x.1 x.2 result) ends previous x.2
  | error e =>
    rcases rest a a (Std.Refl.refl a) ends previous s with failed | ⟨b,run,-⟩
    · exact .inl failed
    · exact .inr ⟨b,run,fun _ _ refused => absurd refused (by simp [Except.bind])⟩

theorem trails_pure {a b : α} (holds : grows a b) : k.Trails (pure a) (pure b) grows :=
  fun _ _ _ => .inr ⟨a,rfl,fun _ _ run => by cases run; exact holds⟩

/-- The first parser is done, whatever the other makes of the rest of its script. -/
theorem trails_done {a : α} (more : ∀ s b t, q s = .ok (b,t) → grows a b) :
    k.Trails (pure a) q grows :=
  fun _ _ s => .inr ⟨a,rfl,more s⟩

theorem Meets.weaken {r r' : Except Account (α × State)} (meets : k.Meets n ts grows r r')
    (less : m ≤ n) : k.Meets m ts grows r r' := by
  cases meets with
  | onward split taken inside => exact .onward split (less.trans taken) inside
  | refused member blames same => exact .refused member blames same
  | stopped stops => exact .stopped stops
  | ended ends more => exact .ended ends more

/-- What comes later has fewer tokens in common. -/
theorem Meets.after {used rest : List Token} {r r' : Except Account (α × State)}
    (meets : k.Meets n rest grows r r') : k.Meets (used.length + n) (used ++ rest) grows r r' := by
  cases meets with
  | onward split taken inside =>
    refine .onward (by rw [split,← List.append_assoc]) ?_ inside
    rw [List.length_append]
    omega
  | refused member blames same => exact .refused (List.mem_append_right _ member) blames same
  | stopped stops => exact .stopped stops
  | ended ends more => exact .ended ends more

/-- What the first parser does at its end, whatever the other has come to. -/
theorem Trails.meets [Std.Refl grows] (ended : ∀ a b, grows a b → k.Trails (f a) (g b) grows')
    (ends : k.Ends) {a : α} {r : Except Account (α × State)}
    (more : ∀ b s, r = .ok (b,s) → grows a b) :
    k.Meets n ts grows' (f a (k.short previous [])) (r.bind fun x => g x.1 x.2) := by
  cases r with
  | ok x =>
    rcases ended a x.1 (more x.1 x.2 rfl) ends previous x.2 with ⟨d,failed,stops⟩ | ⟨b,run,grown⟩
    · rw [failed]
      exact .stopped stops
    · rw [run]
      exact .ended ends grown
  | error e =>
    rcases ended a a (Std.Refl.refl a) ends previous (k.short previous []) with
      ⟨d,failed,stops⟩ | ⟨b,run,-⟩
    · rw [failed]
      exact .stopped stops
    · rw [run]
      exact .ended ends fun _ _ refused => absurd refused (by simp [Except.bind])

theorem Meets.bind [Std.Refl grows] {s s' : State} (first : k.Meets n ts grows (p s) (q s'))
    (onward : ∀ a previous used rest, ts = used ++ rest → n ≤ used.length → rest ≠ [] →
      k.Meets m rest grows' (f a (k.short previous rest)) (g a (k.long previous rest)))
    (ended : ∀ a b, grows a b → k.Trails (f a) (g b) grows') :
    k.Meets (n + m) ts grows' ((p >>= f) s) ((q >>= g) s') := by
  rw [bind_apply,bind_apply]
  generalize p s = r at first
  generalize q s' = r' at first
  cases first with
  | onward split taken inside =>
    subst split
    exact (onward _ _ _ _ rfl taken inside).after.weaken (Nat.add_le_add_right taken m)
  | refused member blames same => exact .refused member blames same
  | stopped stops => exact .stopped stops
  | ended ends more => exact Trails.meets ended ends more

theorem Follows.bind [Std.Refl grows] (first : k.Follows n p q grows)
    (onward : ∀ a, k.Follows m (f a) (g a) grows')
    (ended : ∀ a b, grows a b → k.Trails (f a) (g b) grows') :
    k.Follows (n + m) (p >>= f) (q >>= g) grows' :=
  fun previous ts inside words => (first previous ts inside words).bind
    (fun a previous _ rest split _ inside => onward a previous rest inside (split ▸ words).right)
    ended

theorem Follows.weaken (follows : k.Follows n p q grows) (less : m ≤ n) : k.Follows m p q grows :=
  fun previous ts inside words => (follows previous ts inside words).weaken less

theorem Follows.loosen {looser : α → α → Prop} (follows : k.Follows n p q grows)
    (more : ∀ a b, grows a b → looser a b) : k.Follows n p q looser := by
  intro previous ts inside words
  have meets := follows previous ts inside words
  generalize p _ = r at meets ⊢
  generalize q _ = r' at meets ⊢
  cases meets with
  | onward split taken inside => exact .onward split taken inside
  | refused member blames same => exact .refused member blames same
  | stopped stops => exact .stopped stops
  | ended ends grown => exact .ended ends fun b s run => more _ _ (grown b s run)

/-! Parsers that take nothing. -/

theorem follows_pure (a : α) : k.Follows 0 (pure a) (pure a) grows :=
  fun _ ts inside _ => .onward (List.nil_append ts).symm le_rfl inside

/-- What the two scripts have in view is the same. -/
def Shares {γ : Type} (k : Fork) (v : State → γ) : Prop :=
  ∀ previous ts, ts ≠ [] → v (k.short previous ts) = v (k.long previous ts)

theorem shares_view {γ : Type} (v : Token → Token → γ) :
    k.Shares fun s => v s.previous s.current := by
  intro previous ts inside
  cases ts with
  | nil => exact absurd rfl inside
  | cons t rest => rfl

section

variable {γ : Type} {reader : Parser γ} {v : State → γ} {h l : γ → Parser β}

theorem Follows.look (shares : k.Shares v) (reads : ∀ s, reader s = .ok (v s,s))
    (rest : ∀ c, k.Follows n (h c) (l c) grows') :
    k.Follows n (reader >>= h) (reader >>= l) grows' := by
  intro previous ts inside words
  rw [bind_apply,bind_apply,reads,reads,← shares previous ts inside]
  exact rest _ previous ts inside words

theorem Trails.look (reads : ∀ s, reader s = .ok (v s,s))
    (rest : ∀ a b, k.Trails (h a) (l b) grows') : k.Trails (reader >>= h) (reader >>= l) grows' := by
  intro ends previous s
  rw [bind_apply,bind_apply,reads,reads]
  exact rest _ _ ends previous s

end

theorem Sinks.look {γ : Type} {reader : Parser γ} {v : State → γ} {h : γ → Parser β}
    (reads : ∀ s, reader s = .ok (v s,s)) (rest : ∀ c, k.Sinks (h c)) : k.Sinks (reader >>= h) := by
  intro ends previous
  rw [bind_apply,reads]
  exact rest _ ends previous

/-- What is done depends on the token in view. -/
theorem Follows.view {f : Token → Parser β}
    (rest : ∀ t, t.isWord = true → k.Follows n (f t) (f t) grows') :
    k.Follows n (fun s => f s.current s) (fun s => f s.current s) grows' := by
  intro previous ts inside words
  cases ts with
  | nil => exact absurd rfl inside
  | cons t more => exact rest t (words t List.mem_cons_self) previous _ inside words

section

variable {f g : Nat → Parser β}

theorem follows_currentStart (rest : ∀ start, k.Follows n (f start) (g start) grows') :
    k.Follows n (currentStart >>= f) (currentStart >>= g) grows' :=
  .look (shares_view fun _ current => current.span.start) (fun _ => rfl) rest

theorem follows_previousStart (rest : ∀ start, k.Follows n (f start) (g start) grows') :
    k.Follows n (previousStart >>= f) (previousStart >>= g) grows' :=
  .look (shares_view fun previous _ => previous.span.start) (fun _ => rfl) rest

end

theorem follows_spanFrom (start : Nat) {f g : Span → Parser β}
    (rest : ∀ span, k.Follows n (f span) (g span) grows') :
    k.Follows n (spanFrom start >>= f) (spanFrom start >>= g) grows' :=
  .look (shares_view fun previous _ => ⟨start,previous.span.stop⟩) (fun _ => rfl) rest

theorem trails_spanFrom (start start' : Nat) {f g : Span → Parser β}
    (rest : ∀ a b, k.Trails (f a) (g b) grows') :
    k.Trails (spanFrom start >>= f) (spanFrom start' >>= g) grows' := by
  intro ends previous s
  exact rest _ _ ends previous s

/-! Refusals. -/

theorem blames_fail (cause : Token.Kind → Diagnostic.Cause)
    (found : ∀ kind, (cause kind).found = some kind) (t : Token) :
    Diagnostic.Blames ⟨cause t.kind,t.span,t.position⟩ t :=
  ⟨rfl,rfl,found _⟩

theorem follows_fail {cause : Token.Kind → Diagnostic.Cause}
    (found : ∀ kind, (cause kind).found = some kind) :
    k.Follows n (fail cause : Parser α) (fail cause) grows := by
  intro previous ts inside words
  cases ts with
  | nil => exact absurd rfl inside
  | cons t rest =>
    have left := clear_before k.source k.stop k.behind previous (t :: rest)
    have right := clear_before k.other k.next k.beyond previous (t :: rest)
    exact .refused List.mem_cons_self ⟨_,left.fault_note _ _,blames_fail cause found t⟩
      fun _ => (right.fault_note _ _).trans (left.fault_note _ _).symm

theorem sinks_fail {cause : Token.Kind → Diagnostic.Cause}
    (found : ∀ kind, (cause kind).found = some kind) : k.Sinks (fail cause : Parser α) :=
  fun ends previous => ⟨_,rfl,_,(clear_before k.source k.stop k.behind previous []).fault_note _ _,
    .inr ⟨ends,blames_fail cause found k.stop⟩⟩

/-! Taking tokens. -/

theorem advance_inside (k : Fork) (previous t : Token) {rest : List Token} (inside : rest ≠ [])
    (words : Words rest) :
    advance (k.short previous (t :: rest)) = .ok ((),k.short t rest) ∧
      advance (k.long previous (t :: rest)) = .ok ((),k.long t rest) := by
  cases rest with
  | nil => exact absurd rfl inside
  | cons u rest =>
    have word : u.isWord = true := words u List.mem_cons_self
    exact ⟨advance_sound _ _ _ (diagnostic?_word _ word),advance_sound _ _ _ (diagnostic?_word _ word)⟩

theorem advance_last (k : Fork) (previous t : Token) :
    (∃ e, advance (k.short previous [t]) = .error e ∧ e.Faults k.Stops) ∨
      k.Ends ∧ advance (k.short previous [t]) = .ok ((),k.short t []) := by
  rcases k.stops with ends | ⟨d,faulty⟩
  · exact .inr ⟨ends,advance_sound previous t k.behind (by simp [Token.diagnostic?,ends.1])⟩
  · obtain ⟨e,refused,tells⟩ := advance_faulty previous t k.behind faulty
    exact .inl ⟨e,refused,d,tells.fault,.inl faulty⟩

theorem follows_advance : k.Follows 1 advance advance fun _ _ => True := by
  intro previous ts inside words
  cases ts with
  | nil => exact absurd rfl inside
  | cons t rest =>
    cases rest with
    | nil =>
      rcases advance_last k previous t with ⟨d,refused,stops⟩ | ⟨ends,taken⟩
      · rw [refused]
        exact .stopped stops
      · rw [taken]
        exact .ended ends fun _ _ _ => trivial
    | cons u rest =>
      obtain ⟨left,right⟩ := k.advance_inside previous t (List.cons_ne_nil u rest) words.tail
      rw [left,right]
      have split : t :: u :: rest = [t] ++ u :: rest := rfl
      exact .onward split le_rfl (List.cons_ne_nil u rest)

theorem accept_bind (symbol : Symbol) (f : Bool → Parser β) (s : State) :
    (Parse.accept symbol >>= f) s =
      if s.current.is symbol then (advance >>= fun _ => f true) s else f false s := by
  rw [Parse.accept]
  simp only [bind_assoc]
  rw [run_bind (a := s.current.is symbol) rfl]
  cases s.current.is symbol with
  | true => simp only [↓reduceIte,bind_assoc,pure_bind]
  | false => rfl

/-- What is done with the answer whether a symbol was taken. -/
theorem Follows.accept {symbol : Symbol} {f g : Bool → Parser β}
    (yes : k.Follows n (f true) (g true) grows') (ended : k.Trails (f true) (g true) grows')
    (no : k.Follows n (f false) (g false) grows') :
    k.Follows n (Parse.accept symbol >>= f) (Parse.accept symbol >>= g) grows' := by
  simp only [Parse.accept,bind_assoc]
  refine .look (shares_view fun _ current => current.is symbol) (fun _ => rfl) fun seen => ?_
  cases seen with
  | false => exact no
  | true =>
    simp only [↓reduceIte,bind_assoc,pure_bind]
    exact (follows_advance.bind (fun _ => yes) fun _ _ _ => ended).weaken (Nat.le_add_left n 1)

theorem symbol_end (symbol : Symbol) (ends : k.Ends) : k.stop.is symbol = false := by
  rw [Bool.eq_false_iff,Ne,is_iff,ends.1]
  simp

theorem accept_end (symbol : Symbol) (ends : k.Ends) (previous : Token) :
    Parse.accept symbol (k.short previous []) = .ok (false,k.short previous []) := by
  rw [Parse.accept,run_bind (a := k.stop.is symbol) rfl,symbol_end symbol ends]
  rfl

/-- At the end nothing is taken. -/
theorem Trails.decline {symbol : Symbol} {f : Bool → Parser α} (rest : k.Trails (f false) q grows) :
    k.Trails (Parse.accept symbol >>= f) q grows := by
  intro ends previous s
  rw [run_bind (accept_end symbol ends previous)]
  exact rest ends previous s

theorem Sinks.decline {symbol : Symbol} {f : Bool → Parser α} (rest : k.Sinks (f false)) :
    k.Sinks (Parse.accept symbol >>= f) := by
  intro ends previous
  rw [run_bind (accept_end symbol ends previous)]
  exact rest ends previous

theorem follows_expect (symbol : Symbol) :
    k.Follows 1 (expect symbol) (expect symbol) fun _ _ => True := by
  rw [expect,Parse.accept]
  simp only [bind_assoc]
  refine .look (shares_view fun _ current => current.is symbol) (fun _ => rfl) fun seen => ?_
  cases seen with
  | false => exact follows_fail fun _ => rfl
  | true =>
    simp only [↓reduceIte,bind_assoc,pure_bind]
    exact follows_advance.bind (m := 0) (fun _ => follows_pure ()) fun _ _ _ => trails_pure trivial

theorem sinks_expect (symbol : Symbol) : k.Sinks (expect symbol) := by
  intro ends previous
  rw [expect,run_bind (accept_end symbol ends previous)]
  exact sinks_fail (fun _ => rfl) ends previous

/-- A name is read at this token if it is one. -/
def nameAt (what : Expectation) (t : Token) : Parser Bytes :=
  match t.body with
  | .name spelling => (do advance; return spelling)
  | _ => fail (.missing what)

theorem expectName_eq (what : Expectation) : expectName what = fun s => nameAt what s.current s := by
  funext s
  rw [expectName,nameAt]
  cases s.current.body <;> rfl

theorem follows_expectName (what : Expectation) :
    k.Follows 1 (expectName what) (expectName what) Eq := by
  have taken (name : Bytes) : k.Follows 1 (do advance; return name) (do advance; return name) Eq :=
    follows_advance.bind (m := 0) (fun _ => follows_pure name) fun _ _ _ => trails_pure rfl
  have missing : k.Follows 1 (fail (.missing what) : Parser Bytes) (fail (.missing what)) Eq :=
    follows_fail fun _ => rfl
  rw [expectName_eq]
  refine Follows.view (f := nameAt what) fun t _ => ?_
  unfold nameAt
  split
  · exact taken _
  · exact missing

theorem sinks_expectName (what : Expectation) : k.Sinks (expectName what) := by
  intro ends previous
  have refused : expectName what (k.short previous []) = fail (.missing what) (k.short previous []) := by
    simp [expectName,short,before,ends.1]
  rw [refused]
  exact sinks_fail (fun _ => rfl) ends previous

theorem follows_terminator : k.Follows 0 terminator terminator fun _ _ => True := by
  rw [terminator]
  refine .accept (follows_pure ()) (trails_pure trivial) ?_
  rw [if_neg Bool.false_ne_true]
  refine Follows.view (f := fun t => unless t.is .rightBrace || t.body = .endOfScript do
    fail (.missing (.symbol .semicolon))) fun t _ => ?_
  split
  · exact follows_pure ()
  · exact follows_fail fun _ => rfl

theorem trails_terminator {q : Parser Unit} : k.Trails terminator q fun _ _ => True := by
  rw [terminator]
  refine .decline fun ends previous s => .inr ⟨(),?_,fun _ _ _ => trivial⟩
  rw [if_neg Bool.false_ne_true,run_bind run_get,short,before,State.current_clear,ends.1,
    if_pos (by simp)]
  rfl

/-! Lists. The budgets of the two scripts differ, but they last for what is in common. -/

theorem Follows.budget {f g : Nat → Parser β}
    (all : ∀ fuel fuel' previous ts, ts.length < fuel → ts.length < fuel' → ts ≠ [] → Words ts →
      k.Meets n ts grows' (f fuel (k.short previous ts)) (g fuel' (k.long previous ts))) :
    k.Follows n (Parse.budget >>= f) (Parse.budget >>= g) grows' := by
  intro previous ts inside words
  cases ts with
  | nil => exact absurd rfl inside
  | cons t rest =>
    refine all _ _ previous (t :: rest) ?_ ?_ inside words
    · change rest.length + 1 < (rest ++ k.stop :: k.behind).length + 1
      rw [List.length_append,List.length_cons]
      omega
    · change rest.length + 1 < (rest ++ k.next :: k.beyond).length + 1
      rw [List.length_append,List.length_cons]
      omega

theorem trails_budget {f g : Nat → Parser β} (rest : ∀ a b, k.Trails (f a) (g b) grows') :
    k.Trails (Parse.budget >>= f) (Parse.budget >>= g) grows' :=
  .look (fun _ => rfl) rest

/-- What is done with the answer whether a symbol was taken, when one token less is in common. -/
theorem Meets.accept {symbol : Symbol} {f g : Bool → Parser β} {t : Token} {rest : List Token}
    (words : Words (t :: rest))
    (yes : rest ≠ [] → k.Meets n rest grows' (f true (k.short t rest)) (g true (k.long t rest)))
    (ended : k.Trails (f true) (g true) grows')
    (no : k.Meets n (t :: rest) grows' (f false (k.short previous (t :: rest)))
      (g false (k.long previous (t :: rest)))) :
    k.Meets n (t :: rest) grows' ((Parse.accept symbol >>= f) (k.short previous (t :: rest)))
      ((Parse.accept symbol >>= g) (k.long previous (t :: rest))) := by
  rw [accept_bind,accept_bind]
  change k.Meets n (t :: rest) grows' (if t.is symbol then _ else _) (if t.is symbol then _ else _)
  split
  next =>
    rw [bind_apply,bind_apply]
    cases rest with
    | nil =>
      rcases advance_last k previous t with ⟨d,refused,stops⟩ | ⟨ends,taken⟩
      · rw [refused]
        exact .stopped stops
      · rw [taken]
        have met (a b : Unit) (_ : True) : k.Trails (f true) (g true) grows' := ended
        exact Trails.meets met ends (a := ()) fun _ _ _ => trivial
    | cons u rest =>
      obtain ⟨left,right⟩ := k.advance_inside previous t (List.cons_ne_nil u rest) words.tail
      rw [left,right]
      have later : k.Meets ([t].length + n) ([t] ++ u :: rest) grows' _ _ :=
        (yes (List.cons_ne_nil u rest)).after
      exact later.weaken (Nat.le_add_left n 1)
  next => exact no

/-- An item, and more of them behind a comma. What stands at the end is not asked for: a list is always
closed. -/
theorem meets_item {item : Parser α} {more more' : Parser (List α)}
    (each : k.Follows 1 item item fun _ _ => True) (inside : ts ≠ []) (words : Words ts)
    (later : ∀ previous rest, rest.length + 1 < ts.length → rest ≠ [] → Words rest →
      k.Meets 0 rest (fun _ _ => True) (more (k.short previous rest)) (more' (k.long previous rest)))
    (ended : k.Trails more more' fun _ _ => True) : k.Meets 1 ts (fun _ _ => True)
      ((do
        let first ← item
        if ← Parse.accept .comma then return first :: (← more)
        return [first]) (k.short previous ts))
      ((do
        let first ← item
        if ← Parse.accept .comma then return first :: (← more')
        return [first]) (k.long previous ts)) := by
  refine (each previous ts inside words).bind (m := 0)
    (fun first previous used rest split taken follows => ?_)
    fun _ _ _ => .decline (trails_done fun _ _ _ _ => trivial)
  subst split
  rw [List.length_append] at later
  cases rest with
  | nil => exact absurd rfl follows
  | cons t rest =>
    rw [List.length_cons] at later
    refine .accept words.right (fun inside => ?_) ?_ (follows_pure _ _ _ follows words.right)
    · exact (later t rest (by omega) inside words.right.tail).bind (m := 0)
        (fun _ previous _ rest split _ inside => follows_pure _ previous rest inside
          (split ▸ words.right.tail).right) fun _ _ _ => trails_pure trivial
    · exact ended.bind fun _ _ _ => trails_pure trivial

theorem trails_commaSeparated {item : Parser α} {q : Parser (List α)} (sinks : k.Sinks item)
    (fuel : Nat) : k.Trails (commaSeparated item fuel) q fun _ _ => True := by
  cases fuel with
  | zero => exact trails_done fun _ _ _ _ => trivial
  | succ fuel => exact (sinks.bind _).trails

theorem meets_commaSeparated {item : Parser α} (each : k.Follows 1 item item fun _ _ => True)
    (sinks : k.Sinks item) (fuel fuel' : Nat) (previous : Token) (ts : List Token)
    (enough : ts.length < fuel) (enough' : ts.length < fuel') (inside : ts ≠ []) (words : Words ts) :
    k.Meets 0 ts (fun _ _ => True) (commaSeparated item fuel (k.short previous ts))
      (commaSeparated item fuel' (k.long previous ts)) := by
  induction fuel generalizing fuel' previous ts with
  | zero => exact absurd enough (Nat.not_lt_zero _)
  | succ fuel ih =>
    obtain ⟨fuel',rfl⟩ := Nat.exists_eq_add_one_of_ne_zero (Nat.ne_zero_of_lt enough')
    refine (meets_item each inside words (fun previous rest less inside words => ?_)
      (trails_commaSeparated sinks fuel)).weaken (Nat.zero_le _)
    exact ih fuel' previous rest (by omega) (by omega) inside words

theorem trails_fieldNames {q : Parser (List Bytes)} (fuel : Nat) :
    k.Trails (fieldNames fuel) q fun _ _ => True := by
  cases fuel with
  | zero => exact trails_done fun _ _ _ _ => trivial
  | succ fuel =>
    intro ends previous s
    rw [fieldNames,run_bind (a := k.stop.is .rightBrace) rfl,symbol_end _ ends]
    exact (Sinks.bind (sinks_expectName _) _).trails ends previous s

/-- The names of a struct's fields. -/
theorem meets_fieldNames (fuel fuel' : Nat) (previous : Token) (ts : List Token)
    (enough : ts.length < fuel) (enough' : ts.length < fuel') (inside : ts ≠ []) (words : Words ts) :
    k.Meets 0 ts (fun _ _ => True) (fieldNames fuel (k.short previous ts))
      (fieldNames fuel' (k.long previous ts)) := by
  induction fuel generalizing fuel' previous ts with
  | zero => exact absurd enough (Nat.not_lt_zero _)
  | succ fuel ih =>
    obtain ⟨fuel',rfl⟩ := Nat.exists_eq_add_one_of_ne_zero (Nat.ne_zero_of_lt enough')
    cases ts with
    | nil => exact absurd rfl inside
    | cons t rest =>
      rw [fieldNames,fieldNames,run_bind (a := t.is .rightBrace) rfl,
        run_bind (a := t.is .rightBrace) rfl]
      split
      · exact follows_pure _ _ _ inside words
      · have each : k.Follows 1 (expectName .fieldName) (expectName .fieldName) fun _ _ => True :=
          (follows_expectName _).loosen fun _ _ _ => trivial
        refine (meets_item each inside words (fun previous rest less inside words => ?_)
          (trails_fieldNames fuel)).weaken (Nat.zero_le _)
        exact ih fuel' previous rest (by omega) (by omega) inside words

theorem follows_names : k.Follows 0
    (do commaSeparated (expectName .parameterName) (← Parse.budget))
    (do commaSeparated (expectName .parameterName) (← Parse.budget)) fun _ _ => True :=
  .budget <| meets_commaSeparated ((follows_expectName _).loosen fun _ _ _ => trivial)
    (sinks_expectName _)

theorem follows_parameters : k.Follows 1 parameters parameters fun _ _ => True := by
  have closes (names : List Bytes) : k.Follows 0 (do expect .rightParen; return names)
      (do expect .rightParen; return names) fun _ _ => True :=
    ((follows_expect .rightParen).bind (m := 0) (fun _ => follows_pure names)
      fun _ _ _ => trails_pure trivial).weaken (Nat.zero_le _)
  have open_ (names : List Bytes) : k.Sinks (do expect .rightParen; return names) :=
    (sinks_expect .rightParen).bind _
  rw [parameters]
  refine (follows_expect .leftParen).bind (m := 0) (fun _ => ?_) fun _ _ _ => ?_
  · refine .look (shares_view fun _ current => current.is .rightParen) (fun _ => rfl) fun seen => ?_
    cases seen with
    | true => exact closes []
    | false =>
      have whole := follows_names.bind (k := k) closes fun a _ _ => (open_ a).trails
      rw [bind_assoc] at whole
      exact whole
  · refine Sinks.trails fun ends previous => ?_
    rw [run_bind (a := k.stop.is .rightParen) rfl,symbol_end _ ends]
    have sinks (fuel : Nat) : k.Sinks (commaSeparated (expectName .parameterName) (fuel + 1)) :=
      (sinks_expectName _).bind _
    rw [if_neg Bool.false_ne_true,run_bind (a := k.behind.length + 1) rfl]
    exact ((sinks _).bind _) ends previous

theorem sinks_parameters : k.Sinks parameters :=
  (sinks_expect .leftParen).bind _

end Fork

end Parse

end ScriptMachine
