import Mathlib
import ScriptMachine.Proofs.Forward

/-! Whole scripts that begin with the same words. What is refused in one before they part is refused in
both, and the trees of one that ends there grow into the trees of the other. -/
namespace ScriptMachine.Parse.Fork

variable {k : Fork}

/-- Outside of blocks, statements are read up to the end of the script. -/
theorem statements_exhaust {level : Level} (tame : k.Tame level) (fuel : Nat) (previous : Token)
    (ts : List Token) (enough : ts.length < fuel) (inside : ts ≠ []) (words : Words ts)
    {body : List Stmt} {s : State}
    (run : statements false level.statement fuel (k.short previous ts) = .ok (body,s)) :
    s.current.body = .endOfScript := by
  induction fuel generalizing previous ts body s with
  | zero => exact absurd enough (Nat.not_lt_zero _)
  | succ fuel ih =>
    cases ts with
    | nil => exact absurd rfl inside
    | cons t rest =>
      rw [List.length_cons] at enough
      have later {previous : Token} (us : List Token) {body : List Stmt} {s : State}
          (fewer : us.length < fuel) (words : Words us) (ends : us = [] → k.Ends)
          (run : statements false level.statement fuel (k.short previous us) = .ok (body,s)) :
          s.current.body = .endOfScript := by
        cases us with
        | nil =>
          rw [statements_end _ _ _ (ends rfl)] at run
          cases run
          exact (ends rfl).1
        | cons u us => exact ih previous _ fewer (List.cons_ne_nil u us) words run
      have word : t.body ≠ .endOfScript := fun ends => by
        simpa [Token.isWord,ends] using words t List.mem_cons_self
      rw [statements,run_bind run_get,if_neg (by simp [word]),accept_bind] at run
      change (if t.is .semicolon then _ else _) = _ at run
      split at run
      next =>
        obtain ⟨_,u,taken,run⟩ := bind_ok run
        cases rest with
        | nil =>
          rcases advance_last k previous t with ⟨d,refused,-⟩ | ⟨ends,advanced⟩
          · rw [refused] at taken
            cases taken
          · rw [advanced] at taken
            cases taken
            exact later [] (by omega) words.tail (fun _ => ends) run
        | cons u rest =>
          rw [(k.advance_inside previous t (List.cons_ne_nil u rest) words.tail).1] at taken
          cases taken
          exact later (u :: rest) (by omega) words.tail (by simp) run
      next =>
        obtain ⟨first,u,read,run⟩ := bind_ok run
        obtain ⟨body,v,run,last⟩ := bind_ok run
        cases last
        have met := tame.statement previous _ inside words
        rw [read] at met
        generalize level.statement (k.long previous (t :: rest)) = other at met
        cases met with
        | @onward _ previous used rest' split taken inside =>
          have shorter := congrArg List.length split
          rw [List.length_append,List.length_cons] at shorter
          exact later rest' (by omega) (split ▸ words).right (fun none => absurd none inside) run
        | ended ends _ =>
          exact later [] (Nat.zero_lt_of_lt (Nat.lt_of_succ_lt_succ enough))
            (by simp [Words]) (fun _ => ends) run

/-- A script without words in front of its stop is empty, or is refused there. -/
theorem programs_nil (k : Fork) :
    (∀ d, program k.source (k.stop :: k.behind) = .error d → k.Stops d) ∧
      ∀ trees, program k.source (k.stop :: k.behind) = .ok trees → k.Ends ∧ trees = [] := by
  rcases k.stops with ends | ⟨d,faulty⟩
  · have empty : program k.source (k.stop :: k.behind) = .ok [] := by
      rw [program_eq_ok (by simp [Token.diagnostic?,ends.1])]
      exact ⟨_,statements_end (k := k) false (level depthLimit).statement (k.behind.length + 1) ends
        k.stop⟩
    rw [empty]
    exact ⟨fun _ same => (by cases same),fun _ same => ⟨ends,(Except.ok.inj same).symm⟩⟩
  · rw [program_faulty faulty]
    exact ⟨fun _ same => .inl (Except.error.inj same ▸ faulty),fun _ same => (by cases same)⟩

/-- What two scripts come to, if no word of the first is left over. -/
theorem Meets.decides {n : Nat} {ts : List Token} {r r' : Except Account (List Stmt × State)}
    (met : k.Meets n ts Stmt.AllGrow r r') (words : Words ts) (answered : Answered r')
    (exhausted : ∀ body s, r = .ok (body,s) → s.current.body = .endOfScript) :
    (∀ d, (∃ a, r = .error a ∧ a.parser.fault = some d) → k.Stops d ∨
      (∃ t ∈ ts, d.Blames t) ∧ ∃ e, (∃ a, r' = .error a ∧ a.parser.fault = some e) ∧
        (k.next.kind ≠ .name → e = d)) ∧
    ∀ trees, (∃ s, r = .ok (trees,s)) → k.Ends ∧
      ∀ trees', (∃ s, r' = .ok (trees',s)) → Stmt.AllGrow trees trees' := by
  cases met with
  | refused member blames same =>
    obtain ⟨d,fault,blames⟩ := blames
    cases answered with
    | refused tells =>
      constructor
      · rintro d' ⟨_,run,known⟩
        cases run
        cases fault.symm.trans known
        refine .inr ⟨⟨_,member,blames⟩,_,⟨_,rfl,tells.fault⟩,fun differs => ?_⟩
        exact Option.some.inj ((tells.fault.symm.trans (same differs)).trans fault)
      · rintro _ ⟨_,run⟩
        cases run
  | stopped stops =>
    obtain ⟨d,fault,stops⟩ := stops
    constructor
    · rintro d' ⟨_,run,known⟩
      cases run
      cases fault.symm.trans known
      exact .inl stops
    · rintro _ ⟨_,run⟩
      cases run
  | ended ends more =>
    constructor
    · rintro _ ⟨_,run,_⟩
      cases run
    · rintro trees ⟨_,run⟩
      cases run
      refine ⟨ends,?_⟩
      rintro trees' ⟨s,run⟩
      exact more trees' s run
  | @onward body previous used later split _ more =>
    cases later with
    | nil => exact absurd rfl more
    | cons u later =>
      have ends : u.body = .endOfScript := exhausted _ _ rfl
      have word := words u (by rw [split]; simp)
      simp [Token.isWord,ends] at word

/-- Two scripts with the same words in front. A refusal before they part is common to both. Otherwise
the first script ends there, and what is read of it grows. -/
theorem programs {front : List Token} (words : Words front) :
    (∀ d, program k.source (front ++ k.stop :: k.behind) = .error d → k.Stops d ∨
      (∃ t ∈ front, d.Blames t) ∧ ∃ e, program k.other (front ++ k.next :: k.beyond) = .error e ∧
        (k.next.kind ≠ .name → e = d)) ∧
    ∀ trees, program k.source (front ++ k.stop :: k.behind) = .ok trees → k.Ends ∧
      ∀ trees', program k.other (front ++ k.next :: k.beyond) = .ok trees' →
        Stmt.AllGrow trees trees' := by
  cases front with
  | nil =>
    obtain ⟨stops,empty⟩ := k.programs_nil
    refine ⟨fun d refused => .inl (stops d refused),fun trees parsed => ?_⟩
    obtain ⟨ends,rfl⟩ := empty trees parsed
    exact ⟨ends,fun _ _ => .nil⟩
  | cons t rest =>
    have word : t.isWord = true := words t List.mem_cons_self
    have sound := diagnostic?_word k.source word
    have sound' := diagnostic?_word k.other word
    simp only [List.cons_append,program_eq_error sound,program_eq_error sound',program_eq_ok sound,
      program_eq_ok sound']
    have inside := List.cons_ne_nil t rest
    have tame := tame_level (k := k) depthLimit
    have below (lower : Level) (known : some (level depthLimit) = some lower) : k.Tame lower :=
      Option.some.inj known ▸ tame
    have met := meets_statements below rfl false
      ((rest ++ k.stop :: k.behind).length + 1) ((rest ++ k.next :: k.beyond).length + 1) t (t :: rest)
      (by simp) (by simp) inside words
    exact met.decides words (answered_statements k.other t _) fun _ _ run =>
      statements_exhaust tame _ t (t :: rest) (by simp) inside words run

end ScriptMachine.Parse.Fork
