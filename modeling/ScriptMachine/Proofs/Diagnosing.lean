import Mathlib
import ScriptMachine.Proofs.Beginnings
import ScriptMachine.Proofs.Locating
import ScriptMachine.Proofs.Places
import ScriptMachine.Proofs.Ranges

/-! What is told about a script that is refused. There is one diagnostic, and it is true of the script: its
range lies in the text, its position is that of where the range starts, and a lexical fault is the first
that the script has. -/
namespace ScriptMachine

open Parse Grammar

namespace Token

/-- What is no word and not the end of the script is faulty. -/
theorem faulty_of_not_word {source : Source} {t : Token} (word : t.isWord = false)
    (inner : t.body ≠ .endOfScript) : ∃ d, t.diagnostic? source = some d := by
  cases body : t.body <;> simp_all [isWord,diagnostic?]

theorem diagnostic?_eq_some {source : Source} {t : Token} {d : Diagnostic} :
    t.diagnostic? source = some d ↔
      ∃ fault place, t.body = .invalid fault place ∧ d = .locate source (.lexical fault) place := by
  cases body : t.body <;> simp [diagnostic?,body,eq_comm]

/-- Tokens with no end of script among them are words up to the first faulty one. -/
theorem words_or_faulty {front : List Token} (inner : ∀ t ∈ front, t.body ≠ .endOfScript) :
    Words front ∨ ∃ words bad rest, front = words ++ bad :: rest ∧ Words words ∧
      ∀ source, ∃ d, bad.diagnostic? source = some d := by
  induction front with
  | nil => exact .inl (by simp [Words])
  | cons t rest ih =>
    obtain ⟨here,later⟩ := List.forall_mem_cons.mp inner
    cases word : t.isWord with
    | true =>
      rcases ih later with words | ⟨words,bad,rest,rfl,sound,faulty⟩
      · exact .inl (List.forall_mem_cons.mpr ⟨word,words⟩)
      · exact .inr ⟨t :: words,bad,rest,rfl,List.forall_mem_cons.mpr ⟨word,sound⟩,faulty⟩
    | false => exact .inr ⟨[],t,rest,rfl,by simp [Words],fun _ => faulty_of_not_word word here⟩

/-- The words of a script up to its first faulty token, or else to its end. -/
theorem Row.parts {source : Source} {offset : Nat} {row : List Token} (stands : Row source offset row) :
    ∃ front stop behind, row = front ++ stop :: behind ∧ Words front ∧
      ((stop.body = .endOfScript ∧ behind = []) ∨ ∃ d, stop.diagnostic? source = some d) := by
  obtain ⟨front,last,rfl,ends,inner⟩ := stands.ends
  rcases words_or_faulty inner with words | ⟨words,bad,rest,rfl,sound,faulty⟩
  · exact ⟨front,last,[],rfl,words,.inl ⟨ends,rfl⟩⟩
  · exact ⟨words,bad,rest ++ [last],by simp,sound,.inr (faulty source)⟩

end Token

/-! The scanner remembers the first fault and reports it. -/

namespace Journal

/-- The listener was told what is remembered. -/
structure Frank (j : Journal) : Prop where
  listened : j.listened = true
  told : j.told.map (·.diagnostic) = j.fault.toList

variable {j : Journal} (source : Source) (t : Token)

theorem fault_hear : (j.hear source t).fault = j.fault.or (t.diagnostic? source) := by
  rw [hear]
  cases t.diagnostic? source <;> cases fault : j.fault <;> simp [note,fault]

theorem Frank.hear (frank : j.Frank) : (j.hear source t).Frank := by
  rw [Journal.hear]
  split
  next d _ =>
    rw [note]
    split
    · exact frank
    next known =>
      have told := frank.told
      rw [known] at told
      exact ⟨frank.listened,by simp [frank.listened,told]⟩
  next => exact frank

theorem fault_hearAll (ts : List Token) : (ts.foldl (·.hear source ·) j).fault =
    j.fault.or (ts.findSome? (Token.diagnostic? source)) := by
  induction ts generalizing j with
  | nil => exact Option.or_none.symm
  | cons t ts ih =>
    rw [List.foldl_cons,List.findSome?_cons,ih,fault_hear,Option.or_assoc]
    cases t.diagnostic? source <;> rfl

theorem Frank.hearAll (ts : List Token) (frank : j.Frank) : (ts.foldl (·.hear source ·) j).Frank := by
  induction ts generalizing j with
  | nil => exact frank
  | cons t ts ih => exact ih (frank.hear source t)

end Journal

namespace Scanner

theorem token_next (s : Scanner) : s.next.1 = (Token.read s.source s.cursor).1 := rfl

theorem source_next (s : Scanner) : s.next.2.source = s.source := rfl

theorem cursor_next (s : Scanner) : s.next.2.cursor = (Token.read s.source s.cursor).2 := rfl

theorem fault_next (s : Scanner) :
    s.next.2.fault = s.fault.or ((Token.read s.source s.cursor).1.diagnostic? s.source) :=
  Journal.fault_hear _ _

/-- The journal is kept from token to token. -/
theorem journal_fold (s : Scanner) {source : Source} {cursor : Token.Cursor} (same : s.source = source)
    (here : s.cursor = cursor) :
    ((Token.readAll source cursor).foldl (fun s _ => s.next.2) s).journal =
      (Token.readAll source cursor).foldl (·.hear source ·) s.journal := by
  fun_induction Token.readAll source cursor generalizing s with
  | case1 cursor token last =>
    subst same here
    rfl
  | case2 cursor token more ih =>
    subst same here
    exact ih s.next.2 rfl rfl

theorem all_spec (source : Source) : (start source).all.2.fault =
      (Token.tokens source).findSome? (Token.diagnostic? source) ∧
    (start source).all.2.reported = (start source).all.2.fault.toList := by
  have journal : (start source).all.2.journal = (Token.tokens source).foldl (·.hear source ·) .aloud :=
    (start source).journal_fold rfl rfl
  rw [fault,reported,journal]
  exact ⟨by rw [Journal.fault_hearAll]; rfl,(Journal.Frank.hearAll source _ ⟨rfl,rfl⟩).told⟩

end Scanner

/-- The script has this fault first. Up to there nothing is wrong with its grammar: if it ended there, the
end alone could be refused. -/
structure Source.FaultsFirst (source : Source) (d : Diagnostic) : Prop where
  first : ∃ front bad behind, Token.tokens source = front ++ bad :: behind ∧
    (∀ t ∈ front, t.diagnostic? source = none) ∧ bad.diagnostic? source = some d ∧
    ∀ stop e, stop.body = .endOfScript → program source (front ++ [stop]) = .error e → e.Blames stop
  remembered : (Scanner.start source).all.2.fault = some d
  reported : (Scanner.start source).all.2.reported = [d]

/-- What a diagnostic says is true of the script. -/
structure Diagnostic.Valid (source : Source) (d : Diagnostic) : Prop where
  ordered : d.span.start ≤ d.span.stop
  inside : d.span.stop ≤ source.size
  position : d.position = ⟨(source.text.take d.span.start).count Byte.lineFeed + 1,
    (lastLine (source.text.take d.span.start)).length + 1⟩
  expected : d.cause.expected ≠ none → d.category = .grammar
  found : d.cause.found ≠ none → d.category = .grammar
  first : d.category = .lexical → source.FaultsFirst d

/-- A script that is refused for the faulty token at which its words end. -/
theorem Source.faultsFirst {source : Source} {front behind : List Token} {bad : Token} {d : Diagnostic}
    (split : Token.tokens source = front ++ bad :: behind) (words : Words front)
    (faulty : bad.diagnostic? source = some d) (refused : source.parse = .error d) :
    source.FaultsFirst d := by
  have sound (t : Token) (member : t ∈ front) : t.diagnostic? source = none :=
    diagnostic?_word source (words t member)
  have found : (Token.tokens source).findSome? (Token.diagnostic? source) = some d := by
    rw [split,List.findSome?_append,List.findSome?_eq_none_iff.mpr sound,Option.none_or,
      List.findSome?_cons,faulty]
  obtain ⟨fault,reported⟩ := Scanner.all_spec source
  rw [found] at fault
  rw [fault] at reported
  refine ⟨⟨front,bad,behind,split,sound,faulty,fun stop e ends failed => ?_⟩,fault,reported⟩
  let k : Fork := ⟨source,stop,[],source,bad,behind,.inl ⟨ends,rfl⟩⟩
  rcases (k.programs words).1 e failed with stops | ⟨⟨t,-,blames⟩,other,parsed,same⟩
  · rcases stops with broken | ⟨-,blames⟩
    · simp [k,Token.diagnostic?,ends] at broken
    · exact blames
  · -- the refusal of a word would have come before that of the faulty token
    obtain ⟨cause,place,body,rfl⟩ := Token.diagnostic?_eq_some.mp faulty
    rw [Source.parse,split] at refused
    have invalid : bad.kind ≠ .name := by simp [Token.kind,body,Token.Body.kind]
    have identical := same invalid
    rw [show other = _ from Except.error.inj (parsed.symm.trans refused)] at identical
    have lexical := blames.found
    rw [← identical] at lexical
    contradiction

/-- A diagnostic at the start of its range is in its place. -/
theorem Source.position_start {source : Source} {d : Diagnostic}
    (position : d.position = source.position d.span.start) (ordered : d.span.start ≤ d.span.stop)
    (inside : d.span.stop ≤ source.size) :
    d.position = ⟨(source.text.take d.span.start).count Byte.lineFeed + 1,
      (lastLine (source.text.take d.span.start)).length + 1⟩ := by
  rw [position,source.position_eq (ordered.trans inside)]

theorem Diagnostic.Cause.found_grammar {cause : Diagnostic.Cause} (found : cause.found ≠ none) :
    cause.category = .grammar := by
  cases cause <;> first | rfl | contradiction

theorem Diagnostic.Cause.expected_grammar {cause : Diagnostic.Cause} (expected : cause.expected ≠ none) :
    cause.category = .grammar := by
  cases cause <;> first | rfl | contradiction

/-- The diagnostic of a token that is refused where something else is called for. -/
theorem Diagnostic.Blames.valid {source : Source} {d : Diagnostic} {t : Token} (blames : d.Blames t)
    (stands : t.Stands source) : d.Valid source := by
  have grammar : d.category = .grammar := Cause.found_grammar (by rw [blames.found]; simp)
  have ordered : d.span.start ≤ d.span.stop := by rw [blames.span]; exact stands.ordered
  have inside : d.span.stop ≤ source.size := by rw [blames.span]; exact stands.inside
  refine ⟨ordered,inside,Source.position_start ?_ ordered inside,fun _ => grammar,fun _ => grammar,
    fun lexical => ?_⟩
  · rw [blames.position,blames.span]
    exact stands.position
  · rw [grammar] at lexical
    contradiction

/-- The diagnostic of a tree whose nodes stand in the text. -/
theorem Diagnostic.Located.valid {source : Source} {d : Diagnostic}
    (located : d.Located source (Span.Fits source.size)) : d.Valid source := by
  have other : d.category ≠ .grammar ∧ d.category ≠ .lexical := by
    rcases located.category with kind | kind <;> simp [kind]
  exact ⟨located.span.ordered,located.span.inside,
    Source.position_start located.position located.span.ordered located.span.inside,
    fun expected => Cause.expected_grammar expected,fun found => Cause.found_grammar found,
    fun lexical => absurd lexical other.2⟩

/-- The parser refuses a script for its first faulty token, or for one that it has no use for. -/
theorem Source.parse_refused {source : Source} {d : Diagnostic} (refused : source.parse = .error d) :
    ∃ t ∈ Token.tokens source,
      t.diagnostic? source = some d ∧ source.FaultsFirst d ∨ d.Blames t := by
  obtain ⟨front,stop,behind,split,words,stops⟩ := (Token.tokens_row source).parts
  let k : Fork := ⟨source,stop,behind,source,stop,behind,stops⟩
  have failed : program k.source (front ++ k.stop :: k.behind) = .error d := by
    rw [← refused,Source.parse,split]
  rw [split]
  rcases (k.programs words).1 d failed with (faulty | ⟨-,blames⟩) | ⟨⟨t,member,blames⟩,-⟩
  · exact ⟨stop,by simp,.inl ⟨faulty,source.faultsFirst split words faulty refused⟩⟩
  · exact ⟨stop,by simp,.inr blames⟩
  · exact ⟨t,List.mem_append_left _ member,.inr blames⟩

/-- What the parser refuses. -/
theorem Source.parse_valid {source : Source} {d : Diagnostic} (refused : source.parse = .error d) :
    d.Valid source := by
  obtain ⟨t,member,⟨faulty,first⟩ | blames⟩ := source.parse_refused refused
  · obtain ⟨fault,place,body,rfl⟩ := Token.diagnostic?_eq_some.mp faulty
    obtain ⟨ordered,inside⟩ := ((Token.tokens_row source).stand t member).place fault place body
    exact ⟨ordered,inside,Source.position_start rfl ordered inside,
      fun expected => Diagnostic.Cause.expected_grammar expected,fun found =>
        Diagnostic.Cause.found_grammar found,
      fun _ => first⟩
  · exact blames.valid ((Token.tokens_row source).stand t member)

/-- A tree that the parser gives was derived from all words of the script. -/
theorem Source.parse_derives {source : Source} {program : List Stmt}
    (parsed : source.parse = .ok program) : ∃ words stop, Token.tokens source = words ++ [stop] ∧
      Words words ∧ Derives words (.statements program) := by
  obtain ⟨words,stop,behind,split,sound,stops⟩ := (Token.tokens_row source).parts
  let k : Fork := ⟨source,stop,behind,source,stop,behind,stops⟩
  rw [Source.parse,split] at parsed
  obtain ⟨⟨ends,none⟩,-⟩ := (k.programs sound).2 program parsed
  have last : behind = [] := none
  subst last
  exact ⟨words,stop,split,sound,derives_of_program ends sound parsed⟩

/-- The tokens of a script stand one behind the other. -/
theorem Source.tokens_inOrder (source : Source) : InOrder source.size (Token.tokens source) := by
  have row := Token.tokens_row source
  exact ⟨fun t member => ⟨(row.stand t member).ordered,(row.stand t member).inside⟩,row.ordered⟩

/-- The nodes of a tree that the parser gives stand in the text. -/
theorem Source.parse_ranged {source : Source} {program : List Stmt}
    (parsed : source.parse = .ok program) : Stmt.AllRanged (Span.Fits source.size) program := by
  obtain ⟨words,stop,split,-,derives⟩ := source.parse_derives parsed
  have order := source.tokens_inOrder
  rw [split] at order
  exact derives.ranged order.left.fair

/-- What the compiler refuses, it refuses at a node. -/
theorem Source.tree_located {source : Source} {good : Span → Prop} {program : List Stmt} {d : Diagnostic}
    (ranged : Stmt.AllRanged good program) (refused : (Compile.tree source program).outcome = .error d) :
    d.Located source good := by
  obtain ⟨t,run⟩ := Compile.tree_eq_error.mp refused
  have concludes := Compile.script_located source ranged Compile.State.initial
  rw [run] at concludes
  cases concludes with
  | refused located noted => exact located

/-- What is said of a refused script is true of it. -/
theorem Source.compile_valid {source : Source} {d : Diagnostic} (refused : source.compile = .error d) :
    d.Valid source := by
  cases parsed : source.parse with
  | error e =>
    rw [compile_parseError parsed] at refused
    cases refused
    exact source.parse_valid parsed
  | ok program =>
    rw [compile_parsed parsed] at refused
    exact (source.tree_located (source.parse_ranged parsed) refused).valid

/-- A listener hears nothing of a script that is compiled, and one thing of a script that is refused. -/
theorem Source.compile_tells (source : Source) :
    (∃ chunk, source.compile = .ok chunk ∧ source.compileVerbose.told = []) ∨
      ∃ d, source.compile = .error d ∧ source.compileVerbose.told = [⟨d.origin,d⟩] := by
  have answers := read_answers source (Token.tokens source)
  rw [compile,compileVerbose_eq]
  generalize read .start source (Token.tokens source) = result at answers ⊢
  obtain ⟨program,account⟩ := result
  rcases answers with ⟨sound,told⟩ | ⟨d,tells⟩ <;> dsimp only at *
  · simpa only [sound,told,List.nil_append] using Compile.tree_tells source program
  · simp only [tells.fault,tells.told]
    exact .inr ⟨d,rfl,rfl⟩

/-- What is heard is the diagnostic. -/
theorem Source.compile_reported (source : Source) {α : Type} {f : Diagnostic → α} {a : α}
    (reported : source.compileVerbose.reports.map f = [a]) : ∃ d, source.compile = .error d ∧ f d = a := by
  rw [Compile.Result.reports] at reported
  rcases source.compile_tells with ⟨chunk,-,told⟩ | ⟨d,refused,told⟩ <;> rw [told] at reported
  · contradiction
  · exact ⟨d,refused,List.singleton_inj.mp reported⟩

/-- Compiling gives a program and tells nothing, or tells one diagnostic and gives that; and what the
diagnostic says is true. -/
theorem Source.compile_diagnoses (source : Source) :
    (∃ chunk, source.compile = .ok chunk ∧ source.compileVerbose.told = []) ∨
      ∃ d, source.compile = .error d ∧ source.compileVerbose.told = [⟨d.origin,d⟩] ∧ d.Valid source := by
  rcases source.compile_tells with compiled | ⟨d,refused,told⟩
  · exact .inl compiled
  · exact .inr ⟨d,refused,told,source.compile_valid refused⟩

/-- The scanner has met a faulty token by the time the parser refuses the one before it. Only the parser's
refusal is told. -/
theorem Source.compile_diagnoses_ahead :
    ∃ d, (ofText (ascii "var = @;")).compile = .error d ∧
      (ofText (ascii "var = @;")).compileVerbose.told = [⟨.parser,d⟩] ∧
      d.Valid (ofText (ascii "var = @;")) := by
  have heard : (ofText (ascii "var = @;")).compileVerbose.told.map (·.origin) = [.parser] := by
    decide +kernel
  rcases compile_diagnoses (ofText (ascii "var = @;")) with ⟨chunk,-,told⟩ | ⟨d,refused,told,valid⟩ <;>
    rw [told] at heard
  · contradiction
  · have origin : d.origin = .parser := List.singleton_inj.mp heard
    exact ⟨d,refused,by rw [told,origin],valid⟩

/-- A listener of the scanner would hear of a faulty token as well. -/
example : ((read ⟨.aloud,.aloud⟩ (.ofText (ascii "@")) (Token.tokens (.ofText (ascii "@")))).2.told.map
    (·.origin)) = [.scanner,.scanner] := by decide +kernel

end ScriptMachine
