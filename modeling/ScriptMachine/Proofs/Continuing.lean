import Mathlib
import ScriptMachine.Proofs.Diagnosing
import ScriptMachine.Proofs.GrownTrees
import ScriptMachine.Proofs.MoreText

/-! Refusals that more lines cannot mend. What is wrong with whole lines before they end stays wrong, but for
a string that a backslash carries over to the next line: it is refused at once, though it could be closed
there. -/
namespace ScriptMachine

open Parse

namespace Source

variable {source other : Source} {d : Diagnostic}

/-- No script with a faulty token compiles. -/
theorem refused_faulty {words rest : List Token} {bad : Token}
    (split : Token.tokens source = words ++ bad :: rest) (sound : Words words)
    (faulty : ∃ d, bad.diagnostic? source = some d) : ∃ e, source.compile = .error e := by
  let k : Fork := ⟨source,bad,rest,source,bad,rest,.inr faulty⟩
  cases parsed : source.parse with
  | error e => exact ⟨e,compile_parseError parsed⟩
  | ok trees =>
    rw [parse,split] at parsed
    obtain ⟨⟨ends,-⟩,-⟩ := (k.programs sound).2 trees parsed
    obtain ⟨d,known⟩ := faulty
    obtain ⟨fault,place,body,-⟩ := Token.diagnostic?_eq_some.mp known
    exact absurd (body.symm.trans ends) (by simp)

/-- Two scripts with the same words in front. If the first is refused, then for what stops it, or else the
other is refused too. -/
theorem refused_beside (k : Fork) {front : List Token} (words : Words front)
    (short : Token.tokens k.source = front ++ k.stop :: k.behind)
    (long : Token.tokens k.other = front ++ k.next :: k.beyond) (refused : k.source.compile = .error d) :
    k.Stops d ∨ ∃ e, k.other.compile = .error e := by
  obtain ⟨refusals,growth⟩ := k.programs words
  rw [← short,← long] at refusals growth
  cases parsed : k.source.parse with
  | error e =>
    rw [compile_parseError parsed] at refused
    cases refused
    rcases refusals d parsed with stops | ⟨-,e,failed,-⟩
    · exact .inl stops
    · exact .inr ⟨e,compile_parseError failed⟩
  | ok trees =>
    rw [compile_parsed parsed] at refused
    refine .inr ?_
    cases later : k.other.parse with
    | error e => exact ⟨e,compile_parseError later⟩
    | ok trees' =>
      have grow := (growth trees parsed).2 trees' later
      rw [compile_parsed later]
      cases outcome : (Compile.tree k.other trees').outcome with
      | error e => exact ⟨e,rfl⟩
      | ok chunk =>
        obtain ⟨c,accepted⟩ := Compile.tree_grows k.source grow outcome
        exact absurd (refused.symm.trans accepted) (by simp)

/-- Whole lines that are refused, and not for their end: so is all that begins with them, unless a
backslash carries a string over to what follows. -/
theorem refused_more {text : Bytes} (whole : WholeLines text) (refused : (ofText text).compile = .error d)
    (inner : d.atEnd = false) : d.cause = .lexical .unterminatedString ∨
      ∀ more, ∃ e, (ofText (text ++ more)).compile = .error e := by
  refine or_iff_not_imp_left.mpr fun closed more => ?_
  obtain ⟨front,stop,behind,tail,short,long,some,ends⟩ := Token.tokens_more whole more
  have inside : ∀ t ∈ front, t.body ≠ .endOfScript := by
    obtain ⟨before,last,split,-,inside⟩ := (Token.tokens_row (ofText text)).ends
    have same := congrArg List.dropLast (short.symm.trans split)
    rw [List.dropLast_concat,List.dropLast_append_of_ne_nil (List.cons_ne_nil stop behind)] at same
    exact fun t member => inside t (same ▸ List.mem_append_left _ member)
  rcases Token.words_or_faulty inside with words | ⟨words,bad,rest,rfl,sound,faulty⟩
  · obtain ⟨next,beyond,rfl⟩ := List.exists_cons_of_ne_nil some
    have stops : (stop.body = .endOfScript ∧ behind = []) ∨ ∃ d, stop.diagnostic? (ofText text) = .some d :=
      ends.imp_right fun ⟨place,body⟩ => ⟨_,Token.diagnostic?_eq_some.mpr ⟨_,place,body,rfl⟩⟩
    let k : Fork := ⟨ofText text,stop,behind,ofText (text ++ more),next,beyond,stops⟩
    refine (refused_beside k words short long refused).resolve_left ?_
    rintro (broken | ⟨⟨last,-⟩,blames⟩)
    · obtain ⟨fault,place,body,rfl⟩ := Token.diagnostic?_eq_some.mp broken
      rcases ends with ⟨last,-⟩ | ⟨_,open_⟩
      · exact absurd (body.symm.trans last) (by simp)
      · obtain ⟨rfl,-⟩ := Token.Body.invalid.inj (body.symm.trans open_)
        exact closed rfl
    · -- it is the end that is refused, which more text could mend
      have kind : stop.kind = .endOfScript := by rw [Token.kind,last]; rfl
      simp [Diagnostic.atEnd,blames.found,k,kind] at inner
  · rw [List.append_assoc,List.cons_append] at long
    exact refused_faulty long sound (faulty _)

/-- A missing operand is refused whatever comes in later lines. -/
theorem refused_more_operand : ∃ d, (ofText (ascii "print 1 +* 2;\n")).compile = .error d ∧
    WholeLines (ascii "print 1 +* 2;\n") ∧ d.atEnd = false ∧
    d.cause ≠ .lexical .unterminatedString ∧
      ∀ more, ∃ e, (ofText (ascii "print 1 +* 2;\n" ++ more)).compile = .error e := by
  have whole : WholeLines (ascii "print 1 +* 2;\n") := by decide +kernel
  obtain ⟨d,compiled,cause⟩ := compile_reported (f := Diagnostic.cause) (a := .noExpression (.symbol .star))
    (ofText (ascii "print 1 +* 2;\n")) (by decide +kernel)
  have inner : d.atEnd = false := by
    rw [Diagnostic.atEnd,cause]
    rfl
  have closed : d.cause ≠ .lexical .unterminatedString := by simp [cause]
  exact ⟨d,compiled,whole,inner,closed,(refused_more whole compiled inner).resolve_left closed⟩

/-- A string is refused at a line break that it is carried over, and accepted once it is closed in the next
line. -/
theorem refused_carried : ¬∀ text, WholeLines text → ∀ d, (ofText text).compile = .error d →
    d.atEnd = false → ∀ more, ∃ e, (ofText (text ++ more)).compile = .error e := by
  intro mended
  obtain ⟨d,compiled,inner⟩ := compile_reported (f := Diagnostic.atEnd) (a := false)
    (ofText (ascii "\"a\\\n")) (by decide +kernel)
  have accepted : (ofText (ascii "\"a\\\n" ++ ascii "b\"\n")).compile.toOption.isSome = true := by
    decide +kernel
  obtain ⟨e,refused⟩ := mended _ (by decide +kernel) d compiled inner (ascii "b\"\n")
  rw [refused] at accepted
  exact absurd accepted Bool.false_ne_true

end Source

end ScriptMachine
