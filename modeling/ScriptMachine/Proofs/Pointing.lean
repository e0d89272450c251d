import Mathlib
import ScriptMachine.Proofs.Spans
import ScriptMachine.Proofs.Strings

/-! What a diagnostic points at. Its range is empty only at the end of the script; else it starts with a byte
that is seen, or is a single byte. -/
namespace ScriptMachine

open Parse Grammar

/-- The range starts with a byte of the text that takes one column. If it is one that leaves a line blank, it
is all of the range. -/
def Span.Shows (source : Source) (span : Span) : Prop :=
  ∃ b, source.text[span.start]? = some b ∧ b ≠ Byte.tab ∧
    (Byte.isBlank b = true ∨ b = 11 → span.stop = span.start + 1)

namespace Token

variable {source : Source} {c : Cursor} {b : UInt8} {rest : Bytes}

theorem Cursor.On.getElem? (on : c.On source) (front : Bytes) {behind : Bytes}
    (split : c.rest = front ++ b :: behind) : source.text[c.offset + front.length]? = some b := by
  rw [← List.getElem?_drop,← on.rest,split,List.getElem?_append_right le_rfl,Nat.sub_self]
  rfl

/-- A range that starts with a byte that is seen. -/
theorem shows_of_seen {span : Span} (first : source.text[span.start]? = some b)
    (seen : Byte.isBlank b = false) (other : b ≠ 11) : span.Shows source := by
  refine ⟨b,first,?_,fun unseen => ?_⟩
  · rintro rfl
    contradiction
  · rcases unseen with blank | rfl
    · rw [seen] at blank
      contradiction
    · exact absurd rfl other

/-- Where a string is faulty. -/
theorem Spoils.shows (on : c.On source) (opens : c.rest = Byte.quote :: rest) {fault : LexicalFault}
    {place : Span} (spoils : Spoils c.offset rest fault place) : place.Shows source := by
  cases spoils with
  | unterminated => exact shows_of_seen (on.getElem? [] opens) (by decide) (by decide)
  | @lineBreak units _ behind _ breaks =>
    have split : c.rest = (Byte.quote :: units) ++ Byte.lineFeed :: behind := by
      rw [opens,breaks,List.cons_append]
    have found := on.getElem? _ split
    rw [List.length_cons,← Nat.add_assoc,Nat.add_right_comm] at found
    exact ⟨_,found,by decide,fun _ => rfl⟩
  | @badEscape units _ behind e _ _ escapes =>
    have split : c.rest = (Byte.quote :: units) ++ Byte.backslash :: e :: behind := by
      rw [opens,escapes,List.cons_append]
    have found := on.getElem? _ split
    rw [List.length_cons,← Nat.add_assoc,Nat.add_right_comm] at found
    exact shows_of_seen found (by decide) (by decide)

theorem readBody_shows (on : c.On source) (left : c.rest = b :: rest) (seen : Byte.isBlank b = false)
    {fault : LexicalFault} {place : Span} (faulty : (readBody c.offset b rest).1 = .invalid fault place) :
    place.Shows source := by
  have first : source.text[c.offset]? = some b := on.getElem? [] left
  unfold readBody at faulty
  split at faulty
  · contradiction
  · contradiction
  split at faulty
  next quote =>
    by_cases closed : ∃ units meaning behind, Spells units meaning ∧ rest = units ++ Byte.quote :: behind
    · obtain ⟨units,meaning,behind,spells,rfl⟩ := closed
      rw [readString_closed spells] at faulty
      contradiction
    · obtain ⟨fault',place',invalid,spoils⟩ := readString_spoilt c.offset rest
        fun units meaning behind spells same => closed ⟨units,meaning,behind,spells,same⟩
      rw [invalid] at faulty
      cases faulty
      exact spoils.shows on (quote ▸ left)
  split at faulty
  next digit =>
    have plain : b ≠ 11 := by
      rintro rfl
      contradiction
    rw [readNumber] at faulty
    dsimp only at faulty
    split at faulty
    · contradiction
    · cases faulty
      exact shows_of_seen first seen plain
  split at faulty
  next =>
    rw [readWord] at faulty
    dsimp only at faulty
    split at faulty <;> contradiction
  next =>
    cases faulty
    refine ⟨b,first,?_,fun _ => rfl⟩
    rintro rfl
    contradiction

/-- What a token starts with, and where a faulty one is at fault. -/
structure Seen (source : Source) (t : Token) : Prop where
  shows : t.body ≠ .endOfScript → t.span.Shows source
  word : t.isWord = true → ∃ b, source.text[t.span.start]? = some b ∧ Byte.isBlank b = false ∧ b ≠ 11
  fault : ∀ fault place, t.body = .invalid fault place → place.Shows source

theorem read_seen (on : c.On source) : Seen source (read source c).1 := by
  have start := on.leads (skip_leads false c.offset c.rest)
  cases left : (skip false c.offset c.rest).rest with
  | nil =>
    simp only [read,left]
    exact ⟨fun other => absurd rfl other,by simp [Token.isWord],by simp⟩
  | cons b rest =>
    have seen := skip_stops left
    have first : source.text[(skip false c.offset c.rest).offset]? = some b :=
      start.getElem? [] left
    simp only [read,left]
    refine ⟨fun _ => ?_,fun word => ⟨b,first,seen,?_⟩,fun fault place faulty => ?_⟩
    · by_cases other : b = 11
      · subst other
        exact ⟨11,first,by decide,fun _ => rfl⟩
      · exact shows_of_seen first seen other
    · rintro rfl
      contradiction
    · exact readBody_shows start left seen faulty

theorem tokens_seen (source : Source) : ∀ t ∈ tokens source, Seen source t := by
  suffices each : ∀ c : Cursor, c.On source → ∀ t ∈ readAll source c, Seen source t from
    each _ ⟨rfl,Nat.zero_le _⟩
  intro c on
  fun_induction readAll source c with
  | case1 c token last => exact List.forall_mem_singleton.mpr (read_seen on)
  | case2 c token more ih =>
    exact List.forall_mem_cons.mpr ⟨read_seen on,ih (on.leads (read_stands on.stop).2.1)⟩

end Token

theorem Grammar.fair_shows {source : Source} {words : List Token}
    (tokens : ∀ t ∈ words, t ∈ Token.tokens source) (sound : Words words) :
    Fair (Span.Shows source) words := by
  rintro us taken nonempty
  obtain ⟨t,us,rfl⟩ := List.exists_cons_of_ne_nil nonempty
  have member := taken.subset List.mem_cons_self
  obtain ⟨b,first,seen,other⟩ := (Token.tokens_seen source t (tokens t member)).word (sound t member)
  exact Token.shows_of_seen first seen other

/-- A range that a script is refused for starts with a byte that is seen, unless it is empty. -/
theorem Source.compile_shows {source : Source} {d : Diagnostic} (refused : source.compile = .error d)
    (some : d.span.start < d.span.stop) : d.span.Shows source := by
  cases parsed : source.parse with
  | error e =>
    rw [compile_parseError parsed] at refused
    cases refused
    obtain ⟨t,member,⟨faulty,-⟩ | blames⟩ := source.parse_refused parsed
    · obtain ⟨fault,place,body,rfl⟩ := Token.diagnostic?_eq_some.mp faulty
      exact (Token.tokens_seen source t member).fault fault place body
    · rw [blames.span] at some ⊢
      refine (Token.tokens_seen source t member).shows fun ends => ?_
      obtain ⟨before,stands⟩ := Token.tokens_exact source t member
      rw [stands.last ends] at some
      exact Nat.lt_irrefl _ some
  | ok program =>
    rw [compile_parsed parsed] at refused
    obtain ⟨words,stop,split,sound,derives⟩ := source.parse_derives parsed
    have tokens (t : Token) (member : t ∈ words) : t ∈ Token.tokens source := by
      rw [split]
      exact List.mem_append_left _ member
    exact (source.tree_located (derives.ranged (fair_shows tokens sound)) refused).span

end ScriptMachine
