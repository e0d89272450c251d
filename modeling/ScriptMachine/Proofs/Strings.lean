import Mathlib
import ScriptMachine.Proofs.Diagnosing

/-! String literals. Behind an opening quote a string is a row of units, each a plain byte or an escaped one,
up to the next quote; what is no such row is refused for what comes first in it. -/
namespace ScriptMachine

namespace Token

/-- What may follow a backslash, and what it then stands for. An escaped line feed stays. -/
def escapes : List (UInt8 × UInt8) :=
  [(Byte.backslash,Byte.backslash),(Byte.quote,Byte.quote),(110,Byte.lineFeed),
    (114,Byte.carriageReturn),(116,Byte.tab),(48,0),(Byte.lineFeed,Byte.lineFeed)]

/-- The units of a text, one after the other, and the bytes that they mean. -/
inductive Spells : Bytes → Bytes → Prop
  | nil : Spells [] []
  | plain {b : UInt8} {units meaning : Bytes} (notQuote : b ≠ Byte.quote)
      (notEscape : b ≠ Byte.backslash) (notFeed : b ≠ Byte.lineFeed) (more : Spells units meaning) :
      Spells (b :: units) (b :: meaning)
  | escaped {e c : UInt8} {units meaning : Bytes} (known : (e,c) ∈ escapes)
      (more : Spells units meaning) : Spells (Byte.backslash :: e :: units) (c :: meaning)

/-- What comes first in a text behind an opening quote at `start` that no unit can start with, other than a
closing quote. -/
inductive Spoils (start : Nat) (text : Bytes) : LexicalFault → Span → Prop
  | unterminated {units meaning : Bytes} (sound : Spells units meaning)
      (ends : text = units ∨ text = units ++ [Byte.backslash]) :
      Spoils start text .unterminatedString ⟨start,start + 1⟩
  | lineBreak {units meaning rest : Bytes} (sound : Spells units meaning)
      (breaks : text = units ++ Byte.lineFeed :: rest) : Spoils start text .lineBreakInString
        ⟨start + 1 + units.length,start + 1 + units.length + 1⟩
  | badEscape {units meaning rest : Bytes} {e : UInt8} (sound : Spells units meaning)
      (unknown : ∀ c, (e,c) ∉ escapes) (escapes : text = units ++ Byte.backslash :: e :: rest) :
      Spoils start text (.badEscape e)
        ⟨start + 1 + units.length,start + 1 + units.length + 2⟩

theorem unescape?_eq_some {e c : UInt8} : unescape? e = some c ↔ (e,c) ∈ escapes := by
  have each : ∀ n : Fin 256, unescape? (.ofNat n) = escapes.lookup (.ofNat n) := by decide +kernel
  have same := each ⟨e.toNat,e.toNat_lt⟩
  rw [UInt8.ofNat_toNat] at same
  rw [same]
  constructor
  · intro found
    obtain ⟨before,behind,split,-⟩ := List.lookup_eq_some_iff.mp found
    exact split ▸ List.mem_append_right _ List.mem_cons_self
  · intro member
    simp only [escapes,List.mem_cons,Prod.mk.injEq,List.not_mem_nil,or_false] at member
    rcases member with ⟨rfl,rfl⟩ | ⟨rfl,rfl⟩ | ⟨rfl,rfl⟩ | ⟨rfl,rfl⟩ | ⟨rfl,rfl⟩ | ⟨rfl,rfl⟩ | ⟨rfl,rfl⟩ <;>
      rfl

theorem unescape?_eq_none {e : UInt8} : unescape? e = none ↔ ∀ c, (e,c) ∉ escapes := by
  simp only [← unescape?_eq_some,Option.eq_none_iff_forall_ne_some,ne_eq]

/-- Every byte has a unit that means it. -/
theorem spells_any (meaning : Bytes) : ∃ units, Spells units meaning := by
  induction meaning with
  | nil => exact ⟨[],.nil⟩
  | cons b rest ih =>
    obtain ⟨units,more⟩ := ih
    by_cases special : b = Byte.quote ∨ b = Byte.backslash ∨ b = Byte.lineFeed
    · refine ⟨Byte.backslash :: b :: units,.escaped ?_ more⟩
      rcases special with rfl | rfl | rfl <;> decide
    · rw [not_or,not_or] at special
      exact ⟨b :: units,.plain special.1 special.2.1 special.2.2 more⟩

variable {start offset : Nat} {read text units meaning rest : Bytes}

/-- The reader takes unit after unit. -/
theorem Spells.readString (spells : Spells units meaning) (start offset : Nat) (read tail : Bytes) :
    readString start offset read (units ++ tail) =
      Token.readString start (offset + units.length) (meaning.reverse ++ read) tail := by
  induction spells generalizing offset read with
  | nil => rfl
  | @plain b units meaning notQuote notEscape notFeed more ih =>
    rw [List.cons_append,Token.readString.eq_def]
    simp only [notQuote,notEscape,notFeed,if_false]
    rw [ih,List.reverse_cons,List.append_assoc,List.length_cons,Nat.add_assoc,Nat.add_comm 1]
    rfl
  | @escaped e c units meaning known more ih =>
    rw [List.cons_append,List.cons_append,Token.readString,if_neg (by decide),if_neg (by decide),if_pos rfl]
    simp only [unescape?_eq_some.mpr known]
    rw [ih,List.reverse_cons,List.append_assoc,List.length_cons,List.length_cons,Nat.add_assoc,
      Nat.add_comm 2]
    rfl

/-- Up to where a text is a row of units, and what stops it there. -/
theorem spells_up_to (text : Bytes) : ∃ units meaning tail, text = units ++ tail ∧ Spells units meaning ∧
    (tail = [] ∨ tail = [Byte.backslash] ∨ (∃ rest, tail = Byte.quote :: rest) ∨
      (∃ rest, tail = Byte.lineFeed :: rest) ∨
      ∃ e rest, tail = Byte.backslash :: e :: rest ∧ ∀ c, (e,c) ∉ escapes) := by
  -- The reader goes through the text unit by unit, whatever it has read before.
  suffices each : ∀ start offset : Nat, ∀ read : Bytes, _ from each 0 0 []
  intro start offset read
  fun_induction Token.readString start offset read text with
  | case1 => exact ⟨[],[],[],rfl,.nil,.inl rfl⟩
  | case2 => exact ⟨[],[],_,rfl,.nil,.inr (.inr (.inl ⟨_,rfl⟩))⟩
  | case3 => exact ⟨[],[],_,rfl,.nil,.inr (.inr (.inr (.inl ⟨_,rfl⟩)))⟩
  | case4 => exact ⟨[],[],_,rfl,.nil,.inr (.inl rfl)⟩
  | case5 offset read e rest c known _ _ ih =>
    obtain ⟨units,meaning,tail,rfl,spells,stops⟩ := ih
    exact ⟨_ :: e :: units,c :: meaning,tail,rfl,.escaped (unescape?_eq_some.mp known) spells,stops⟩
  | case6 offset read e rest unknown =>
    exact ⟨[],[],_,rfl,.nil,.inr (.inr (.inr (.inr ⟨e,rest,rfl,unescape?_eq_none.mp unknown⟩)))⟩
  | case7 offset read b rest notQuote notFeed notEscape ih =>
    obtain ⟨units,meaning,tail,rfl,spells,stops⟩ := ih
    exact ⟨b :: units,b :: meaning,tail,rfl,.plain notQuote notEscape notFeed spells,stops⟩

/-- A row of units up to a quote is read to that quote. -/
theorem readString_closed (spells : Spells units meaning) :
    readString start offset [] (units ++ Byte.quote :: rest) =
      (.string meaning,⟨offset + units.length + 1,rest⟩) := by
  rw [spells.readString,readString.eq_def]
  simp only [if_true,List.append_nil,List.reverse_reverse]

/-- All else is refused for what comes first. -/
theorem readString_spoilt (start : Nat) (text : Bytes) (open_ : ∀ units meaning rest, Spells units meaning →
      text ≠ units ++ Byte.quote :: rest) :
    ∃ fault place, (readString start (start + 1) [] text).1 = .invalid fault place ∧
      Spoils start text fault place := by
  obtain ⟨units,meaning,tail,rfl,spells,stops⟩ := spells_up_to text
  rw [spells.readString]
  rcases stops with rfl | rfl | ⟨rest,rfl⟩ | ⟨rest,rfl⟩ | ⟨e,rest,rfl,unknown⟩
  · exact ⟨_,_,rfl,.unterminated spells (.inl (List.append_nil _))⟩
  · exact ⟨_,_,rfl,.unterminated spells (.inr rfl)⟩
  · exact absurd rfl (open_ units meaning rest spells)
  · refine ⟨_,_,?_,.lineBreak spells rfl⟩
    rw [Token.readString.eq_def]
    simp [show Byte.lineFeed ≠ Byte.quote from by decide]
  · refine ⟨_,_,?_,.badEscape spells unknown rfl⟩
    rw [Token.readString.eq_def]
    simp [unescape?_eq_none.mpr unknown,show Byte.backslash ≠ Byte.quote from by decide,
      show Byte.backslash ≠ Byte.lineFeed from by decide]

/-- The token at an opening quote. -/
theorem read_quote (source : Source) {c : Cursor}
    (opens : skip false c.offset c.rest = ⟨start,Byte.quote :: text⟩) :
    (Token.read source c).1.body = (readString start (start + 1) [] text).1 ∧
    (Token.read source c).1.span = ⟨start,(readString start (start + 1) [] text).2.offset⟩ ∧
    (Token.read source c).2 = (readString start (start + 1) [] text).2 := by
  have quote : ∀ next, symbolAt? Byte.quote next = none := fun next => rfl
  simp only [Token.read,opens,readBody,quote]
  exact ⟨rfl,rfl,rfl⟩

end Token

/-- Behind an opening quote there is a string if and only if a row of units follows up to a quote, which is
then its end, and the string is what the units mean; each string can be written so. All else is refused, and
the first fault that the scanner remembers is then the one that comes first in the text. -/
theorem Scanner.next_quote (s : Scanner) {start : Nat} {text : Bytes}
    (opens : Token.skip false s.cursor.offset s.cursor.rest = ⟨start,Byte.quote :: text⟩) :
    (∀ meaning, s.next.1.body = .string meaning ↔
      ∃ units rest, text = units ++ Byte.quote :: rest ∧ Token.Spells units meaning) ∧
    (∀ units meaning rest, text = units ++ Byte.quote :: rest → Token.Spells units meaning →
      s.next.1.span = ⟨start,start + 1 + units.length + 1⟩ ∧
      s.next.2.cursor = ⟨start + 1 + units.length + 1,rest⟩ ∧ s.next.2.fault = s.fault) ∧
    (∀ meaning, ∃ units, Token.Spells units meaning) ∧
    ((¬∃ units meaning rest, text = units ++ Byte.quote :: rest ∧ Token.Spells units meaning) →
      ∃ fault place, s.next.1.body = .invalid fault place ∧ Token.Spoils start text fault place ∧
        s.next.2.fault = s.fault.or (some (.locate s.source (.lexical fault) place))) := by
  obtain ⟨body,span,behind⟩ := Token.read_quote s.source opens
  have token := s.token_next
  have fault := s.fault_next
  refine ⟨fun meaning => ⟨fun string => ?_,?_⟩,?_,Token.spells_any,fun open_ => ?_⟩
  · rw [token,body] at string
    by_cases closed : ∃ units meaning rest, Token.Spells units meaning ∧ text = units ++ Byte.quote :: rest
    · obtain ⟨units,found,rest,spells,rfl⟩ := closed
      rw [Token.readString_closed spells] at string
      cases string
      exact ⟨units,rest,rfl,spells⟩
    · obtain ⟨broken,place,invalid,-⟩ := Token.readString_spoilt start text
        fun units meaning rest spells same => closed ⟨units,meaning,rest,spells,same⟩
      rw [invalid] at string
      contradiction
  · rintro ⟨units,rest,rfl,spells⟩
    rw [token,body,Token.readString_closed spells]
  · rintro units meaning rest rfl spells
    rw [Token.readString_closed spells] at body span behind
    rw [token,s.cursor_next,fault,span,behind,Token.diagnostic?,body]
    exact ⟨rfl,rfl,Option.or_none⟩
  · obtain ⟨broken,place,invalid,spoils⟩ := Token.readString_spoilt start text
      fun units meaning rest spells same => open_ ⟨units,meaning,rest,same,spells⟩
    refine ⟨broken,place,?_,spoils,?_⟩
    · rw [token,body,invalid]
    · rw [fault,Token.diagnostic?,body,invalid]

/-- Behind a comment: an escaped quote does not end the string. -/
theorem Scanner.next_quote_escaped :
    let s := Scanner.start (.ofText (ascii "#\n\"a\\\"b\\n\" + 1"))
    Token.skip false s.cursor.offset s.cursor.rest =
      ⟨2,Byte.quote :: (ascii "a\\\"b\\n" ++ Byte.quote :: ascii " + 1")⟩ ∧
    s.next.1.body = .string (ascii "a\"b\n") := by
  have opens : Token.skip false 0 (ascii "#\n\"a\\\"b\\n\" + 1") =
      ⟨2,Byte.quote :: (ascii "a\\\"b\\n" ++ Byte.quote :: ascii " + 1")⟩ := by decide +kernel
  have spells : Token.Spells (ascii "a\\\"b\\n") (ascii "a\"b\n") :=
    .plain (by decide) (by decide) (by decide) (.escaped (by decide) (.plain (by decide) (by decide)
      (by decide) (.escaped (by decide) .nil)))
  exact ⟨opens,((next_quote _ opens).1 _).mpr ⟨_,_,rfl,spells⟩⟩

end ScriptMachine
