import Mathlib
import ScriptMachine.Proofs.Scanning

/-! Tokens when text is added. Behind a line feed the scanner knows of no token in the middle, but for a
string that a backslash carries over to the next line; so whole lines keep their tokens. -/
namespace ScriptMachine

/-- The text is made of complete lines. -/
def WholeLines (text : Bytes) : Prop :=
  ∀ b, text.getLast? = some b → b = Byte.lineFeed

instance (text : Bytes) : Decidable (WholeLines text) :=
  decidable_of_iff (∀ b ∈ text.getLast?, b = Byte.lineFeed) Iff.rfl

theorem WholeLines.suffix {front back : Bytes} (whole : WholeLines (front ++ back)) :
    WholeLines back := by
  intro b last
  refine whole b ?_
  rw [List.getLast?_append,last]
  rfl

theorem WholeLines.tail {b : UInt8} {rest : Bytes} (whole : WholeLines (b :: rest)) : WholeLines rest :=
  suffix (show WholeLines ([b] ++ rest) from whole)

theorem WholeLines.mem {text : Bytes} (whole : WholeLines text) (nonempty : text ≠ []) :
    Byte.lineFeed ∈ text := by
  have last := List.getLast?_eq_some_getLast nonempty
  exact whole _ last ▸ List.getLast_mem nonempty

namespace Token

/-- The same place when there is more text. -/
def Cursor.more (c : Cursor) (text : Bytes) : Cursor :=
  ⟨c.offset,c.rest ++ text⟩

/-- The reader of a token finds the same when there is more text. -/
def Keeps (more : Bytes) (result longer : Body × Cursor) : Prop :=
  longer = (result.1,result.2.more more)

variable (more : Bytes)

/-- Only a line feed ends the text, so the next byte is looked at in vain. -/
theorem head?_more {b : UInt8} {rest : Bytes} (whole : WholeLines (b :: rest))
    (other : b ≠ Byte.lineFeed) : (rest ++ more).head? = rest.head? := by
  cases rest with
  | nil => exact absurd (whole b rfl) other
  | cons => rfl

theorem skip_more {inComment : Bool} {offset : Nat} {text : Bytes} (whole : WholeLines text)
    (nonempty : (skip inComment offset text).rest ≠ []) :
    skip inComment offset (text ++ more) = (skip inComment offset text).more more := by
  induction text generalizing inComment offset with
  | nil => exact absurd rfl nonempty
  | cons b rest ih =>
    have later := whole.tail
    rw [skip] at nonempty ⊢
    rw [List.cons_append,skip]
    split
    next inside =>
      rw [if_pos inside] at nonempty
      exact ih later nonempty
    next outside =>
      rw [if_neg outside] at nonempty
      split
      next blank =>
        rw [if_pos blank] at nonempty
        exact ih later nonempty
      next word =>
        have other : b ≠ Byte.lineFeed := by
          rintro rfl
          exact word (by decide)
        rw [if_neg word] at nonempty
        rw [head?_more more whole other]
        split
        next starts =>
          rw [if_pos starts] at nonempty
          exact ih later nonempty
        next => rfl

theorem readString_more {start offset : Nat} {read text : Bytes}
    (ended : ∀ place, (readString start offset read text).1 ≠ .invalid .unterminatedString place) :
    Keeps more (readString start offset read text) (readString start offset read (text ++ more)) := by
  fun_induction readString start offset read text with
  | case1 => exact absurd rfl (ended _)
  | case2 =>
    rw [List.cons_append,readString.eq_def]
    rfl
  | case3 offset read rest notQuote =>
    rw [List.cons_append,readString.eq_def]
    rfl
  | case4 => exact absurd rfl (ended _)
  | case5 offset read e rest c known notQuote notFeed ih =>
    rw [List.cons_append,List.cons_append,readString,if_neg notQuote,if_neg notFeed,if_pos rfl]
    simp only [known]
    exact ih ended
  | case6 offset read e rest unknown notQuote notFeed =>
    rw [List.cons_append,List.cons_append,readString,if_neg notQuote,if_neg notFeed,if_pos rfl]
    simp only [unknown]
    rfl
  | case7 offset read b rest notQuote notFeed notEscape ih =>
    have step : readString start offset read (b :: (rest ++ more)) =
        readString start (offset + 1) (b :: read) (rest ++ more) := by
      rw [readString.eq_def]
      simp only [notQuote,notFeed,notEscape,if_false]
    rw [List.cons_append,step]
    exact ih ended

theorem takeWhile_more {p : UInt8 → Bool} {text : Bytes} (whole : WholeLines text)
    (nonempty : text ≠ []) (feed : p Byte.lineFeed = false) :
    (text ++ more).takeWhile p = text.takeWhile p ∧
      (text ++ more).dropWhile p = text.dropWhile p ++ more ∧ text.dropWhile p ≠ [] := by
  have stops : text.dropWhile p ≠ [] := by
    rw [Ne,List.dropWhile_eq_nil_iff]
    intro all
    rw [all _ (whole.mem nonempty)] at feed
    contradiction
  refine ⟨?_,?_,stops⟩
  · rw [List.takeWhile_append,if_neg]
    intro same
    have split := congrArg List.length (List.takeWhile_append_dropWhile (p := p) (l := text))
    rw [List.length_append,same] at split
    exact stops (List.eq_nil_of_length_eq_zero (by omega))
  · rw [List.dropWhile_append,if_neg (by simpa using stops)]

theorem fractionOf_more {text : Bytes} (whole : WholeLines text) (nonempty : text ≠ []) :
    fractionOf (text ++ more) = fractionOf text := by
  cases text with
  | nil => exact absurd rfl nonempty
  | cons b rest =>
    unfold fractionOf
    split
    next digits same =>
      obtain ⟨rfl,rfl⟩ := List.cons.inj same
      cases rest with
      | nil => exact absurd (whole _ rfl) (by decide)
      | cons e tail =>
        have later := whole.tail
        exact (takeWhile_more more later (by simp) (by decide)).1
    next other =>
      split
      next digits same => exact absurd (by rw [same]; rfl) (other _)
      next => rfl

theorem readNumber_more {start : Nat} {first : UInt8} {rest : Bytes} (whole : WholeLines rest)
    (nonempty : rest ≠ []) :
    Keeps more (readNumber start first rest) (readNumber start first (rest ++ more)) := by
  obtain ⟨taken,dropped,stops⟩ := takeWhile_more more (p := Byte.isDigit) whole nonempty (by decide)
  have behind : WholeLines (rest.dropWhile Byte.isDigit) := by
    rw [← List.takeWhile_append_dropWhile (p := Byte.isDigit) (l := rest)] at whole
    exact whole.suffix
  have fraction := fractionOf_more more behind stops
  have bound : (if (fractionOf (rest.dropWhile Byte.isDigit)).isEmpty then 0
      else (fractionOf (rest.dropWhile Byte.isDigit)).length + 1) ≤
        (rest.dropWhile Byte.isDigit).length := by
    split
    · exact Nat.zero_le _
    next some => exact length_fractionOf (Bool.eq_false_iff.mpr some)
  rw [Keeps,readNumber,readNumber,taken,dropped,fraction,List.drop_append_of_le_length bound]
  rfl

theorem readWord_more {start : Nat} {first : UInt8} {rest : Bytes} (whole : WholeLines rest)
    (nonempty : rest ≠ []) :
    Keeps more (readWord start first rest) (readWord start first (rest ++ more)) := by
  obtain ⟨taken,dropped,-⟩ := takeWhile_more more (p := Byte.isNamePart) whole nonempty (by decide)
  rw [Keeps,readWord,readWord,taken,dropped]
  rfl

theorem readBody_more {start : Nat} {b : UInt8} {rest : Bytes} (whole : WholeLines rest)
    (nonempty : rest ≠ [])
    (ended : ∀ place, (readBody start b rest).1 ≠ .invalid .unterminatedString place) :
    Keeps more (readBody start b rest) (readBody start b (rest ++ more)) := by
  have head : (rest ++ more).head? = rest.head? := by
    cases rest with
    | nil => exact absurd rfl nonempty
    | cons => rfl
  unfold readBody at ended ⊢
  rw [head]
  split
  · rfl
  · rw [Keeps,List.tail_append_of_ne_nil nonempty]
    rfl
  next unknown =>
    rw [unknown] at ended
    dsimp only at ended
    split
    next quote =>
      rw [if_pos quote] at ended
      exact readString_more more ended
    split
    · exact readNumber_more more whole nonempty
    split
    · exact readWord_more more whole nonempty
    · rfl

variable {text more}

/-- Reading with more text behind. -/
theorem read_more {c : Cursor} (place : c.stop = text.length) (whole : WholeLines c.rest)
    (last : (read (.ofText text) c).1.body ≠ .endOfScript)
    (ended : ∀ place, (read (.ofText text) c).1.body ≠ .invalid .unterminatedString place) :
    read (.ofText (text ++ more)) (c.more more) =
      ((read (.ofText text) c).1,(read (.ofText text) c).2.more more) := by
  have skipped := skip_leads false c.offset c.rest
  have inside : (skip false c.offset c.rest).offset ≤ text.length := place ▸ skipped.le.2
  cases rest : (skip false c.offset c.rest).rest with
  | nil =>
    simp only [read,rest] at last
    exact absurd rfl last
  | cons b behind =>
    simp only [read,rest] at ended
    have same := skip_more more whole (by rw [rest]; exact List.cons_ne_nil b behind)
    obtain ⟨used,split,-⟩ := skipped
    have later : WholeLines (b :: behind) := by
      rw [← rest]
      rw [split] at whole
      exact whole.suffix
    have starts : (skip false c.offset (c.rest ++ more)).rest = b :: (behind ++ more) := by
      rw [same,Cursor.more,rest,List.cons_append]
    have nonempty : behind ≠ [] := by
      rintro rfl
      have seen := skip_stops rest
      rw [later b rfl] at seen
      contradiction
    have body : Keeps more (readBody (skip false c.offset c.rest).offset b behind)
        (readBody (skip false c.offset c.rest).offset b (behind ++ more)) :=
      readBody_more more later.tail nonempty ended
    have takes := readBody_takes (skip false c.offset c.rest).offset b behind
    have taken : (readBody (skip false c.offset c.rest).offset b behind).2.offset -
        (skip false c.offset c.rest).offset ≤ (b :: behind).length :=
      Nat.sub_le_iff_le_add'.mpr takes.leads.le.2
    rw [Keeps] at body
    simp only [read,rest,Cursor.more,starts]
    simp only [same,Cursor.more,body]
    rw [Source.position_append text more inside,← List.cons_append,
      List.take_append_of_le_length taken]

/-- All tokens stay, up to the last one or one that is a string without an end. -/
theorem readAll_more {c : Cursor} (place : c.stop = text.length) (whole : WholeLines c.rest) :
    ∃ front stop behind tail, readAll (.ofText text) c = front ++ stop :: behind ∧
      readAll (.ofText (text ++ more)) (c.more more) = front ++ tail ∧ tail ≠ [] ∧
      (stop.body = .endOfScript ∧ behind = [] ∨
        ∃ place, stop.body = .invalid .unterminatedString place) := by
  fun_induction readAll (.ofText text) c with
  | case1 c token last =>
    refine ⟨[],token.1,[],_,rfl,rfl,?_,.inl ⟨last,rfl⟩⟩
    rw [readAll]
    split <;> simp
  | case2 c token other ih =>
    by_cases ended : ∃ place, token.1.body = .invalid .unterminatedString place
    · refine ⟨[],token.1,_,_,rfl,rfl,?_,.inr ended⟩
      rw [readAll]
      split <;> simp
    · have same : read (.ofText (text ++ more)) (c.more more) =
          ((read (.ofText text) c).1,(read (.ofText text) c).2.more more) :=
        read_more place whole other (by simpa using ended)
      have leads : c.Leads (read (.ofText text) c).2 := (read_stands place).2.1
      have later : WholeLines token.2.rest := by
        obtain ⟨used,split,-⟩ := leads
        rw [split] at whole
        exact whole.suffix
      obtain ⟨front,stop,behind,tail,short,long,rest,ends⟩ := ih (leads.stop_eq.trans place) later
      refine ⟨token.1 :: front,stop,behind,tail,by rw [short]; rfl,?_,rest,ends⟩
      rw [readAll,same]
      dsimp only
      rw [if_neg other,long]
      rfl

theorem tokens_more (whole : WholeLines text) (more : Bytes) :
    ∃ front stop behind tail, tokens (.ofText text) = front ++ stop :: behind ∧
      tokens (.ofText (text ++ more)) = front ++ tail ∧ tail ≠ [] ∧
      (stop.body = .endOfScript ∧ behind = [] ∨
        ∃ place, stop.body = .invalid .unterminatedString place) :=
  readAll_more (c := ⟨0,text⟩) (Nat.zero_add _) whole

end Token

end ScriptMachine
