import Mathlib
import ScriptMachine.Proofs.Diagnosing

/-! What the scanner makes of every byte of a text. Its tokens are stretches of the text one behind the
other, and between them there is nothing but blanks and comments; words and numbers are as long as they can
be, and the scanner comes to the end. -/
namespace ScriptMachine

namespace Token

/-- Blanks and comments, in front of the text behind them. A comment runs to just before the next line feed,
or to the end. -/
inductive Skippable : Bytes → Bytes → Prop
  | nothing {behind : Bytes} : Skippable [] behind
  | blank {b : UInt8} {rest behind : Bytes} (is : Byte.isBlank b = true) (more : Skippable rest behind) :
      Skippable (b :: rest) behind
  | comment {opening words rest behind : Bytes} (opens : opening = [35] ∨ opening = [47,47])
      (plain : Byte.lineFeed ∉ words) (ends : ∀ b ∈ (rest ++ behind).head?, b = Byte.lineFeed)
      (more : Skippable rest behind) : Skippable (opening ++ (words ++ rest)) behind

/-- A letter or an underscore, with letters, underscores and digits behind. -/
def IsName (word : Bytes) : Prop :=
  ∃ b rest, word = b :: rest ∧ Byte.isNameStart b = true ∧ ∀ c ∈ rest, Byte.isNamePart c = true

/-- At least one digit, and perhaps a point with at least one digit behind. -/
def IsNumber (word : Bytes) : Prop :=
  ∃ whole, whole ≠ [] ∧ (∀ b ∈ whole, Byte.isDigit b = true) ∧
    (word = whole ∨ ∃ fraction, fraction ≠ [] ∧ (∀ b ∈ fraction, Byte.isDigit b = true) ∧
      word = whole ++ 46 :: fraction)

/-- A token of a script, when what lies before `before` has been read. -/
structure Exact (source : Source) (before : Nat) (t : Token) : Prop where
  after : before ≤ t.span.start
  ordered : t.span.start ≤ t.span.stop
  inside : t.span.stop ≤ source.size
  full : t.body ≠ .endOfScript → t.span.start < t.span.stop
  last : t.body = .endOfScript → t.span = ⟨source.size,source.size⟩
  skipped : Skippable (source.slice before t.span.start) (source.text.drop t.span.start)
  lexeme : t.lexeme = source.slice t.span.start t.span.stop
  position : t.position = ⟨(source.text.take t.span.start).count Byte.lineFeed + 1,
    (lastLine (source.text.take t.span.start)).length + 1⟩
  number : ∀ value, t.body = .number value → IsNumber t.lexeme ∧
    ∀ stop, t.span.stop < stop → stop ≤ source.size → ¬IsNumber (source.slice t.span.start stop)
  name : ∀ spelling, t.body = .name spelling → IsName t.lexeme ∧ spelling = t.lexeme
  word : IsName t.lexeme →
    (∀ stop, t.span.stop < stop → stop ≤ source.size → ¬IsName (source.slice t.span.start stop)) ∧
    (∀ symbol, t.body = .symbol symbol ↔ (t.lexeme,symbol) ∈ reservedWords) ∧
    (t.body = .name t.lexeme ↔ t.lexeme ∉ reservedWords.map Prod.fst)

/-! What is skipped. -/

theorem skip_skippable (inComment : Bool) (offset : Nat) (text : Bytes) :
    ∃ gap, text = gap ++ (skip inComment offset text).rest ∧
      (skip inComment offset text).offset = offset + gap.length ∧
      (inComment = false → Skippable gap (skip inComment offset text).rest) ∧
      (inComment = true → ∃ words more, gap = words ++ more ∧ Byte.lineFeed ∉ words ∧
        (∀ b ∈ (more ++ (skip inComment offset text).rest).head?, b = Byte.lineFeed) ∧
        Skippable more (skip inComment offset text).rest) := by
  induction text generalizing inComment offset with
  | nil => exact ⟨[],rfl,rfl,fun _ => .nothing,fun _ => ⟨[],[],rfl,by simp,by simp [skip],.nothing⟩⟩
  | cons b rest ih =>
    rw [skip]
    have place (gap : Bytes) : offset + 1 + gap.length = offset + (b :: gap).length := by
      rw [List.length_cons]
      omega
    split
    next inside =>
      obtain ⟨gap,split,stop,blanks,comments⟩ := ih (b ≠ Byte.lineFeed) (offset + 1)
      refine ⟨b :: gap,by rw [List.cons_append,← split],stop.trans (place gap),
        fun outside => absurd inside (by simp [outside]),fun _ => ?_⟩
      by_cases ends : b = Byte.lineFeed
      · refine ⟨[],b :: gap,rfl,by simp,by simp [ends],.blank (by rw [ends]; rfl) (blanks ?_)⟩
        simp [ends]
      · obtain ⟨words,more,rfl,plain,breaks,skippable⟩ := comments (by simpa using ends)
        exact ⟨b :: words,more,rfl,by simp [plain,Ne.symm ends],breaks,skippable⟩
    next outside =>
    have never : ∀ {p : Prop}, inComment = true → p := fun inside => absurd inside outside
    split
    next blank =>
      obtain ⟨gap,split,stop,blanks,-⟩ := ih false (offset + 1)
      exact ⟨b :: gap,by rw [List.cons_append,← split],stop.trans (place gap),
        fun _ => .blank blank (blanks rfl),never⟩
    split
    next opens =>
      obtain ⟨gap,split,stop,-,comments⟩ := ih true (offset + 1)
      obtain ⟨words,more,rfl,plain,breaks,skippable⟩ := comments rfl
      refine ⟨b :: (words ++ more),by rw [List.cons_append,← split],stop.trans (place _),fun _ => ?_,never⟩
      rcases opens with rfl | ⟨rfl,next⟩
      · exact .comment (.inl rfl) plain breaks skippable
      · -- the second slash is the first of the bytes that were read as a comment
        rw [split] at next
        cases words with
        | nil => exact absurd (breaks _ next) (by decide)
        | cons c words =>
          obtain rfl : c = 47 := Option.some_inj.mp next
          exact .comment (.inr rfl) (fun member => plain (List.mem_cons_of_mem _ member)) breaks skippable
    next => exact ⟨[],rfl,rfl,fun _ => .nothing,never⟩

/-! Words and numbers. -/

theorem lookup_reservedWords {word : Bytes} {symbol : Symbol} :
    reservedWords.lookup word = some symbol ↔ (word,symbol) ∈ reservedWords := by
  constructor
  · intro found
    obtain ⟨before,behind,split,-⟩ := List.lookup_eq_some_iff.mp found
    exact split ▸ List.mem_append_right _ List.mem_cons_self
  · intro member
    have each : ∀ pair ∈ reservedWords, reservedWords.lookup pair.1 = some pair.2 := by decide +kernel
    exact each _ member

theorem lookup_reservedWords_none {word : Bytes} :
    reservedWords.lookup word = none ↔ word ∉ reservedWords.map Prod.fst := by
  rw [Option.eq_none_iff_forall_ne_some,List.mem_map]
  constructor
  · rintro none ⟨⟨word,symbol⟩,member,rfl⟩
    exact none symbol (lookup_reservedWords.mpr member)
  · intro missing symbol found
    exact missing ⟨_,lookup_reservedWords.mp found,rfl⟩

/-- Digits up to a byte that is none. -/
theorem digits_unique {as bs xs ys : Bytes} {x y : UInt8} (first : ∀ b ∈ as, Byte.isDigit b = true)
    (second : ∀ b ∈ bs, Byte.isDigit b = true) (stopX : Byte.isDigit x = false)
    (stopY : Byte.isDigit y = false) (same : as ++ x :: xs = bs ++ y :: ys) :
    as = bs ∧ x = y ∧ xs = ys := by
  have left : (as ++ x :: xs).takeWhile Byte.isDigit = as := by
    rw [List.takeWhile_append_of_pos first,List.takeWhile_cons_of_neg (by simp [stopX]),List.append_nil]
  have right : (bs ++ y :: ys).takeWhile Byte.isDigit = bs := by
    rw [List.takeWhile_append_of_pos second,List.takeWhile_cons_of_neg (by simp [stopY]),List.append_nil]
  obtain rfl : as = bs := by rw [← left,same,right]
  exact ⟨rfl,List.cons.inj (List.append_cancel_left same)⟩

/-- No word or number starts like a symbol. -/
theorem symbolAt?_plain {b : UInt8} {next : Option UInt8} {found : Symbol × Bool}
    (known : symbolAt? b next = some found) : Byte.isNameStart b = false := by
  have each : ∀ n : Fin 256, Byte.isNameStart (.ofNat n) = true →
      symbolAt? (.ofNat n) none = none ∧ symbolAt? (.ofNat n) (some 61) = none := by decide +kernel
  have same := each ⟨b.toNat,b.toNat_lt⟩
  rw [UInt8.ofNat_toNat] at same
  by_contra begins
  obtain ⟨plain,long⟩ := same (by simpa using begins)
  by_cases equals : next = some 61
  · rw [equals,long] at known
    contradiction
  · have other : symbolAt? b next = symbolAt? b none := by
      simp only [symbolAt?,if_neg equals,reduceCtorEq,if_false]
    rw [other,plain] at known
    contradiction

theorem isNameStart_of_isDigit {b : UInt8} (digit : Byte.isDigit b = true) :
    Byte.isNameStart b = false := by
  have each : ∀ n : Fin 256, Byte.isDigit (.ofNat n) = true → Byte.isNameStart (.ofNat n) = false := by
    decide +kernel
  have same := each ⟨b.toNat,b.toNat_lt⟩
  rw [UInt8.ofNat_toNat] at same
  exact same digit

theorem not_isName {b : UInt8} {rest : Bytes} (other : Byte.isNameStart b = false) :
    ¬IsName (b :: rest) := by
  rintro ⟨c,more,same,first,-⟩
  obtain ⟨rfl,-⟩ := List.cons.inj same
  rw [other] at first
  contradiction

theorem readString_body (start offset : Nat) (read text : Bytes) :
    (∃ meaning, (readString start offset read text).1 = .string meaning) ∨
      ∃ fault place, (readString start offset read text).1 = .invalid fault place := by
  fun_induction readString start offset read text with
  | case1 | case3 | case4 | case6 => exact .inr ⟨_,_,rfl⟩
  | case2 => exact .inl ⟨_,rfl⟩
  | case5 _ _ _ _ _ _ _ _ ih => exact ih
  | case7 _ _ _ _ _ _ _ ih => exact ih

/-- What has been made of a stretch of text, in front of what is left. -/
structure Classes (word : Bytes) (body : Body) (behind : Bytes) : Prop where
  number : ∀ value, body = .number value → IsNumber word ∧
    ∀ e more, behind = e :: more → ∀ n, ¬IsNumber (word ++ e :: more.take n)
  name : ∀ spelling, body = .name spelling → IsName word ∧ spelling = word
  word : IsName word → (∀ e more, behind = e :: more → ∀ n, ¬IsName (word ++ e :: more.take n)) ∧
    (∀ symbol, body = .symbol symbol ↔ (word,symbol) ∈ reservedWords) ∧
    (body = .name word ↔ word ∉ reservedWords.map Prod.fst)

/-- Neither a word nor a number. -/
theorem Classes.other {word behind : Bytes} {body : Body} (number : ∀ value, body ≠ .number value)
    (name : ∀ spelling, body ≠ .name spelling) (plain : ¬IsName word) : Classes word body behind :=
  ⟨fun value is => absurd is (number value),fun spelling is => absurd is (name spelling),
    fun is => absurd is plain⟩

theorem dropWhile_stops {p : UInt8 → Bool} {text more : Bytes} {e : UInt8}
    (left : text.dropWhile p = e :: more) : p e = false := by
  have stop := List.head?_dropWhile_not p text
  rw [left] at stop
  simpa using stop

theorem readWord_classes (start : Nat) {first : UInt8} {rest : Bytes}
    (begins : Byte.isNameStart first = true) :
    Classes (first :: rest.takeWhile Byte.isNamePart) (readWord start first rest).1
      (rest.dropWhile Byte.isNamePart) := by
  have isName : IsName (first :: rest.takeWhile Byte.isNamePart) :=
    ⟨first,_,rfl,begins,fun c member => List.mem_takeWhile_imp member⟩
  rw [readWord]
  refine ⟨fun value is => ?_,fun spelling is => ⟨isName,?_⟩,fun _ => ⟨fun e more left n longer => ?_,
    fun symbol => ?_,?_⟩⟩
  · dsimp only at is
    split at is <;> contradiction
  · dsimp only at is
    split at is
    · contradiction
    · exact (Body.name.inj is).symm
  · obtain ⟨b,tail,same,-,parts⟩ := longer
    obtain ⟨rfl,rfl⟩ := List.cons.inj same
    have part := parts e (List.mem_append_right _ List.mem_cons_self)
    rw [dropWhile_stops left] at part
    contradiction
  · rw [← lookup_reservedWords]
    dsimp only
    split
    next found => rw [found]; simp
    next none => rw [none]; simp
  · rw [← lookup_reservedWords_none]
    dsimp only
    split
    next found => rw [found]; simp
    next none => rw [none]; simp

variable {digits fraction more : Bytes} {e : UInt8}

/-- Behind whole digits a number goes on with a digit, or with a point and a digit. -/
theorem not_isNumber_whole (whole : ∀ b ∈ digits, Byte.isDigit b = true) (stop : Byte.isDigit e = false)
    (point : e = 46 → more.takeWhile Byte.isDigit = []) (n : Nat) :
    ¬IsNumber (digits ++ e :: more.take n) := by
  rintro ⟨others,-,wholes,all | ⟨fraction,some,fractions,all⟩⟩
  · have digit := wholes e (by rw [← all]; simp)
    rw [stop] at digit
    contradiction
  · obtain ⟨-,rfl,same⟩ := digits_unique whole wholes stop (by decide) all
    obtain ⟨c,tail,rfl⟩ := List.exists_cons_of_ne_nil some
    obtain ⟨behind,rfl⟩ : ∃ behind, more = c :: behind := by
      have split := List.take_append_drop n more
      rw [same] at split
      exact ⟨_,split.symm⟩
    have none := point rfl
    rw [List.takeWhile_cons_of_pos (fractions c List.mem_cons_self)] at none
    contradiction

/-- Behind a fraction a number goes on with a digit. -/
theorem not_isNumber_fraction (whole : ∀ b ∈ digits, Byte.isDigit b = true)
    (stop : Byte.isDigit e = false) (n : Nat) :
    ¬IsNumber ((digits ++ 46 :: fraction) ++ e :: more.take n) := by
  rintro ⟨others,-,wholes,all | ⟨longer,-,fractions,all⟩⟩
  · have digit := wholes 46 (by rw [← all]; simp)
    contradiction
  · rw [List.append_assoc,List.cons_append] at all
    obtain ⟨-,-,same⟩ := digits_unique whole wholes (by decide) (by decide) all
    have digit := fractions e (by rw [← same]; simp)
    rw [stop] at digit
    contradiction

theorem fractionOf_cons {rest : Bytes} {d : UInt8} (found : fractionOf rest = d :: fraction) :
    ∃ more, rest = 46 :: more ∧ more.takeWhile Byte.isDigit = d :: fraction := by
  rw [fractionOf.eq_def] at found
  split at found
  next more => exact ⟨more,rfl,found⟩
  next => contradiction

theorem readNumber_body (start : Nat) (first : UInt8) (rest : Bytes) :
    (∃ value, (readNumber start first rest).1 = .number value) ∨
      ∃ fault place, (readNumber start first rest).1 = .invalid fault place := by
  rw [readNumber]
  dsimp only
  split
  · exact .inl ⟨_,rfl⟩
  · exact .inr ⟨_,_,rfl⟩

/-- A number is as long as it can be. -/
theorem readNumber_number (start : Nat) {first : UInt8} (rest : Bytes)
    (digit : Byte.isDigit first = true) : ∃ word,
    first :: rest = word ++ (readNumber start first rest).2.rest ∧ IsNumber word ∧
      ∀ e more, (readNumber start first rest).2.rest = e :: more →
        ∀ n, ¬IsNumber (word ++ e :: more.take n) := by
  have whole : ∀ c ∈ first :: rest.takeWhile Byte.isDigit, Byte.isDigit c = true :=
    List.forall_mem_cons.mpr ⟨digit,fun c member => List.mem_takeWhile_imp member⟩
  have split : first :: rest =
      (first :: rest.takeWhile Byte.isDigit) ++ rest.dropWhile Byte.isDigit := by
    rw [List.cons_append,List.takeWhile_append_dropWhile]
  cases found : fractionOf (rest.dropWhile Byte.isDigit) with
  | nil =>
    have left : (readNumber start first rest).2.rest = rest.dropWhile Byte.isDigit := by
      simp [readNumber,found]
    refine ⟨_,left ▸ split,⟨_,by simp,whole,.inl rfl⟩,fun e more same n => ?_⟩
    rw [left] at same
    refine not_isNumber_whole whole (dropWhile_stops same) ?_ n
    rintro rfl
    rw [same] at found
    exact found
  | cons d fraction =>
    obtain ⟨behind,point,digits⟩ := fractionOf_cons found
    have length : (behind.takeWhile Byte.isDigit).length = fraction.length + 1 := by
      rw [digits,List.length_cons]
    have left : (readNumber start first rest).2.rest = behind.dropWhile Byte.isDigit := by
      have drop : List.drop (behind.takeWhile Byte.isDigit).length
          (behind.takeWhile Byte.isDigit ++ behind.dropWhile Byte.isDigit) =
          behind.dropWhile Byte.isDigit :=
        List.drop_left
      rw [List.takeWhile_append_dropWhile,length] at drop
      rw [readNumber]
      simp only [found,List.isEmpty_cons,Bool.false_eq_true,if_false,List.length_cons]
      rw [point,List.drop_succ_cons,drop]
    have fractions : ∀ c ∈ d :: fraction, Byte.isDigit c = true := by
      rw [← digits]
      exact fun c member => List.mem_takeWhile_imp member
    refine ⟨(first :: rest.takeWhile Byte.isDigit) ++ 46 :: d :: fraction,?_,
      ⟨_,by simp,whole,.inr ⟨_,by simp,fractions,rfl⟩⟩,fun e more same n => ?_⟩
    · rw [left,List.append_assoc,← digits,split,point]
      simp only [List.cons_append,List.takeWhile_append_dropWhile]
    · rw [left] at same
      exact not_isNumber_fraction whole (dropWhile_stops same) n

theorem readNumber_classes (start : Nat) {first : UInt8} (rest : Bytes)
    (digit : Byte.isDigit first = true) : ∃ word,
    first :: rest = word ++ (readNumber start first rest).2.rest ∧
      Classes word (readNumber start first rest).1 (readNumber start first rest).2.rest := by
  obtain ⟨word,split,number,longest⟩ := readNumber_number start rest digit
  refine ⟨word,split,fun _ _ => ⟨number,longest⟩,fun spelling is => ?_,fun is => absurd is ?_⟩
  · rcases readNumber_body start first rest with ⟨_,kind⟩ | ⟨_,_,kind⟩ <;> rw [kind] at is <;> contradiction
  · obtain ⟨b,tail,rfl,begins,-⟩ := is
    obtain ⟨rfl,-⟩ := List.cons.inj split
    rw [isNameStart_of_isDigit digit] at begins
    contradiction

/-- A token has at least its first byte. -/
theorem readBody_classes (start : Nat) (b : UInt8) (rest : Bytes) : ∃ word,
    b :: rest = b :: word ++ (readBody start b rest).2.rest ∧
      (readBody start b rest).2.offset = start + (word.length + 1) ∧
      (readBody start b rest).1 ≠ .endOfScript ∧
      Classes (b :: word) (readBody start b rest).1 (readBody start b rest).2.rest := by
  obtain ⟨used,split,stop⟩ := (readBody_takes start b rest).leads
  have short := length_readBody_le start b rest
  dsimp only at split stop
  obtain ⟨word,rfl⟩ : ∃ word, used = b :: word := by
    cases used with
    | nil =>
      rw [List.nil_append] at split
      rw [← split,List.length_cons] at short
      omega
    | cons c word => exact ⟨word,by rw [(List.cons.inj split).1]⟩
  refine ⟨word,split,stop,?_⟩
  have same {word' : Bytes} (taken : b :: rest = word' ++ (readBody start b rest).2.rest) :
      word' = b :: word :=
    List.append_cancel_right (taken.symm.trans split)
  unfold readBody at same ⊢
  split
  next symbol known =>
    exact ⟨by simp,.other (by simp) (by simp) (not_isName (symbolAt?_plain known))⟩
  next symbol known =>
    exact ⟨by simp,.other (by simp) (by simp) (not_isName (symbolAt?_plain known))⟩
  next none =>
  simp only [none] at same
  split
  next quote =>
    have plain : ¬IsName (b :: word) := not_isName (by rw [quote]; decide)
    rcases readString_body start (start + 1) [] rest with ⟨meaning,body⟩ | ⟨fault,place,body⟩
    · rw [body]
      exact ⟨by simp,.other (by simp) (by simp) plain⟩
    · rw [body]
      exact ⟨by simp,.other (by simp) (by simp) plain⟩
  next noQuote =>
  rw [if_neg noQuote] at same
  split
  next digit =>
    rw [if_pos digit] at same
    obtain ⟨word',taken,classes⟩ := readNumber_classes start rest digit
    refine ⟨?_,same taken ▸ classes⟩
    rcases readNumber_body start b rest with ⟨value,body⟩ | ⟨fault,place,body⟩ <;> rw [body] <;> simp
  next noDigit =>
  rw [if_neg noDigit] at same
  split
  next begins =>
    rw [if_pos begins] at same
    have taken : b :: rest = (b :: rest.takeWhile Byte.isNamePart) ++ (readWord start b rest).2.rest := by
      rw [readWord,List.cons_append,List.takeWhile_append_dropWhile]
    refine ⟨?_,same taken ▸ readWord_classes start begins⟩
    rw [readWord]
    dsimp only
    split <;> simp
  next other => exact ⟨by simp,.other (by simp) (by simp) (not_isName (by simpa using other))⟩

/-! Reading on in the text of a script. -/

/-- The place is one in this script. -/
structure Cursor.On (source : Source) (c : Cursor) : Prop where
  rest : c.rest = source.text.drop c.offset
  inside : c.offset ≤ source.size

variable {source : Source} {c d : Cursor}

theorem Cursor.On.stop (on : c.On source) : c.stop = source.size := by
  have inside := on.inside
  rw [Cursor.stop,on.rest,List.length_drop,← source.size_eq]
  omega

theorem Cursor.On.leads (on : c.On source) (leads : c.Leads d) : d.On source := by
  refine ⟨?_,leads.le.2.trans_eq on.stop⟩
  obtain ⟨used,rest,offset⟩ := leads
  rw [offset,← List.drop_drop,← on.rest,rest,List.drop_left]

/-- What lies between two places. -/
theorem Cursor.On.slice (on : c.On source) {used behind : Bytes} (split : c.rest = used ++ behind) :
    source.slice c.offset (c.offset + used.length) = used := by
  rw [Source.slice,← on.rest,split,Nat.add_sub_cancel_left,List.take_left]

/-- Further than to the end of a word there is more than the word. -/
theorem Cursor.On.slice_longer (on : c.On source) {used behind : Bytes} (split : c.rest = used ++ behind)
    (stop : Nat) (beyond : c.offset + used.length < stop) (inside : stop ≤ source.size) :
    ∃ e more n, behind = e :: more ∧ source.slice c.offset stop = used ++ e :: more.take n := by
  have whole := on.stop
  rw [Cursor.stop,split,List.length_append] at whole
  cases behind with
  | nil =>
    rw [List.length_nil] at whole
    omega
  | cons e more =>
    refine ⟨e,more,stop - (c.offset + used.length) - 1,rfl,?_⟩
    have length : stop - c.offset = used.length + (stop - (c.offset + used.length) - 1 + 1) := by omega
    rw [Source.slice,← on.rest,split,length,List.take_length_add_append,List.take_succ_cons]

theorem read_exact (on : c.On source) : Exact source c.offset (read source c).1 := by
  obtain ⟨stands,leads,after,stop⟩ := read_stands (c := c) on.stop
  obtain ⟨gap,split,offset,skippable,-⟩ := skip_skippable false c.offset c.rest
  have start := on.leads (skip_leads false c.offset c.rest)
  have skipped := skippable rfl
  have space := on.slice split
  rw [← offset] at space
  have position := stands.position
  rw [Source.position_eq (stands.ordered.trans stands.inside)] at position
  rw [← space,start.rest] at skipped
  cases left : (skip false c.offset c.rest).rest with
  | nil =>
    have size := start.stop
    rw [Cursor.stop,left,List.length_nil,Nat.add_zero] at size
    simp only [read,left] at stands after position ⊢
    refine ⟨after,stands.ordered,stands.inside,fun other => absurd rfl other,fun _ => by rw [size],
      skipped,?_,position,by simp,by simp,?_⟩
    · rw [Source.slice,Nat.sub_self,List.take_zero]
    · rintro ⟨b,rest,empty,-⟩
      contradiction
  | cons b rest =>
    obtain ⟨word,text,offset,inner,classes⟩ := readBody_classes (skip false c.offset c.rest).offset b rest
    rw [← left] at text
    have lexeme := start.slice text
    have longer (end_ : Nat) := start.slice_longer text end_
    rw [List.length_cons,← offset] at lexeme longer
    simp only [read,left] at stands after position ⊢
    have same : List.take ((readBody (skip false c.offset c.rest).offset b rest).2.offset -
        (skip false c.offset c.rest).offset) (b :: rest) = b :: word := by
      rw [← left,start.rest]
      exact lexeme
    have full : (skip false c.offset c.rest).offset <
        (readBody (skip false c.offset c.rest).offset b rest).2.offset := by
      rw [offset]
      omega
    rw [same]
    refine ⟨after,stands.ordered,stands.inside,fun _ => full,fun ends => absurd ends inner,skipped,
      lexeme.symm,position,fun value is => ?_,classes.name,fun is => ?_⟩
    · obtain ⟨number,longest⟩ := classes.number value is
      refine ⟨number,fun end_ beyond inside => ?_⟩
      obtain ⟨e,more,n,behind,slice⟩ := longer end_ beyond inside
      rw [slice]
      exact longest e more behind n
    · obtain ⟨longest,reserved,name⟩ := classes.word is
      refine ⟨fun end_ beyond inside => ?_,reserved,name⟩
      obtain ⟨e,more,n,behind,slice⟩ := longer end_ beyond inside
      rw [slice]
      exact longest e more behind n

/-- The reader gives the end of the script when nothing is left but blanks and comments. -/
theorem read_end (body : (read source c).1.body = .endOfScript) : (read source c).2.rest = [] := by
  cases left : (skip false c.offset c.rest).rest with
  | nil =>
    simp only [read,left]
  | cons b rest =>
    obtain ⟨-,-,-,inner,-⟩ := readBody_classes (skip false c.offset c.rest).offset b rest
    simp only [read,left] at body
    exact absurd body inner

theorem read_nil (rest : c.rest = []) : (read source c).1.body = .endOfScript := by
  simp only [read,rest,skip]

theorem readAll_exact (on : c.On source) : ∀ t ∈ readAll source c, ∃ before, Exact source before t := by
  fun_induction readAll source c with
  | case1 c token last => exact List.forall_mem_singleton.mpr ⟨_,read_exact on⟩
  | case2 c token more ih =>
    have leads := (read_stands on.stop).2.1
    exact List.forall_mem_cons.mpr ⟨⟨_,read_exact on⟩,ih (on.leads leads)⟩

theorem tokens_exact (source : Source) : ∀ t ∈ tokens source, ∃ before, Exact source before t :=
  readAll_exact ⟨rfl,Nat.zero_le _⟩

end Token

namespace Scanner

/-- The scanner of a script after so many calls. -/
def after (source : Source) (n : Nat) : Scanner :=
  (fun s : Scanner => s.next.2)^[n] (start source)

/-- What a call gives; they are counted from zero. -/
def call (source : Source) (n : Nat) : Token :=
  (after source n).next.1

/-- How far the calls before have come. -/
def reached (source : Source) : Nat → Nat
  | 0 => 0
  | n + 1 => (call source n).span.stop

variable {source : Source}

theorem after_spec (source : Source) (n : Nat) : (after source n).source = source ∧
    (after source n).cursor.On source ∧ (after source n).cursor.offset = reached source n := by
  induction n with
  | zero => exact ⟨rfl,⟨rfl,Nat.zero_le _⟩,rfl⟩
  | succ n ih =>
    obtain ⟨same,on,-⟩ := ih
    obtain ⟨-,leads,-,stop⟩ := Token.read_stands on.stop
    rw [reached,call,token_next,same,stop,after,Function.iterate_succ_apply',← after,cursor_next,
      source_next,same]
    exact ⟨rfl,on.leads leads,rfl⟩

theorem call_eq (source : Source) (n : Nat) :
    call source n = (Token.read source (after source n).cursor).1 := by
  rw [call,token_next,(after_spec source n).1]

theorem after_cursor (source : Source) (n : Nat) :
    (after source (n + 1)).cursor = (Token.read source (after source n).cursor).2 := by
  rw [after,Function.iterate_succ_apply',← after,cursor_next,(after_spec source n).1]

theorem call_exact (source : Source) (n : Nat) :
    Token.Exact source (reached source n) (call source n) := by
  obtain ⟨-,on,offset⟩ := after_spec source n
  rw [call_eq,← offset]
  exact Token.read_exact on

/-- Once at the end, the scanner stays there. -/
theorem call_end_mono {i j : Nat} (less : i ≤ j) (ends : (call source i).body = .endOfScript) :
    (call source j).body = .endOfScript := by
  induction less with
  | refl => exact ends
  | step _ ih =>
    rw [call_eq] at ih ⊢
    rw [Nat.succ_eq_add_one,after_cursor]
    exact Token.read_nil (Token.read_end ih)

/-- Each call before the end takes some of the text. -/
theorem length_after (source : Source) {n : Nat} (inner : ∀ i < n, (call source i).body ≠ .endOfScript) :
    (after source n).cursor.rest.length + n ≤ source.size := by
  induction n with
  | zero => exact source.size_eq.ge
  | succ n ih =>
    have here := inner n (Nat.lt_succ_self n)
    rw [call_eq] at here
    have less := Token.length_read_lt _ _ here
    have before := ih fun i less => inner i (Nat.lt_succ_of_lt less)
    rw [after_cursor]
    omega

theorem exists_call_end (source : Source) :
    ∃ n ≤ source.size, (call source n).body = .endOfScript := by
  by_contra never
  rw [not_exists] at never
  have length := length_after source (n := source.size + 1) fun i less ends =>
    never i ⟨Nat.le_of_lt_succ less,ends⟩
  omega

theorem reached_mono (source : Source) : Monotone (reached source) :=
  monotone_nat_of_le_succ fun n => (call_exact source n).after.trans (call_exact source n).ordered

/-- The scanner comes to the end of a script with at most one call more than the script has bytes, and then
stays there. Its tokens stand one behind the other, each as the text has it; and each byte belongs to a token
or to the blanks and comments in front of one. -/
theorem loses_nothing (source : Source) : ∃ count ≤ source.size,
    (∀ n, (call source n).body = .endOfScript ↔ count ≤ n) ∧
    (∀ i j, i < j → (call source i).span.stop ≤ (call source j).span.start) ∧
    (∀ offset < source.size, ∃ n ≤ count,
      reached source n ≤ offset ∧ offset < (call source n).span.stop) ∧
    ∀ n, Token.Exact source (reached source n) (call source n) := by
  obtain ⟨bound,inside,stops⟩ := exists_call_end source
  have some : ∃ n, (call source n).body = .endOfScript := ⟨bound,stops⟩
  have ends := Nat.find_spec some
  refine ⟨Nat.find some,(Nat.find_min' some stops).trans inside,fun n => ?_,fun i j less => ?_,
    fun offset less => ?_,call_exact source⟩
  · exact ⟨fun ended => Nat.find_min' some ended,fun later => call_end_mono later ends⟩
  · exact (reached_mono source (Nat.succ_le_of_lt less)).trans (call_exact source j).after
  · have whole : offset < (call source (Nat.find some)).span.stop := by
      rw [(call_exact source _).last ends]
      exact less
    have covered : ∃ n, offset < (call source n).span.stop := ⟨_,whole⟩
    refine ⟨Nat.find covered,Nat.find_min' covered whole,?_,Nat.find_spec covered⟩
    cases first : Nat.find covered with
    | zero => exact Nat.zero_le _
    | succ n => exact Nat.le_of_not_lt (Nat.find_min covered (first ▸ Nat.lt_succ_self n))

example : (reservedWords.map Prod.fst).dedup.length = 19 := by decide +kernel

end Scanner

end ScriptMachine
