import Mathlib
import ScriptMachine.Token.Scan
import ScriptMachine.Proofs.Places

/-! What the scanner makes of a text. Its tokens stand in the text one behind the other, the last of them
at its end, and each tells its position truly. -/
namespace ScriptMachine.Token

namespace Cursor

/-- The later place is further on in the same text. -/
def Leads (c d : Cursor) : Prop :=
  ∃ used, c.rest = used ++ d.rest ∧ d.offset = c.offset + used.length

/-- The end of the text. -/
def stop (c : Cursor) : Nat :=
  c.offset + c.rest.length

variable {c d e : Cursor}

theorem Leads.refl (c : Cursor) : c.Leads c :=
  ⟨[],rfl,rfl⟩

theorem Leads.trans (first : c.Leads d) (second : d.Leads e) : c.Leads e := by
  obtain ⟨used,rest,offset⟩ := first
  obtain ⟨more,later,further⟩ := second
  refine ⟨used ++ more,by rw [rest,later,List.append_assoc],?_⟩
  rw [further,offset,List.length_append,Nat.add_assoc]

theorem Leads.stop_eq (leads : c.Leads d) : d.stop = c.stop := by
  obtain ⟨used,rest,offset⟩ := leads
  rw [stop,stop,rest,offset,List.length_append,Nat.add_assoc]

theorem Leads.le (leads : c.Leads d) : c.offset ≤ d.offset ∧ d.offset ≤ c.stop := by
  obtain ⟨used,rest,offset⟩ := leads
  rw [stop,rest,offset,List.length_append]
  omega

/-- Some bytes on. -/
theorem Leads.drop (c : Cursor) {n : Nat} (inside : n ≤ c.rest.length) :
    c.Leads ⟨c.offset + n,c.rest.drop n⟩ :=
  ⟨c.rest.take n,(List.take_append_drop n c.rest).symm,by
    rw [List.length_take,Nat.min_eq_left inside]⟩

theorem Leads.one (offset : Nat) (b : UInt8) (rest : Bytes) :
    Leads ⟨offset,b :: rest⟩ ⟨offset + 1,rest⟩ :=
  ⟨[b],rfl,rfl⟩

end Cursor

/-- What the reader of a token makes of the text at a place: it ends further on, and what it finds fault
with is a stretch of the text. -/
structure Takes (c : Cursor) (result : Body × Cursor) : Prop where
  leads : c.Leads result.2
  place : ∀ fault place, result.1 = .invalid fault place →
    place.start ≤ place.stop ∧ place.stop ≤ c.stop

theorem Takes.after {c d : Cursor} {result : Body × Cursor} (takes : Takes d result)
    (leads : c.Leads d) : Takes c result :=
  ⟨leads.trans takes.leads,fun fault place found => leads.stop_eq ▸ takes.place fault place found⟩

theorem Takes.plain {c : Cursor} {body : Body} {after : Cursor} (leads : c.Leads after)
    (whole : ∀ fault place, body ≠ .invalid fault place) : Takes c (body,after) :=
  ⟨leads,fun fault place found => absurd found (whole fault place)⟩

theorem Takes.faulty {c after : Cursor} {fault : LexicalFault} {place : Span} (leads : c.Leads after)
    (ordered : place.start ≤ place.stop) (inside : place.stop ≤ c.stop) :
    Takes c (.invalid fault place,after) :=
  ⟨leads,fun fault place found => by cases found; exact ⟨ordered,inside⟩⟩

theorem skip_leads (inComment : Bool) (offset : Nat) (text : Bytes) :
    Cursor.Leads ⟨offset,text⟩ (skip inComment offset text) := by
  induction text generalizing inComment offset with
  | nil => exact .refl _
  | cons b rest ih =>
    have step (inComment : Bool) := (Cursor.Leads.one offset b rest).trans (ih inComment (offset + 1))
    rw [skip]
    split
    · exact step _
    split
    · exact step _
    split
    · exact step _
    · exact .refl _

/-- What is skipped ends at a byte of a token. -/
theorem skip_stops {inComment : Bool} {offset : Nat} {text : Bytes} {b : UInt8} {rest : Bytes}
    (left : (skip inComment offset text).rest = b :: rest) : Byte.isBlank b = false := by
  induction text generalizing inComment offset with
  | nil => contradiction
  | cons first more ih =>
    rw [skip] at left
    split at left
    · exact ih left
    split at left
    · exact ih left
    split at left
    · exact ih left
    next plain _ =>
      obtain ⟨rfl,-⟩ := List.cons.inj left
      simpa using plain

theorem readString_takes {start offset : Nat} (less : start < offset) (read text : Bytes) :
    Takes ⟨offset,text⟩ (readString start offset read text) := by
  fun_induction readString start offset read text with
  | case1 => exact .faulty (.refl _) (Nat.le_succ _) less
  | case2 => exact .plain (.one ..) (by simp)
  | case3 offset read rest =>
    exact .faulty (.refl _) (Nat.le_succ _) (by simp only [Cursor.stop,List.length_cons]; omega)
  | case4 =>
    exact .faulty (.one ..) (Nat.le_succ _) (by simp only [Cursor.stop,List.length_cons]; omega)
  | case5 offset read e rest c known _ _ ih =>
    exact (ih (by omega)).after ((Cursor.Leads.one ..).trans (.one ..))
  | case6 offset read e rest =>
    exact .faulty ((Cursor.Leads.one ..).trans (.one ..)) (by simp)
      (by simp only [Cursor.stop,List.length_cons]; omega)
  | case7 offset read b rest _ _ _ ih => exact (ih (by omega)).after (.one ..)

theorem length_fractionOf {rest : Bytes} (some : (fractionOf rest).isEmpty = false) :
    (fractionOf rest).length + 1 ≤ rest.length := by
  unfold fractionOf at some ⊢
  split at some
  next more => exact Nat.succ_le_succ (List.takeWhile_sublist Byte.isDigit).length_le
  next => contradiction

theorem readNumber_takes (start : Nat) (first : UInt8) (rest : Bytes) :
    Takes ⟨start,first :: rest⟩ (readNumber start first rest) := by
  unfold readNumber
  extract_lets whole behind fraction taken stop body
  have split : first :: rest = whole ++ behind := by
    rw [List.cons_append,List.takeWhile_append_dropWhile]
  have bound : taken ≤ behind.length := by
    cases empty : fraction.isEmpty with
    | true => simp [taken,empty]
    | false => simpa [taken,empty] using length_fractionOf empty
  have leads : Cursor.Leads ⟨start,first :: rest⟩ ⟨stop,behind.drop taken⟩ :=
    Cursor.Leads.trans (d := ⟨start + whole.length,behind⟩) ⟨whole,split,rfl⟩ (.drop _ bound)
  cases value : Number.ofLiteral? whole fraction with
  | some value => exact .plain leads (by simp [body,value])
  | none =>
    have faulty : body = .invalid .numberOutOfRange ⟨start,stop⟩ := by simp [body,value]
    exact faulty ▸ .faulty leads leads.le.1 leads.le.2

theorem readWord_takes (start : Nat) (first : UInt8) (rest : Bytes) :
    Takes ⟨start,first :: rest⟩ (readWord start first rest) := by
  rw [readWord]
  refine .plain ⟨first :: rest.takeWhile Byte.isNamePart,?_,rfl⟩ fun fault place => ?_
  · rw [List.cons_append,List.takeWhile_append_dropWhile]
  · split <;> simp

/-- A symbol of two bytes ends with an equals sign. -/
theorem symbolAt?_long {b : UInt8} {next : Option UInt8} {symbol : Symbol}
    (known : symbolAt? b next = some (symbol,true)) : next = some 61 := by
  by_contra other
  unfold symbolAt? at known
  simp only [if_neg other] at known
  split at known <;> simp at known

theorem readBody_takes (start : Nat) (b : UInt8) (rest : Bytes) :
    Takes ⟨start,b :: rest⟩ (readBody start b rest) := by
  unfold readBody
  split
  next symbol known => exact .plain (.one ..) (by simp)
  next symbol known =>
    obtain ⟨tail,rfl⟩ : ∃ tail, rest = 61 :: tail := by
      have head := symbolAt?_long known
      cases rest with
      | nil => contradiction
      | cons e tail => exact ⟨tail,by rw [List.head?_cons,Option.some_inj] at head; rw [head]⟩
    exact .plain ((Cursor.Leads.one ..).trans (.one ..)) (by simp)
  next =>
    split
    · exact (readString_takes (Nat.lt_succ_self start) [] rest).after (.one ..)
    split
    · exact readNumber_takes start b rest
    split
    · exact readWord_takes start b rest
    · exact .faulty (.one ..) (Nat.le_succ _) (by simp only [Cursor.stop,List.length_cons]; omega)

/-- A token stands in the text of a script and tells where. -/
structure Stands (source : Source) (t : Token) : Prop where
  ordered : t.span.start ≤ t.span.stop
  inside : t.span.stop ≤ source.size
  position : t.position = source.position t.span.start
  place : ∀ fault place, t.body = .invalid fault place →
    place.start ≤ place.stop ∧ place.stop ≤ source.size

theorem read_stands {source : Source} {c : Cursor} (whole : c.stop = source.size) :
    Stands source (read source c).1 ∧ c.Leads (read source c).2 ∧
      c.offset ≤ (read source c).1.span.start ∧
      (read source c).1.span.stop = (read source c).2.offset := by
  have skipped := skip_leads false c.offset c.rest
  cases rest : (skip false c.offset c.rest).rest with
  | nil =>
    simp only [read,rest]
    refine ⟨⟨le_rfl,whole ▸ skipped.le.2,rfl,by simp⟩,skipped,skipped.le.1,trivial⟩
  | cons b more =>
    have takes := readBody_takes (skip false c.offset c.rest).offset b more
    have same : (⟨(skip false c.offset c.rest).offset,b :: more⟩ : Cursor) =
      skip false c.offset c.rest := by rw [← rest]
    rw [same] at takes
    have all := takes.after skipped
    simp only [read,rest]
    exact ⟨⟨takes.leads.le.1,whole ▸ all.leads.le.2,rfl,fun fault place found =>
      whole ▸ all.place fault place found⟩,all.leads,skipped.le.1,trivial⟩

/-- Tokens one behind the other, the last of them alone the end of the script. -/
structure Row (source : Source) (offset : Nat) (tokens : List Token) : Prop where
  stand : ∀ t ∈ tokens, Stands source t
  ordered : tokens.Pairwise fun a b => a.span.stop ≤ b.span.start
  after : ∀ t ∈ tokens, offset ≤ t.span.start
  ends : ∃ front stop, tokens = front ++ [stop] ∧ stop.body = .endOfScript ∧
    ∀ t ∈ front, t.body ≠ .endOfScript

theorem readAll_row {source : Source} {c : Cursor} (whole : c.stop = source.size) :
    Row source c.offset (readAll source c) := by
  fun_induction readAll source c with
  | case1 c token last =>
    obtain ⟨stands,-,after,-⟩ := read_stands whole
    refine ⟨?_,List.pairwise_singleton _ _,?_,[],token.1,rfl,last,by simp⟩
    · exact List.forall_mem_singleton.mpr stands
    · exact List.forall_mem_singleton.mpr after
  | case2 c token more ih =>
    obtain ⟨stands,leads,after,stop⟩ := read_stands whole
    obtain ⟨stand,ordered,behind,front,last,split,ends,inner⟩ := ih (leads.stop_eq.trans whole)
    refine ⟨List.forall_mem_cons.mpr ⟨stands,stand⟩,
      List.pairwise_cons.mpr ⟨fun t member => stop.trans_le (behind t member),ordered⟩,
      List.forall_mem_cons.mpr ⟨after,fun t member => leads.le.1.trans (behind t member)⟩,
      token.1 :: front,last,by rw [split]; rfl,ends,List.forall_mem_cons.mpr ⟨more,inner⟩⟩

theorem tokens_row (source : Source) : Row source 0 (tokens source) :=
  readAll_row (c := ⟨0,source.text⟩) (by rw [Cursor.stop,source.size_eq,Nat.zero_add])

end ScriptMachine.Token
