import Mathlib
import ScriptMachine.Code.Instr

/-! Reading back what was written. An instruction whose operands fit their bytes is found again at
every offset where its bytes stand, whatever follows them. -/
namespace ScriptMachine.Instr

/-- The operands fit the bytes they are written to: four for a number, one for the number of
captures and for each of them. -/
def Fits : Instr → Prop
  | loadConstant n | getLocal n | setLocal n | defineGlobal n | getGlobal n | setGlobal n
  | getCapture n | setCapture n | getField n | setField n | jump n | jumpIf _ n | jumpBack n
  | call n => n < 4294967296
  | closure constant captures =>
    constant < 4294967296 ∧ captures.length < 256 ∧ ∀ c ∈ captures, c.index < 256
  | createStruct constant fields =>
    constant < 4294967296 ∧ fields.length < 4294967296 ∧ ∀ f ∈ fields, f < 4294967296
  | _ => True

/-- These bytes stand at the offset. -/
def Stands (code : Array UInt8) (offset : Nat) (bytes : Bytes) : Prop :=
  bytes <+: code.toList.drop offset

theorem Stands.byte {code : Array UInt8} {offset : Nat} {b : UInt8} {rest : Bytes}
    (stands : Stands code offset (b :: rest)) : code[offset]? = some b := by
  obtain ⟨back,whole⟩ := stands
  have first : (code.toList.drop offset)[0]? = some b := by simp [← whole]
  simpa using first

theorem Stands.tail {code : Array UInt8} {offset : Nat} (front : Bytes) {rest : Bytes}
    (stands : Stands code offset (front ++ rest)) : Stands code (offset + front.length) rest := by
  obtain ⟨back,whole⟩ := stands
  refine ⟨back,?_⟩
  rw [← List.drop_drop,← whole]
  simp

theorem Stands.front {code : Array UInt8} {offset : Nat} {front rest : Bytes}
    (stands : Stands code offset (front ++ rest)) : Stands code offset front :=
  (List.prefix_append front rest).trans stands

/-- The bytes of a number spell it. -/
theorem word_value (n : Nat) (small : n < 4294967296) :
    (((UInt8.ofNat (n / 16777216)).toNat * 256 + (UInt8.ofNat (n / 65536)).toNat) * 256 +
      (UInt8.ofNat (n / 256)).toNat) * 256 + (UInt8.ofNat n).toNat = n := by
  simp only [UInt8.toNat_ofNat']
  omega

theorem readWord?_of_stands {code : Array UInt8} {offset n : Nat} (small : n < 4294967296)
    (stands : Stands code offset (word n)) : readWord? code offset = some n := by
  have first := stands.byte
  have second := (Stands.tail [_] stands).byte
  have third := (Stands.tail [_,_] stands).byte
  have fourth := (Stands.tail [_,_,_] stands).byte
  simp only [List.length_cons,List.length_nil,Nat.zero_add] at second third fourth
  simp only [readWord?,first,second,third,fourth,Option.bind_eq_bind,Option.bind_some,
    Option.pure_def,Option.some_inj]
  exact word_value n small

theorem readCaptures?_of_stands {code : Array UInt8} (captures : List Capture) {offset : Nat}
    (small : ∀ c ∈ captures, c.index < 256)
    (stands : Stands code offset (captures.flatMap encodeCapture)) :
    readCaptures? code offset captures.length = some captures := by
  induction captures generalizing offset with
  | nil => rfl
  | cons c rest ih =>
    have index := stands.byte
    have flag := (Stands.tail [_] stands).byte
    have others := ih (fun c h => small c (List.mem_cons_of_mem _ h))
      (Stands.tail (encodeCapture c) (by simpa using stands))
    have same : (UInt8.ofNat c.index).toNat = c.index := by
      simpa using small c List.mem_cons_self
    have bit : decide ((if c.isLocal then 1 else 0 : UInt8) ≠ 0) = c.isLocal := by
      cases c.isLocal <;> decide
    simp only [encodeCapture,List.length_cons,List.length_nil,Nat.zero_add] at flag others
    simp only [readCaptures?,List.length_cons,index,flag,others,Option.bind_eq_bind,
      Option.bind_some,Option.pure_def,same,bit]

theorem readWords?_of_stands {code : Array UInt8} (numbers : List Nat) {offset : Nat}
    (small : ∀ n ∈ numbers, n < 4294967296)
    (stands : Stands code offset (numbers.flatMap word)) :
    readWords? code offset numbers.length = some numbers := by
  induction numbers generalizing offset with
  | nil => rfl
  | cons n rest ih =>
    have whole : Stands code offset (word n ++ rest.flatMap word) := by simpa using stands
    have first := readWord?_of_stands (small n List.mem_cons_self) whole.front
    have others : readWords? code (offset + 4) rest.length = some rest :=
      ih (fun n h => small n (List.mem_cons_of_mem _ h)) (whole.tail (word n))
    simp [readWords?,first,others]

theorem decode?_closure {code : Array UInt8} {offset constant : Nat} {captures : List Capture}
    (fits : (closure constant captures).Fits)
    (stands : Stands code offset (closure constant captures).encode) :
    decode? code offset = some (closure constant captures) := by
  obtain ⟨small,few,indices⟩ := fits
  have whole : Stands code (offset + 1) (word constant ++
      ([UInt8.ofNat captures.length] ++ captures.flatMap encodeCapture)) := Stands.tail [_] stands
  have first : code[offset]? = some 26 := stands.byte
  have number := readWord?_of_stands small whole.front
  have count : code[offset + 5]? = some (UInt8.ofNat captures.length) := (whole.tail _).byte
  have pairs : readCaptures? code (offset + 6) captures.length = some captures :=
    readCaptures?_of_stands captures indices ((whole.tail _).tail _)
  have short : (UInt8.ofNat captures.length).toNat = captures.length := by simpa using few
  rw [decode?,first]
  change (do
    let constant ← readWord? code (offset + 1)
    let count ← code[offset + 5]?
    closure constant <$> readCaptures? code (offset + 6) count.toNat) = _
  simp [number,count,short,pairs]

theorem decode?_createStruct {code : Array UInt8} {offset constant : Nat} {fields : List Nat}
    (fits : (createStruct constant fields).Fits)
    (stands : Stands code offset (createStruct constant fields).encode) :
    decode? code offset = some (createStruct constant fields) := by
  obtain ⟨small,few,indices⟩ := fits
  have whole : Stands code (offset + 1) (word constant ++
      (word fields.length ++ fields.flatMap word)) := Stands.tail [_] stands
  have first : code[offset]? = some 27 := stands.byte
  have number := readWord?_of_stands small whole.front
  have count : readWord? code (offset + 5) = some fields.length :=
    readWord?_of_stands few (whole.tail _).front
  have labels : readWords? code (offset + 9) fields.length = some fields :=
    readWords?_of_stands fields indices ((whole.tail _).tail _)
  rw [decode?,first]
  change (do
    let constant ← readWord? code (offset + 1)
    let count ← readWord? code (offset + 5)
    createStruct constant <$> readWords? code (offset + 9) count) = _
  simp [number,count,labels]

/-- An instruction is read back wherever its bytes stand. -/
theorem decode?_of_stands {code : Array UInt8} {offset : Nat} (i : Instr) (fits : i.Fits)
    (stands : Stands code offset i.encode) : decode? code offset = some i := by
  have first : code[offset]? = some i.opcode := stands.byte
  have operands : Stands code (offset + 1) i.operands := Stands.tail [_] stands
  cases i
  case closure => exact decode?_closure fits stands
  case createStruct => exact decode?_createStruct fits stands
  case binary op => cases op <;> (rw [decode?,first]; rfl)
  case unary op => cases op <;> (rw [decode?,first]; rfl)
  case loadBool value => cases value <;> (rw [decode?,first]; rfl)
  case jumpIf condition n =>
    have distance := readWord?_of_stands fits operands
    cases condition <;> (rw [decode?,first]; exact congrArg (Option.map _) distance)
  all_goals
    rw [decode?,first]
    first
      | rfl
      | exact congrArg (Option.map _) (readWord?_of_stands fits operands)

/-- Only the last 32 bits of a number are written. -/
theorem word_mod (n : Nat) : word (n % 4294967296) = word n := by
  simp only [word,List.cons.injEq,and_true,← UInt8.toNat_inj,UInt8.toNat_ofNat']
  omega

/-- Where the bytes of a call stand, some call is read, whatever the number of its arguments. -/
theorem decode?_call {code : Array UInt8} {offset n : Nat}
    (stands : Stands code offset (call n).encode) :
    decode? code offset = some (call (n % 4294967296)) := by
  refine decode?_of_stands (call (n % 4294967296)) (Nat.mod_lt n (by decide)) ?_
  simpa [encode,operands,opcode,word_mod] using stands

/-- The instruction as it is read back: of the number of arguments of a call 32 bits are kept. -/
def stored : Instr → Instr
  | call n => call (n % 4294967296)
  | i => i

@[simp] theorem size_stored (i : Instr) : i.stored.size = i.size := by
  cases i <;> rfl

theorem stored_of_ne {i : Instr} (other : ∀ n, i ≠ call n) : i.stored = i := by
  cases i with
  | call n => exact absurd rfl (other n)
  | _ => rfl

/-- What is read where an instruction was written. -/
theorem decode?_stored {code : Array UInt8} {offset : Nat} (i : Instr)
    (fits : (∀ n, i ≠ call n) → i.Fits) (stands : Stands code offset i.encode) :
    decode? code offset = some i.stored := by
  by_cases isCall : ∃ n, i = call n
  · obtain ⟨n,rfl⟩ := isCall
    exact decode?_call stands
  · have other : ∀ n, i ≠ call n := fun n same => isCall ⟨n,same⟩
    rw [stored_of_ne other]
    exact decode?_of_stands i (fits other) stands

end ScriptMachine.Instr
