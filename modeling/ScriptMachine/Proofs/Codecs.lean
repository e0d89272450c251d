import Mathlib
import ScriptMachine.Code.Listing
import ScriptMachine.Proofs.Encoding

/-! The machine reads code byte by byte, moving on as it reads, and a listing finds operands by their
places. Both make the same of every byte, so a listing of compiled code shows what is run. -/
namespace ScriptMachine

/-! Reading as the machine does it. -/

/-- What is read from the bytes at the current offset, which moves behind them. -/
abbrev Cursor := StateT Nat Option

namespace Cursor

variable (code : Array UInt8)

def byte : Cursor UInt8 := do
  let offset ← get
  let b ← code[offset]?
  set (offset + 1)
  return b

/-- Four bytes, most significant first. -/
def word : Cursor Nat := do
  let a ← byte code
  let b ← byte code
  let c ← byte code
  let d ← byte code
  return ((a.toNat * 256 + b.toNat) * 256 + c.toNat) * 256 + d.toNat

def captures : Nat → Cursor (List Capture)
  | 0 => return []
  | count + 1 => do
    let index ← byte code
    let isLocal ← byte code
    return ⟨index.toNat,isLocal ≠ 0⟩ :: (← captures count)

def words : Nat → Cursor (List Nat)
  | 0 => return []
  | count + 1 => do
    let first ← word code
    return first :: (← words count)

def instr : Cursor Instr := do
  match ← byte code with
  | 0 => return .binary .add
  | 1 => return .binary .subtract
  | 2 => return .binary .multiply
  | 3 => return .binary .divide
  | 4 => return .binary .remainder
  | 5 => return .binary .less
  | 6 => return .binary .lessEqual
  | 7 => return .binary .more
  | 8 => return .binary .moreEqual
  | 9 => return .binary .equal
  | 10 => return .binary .notEqual
  | 11 => return .unary .negate
  | 12 => return .unary .not
  | 13 => return .loadConstant (← word code)
  | 14 => return .getLocal (← word code)
  | 15 => return .setLocal (← word code)
  | 16 => return .defineGlobal (← word code)
  | 17 => return .getGlobal (← word code)
  | 18 => return .setGlobal (← word code)
  | 19 => return .getCapture (← word code)
  | 20 => return .setCapture (← word code)
  | 21 => return .getField (← word code)
  | 22 => return .setField (← word code)
  | 23 => return .loadNil
  | 24 => return .loadBool true
  | 25 => return .loadBool false
  | 26 =>
    let constant ← word code
    let count ← byte code
    return .closure constant (← captures code count.toNat)
  | 27 =>
    let constant ← word code
    let count ← word code
    return .createStruct constant (← words code count)
  | 28 => return .jump (← word code)
  | 29 => return .jumpIf true (← word code)
  | 30 => return .jumpIf false (← word code)
  | 31 => return .jumpBack (← word code)
  | 32 => return .call (← word code)
  | 33 => return .ret
  | 34 => return .closeCell
  | 35 => return .pop
  | 36 => return .duplicate
  | 37 => return .print
  | _ => failure

variable {code : Array UInt8} {offset : Nat}

theorem run_byte : (byte code).run offset = (code[offset]?).map fun b => (b,offset + 1) := by
  cases found : code[offset]? <;> simp [byte,found]

theorem run_word :
    (word code).run offset = (Instr.readWord? code offset).map fun n => (n,offset + 4) := by
  simp only [word,StateT.run_bind,run_byte,Instr.readWord?,Option.bind_eq_bind]
  cases code[offset]? with
  | none => rfl
  | some a =>
    cases second : code[offset + 1]? with
    | none => simp [second]
    | some b =>
      cases third : code[offset + 2]? with
      | none => simp [second,third]
      | some c => cases fourth : code[offset + 3]? <;> simp [second,third,fourth]

theorem run_captures (count : Nat) :
    (captures code count).run offset =
      (Instr.readCaptures? code offset count).map fun cs => (cs,offset + 2 * count) := by
  induction count generalizing offset with
  | zero => rfl
  | succ count ih =>
    simp only [captures,StateT.run_bind,run_byte,ih,Instr.readCaptures?,Option.bind_eq_bind]
    cases code[offset]? with
    | none => rfl
    | some a =>
      cases second : code[offset + 1]? with
      | none => simp [second]
      | some b =>
        cases rest : Instr.readCaptures? code (offset + 2) count with
        | none => simp [second,rest]
        | some cs => simp [second,rest]; omega

theorem run_words (count : Nat) :
    (words code count).run offset =
      (Instr.readWords? code offset count).map fun ns => (ns,offset + 4 * count) := by
  induction count generalizing offset with
  | zero => rfl
  | succ count ih =>
    simp only [words,StateT.run_bind,run_word,ih,Instr.readWords?,Option.bind_eq_bind]
    cases Instr.readWord? code offset with
    | none => rfl
    | some n =>
      cases rest : Instr.readWords? code (offset + 4) count with
      | none => simp [rest]
      | some ns => simp [rest]; omega

theorem length_readCaptures? {count : Nat} {cs : List Capture}
    (read : Instr.readCaptures? code offset count = some cs) : cs.length = count := by
  induction count generalizing offset cs with
  | zero =>
    cases read
    rfl
  | succ count ih =>
    simp only [Instr.readCaptures?,Option.bind_eq_bind,Option.bind_eq_some_iff,Option.pure_def,
      Option.some_inj] at read
    obtain ⟨_,_,_,_,rest,more,rfl⟩ := read
    rw [List.length_cons,ih more]

theorem length_readWords? {count : Nat} {ns : List Nat}
    (read : Instr.readWords? code offset count = some ns) : ns.length = count := by
  induction count generalizing offset ns with
  | zero =>
    cases read
    rfl
  | succ count ih =>
    simp only [Instr.readWords?,Option.bind_eq_bind,Option.bind_eq_some_iff,Option.pure_def,
      Option.some_inj] at read
    obtain ⟨_,_,rest,more,rfl⟩ := read
    rw [List.length_cons,ih more]

end Cursor

namespace Instr

variable {code : Array UInt8} {offset : Nat}

theorem readWord?_lt {n : Nat} (read : readWord? code offset = some n) : n < 4294967296 := by
  simp only [readWord?,Option.bind_eq_bind,Option.bind_eq_some_iff,Option.pure_def,Option.some_inj] at read
  obtain ⟨a,-,b,-,c,-,d,-,rfl⟩ := read
  have := a.toNat_lt
  have := b.toNat_lt
  have := c.toNat_lt
  have := d.toNat_lt
  omega

theorem readCaptures?_small {count : Nat} {cs : List Capture}
    (read : readCaptures? code offset count = some cs) : ∀ c ∈ cs, c.index < 256 := by
  induction count generalizing offset cs with
  | zero =>
    cases read
    simp
  | succ count ih =>
    simp only [readCaptures?,Option.bind_eq_bind,Option.bind_eq_some_iff,Option.pure_def,
      Option.some_inj] at read
    obtain ⟨index,-,_,-,rest,more,rfl⟩ := read
    exact List.forall_mem_cons.mpr ⟨index.toNat_lt,ih more⟩

theorem readWords?_small {count : Nat} {ns : List Nat}
    (read : readWords? code offset count = some ns) : ∀ n ∈ ns, n < 4294967296 := by
  induction count generalizing offset ns with
  | zero =>
    cases read
    simp
  | succ count ih =>
    simp only [readWords?,Option.bind_eq_bind,Option.bind_eq_some_iff,Option.pure_def,
      Option.some_inj] at read
    obtain ⟨_,first,rest,more,rfl⟩ := read
    exact List.forall_mem_cons.mpr ⟨readWord?_lt first,ih more⟩

/-- What is read begins with the byte that stands for it, and fits the bytes it was read from. -/
theorem decode?_spec {i : Instr} (read : decode? code offset = some i) :
    code[offset]? = some i.opcode ∧ i.Fits := by
  rw [decode?] at read
  obtain ⟨b,first,read⟩ := Option.bind_eq_some_iff.mp read
  rw [first]
  split at read
  case h_27 =>
    simp only [Option.bind_eq_bind,Option.bind_eq_some_iff,Option.map_eq_map,Option.map_eq_some_iff] at read
    obtain ⟨n,word,count,-,cs,captures,rfl⟩ := read
    exact ⟨rfl,readWord?_lt word,Cursor.length_readCaptures? captures ▸ count.toNat_lt,
      readCaptures?_small captures⟩
  case h_28 =>
    simp only [Option.bind_eq_bind,Option.bind_eq_some_iff,Option.map_eq_map,Option.map_eq_some_iff] at read
    obtain ⟨n,word,count,length,ns,fields,rfl⟩ := read
    exact ⟨rfl,readWord?_lt word,Cursor.length_readWords? fields ▸ readWord?_lt length,
      readWords?_small fields⟩
  case h_39 => contradiction
  all_goals first
    | (cases read
       exact ⟨rfl,trivial⟩)
    | (obtain ⟨n,word,rfl⟩ := Option.map_eq_some_iff.mp read
       exact ⟨rfl,readWord?_lt word⟩)

theorem ofOpcode?_opcode (i : Instr) : (Layout.ofOpcode? i.opcode).isSome := by
  cases i with
  | binary op => cases op <;> rfl
  | unary op => cases op <;> rfl
  | loadBool value => cases value <;> rfl
  | jumpIf condition _ => cases condition <;> rfl
  | _ => rfl

/-- Where a byte stands that has no layout, no instruction is read. -/
theorem decode?_other {b : UInt8} (found : code[offset]? = some b)
    (other : Layout.ofOpcode? b = none) : decode? code offset = none := by
  refine Option.eq_none_iff_forall_ne_some.mpr fun i read => ?_
  have known := i.ofOpcode?_opcode
  rw [(decode?_spec read).1] at found
  rw [Option.some.inj found,other] at known
  cases known

end Instr

namespace Cursor

variable {code : Array UInt8} {offset : Nat}

theorem run_operand (make : Nat → Instr) (size : ∀ n, (make n).size = 5) :
    (do return make (← word code) : Cursor Instr).run (offset + 1) =
      (make <$> Instr.readWord? code (offset + 1)).map fun i => (i,offset + i.size) := by
  simp only [StateT.run_bind,run_word]
  cases Instr.readWord? code (offset + 1) with
  | none => rfl
  | some n => simp [size]

theorem run_instr :
    (instr code).run offset = (Instr.decode? code offset).map fun i => (i,offset + i.size) := by
  cases found : code[offset]? with
  | none => simp [instr,run_byte,Instr.decode?,found]
  | some b =>
    have decoded := Instr.decode?.eq_1 code offset
    rw [found] at decoded
    rw [instr,StateT.run_bind,run_byte,found]
    simp only [Option.map_some,Option.bind_eq_bind,Option.bind_some] at decoded ⊢
    split
    case h_39 =>
      rw [Instr.decode?_other found]
      · rfl
      · rw [Layout.ofOpcode?] <;> assumption
    all_goals rw [decoded]
    case h_27 =>
      simp only [StateT.run_bind,run_word,run_byte,run_captures]
      cases Instr.readWord? code (offset + 1) with
      | none => rfl
      | some n =>
        cases second : code[offset + 5]? with
        | none => simp [second]
        | some count =>
          cases rest : Instr.readCaptures? code (offset + 6) count.toNat with
          | none => simp [second,rest]
          | some cs => simp [second,rest,Instr.size,length_readCaptures? rest]; omega
    case h_28 =>
      simp only [StateT.run_bind,run_word,run_words]
      cases Instr.readWord? code (offset + 1) with
      | none => rfl
      | some n =>
        cases second : Instr.readWord? code (offset + 5) with
        | none => simp [second]
        | some count =>
          cases rest : Instr.readWords? code (offset + 9) count with
          | none => simp [second,rest]
          | some cs => simp [second,rest,Instr.size,length_readWords? rest]; omega
    all_goals first
      | rfl
      | exact run_operand _ fun _ => rfl

end Cursor

/-! Listing. -/

def BinaryOp.title : BinaryOp → String
  | add => "add" | subtract => "subtract" | multiply => "multiply" | divide => "divide"
  | remainder => "modulo" | less => "less" | lessEqual => "lessEqual" | more => "more"
  | moreEqual => "moreEqual" | equal => "equals" | notEqual => "notEquals"

def UnaryOp.title : UnaryOp → String
  | negate => "negate" | not => "not"

namespace Instr

def title : Instr → String
  | binary op => op.title
  | unary op => op.title
  | loadConstant _ => "loadConstant"
  | getLocal _ => "loadLocal"
  | setLocal _ => "setLocal"
  | defineGlobal _ => "defineGlobal"
  | getGlobal _ => "loadGlobal"
  | setGlobal _ => "setGlobal"
  | getCapture _ => "getUpvalue"
  | setCapture _ => "setUpvalue"
  | getField _ => "getField"
  | setField _ => "setField"
  | loadNil => "loadNil"
  | loadBool value => if value then "loadTrue" else "loadFalse"
  | closure .. => "closure"
  | createStruct .. => "createStruct"
  | jump _ => "jump"
  | jumpIf condition _ => if condition then "jumpIfTrue" else "jumpIfFalse"
  | jumpBack _ => "jumpBack"
  | call _ => "call"
  | ret => "return"
  | closeCell => "closeUpvalue"
  | pop => "popStack"
  | duplicate => "cloneTop"
  | print => "print"

/-- The operands of an instruction at an offset; for a jump the offset it leads to. -/
def shown (offset : Nat) : Instr → List Operand
  | loadConstant n | defineGlobal n | getGlobal n | setGlobal n | getField n | setField n =>
    [.constant n]
  | getLocal n | setLocal n | getCapture n | setCapture n | call n => [.number n]
  | closure n captures => .constant n :: captures.map .capture
  | createStruct n fields => .constant n :: fields.map .field
  | jump n | jumpIf _ n => [.way offset ((offset + 5 + n) % Chunk.offsetLimit)]
  | jumpBack n => [.way offset ((offset + 5 + Chunk.offsetLimit - n) % Chunk.offsetLimit)]
  | _ => []

end Instr

namespace Chunk

variable {chunk : Chunk} {offset : Nat}

theorem wordAt?_eq (offset : Nat) : chunk.wordAt? offset = Instr.readWord? chunk.code offset := by
  have places : List.range 4 = [0,1,2,3] := rfl
  rw [wordAt?,places,Instr.readWord?]
  simp only [List.foldlM_cons,List.foldlM_nil,Option.bind_eq_bind,Option.pure_def,Option.bind_assoc,
    Option.bind_some,Nat.add_zero,Nat.zero_mul,Nat.zero_add]

/-- Reading at places that are the same distance apart. -/
theorem mapM_range {α : Type} (read : Nat → Option α) (base distance count : Nat) :
    (List.range (count + 1)).mapM (fun k => read (base + k * distance)) = (do
      let first ← read base
      let rest ← (List.range count).mapM fun k => read (base + distance + k * distance)
      return first :: rest) := by
  rw [List.range_succ_eq_map,List.mapM_cons,Nat.zero_mul,Nat.add_zero,List.mapM_map]
  have moved : ((fun k => read (base + k * distance)) ∘ Nat.succ) =
      fun k => read (base + distance + k * distance) := by
    funext k
    rw [Function.comp_apply,Nat.succ_mul,Nat.add_assoc,Nat.add_comm (k * distance)]
  rw [moved]

theorem capturesAt?_eq (count : Nat) : chunk.capturesAt? offset count =
    (Instr.readCaptures? chunk.code (offset + 6) count).map (List.map .capture) := by
  rw [capturesAt?]
  generalize offset + 6 = base
  induction count generalizing base with
  | zero => rfl
  | succ count ih =>
    have first := mapM_range (fun place => do
      let index ← chunk.code[place]?
      let isLocal ← chunk.code[place + 1]?
      return Operand.capture ⟨index.toNat,isLocal ≠ 0⟩) base 2 count
    rw [first,ih,Instr.readCaptures?]
    cases chunk.code[base]? with
    | none => rfl
    | some index =>
      cases chunk.code[base + 1]? with
      | none => simp
      | some isLocal =>
        cases Instr.readCaptures? chunk.code (base + 2) count <;> simp

theorem fieldsAt?_eq (count : Nat) : chunk.fieldsAt? offset count =
    (Instr.readWords? chunk.code (offset + 9) count).map (List.map .field) := by
  rw [fieldsAt?]
  generalize offset + 9 = base
  induction count generalizing base with
  | zero => rfl
  | succ count ih =>
    have first := mapM_range (fun place => do return Operand.field (← chunk.wordAt? place)) base 4 count
    rw [first,ih,Instr.readWords?,wordAt?_eq]
    cases Instr.readWord? chunk.code base with
    | none => rfl
    | some n => cases Instr.readWords? chunk.code (base + 4) count <;> rfl

theorem described?_eq :
    chunk.described? offset =
      (chunk.instr? offset).map fun i => (i.title,i.shown offset,i.size) := by
  rw [instr?]
  cases found : chunk.code[offset]? with
  | none => simp [described?,Instr.decode?,found]
  | some b =>
    have decoded := Instr.decode?.eq_1 chunk.code offset
    rw [found] at decoded
    rw [described?,found]
    simp only [Option.bind_eq_bind,Option.bind_some,Layout.ofOpcode?] at decoded ⊢
    split
    case h_39 =>
      rw [Instr.decode?_other found]
      · rfl
      · rw [Layout.ofOpcode?] <;> assumption
    all_goals rw [decoded]
    case h_27 =>
      simp only [Option.bind_some,operandsAt?,wordAt?_eq,capturesAt?_eq]
      cases Instr.readWord? chunk.code (offset + 1) with
      | none => rfl
      | some n =>
        cases chunk.code[offset + 5]? with
        | none => simp
        | some count =>
          cases rest : Instr.readCaptures? chunk.code (offset + 6) count.toNat with
          | none => simp [rest]
          | some cs =>
            have length := Cursor.length_readCaptures? rest
            simp [rest,Instr.size,Instr.title,Instr.shown,length,Nat.mul_comm]
    case h_28 =>
      simp only [Option.bind_some,operandsAt?,wordAt?_eq,fieldsAt?_eq]
      cases Instr.readWord? chunk.code (offset + 1) with
      | none => rfl
      | some n =>
        cases Instr.readWord? chunk.code (offset + 5) with
        | none => simp
        | some count =>
          cases rest : Instr.readWords? chunk.code (offset + 9) count with
          | none => simp [rest]
          | some ns =>
            have length := Cursor.length_readWords? rest
            simp [rest,Instr.size,Instr.title,Instr.shown,length,Nat.mul_comm]
    all_goals first
      | rfl
      | (simp only [Option.bind_some,operandsAt?,wordAt?_eq]
         cases Instr.readWord? chunk.code (offset + 1) <;> rfl)

/-- Every row is that of the instruction the machine reads there. -/
theorem row_of_found {i : Instr} (found : chunk.instr? offset = some i) :
    chunk.row offset = ((decimal offset).padRight 5 ++ chunk.lineListing offset ++ ascii i.title ++
      (i.shown offset).flatMap chunk.operandText,i.size) := by
  rw [row,described?_eq,found]
  rfl

end Chunk

end ScriptMachine
