import Mathlib
import ScriptMachine.Proofs.Codecs
import ScriptMachine.Proofs.Discipline
import ScriptMachine.Proofs.Frames

/-! What a listing shows of the code that is run: each row an instruction that the machine reads there,
its operands and, for a jump, where it leads. -/
namespace ScriptMachine

namespace Chunk

variable {chunk : Chunk} {offset : Nat}

/-- The offsets that are visited from one offset on, up to where the code ends or is left. -/
inductive Visits (chunk : Chunk) : Nat → List Nat → Nat → Prop
  | stop {offset : Nat} (ends : chunk.code.size ≤ offset) : Visits chunk offset [] offset
  | next {offset stop : Nat} {rest : List Nat} (inside : offset < chunk.code.size)
      (more : Visits chunk (offset + (chunk.row offset).2) rest stop) :
      Visits chunk offset (offset :: rest) stop

theorem Visits.rows {starts : List Nat} {stop : Nat} (visits : chunk.Visits offset starts stop) :
    chunk.rowsFrom offset = starts.map fun place => (chunk.row place).1 := by
  induction visits with
  | stop ends => rw [rowsFrom,if_neg (Nat.not_lt.mpr ends),List.map_nil]
  | next inside _ ih => rw [rowsFrom,if_pos inside,ih,List.map_cons]

end Chunk

namespace Instr

/-- Where these instructions start, one behind the other. -/
def starts (offset : Nat) : List Instr → List Nat
  | [] => []
  | i :: rest => offset :: starts (offset + i.size) rest

theorem starts_stored (offset : Nat) (code : List Instr) :
    starts offset (code.map stored) = starts offset code := by
  induction code generalizing offset with
  | nil => rfl
  | cons i rest ih => rw [List.map_cons,starts,starts,size_stored,ih]

/-- The instruction is a jump, and the machine is about to take it. -/
def Taken (m : Machine) : Instr → Prop
  | jump _ | jumpBack _ => True
  | jumpIf condition _ => m.stack.back? = some (.bool condition)
  | _ => False

end Instr

/-- The machine runs the chunk in its top frame. -/
structure Machine.At (m : Machine) (chunk : Chunk) (f : Frame) (callers : List Frame) : Prop where
  frames : m.frames = f :: callers
  code : ∃ constants, m.functionOf? f.closure = some (chunk,constants)

namespace Action

variable {m m' : Machine} {chunk : Chunk} {f : Frame} {callers : List Frame} {i : Instr} {host : Host}

theorem fetch_at (here : m.At chunk f callers) (found : chunk.instr? f.ip = some i) :
    fetch m = .ok i { m with frames := { f with ip := f.ip + i.size } :: callers } := by
  obtain ⟨constants,code⟩ := here.code
  have reads : fetch.Ensures m
      (fun j m' => j = i ∧ m' = { m with frames := { f with ip := f.ip + i.size } :: callers })
      fun _ _ => False := by
    rw [fetch,ensures_bind,ensures_runningFunction here.frames code,ensures_bind,
      ensures_frame here.frames,found,ensures_bind,ensures_some,ensures_bind,ensures_modifyFrame,
      here.frames]
    exact ⟨rfl,rfl⟩
  obtain ⟨_,_,fetched,rfl,rfl⟩ := reads.succeeds
  exact fetched

theorem step_at_ok (here : m.At chunk f callers) (found : chunk.instr? f.ip = some i)
    (run : step host m = .ok () m') :
    execute host i { m with frames := { f with ip := f.ip + i.size } :: callers } = .ok () m' := by
  obtain ⟨j,mid,fetched,executed⟩ := bind_ok run
  rw [fetch_at here found] at fetched
  cases fetched
  exact executed

/-- A conditional jump finds a boolean on the stack. -/
theorem jumpIf_ok {condition : Bool} {distance : Nat} (run : jumpIf condition distance m = .ok () m') :
    ∃ b, m.stack.back? = some (.bool b) ∧ m'.frames =
      if b = condition then m.frames.modifyHead fun f => { f with ip := f.ip + distance }
      else m.frames := by
  obtain ⟨value,mid,peeked,run⟩ := bind_ok run
  have top : m.stack.back? = some value ∧ mid = m := by
    have ends : (peek 0).Ensures m (fun v m' => m.stack.back? = some v ∧ m' = m) fun _ _ => True := by
      by_cases some : 0 < m.stack.size
      · rw [ensures_peek some]
        exact ⟨by simp [Array.back?],rfl⟩
      · simp [peek,some]
    exact ends.apply peeked
  obtain ⟨back,rfl⟩ := top
  cases value with
  | bool b =>
    refine ⟨b,back,?_⟩
    obtain ⟨_,popped,pops,run⟩ := bind_ok run
    rw [← stays_pop mid _ popped pops]
    split at run <;> cases run
    · rw [if_pos ‹_›]
    · rw [if_neg ‹_›]
  | _ => cases run

/-- A jump that is taken leads to the offset that its row shows. -/
theorem step_taken (here : m.At chunk f callers) (found : chunk.instr? f.ip = some i)
    (inside : f.ip + i.size ≤ chunk.code.size)
    (room : chunk.code.size + 4294967296 ≤ Chunk.offsetLimit) (taken : i.Taken m)
    (run : step host m = .ok () m') :
    ∃ target, i.shown f.ip = [.way f.ip target] ∧
      m'.frames = { f with ip := target } :: callers := by
  have small := (Instr.decode?_spec found).2
  have executed := step_at_ok here found run
  have ahead (n : Nat) (small : n < 4294967296) (inside : f.ip + 5 ≤ chunk.code.size) :
      (f.ip + 5 + n) % Chunk.offsetLimit = f.ip + 5 + n := Nat.mod_eq_of_lt (by omega)
  cases i with
  | jump n =>
    cases executed
    exact ⟨_,congrArg (fun target => [Operand.way f.ip target]) (ahead n small inside),rfl⟩
  | jumpIf condition n =>
    obtain ⟨b,back,frames⟩ := jumpIf_ok executed
    obtain rfl : b = condition := by simpa using back.symm.trans taken
    rw [if_pos rfl] at frames
    exact ⟨_,congrArg (fun target => [Operand.way f.ip target]) (ahead n small inside),frames⟩
  | jumpBack n =>
    have back : n ≤ f.ip + 5 ∧ m'.frames = { f with ip := f.ip + 5 - n } :: callers := by
      have ends : (jumpBack n).Ensures { m with frames := { f with ip := f.ip + 5 } :: callers }
          (fun _ m' => n ≤ f.ip + 5 ∧ m'.frames = { f with ip := f.ip + 5 - n } :: callers)
          fun _ _ => True := by
        rw [jumpBack,ensures_bind,ensures_frame rfl]
        by_cases reach : n ≤ f.ip + 5
        · simp [reach]
        · simp [reach]
      exact ends.apply executed
    have target : (f.ip + 5 + Chunk.offsetLimit - n) % Chunk.offsetLimit = f.ip + 5 - n := by
      have inside : f.ip + 5 ≤ chunk.code.size := inside
      rw [Nat.sub_add_comm back.1,Nat.add_mod_right,Nat.mod_eq_of_lt (by omega)]
    exact ⟨_,congrArg (fun target => [Operand.way f.ip target]) target,back.2⟩
  | _ => exact taken.elim

/-- Otherwise the machine goes on right behind the instruction. -/
theorem step_passed (here : m.At chunk f callers) (found : chunk.instr? f.ip = some i)
    (passed : ¬i.Taken m) (noCall : ∀ n, i ≠ .call n) (noReturn : i ≠ .ret)
    (run : step host m = .ok () m') :
    m'.frames = { f with ip := f.ip + i.size } :: callers := by
  have executed := step_at_ok here found run
  by_cases stays : i.Stays
  · exact stays_execute host stays _ _ _ executed
  · cases i with
    | jump => exact absurd trivial passed
    | jumpBack => exact absurd trivial passed
    | jumpIf condition n =>
      obtain ⟨b,back,frames⟩ := jumpIf_ok executed
      have other : b ≠ condition := by
        rintro rfl
        exact passed back
      rwa [if_neg other] at frames
    | call n => exact absurd rfl (noCall n)
    | ret => exact absurd rfl noReturn
    | _ => exact absurd trivial stays

end Action

namespace Chunk

variable {chunk : Chunk} {offset stop : Nat} {code : List Instr} {i : Instr}

/-- At an offset the listing and the machine make the same of the bytes: a row has the operands that the
machine reads, and as many bytes as it consumes. -/
structure AgreesAt (chunk : Chunk) (offset : Nat) (i : Instr) : Prop where
  shows : (chunk.row offset).1 = (decimal offset).padRight 5 ++ chunk.lineListing offset ++
    ascii i.title ++ (i.shown offset).flatMap chunk.operandText
  read : (Cursor.instr chunk.code).run offset = some (i,offset + (chunk.row offset).2)
  consumed : ∀ m f callers, Machine.At m chunk f callers → f.ip = offset → Action.fetch m =
    .ok i { m with frames := { f with ip := offset + (chunk.row offset).2 } :: callers }
  passed : ∀ host m f callers m', Machine.At m chunk f callers → f.ip = offset →
    Action.step host m = .ok () m' → ¬i.Taken m → (∀ n, i ≠ .call n) → i ≠ .ret →
      m'.frames = { f with ip := offset + (chunk.row offset).2 } :: callers
  taken : ∀ host m f callers m', Machine.At m chunk f callers → f.ip = offset →
    Action.step host m = .ok () m' → i.Taken m →
      ∃ target, i.shown offset = [.way offset target] ∧
        m'.frames = { f with ip := target } :: callers

theorem agreesAt_of_found (found : chunk.instr? offset = some i)
    (inside : offset + i.size ≤ chunk.code.size)
    (room : chunk.code.size + 4294967296 ≤ offsetLimit) : chunk.AgreesAt offset i := by
  have size : (chunk.row offset).2 = i.size := by rw [row_of_found found]
  constructor
  case shows => rw [row_of_found found]
  case read => rw [Cursor.run_instr,size,← instr?,found,Option.map_some]
  case consumed =>
    rintro m f callers here rfl
    rw [size]
    exact Action.fetch_at here found
  case passed =>
    rintro host m f callers m' here rfl run notTaken noCall noReturn
    rw [size]
    exact Action.step_passed here found notTaken noCall noReturn run
  case taken =>
    rintro host m f callers m' here rfl run taken
    exact Action.step_taken here found inside room taken run

theorem Reads.le (reads : chunk.Reads offset code stop) : offset ≤ stop := by
  induction reads with
  | nil => exact le_rfl
  | cons _ _ ih => exact (Nat.le_add_right _ _).trans ih

/-- What is read, and where. -/
theorem Reads.found (reads : chunk.Reads offset code stop) :
    ∀ p ∈ (Instr.starts offset code).zip code,
      chunk.instr? p.1 = some p.2 ∧ p.1 + p.2.size ≤ stop := by
  induction reads with
  | nil => simp [Instr.starts]
  | cons found more ih => exact List.forall_mem_cons.mpr ⟨⟨found,more.le⟩,ih⟩

theorem Reads.visits (reads : chunk.Reads offset code chunk.code.size) :
    chunk.Visits offset (Instr.starts offset code) chunk.code.size := by
  generalize same : chunk.code.size = stop at reads
  induction reads with
  | nil => exact .stop same.le
  | @cons offset stop i rest found more ih =>
    have size : (chunk.row offset).2 = i.size := by rw [row_of_found found]
    refine .next (instr?_lt found) ?_
    rw [size]
    exact ih same

/-- A listing of the code goes through these instructions, one row each, and ends where the code ends. -/
structure Listed (chunk : Chunk) (code : List Instr) : Prop where
  each : ∀ p ∈ (Instr.starts 0 code).zip code, chunk.AgreesAt p.1 p.2
  visits : chunk.Visits 0 (Instr.starts 0 code) chunk.code.size
  listing : chunk.listing = (Instr.starts 0 code).flatMap fun offset =>
    (chunk.row offset).1 ++ [Byte.lineFeed]

theorem Reads.listed (reads : chunk.Reads 0 code chunk.code.size)
    (room : chunk.code.size + 4294967296 ≤ offsetLimit) : chunk.Listed code where
  each p member := agreesAt_of_found (reads.found p member).1 (reads.found p member).2 room
  visits := reads.visits
  listing := by rw [Chunk.listing,reads.visits.rows,List.flatMap_map]

end Chunk

/-- The constant that an operand refers to is in the pool. -/
def Operand.Inside (chunk : Chunk) : Operand → Prop
  | constant index | field index => index < chunk.constants.length
  | _ => True

namespace Chunk

/-- The row at an offset is made of bytes, a line and constants that the chunk has. -/
def Covers (chunk : Chunk) (offset : Nat) : Prop :=
  ∃ title operands size, chunk.described? offset = some (title,operands,size) ∧
    offset + size ≤ chunk.code.size ∧ offset < chunk.lines.size ∧
      ∀ operand ∈ operands, operand.Inside chunk

variable {chunk : Chunk} {offset : Nat} {i : Instr}

theorem lt_of_names {n : Nat} (names : Instr.Names chunk.constants n) : n < chunk.constants.length := by
  obtain ⟨text,known⟩ := names
  exact (List.getElem?_eq_some_iff.mp known).1

theorem Refers.inside (refers : chunk.Refers offset i) :
    ∀ operand ∈ i.shown offset, operand.Inside chunk := by
  cases i with
  | loadConstant n =>
    refine List.forall_mem_singleton.mpr ?_
    rcases refers with ⟨value,known⟩ | names
    · exact (List.getElem?_eq_some_iff.mp known).1
    · exact lt_of_names names
  | defineGlobal n => exact List.forall_mem_singleton.mpr (lt_of_names refers)
  | getGlobal n => exact List.forall_mem_singleton.mpr (lt_of_names refers)
  | setGlobal n => exact List.forall_mem_singleton.mpr (lt_of_names refers)
  | getField n => exact List.forall_mem_singleton.mpr (lt_of_names refers)
  | setField n => exact List.forall_mem_singleton.mpr (lt_of_names refers)
  | closure n captures =>
    obtain ⟨⟨inner,known,-⟩,-⟩ := refers
    refine List.forall_mem_cons.mpr ⟨(List.getElem?_eq_some_iff.mp known).1,?_⟩
    exact List.forall_mem_map.mpr fun _ _ => trivial
  | createStruct n fields =>
    refine List.forall_mem_cons.mpr ⟨lt_of_names refers.1,?_⟩
    exact List.forall_mem_map.mpr fun f member => lt_of_names (refers.2 f member)
  | _ => simp [Instr.shown,Operand.Inside]

theorem Reads.covers {edges : Set Nat} {points : Nat → Point} (charted : chunk.Charted edges points)
    {code : List Instr} (reads : chunk.Reads offset code chunk.code.size)
    (boundary : chunk.Boundary offset) : ∀ place ∈ Instr.starts offset code, chunk.Covers place := by
  generalize same : chunk.code.size = stop at reads
  induction reads with
  | nil => simp [Instr.starts]
  | @cons offset stop i rest found more ih =>
    refine List.forall_mem_cons.mpr ⟨?_,ih (boundary.next found) same⟩
    refine ⟨i.title,i.shown offset,i.size,?_,same ▸ more.le,?_,(charted.refers boundary found).inside⟩
    · rw [described?_eq,found,Option.map_some]
    · rw [charted.lined]
      exact instr?_lt found

end Chunk

/-- The code of a compiled script and of every function in it is what was emitted for it. -/
theorem Source.compile_assembled {source : Source} {chunk inner : Chunk}
    (compiled : source.compile = .ok chunk) (within : inner.Within chunk) :
    ∃ emitted, inner.Assembled emitted := by
  obtain ⟨program,-,accepted⟩ := compile_eq_ok.mp compiled
  obtain ⟨code,t,run,rfl⟩ := Compile.tree_eq_ok.mp accepted
  obtain ⟨-,-,front,line,rfl,flows⟩ :=
    Compile.scriptFlows source program _ _ _ run Compile.regular_initial rfl
  obtain ⟨-,-,new,-,made,constants,closed⟩ :=
    Compile.script_assembles source program _ _ _ run Compile.regular_initial
  have plain : ∀ item ∈ Compile.Fragment.one line .ret,
      ∃ i : Instr, item.step = .instr i ∧ i.Fits := by
    simp [Compile.Fragment.one,Instr.Fits]
  cases within with
  | self => exact ⟨_,flows.assembled rfl plain⟩
  | nested deeper member =>
    rcases constants _ member with impossible | known
    · exact absurd impossible List.not_mem_nil
    · have each := (List.forall₂_and_left _ _).mp (made.flip.imp fun _ _ => And.symm)
      exact each.1 inner (Compile.mem_of_within closed deeper known)

namespace Chunk

/-- Of any whole instructions a listing shows what the machine reads and where it goes on. So a listing
of compiled code goes from one emitted instruction to the next and stays within the chunk. Code takes
less than 64 bits can count, even with the largest distance added. -/
theorem codecs_agree :
    (∀ (chunk : Chunk) (code : List Instr), chunk.Reads 0 code chunk.code.size →
      chunk.code.size + 4294967296 ≤ offsetLimit → chunk.Listed code) ∧
    ∀ (source : Source) (chunk inner : Chunk), source.compile = .ok chunk → inner.Within chunk →
      inner.code.size + 4294967296 ≤ offsetLimit →
        ∃ emitted, inner.Assembled emitted ∧ inner.Listed (emitted.map Instr.stored) ∧
          inner.Visits 0 (Instr.starts 0 emitted) inner.code.size ∧
          ∀ offset ∈ Instr.starts 0 emitted, inner.Covers offset := by
  refine ⟨fun chunk code reads room => reads.listed room,fun source chunk inner compiled within room => ?_⟩
  obtain ⟨emitted,assembled⟩ := Source.compile_assembled compiled within
  have listed := assembled.read.listed room
  refine ⟨emitted,assembled,listed,?_,?_⟩
  · rw [← Instr.starts_stored]
    exact listed.visits
  · rw [← Instr.starts_stored]
    intro offset member
    obtain ⟨edges,points,charted⟩ := ((Source.compile_sound compiled).1.within within).charted
    exact assembled.read.covers charted .start offset member

/-- A function of one parameter with this much code. -/
def isFunctionOf (size : Nat) : Constant Chunk → Bool
  | .function inner => inner.parameterCount = 1 ∧ inner.code.size = size
  | _ => false

/-- A function with a loop that is left, a closure in it and a struct. -/
theorem codecs_agree_nested : ∃ (source : Source) (chunk inner : Chunk) (emitted : List Instr),
    source.compile = .ok chunk ∧ inner.Within chunk ∧ inner.code.size = 49 ∧
      inner.Assembled emitted ∧ inner.Listed (emitted.map Instr.stored) ∧
      inner.Visits 0 (Instr.starts 0 emitted) inner.code.size ∧
      ∀ offset ∈ Instr.starts 0 emitted, inner.Covers offset := by
  let source := Source.ofText (ascii
    "fun f(x) \x7b while (x) \x7b var y = fun() \x7b return x; \x7d; break; \x7d struct S \x7b a, b \x7d \x7d f(true);")
  have computed : (source.compile.toOption.any fun chunk =>
      chunk.constants.any (isFunctionOf 49)) = true := by decide +kernel
  obtain ⟨chunk,accepted,holds⟩ := (Option.any_eq_true _ _).mp computed
  have compiled := toOption_eq_some.mp accepted
  obtain ⟨c,member,known⟩ := List.any_eq_true.mp holds
  cases c with
  | function inner =>
    have within : inner.Within chunk := .nested (.self inner) member
    obtain ⟨-,size⟩ := of_decide_eq_true known
    have room : inner.code.size + 4294967296 ≤ offsetLimit := by rw [size]; decide
    obtain ⟨emitted,assembled,-,visits,covers⟩ := codecs_agree.2 source chunk inner compiled within room
    have listed := codecs_agree.1 inner (emitted.map Instr.stored) assembled.read room
    exact ⟨source,chunk,inner,emitted,compiled,within,size,assembled,listed,visits,covers⟩
  | number value => contradiction
  | string text => contradiction

end Chunk

end ScriptMachine
