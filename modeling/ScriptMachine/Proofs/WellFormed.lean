import Mathlib
import ScriptMachine.Proofs.CompiledSound

/-! Well-formed bytecode. A compiled chunk is read from its start to its final return, one whole
instruction after the other; jumps lead to instructions, operands name constants of the right kind,
no constant is there twice, and each byte has a line of the script. -/
namespace ScriptMachine

namespace Source

theorem countUpTo_le (starts : Array Nat) (offset low high : Nat) (ordered : low ≤ high) :
    countUpTo starts offset low high ≤ high := by
  fun_induction countUpTo with
  | case1 low high less middle known ih => exact ih (by omega)
  | case2 low high less middle unknown ih => exact (ih (by omega)).trans (by omega)
  | case3 low high ends => exact ordered

/-- The search does not stop before a start that counts. -/
theorem countUpTo_pos {starts : Array Nat} {offset : Nat} (first : starts.getD 0 0 ≤ offset)
    (low high : Nat) (room : 0 < high) : 0 < countUpTo starts offset low high := by
  fun_induction countUpTo with
  | case1 low high less middle known ih => exact ih room
  | case2 low high less middle unknown ih =>
    refine ih (Nat.pos_of_ne_zero fun zero => unknown ?_)
    rwa [zero]
  | case3 low high ends => omega

theorem lineCount_pos (source : Source) : 0 < source.lineCount := by
  simp [lineCount,source.lineStarts_eq]

theorem line_pos (source : Source) (offset : Nat) : 0 < source.line offset :=
  countUpTo_pos (by simp [source.lineStarts_eq]) _ _ source.lineCount_pos

theorem line_le (source : Source) (offset : Nat) : source.line offset ≤ source.lineCount :=
  countUpTo_le _ _ _ _ (Nat.zero_le _)

end Source

namespace Chunk

/-- A chunk is within itself and within every chunk around it. -/
inductive Within : Chunk → Chunk → Prop
  | self (chunk : Chunk) : Within chunk chunk
  | nested {inner middle outer : Chunk} (deeper : Within inner middle)
      (member : Constant.function middle ∈ outer.constants) : Within inner outer

/-- Reading at one offset, these instructions come one after the other up to the other offset. -/
inductive Reads (chunk : Chunk) : Nat → List Instr → Nat → Prop
  | nil (offset : Nat) : Reads chunk offset [] offset
  | cons {offset stop : Nat} {i : Instr} {rest : List Instr} (found : chunk.instr? offset = some i)
      (more : Reads chunk (offset + i.size) rest stop) : Reads chunk offset (i :: rest) stop

/-- The bytes of the chunk are those of the instructions, and they are what is read in it. -/
structure Assembled (chunk : Chunk) (emitted : List Instr) : Prop where
  written : chunk.code.toList = emitted.flatMap Instr.encode
  read : chunk.Reads 0 (emitted.map Instr.stored) chunk.code.size

/-- The offset is the first byte of an instruction. -/
def Begins (chunk : Chunk) (offset : Nat) : Prop :=
  chunk.Boundary offset ∧ ∃ i, chunk.instr? offset = some i

/-- The operands of an instruction at an offset refer to what the chunk has: a jump to the first byte
of an instruction, an index to a constant of the right kind or to a capture. -/
def Refers (chunk : Chunk) (offset : Nat) : Instr → Prop
  | .loadConstant n =>
    (∃ value, chunk.constants[n]? = some (.number value)) ∨ Instr.Names chunk.constants n
  | .defineGlobal n | .getGlobal n | .setGlobal n | .getField n | .setField n =>
    Instr.Names chunk.constants n
  | .createStruct n fields =>
    Instr.Names chunk.constants n ∧ ∀ f ∈ fields, Instr.Names chunk.constants f
  | .closure n captures =>
    (∃ inner, chunk.constants[n]? = some (.function inner) ∧
      captures.length = inner.captureCount) ∧
    ∀ c ∈ captures, c.isLocal = false → c.index < chunk.captureCount
  | .getCapture n | .setCapture n => n < chunk.captureCount
  | .jump distance | .jumpIf _ distance => chunk.Begins (offset + 5 + distance)
  | .jumpBack distance => distance ≤ offset + 5 ∧ chunk.Begins (offset + 5 - distance)
  | _ => True

structure WellFormed (source : Source) (chunk : Chunk) : Prop where
  complete : ∃ body, chunk.Reads 0 (body ++ [.ret]) chunk.code.size
  refers : ∀ offset i, chunk.Boundary offset → chunk.instr? offset = some i →
    chunk.Refers offset i
  distinct : chunk.constants.Pairwise fun a b => Compile.sameConstant a b = false
  lined : chunk.lines.size = chunk.code.size
  numbered : ∀ line ∈ chunk.lines, 1 ≤ line ∧ line ≤ source.lineCount

theorem Sound.within {inner outer : Chunk} (sound : outer.Sound) (within : inner.Within outer) :
    inner.Sound := by
  induction within with
  | self => exact sound
  | nested deeper member ih => exact ih (sound.nested member)

theorem instr?_lt {chunk : Chunk} {offset : Nat} {i : Instr}
    (found : chunk.instr? offset = some i) : offset < chunk.code.size := by
  by_contra outside
  have missing : chunk.code[offset]? = none := Array.getElem?_eq_none (by omega)
  simp [instr?,Instr.decode?,missing] at found

section

variable {chunk : Chunk} {edges : Set Nat} {points : Nat → Point}

/-- From an edge one reads on up to the final return. -/
theorem Charted.reads (charted : chunk.Charted edges points) {offset : Nat} (edge : offset ∈ edges) :
    ∃ body, chunk.Reads offset (body ++ [.ret]) chunk.code.size := by
  induction left : chunk.code.size - offset using Nat.strong_induction_on generalizing offset with
  | h left ih =>
    subst left
    obtain ⟨i,-,found,-,-,next | ⟨rfl,stop⟩⟩ := charted.whole offset edge
    · have inside := instr?_lt found
      have forward := i.size_pos
      obtain ⟨body,more⟩ := ih (chunk.code.size - (offset + i.size)) (by omega) next rfl
      exact ⟨i :: body,.cons found more⟩
    · refine ⟨[],.cons found ?_⟩
      rw [stop]
      exact .nil _

/-- Every instruction that is found by reading from the start stands at an edge. -/
theorem Charted.edge_of_boundary (charted : chunk.Charted edges points) {offset : Nat}
    (boundary : chunk.Boundary offset) {i : Instr} (found : chunk.instr? offset = some i) :
    offset ∈ edges := by
  induction boundary generalizing i with
  | start => exact charted.start
  | @next before j earlier read ih =>
    obtain ⟨k,-,same,-,-,next⟩ := charted.whole before (ih read)
    obtain rfl : j = k := Option.some_inj.mp (read.symm.trans same)
    rcases next with next | ⟨-,stop⟩
    · exact next
    · have := instr?_lt found
      omega

theorem Charted.begins (charted : chunk.Charted edges points) {offset : Nat}
    (edge : offset ∈ edges) : chunk.Begins offset := by
  obtain ⟨i,-,found,-⟩ := charted.whole offset edge
  exact ⟨charted.aligned offset edge,i,found⟩

theorem Charted.refers (charted : chunk.Charted edges points) {offset : Nat} {i : Instr}
    (boundary : chunk.Boundary offset) (found : chunk.instr? offset = some i) :
    chunk.Refers offset i := by
  obtain ⟨j,height,same,legal,leads,-⟩ :=
    charted.whole offset (charted.edge_of_boundary boundary found)
  obtain rfl : i = j := Option.some_inj.mp (found.symm.trans same)
  cases i with
  | loadConstant n =>
    obtain ⟨c,known,plain⟩ := legal
    cases c with
    | number value => exact .inl ⟨value,known⟩
    | string text => exact .inr ⟨text,known⟩
    | function inner => exact absurd rfl (plain inner)
  | closure n captures =>
    obtain ⟨⟨inner,known,count⟩,each⟩ := legal
    refine ⟨⟨inner,known,count.symm⟩,fun c member outer => ?_⟩
    simpa [outer] using each c member
  | jump distance => exact charted.begins (leads _ (by simp [Instr.targets]))
  | jumpIf condition distance => exact charted.begins (leads _ (by simp [Instr.targets]))
  | jumpBack distance => exact ⟨legal,charted.begins (leads _ (by simp [Instr.targets]))⟩
  | defineGlobal n => exact legal
  | getGlobal n => exact legal
  | setGlobal n => exact legal
  | getField n => exact legal
  | setField n => exact legal
  | getCapture n => exact legal
  | setCapture n => exact legal
  | createStruct n fields => exact legal
  | _ => trivial

end

/-- What the compiler keeps up beside the layout of the code: no constant is there twice and every
line is one of the script. -/
structure Neat (source : Source) (chunk : Chunk) : Prop where
  distinct : chunk.constants.Pairwise fun a b => Compile.sameConstant a b = false
  numbered : ∀ line ∈ chunk.lines, 1 ≤ line ∧ line ≤ source.lineCount

end Chunk

namespace Compile.Fragment

/-- What is read in a chunk from an item on is what was emitted. -/
theorem reads_back {chunk : Chunk} {f : Fragment} (whole : chunk.code = f.code) (closed : f.Closed)
    (fits : ∀ item ∈ f, ∀ i, item.step = .instr i → (∀ n, i ≠ .call n) → i.Fits)
    (front back : Fragment) (split : f = front ++ back) :
    chunk.Reads front.size (back.instrs.map Instr.stored) chunk.code.size := by
  induction back generalizing front with
  | nil =>
    rw [whole,size_code closed,split,List.append_nil]
    exact .nil _
  | cons item back ih =>
    have member : item ∈ f := by simp [split]
    obtain ⟨i,step⟩ := closed item member
    have small := fits item member i step
    obtain ⟨_,line⟩ := item
    cases step
    have stands : Instr.Stands chunk.code front.size i.encode := by
      rw [whole,split]
      exact stands_code back fun x inside => closed x (split ▸ List.mem_append_left _ inside)
    have more := ih (front ++ one line i) (by simp [split,one])
    rw [size_append,size_one,← Instr.size_stored] at more
    exact .cons (Instr.decode?_stored i small stands) more

/-- In code that flows, with some plain instructions at its end, all jumps are closed and all operands
fit, but for those of calls. -/
theorem Flows.fits {front back : Fragment} {pool : List (Constant Chunk)} {count : Nat}
    {pre mid : Point} (flows : Flows pool count none pre front mid)
    (plain : ∀ item ∈ back, ∃ i : Instr, item.step = .instr i ∧ i.Fits) :
    (front ++ back).Closed ∧ ∀ item ∈ front ++ back, ∀ i, item.step = .instr i →
      (∀ n, i ≠ .call n) → i.Fits := by
  obtain ⟨points,charted,-⟩ := flows
  have closed : back.Closed := fun item member =>
    have ⟨i,step,_⟩ := plain item member
    ⟨i,step⟩
  refine ⟨charted.closed.append closed,fun item member i step => ?_⟩
  rcases List.mem_append.mp member with inside | last
  · obtain ⟨before,behind,rfl⟩ := List.append_of_mem inside
    have passes := charted (size before) item ⟨before,behind,rfl,rfl⟩
    rw [step] at passes
    exact passes.1.fits
  · obtain ⟨j,same,fits⟩ := plain item last
    obtain rfl : i = j := by simpa [step] using same
    exact fun _ => fits

/-- So the code is read back in the chunk that is made of it. -/
theorem Flows.assembled {front back : Fragment} {pool : List (Constant Chunk)} {count : Nat}
    {pre mid : Point} {chunk : Chunk} (flows : Flows pool count none pre front mid)
    (whole : chunk.code = (front ++ back).code)
    (plain : ∀ item ∈ back, ∃ i : Instr, item.step = .instr i ∧ i.Fits) :
    chunk.Assembled (front ++ back).instrs := by
  obtain ⟨closed,fits⟩ := flows.fits plain
  exact ⟨by rw [whole]; rfl,reads_back whole closed fits [] _ (List.nil_append _).symm⟩

end Compile.Fragment

namespace Compile

/-- Every item has a line of the script. -/
def Fragment.Numbered (source : Source) (f : Fragment) : Prop :=
  ∀ item ∈ f, 1 ≤ item.line ∧ item.line ≤ source.lineCount

namespace Fragment.Numbered

variable {source : Source} {f g : Fragment}

theorem nil : Numbered source [] := by simp [Numbered]

theorem append (first : f.Numbered source) (second : g.Numbered source) :
    (f ++ g).Numbered source :=
  List.forall_mem_append.mpr ⟨first,second⟩

theorem single (offset : Nat) (step : Step) :
    Numbered source [⟨step,source.line offset⟩] := by
  simp only [Numbered,List.forall_mem_singleton]
  exact ⟨source.line_pos offset,source.line_le offset⟩

theorem one (offset : Nat) (i : Instr) : (Fragment.one (source.line offset) i).Numbered source :=
  single offset (.instr i)

theorem closeLoop (numbered : f.Numbered source) (total offset : Nat) :
    (f.closeLoop total offset).Numbered source := by
  induction f generalizing offset with
  | nil => exact nil
  | cons item rest ih =>
    obtain ⟨head,tail⟩ := List.forall_mem_cons.mp numbered
    exact List.forall_mem_cons.mpr ⟨head,ih tail _⟩

theorem discard (offset : Nat) (block : Block) :
    (Compile.discard (source.line offset) block).Numbered source := by
  intro item member
  obtain ⟨l,-,rfl⟩ := List.mem_map.mp member
  exact ⟨source.line_pos offset,source.line_le offset⟩

theorem lines (numbered : f.Numbered source) :
    ∀ line ∈ f.lines, 1 ≤ line ∧ line ≤ source.lineCount := by
  intro line member
  simp only [Fragment.lines,List.mem_toArray,List.mem_flatMap] at member
  obtain ⟨item,inside,again⟩ := member
  rw [List.eq_of_mem_replicate again]
  exact numbered item inside

end Fragment.Numbered

theorem sameConstant_comm (a b : Constant Chunk) : sameConstant a b = sameConstant b a := by
  cases a <;> cases b <;> simp [sameConstant,eq_comm]

/-- The constants of a function under construction and of the functions nested in it. -/
structure FunctionScope.Neat (source : Source) (f : FunctionScope) : Prop where
  distinct : f.constants.Pairwise fun a b => sameConstant a b = false
  nested : ∀ chunk, Constant.function chunk ∈ f.constants → ∀ inner : Chunk, inner.Within chunk →
    inner.Neat source

theorem FunctionScope.Neat.of_constants {source : Source} {f g : FunctionScope}
    (neat : f.Neat source) (same : g.constants = f.constants) : g.Neat source :=
  ⟨same ▸ neat.distinct,same ▸ neat.nested⟩

theorem FunctionScope.Neat.fresh {source : Source} (blocks : List Block) (captures : List Capture) :
    FunctionScope.Neat source ⟨blocks,captures,[]⟩ :=
  ⟨.nil,by simp⟩

structure State.Neat (source : Source) (s : State) : Prop where
  function : s.function.Neat source
  enclosing : ∀ f ∈ s.enclosing, f.Neat source

/-- A part of the compiler keeps the functions under construction neat, and what it gives has the
property. -/
def Keeps {α : Type} (source : Source) (x : Compiler α) (good : α → Prop) : Prop :=
  ∀ s a t, x s = .ok a t → s.Neat source → t.Neat source ∧ good a

section

variable {source : Source} {span : Span} {α β : Type}

theorem Keeps.bind {x : Compiler α} {k : α → Compiler β} {good : α → Prop} {fine : β → Prop}
    (first : Keeps source x good) (rest : ∀ a, good a → Keeps source (k a) fine) :
    Keeps source (x >>= k) fine := by
  intro s b t run neat
  obtain ⟨a,mid,head,tail⟩ := bind_ok run
  obtain ⟨still,holds⟩ := first s a mid head neat
  exact rest a holds mid b t tail still

theorem Keeps.skip {x : Compiler α} {k : α → Compiler β} {good : β → Prop}
    (first : Keeps source x fun _ => True) (rest : ∀ a, Keeps source (k a) good) :
    Keeps source (x >>= k) good :=
  first.bind fun a _ => rest a

theorem Keeps.pure {a : α} {good : α → Prop} (holds : good a) :
    Keeps source (Pure.pure a : Compiler α) good := by
  intro s b t run neat
  cases run
  exact ⟨neat,holds⟩

theorem Keeps.refuse {good : α → Prop} (cause : Diagnostic.Cause) (span : Span) :
    Keeps source (Compile.refuse source cause span : Compiler α) good := by
  intro s a t run
  cases run

theorem Keeps.refused {k : α → Compiler β} {good : β → Prop} {cause : Diagnostic.Cause} :
    Keeps source (Compile.refuse source cause span >>= k) good :=
  have never : Keeps source (Compile.refuse source cause span : Compiler α) fun _ => False :=
    .refuse cause span
  never.bind fun _ impossible => impossible.elim

theorem Keeps.ite {c : Prop} [Decidable c] {yes no : Compiler α} {good : α → Prop}
    (first : Keeps source yes good) (second : Keeps source no good) :
    Keeps source (if c then yes else no) good := by
  split
  · exact first
  · exact second

/-- The state may be read. -/
theorem Keeps.get {k : State → Compiler β} {good : β → Prop}
    (rest : ∀ s, s.Neat source → Keeps source (k s) good) :
    Keeps source (MonadState.get >>= k) good := by
  intro s b t run neat
  obtain ⟨_,_,got,run⟩ := bind_ok run
  cases got
  exact rest s neat s b t run neat

theorem Keeps.set {s : State} (neat : s.Neat source) :
    Keeps source (MonadStateOf.set s : Compiler PUnit) fun _ => True := by
  intro _ _ t run _
  cases run
  exact ⟨neat,trivial⟩

theorem Keeps.modifyFunction {change : FunctionScope → FunctionScope}
    (keeps : ∀ f : FunctionScope, f.Neat source → (change f).Neat source) :
    Keeps source (Compile.modifyFunction change) fun _ => True := by
  intro s _ t run neat
  cases run
  exact ⟨⟨keeps _ neat.function,neat.enclosing⟩,trivial⟩

/-- A constant is only added when none of those already there is the same. -/
theorem Keeps.constant {c : Constant Chunk}
    (nested : ∀ chunk, c = .function chunk → ∀ inner : Chunk, inner.Within chunk →
      inner.Neat source) :
    Keeps source (Compile.constant source c span) fun _ => True := by
  refine .get fun s neat => ?_
  dsimp only
  cases known : s.function.constants.findIdx? (sameConstant c) with
  | some index => exact .pure trivial
  | none =>
    have other := List.findIdx?_eq_none_iff.mp known
    refine .ite ((Keeps.modifyFunction fun f _ => ⟨?_,?_⟩).skip fun _ => .pure trivial) .refused
    · refine List.pairwise_append.mpr ⟨neat.function.distinct,List.pairwise_singleton _ _,?_⟩
      intro a old b new
      rw [List.mem_singleton.mp new,sameConstant_comm]
      exact other a old
    · intro chunk member
      rcases List.mem_append.mp member with old | new
      · exact neat.function.nested chunk old
      · exact nested chunk (List.mem_singleton.mp new).symm

theorem Keeps.name {text : Bytes} :
    Keeps source (Compile.constant source (.string text) span) fun _ => True :=
  .constant (by simp)

theorem Keeps.declare {name : Bytes} :
    Keeps source (Compile.declare source name span) fun _ => True := by
  refine .get fun s neat => ?_
  dsimp only
  cases s.function.blocks with
  | nil => exact .ite .refused (.set ⟨neat.function,neat.enclosing⟩)
  | cons block outer =>
    exact .ite .refused (.ite (.set ⟨neat.function.of_constants rfl,neat.enclosing⟩) .refused)

theorem Keeps.define {name : Bytes} (offset : Nat) :
    Keeps source (Compile.define source (source.line offset) name span) (·.Numbered source) := by
  refine .get fun s _ => ?_
  split
  · exact Keeps.name.skip fun n => .pure (.one offset _)
  · exact .pure .nil

theorem constants_capture? {f g : FunctionScope} {c : Capture} {index : Nat}
    (added : f.capture? c = some (index,g)) : g.constants = f.constants := by
  rw [FunctionScope.capture?] at added
  split at added
  · cases added
    rfl
  · split at added
    · cases added
      rfl
    · cases added

/-- Captures are added to the functions on the way, which keep their constants. -/
theorem resolveCapture_neat {name : Bytes} {f g : FunctionScope}
    {enclosing around : List FunctionScope} {index : Nat}
    (found : resolveCapture name f enclosing = .captured index g around) (inner : f.Neat source)
    (outside : ∀ e ∈ enclosing, FunctionScope.Neat source e) :
    g.Neat source ∧ ∀ e ∈ around, FunctionScope.Neat source e := by
  induction enclosing generalizing f g around index with
  | nil => simp [resolveCapture] at found
  | cons outer rest ih =>
    obtain ⟨first,others⟩ := List.forall_mem_cons.mp outside
    rw [resolveCapture] at found
    split at found
    next slot known =>
      split at found
      next place larger added =>
        cases found
        exact ⟨inner.of_constants (constants_capture? added),
          List.forall_mem_cons.mpr ⟨first.of_constants rfl,others⟩⟩
      next => contradiction
    next =>
      split at found
      next place larger beyond resolved =>
        obtain ⟨larger,beyond⟩ := ih resolved first others
        split at found
        next position larger added =>
          cases found
          exact ⟨inner.of_constants (constants_capture? added),
            List.forall_mem_cons.mpr ⟨larger,beyond⟩⟩
        next => contradiction
      next => contradiction
      next => contradiction

theorem Keeps.variableInstr {onLocal onCapture onGlobal : Nat → Instr} {name : Bytes} :
    Keeps source (Compile.variableInstr source onLocal onCapture onGlobal name span)
      fun _ => True := by
  refine .get fun s neat => ?_
  cases s.function.slot? name with
  | some slot => exact .pure trivial
  | none =>
    cases resolved : resolveCapture name s.function s.enclosing with
    | captured index function enclosing =>
      obtain ⟨inner,outside⟩ := resolveCapture_neat resolved neat.function neat.enclosing
      exact (Keeps.set ⟨inner,outside⟩).skip fun _ => .pure trivial
    | full => exact .refuse _ _
    | absent => exact Keeps.name.skip fun _ => .pure trivial

theorem Keeps.openBlock : Keeps source Compile.openBlock fun _ => True :=
  .modifyFunction fun _ neat => neat.of_constants rfl

theorem Keeps.closeBlock (offset : Nat) :
    Keeps source (Compile.closeBlock (source.line offset)) (·.Numbered source) :=
  .get fun _ _ => Keeps.skip (Keeps.modifyFunction fun _ neat => neat.of_constants rfl) fun _ =>
    .pure (Fragment.Numbered.discard offset _)

theorem Keeps.unwind (offset depth : Nat) :
    Keeps source (Compile.unwind (source.line offset) depth) (·.Numbered source) := by
  refine .get fun s _ => .pure fun item member => ?_
  obtain ⟨block,-,inside⟩ := List.mem_flatMap.mp member
  exact Fragment.Numbered.discard offset block item inside

theorem Keeps.declareAll (names : List Bytes) :
    Keeps source (Compile.declareAll source span names) fun _ => True := by
  induction names with
  | nil => exact .pure trivial
  | cons first rest ih => exact Keeps.declare.skip fun _ => ih

theorem Keeps.beginFunction {parameters : List Bytes} :
    Keeps source (Compile.beginFunction source parameters span) fun _ => True := by
  refine Keeps.skip ?_ fun _ => .declareAll parameters
  intro s _ t run neat
  cases run
  exact ⟨⟨.fresh _ _,List.forall_mem_cons.mpr ⟨neat.function,neat.enclosing⟩⟩,trivial⟩

/-- The chunk of a nested function gets the constants and the lines that its code was given. -/
theorem Keeps.endFunction {name : Bytes} {count : Nat} {body : Fragment} (offset : Nat)
    (numbered : body.Numbered source) :
    Keeps source (Compile.endFunction source (source.line offset) name count span body)
      (·.Numbered source) := by
  refine .get fun s neat => Keeps.skip (Keeps.set ⟨?_,?_⟩) fun _ =>
    (Keeps.constant ?_).skip fun _ => .pure (.one offset _)
  · cases known : s.enclosing with
    | nil => exact .fresh _ _
    | cons outer rest => exact neat.enclosing outer (by simp [known])
  · exact fun f member => neat.enclosing f (List.mem_of_mem_tail member)
  · rintro _ ⟨⟩ inner within
    cases within with
    | self =>
      exact ⟨neat.function.distinct,
        ((numbered.append (.one offset .loadNil)).append (.one offset .ret)).lines⟩
    | nested deeper member => exact neat.function.nested _ member _ deeper

theorem Keeps.checkDistance (distance : Nat) :
    Keeps source (Compile.checkDistance source distance span) fun _ => True :=
  .ite (.pure trivial) (.refuse _ _)

theorem Keeps.guarded {jumpOn : Bool} {code : Fragment} (offset : Nat)
    (numbered : code.Numbered source) :
    Keeps source (Compile.guarded source (source.line offset) jumpOn code span)
      (·.Numbered source) :=
  (Keeps.checkDistance _).skip fun _ => .pure ((Fragment.Numbered.one offset _).append numbered)

theorem Keeps.closeLoop {condition : Option Fragment} {body : Fragment} (offset : Nat)
    (test : ∀ code, condition = some code → code.Numbered source)
    (numbered : body.Numbered source) :
    Keeps source (Compile.closeLoop source (source.line offset) condition body span)
      (·.Numbered source) := by
  refine (Keeps.checkDistance _).skip fun _ => .pure (.closeLoop ?_ _ _)
  refine .append (.append ?_ numbered) (.one offset _)
  cases condition with
  | none => exact .nil
  | some code => exact (test code rfl).append (.one offset _)

theorem Keeps.fieldConstants (seen names : List Bytes) :
    Keeps source (Compile.fieldConstants source span seen names) fun _ => True := by
  induction names generalizing seen with
  | nil => exact .pure trivial
  | cons name rest ih =>
    exact .ite .refused (Keeps.name.skip fun _ => (ih _).skip fun _ => .pure trivial)

theorem Keeps.blockDepth : Keeps source Compile.blockDepth fun _ => True :=
  .get fun _ _ => .pure trivial

theorem Keeps.blockCode {loop : Option Nat} {body : List Stmt} (offset : Nat)
    (inner : Keeps source (stmts source loop body) (·.Numbered source)) :
    Keeps source (Compile.blockCode source loop (source.line offset) body) (·.Numbered source) :=
  Keeps.openBlock.skip fun _ => inner.bind fun _ first =>
    (Keeps.closeBlock offset).bind fun _ rest => .pure (first.append rest)

theorem Keeps.closureCode {name : Bytes} {parameters : List Bytes} {body : List Stmt} (offset : Nat)
    (inner : Keeps source (stmts source none body) (·.Numbered source)) :
    Keeps source (Compile.closureCode source (source.line offset) name parameters span body)
      (·.Numbered source) :=
  Keeps.beginFunction.skip fun _ => inner.bind fun _ numbered => .endFunction offset numbered

/-- By induction over the tree, each kind of expression and statement in turn. -/
theorem compiled_neat (source : Source) :
    (∀ e, Keeps source (expr source e) (·.Numbered source)) ∧
    (∀ loop sts, Keeps source (stmts source loop sts) (·.Numbered source)) ∧
    (∀ loop st, Keeps source (stmt source loop st) (·.Numbered source)) ∧
    ∀ es, Keeps source (exprs source es) (·.Numbered source) := by
  refine expr.mutual_induct source (fun e => Keeps source (expr source e) (·.Numbered source))
    (fun loop sts => Keeps source (stmts source loop sts) (·.Numbered source))
    (fun loop st => Keeps source (stmt source loop st) (·.Numbered source))
    (fun es => Keeps source (exprs source es) (·.Numbered source))
    ?number ?string ?bool ?nil ?binary ?logical ?unary ?name ?call ?assignName
    ?assignField ?assignOther ?field ?lambda ?expression ?print ?declareNil ?declare ?block
    ?function ?struct ?ret ?branch ?branchElse ?loop ?breakLoop ?breakOutside ?continueLoop
    ?continueOutside ?noExprs ?exprs ?noStmts ?stmts
  case number =>
    intro span value
    rw [expr]
    exact (Keeps.constant (by simp)).skip fun n => .pure (.one _ _)
  case string =>
    intro span text
    rw [expr]
    exact Keeps.name.skip fun n => .pure (.one _ _)
  case bool =>
    intro span value
    rw [expr]
    exact .pure (.one _ _)
  case nil =>
    intro span
    rw [expr]
    exact .pure (.one _ _)
  case binary =>
    intro span op lhs rhs left right
    rw [expr]
    exact left.bind fun a first => right.bind fun b second =>
      .pure ((first.append second).append (.one _ _))
  case logical =>
    intro span op lhs rhs left right
    rw [expr]
    exact left.bind fun a first => right.bind fun b second =>
      (Keeps.guarded span.start (.append (.one _ _) second)).bind fun c rest =>
        .pure ((first.append (.one _ _)).append rest)
  case unary =>
    intro span op operand inner
    rw [expr]
    exact inner.bind fun a value => .pure (value.append (.one _ _))
  case name =>
    intro span spelling
    rw [expr]
    exact Keeps.variableInstr.skip fun i => .pure (.one _ _)
  case call =>
    intro span callee arguments function values
    rw [expr]
    exact function.bind fun a first => values.bind fun b second =>
      .pure ((first.append second).append (.one _ _))
  case assignName =>
    intro span inner spelling value given
    rw [expr]
    exact given.bind fun a first => Keeps.variableInstr.skip fun i =>
      .pure (first.append (.one _ _))
  case assignField =>
    intro span inner object label value given target
    rw [expr]
    exact given.bind fun a first => target.bind fun b second => Keeps.name.skip fun n =>
      .pure ((first.append second).append (.one _ _))
  case assignOther =>
    intro span target value notName notField
    rw [expr]
    · exact .refuse _ _
    · exact notName
    · exact notField
  case field =>
    intro span object label target
    rw [expr]
    exact target.bind fun a first => Keeps.name.skip fun n => .pure (first.append (.one _ _))
  case lambda =>
    intro span parameters body inner
    rw [expr_lambda]
    exact .closureCode span.start inner
  case expression | print =>
    intro loop span value inner
    rw [stmt]
    exact inner.bind fun a first => .pure (first.append (.one _ _))
  case declareNil =>
    intro loop span name
    rw [stmt]
    exact Keeps.declare.skip fun _ => (Keeps.define span.start).bind fun a rest =>
      .pure (.append (.one _ _) rest)
  case declare =>
    intro loop span name value inner
    rw [stmt]
    exact inner.bind fun a first => Keeps.declare.skip fun _ =>
      (Keeps.define span.start).bind fun b rest => .pure (first.append rest)
  case block =>
    intro loop span body inner
    rw [stmt_block]
    exact .blockCode span.start inner
  case function =>
    intro loop span name parameters body inner
    rw [stmt_function]
    exact Keeps.declare.skip fun _ => (Keeps.closureCode span.start inner).bind fun a first =>
      (Keeps.define span.start).bind fun b rest => .pure (first.append rest)
  case struct =>
    intro loop span name fields
    rw [stmt]
    exact (Keeps.fieldConstants _ _).skip fun labels => Keeps.name.skip fun title =>
      Keeps.declare.skip fun _ => (Keeps.define span.start).bind fun a rest =>
        .pure (.append (.one _ _) rest)
  case ret =>
    intro loop span value inner
    rw [stmt]
    refine .get fun s _ => .ite .refused ?_
    cases value with
    | none => exact .pure (.append (.one _ _) (.one _ _))
    | some value => exact inner.bind fun a first => .pure (first.append (.one _ _))
  case branch =>
    intro loop span condition yes test inner
    rw [stmt_branch]
    exact test.bind fun a first => (Keeps.blockCode span.start inner).bind fun b body =>
      (Keeps.guarded span.start body).bind fun c whole => .pure (first.append whole)
  case branchElse =>
    intro loop span condition yes no test inner other
    rw [stmt_branchElse]
    exact test.bind fun a first => (Keeps.blockCode span.start inner).bind fun b body =>
      (Keeps.blockCode span.start other).bind fun c second => (Keeps.checkDistance _).skip fun _ =>
        (Keeps.guarded span.start (body.append (.one _ _))).bind fun d whole =>
          .pure ((first.append whole).append second)
  case loop =>
    intro loop span condition body inner test
    cases condition with
    | none =>
      rw [stmt_loop]
      exact Keeps.blockDepth.skip fun depth => (Keeps.blockCode span.start (inner depth)).bind
        fun a body => .closeLoop span.start (by simp) body
    | some condition =>
      rw [stmt_while]
      exact Keeps.blockDepth.skip fun depth => test.bind fun a check =>
        (Keeps.blockCode span.start (inner depth)).bind fun b body =>
          .closeLoop span.start (by rintro _ ⟨⟩; exact check) body
  case breakLoop | continueLoop =>
    intro span depth
    rw [stmt]
    exact (Keeps.unwind span.start depth).bind fun a rest => .pure (rest.append (.single _ _))
  case breakOutside | continueOutside =>
    intro span
    rw [stmt]
    exact .refuse _ _
  case noExprs =>
    rw [exprs]
    exact .pure .nil
  case exprs =>
    intro first rest head tail
    rw [exprs]
    exact head.bind fun a one => tail.bind fun b others => .pure (one.append others)
  case noStmts =>
    intro loop
    rw [stmts]
    exact .pure .nil
  case stmts =>
    intro loop first rest head tail
    rw [stmts]
    exact head.bind fun a one => tail.bind fun b others => .pure (one.append others)

theorem script_neat (source : Source) (program : List Stmt) :
    Keeps source (script source program) (·.Numbered source) := by
  obtain ⟨exprs,-,stmts,-⟩ := compiled_neat source
  induction program using script.induct source with
  | case1 =>
    rw [script,Nat.max_eq_left source.lineCount_pos]
    have last (i : Instr) : (Fragment.one source.lineCount i).Numbered source := by
      simp only [Fragment.Numbered,Fragment.one,List.forall_mem_singleton]
      exact ⟨source.lineCount_pos,le_rfl⟩
    exact .pure ((last .loadNil).append (last .ret))
  | case2 span value =>
    rw [script]
    exact (exprs value).bind fun a code => .pure (code.append (.one _ _))
  | case3 first rest other ih =>
    rw [script.eq_3 _ _ _ other]
    exact (stmts none first).bind fun a code => ih.bind fun b others => .pure (code.append others)

end

end Compile

theorem Source.compile_neat {source : Source} {chunk inner : Chunk}
    (compiled : source.compile = .ok chunk) (within : inner.Within chunk) : inner.Neat source := by
  obtain ⟨program,-,accepted⟩ := compile_eq_ok.mp compiled
  obtain ⟨code,t,run,rfl⟩ := Compile.tree_eq_ok.mp accepted
  obtain ⟨kept,numbered⟩ := Compile.script_neat source program _ _ _ run
    ⟨.fresh _ _,by simp [Compile.State.initial]⟩
  cases within with
  | self => exact ⟨kept.function.distinct,numbered.lines⟩
  | nested deeper member => exact kept.function.nested _ member _ deeper

/-- The compiler makes well-formed code, in a script and in every function nested in it. -/
theorem Source.wellFormed_compile {source : Source} {chunk inner : Chunk}
    (compiled : source.compile = .ok chunk) (within : inner.Within chunk) :
    inner.WellFormed source := by
  have sound := (Source.compile_sound compiled).1.within within
  have neat := Source.compile_neat compiled within
  obtain ⟨edges,points,charted⟩ := sound.charted
  exact ⟨charted.reads charted.start,fun _ _ => charted.refers,neat.distinct,charted.lined,
    neat.numbered⟩

/-- A function with one parameter. -/
def Constant.takesOne : Constant Chunk → Bool
  | .function inner => inner.parameterCount = 1
  | _ => false

/-- A loop that is left from an inner block, in a function that captures a variable. -/
theorem Source.wellFormed_compile_nested : ∃ (source : Source) (chunk inner : Chunk),
    source.compile = .ok chunk ∧ inner.Within chunk ∧ inner.parameterCount = 1 ∧
      inner.WellFormed source := by
  let source := Source.ofText (ascii
    "fun f(x) \x7b while (x) \x7b var y = fun() \x7b return x; \x7d; break; \x7d \x7d f(true);")
  have computed : (source.compile.toOption.any fun chunk =>
      chunk.constants.any Constant.takesOne) = true := by decide +kernel
  obtain ⟨chunk,accepted,holds⟩ := (Option.any_eq_true _ _).mp computed
  have compiled := toOption_eq_some.mp accepted
  obtain ⟨c,member,known⟩ := List.any_eq_true.mp holds
  cases c with
  | function inner =>
    have within : inner.Within chunk := .nested (.self inner) member
    exact ⟨source,chunk,inner,compiled,within,of_decide_eq_true known,
      Source.wellFormed_compile compiled within⟩
  | number value => contradiction
  | string text => contradiction

end ScriptMachine
