import Mathlib
import ScriptMachine.Proofs.Emission

/-! The origin of what a machine runs. Whatever instruction is found in a chunk of a compiled script was
emitted for a statement or an expression of the script, but for those with which a script ends that has no
value; and all its bytes have the line on which that begins. -/
namespace ScriptMachine

namespace Compile

variable {source : Source} {program : List Stmt} {chunk : Chunk} {emitted front back : Marked}

/-- A script without a value ends by returning nil, when no local is left. -/
inductive Ending (source : Source) (sts : List Stmt) (s : State) (front : Marked) : Marked → Prop
  | value : Ending source sts s front []
  | none {u : State} (seam : ScriptSeam source sts s (front.plain source).size u)
      (outside : u.function.blocks = []) :
      Ending source sts s front [(.instr .loadNil,none),(.instr .ret,none)]

theorem script_mirrors (source : Source) (program sts : List Stmt)
    (of : ∀ st ∈ sts, (Node.stmt st).Of program) : ∀ s f t, script source sts s = .ok f t → s.Regular →
      s.function.blocks = [] → ∃ front ending, markScript source sts s = .ok (front ++ ending) t ∧
        Marked.plain source (front ++ ending) = f ∧ (∀ place ∈ front, Signed program place) ∧
        Ending source sts s front ending ∧
        ∀ chunk ∈ t.finished, chunk ∈ s.finished ∨ Written source program chunk := by
  obtain ⟨exprs,-,stmts,-⟩ := compiled_mirrors source program
  induction sts using script.induct source with
  | case1 =>
    intro s f t run regular outside
    cases run
    exact ⟨[],_,rfl,rfl,by simp,.none .here outside,fun chunk member => .inl member⟩
  | case2 span value =>
    intro s f t run regular outside
    have here := of _ List.mem_cons_self
    rw [script] at run
    obtain ⟨a,_,compiled,run⟩ := bind_ok run
    cases run
    obtain ⟨-,⟨code,marked,marks⟩,written⟩ := exprs value (here.child (by simp [Node.children])) s a t
      compiled regular
    have returns : Marks source program (.one (source.line span.start) .ret)
        (mark (.stmt (.expression span value)) .ret) := .mark here (by rfl) _
    have whole := marks.append returns
    refine ⟨_,[],?_,?_,whole.each,.value,written⟩
    · rw [markScript,bind_of_ok marked,List.append_nil]
      rfl
    · rw [List.append_nil,whole.plain]
  | case3 first rest other ih =>
    intro s f t run regular outside
    obtain ⟨here,others⟩ := List.forall_mem_cons.mp of
    rw [script.eq_3 _ _ _ other] at run
    obtain ⟨a,mid,compiled,run⟩ := bind_ok run
    obtain ⟨b,_,more,run⟩ := bind_ok run
    cases run
    have flowing := (compiled_flows source).2.2.1 none first s a mid compiled regular (by simp [Within])
    obtain ⟨kept,⟨code,marked,marks⟩,written⟩ := stmts none first here s a mid compiled regular
    obtain ⟨front,ending,markedToo,plain,each,ends,writtenToo⟩ := ih others mid b t more kept
      (blocks_outside flowing.grown.function outside)
    refine ⟨code ++ front,ending,?_,?_,List.forall_mem_append.mpr ⟨marks.each,each⟩,?_,?_⟩
    · rw [markScript,bind_of_ok marked,bind_of_ok markedToo,List.append_assoc]
      · rfl
      · exact other
    · rw [List.append_assoc,plain_append,marks.plain,plain]
    · cases ends with
      | value => exact .value
      | none seam outside =>
        refine .none ?_ outside
        rw [plain_append,marks.plain,Fragment.size_append]
        exact .rest (fun span value same none => other span value same none) compiled seam
    · intro chunk member
      rcases writtenToo chunk member with early | late
      · exact written chunk early
      · exact .inr late

theorem Writes.code (writes : Writes source program chunk emitted) :
    chunk.code = (emitted.plain source).code := by
  cases writes <;> rfl

theorem Writes.lines (writes : Writes source program chunk emitted) :
    chunk.lines = (emitted.plain source).lines := by
  cases writes <;> rfl

/-- The instruction behind some code is the next one that was emitted. -/
theorem Bears.next (bears : Bears source program chunk (front ++ back)) {i : Instr}
    (found : chunk.instr? (front.plain source).size = some i) :
    ∃ j node rest, back = (.instr j,node) :: rest ∧ j.stored = i := by
  have split : Marked.plain source (front ++ back) = front.plain source ++ back.plain source :=
    plain_append front back
  have reads := Fragment.reads_back bears.writes.code bears.closed bears.fits _ _ split
  cases back with
  | nil =>
    have inside := Chunk.instr?_lt found
    rw [bears.writes.code,Fragment.size_code bears.closed,List.append_nil] at inside
    exact absurd inside (Nat.lt_irrefl _)
  | cons place rest =>
    obtain ⟨step,node⟩ := place
    have first : (⟨step,markLine source node⟩ : Item) ∈
        Marked.plain source (front ++ (step,node) :: rest) := by
      simp [Marked.plain]
    obtain ⟨j,rfl⟩ : ∃ j, step = .instr j := bears.closed _ first
    cases reads with
    | cons here more => exact ⟨j,node,rest,rfl,Option.some_inj.mp (here.symm.trans found)⟩

/-- Every instruction of the chunk was emitted. -/
theorem Bears.found (bears : Bears source program chunk emitted) {offset : Nat} {i : Instr}
    (boundary : chunk.Boundary offset) (found : chunk.instr? offset = some i) :
    ∃ (front : Marked) (j : Instr) (node : Option Node) (rest : Marked),
      emitted = front ++ (.instr j,node) :: rest ∧ (front.plain source).size = offset ∧ j.stored = i := by
  have edge : ∃ front back : Marked, emitted = front ++ back ∧ (front.plain source).size = offset := by
    clear found
    induction boundary with
    | start => exact ⟨[],emitted,rfl,rfl⟩
    | next earlier found ih =>
      obtain ⟨front,back,rfl,rfl⟩ := ih
      obtain ⟨j,node,rest,rfl,rfl⟩ := bears.next found
      refine ⟨front ++ [(.instr j,node)],rest,by simp,?_⟩
      rw [plain_append,Fragment.size_append,Instr.size_stored]
      rfl
  obtain ⟨front,back,rfl,rfl⟩ := edge
  obtain ⟨j,node,rest,rfl,same⟩ := bears.next found
  exact ⟨front,j,node,rest,rfl,rfl,same⟩

/-- All bytes of a step have the same line. -/
theorem Bears.line {step : Step} {node : Option Node} {rest : Marked}
    (bears : Bears source program chunk (front ++ (step,node) :: rest)) {k : Nat} (inside : k < step.size) :
    chunk.line ((front.plain source).size + k) = markLine source node := by
  have split : Marked.plain source (front ++ (step,node) :: rest) =
      front.plain source ++ ⟨step,markLine source node⟩ :: rest.plain source := plain_append front _
  have before : (front.plain source).lines.toList.length = (front.plain source).size := by
    rw [Array.length_toList,Fragment.size_lines]
  have lines : chunk.lines.toList = (front.plain source).lines.toList ++
      (List.replicate step.size (markLine source node) ++ (rest.plain source).lines.toList) := by
    rw [bears.writes.lines,split]
    simp [Fragment.lines]
  rw [Chunk.line,Array.getD_eq_getD_getElem?,← Array.getElem?_toList,lines,← before,
    List.getElem?_append_right (Nat.le_add_right _ _),Nat.add_sub_cancel_left,
    List.getElem?_append_left (by simpa using inside),List.getElem?_replicate_of_lt inside]
  rfl

/-- The instruction at the offset was emitted for this statement or expression. -/
def Stems (source : Source) (program : List Stmt) (chunk : Chunk) (offset : Nat) (i : Instr)
    (node : Node) : Prop :=
  ∃ (front : Marked) (j : Instr) (rest : Marked),
    Bears source program chunk (front ++ (.instr j,some node) :: rest) ∧
      (front.plain source).size = offset ∧ j.stored = i ∧ node.Of program

/-- So all its bytes have the line on which that begins. -/
theorem Stems.line {offset : Nat} {i : Instr} {node : Node} (stems : Stems source program chunk offset i node)
    {k : Nat} (inside : k < i.size) : chunk.line (offset + k) = source.line node.span.start := by
  obtain ⟨front,j,rest,bears,rfl,rfl,-⟩ := stems
  rw [Instr.size_stored] at inside
  exact bears.line inside

theorem Written.stems (written : Written source program chunk) {offset : Nat} {i : Instr}
    (boundary : chunk.Boundary offset) (found : chunk.instr? offset = some i) :
    ∃ node, Stems source program chunk offset i node := by
  obtain ⟨emitted,bears,each⟩ := written
  obtain ⟨front,j,mark,rest,rfl,size,same⟩ := bears.found boundary found
  obtain ⟨node,rfl,of⟩ := each (.instr j,mark) (by simp)
  exact ⟨node,front,j,rest,bears,size,same,of⟩

end Compile

open Compile

/-- The script and each function of it have been emitted. -/
theorem Source.compile_emits {source : Source} {program : List Stmt} {outer : Chunk}
    (parsed : source.parse = .ok program) (compiled : source.compile = .ok outer) :
    (∃ front ending, Bears source program outer (front ++ ending) ∧
      (∀ place ∈ front, Signed program place) ∧ Ending source program .initial front ending) ∧
    ∀ middle, .function middle ∈ outer.constants → ∀ inner : Chunk, inner.Within middle →
      Written source program inner := by
  rw [compile_parsed parsed] at compiled
  obtain ⟨code,t,run,rfl⟩ := tree_eq_ok.mp compiled
  obtain ⟨front,ending,marked,plain,each,ends,written⟩ := script_mirrors source program program
    (fun st member => .top member) _ _ _ run regular_initial rfl
  obtain ⟨-,-,before,line,same,flows⟩ := scriptFlows source program _ _ _ run regular_initial rfl
  obtain ⟨-,-,new,finished,-,constants,closed⟩ := script_lists source program _ _ _ run regular_initial
  obtain rfl : t.finished = new := finished
  have simple : ∀ item ∈ Fragment.one line .ret, ∃ i : Instr, item.step = .instr i ∧ i.Fits := by
    simp [Fragment.one,Instr.Fits]
  obtain ⟨whole,fits⟩ := flows.fits simple
  rw [← same,← plain] at whole fits
  have writes := Writes.script marked
  rw [plain] at writes
  refine ⟨⟨front,ending,⟨writes,whole,fits⟩,each,ends⟩,fun middle member inner within => ?_⟩
  have known : middle ∈ t.finished := (constants middle member).resolve_left List.not_mem_nil
  exact (written inner (mem_of_within closed within known)).resolve_left List.not_mem_nil

/-- What a script does for none of its statements is to return nil at its end. -/
theorem Source.compile_stems {source : Source} {program : List Stmt} {outer : Chunk}
    (parsed : source.parse = .ok program) (compiled : source.compile = .ok outer) {offset : Nat} {i : Instr}
    (boundary : outer.Boundary offset) (found : outer.instr? offset = some i) :
    (∃ node, Stems source program outer offset i node) ∨ i = .ret ∨ i = .loadNil ∧
      ∃ u, ScriptSeam source program .initial offset u ∧ u.function.blocks = [] := by
  obtain ⟨⟨front,ending,bears,each,ends⟩,-⟩ := compile_emits parsed compiled
  obtain ⟨before,j,mark,rest,split,rfl,rfl⟩ := bears.found boundary found
  -- behind the front there is what a script without a value ends with
  have behind (more : Marked) (place : before = front ++ more)
      (last : ending = more ++ (.instr j,mark) :: rest) : j.stored = .ret ∨ j.stored = .loadNil ∧
        ∃ u, ScriptSeam source program .initial (before.plain source).size u ∧ u.function.blocks = [] := by
    cases ends with
    | value => simp at last
    | none seam outside =>
      rcases more with _ | ⟨place,_ | ⟨other,more⟩⟩
      · cases last
        rw [List.append_nil] at place
        exact .inr ⟨rfl,_,place ▸ seam,outside⟩
      · cases last
        exact .inl rfl
      · simp at last
  rcases List.append_eq_append_iff.mp split with ⟨more,place,last⟩ | ⟨more,place,last⟩
  · exact .inr (behind more place last)
  · cases more with
    | nil => exact .inr (behind [] (by rw [place]; simp) last.symm)
    | cons first more =>
      obtain ⟨rfl,-⟩ := List.cons_eq_cons.mp last
      obtain ⟨node,rfl,of⟩ := each (.instr j,mark) (by simp [place])
      exact .inl ⟨node,before,j,rest,split ▸ bears,rfl,rfl,of⟩

namespace Chunk

variable {inner chunk middle : Chunk}

theorem Within.inside (within : chunk.Within middle) (member : .function inner ∈ chunk.constants) :
    inner.Within middle := by
  induction within with
  | self => exact .nested (.self _) member
  | nested _ known ih => exact .nested ih known

/-- The chunk is that of a function of a compiled script, not of the script itself. -/
def Inner (chunk : Chunk) : Prop :=
  ∃ source outer middle, Source.compile source = .ok outer ∧ .function middle ∈ outer.constants ∧
    chunk.Within middle

theorem Inner.inside (known : chunk.Inner) (member : .function inner ∈ chunk.constants) : inner.Inner := by
  obtain ⟨source,outer,middle,compiled,around,within⟩ := known
  exact ⟨source,outer,middle,compiled,around,within.inside member⟩

end Chunk

end ScriptMachine
