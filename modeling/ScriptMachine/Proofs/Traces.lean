import Mathlib
import ScriptMachine.Proofs.Lineage
import ScriptMachine.Proofs.Tracing

/-! Stack traces. When a run fails there is an entry for each frame, the innermost first and that of the
script last: the running function at the instruction that failed, and each caller at its pending call. An
entry has the line on which that begins for which the instruction was emitted. -/
namespace ScriptMachine

open ScriptMachine.Action ScriptMachine.Compile

namespace Machine

/-- What an entry of a trace says about a frame that stands at an instruction: the name of its function, and
the line of all bytes of the instruction. The instruction was emitted for a statement or an expression of
the source, and the line is that on which this begins. -/
structure Tells (m : Machine) (source : Source) (outer chunk : Chunk) (f : Frame) (offset : Nat) (i : Instr)
    (entry : TraceEntry) : Prop where
  compiled : source.compile = .ok outer
  within : chunk.Within outer
  runs : ∃ constants, m.functionOf? f.closure = some (chunk,constants)
  boundary : chunk.Boundary offset
  found : chunk.instr? offset = some i
  name : entry.function = chunk.name
  line : ∀ k < i.size, chunk.line (offset + k) = entry.line
  begins : ∃ program node, source.parse = .ok program ∧ Stems source program chunk offset i node ∧
    entry.line = source.line node.span.start
  bounds : 1 ≤ entry.line ∧ entry.line ≤ source.lineCount

/-- A trace tells of all frames, innermost first. That one is at the given instruction, and each caller at
the call behind which it waits. The last one runs the script, others the functions of a source. -/
inductive Recounts (m : Machine) (source : Source) (outer : Chunk) :
    List Frame → Nat → Instr → List TraceEntry → Prop
  | script {f : Frame} {offset : Nat} {i : Instr} {entry : TraceEntry}
      (tells : m.Tells source outer outer f offset i entry) : Recounts m source outer [f] offset i [entry]
  | function {f g : Frame} {callers : List Frame} {offset place n : Nat} {i : Instr} {entry : TraceEntry}
      {trace : List TraceEntry} {other : Source} {whole chunk : Chunk}
      (tells : m.Tells other whole chunk f offset i entry) (behind : g.ip = place + (Instr.call n).size)
      (below : Recounts m source outer (g :: callers) place (.call n) trace) :
      Recounts m source outer (f :: g :: callers) offset i (entry :: trace)

variable {m mid m' : Machine} {source : Source} {program : List Stmt} {outer chunk : Chunk}
  {heights : Nat → Nat} {host : Host} {f : Frame} {constants : Array Value} {offset k : Nat} {i : Instr}

theorem Recounts.length {frames : List Frame} {trace : List TraceEntry}
    (recounts : m.Recounts source outer frames offset i trace) : trace.length = frames.length := by
  induction recounts with
  | script => rfl
  | function _ _ _ ih => rw [List.length_cons,List.length_cons,ih]

/-- The entry for any byte of an instruction of a source. -/
theorem tells_of_stems (compiled : source.compile = .ok outer) (parsed : source.parse = .ok program)
    (within : chunk.Within outer) (code : m.functionOf? f.closure = some (chunk,constants))
    (boundary : chunk.Boundary offset) (found : chunk.instr? offset = some i) {node : Node}
    (stems : Stems source program chunk offset i node) (inside : k < i.size) :
    m.Tells source outer chunk f offset i ⟨chunk.name,chunk.line (offset + k)⟩ := by
  rw [stems.line inside]
  exact ⟨compiled,within,⟨constants,code⟩,boundary,found,rfl,fun _ => stems.line,
    ⟨program,node,parsed,stems,rfl⟩,source.line_pos _,source.line_le _⟩

/-- The entry for any byte of an instruction of a function. -/
theorem tells_of_inner (inner : chunk.Inner) (code : m.functionOf? f.closure = some (chunk,constants))
    (boundary : chunk.Boundary offset) (found : chunk.instr? offset = some i) (inside : k < i.size) :
    ∃ other whole, m.Tells other whole chunk f offset i ⟨chunk.name,chunk.line (offset + k)⟩ := by
  obtain ⟨other,whole,middle,compiled,member,within⟩ := inner
  obtain ⟨program,-,parsed,-⟩ := Source.compile_scripted compiled
  obtain ⟨node,stems⟩ :=
    ((Source.compile_emits parsed compiled).2 middle member chunk within).stems boundary found
  have around : chunk.Within whole := .nested within member
  exact ⟨other,whole,tells_of_stems compiled parsed around code boundary found stems inside⟩

theorem Lineage.alone {top : Nat} (lineage : m.Lineage outer heights [f] top) :
    top = 1 + heights f.ip ∧ ∃ constants, m.functionOf? f.closure = some (outer,constants) := by
  cases lineage with
  | script code => exact ⟨rfl,_,code⟩
  | function below => cases below

/-- Of frames with their callers the trace tells truly, if it does so of the instruction of a lone script. -/
theorem Lineage.recounts (compiled : source.compile = .ok outer) (parsed : source.parse = .ok program)
    {frames : List Frame} {top : Nat} (lineage : m.Lineage outer heights frames top) {f : Frame}
    {callers : List Frame} (split : frames = f :: callers) {chunk : Chunk} {constants : Array Value}
    {offset k : Nat} {i : Instr} (code : m.functionOf? f.closure = some (chunk,constants))
    (boundary : chunk.Boundary offset) (found : chunk.instr? offset = some i) (inside : k < i.size)
    (stems : callers = [] → ∃ node, Stems source program chunk offset i node) :
    m.Recounts source outer frames offset i
      (⟨chunk.name,chunk.line (offset + k)⟩ :: callers.map m.traceEntry) := by
  induction lineage generalizing f callers chunk constants offset k i with
  | script known =>
    cases split
    cases known.symm.trans code
    obtain ⟨node,stems⟩ := stems rfl
    exact .script (tells_of_stems compiled parsed (.self _) code boundary found stems inside)
  | @function f callers _ _ _ below waits known inner ih =>
    cases split
    cases known.symm.trans code
    obtain ⟨other,whole,tells⟩ := tells_of_inner inner code boundary found inside
    cases callers with
    | nil => cases below
    | cons g callers =>
      obtain ⟨chunk',constants',place,n,code',boundary',found',behind⟩ := waits g rfl
      have entry : m.traceEntry g = ⟨chunk'.name,chunk'.line (place + 4)⟩ := by
        rw [traceEntry,code',behind]
        rfl
      rw [List.map_cons,entry]
      refine .function tells behind (ih rfl code' boundary' found' (by simp [Instr.size]) ?_)
      rintro rfl
      obtain ⟨-,_,script⟩ := below.alone
      cases code'.symm.trans script
      rcases Source.compile_stems parsed compiled boundary' found' with stems | ret | ⟨nil,-⟩
      · exact stems
      · cases ret
      · cases nil

/-- A step executes the next instruction. -/
theorem Running.executes (running : m.Running) (next : m.next? = some i) :
    ∃ mid, Action.step host m = Action.execute host i mid ∧ mid.Sized ∧ mid.stack = m.stack := by
  obtain ⟨s,j,same,frames,fetched,-⟩ := running.fetch
  obtain rfl : j = i := Option.some.inj (same.symm.trans next)
  have sized := running.sized
  refine ⟨_,run_bind_ok fetched,⟨sized.stack,?_⟩,rfl⟩
  have bases := sized.bases
  rw [frames,List.forall_mem_cons] at bases
  exact List.forall_mem_cons.mpr bases

/-- With what a script ends that has no value nothing fails: there is nothing on the stack but its
closure. -/
theorem Traced.ends_well (traced : Traced outer heights m) (frames : m.frames = [f])
    (next : m.next? = some i) (ending : i = .ret ∨ i = .loadNil ∧ heights f.ip = 0) (e : RuntimeError) :
    Action.step host m ≠ .error (.fault e) m' := by
  intro failed
  obtain ⟨mid,executes,sized,stack⟩ := traced.running.executes next
  rw [executes] at failed
  rcases ending with rfl | ⟨rfl,empty⟩
  · have admits : Admits False Action.ret mid fun _ _ => False := admits_ret
    exact ((admits sized).stopped failed).2 e rfl
  · have lineage := traced.lineage
    rw [frames] at lineage
    have size : m.stack.size = 1 := by rw [lineage.alone.1,empty]
    have pushes : Ensures (push .nil) mid (fun _ _ => True) fun _ _ => False := by
      rw [ensures_push,stack,size]
      exact ⟨by simp [stackLimit],fun _ => trivial⟩
    exact pushes.stopped failed

/-- The trace of a step that fails. -/
theorem Traced.fails (traced : Traced outer heights m) (compiled : source.compile = .ok outer)
    (parsed : source.parse = .ok program)
    (seams : ∀ offset u, ScriptSeam source program .initial offset u →
      heights offset = u.function.localCount) (respectful : host.Respectful) {e : RuntimeError}
    (failed : Action.step host m = .error (.fault e) m') :
    ∃ f callers i, m.frames = f :: callers ∧ m.next? = some i ∧
      m.Recounts source outer m.frames f.ip i e.trace := by
  obtain ⟨lends,fails⟩ := (traced.running.admits respectful).stopped failed
  obtain ⟨i,mid,reads,halts⟩ := fails e rfl
  obtain ⟨f,callers,chunk,constants,frames,code,boundary,found,-⟩ := traced.running.stands reads.next
  refine ⟨f,callers,i,frames,reads.next,?_⟩
  obtain ⟨_,_,-,-,ensures⟩ := traced.running.step respectful
  obtain ⟨⟨⟨raw,intact⟩,-⟩,-,-,-,spared⟩ := ensures.stopped failed
  -- the frames run the same functions once the step has failed
  have stays (g : Frame) (active : g ∈ m.frames) (code : Chunk × Array Value)
      (known : m.functionOf? g.closure = some code) : m'.functionOf? g.closure = some code :=
    functionOf?_lent intact lends (fun _ _ => spared _ _ _ (traced.running.reached active)) known
  have same (g : Frame) (active : g ∈ m.frames) : m'.traceEntry g = m.traceEntry g := by
    obtain ⟨chunk,constants,known,-⟩ := traced.lineage.runs active
    rw [traceEntry,traceEntry,known,stays g active _ known]
  obtain ⟨back,inside,place⟩ := halts.place
  have trace : e.trace =
      ⟨chunk.name,chunk.line (f.ip + (i.size - back - 1))⟩ :: callers.map m.traceEntry := by
    rw [reads.moved,frames,List.modifyHead_cons,List.modifyHead_cons] at place
    rw [halts.trace,Machine.trace,place,List.map_cons,
      List.map_congr_left fun g active => same g (frames ▸ List.mem_cons_of_mem f active)]
    congr 1
    rw [traceEntry,stays f (frames ▸ List.mem_cons_self) _ code]
    dsimp only
    congr 2
    omega
  rw [trace]
  refine traced.lineage.recounts compiled parsed frames code boundary found (by omega) ?_
  rintro rfl
  have lineage := traced.lineage
  rw [frames] at lineage
  obtain ⟨-,_,script⟩ := lineage.alone
  cases code.symm.trans script
  rcases Source.compile_stems parsed compiled boundary found with stems | ret | ⟨nil,u,seam,outside⟩
  · exact stems
  · exact absurd failed (traced.ends_well frames reads.next (.inl ret) e)
  · have empty : heights f.ip = 0 := (seams f.ip u seam).trans (localCount_outside outside)
    exact absurd failed (traced.ends_well frames reads.next (.inr ⟨nil,empty⟩) e)

/-- A collection removes what is half built and out of reach. -/
theorem Intact.swept {raw : Set Handle} (intact : m.Intact raw)
    (aside : ∀ h ∈ raw, ¬m.heap.Reaches m.roots h) : m.collect.Intact ∅ := by
  have collected := intact.collect.1
  refine { collected with valid := fun h o found => (collected.valid h o found).imp fun member => ?_ }
  exact absurd (Heap.reaches_of_collect found) (aside h member)

/-- When the last run is forgotten, the machine reaches no more than before. -/
theorem reaches_reset {h : Handle} (reaches : m.reset.heap.Reaches m.reset.roots h) : m.Reaches h := by
  have held : m.reset.Reaches h := Reaches.of_roots (by simp [reset]) reaches
  have fewer : m.reset.anchors ⊆ m.anchors := by
    intro k member
    simp only [anchors,reset,List.mem_append,List.filterMap_nil,List.not_mem_nil,Value.handle?,
      Option.toList_none,false_or] at member ⊢
    tauto
  exact Reaches.carry fewer (fun _ _ => rfl) held

theorem Intact.idle (intact : m.Intact ∅) (shut : ∀ h slot, ¬m.Opens h slot) : m.reset.Idle :=
  ⟨intact.reset .ready,shut,rfl,rfl⟩

theorem Faults.idle (faults : m.Faults m') (closed : m'.openCells = []) :
    m'.reset.collect.Idle ∧ (m.stack.size < stackLimit → m'.reset.Idle) := by
  obtain ⟨raw,intact,aside,whole⟩ := faults.aside
  have shut := faults.orderly.celled.shut closed
  have swept := (intact.reset .ready).swept fun h member reaches => aside h member (reaches_reset reaches)
  refine ⟨⟨swept,fun h slot opens => shut h slot (Heap.get?_of_collect opens),rfl,rfl⟩,fun room => ?_⟩
  exact Intact.idle (whole room ▸ intact) shut

/-- A run that has left no cell open is forgotten however it has ended, also by a fault. With
`Veiled.executeWith` another program can be started as on a machine that has run none. If the stack was
full, this is so once the machine has collected, since a closure that found no room there lies about
without its captures. -/
theorem executeWith_idle (compiled : source.compile = .ok outer) (idle : m.reset.Idle)
    (veiled : m.Veiled) (respectful : host.Respectful) (honest : host.Honest) (fuel : Nat)
    (closed : (m.executeWith host fuel outer).2.openCells = []) :
    (m.executeWith host fuel outer).2.reset.collect.Idle ∧
      ((m.executeWith host fuel outer).2.stack.size < stackLimit →
        (m.executeWith host fuel outer).2.reset.Idle) := by
  obtain ⟨program,heights,-,scripted,-⟩ := Source.compile_scripted compiled
  obtain ⟨begun,started,traced⟩ := Traced.start compiled idle veiled scripted
  have both {last : Machine} (idle : last.reset.Idle) :
      last.reset.collect.Idle ∧ (last.stack.size < stackLimit → last.reset.Idle) :=
    ⟨(Idle.deed idle .collect).idle,fun _ => idle⟩
  rw [executeWith_ok started] at closed ⊢
  clear started idle veiled
  induction fuel generalizing begun with
  | zero => exact both (traced.running.intact.idle (traced.running.celled.shut closed))
  | succ fuel ih =>
    cases stepped : Action.step host begun with
    | ok _ mid =>
      rw [resumeWith_ok stepped] at closed ⊢
      exact ih mid closed (traced.step scripted respectful honest stepped)
    | error stop stopped =>
      obtain ⟨_,_,-,-,ensures⟩ := traced.running.step respectful
      have ends := ensures.stopped stepped
      rw [resumeWith_error stepped] at closed ⊢
      cases stop with
      | stuck => exact ends.elim
      | finished => exact both (ends.1.idle.reset .ready)
      | fault e =>
        have faults : begun.Faults stopped := ends
        have settled := faults.idle closed
        rw [← faults.stack] at settled
        exact settled

end Machine

end ScriptMachine
