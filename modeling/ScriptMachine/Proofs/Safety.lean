import Mathlib
import ScriptMachine.Proofs.Histories

/-! Compiled programs never get stuck. Between any two instructions of any run the machine has all
that the next instruction needs. -/
namespace ScriptMachine

open ScriptMachine.Action

namespace Machine

/-- The constant is a string that is there. -/
def Names (m : Machine) (constants : Array Value) (n : Nat) : Prop :=
  ∃ h, constants[n]? = some (.object h) ∧ m.heap.IsString h

/-- Every constant, slot and capture that an instruction of the frame refers to exists, and it is of
the kind that the instruction needs. -/
def Supplies (m : Machine) (f : Frame) (constants : Array Value) (captures : Array Handle) :
    Instr → Prop
  | .loadConstant n => ∃ value, constants[n]? = some value ∧ m.heap.Holds value
  | .getLocal n | .setLocal n => f.base + n < m.stack.size
  | .defineGlobal n | .getGlobal n | .setGlobal n | .getField n | .setField n => m.Names constants n
  | .getCapture n | .setCapture n => ∃ cell, captures[n]? = some cell ∧ m.heap.IsCell cell
  | .closure n list => (∃ h chunk, constants[n]? = some (.object h) ∧ m.heap.IsFunction h chunk ∧
      chunk.captureCount = list.length) ∧
      ∀ c ∈ list, if c.isLocal then f.base + c.index ≤ m.stack.size
        else ∃ cell, captures[c.index]? = some cell ∧ m.heap.IsCell cell
  | .createStruct n fields => m.Names constants n ∧ ∀ k ∈ fields, m.Names constants k
  | .jumpBack distance => distance ≤ f.ip + 5
  | _ => True

/-- What the machine relies on between two instructions. The instruction pointer of each frame stands
at an instruction of its chunk, and its closure lies below its values; open cells have slots on the
stack; the running frame has as many values as its instruction takes, and all its operands. -/
structure Checked (m : Machine) : Prop where
  frames : ∀ f ∈ m.frames, 1 ≤ f.base ∧ f.base ≤ m.stack.size ∧
    m.stack[f.base - 1]? = some (.object f.closure) ∧
    ∃ chunk constants i, m.functionOf? f.closure = some (chunk,constants) ∧
      chunk.Boundary f.ip ∧ chunk.instr? f.ip = some i
  cells : ∀ h ∈ m.openCells, ∃ slot < m.stack.size, m.Opens h slot
  next : ∃ f callers code captures chunk constants i, m.frames = f :: callers ∧
    m.heap.get? f.closure = some (.closure code captures) ∧
    m.heap.get? code = some (.function chunk constants) ∧ chunk.instr? f.ip = some i ∧
    f.base + i.takes ≤ m.stack.size ∧ m.Supplies f constants captures i

variable {m m' : Machine} {host : Host}

/-- All frames stand at instructions. -/
theorem Stacked.boundary {frames : List Frame} {top : Nat} {cells : Set Nat}
    (stacked : m.Stacked frames top cells) (small : top < 4294967296) {f : Frame}
    (member : f ∈ frames) : ∃ chunk constants i, m.functionOf? f.closure = some (chunk,constants) ∧
      chunk.Boundary f.ip ∧ chunk.instr? f.ip = some i := by
  induction stacked with
  | bottom => simp at member
  | @frame closure ip base callers cells marks chunk constants edges points below clear room running
      code charted edge allowed ih =>
    rcases List.mem_cons.mp member with rfl | caller
    · obtain ⟨i,found,-⟩ := charted.next ip edge (by omega)
      exact ⟨chunk,constants,i,code,charted.aligned ip edge,found⟩
    · exact ih (by omega) caller

end Machine

/-- The operands of an instruction that is ready are there. -/
theorem Poised.supplies {m : Machine} {s : Scene} {i : Instr} (poised : Poised m s i) {code : Handle}
    {captures : Array Handle} (found : m.heap.get? s.closure = some (.closure code captures)) :
    m.Supplies (s.frame s.ip) s.constants captures i := by
  have size := poised.size
  have legal := poised.ready.legal
  have named {n : Nat} (names : Instr.Names s.chunk.constants n) : m.Names s.constants n := by
    obtain ⟨h,text,known,here⟩ := poised.named names
    exact ⟨h,known,text,here⟩
  have captured {n : Nat} (bound : n < s.chunk.captureCount) :
      ∃ cell, captures[n]? = some cell ∧ m.heap.IsCell cell := by
    obtain ⟨function,others,here,there⟩ := Machine.functionOf?_some.mp poised.code
    rw [found] at here
    cases here
    obtain ⟨⟨chunk,⟨constants,thereToo⟩,count⟩,cells⟩ := poised.intact.valid s.closure _ found
    rw [there] at thereToo
    cases thereToo
    have inside : n < captures.size := count not_false ▸ bound
    exact ⟨_,Array.getElem?_eq_getElem inside,cells _ (Array.getElem_mem inside)⟩
  have local' {n : Nat} (bound : n < s.point.height) : s.base + n < m.stack.size := by omega
  cases i with
  | loadConstant n =>
    obtain ⟨c,known,-⟩ := legal
    obtain ⟨value,there,mirrors⟩ := poised.loaded known
    exact ⟨value,there,mirrors.holds⟩
  | getLocal n => exact local' legal
  | setLocal n => exact local' legal
  | defineGlobal n => exact named legal
  | getGlobal n => exact named legal
  | setGlobal n => exact named legal
  | getField n => exact named legal
  | setField n => exact named legal
  | getCapture n => exact captured legal
  | setCapture n => exact captured legal
  | closure n list =>
    obtain ⟨⟨chunk,known,count⟩,each⟩ := legal
    obtain ⟨value,there,h,rfl,isFunction⟩ := poised.loaded known
    refine ⟨⟨h,chunk,there,isFunction,count⟩,fun c member => ?_⟩
    have bound := each c member
    by_cases isLocal : c.isLocal
    · rw [if_pos isLocal] at bound ⊢
      change s.base + c.index ≤ m.stack.size
      omega
    · rw [if_neg isLocal] at bound ⊢
      exact captured bound
  | createStruct n fields => exact ⟨named legal.1,fun k member => named (legal.2 k member)⟩
  | jumpBack distance => exact legal
  | _ => trivial

namespace Machine

variable {m m' : Machine} {host : Host}

theorem Running.checked (running : m.Running) : m.Checked := by
  obtain ⟨s,i,next,frames,-,poised⟩ := running.fetch
  obtain ⟨cells,stacked,-⟩ := running.stacked
  have orderly := running.orderly
  have bounded := running.bounded
  refine ⟨fun f member => ?_,fun h member => ?_,?_⟩
  · obtain ⟨positive,low,found,-,-⟩ := stacked.guard member
    refine ⟨positive,low,found,stacked.boundary ?_ member⟩
    simp only [stackLimit] at bounded
    omega
  · obtain ⟨slot,opens⟩ := running.celled.opened h member
    exact ⟨slot,(orderly.inside h slot opens).2,opens⟩
  · obtain ⟨code,captures,here,there⟩ := functionOf?_some.mp poised.code
    have instr : s.chunk.instr? s.ip = some i := by
      have known : m.functionOf? s.closure = some (s.chunk,s.constants) := poised.code
      simpa [next?,frames,Scene.frame,known] using next
    have enough := poised.enough
    have size : m.stack.size = s.base + s.point.height := poised.size
    refine ⟨s.frame s.ip,s.callers,code,captures,s.chunk,s.constants,i,frames,here,there,instr,?_,
      poised.supplies here⟩
    change s.base + i.takes ≤ m.stack.size
    omega

/-- However long a run goes on, it does not get stuck. -/
theorem Running.resume (running : m.Running) (respectful : host.Respectful) (fuel : Nat) :
    (m.resumeWith host fuel).1 ≠ .stuck := by
  induction fuel generalizing m with
  | zero => simp [resumeWith]
  | succ fuel ih =>
    obtain ⟨i,f,-,-,ensures⟩ := running.step respectful
    cases run : Action.step host m with
    | ok _ m' =>
      rw [resumeWith_ok run]
      exact ih (ensures.apply run).running
    | error stop m' =>
      have ends := ensures.stopped run
      rw [resumeWith_error run]
      cases stop with
      | finished => simp [conclude]
      | fault error => simp [conclude]
      | stuck => exact ends.elim

end Machine

/-- Whatever was done with a machine before, as long as no run has failed: a compiled program can be
started, and no amount of steps gets it stuck. Before every step all that the machine relies on holds,
the step itself does not get stuck, and once the outermost function returns, the stack, the frames and
the list of open cells are empty. -/
theorem History.never_stuck {host : Host} {length : Nat} {stages : Nat → Stage}
    (history : History host length stages) (respectful : host.Respectful) {t : Nat}
    (within : t ≤ length) :
    (∀ m, stages t = ⟨.idle,m⟩ → ∀ (source : Source) chunk, source.compile = .ok chunk →
      (∃ m', Action.start chunk m = .ok () m') ∧
        ∀ fuel, (m.executeWith host fuel chunk).1 ≠ .stuck) ∧
    ∀ m, stages t = ⟨.running,m⟩ → m.Checked ∧ (∀ m', Action.step host m ≠ .error .stuck m') ∧
      ∀ m', Action.step host m = .error .finished m' →
        m'.stack = #[] ∧ m'.frames = [] ∧ m'.openCells = [] := by
  have good := history.good respectful within
  constructor
  · intro m stage source chunk compiled
    rw [stage] at good
    obtain ⟨sound,noParameters,noCaptures⟩ := Source.compile_sound compiled
    obtain ⟨m',run,started⟩ := Machine.Idle.start good sound noParameters noCaptures
    refine ⟨⟨m',run⟩,fun fuel => ?_⟩
    rw [Machine.executeWith_ok run]
    exact started.running.resume respectful fuel
  · intro m stage
    rw [stage] at good
    obtain ⟨i,f,-,-,ensures⟩ := Machine.Running.step good respectful
    rw [Ensures] at ensures
    refine ⟨Machine.Running.checked good,fun m' stuck => ?_,fun m' finished => ?_⟩
    · rw [stuck] at ensures
      exact ensures
    · rw [finished] at ensures
      exact ⟨ensures.1.stack,ensures.1.frames,ensures.1.openCells⟩

/-- The middle of a run that has made a closure. -/
theorem History.never_stuck_capturing : ∃ stages m, History .standard 3 stages ∧
    stages 3 = ⟨.running,m⟩ ∧ m.Checked ∧ ∀ m', Action.step .standard m ≠ .error .stuck m' := by
  obtain ⟨stages,m,history,last,-⟩ := History.capturing
  obtain ⟨checked,never,-⟩ :=
    (history.never_stuck Host.standard_respectful le_rfl).2 m last
  exact ⟨stages,m,history,last,checked,never⟩

end ScriptMachine
