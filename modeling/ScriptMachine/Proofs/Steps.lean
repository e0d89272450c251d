import Mathlib
import ScriptMachine.Proofs.Captures

/-! One step of a run. The running frame stands at an instruction that is ready, and executing it
leads to the next one, to a fault or to the end of the run. -/
namespace ScriptMachine

open ScriptMachine.Action

/-- The instruction that a machine is about to execute. -/
def Machine.next? (m : Machine) : Option Instr :=
  match m.frames with
  | f :: _ => (m.functionOf? f.closure).bind fun (chunk,_) => chunk.instr? f.ip
  | [] => none

variable {m m' : Machine} {s : Scene} {i : Instr} {host : Host}

/-- Every instruction that is ready can be executed. -/
theorem Poised.execute (poised : Poised m s i) (respectful : host.Respectful) :
    Safe (Action.execute host i) m m s i := by
  cases i with
  | binary op => exact poised.binary
  | unary op => exact poised.unary
  | loadConstant n => exact poised.loadConstant
  | getLocal n => exact poised.getLocal
  | setLocal n => exact poised.setLocal
  | defineGlobal n => exact poised.defineGlobal
  | getGlobal n => exact poised.getGlobal
  | setGlobal n => exact poised.setGlobal
  | getCapture n => exact poised.getCapture
  | setCapture n => exact poised.setCapture
  | getField n => exact poised.getField
  | setField n => exact poised.setField
  | loadNil => exact poised.loadNil
  | loadBool b => exact poised.loadBool
  | closure n captures => exact poised.makeClosure
  | createStruct n fields => exact poised.createStruct
  | jump n => exact poised.jump
  | jumpIf condition n => exact poised.jumpIf
  | jumpBack n => exact poised.jumpBack
  | call n => exact poised.call respectful
  | ret => exact poised.ret
  | closeCell => exact poised.closeCell
  | pop => exact poised.popValue
  | duplicate => exact poised.duplicate
  | print => exact poised.print

namespace Machine

theorem Stacked.cons {f : Frame} {callers : List Frame} {top : Nat} {cells : Set Nat}
    (stacked : m.Stacked (f :: callers) top cells) :
    ∃ lower chunk constants edges points, m.Stacked callers f.base lower ∧
      (∀ slot ∈ lower, slot + 1 < f.base) ∧ (∀ g ∈ callers, g.base < f.base) ∧
      m.stack[f.base - 1]? = some (.object f.closure) ∧
      m.functionOf? f.closure = some (chunk,constants) ∧ chunk.Charted edges points ∧
      f.ip ∈ edges ∧ top = f.base + (points f.ip).height ∧
      ∀ slot ∈ cells, slot ∈ lower ∨ f.base ≤ slot ∧ slot - f.base ∈ (points f.ip).cells := by
  cases stacked with
  | frame below clear room running code charted edge allowed =>
    refine ⟨_,_,_,_,_,below,clear,room,running,code,charted,edge,rfl,?_⟩
    rintro slot (lower | ⟨own,marked⟩)
    · exact .inl lower
    · exact .inr ⟨own,allowed marked⟩

/-- A running machine can read its next instruction. -/
theorem Running.fetch (running : m.Running) : ∃ s i, m.next? = some i ∧
    m.frames = s.frame s.ip :: s.callers ∧
    Action.fetch m = .ok i { m with frames := s.frame (s.ip + i.size) :: s.callers } ∧
    Poised { m with frames := s.frame (s.ip + i.size) :: s.callers } s i := by
  obtain ⟨intact,celled,bounded,active,cells,stacked,slots⟩ := running
  obtain ⟨f,callers,frames⟩ := List.exists_cons_of_ne_nil active
  rw [frames] at stacked
  obtain ⟨lower,chunk,constants,edges,points,below,clear,room,guard,code,charted,edge,size,marked⟩ :=
    stacked.cons
  obtain ⟨i,found,ready,leads⟩ := charted.next f.ip edge (by
    simp only [stackLimit] at bounded
    omega)
  refine ⟨⟨f.closure,f.ip,f.base,callers,chunk,constants,edges,points,lower⟩,i,?_,frames,?_,
    ⟨intact.setFrames _,celled.of_heap rfl rfl,bounded,rfl,
      below.keep (fun _ _ => rfl) fun _ _ => rfl,clear,room,guard,code,charted,ready,leads,size,
      fun h slot opens => marked slot (slots h slot opens)⟩⟩
  · simp [next?,frames,code,found]
  · have reads : Ensures Action.fetch m (fun j m' => j = i ∧
        m' = { m with frames := ⟨f.closure,f.ip + i.size,f.base⟩ :: callers }) fun _ _ => False := by
      rw [Action.fetch,ensures_bind,ensures_runningFunction frames code]
      simp [ensures_frame frames,found,frames]
    obtain ⟨_,_,run,rfl,rfl⟩ := reads.succeeds
    exact run

/-- What one step of a run comes to. -/
theorem Running.step (running : m.Running) (respectful : host.Respectful) :
    ∃ i f, m.next? = some i ∧ f ∈ m.frames.head? ∧
      (Action.step host).Ensures m (fun _ m' => m.Continues i f m') m.Ends := by
  obtain ⟨s,i,next,frames,fetched,poised⟩ := running.fetch
  refine ⟨i,s.frame s.ip,next,by simp [frames],?_⟩
  rw [Action.step,ensures_bind]
  refine .of_ok fetched ((poised.execute respectful).mono (fun _ m' continues => ?_) ?_)
  · obtain ⟨still,⟨fresh,turns,makes⟩,leads,spares⟩ := continues
    refine ⟨still,⟨fresh,⟨turns.stays,turns.closes,turns.opens,turns.closed,turns.closures⟩,
      makes.only,makes.captured,makes.spared⟩,?_,spares.low,spares.slots,spares.opens⟩
    cases leads with
    | on target aim same size => exact .on target aim (by rw [same,frames]; rfl) size
    | enter n closure call callee found same stack =>
      exact .enter n closure call callee found (by rw [same,frames]; rfl) stack
    | leave value ret top same stack => exact .leave value ret top (by rw [same,frames]; rfl) stack
  · rintro (_ | error | _) m' ends
    · exact ⟨ends.1,ends.2.stays,ends.2.closes,ends.2.opens,ends.2.closed,ends.2.closures⟩
    · exact ⟨ends.orderly,ends.aside,ends.stack,ends.opens,ends.spared⟩
    · exact ends

end Machine

end ScriptMachine
