import Mathlib
import ScriptMachine.Session
import ScriptMachine.Proofs.Rooted

/-! Captured variables from one run to the next. As long as no run fails, a closure that outlives its
run has its variables to itself. A fault ends a run with its cells open. The next run forgets them,
yet they go on standing for slots of the stack, which then belong to that run. -/
namespace ScriptMachine

namespace Machine

/-- Every open cell is listed, and its slot is on the stack. -/
def Isolated (m : Machine) : Prop :=
  ∀ h slot, m.Opens h slot → h ∈ m.openCells ∧ slot < m.stack.size

variable {m : Machine} {h : Handle} {slot : Nat}

theorem Orderly.isolated (orderly : m.Orderly) : m.Isolated :=
  fun h slot opens => ⟨orderly.celled.listed h slot opens,(orderly.inside h slot opens).2⟩

/-- Forgetting the last run closes no cell. -/
theorem opens_reset : m.reset.Opens h slot ↔ m.Opens h slot := Iff.rfl

/-- A machine is isolated after it has forgotten its last run if and only if that run has left no cell
open. -/
theorem isolated_reset : m.reset.Isolated ↔ ∀ h slot, ¬m.Opens h slot := by
  constructor
  · intro isolated h slot opens
    exact List.not_mem_nil (isolated h slot (opens_reset.mpr opens)).1
  · intro shut h slot opens
    exact absurd (opens_reset.mp opens) (shut h slot)

end Machine

/-- Whatever was done with a machine before, as long as no run has failed: it is isolated at every
stage and between two stages, also after a fault, and no cell is open when it is idle. Whether the
next run starts isolated after a fault depends on the cells that are open then. -/
theorem History.variables_isolated {host : Host} {length : Nat} {stages : Nat → Stage}
    (history : History host length stages) (respectful : host.Respectful) {t : Nat}
    (within : t ≤ length) :
    (∀ m, (stages t).Passes m → m.Isolated) ∧
    (∀ m, stages t = ⟨.idle,m⟩ → m.reset.Isolated ∧ ∀ h slot, ¬m.Opens h slot) ∧
    ∀ m, stages t = ⟨.failed,m⟩ → (m.reset.Isolated ↔ m.openCells = []) := by
  have good := history.good respectful within
  refine ⟨fun m passes => (good.passes passes).isolated,fun m stage => ?_,fun m stage => ?_⟩
  · rw [stage] at good
    have shut := Machine.Idle.shut good
    exact ⟨Machine.isolated_reset.mpr shut,shut⟩
  · rw [stage] at good
    have celled := Machine.Orderly.celled good
    rw [Machine.isolated_reset]
    constructor
    · intro shut
      refine List.eq_nil_iff_forall_not_mem.mpr fun h member => ?_
      obtain ⟨slot,opens⟩ := celled.opened h member
      exact shut h slot opens
    · exact celled.shut

/-- The middle of a run that has made a closure. -/
theorem History.variables_isolated_capturing : ∃ stages m, History .standard 3 stages ∧
    stages 3 = ⟨.running,m⟩ ∧ m.Isolated := by
  obtain ⟨stages,m,history,last,-⟩ := History.capturing
  have isolated := (history.variables_isolated Host.standard_respectful le_rfl).1 _ Stage.Passes.here
  rw [last] at isolated
  exact ⟨stages,m,history,last,isolated⟩

namespace Session

/-- What scripts write that run one after the other; a refused script writes nothing. -/
def outputs (fuel : Nat) : Session → List Bytes → List Bytes
  | _, [] => []
  | s, text :: rest =>
    match s.exec fuel text with
    | .ok (report, s) => report.output :: outputs fuel s rest
    | .error _ => [] :: outputs fuel s rest

/-- A closure that survives a failed run reads a local of the next run. -/
theorem outputs_after_fault : outputs 100 (start .standard 0 false [])
    [ascii "var g = nil; \x7b var x = \"own\"; g = fun() \x7b return x; \x7d; nil(); \x7d",
      ascii "\x7b var y = \"other\"; print g(); \x7d"] = [[], ascii "other\n"] := by
  decide +kernel

end Session

end ScriptMachine
