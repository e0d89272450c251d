import Mathlib
import ScriptMachine.Proofs.Execution
import ScriptMachine.Proofs.Loading

/-! Where a script begins. Its closure has just been made; as long as no closure is reached from the
globals, that one and what is left of earlier scripts can be hidden from it. -/
namespace ScriptMachine

open ScriptMachine.Action

namespace Heap

variable {heap other : Heap} {roots more : List Handle} {h r : Handle}

theorem Reaches.trans (reaches : heap.Reaches roots h) (each : ∀ r ∈ roots, heap.Reaches more r) :
    heap.Reaches more h := by
  induction reaches with
  | root member => exact each _ member
  | next _ member ih => exact .next ih member

/-- Only from an object with references is another one reached. -/
theorem Reaches.eq_or (reaches : heap.Reaches [h] r) : r = h ∨ heap.references h ≠ [] := by
  induction reaches with
  | root member => exact .inl (List.mem_singleton.mp member)
  | next _ member ih =>
    rcases ih with rfl | some
    · exact .inr (List.ne_nil_of_mem member)
    · exact .inr some

/-- What is reached is reached in another heap too, if it is the same there. -/
theorem Reaches.same (reaches : heap.Reaches roots h)
    (kept : ∀ h, other.Reaches roots h → heap.get? h = other.get? h) : other.Reaches roots h := by
  induction reaches with
  | root member => exact .root member
  | next _ member ih =>
    refine .next ih ?_
    rwa [references,← kept _ ih]

/-- The closures of a heap, and all that leads to them. -/
def closureward (heap : Heap) : Set Handle :=
  { h | ∃ k code captures, heap.Reaches [h] k ∧ heap.get? k = some (.closure code captures) }

end Heap

namespace Machine

variable {m m' : Machine} {chunk : Chunk}

/-- No closure is reached from the globals. -/
def Closureless (m : Machine) : Prop :=
  ∀ h code captures, m.heap.Reaches m.globals.handles h →
    m.heap.get? h ≠ some (.closure code captures)

/-- The start of a run leaves the globals as they are, and all that is reached. -/
theorem Idle.start_keeps (idle : m.Idle) (sound : chunk.Sound)
    (noParameters : chunk.parameterCount = 0) (run : Action.start chunk m = .ok () m') :
    m'.globals = m.globals ∧ m'.output = m.output ∧
      ∀ h, m.heap.Reaches m.globals.handles h → m'.heap.get? h = m.heap.get? h := by
  suffices ensured : Ensures (Action.start chunk) m (fun _ m' => m'.globals = m.globals ∧
      m'.output = m.output ∧ ∀ h, m.heap.Reaches m.globals.handles h →
        m'.heap.get? h = m.heap.get? h) fun _ _ => False from ensured.apply run
  rw [Action.start,ensures_bind,ensures_modify,ensures_bind]
  have ready := idle.reset .running
  refine ensures_load chunk sound ready.intact fun function mid fresh loads intact isFunction listed => ?_
  obtain ⟨constants,there⟩ := isFunction
  rw [ensures_bind,allocateClosure,ensures_bind,ensures_object there]
  refine .allocate intact (by simp) fun closure mid' grows found _ => ?_
  have thereToo := (grows.kept function (reaches_loading listed)).2.trans there
  have stack : mid'.stack = #[] := by rw [grows.same,loads.same]; rfl
  have frames : mid'.frames = [] := by rw [grows.same,loads.same]; rfl
  have globals : mid'.globals = m.globals := by rw [grows.same,loads.same]; rfl
  have output : mid'.output = m.output := by rw [grows.same,loads.same]; rfl
  rw [ensures_bind,ensures_push,stack]
  refine ⟨fun full => ?_,fun _ => ?_⟩
  · simp [stackLimit] at full
  rw [ensures_bind,ensures_modify]
  have known {n : Machine} (same : n.heap = mid'.heap) :
      n.functionOf? closure = some (chunk,constants) :=
    functionOf?_some.mpr ⟨function,#[],by rw [same,found],by rw [same,thereToo]⟩
  refine (ensures_callFirst (by rfl) (by exact frames) (known (by rfl)) noParameters).mpr ?_
  refine ⟨globals,output,fun h reaches => ?_⟩
  have reached : Machine.Reaches { m.reset with status := .running } h :=
    reaches.trans fun r member =>
      Machine.reaches_globals (m := { m.reset with status := .running }) member
  exact (grows.kept h (loads.reaches reached)).2.trans (loads.kept h reached).2

/-- At the start of a script, closures are hidden from it. -/
theorem Closureless.shuns (closureless : m.Closureless) (globals : m'.globals = m.globals)
    (kept : ∀ h, m.heap.Reaches m.globals.handles h → m'.heap.get? h = m.heap.get? h) :
    m'.Shuns m'.heap.closureward where
  taken := by
    rintro h ⟨k,code,captures,reaches,found⟩
    rcases reaches.eq_or with rfl | some
    · exact ⟨_,found,by simp⟩
    · cases here : m'.heap.get? h with
      | none => simp [Heap.references,here] at some
      | some o =>
        refine ⟨o,rfl,?_⟩
        rintro text rfl
        simp [Heap.references,here,Object.references] at some
  objects := by
    intro h outside o found
    refine ⟨?_,fun r member inside => ?_⟩
    · rintro code captures rfl
      exact outside ⟨h,code,captures,.root List.mem_cons_self,found⟩
    · obtain ⟨k,code,captures,reaches,here⟩ := inside
      refine outside ⟨k,code,captures,reaches.trans ?_,here⟩
      intro s same
      obtain rfl := List.mem_singleton.mp same
      exact .next (.root List.mem_cons_self) (by simpa [Heap.references,found] using member)
  globals := by
    rintro name _ here h rfl ⟨k,code,captures,reaches,found⟩
    have member := (Globals.mem_handles here).2 h rfl
    rw [globals] at member
    have reached : m'.heap.Reaches m.globals.handles k :=
      reaches.trans (by simpa using .root member)
    have before := reached.same kept
    exact closureless k code captures before ((kept k before).symm.trans found)

/-- The machine at the start of a script stands at its first instruction. -/
theorem Started.stands (started : m.Started chunk m') (closureless : m.Closureless)
    (globals : m'.globals = m.globals)
    (kept : ∀ h, m.heap.Reaches m.globals.handles h → m'.heap.get? h = m.heap.get? h) :
    ∃ code : Code, code.chunk = chunk ∧ code.Stands ⟨0,[],[]⟩ ⟨m'.bare,[]⟩ m' := by
  obtain ⟨closure,constants,frames,stack,function⟩ := started.entry
  have openCells : m'.openCells = [] := by
    refine List.eq_nil_iff_forall_not_mem.mpr fun h member => ?_
    obtain ⟨slot,opens⟩ := started.running.celled.opened h member
    exact started.shut h slot opens
  refine ⟨⟨closure,chunk,constants,m'.heap.closureward⟩,rfl,?_,plain_bare m',function,
    (closureless.shuns globals kept).of_eq rfl rfl,by simp,by simp [World.values],rfl⟩
  simp [Code.state,piled,bare,World.values,← frames,← stack,← openCells]

end Machine

end ScriptMachine
