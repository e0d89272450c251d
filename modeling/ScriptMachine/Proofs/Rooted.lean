import Mathlib
import ScriptMachine.Proofs.Histories

/-! No handle dangles, also while a collection may come: between two instructions, inside an
instruction that allocates, and while a program is loaded. -/
namespace ScriptMachine

open ScriptMachine.Action

namespace Machine

/-- Every handle that the machine holds, or an object that its roots reach, denotes an object of the
kind that its holder expects. -/
structure Rooted (m : Machine) : Prop where
  stack : ∀ value ∈ m.stack, m.heap.Holds value
  frames : ∀ f ∈ m.frames, ∃ code captures chunk constants,
    m.heap.get? f.closure = some (.closure code captures) ∧
      m.heap.get? code = some (.function chunk constants) ∧ ∀ c ∈ captures, m.heap.IsCell c
  openCells : ∀ h ∈ m.openCells, ∃ slot, m.Opens h slot
  loading : ∀ h ∈ m.loading, ∃ chunk, m.heap.IsFunction h chunk
  result : m.heap.Holds m.result
  globals : ∀ table ∈ m.globals :: m.shelved, table.Sound m.heap
  reached : ∀ h, m.heap.Reaches m.roots h →
    ∃ o, m.heap.get? h = some o ∧ o.Valid m.heap True

variable {m m' mid : Machine} {fresh raw : Set Handle}

/-- The roots reach no more than what the machine itself holds does. -/
theorem Orderly.reaches (orderly : m.Orderly) {h : Handle} (reaches : m.heap.Reaches m.roots h) :
    m.Reaches h := by
  induction reaches with
  | @root h member =>
    by_cases held : h ∈ m.anchors
    · exact .root held
    · have framed : h ∈ m.frames.flatMap m.frameRoots := by
        simp only [anchors,roots,List.mem_append] at held member
        tauto
      obtain ⟨f,active,inside⟩ := List.mem_flatMap.mp framed
      obtain ⟨-,found,-⟩ := orderly.guards f active
      exact Heap.Reaches.next (reaches_stack (Array.mem_of_getElem? found)) inside
  | next _ member ih => exact Heap.Reaches.next ih member

theorem Orderly.rooted (orderly : m.Orderly) : m.Rooted := by
  obtain ⟨raw,intact⟩ := orderly.intact
  refine ⟨intact.stack,fun f active => ?_,orderly.celled.opened,intact.loading,intact.result,
    fun table member => ?_,fun h reaches => ?_⟩
  · obtain ⟨-,-,code,captures,here⟩ := orderly.guards f active
    obtain ⟨⟨chunk,⟨constants,there⟩,-⟩,cells⟩ := intact.valid _ _ here
    exact ⟨code,captures,chunk,constants,here,there,cells⟩
  · rcases List.mem_cons.mp member with rfl | shelf
    · exact intact.globals
    · exact intact.shelved table shelf
  · obtain ⟨o,found⟩ := intact.alive (orderly.reaches reaches)
    exact ⟨o,found,(intact.valid h o found).imp fun _ => trivial⟩

/-- A collection may come at any time. -/
theorem Orderly.collect (orderly : m.Orderly) : m.collect.Orderly := by
  obtain ⟨raw,intact⟩ := orderly.intact
  obtain ⟨still,grows⟩ := intact.collect
  exact orderly.evolve (grows.evolves (by simp)) still rfl rfl rfl

theorem Idle.orderly (idle : m.Idle) : m.Orderly where
  intact := ⟨∅,idle.intact⟩
  celled := by
    refine ⟨fun h slot opens => absurd opens (idle.shut h slot),?_,?_⟩ <;> simp [idle.openCells]
  inside h slot opens := absurd opens (idle.shut h slot)
  guards := by simp [idle.frames]

theorem Orderly.reached (orderly : m.Orderly) {f : Frame} (active : f ∈ m.frames) :
    m.Reaches f.closure :=
  reaches_stack (Array.mem_of_getElem? (orderly.guards f active).2.1)

end Machine

/-- The states of the loader: a function is listed and has the first of its constants, or the
function that is its next constant is being loaded. -/
inductive Loading : Chunk → Machine → Machine → Prop
  | partly {chunk : Chunk} {m mid m' : Machine} {h : Handle} (count : Nat)
      (allocated : allocateFunction chunk m = .ok h mid)
      (added : loadConstants h (chunk.constants.take count)
        { mid with loading := h :: mid.loading } = .ok () m') : Loading chunk m m'
  | within {chunk inner : Chunk} {m mid later m' : Machine} {h : Handle} (count : Nat)
      (allocated : allocateFunction chunk m = .ok h mid)
      (added : loadConstants h (chunk.constants.take count)
        { mid with loading := h :: mid.loading } = .ok () later)
      (next : chunk.constants[count]? = some (.function inner))
      (deeper : Loading inner later m') : Loading chunk m m'

/-- The states from one stage to the next in which a collection may come. -/
inductive Stage.Passes : Stage → Machine → Prop
  | here {s : Stage} : s.Passes s.machine
  | loading {m m' : Machine} {source : Source} {chunk : Chunk}
      (compiled : source.compile = .ok chunk)
      (loading : Loading chunk { m.reset with status := .running } m') : Stage.Passes ⟨.idle,m⟩ m'
  | fetched {m m' : Machine} {i : Instr} (read : fetch m = .ok i m') : Stage.Passes ⟨.running,m⟩ m'
  | capturing {m mid m' : Machine} {n : Nat} {list : List Capture} {function : Handle} (count : Nat)
      (read : fetch m = .ok (.closure n list) mid)
      (known : constant n mid = .ok (.object function) mid)
      (made : (do
        let closure ← allocateClosure function
        push (.object closure)
        addCaptures closure (list.take count) : Action Unit) mid = .ok () m') :
      Stage.Passes ⟨.running,m⟩ m'

section

variable {m mid m' : Machine} {fresh raw : Set Handle} {chunk : Chunk}

/-- What loading the first constants of a function comes to. -/
theorem loads_first {h : Handle} {count : Nat} (sound : chunk.Sound) (intact : m.Intact raw)
    (allocated : allocateFunction chunk m = .ok h mid)
    (added : loadConstants h (chunk.constants.take count)
      { mid with loading := h :: mid.loading } = .ok () m') :
    ∃ fresh, m.Loads fresh m' ∧ m'.Intact (insert h raw) := by
  have begun : Ensures (allocateFunction chunk) m (fun h mid =>
      m.Loads {h} { mid with loading := h :: mid.loading } ∧
      Machine.Intact (insert h raw) { mid with loading := h :: mid.loading } ∧
      Machine.Half h chunk 0 { mid with loading := h :: mid.loading }) fun _ _ => False :=
    ensures_allocateFunction sound intact fun _ _ loads started half => ⟨loads,started,half⟩
  obtain ⟨loads,started,half⟩ := begun.apply allocated
  have goesOn : Ensures (loadConstants h (chunk.constants.take count))
      { mid with loading := h :: mid.loading }
      (fun _ m' => ∃ fresh, m.Loads fresh m' ∧ m'.Intact (insert h raw)) fun _ _ => False :=
    ensures_loadConstants (chunk.constants.take count) [] (chunk.constants.drop count) h chunk
      (fun inner member => sound.nested (List.mem_of_mem_take member)) (by simp) loads started rfl
      half fun m' fresh all still _ _ => ⟨fresh,all,still⟩
  exact goesOn.apply added

theorem Loading.loads (loading : Loading chunk m m') (sound : chunk.Sound) (intact : m.Intact raw) :
    ∃ fresh still, m.Loads fresh m' ∧ m'.Intact still := by
  induction loading generalizing raw with
  | partly count allocated added =>
    obtain ⟨fresh,loads,still⟩ := loads_first sound intact allocated added
    exact ⟨fresh,_,loads,still⟩
  | within count allocated added next deeper ih =>
    obtain ⟨fresh,loads,still⟩ := loads_first sound intact allocated added
    obtain ⟨more,last,loadsToo,stillToo⟩ :=
      ih (sound.nested (List.mem_of_getElem? next)) still
    exact ⟨fresh ∪ more,last,loads.trans loadsToo,stillToo⟩

theorem Loading.idle (loading : Loading chunk m m') (idle : m.Idle) (sound : chunk.Sound) :
    m'.Orderly := by
  obtain ⟨fresh,still,loads,intact⟩ := loading.loads sound idle.intact
  have same := loads.same
  have shut (h : Handle) (slot : Nat) : ¬m'.Opens h slot := by
    intro opens
    have old := loads.outside opens (by simp) (by simp)
    exact idle.shut h slot (loads.old h old _ opens)
  refine ⟨⟨still,intact⟩,⟨fun h slot opens => absurd opens (shut h slot),?_,?_⟩,
    fun h slot opens => absurd opens (shut h slot),?_⟩
  all_goals rw [same]; simp [idle.frames,idle.openCells]

/-- A machine is in order while a closure gets its cells. -/
theorem Building.orderly {s : Scene} {n : Nat} {list part done : List Capture}
    {closure function : Handle} (poised : Poised m s (.closure n list))
    (building : Building m s closure function fresh part done m') (some : part ⊆ list) :
    m'.Orderly where
  intact := ⟨_,building.intact⟩
  celled := building.celled
  inside h slot opens := by
    have size := poised.size
    have positive := poised.pos
    rw [building.stack,Array.size_push]
    rcases building.slots h slot opens with before | ⟨c,member,isLocal,rfl⟩
    · have bounds := poised.orderly.inside h slot before
      exact ⟨bounds.1,by omega⟩
    · have bound := poised.ready.legal.2 c (some member)
      rw [if_pos isLocal] at bound
      have low : c.index ≤ s.point.height := bound
      exact ⟨by omega,by omega⟩
  guards f active := by
    rw [building.frames] at active
    obtain ⟨positive,-,found,⟨chunk,constants,known⟩,-⟩ := poised.guard active
    obtain ⟨code,captures,here,-⟩ := Machine.functionOf?_some.mp known
    refine ⟨positive,?_,code,captures,(building.kept _ (poised.reaches active)).2.trans here⟩
    have bound := (Array.getElem?_eq_some_iff.mp found).1
    rw [building.stack,Array.getElem?_push,if_neg (Nat.ne_of_lt bound)]
    exact found

theorem Poised.capturing {s : Scene} {n : Nat} {list part : List Capture} {function : Handle}
    (poised : Poised m s (.closure n list))
    (known : Action.constant n m = .ok (Value.object function) m)
    (some : part ⊆ list) : Ensures (do
      let closure ← allocateClosure function
      Action.push (.object closure)
      addCaptures closure part) m (fun _ m' => m'.Orderly) fun _ _ => True := by
  obtain ⟨nested,chunk,constants,loaded,there,reached,-⟩ := poised.nested
  obtain rfl : nested = function := by
    have same : Ensures (Action.constant n) m (fun value _ => value = .object nested)
        fun _ _ => False := (ensures_constant poised.frames poised.code loaded).mpr rfl
    simpa using (same.apply known).symm
  rw [ensures_bind]
  refine poised.ensures_allocateClosure there reached fun closure mid grows found intact => ?_
  rw [ensures_bind,ensures_push]
  refine ⟨fun _ => trivial,fun _ => ?_⟩
  refine Building.addCaptures poised part (poised.laid grows found intact ([] ++ part))
    (fun c member => poised.outside (some member)) fun m' fresh building => ?_
  exact building.orderly poised some

theorem Stage.Good.orderly {s : Stage} (good : s.Good) : s.machine.Orderly := by
  obtain ⟨_ | _ | _,m⟩ := s
  · exact Machine.Idle.orderly good
  · exact Machine.Running.orderly good
  · exact good

theorem Stage.Good.passes {s : Stage} (good : s.Good) (passes : s.Passes m') : m'.Orderly := by
  cases passes with
  | here => exact good.orderly
  | @loading m m' source chunk compiled loading =>
    exact loading.idle (Machine.Idle.reset good .running) (Source.compile_sound compiled).1
  | fetched read =>
    obtain ⟨s,i,-,-,fetched,poised⟩ := Machine.Running.fetch good
    rw [fetched] at read
    cases read
    exact poised.orderly
  | capturing count read known made =>
    obtain ⟨s,i,-,-,fetched,poised⟩ := Machine.Running.fetch good
    rw [fetched] at read
    cases read
    exact (poised.capturing known (List.take_subset count _)).apply made

/-- The closures of active frames are the same from one stage to the next. -/
theorem Stage.Good.spares {host : Host} {s s' : Stage} (good : s.Good)
    (respectful : host.Respectful) (moves : Moves host s s') (goesOn : s'.phase ≠ .idle) {f : Frame}
    (active : f ∈ s.machine.frames) :
    s'.machine.heap.get? f.closure = s.machine.heap.get? f.closure := by
  obtain ⟨-,-,code,captures,here⟩ := good.orderly.guards f active
  have reached := good.orderly.reached active
  cases moves with
  | deed deed => exact absurd rfl goesOn
  | start compiled started => simp [Machine.Idle.frames good] at active
  | step stepped =>
    obtain ⟨i,f,-,-,ensures⟩ := Machine.Running.step good respectful
    obtain ⟨fresh,-,makes⟩ := (ensures.apply stepped).turns
    exact (makes.spared _ _ _ reached here).2.trans here.symm
  | finish stepped => exact absurd rfl goesOn
  | fail stepped =>
    obtain ⟨i,f,-,-,ensures⟩ := Machine.Running.step good respectful
    have faults := ensures.stopped stepped
    exact (faults.spared _ _ _ reached here).trans here.symm

end

/-- Whatever was done with a machine before, as long as no run has failed, no handle dangles: at no
stage, nor between two stages where a collection may come, and such a collection does not change
that. The closure of an active frame stays what it is until the run is over. -/
theorem History.nothing_dangles {host : Host} {length : Nat} {stages : Nat → Stage}
    (history : History host length stages) (respectful : host.Respectful) {t : Nat}
    (within : t ≤ length) :
    (∀ m, (stages t).Passes m → m.Rooted ∧ m.collect.Rooted) ∧
    (t < length → (stages (t + 1)).phase ≠ .idle → ∀ f ∈ (stages t).machine.frames,
      (stages (t + 1)).machine.heap.get? f.closure = (stages t).machine.heap.get? f.closure) := by
  have good := history.good respectful within
  constructor
  · intro m passes
    have orderly := good.passes passes
    exact ⟨orderly.rooted,orderly.collect.rooted⟩
  · intro before goesOn f active
    exact good.spares respectful (history.moves t before) goesOn active

/-- The middle of a run that has made a closure, when the next instruction has been read. -/
theorem History.nothing_dangles_capturing : ∃ stages m i m', History .standard 3 stages ∧
    stages 3 = ⟨.running,m⟩ ∧ fetch m = .ok i m' ∧ m'.Rooted ∧ m'.collect.Rooted := by
  obtain ⟨stages,m,history,last,-⟩ := History.capturing
  have running : (stages 3).Good := history.good Host.standard_respectful le_rfl
  rw [last] at running
  obtain ⟨s,i,-,-,fetched,-⟩ := Machine.Running.fetch running
  have rooted := (history.nothing_dangles Host.standard_respectful le_rfl).1 _
    (last ▸ Stage.Passes.fetched fetched)
  exact ⟨stages,m,i,_,history,last,fetched,rooted⟩

end ScriptMachine
