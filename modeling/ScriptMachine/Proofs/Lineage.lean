import Mathlib
import ScriptMachine.Proofs.Diagnosing
import ScriptMachine.Proofs.Failures
import ScriptMachine.Proofs.Hiding
import ScriptMachine.Proofs.Safety
import ScriptMachine.Proofs.Tracking

/-! What the frames of a run have come from. The lowest one runs the script, and each one above it a
function of some source, which its caller has called: the caller waits behind a call instruction. -/
namespace ScriptMachine

open ScriptMachine.Action ScriptMachine.Compile

/-- The chunk of a script: it has heights, and its functions are inner ones. -/
structure Chunk.Scripted (outer : Chunk) (heights : Nat → Nat) : Prop where
  disciplined : outer.Disciplined heights
  nested : ∀ middle, .function middle ∈ outer.constants → middle.Inner

theorem Source.compile_scripted {source : Source} {outer : Chunk} (compiled : source.compile = .ok outer) :
    ∃ program heights, source.parse = .ok program ∧ outer.Scripted heights ∧ ∀ offset u,
      ScriptSeam source program .initial offset u → heights offset = u.function.localCount := by
  cases parsed : source.parse with
  | error d =>
    rw [compile_parseError parsed] at compiled
    cases compiled
  | ok program =>
    obtain ⟨heights,disciplined,seams⟩ := compile_ruled parsed compiled
    have nested (middle : Chunk) (member : .function middle ∈ outer.constants) : middle.Inner :=
      ⟨source,outer,middle,compiled,member,.self _⟩
    exact ⟨program,heights,rfl,⟨disciplined,nested⟩,fun offset u seam => (seams offset u seam).2.1⟩

namespace Machine

variable {m mid m' : Machine} {fresh : Set Handle}

/-- Loading makes no closures, and what it loads refers to none. -/
theorem Veiled.load (veiled : m.Veiled) (loads : m.Loads fresh m') (intact : m'.Intact ∅) :
    m'.Veiled := by
  have veils : m.heap.Veils m'.heap := by
    rintro h ⟨function,captures,chunk,constants,here,there,outer⟩
    have old := loads.outside here (by simp) (by simp)
    have oldToo : function ∉ fresh := loads.apart h old _ here function List.mem_cons_self
    exact ⟨function,captures,chunk,constants,loads.old h old _ here,loads.old function oldToo _ there,outer⟩
  have replaced : Machine.Veiled { m with heap := m'.heap } := by
    refine veiled.replace intact.tidy veils fun h o found => ?_
    by_cases new : h ∈ fresh
    · rcases loads.loaded h new o found with ⟨text,rfl⟩ | ⟨chunk,constants,rfl⟩
      · exact .inr (by simp [Object.references])
      · refine .inr ⟨fun r member => ?_,by simp⟩
        obtain ⟨p,value⟩ := Array.mem_iff_getElem?.mp (Object.mem_handles.mp member)
        obtain ⟨c,-,mirrors⟩ := (intact.valid h _ found).2.1 p _ value
        cases c with
        | number n => cases mirrors
        | string text =>
          obtain ⟨_,⟨⟩,there⟩ := mirrors
          exact Heap.not_isScript there (by simp)
        | function inner =>
          obtain ⟨_,⟨⟩,values,there⟩ := mirrors
          exact Heap.not_isScript there (by simp)
    · exact .inl (loads.old h new o found)
  rw [loads.same]
  exact { replaced with }

/-- The closure of the script is new, so nothing else refers to it. It may lie at the bottom of the
stack. -/
theorem Veiled.place (veiled : m.Veiled) {closure function : Handle} (grows : m.Grows {closure} mid)
    (tidy : mid.heap.Tidy) (found : mid.heap.get? closure = some (.closure function #[])) {chunk : Chunk}
    {constants : Array Value} (there : mid.heap.get? function = some (.function chunk constants)) :
    Machine.Veiled { mid with stack := #[.object closure], frames := [⟨closure,0,1⟩], loading := [] } := by
  have veils (h : Handle) (other : h ≠ closure) (script : mid.heap.IsScript h) : m.heap.IsScript h := by
    obtain ⟨code,captures,inner,values,here,thereToo,outer⟩ := script
    exact ⟨code,captures,inner,values,grows.old h other _ here,
      grows.old code (grows.apart h other _ here code List.mem_cons_self) _ thereToo,outer⟩
  have stored (table : Globals) (member : table ∈ m.globals :: m.shelved) (name : Handle) (value : Value)
      (known : table[name]? = some value) : mid.heap.Candid value := by
    rintro h rfl
    have inside := (Globals.mem_handles known).2 h rfl
    have reached : m.Reaches h := by
      rcases List.mem_cons.mp member with rfl | shelf
      · exact reaches_globals inside
      · exact reaches_shelved shelf inside
    have other := (grows.kept h reached).1
    exact fun script => veiled.tables table member name _ known h rfl (veils h other script)
  have same := grows.same
  refine ⟨tidy,fun p value low here => ?_,fun h o here r member script => ?_,?_,fun h slot opens => ?_,
    by simp⟩
  · rw [Array.getElem?_eq_none (by simpa using low)] at here
    contradiction
  · by_cases new : h = closure
    · subst new
      cases found.symm.trans here
      obtain rfl : r = function := by simpa [Object.references] using member
      exact Heap.not_isScript there (by simp) script
    · exact veiled.objects h o (grows.old h new o here) r member
        (veils r (grows.apart h new o here r member) script)
  · rw [same]
    exact stored
  · refine veiled.cells h slot (grows.old h ?_ _ opens)
    rintro rfl
    cases found.symm.trans opens

theorem Veiled.start (veiled : m.Veiled) (idle : m.reset.Idle) {chunk : Chunk} (sound : chunk.Sound)
    (noParameters : chunk.parameterCount = 0) :
    Ensures (Action.start chunk) m (fun _ m' => m'.Veiled) fun _ _ => False := by
  rw [Action.start,ensures_bind,ensures_modify,ensures_bind]
  have ready := idle.reset .running
  refine ensures_load chunk sound ready.intact fun function mid fresh loads intact isFunction listed => ?_
  have hidden := (veiled.reset .running).load loads intact
  obtain ⟨constants,there⟩ := isFunction
  rw [ensures_bind,allocateClosure,ensures_bind,ensures_object there]
  refine .allocate intact (by simp) fun closure mid' grows found still => ?_
  have thereToo := (grows.kept function (reaches_loading listed)).2.trans there
  have stack : mid'.stack = #[] := by rw [grows.same,loads.same]; rfl
  have frames : mid'.frames = [] := by rw [grows.same,loads.same]; rfl
  have tidy : mid'.heap.Tidy := by
    refine (still True {closure} ⟨⟨chunk,⟨constants,there⟩,by simp⟩,by simp⟩ ?_ (by simp) (by simp)).tidy
    simpa [Object.references] using reaches_loading listed
  rw [ensures_bind,ensures_push,stack]
  refine ⟨fun full => ?_,fun _ => ?_⟩
  · simp [stackLimit] at full
  rw [ensures_bind,ensures_modify]
  refine (ensures_callFirst (by rfl) (by exact frames) (functionOf?_some.mpr
    ⟨function,#[],by exact found,by exact thereToo⟩) noParameters).mpr ?_
  have placed := hidden.place grows tidy found thereToo
  exact placed

/-! Frames. -/

/-- The frame stands behind a call. -/
def Waits (m : Machine) (f : Frame) : Prop :=
  ∃ chunk constants offset n, m.functionOf? f.closure = some (chunk,constants) ∧
    chunk.Boundary offset ∧ chunk.instr? offset = some (.call n) ∧ f.ip = offset + (Instr.call n).size

/-- Frames with their callers, down to that of the script: the callers wait, the script has as many values
as its heights say once all that lie above it have returned, and the others run functions of a source. -/
inductive Lineage (m : Machine) (outer : Chunk) (heights : Nat → Nat) : List Frame → Nat → Prop
  | script {f : Frame} {constants : Array Value} (code : m.functionOf? f.closure = some (outer,constants))
      (base : f.base = 1) : Lineage m outer heights [f] (1 + heights f.ip)
  | function {f : Frame} {callers : List Frame} {chunk : Chunk} {constants : Array Value} {top : Nat}
      (below : Lineage m outer heights callers f.base) (waits : ∀ g ∈ callers.head?, m.Waits g)
      (code : m.functionOf? f.closure = some (chunk,constants)) (inner : chunk.Inner) :
      Lineage m outer heights (f :: callers) top

variable {outer : Chunk} {heights : Nat → Nat} {host : Host}

theorem Waits.keep {f : Frame} (waits : m.Waits f)
    (code : ∀ code, m.functionOf? f.closure = some code → m'.functionOf? f.closure = some code) :
    m'.Waits f := by
  obtain ⟨chunk,constants,offset,n,known,place⟩ := waits
  exact ⟨chunk,constants,offset,n,code _ known,place⟩

/-- It only matters which functions the frames run. -/
theorem Lineage.keep {frames : List Frame} {top : Nat} (lineage : m.Lineage outer heights frames top)
    (code : ∀ f ∈ frames, ∀ code, m.functionOf? f.closure = some code →
      m'.functionOf? f.closure = some code) : m'.Lineage outer heights frames top := by
  induction lineage with
  | script known base => exact .script (code _ List.mem_cons_self _ known) base
  | function below waits known inner ih =>
    obtain ⟨here,others⟩ := List.forall_mem_cons.mp code
    refine .function (ih others) (fun g first => ?_) (here _ known) inner
    exact (waits g first).keep (others g (List.mem_of_mem_head? first))

/-- A frame runs the script or a function of a source. -/
theorem Lineage.runs {frames : List Frame} {top : Nat} (lineage : m.Lineage outer heights frames top)
    {f : Frame} (active : f ∈ frames) : ∃ chunk constants, m.functionOf? f.closure = some (chunk,constants) ∧
      (chunk = outer ∨ chunk.Inner) := by
  induction lineage with
  | script code =>
    obtain rfl := List.mem_singleton.mp active
    exact ⟨_,_,code,.inl rfl⟩
  | function below _ code inner ih =>
    rcases List.mem_cons.mp active with rfl | caller
    · exact ⟨_,_,code,.inr inner⟩
    · exact ih caller

/-- A frame above others, or one with its values, may go on. -/
theorem Lineage.move {f : Frame} {callers : List Frame} {top after target : Nat}
    (lineage : m.Lineage outer heights (f :: callers) top)
    (goes : ∀ constants, m.functionOf? f.closure = some (outer,constants) → top = 1 + heights f.ip →
      after = 1 + heights target) : m.Lineage outer heights ({ f with ip := target } :: callers) after := by
  cases lineage with
  | script code base =>
    rw [goes _ code rfl]
    exact .script (f := { f with ip := target }) code base
  | function below waits code inner => exact .function below waits code inner

theorem Lineage.under {f : Frame} {callers : List Frame} {top : Nat}
    (lineage : m.Lineage outer heights (f :: callers) top) (called : callers ≠ []) :
    m.Lineage outer heights callers f.base := by
  cases lineage with
  | script => exact absurd rfl called
  | function below => exact below

/-- A closure that is still there has the same code, if no functions have been made. -/
theorem functionOf?_lent {raw : Set Handle} (intact : m'.Intact raw) (lends : m.heap.Lends m'.heap)
    {closure : Handle} (spared : ∀ code captures, m.heap.get? closure = some (.closure code captures) →
      m'.heap.get? closure = some (.closure code captures)) {code : Chunk × Array Value}
    (known : m.functionOf? closure = some code) : m'.functionOf? closure = some code := by
  obtain ⟨chunk,constants⟩ := code
  obtain ⟨function,captures,here,there⟩ := functionOf?_some.mp known
  have still := spared function captures here
  obtain ⟨⟨inner,⟨values,thereToo⟩,-⟩,-⟩ := intact.valid closure _ still
  have lent := lends function inner values thereToo
  rw [there] at lent
  cases lent
  exact functionOf?_some.mpr ⟨function,captures,still,thereToo⟩

/-- A machine that runs a script. -/
structure Traced (outer : Chunk) (heights : Nat → Nat) (m : Machine) : Prop where
  running : m.Running
  veiled : m.Veiled
  lineage : m.Lineage outer heights m.frames m.stack.size

theorem Running.sized (running : m.Running) : m.Sized := by
  obtain ⟨cells,stacked,-⟩ := running.stacked
  exact ⟨running.bounded,fun f active => (stacked.guard active).2.1.trans running.bounded⟩

theorem Running.reached (running : m.Running) {f : Frame} (active : f ∈ m.frames) : m.Reaches f.closure := by
  obtain ⟨cells,stacked,-⟩ := running.stacked
  obtain ⟨-,-,found,-⟩ := stacked.guard active
  exact reaches_stack (Array.mem_of_getElem? found)

end Machine

/-- Native functions make no functions. -/
theorem Host.Respectful.leaves {host : Host} (respectful : host.Respectful) {m : Machine}
    (intact : m.Intact ∅) : Leaves True host m := by
  intro native arguments count held
  obtain ⟨result,m',fresh,run,steady,-⟩ := respectful native arguments m count intact held
  refine .of_ok run ⟨steady.stack,steady.frames,fun _ h chunk constants found => ?_⟩
  have old : h ∉ fresh := fun new => (steady.evolves.plain h new _ found).2.2 chunk constants rfl
  obtain ⟨o,before,becomes⟩ := steady.evolves.old h old _ found
  rw [before,becomes.fixed_right trivial]

namespace Machine

variable {m mid m' : Machine} {outer : Chunk} {heights : Nat → Nat} {host : Host}

/-- How a step of a machine in the middle of a run ends. -/
theorem Running.admits (running : m.Running) (respectful : host.Respectful) :
    (Action.step host).Ensures m (fun _ m' => m.heap.Lends m'.heap) fun s m' =>
      m.heap.Lends m'.heap ∧ ∀ e, s = .fault e → m.FailsBy e m' := by
  have admits : Admits True (Action.step host) m m.FailsBy := admits_step running.intact.tidy
    fun i mid reads => respectful.leaves (reads.moved ▸ running.intact.setFrames _)
  exact (admits running.sized).mono (fun _ _ ends => ends.2 trivial) fun _ _ ⟨ends,stops⟩ =>
    ⟨ends.2 trivial,stops⟩

/-- The functions that the running one is made with are inner ones. -/
theorem Traced.nests (traced : Traced outer heights m) (scripted : outer.Scripted heights) : m.Nests := by
  intro f active chunk constants code h inner values member there
  obtain ⟨chunk',constants',code',origin⟩ := traced.lineage.runs (List.mem_of_mem_head? active)
  cases code.symm.trans code'
  obtain ⟨function,captures,-,found⟩ := functionOf?_some.mp code
  obtain ⟨p,value⟩ := Array.mem_iff_getElem?.mp member
  obtain ⟨c,place,mirrors⟩ := (traced.running.intact.valid function _ found).2.1 p _ value
  cases c with
  | number n => cases mirrors
  | string text =>
    obtain ⟨_,⟨⟩,string⟩ := mirrors
    cases there.symm.trans string
  | function nested =>
    obtain ⟨_,⟨⟩,others,thereToo⟩ := mirrors
    cases there.symm.trans thereToo
    have inside := List.mem_of_getElem? place
    rcases origin with rfl | origin
    · exact scripted.nested inner inside
    · exact origin.inside inside

/-- What an instruction is called with runs a function of a source. -/
theorem Traced.callee (traced : Traced outer heights m) {p : Nat} {closure code : Handle}
    {captures : Array Handle} (low : 1 ≤ p) (callee : m.stack[p]? = some (.object closure))
    (found : m.heap.get? closure = some (.closure code captures)) :
    ∃ chunk constants, m.functionOf? closure = some (chunk,constants) ∧ chunk.Inner := by
  obtain ⟨⟨chunk,⟨constants,there⟩,-⟩,-⟩ := traced.running.intact.valid closure _ found
  refine ⟨chunk,constants,functionOf?_some.mpr ⟨code,captures,found,there⟩,?_⟩
  by_contra other
  exact traced.veiled.stack p _ low callee closure rfl ⟨code,captures,chunk,constants,found,there,other⟩

/-- Where the running frame stands, and what its instruction finds on the stack. -/
theorem Running.stands (running : m.Running) {i : Instr} (next : m.next? = some i) :
    ∃ f callers chunk constants, m.frames = f :: callers ∧ m.functionOf? f.closure = some (chunk,constants) ∧
      chunk.Boundary f.ip ∧ chunk.instr? f.ip = some i ∧ 1 ≤ f.base ∧ f.base + i.takes ≤ m.stack.size := by
  obtain ⟨each,-,f,callers,code,captures,chunk,constants,j,frames,here,there,found,enough,-⟩ :=
    running.checked
  have known : m.functionOf? f.closure = some (chunk,constants) :=
    functionOf?_some.mpr ⟨code,captures,here,there⟩
  have same : m.next? = some j := by simp [next?,frames,known,found]
  obtain rfl : j = i := Option.some.inj (same.symm.trans next)
  obtain ⟨low,-,-,chunk',constants',_,known',boundary,-⟩ := each f (frames ▸ List.mem_cons_self)
  cases known.symm.trans known'
  exact ⟨f,callers,chunk,constants,frames,known,boundary,found,low,enough⟩

/-- No step gets hold of a script. -/
theorem Traced.veiling (traced : Traced outer heights m) (scripted : outer.Scripted heights)
    (honest : host.Honest) : Veiling (Action.step host) m fun _ _ => True := by
  rw [Veiling,Action.step,ensures_bind]
  refine reads_fetch.mono (fun i mid reads => ?_) ?_
  swap
  · rintro _ _ ⟨-,rfl⟩
    exact traced.veiled
  obtain ⟨f,callers,-,-,frames,-,-,-,low,enough⟩ := traced.running.stands reads.next
  have moved := reads.moved
  have heap : mid.heap = m.heap := by rw [moved]
  have deep : i.takes < mid.stack.size := by
    rw [moved]
    exact (by omega : i.takes < m.stack.size)
  have nests : mid.Nests := by
    rw [moved,frames,List.modifyHead_cons]
    rintro _ ⟨⟩
    exact traced.nests scripted f (by simp [frames])
  have executed := veiling_execute (moved ▸ traced.veiled.moved fun _ => rfl) honest nests deep
  rwa [Veiling,heap] at executed

/-- One step. -/
theorem Traced.step (traced : Traced outer heights m) (scripted : outer.Scripted heights)
    (respectful : host.Respectful) (honest : host.Honest) (run : Action.step host m = .ok () m') :
    Traced outer heights m' := by
  obtain ⟨i,f,next,active,ensures⟩ := traced.running.step respectful
  obtain ⟨running,⟨fresh,-,makes⟩,passes,-⟩ := ensures.apply run
  refine ⟨running,((traced.veiling scripted honest).apply run).1,?_⟩
  obtain ⟨g,callers,chunk,constants,frames,code,boundary,found,low,enough⟩ := traced.running.stands next
  obtain rfl : g = f := by simpa [frames] using active
  have lends := (traced.running.admits respectful).apply run
  have stays {closure : Handle} (reaches : m.Reaches closure) (code : Chunk × Array Value)
      (known : m.functionOf? closure = some code) : m'.functionOf? closure = some code :=
    functionOf?_lent running.intact lends (fun _ _ here => (makes.spared _ _ _ reaches here).2) known
  have lineage := traced.lineage.keep fun g active => stays (traced.running.reached active)
  have bounded := traced.running.bounded
  simp only [stackLimit] at bounded
  rw [frames] at lineage
  have here := stays (traced.running.reached (frames ▸ List.mem_cons_self)) _ code
  -- what the instruction makes of the height, if it is one of the script
  have leads {target : Nat} (aim : target ∈ i.targets g.ip) {values : Array Value}
      (script : m'.functionOf? g.closure = some (outer,values)) (size : m.stack.size = 1 + heights g.ip) :
      i.takes ≤ heights g.ip ∧ heights target = heights g.ip - i.takes + i.gives := by
    cases here.symm.trans script
    have told : heights g.ip < wordLimit := by
      simp only [wordLimit]
      omega
    obtain ⟨few,-,after⟩ := scripted.disciplined.each g.ip i boundary found told
    exact ⟨few,after target aim⟩
  cases passes with
  | on target aim frames' size =>
    rw [frames',frames]
    refine lineage.move fun values script top => ?_
    have := leads aim script top
    omega
  | enter n closure call callee there frames' stack =>
    subst call
    obtain ⟨function,captures,there⟩ := there
    rw [frames',frames,stack]
    have room : g.base + (n + 1) ≤ m.stack.size := enough
    obtain ⟨inner,values,loaded,origin⟩ := traced.callee (by omega) callee there
    refine .function (lineage.move fun others script top => ?_) ?_
      (stays (reaches_stack (Array.mem_of_getElem? callee)) _ loaded) origin
    · have := leads List.mem_cons_self script top
      simp only [Instr.takes,Instr.gives] at this
      change m.stack.size - n = _
      omega
    · rintro _ ⟨⟩
      exact ⟨chunk,constants,g.ip,n,here,boundary,found,rfl⟩
  | leave value ret top frames' stack =>
    rw [frames] at frames'
    have size : (m.stack.shrink (g.base - 1)).size + 1 = g.base := by
      rw [Array.size_shrink]
      omega
    rw [stack,Array.size_push,size,frames']
    exact lineage.under fun last => running.active (frames'.trans last)

/-- Whatever number of steps. -/
theorem Traced.takes {count : Nat} (takes : m.Takes host count m') (traced : Traced outer heights m)
    (scripted : outer.Scripted heights) (respectful : host.Respectful) (honest : host.Honest) :
    Traced outer heights m' := by
  induction takes with
  | zero => exact traced
  | succ first _ ih => exact ih (traced.step scripted respectful honest first)

/-- A script that has just been started. -/
theorem Traced.start {source : Source} (compiled : source.compile = .ok outer) (idle : m.reset.Idle)
    (veiled : m.Veiled) (scripted : outer.Scripted heights) :
    ∃ m', Action.start outer m = .ok () m' ∧ Traced outer heights m' := by
  obtain ⟨sound,noParameters,noCaptures⟩ := Source.compile_sound compiled
  obtain ⟨m',run,started⟩ := idle.start sound noParameters noCaptures
  obtain ⟨closure,constants,frames,stack,code⟩ := started.entry
  have hidden := (veiled.start idle sound noParameters).apply run
  refine ⟨m',run,started.running,hidden,?_⟩
  have lineage : m'.Lineage outer heights [⟨closure,0,1⟩] (1 + heights 0) :=
    .script (f := ⟨closure,0,1⟩) code rfl
  rw [scripted.disciplined.entry,noParameters] at lineage
  rw [frames,stack]
  exact lineage

/-- However a run ends, no script is within reach of the next one. -/
theorem Veiled.executeWith {source : Source} (veiled : m.Veiled) (compiled : source.compile = .ok outer)
    (idle : m.reset.Idle) (respectful : host.Respectful) (honest : host.Honest) (fuel : Nat) :
    (m.executeWith host fuel outer).2.Veiled := by
  obtain ⟨program,heights,-,scripted,-⟩ := Source.compile_scripted compiled
  obtain ⟨begun,started,traced⟩ := Traced.start compiled idle veiled scripted
  rw [executeWith_ok started]
  clear started idle veiled
  induction fuel generalizing begun with
  | zero => exact traced.veiled
  | succ fuel ih =>
    cases stepped : Action.step host begun with
    | ok _ mid =>
      rw [resumeWith_ok stepped]
      exact ih mid (traced.step scripted respectful honest stepped)
    | error stop stopped =>
      have veiled : stopped.Veiled := (traced.veiling scripted honest).stopped stepped
      rw [resumeWith_error stepped]
      cases stop <;> exact { veiled with }

end Machine

end ScriptMachine
