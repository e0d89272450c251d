import Mathlib
import ScriptMachine.Proofs.Steps

/-! The start of a run. Functions are under construction while their constants are loaded, yet a
collection finds them, as the machine lists those it is loading. -/
namespace ScriptMachine

open ScriptMachine.Action

namespace Machine

/-- Some functions and strings have been loaded; nothing else has changed. -/
structure Loads (fresh : Set Handle) (m m' : Machine) : Prop where
  same : m' = { m with heap := m'.heap, loading := m'.loading }
  loading : m.loading ⊆ m'.loading
  old : ∀ h ∉ fresh, ∀ o, m'.heap.get? h = some o → m.heap.get? h = some o
  kept : ∀ h, m.Reaches h → h ∉ fresh ∧ m'.heap.get? h = m.heap.get? h
  apart : ∀ h ∉ fresh, ∀ o, m'.heap.get? h = some o → ∀ r ∈ o.references, r ∉ fresh
  loaded : ∀ h ∈ fresh, ∀ o, m'.heap.get? h = some o →
    (∃ text, o = .string text) ∨ ∃ chunk constants, o = .function chunk constants

variable {m mid m' : Machine} {fresh more raw : Set Handle}

theorem Loads.refl (m : Machine) : m.Loads ∅ m :=
  ⟨rfl,List.Subset.refl _,fun _ _ _ found => found,fun _ _ => ⟨not_false,rfl⟩,
    fun _ _ _ _ _ _ => not_false,by simp⟩

theorem Loads.anchors (loads : m.Loads fresh m') : m.anchors ⊆ m'.anchors := by
  intro h member
  have more : h ∈ m.loading → h ∈ m'.loading := fun member => loads.loading member
  rw [loads.same]
  simp only [Machine.anchors,List.mem_append] at member ⊢
  tauto

theorem Loads.reaches (loads : m.Loads fresh m') {h : Handle} (reaches : m.Reaches h) :
    m'.Reaches h :=
  reaches.carry loads.anchors fun h reaches => (loads.kept h reaches).2

theorem Loads.trans (first : m.Loads fresh mid) (second : mid.Loads more m') :
    m.Loads (fresh ∪ more) m' where
  same := by
    have here := first.same
    have there := second.same
    rw [here] at there
    exact there
  loading := List.Subset.trans first.loading second.loading
  old h outside o found := by
    rw [Set.mem_union,not_or] at outside
    exact first.old h outside.1 o (second.old h outside.2 o found)
  kept h reaches := by
    obtain ⟨early,same⟩ := first.kept h reaches
    obtain ⟨late,sameToo⟩ := second.kept h (first.reaches reaches)
    exact ⟨fun member => member.elim early late,sameToo.trans same⟩
  apart h outside o found r member := by
    rw [Set.mem_union,not_or] at outside ⊢
    exact ⟨first.apart h outside.1 o (second.old h outside.2 o found) r member,
      second.apart h outside.2 o found r member⟩
  loaded h member o found := by
    by_cases late : h ∈ more
    · exact second.loaded h late o found
    · exact first.loaded h (member.resolve_right late) o (second.old h late o found)

theorem Grows.loads (grows : m.Grows fresh m')
    (loaded : ∀ h ∈ fresh, ∀ o, m'.heap.get? h = some o →
      (∃ text, o = .string text) ∨ ∃ chunk constants, o = .function chunk constants) :
    m.Loads fresh m' := by
  refine ⟨?_,?_,grows.old,grows.kept,grows.apart,loaded⟩
  · rw [grows.same]
  · rw [grows.same]
    exact List.Subset.refl _

theorem Loads.outside (loads : m.Loads fresh m') {h : Handle} {o : Object}
    (found : m'.heap.get? h = some o) (noString : ∀ text, o ≠ .string text)
    (noFunction : ∀ chunk constants, o ≠ .function chunk constants) : h ∉ fresh := by
  intro new
  rcases loads.loaded h new o found with ⟨text,same⟩ | ⟨chunk,constants,same⟩
  · exact noString text same
  · exact noFunction chunk constants same

/-- A function that is being loaded may get another constant. -/
theorem Loads.add (loads : m.Loads fresh m') {h : Handle} (new : h ∈ fresh) {chunk : Chunk}
    {values : Array Value} (found : m'.heap.get? h = some (.function chunk values)) (value : Value) :
    m.Loads fresh { m' with heap := m'.heap.update h (addConstant value) } := by
  have elsewhere {k : Handle} (outside : k ∉ fresh) :
      (m'.heap.update h (addConstant value)).get? k = m'.heap.get? k := by
    have other : k ≠ h := fun same => outside (same ▸ new)
    rw [Heap.get?_update,if_neg other]
  refine ⟨?_,loads.loading,fun k outside o here => ?_,fun k reaches => ?_,
    fun k outside o here => ?_,fun k member o here => ?_⟩
  · rw [loads.same]
  · rw [elsewhere outside] at here
    exact loads.old k outside o here
  · obtain ⟨outside,same⟩ := loads.kept k reaches
    exact ⟨outside,(elsewhere outside).trans same⟩
  · rw [elsewhere outside] at here
    exact loads.apart k outside o here
  · change (m'.heap.update h (addConstant value)).get? k = some o at here
    rw [Heap.get?_update] at here
    by_cases same : k = h
    · subst same
      simp only [↓reduceIte,found,Option.map_some,Option.some_inj] at here
      exact .inr ⟨chunk,_,here.symm⟩
    · rw [if_neg same] at here
      exact loads.loaded k member o here

/-- A function on its way: it is listed, and has the first of its constants. -/
structure Half (h : Handle) (chunk : Chunk) (count : Nat) (m : Machine) : Prop where
  listed : h ∈ m.loading
  found : ∃ values, m.heap.get? h = some (.function chunk values) ∧ values.size = count

end Machine

open Machine

variable {stop : Stop → Machine → Prop}

/-- The start of loading a function: it is new, it is listed, and it has no constants yet. -/
theorem ensures_allocateFunction {chunk : Chunk} {raw : Set Handle} {m : Machine}
    {ok : Handle → Machine → Prop} (sound : chunk.Sound) (intact : m.Intact raw)
    (next : ∀ h mid, m.Loads {h} { mid with loading := h :: mid.loading } →
      Machine.Intact (insert h raw) { mid with loading := h :: mid.loading } →
      Half h chunk 0 { mid with loading := h :: mid.loading } → ok h mid) :
    Ensures (allocateFunction chunk) m ok stop := by
  refine .allocate intact (by simp) fun h mid grows found still => next h mid ?_ ?_ ?_
  · have loads := grows.loads fun k new o here => by
      rw [Set.mem_singleton_iff.mp new,found] at here
      cases here
      exact .inr ⟨_,_,rfl⟩
    refine ⟨?_,fun k member => List.mem_cons_of_mem h (loads.loading member),loads.old,loads.kept,
      loads.apart,loads.loaded⟩
    rw [loads.same]
  · have started : mid.Intact (insert h raw) := by
      refine still True (insert h raw) ⟨sound,by simp,by simp⟩ ?_ (Set.subset_insert h raw) ?_
      · simp [Object.references]
      · exact fun _ => Set.mem_insert h raw
    refine { started with loading := fun k member => ?_ }
    rcases List.mem_cons.mp member with rfl | old
    · exact ⟨_,_,found⟩
    · exact started.loading k old
  · exact ⟨List.mem_cons_self,#[],found,rfl⟩

mutual

theorem ensures_load : ∀ (chunk : Chunk) {raw : Set Handle} {m : Machine}
    {ok : Handle → Machine → Prop}, chunk.Sound → m.Intact raw →
    (∀ h m' fresh, m.Loads fresh m' → m'.Intact raw → m'.heap.IsFunction h chunk → h ∈ m'.loading →
      ok h m') → Ensures (load chunk) m ok stop
  | ⟨name,parameterCount,captureCount,code,lines,constants⟩,raw,m,ok,sound,intact,next => by
    rw [load,ensures_bind]
    refine ensures_allocateFunction sound intact fun h mid loads started half => ?_
    rw [ensures_bind,ensures_modify,ensures_bind]
    refine ensures_loadConstants constants [] [] h _ (fun inner member => sound.nested member)
      (by simp) loads started rfl half fun m' fresh all intact _ half => ?_
    rw [ensures_pure]
    obtain ⟨values,here,complete⟩ := half.found
    refine next h m' fresh all { intact with valid := fun k o there => ?_ } ⟨values,here⟩ half.listed
    have valid := intact.valid k o there
    by_cases same : k = h
    · subst same
      rw [here] at there
      cases there
      exact ⟨valid.1,valid.2.1,fun _ => complete⟩
    · exact valid.imp fun member => member.resolve_left same

theorem ensures_loadConstants : ∀ (rest done later : List (Constant Chunk)) (h : Handle)
    (chunk : Chunk) {raw fresh : Set Handle} {m mid : Machine} {ok : Unit → Machine → Prop},
    (∀ inner, .function inner ∈ rest → inner.Sound) → chunk.constants = done ++ rest ++ later →
    m.Loads fresh mid → mid.Intact (insert h raw) → h ∈ fresh → Half h chunk done.length mid →
    (∀ m' fresh, m.Loads fresh m' → m'.Intact (insert h raw) → h ∈ fresh →
      Half h chunk (done ++ rest).length m' → ok () m') →
    Ensures (loadConstants h rest) mid ok stop
  | [],done,later,h,chunk,raw,fresh,m,mid,ok,sound,split,loads,intact,new,half,next => by
    rw [loadConstants,ensures_pure]
    rw [List.append_nil] at next
    exact next mid fresh loads intact new half
  | c :: rest,done,later,h,chunk,raw,fresh,m,mid,ok,sound,split,loads,intact,new,half,next => by
    rw [loadConstants,ensures_bind]
    refine ensures_loadConstant c (fun inner same => sound inner (same ▸ List.mem_cons_self)) intact
      fun value m' more adds still mirrors => ?_
    obtain ⟨values,found,count⟩ := half.found
    have stays := (adds.kept h (reaches_loading half.listed)).2.trans found
    have place : chunk.constants[values.size]? = some c := by simp [split,count]
    rw [ensures_bind,ensures_updateObject]
    refine ensures_loadConstants rest (done ++ [c]) later h chunk
      (fun inner member => sound inner (List.mem_cons_of_mem _ member)) (by simp [split])
      ((loads.trans adds).add (.inl new) stays value) ?_ (.inl new) ⟨adds.loading half.listed,
        values.push value,?_,by simp [count]⟩ (by simpa using next)
    · obtain ⟨isSound,each,-⟩ := still.valid h _ stays
      refine still.update stays (by simp) rfl (by simp) ⟨isSound,fun i v known => ?_,by simp⟩
      rw [Array.getElem?_push] at known
      split at known
      next last =>
        cases known
        exact ⟨c,last ▸ place,mirrors⟩
      next => exact each i v known
    · change (m'.heap.update h (addConstant value)).get? h = _
      rw [Heap.get?_update,if_pos rfl,stays]
      rfl

theorem ensures_loadConstant : ∀ (c : Constant Chunk) {raw : Set Handle} {m : Machine}
    {ok : Value → Machine → Prop},
    (∀ inner, c = .function inner → inner.Sound) → m.Intact raw →
    (∀ value m' fresh, m.Loads fresh m' → m'.Intact raw → m'.heap.Mirrors c value → ok value m') →
    Ensures (loadConstant c) m ok stop
  | .number n,raw,m,ok,sound,intact,next => by
    rw [loadConstant,ensures_pure]
    exact next _ m ∅ (.refl m) intact rfl
  | .string text,raw,m,ok,sound,intact,next => by
    rw [loadConstant,ensures_bind]
    refine .allocateString intact fun h m' fresh grows only still found => ?_
    rw [ensures_pure]
    refine next _ m' fresh (grows.loads fun k new o here => ?_) still ⟨h,rfl,found⟩
    obtain rfl := only k new
    rw [found] at here
    cases here
    exact .inl ⟨text,rfl⟩
  | .function chunk,raw,m,ok,sound,intact,next => by
    rw [loadConstant,ensures_bind]
    refine ensures_load chunk (sound chunk rfl) intact fun h m' fresh loads still isFunction _ => ?_
    rw [ensures_pure]
    exact next _ m' fresh loads still ⟨h,rfl,isFunction⟩

end

namespace Machine

/-- No run is under way, and none has left an open cell. -/
structure Idle (m : Machine) : Prop where
  intact : m.Intact ∅
  shut : ∀ h slot, ¬m.Opens h slot
  frames : m.frames = []
  openCells : m.openCells = []

theorem Finished.idle {m : Machine} (finished : m.Finished) : m.Idle where
  intact := finished.intact
  shut := finished.celled.shut finished.openCells
  frames := finished.frames
  openCells := finished.openCells

/-- The machine just before the first instruction of a chunk. -/
structure Started (chunk : Chunk) (m m' : Machine) : Prop where
  running : m'.Running
  entry : ∃ closure constants, m'.frames = [⟨closure,0,1⟩] ∧ m'.stack = #[.object closure] ∧
    m'.functionOf? closure = some (chunk,constants)
  turns : ∃ fresh, m.Turns 0 fresh m' ∧ ∀ h ∈ fresh, ∀ code captures,
    m'.heap.get? h = some (.closure code captures) → m'.stack.back? = some (.object h)
  shut : ∀ h slot, ¬m'.Opens h slot

theorem Intact.reset {m : Machine} {raw : Set Handle} (intact : m.Intact raw) (status : Status) :
    Intact raw { m.reset with status } :=
  { intact with
    stack := by simp [Machine.reset]
    result := Heap.holds_nil
    loading := by simp [Machine.reset]
    openCells := by simp [Machine.reset] }

theorem Idle.reset {m : Machine} (idle : m.Idle) (status : Status) :
    Machine.Idle { m.reset with status } where
  intact := idle.intact.reset status
  shut := idle.shut
  frames := rfl
  openCells := rfl

/-- The first call of a run. -/
theorem ensures_callFirst {m : Machine} {closure : Handle} {chunk : Chunk} {constants : Array Value}
    {ok : Unit → Machine → Prop} (stack : m.stack = #[.object closure]) (frames : m.frames = [])
    (known : m.functionOf? closure = some (chunk,constants))
    (noParameters : chunk.parameterCount = 0) : Ensures (callClosure closure 0) m ok stop ↔
      ok () { m with frames := [⟨closure,0,1⟩] } := by
  simp [callClosure,known,noParameters,frames,frameLimit,stack]

section

variable {m mid m' : Machine} {fresh : Set Handle} {closure function h : Handle}

/-- A cell is as old as the functions that are loaded and the closure that is made of one of them. -/
theorem Loads.cell (loads : m.Loads fresh mid) (grows : mid.Grows {closure} m')
    (found : m'.heap.get? closure = some (.closure function #[])) {state : Cell}
    (here : m'.heap.get? h = some (.cell state)) :
    h ∉ fresh ∪ {closure} ∧ m.heap.get? h = some (.cell state) := by
  have other : h ≠ closure := by
    rintro rfl
    rw [found] at here
    cases here
  have before := grows.old h other _ here
  have outside := loads.outside before (by simp) (by simp)
  exact ⟨fun new => new.elim outside other,loads.old h outside _ before⟩

theorem Loads.captures (loads : m.Loads fresh mid) (grows : mid.Grows {closure} m') {code : Handle}
    {captures : Array Handle} (here : m'.heap.get? h = some (.closure code captures))
    (outside : h ∉ fresh ∪ {closure}) : m.heap.get? h = some (.closure code captures) ∧
      ∀ c ∈ captures, c ∉ fresh ∪ {closure} := by
  rw [Set.mem_union,not_or] at outside
  have before := grows.old h outside.2 _ here
  refine ⟨loads.old h outside.1 _ before,fun c member => ?_⟩
  have inside : c ∈ Object.references (.closure code captures) :=
    List.mem_cons_of_mem _ (by simpa using member)
  exact fun new => new.elim (loads.apart h outside.1 _ before c inside)
    (grows.apart h outside.2 _ here c inside)

theorem Loads.only (loads : m.Loads fresh mid) (grows : mid.Grows {closure} m') {code : Handle}
    {captures : Array Handle} (here : m'.heap.get? h = some (.closure code captures))
    (new : h ∈ fresh ∪ {closure}) : h = closure := by
  by_contra other
  have before := grows.old h other _ here
  exact new.elim (loads.outside before (by simp) (by simp)) other

end

/-- A sound chunk without parameters and captures can be started on an idle machine. -/
theorem Idle.start {m : Machine} {chunk : Chunk} (idle : m.Idle) (sound : chunk.Sound)
    (noParameters : chunk.parameterCount = 0) (noCaptures : chunk.captureCount = 0) :
    ∃ m', Action.start chunk m = .ok () m' ∧ m.Started chunk m' := by
  suffices ensured : Ensures (Action.start chunk) m (fun _ m' => m.Started chunk m') fun _ _ => False by
    obtain ⟨⟨⟩,m',run,started⟩ := ensured.succeeds
    exact ⟨m',run,started⟩
  rw [Action.start,ensures_bind,ensures_modify,ensures_bind]
  have ready := idle.reset .running
  refine ensures_load chunk sound ready.intact fun function mid fresh loads intact isFunction listed => ?_
  obtain ⟨constants,there⟩ := isFunction
  rw [ensures_bind,allocateClosure,ensures_bind,ensures_object there]
  refine .allocate intact (by simp) fun closure mid' grows found still => ?_
  have reached : mid.Reaches function := reaches_loading listed
  have thereToo := (grows.kept function reached).2.trans there
  have whole : mid'.Intact ∅ := by
    refine still False ∅ ⟨⟨chunk,⟨constants,there⟩,fun _ => noCaptures.symm⟩,by simp⟩ ?_
      subset_rfl False.elim
    simpa [Object.references] using reached
  have stack : mid'.stack = #[] := by rw [grows.same,loads.same]; rfl
  have frames : mid'.frames = [] := by rw [grows.same,loads.same]; rfl
  have openCells : mid'.openCells = [] := by rw [grows.same,loads.same]; rfl
  rw [ensures_bind,ensures_push,stack]
  refine ⟨fun full => ?_,fun _ => ?_⟩
  · simp [stackLimit] at full
  rw [ensures_bind,ensures_modify]
  -- All that is new are functions, strings and the closure, so no cell is open.
  have shut (h : Handle) (slot : Nat) (opens : mid'.Opens h slot) : False :=
    ready.shut h slot (loads.cell grows found opens).2
  obtain ⟨edges,points,charted⟩ := sound.charted
  have height : 0 = (points 0).height := noParameters ▸ charted.entry.1
  have known {m : Machine} (same : m.heap = mid'.heap) :
      m.functionOf? closure = some (chunk,constants) :=
    functionOf?_some.mpr ⟨function,#[],by rw [same,found],by rw [same,thereToo]⟩
  refine (ensures_callFirst (by rfl) (by exact frames) (known (by rfl)) noParameters).mpr ?_
  refine ⟨⟨{ whole with stack := ?_, loading := by simp },⟨?_,?_,?_⟩,?_,by simp,∅,?_,?_⟩,
    ⟨closure,constants,rfl,rfl,known rfl⟩,⟨fresh ∪ {closure},⟨?_,?_,?_,?_,?_⟩,?_⟩,shut⟩
  · simpa using Heap.holds_object found
  · exact fun h slot opens => absurd opens (shut h slot)
  · simp [openCells]
  · simp [openCells]
  · simp [stackLimit]
  · have stacked := Stacked.frame (m := { mid' with
        stack := #[.object closure], frames := [⟨closure,0,1⟩], loading := [] })
      .bottom (by simp) (by simp) rfl (known rfl) charted charted.start (Set.empty_subset _)
    rw [← height] at stacked
    simpa using stacked
  · exact fun h slot opens => absurd opens (shut h slot)
  · exact fun h slot opens => absurd opens (idle.shut h slot)
  · exact fun h slot opens => absurd opens (idle.shut h slot)
  · exact fun h slot opens => absurd opens (shut h slot)
  · intro h value here
    obtain ⟨outside,before⟩ := loads.cell grows found here
    exact ⟨outside,_,before⟩
  · exact fun h code captures here outside => loads.captures grows here outside
  · intro h new code captures here
    simp [loads.only grows here new]

end Machine

end ScriptMachine
