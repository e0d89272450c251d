import Mathlib
import ScriptMachine.Proofs.Actions

/-! Loading. A chunk becomes a function object, and so does each chunk nested in it; strings become string
objects. All of it is there in the end, and what was held before is as it was, whenever a collection runs in
between: functions on their way are listed as being loaded. -/
namespace ScriptMachine

open ScriptMachine.Action

mutual

/-- The object is the function of this chunk, with its constants in their order. -/
inductive Heap.Loaded (heap : Heap) : Chunk → Handle → Prop
  | function {chunk : Chunk} {h : Handle} {constants : Array Value}
      (found : heap.get? h = some (.function chunk constants))
      (size : constants.size = chunk.constants.length)
      (each : ∀ (i : Nat) (c : Constant Chunk) (v : Value), chunk.constants[i]? = some c →
        constants[i]? = some v → Heap.Becomes heap c v) : Heap.Loaded heap chunk h

/-- What a constant of a chunk becomes. -/
inductive Heap.Becomes (heap : Heap) : Constant Chunk → Value → Prop
  | number (n : Float) : Heap.Becomes heap (.number n) (.number n)
  | string {text : Bytes} {h : Handle} (found : heap.get? h = some (.string text)) :
      Heap.Becomes heap (.string text) (.object h)
  | function {chunk : Chunk} {h : Handle} (loaded : Heap.Loaded heap chunk h) :
      Heap.Becomes heap (.function chunk) (.object h)

end

/-- A function with a value for each of its constants, or any other object. -/
def Object.Full (o : Object) : Prop :=
  ∀ chunk constants, o = .function chunk constants → constants.size = chunk.constants.length

/-- The full objects among these are in the other heap as well, and so is what they refer to. -/
structure Heap.Carries (heap future : Heap) (among : Handle → Prop) : Prop where
  same : ∀ h o, among h → heap.get? h = some o → o.Full → future.get? h = some o
  next : ∀ h o r, among h → heap.get? h = some o → r ∈ o.references → among r

mutual

/-- Another heap with the same full objects has the same functions. -/
theorem Heap.Loaded.carry {heap future : Heap} {among : Handle → Prop}
    (carries : heap.Carries future among) : ∀ {chunk : Chunk} {h : Handle}, heap.Loaded chunk h →
      among h → future.Loaded chunk h
  | _,_,@Heap.Loaded.function _ chunk h constants found size each,here => by
    have full : (Object.function chunk constants).Full := by
      rintro _ _ ⟨⟩
      exact size
    refine .function (carries.same h _ here found full) size fun i c v place value => ?_
    refine (each i c v place value).carry carries fun r is => ?_
    exact carries.next h _ r here found (Object.mem_handles.mpr (is ▸ Array.mem_of_getElem? value))

theorem Heap.Becomes.carry {heap future : Heap} {among : Handle → Prop}
    (carries : heap.Carries future among) : ∀ {c : Constant Chunk} {v : Value}, heap.Becomes c v →
      (∀ h, v = .object h → among h) → future.Becomes c v
  | _,_,.number n,_ => .number n
  | _,_,.string found,here => .string (carries.same _ _ (here _ rfl) found nofun)
  | _,_,.function loaded,here => .function (loaded.carry carries (here _ rfl))

end

namespace Machine

/-- Objects were added and functions are being loaded. All that is held is as it was. -/
structure Adds (m m' : Machine) : Prop where
  same : m' = { m with heap := m'.heap, loading := m'.loading }
  loading : m.loading ⊆ m'.loading
  tidy : m'.heap.Tidy
  kept : ∀ h o, m.Reaches h → m.heap.get? h = some o → m'.heap.get? h = some o

variable {m mid m' : Machine}

theorem Adds.refl (tidy : m.heap.Tidy) : m.Adds m :=
  ⟨rfl,List.Subset.refl _,tidy,fun _ _ _ found => found⟩

theorem Adds.reaches (adds : m.Adds m') {h : Handle} (reaches : m.Reaches h) : m'.Reaches h := by
  have anchors : m.anchors ⊆ m'.anchors := by
    intro h member
    have more : h ∈ m.loading → h ∈ m'.loading := fun member => adds.loading member
    rw [adds.same]
    simp only [Machine.anchors,List.mem_append] at member ⊢
    tauto
  induction reaches with
  | root member => exact .root (anchors member)
  | @next h r earlier member ih =>
    refine Heap.Reaches.next ih ?_
    unfold Heap.references at member ⊢
    cases found : m.heap.get? h with
    | none => simp [found] at member
    | some o =>
      rw [found] at member
      rw [adds.kept h o earlier found]
      exact member

theorem Adds.trans (first : m.Adds mid) (second : mid.Adds m') : m.Adds m' where
  same := by
    have here := first.same
    have there := second.same
    rw [here] at there
    exact there
  loading := List.Subset.trans first.loading second.loading
  tidy := second.tidy
  kept h o reaches found := second.kept h o (first.reaches reaches) (first.kept h o reaches found)

/-- What the machine holds on to has the same constants afterwards. -/
theorem Adds.becomes (adds : m.Adds m') {c : Constant Chunk} {v : Value} (becomes : m.heap.Becomes c v)
    (held : ∀ h, v = .object h → m.Reaches h) : m'.heap.Becomes c v :=
  becomes.carry ⟨fun h o reaches found _ => adds.kept h o reaches found,
    fun _ _ _ reaches found member => reaches.next found member⟩ held

/-- A collection. -/
theorem Adds.collect (tidy : m.heap.Tidy) : m.Adds m.collect := by
  refine ⟨rfl,List.Subset.refl _,tidy.collect _,fun h o reaches found => ?_⟩
  have reached : m.heap.Reaches m.roots h := by
    clear found
    induction reaches with
    | root member => exact .root (m.anchors_subset_roots member)
    | next _ member ih => exact .next ih member
  exact (Heap.get?_collect reached).trans found

/-- An object in a place that held nothing. -/
theorem Adds.insert {h : Handle} {heap : Heap} (tidy : heap.Tidy) (vacant : m.heap.get? h = none)
    (others : ∀ other, other ≠ h → heap.get? other = m.heap.get? other) : m.Adds { m with heap } := by
  refine ⟨rfl,List.Subset.refl _,tidy,fun k o _ found => ?_⟩
  refine (others k ?_).trans found
  rintro rfl
  rw [vacant] at found
  contradiction

/-- A function that is being loaded gets another constant. It was not held before. -/
theorem Adds.addConstant (adds : m.Adds mid) {h : Handle} {chunk : Chunk} {constants : Array Value}
    (found : mid.heap.get? h = some (.function chunk constants))
    (new : m.Reaches h → m.heap.get? h = none) (value : Value) :
    m.Adds { mid with heap := mid.heap.update h (Action.addConstant value) } := by
  refine ⟨?_,adds.loading,adds.tidy.update found nofun nofun,fun k o reaches here => ?_⟩
  · rw [adds.same]
  · have other : k ≠ h := by
      rintro rfl
      rw [new reaches] at here
      contradiction
    rw [Heap.get?_update,if_neg other]
    exact adds.kept k o reaches here

/-- A function on its way: it is listed, and has the first of its constants. -/
structure Begun (m : Machine) (chunk : Chunk) (h : Handle) (constants : Array Value) : Prop where
  listed : h ∈ m.loading
  found : m.heap.get? h = some (.function chunk constants)
  each : ∀ (i : Nat) (c : Constant Chunk) (v : Value), chunk.constants[i]? = some c →
    constants[i]? = some v → m.heap.Becomes c v

theorem Begun.later {chunk : Chunk} {h : Handle} {constants : Array Value}
    (begun : m.Begun chunk h constants) (adds : m.Adds m') : m'.Begun chunk h constants where
  listed := adds.loading begun.listed
  found := adds.kept h _ (reaches_loading begun.listed) begun.found
  each i c v place value := adds.becomes (begun.each i c v place value) fun _ is =>
    (reaches_loading begun.listed).next begun.found
      (Object.mem_handles.mpr (is ▸ Array.mem_of_getElem? value))

/-- The next constant. A function with too few constants is part of no other. -/
theorem Begun.addConstant {chunk : Chunk} {h : Handle} {constants : Array Value} {c : Constant Chunk}
    {value : Value} (begun : m.Begun chunk h constants) (place : chunk.constants[constants.size]? = some c)
    (becomes : m.heap.Becomes c value) :
    Machine.Begun { m with heap := m.heap.update h (Action.addConstant value) } chunk h
      (constants.push value) := by
  have partial_ : constants.size ≠ chunk.constants.length :=
    ((List.getElem?_eq_some_iff.mp place).1).ne
  have carries : m.heap.Carries (m.heap.update h (Action.addConstant value)) fun _ => True := by
    refine ⟨fun k o _ found full => ?_,fun _ _ _ _ _ _ => trivial⟩
    have other : k ≠ h := by
      rintro rfl
      rw [begun.found] at found
      cases found
      exact partial_ (full _ _ rfl)
    rw [Heap.get?_update,if_neg other,found]
  refine ⟨begun.listed,?_,fun i c' v there known => ?_⟩
  · change (m.heap.update h _).get? h = _
    rw [Heap.get?_update,if_pos rfl,begun.found]
    rfl
  · rw [Array.getElem?_push] at known
    split at known
    next last =>
      cases known
      rw [last,place] at there
      cases there
      exact becomes.carry carries fun _ _ => trivial
    next => exact (begun.each i c' v there known).carry carries fun _ _ => trivial

end Machine

open Machine

variable {stop : Stop → Machine → Prop}

theorem adds_makeRoom {m : Machine} {size : Nat} {ok : Unit → Machine → Prop} (tidy : m.heap.Tidy)
    (next : ∀ mid, m.Adds mid → (∀ h o, mid.heap.get? h = some o → m.heap.get? h = some o) →
      ok () mid) : Ensures (makeRoom size) m ok stop := by
  simp only [makeRoom,Action.collect,ensures_bind,ensures_get,ensures_ite,ensures_modify]
  exact ⟨fun _ => next _ (.collect tidy) (fun h o => Heap.get?_of_collect),
    fun _ => next _ (.refl tidy) (fun _ _ found => found)⟩

/-- The start of loading a function. -/
theorem adds_allocateFunction {chunk : Chunk} {m : Machine} {ok : Handle → Machine → Prop}
    (tidy : m.heap.Tidy) (next : ∀ h mid, m.Adds mid → (m.Reaches h → m.heap.get? h = none) →
      mid.heap.get? h = some (.function chunk #[]) → ok h mid) :
    Ensures (allocateFunction chunk) m ok stop := by
  rw [allocateFunction,allocate,ensures_bind]
  refine adds_makeRoom tidy fun mid adds _ => ?_
  cases inserted : mid.heap.insert (.function chunk #[]) (Footprint.function chunk) with
  | mk h heap =>
    obtain ⟨vacant,found,others,-⟩ := Heap.insert_spec adds.tidy inserted
    have grown := adds.trans (.insert (adds.tidy.insert inserted (by simp)) vacant others)
    refine .of_ok (?_ : _ = EStateM.Result.ok h { mid with heap }) (next h _ grown (fun reaches => ?_) found)
    · change EStateM.modifyGet _ mid = _
      rw [EStateM.modifyGet,inserted]
    · cases here : m.heap.get? h with
      | none => rfl
      | some o =>
        rw [adds.kept h o reaches here] at vacant
        contradiction

theorem adds_allocateString {text : Bytes} {m : Machine} {ok : Handle → Machine → Prop}
    (tidy : m.heap.Tidy)
    (next : ∀ h m', m.Adds m' → m'.heap.get? h = some (.string text) → ok h m') :
    Ensures (allocateString text) m ok stop := by
  rw [allocateString,ensures_bind,ensures_get]
  cases known : m.heap.find? text with
  | some h => exact next h m (.refl tidy) ((tidy.interned text h).mp known)
  | none =>
    simp only [ensures_bind]
    refine adds_makeRoom tidy fun mid adds old => ?_
    have missing : mid.heap.find? text = none := by
      refine Option.eq_none_iff_forall_ne_some.mpr fun h later => ?_
      have here := old h _ ((adds.tidy.interned text h).mp later)
      rw [(tidy.interned text h).mpr here] at known
      contradiction
    cases inserted : mid.heap.insertString text with
    | mk h heap =>
      obtain ⟨tidyToo,vacant,found,others⟩ := Heap.insertString_spec adds.tidy missing inserted
      refine .of_ok (?_ : _ = EStateM.Result.ok h { mid with heap })
        (next h _ (adds.trans (.insert tidyToo vacant others)) found)
      change EStateM.modifyGet _ mid = _
      rw [EStateM.modifyGet,inserted]

mutual

theorem adds_load : ∀ (chunk : Chunk) {m : Machine} {ok : Handle → Machine → Prop}, m.heap.Tidy →
    (∀ h m', m.Adds m' → m'.heap.Loaded chunk h → h ∈ m'.loading → ok h m') →
    Ensures (load chunk) m ok stop
  | ⟨name,parameterCount,captureCount,code,lines,constants⟩,m,ok,tidy,next => by
    rw [load,ensures_bind]
    refine adds_allocateFunction tidy fun h mid adds new found => ?_
    rw [ensures_bind,ensures_modify,ensures_bind]
    have listed : mid.Adds { mid with loading := h :: mid.loading } :=
      ⟨rfl,List.subset_cons_self h mid.loading,adds.tidy,fun _ _ _ found => found⟩
    refine adds_loadConstants constants [] (by simp) (adds.trans listed) new
      ⟨List.mem_cons_self,found,by simp⟩ rfl fun m' values all begun complete => ?_
    rw [ensures_pure]
    exact next h m' all (.function begun.found complete begun.each) begun.listed

theorem adds_loadConstants : ∀ (rest done : List (Constant Chunk)) {h : Handle} {chunk : Chunk}
    {values : Array Value} {m mid : Machine} {ok : Unit → Machine → Prop},
    chunk.constants = done ++ rest → m.Adds mid → (m.Reaches h → m.heap.get? h = none) →
    mid.Begun chunk h values → values.size = done.length →
    (∀ m' values, m.Adds m' → m'.Begun chunk h values → values.size = chunk.constants.length → ok () m') →
    Ensures (loadConstants h rest) mid ok stop
  | [],done,h,chunk,values,m,mid,ok,split,adds,new,begun,count,next => by
    rw [loadConstants,ensures_pure]
    exact next mid values adds begun (by rw [split,List.append_nil,count])
  | c :: rest,done,h,chunk,values,m,mid,ok,split,adds,new,begun,count,next => by
    rw [loadConstants,ensures_bind]
    refine adds_loadConstant c adds.tidy fun value m' more becomes => ?_
    have later := begun.later more
    have place : chunk.constants[values.size]? = some c := by
      rw [split,count,List.getElem?_append_right le_rfl,Nat.sub_self,List.getElem?_cons_zero]
    rw [ensures_bind,ensures_updateObject]
    refine adds_loadConstants rest (done ++ [c]) (by rw [split,List.append_assoc]; rfl)
      ((adds.trans more).addConstant later.found new value) new (later.addConstant place becomes)
      (by rw [Array.size_push,count,List.length_append]; rfl) next

theorem adds_loadConstant : ∀ (c : Constant Chunk) {m : Machine} {ok : Value → Machine → Prop},
    m.heap.Tidy → (∀ value m', m.Adds m' → m'.heap.Becomes c value → ok value m') →
    Ensures (loadConstant c) m ok stop
  | .number n,m,ok,tidy,next => by
    rw [loadConstant,ensures_pure]
    exact next _ m (.refl tidy) (.number n)
  | .string text,m,ok,tidy,next => by
    rw [loadConstant,ensures_bind]
    refine adds_allocateString tidy fun h m' adds found => ?_
    rw [ensures_pure]
    exact next _ m' adds (.string found)
  | .function chunk,m,ok,tidy,next => by
    rw [loadConstant,ensures_bind]
    refine adds_load chunk tidy fun h m' adds loaded _ => ?_
    rw [ensures_pure]
    exact next _ m' adds (.function loaded)

end

/-- The roots reach no more than what is held without the frames, if this holds their closures. -/
theorem Machine.Reaches.of_roots {m : Machine} {h : Handle} (frames : ∀ f ∈ m.frames, m.Reaches f.closure)
    (reached : m.heap.Reaches m.roots h) : m.Reaches h := by
  induction reached with
  | @root h member =>
    have parts : h ∈ m.anchors ∨ h ∈ m.frames.flatMap m.frameRoots := by
      simp only [roots,anchors,List.mem_append] at member ⊢
      tauto
    rcases parts with anchored | framed
    · exact .root anchored
    · obtain ⟨f,active,member⟩ := List.mem_flatMap.mp framed
      exact Heap.Reaches.next (frames f active) member
  | next _ member ih => exact Heap.Reaches.next ih member

/-- Loading a chunk gives its function, whatever the policy of collections; and it leaves all that the roots
reached as it was. What a running frame refers to is held by its closure, which lies on the stack. -/
theorem Machine.load_mirrors {m : Machine} (chunk : Chunk) (tidy : m.heap.Tidy)
    (frames : ∀ f ∈ m.frames, m.Reaches f.closure) :
    ∃ h m', Action.load chunk m = .ok h m' ∧ m'.heap.Loaded chunk h ∧ h ∈ m'.loading ∧
      m' = { m with heap := m'.heap, loading := m'.loading } ∧
      ∀ k o, m.heap.Reaches m.roots k → m.heap.get? k = some o → m'.heap.get? k = some o := by
  have ensured : Ensures (Action.load chunk) m (fun h m' => m.Adds m' ∧ m'.heap.Loaded chunk h ∧
      h ∈ m'.loading) fun _ _ => False :=
    adds_load chunk tidy fun h m' adds loaded listed => ⟨adds,loaded,listed⟩
  obtain ⟨h,m',run,adds,loaded,listed⟩ := ensured.succeeds
  exact ⟨h,m',run,loaded,listed,adds.same,fun k o reached found =>
    adds.kept k o (.of_roots frames reached) found⟩

/-- A collection before each object, a place to be used again, and the same string in two functions. -/
theorem Machine.load_mirrors_stressed :
    let m := (Machine.new ⟨0,2.0,true⟩ 0).after (Action.allocateString (ascii "lost"))
    let inner : Chunk := ⟨ascii "inner",0,0,#[],#[],[.string (ascii "a"),.string (ascii "b")]⟩
    let chunk : Chunk := ⟨ascii "outer",0,0,#[],#[],[.string (ascii "b"),.function inner,.function inner]⟩
    m.heap.Tidy ∧ (∀ f ∈ m.frames, m.Reaches f.closure) ∧
    ∃ h m', Action.load chunk m = .ok h m' ∧ m'.heap.Loaded chunk h ∧ h ∈ m'.loading ∧
      m' = { m with heap := m'.heap, loading := m'.loading } ∧
      ∀ k o, m.heap.Reaches m.roots k → m.heap.get? k = some o → m'.heap.get? k = some o := by
  intro m inner chunk
  have ensured : Ensures (Action.allocateString (ascii "lost")) (.new ⟨0,2.0,true⟩ 0)
      (fun _ m' => (Machine.new ⟨0,2.0,true⟩ 0).Adds m') fun _ _ => False :=
    adds_allocateString (Heap.tidy_empty _) fun h m' adds _ => adds
  obtain ⟨h,m',run,adds⟩ := ensured.succeeds
  have same : m = m' := after_ok run
  have tidy : m.heap.Tidy := same ▸ adds.tidy
  have frames : ∀ f ∈ m.frames, m.Reaches f.closure := by
    have none : m.frames = [] := by
      rw [same,adds.same]
      rfl
    simp [none]
  exact ⟨tidy,frames,load_mirrors chunk tidy frames⟩

end ScriptMachine
