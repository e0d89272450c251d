import Mathlib
import ScriptMachine.Proofs.Tracking

/-! The code of a script on the machine, and what its instructions do to the world of an evaluation. The
values that an evaluation works on lie on the stack above the variables of its blocks. -/
namespace ScriptMachine

open ScriptMachine.Action

namespace Machine

/-- A closure keeps its code as long as objects stay, but for those that may change. -/
theorem functionOf?_keep {m m' : Machine} {closure : Handle} {known : Chunk × Array Value}
    (kept : ∀ h o, m.heap.get? h = some o → o.Fixed → m'.heap.get? h = some o)
    (before : m.functionOf? closure = some known) : m'.functionOf? closure = some known := by
  obtain ⟨chunk,constants⟩ := known
  obtain ⟨function,captures,here,there⟩ := functionOf?_some.mp before
  exact functionOf?_some.mpr ⟨function,captures,kept _ _ here trivial,kept _ _ there trivial⟩

/-- With these values on the stack, the topmost first. -/
def piled (m : Machine) (values : List Value) : Machine :=
  { m with stack := values.reverse.toArray }

end Machine

/-! Piles of values. -/

namespace Action

variable {m : Machine} {stop : Stop → Machine → Prop} {ok : Unit → Machine → Prop}
  {values : List Value} {value : Value}

theorem set_reverse {depth : Nat} (inside : depth < values.length) :
    values.reverse.set (values.length - 1 - depth) value = (values.set depth value).reverse := by
  apply List.ext_getElem (by simp)
  intro i bound bound'
  simp only [List.length_set,List.length_reverse] at bound bound'
  rw [List.getElem_set,List.getElem_reverse,List.getElem_reverse,List.getElem_set]
  simp only [List.length_set]
  split <;> split <;> first | rfl | omega

@[simp] theorem size_piled : (m.piled values).stack.size = values.length := by
  simp [Machine.piled]

theorem getElem?_piled {depth : Nat} (inside : depth < values.length) :
    (m.piled values).stack[values.length - 1 - depth]? = values[depth]? := by
  have bound : values.length - 1 - depth < values.length := by omega
  simp only [Machine.piled,List.getElem?_toArray]
  rw [List.getElem?_reverse bound]
  congr 1
  omega

theorem ensures_push_piled : Ensures (push value) (m.piled values) ok stop ↔
    (Machine.stackLimit ≤ values.length →
      stop (.fault ⟨.stackFull,(m.piled values).trace⟩) (m.piled values)) ∧
      (values.length < Machine.stackLimit → ok () (m.piled (value :: values))) := by
  rw [ensures_push,size_piled]
  simp [Machine.piled]

theorem ensures_pop_piled :
    Ensures pop (m.piled (value :: values)) ok stop ↔ ok () (m.piled values) := by
  rw [ensures_pop (by simp)]
  simp [Machine.piled]

theorem ensures_peek_piled {ok : Value → Machine → Prop} {depth : Nat}
    (found : values[depth]? = some value) :
    Ensures (peek depth) (m.piled values) ok stop ↔ ok value (m.piled values) := by
  obtain ⟨inside,rfl⟩ := List.getElem?_eq_some_iff.mp found
  have bound : depth < (m.piled values).stack.size := by simpa using inside
  have here := getElem?_piled (m := m) inside
  rw [List.getElem?_eq_getElem inside,Array.getElem?_eq_some_iff] at here
  obtain ⟨_,same⟩ := here
  rw [ensures_peek bound]
  simp only [size_piled,same]

theorem ensures_slot_piled {ok : Value → Machine → Prop} {depth : Nat}
    (found : values[depth]? = some value) :
    Ensures (slot (values.length - 1 - depth)) (m.piled values) ok stop ↔
      ok value (m.piled values) := by
  obtain ⟨inside,rfl⟩ := List.getElem?_eq_some_iff.mp found
  have bound : values.length - 1 - depth < (m.piled values).stack.size := by
    rw [size_piled]
    omega
  have here := getElem?_piled (m := m) inside
  rw [List.getElem?_eq_getElem inside,Array.getElem?_eq_some_iff] at here
  obtain ⟨_,same⟩ := here
  rw [ensures_slot bound]
  simp only [same]

theorem ensures_setSlot_piled {depth : Nat} (inside : depth < values.length) :
    Ensures (setSlot (values.length - 1 - depth) value) (m.piled values) ok stop ↔
      ok () (m.piled (values.set depth value)) := by
  have bound : values.length - 1 - depth < (m.piled values).stack.size := by
    rw [size_piled]
    omega
  rw [ensures_setSlot bound]
  simp only [Machine.piled,List.setIfInBounds_toArray,set_reverse inside]

theorem ensures_replaceTop_piled {other : Value} :
    Ensures (replaceTop other) (m.piled (value :: values)) ok stop ↔
      ok () (m.piled (other :: values)) := by
  rw [ensures_replaceTop (by simp)]
  simp [Machine.piled]

theorem ensures_shrinkTo_piled {above : List Value} :
    Ensures (shrinkTo values.length) (m.piled (above ++ values)) ok stop ↔
      ok () (m.piled values) := by
  rw [ensures_shrinkTo (by simp)]
  simp [Machine.piled]

theorem ensures_finishBinary_piled {left right : Value} :
    Ensures (finishBinary value) (m.piled (right :: left :: values)) ok stop ↔
      ok () (m.piled (value :: values)) := by
  rw [finishBinary,ensures_bind,ensures_pop_piled,ensures_replaceTop_piled]

/-- The text of a value that is there, if it is a string. -/
theorem ensures_stringOf? {ok : Option Bytes → Machine → Prop} (held : m.heap.Holds value) :
    Ensures (stringOf? value) m ok stop ↔ ok (m.heap.string? value) m := by
  rw [Action.stringOf?,ensures_bind,ensures_objectOf? held,Heap.string?]
  cases value.handle?.bind m.heap.get? with
  | none => rfl
  | some o => cases o <;> rfl

/-! Collections. -/

/-- The action does not collect. -/
def Frugal {α : Type} (action : Action α) : Prop :=
  ∀ m, action.Ensures m (fun _ m' => m'.heap.collections = m.heap.collections)
    fun _ m' => m'.heap.collections = m.heap.collections

section

variable {α β : Type} {action : Action α} {rest : α → Action β} {object : Object} {size : Nat}
  {text : Bytes}

theorem Frugal.bind (first : Frugal action) (second : ∀ a, Frugal (rest a)) :
    Frugal (action >>= rest) := by
  intro m
  rw [ensures_bind]
  refine (first m).mono (fun a mid same => ?_) fun _ _ same => same
  rw [← same]
  exact second a mid

theorem Frugal.look {look : Machine → Action α} (each : ∀ m, Frugal (look m)) :
    Frugal (get >>= look) :=
  fun m => ensures_bind.mpr (each m m)

theorem frugal_throw (stop : Stop) : Frugal (throw stop : Action α) := fun _ => rfl

theorem frugal_modify {change : Machine → Machine}
    (same : ∀ m, (change m).heap.collections = m.heap.collections) :
    Frugal (modify change) := same

theorem frugal_fault (f : RuntimeFault) : Frugal (fault f : Action α) := fun _ => rfl

theorem Frugal.ite {c : Prop} [Decidable c] {yes no : Action α} (first : Frugal yes)
    (second : Frugal no) : Frugal (if c then yes else no) := by
  split
  · exact first
  · exact second

theorem frugal_push (value : Value) : Frugal (push value) :=
  .look fun _ => .ite ((frugal_fault _).bind fun _ => frugal_modify fun _ => rfl)
    (frugal_modify fun _ => rfl)

theorem frugal_pop : Frugal pop :=
  .look fun _ => .ite ((frugal_throw _).bind fun _ => frugal_modify fun _ => rfl)
    (frugal_modify fun _ => rfl)

theorem frugal_replaceTop (value : Value) : Frugal (replaceTop value) := by
  have slot (index : Nat) : Frugal (setSlot index value) :=
    .look fun _ => .ite (frugal_modify fun _ => rfl)
      ((frugal_throw _).bind fun _ => frugal_modify fun _ => rfl)
  exact .look fun _ => .ite ((frugal_throw _).bind fun _ => slot _) (slot _)

theorem frugal_shrinkTo (size : Nat) : Frugal (shrinkTo size) :=
  .look fun _ => .ite (frugal_modify fun _ => rfl)
    ((frugal_throw _).bind fun _ => frugal_modify fun _ => rfl)

theorem frugal_updateObject (h : Handle) (change : Object → Object) :
    Frugal (updateObject h change) :=
  frugal_modify fun _ => rfl

theorem frugal_finishBinary (value : Value) : Frugal (finishBinary value) :=
  frugal_pop.bind fun _ => frugal_replaceTop value

end

/-- So it is, if there have been no more collections than these. -/
def Barring {α : Type} (count : Nat) (holds : α → Machine → Prop) : α → Machine → Prop :=
  fun a m => m.heap.collections = count → holds a m

section

variable {α : Type} {action : Action α} {count : Nat} {ok : α → Machine → Prop}
  {stop : Stop → Machine → Prop} {next : Handle → Action α} {m mid : Machine} {object : Object}
  {size : Nat} {text : Bytes}

/-- What goes well without a collection. -/
theorem Ensures.barring (ensures : action.Ensures m ok stop) :
    action.Ensures m (Barring count ok) (Barring count stop) :=
  ensures.mono (fun _ _ holds _ => holds) fun _ _ holds _ => holds

theorem Frugal.barring (frugal : Frugal action) (late : mid.heap.collections ≠ count) :
    action.Ensures mid (Barring count ok) (Barring count stop) :=
  (frugal mid).mono (fun _ _ same early => absurd (same.symm.trans early) late)
    fun _ _ same early => absurd (same.symm.trans early) late

/-- An allocation with what comes after it. -/
theorem ensures_allocate (frugal : ∀ h, Frugal (next h))
    (good : (next (m.heap.insert object size).1).Ensures
      { m with heap := (m.heap.insert object size).2 } (Barring m.heap.collections ok)
      (Barring m.heap.collections stop)) :
    Ensures (allocate object size >>= next) m (Barring m.heap.collections ok)
      (Barring m.heap.collections stop) := by
  rw [ensures_bind,allocate,ensures_bind,makeRoom,ensures_bind,ensures_get,ensures_ite]
  refine ⟨fun _ => ?_,fun _ => good⟩
  rw [collect,ensures_modify]
  refine (frugal _).barring ?_
  change (m.collect.heap.insert object size).2.collections ≠ _
  rw [Heap.collections_insert]
  exact Nat.succ_ne_self _

/-- A string that is not there yet. -/
theorem ensures_allocateString (unknown : m.heap.find? text = none) (frugal : ∀ h, Frugal (next h))
    (good : (next (m.heap.insertString text).1).Ensures
      { m with heap := (m.heap.insertString text).2 } (Barring m.heap.collections ok)
      (Barring m.heap.collections stop)) :
    Ensures (allocateString text >>= next) m (Barring m.heap.collections ok)
      (Barring m.heap.collections stop) := by
  rw [ensures_bind,allocateString,ensures_bind,ensures_get,unknown]
  dsimp only
  rw [ensures_bind,makeRoom,ensures_bind,ensures_get,ensures_ite]
  refine ⟨fun _ => ?_,fun _ => good⟩
  rw [collect,ensures_modify]
  refine (frugal _).barring ?_
  change (m.collect.heap.insert (.string text) (Footprint.string text)).2.collections ≠ _
  rw [Heap.collections_insert]
  exact Nat.succ_ne_self _

end

/-- A fault of the machine is one of the evaluation, unless there was no room on the stack. -/
def Refuses {α : Type} (x : Evaluation α) (w : World) : Stop → Machine → Prop
  | .fault e, m => e.fault = .stackFull ∨
      ∃ w', x w = .error (.fault e.fault) w' ∧ m.output = w'.store.output
  | .finished, _ | .stuck, _ => False

theorem Refuses.of_eq {α : Type} {x y : Evaluation α} {w : World} {s : Stop} {m : Machine}
    (same : y w = x w) (refuses : Refuses x w s m) : Refuses y w s m := by
  cases s with
  | fault e =>
    rcases refuses with full | ⟨w',run,output⟩
    · exact .inl full
    · exact .inr ⟨w',same.trans run,output⟩
  | _ => exact refuses

/-- The action does what a part of the evaluation does. -/
def Answers {α : Type} (action : Action Unit) (m : Machine) (x : Evaluation α) (w : World)
    (done : α → World → Machine → Prop) : Prop :=
  action.Ensures m (fun _ m' => ∃ a w', x w = .ok a w' ∧ done a w' m') (Refuses x w)

/-- So it does, as long as there is no collection. -/
def Quietly {α : Type} (action : Action Unit) (m : Machine) (x : Evaluation α) (w : World)
    (done : α → World → Machine → Prop) : Prop :=
  action.Ensures m (Barring w.store.heap.collections fun _ m' => ∃ a w', x w = .ok a w' ∧ done a w' m')
    (Barring w.store.heap.collections (Refuses x w))

section

variable {α : Type} {action : Action Unit} {m : Machine} {x y : Evaluation α} {w : World}
  {done : α → World → Machine → Prop}

theorem Answers.quietly (answers : action.Answers m x w done) : action.Quietly m x w done :=
  answers.barring

theorem Quietly.of_eq (same : y w = x w) (quietly : action.Quietly m x w done) :
    action.Quietly m y w done := by
  refine Ensures.mono quietly (fun _ m' holds still => ?_) fun _ _ holds still => ?_
  · obtain ⟨a,w',run,there⟩ := holds still
    exact ⟨a,w',same.trans run,there⟩
  · exact (holds still).of_eq same

end

end Action

/-- The code of a running script: its closure, and what that refers to. What is hidden from the script
are the closures that were there before, and what only they lead to. -/
structure Code where
  closure : Handle
  chunk : Chunk
  constants : Array Value
  hidden : Set Handle

/-- Where a script is: at an offset of its code, with variables of these names, block by block, and
with these values on top of them. -/
structure Place where
  offset : Nat
  names : List (List Bytes)
  temps : List Value

namespace Code

/-- The machine at an offset of the code. -/
def state (code : Code) (offset : Nat) (w : World) (temps : List Value) : Machine :=
  Machine.piled { w.store with frames := [⟨code.closure, offset, 1⟩] }
    (temps ++ w.values ++ [.object code.closure])

/-- The machine is at the place, with the values that the variables have in the world. -/
structure Stands (code : Code) (p : Place) (w : World) (m : Machine) : Prop where
  here : m = code.state p.offset w p.temps
  plain : w.store.Plain
  function : w.store.functionOf? code.closure = some (code.chunk,code.constants)
  shuns : w.store.Shuns code.hidden
  temps : ∀ value ∈ p.temps, value.Avoids code.hidden
  values : ∀ value ∈ w.values, value.Avoids code.hidden
  names : w.names = p.names

/-- The machine is about to execute an instruction, and will not collect. -/
structure Turn (code : Code) (host : Host) (p : Place) (i : Instr) (w : World) : Prop where
  stands : code.Stands p w (code.state p.offset w p.temps)
  prospect : (code.state p.offset w p.temps).Prospect host
  quiet : ((code.state (p.offset + i.size) w p.temps).after (Action.execute host i)).heap.collections =
    w.store.heap.collections

/-- Where the jumps out of a loop and to its next round lead, and the variables outside of it. -/
structure Exits where
  names : List (List Bytes)
  leave : Nat
  again : Nat

/-- A loop is left behind it; its next round starts with a jump back. In both cases the variables of
inner blocks are gone. -/
def Out (code : Code) (exits : Option Exits) : Halt → World → Machine → Prop
  | .leave, w, m => ∃ e, exits = some e ∧
      code.Stands ⟨e.leave,e.names,[]⟩ (w.cut e.names.length) m
  | .again, w, m => ∃ e offset distance, exits = some e ∧
      code.chunk.instr? offset = some (.jumpBack distance) ∧ offset + 5 = e.again + distance ∧
      code.Stands ⟨offset,e.names,[]⟩ (w.cut e.names.length) m
  | _, _, _ => False

/-- From one place to another the code does what the evaluation does. -/
def Does {α : Type} (code : Code) (host : Host) (least : Nat) (exits : Option Exits) (p : Place)
    (x : Evaluation α) (q : α → Place) : Prop :=
  ∀ w m, code.Stands p w m → Machine.Tracks host least m x w (fun a w' m' => code.Stands (q a) w' m')
    (code.Out exits)

variable {code : Code} {host : Host} {least offset : Nat} {exits : Option Exits} {p : Place}
  {w : World} {m : Machine} {i : Instr} {temps : List Value}

/-! The stack at a place. -/

section

variable {ok : Unit → Machine → Prop} {stop : Stop → Machine → Prop} {value other : Value}

theorem ensures_push : Ensures (push value) (code.state offset w temps) ok stop ↔
    (Machine.stackLimit ≤ (code.state offset w temps).stack.size →
      stop (.fault ⟨.stackFull,(code.state offset w temps).trace⟩) (code.state offset w temps)) ∧
      ((code.state offset w temps).stack.size < Machine.stackLimit →
        ok () (code.state offset w (value :: temps))) := by
  rw [state,ensures_push_piled,size_piled]
  rfl

theorem ensures_pop : Ensures pop (code.state offset w (value :: temps)) ok stop ↔
    ok () (code.state offset w temps) :=
  ensures_pop_piled

theorem ensures_peek {ok : Value → Machine → Prop} {depth : Nat}
    (found : temps[depth]? = some value) :
    Ensures (peek depth) (code.state offset w temps) ok stop ↔
      ok value (code.state offset w temps) := by
  refine ensures_peek_piled ?_
  rw [List.append_assoc,List.getElem?_append_left (List.getElem?_eq_some_iff.mp found).1,found]

theorem ensures_replaceTop :
    Ensures (replaceTop other) (code.state offset w (value :: temps)) ok stop ↔
      ok () (code.state offset w (other :: temps)) :=
  ensures_replaceTop_piled

theorem ensures_finishBinary {left right : Value} :
    Ensures (finishBinary value) (code.state offset w (right :: left :: temps)) ok stop ↔
      ok () (code.state offset w (value :: temps)) :=
  ensures_finishBinary_piled

theorem ensures_frame {ok : Frame → Machine → Prop} :
    Ensures frame (code.state offset w temps) ok stop ↔
      ok ⟨code.closure,offset,1⟩ (code.state offset w temps) :=
  Action.ensures_frame rfl

theorem ensures_modifyFrame {change : Frame → Frame} {target : Nat}
    (there : change ⟨code.closure,offset,1⟩ = ⟨code.closure,target,1⟩) :
    Ensures (modifyFrame change) (code.state offset w temps) ok stop ↔
      ok () (code.state target w temps) := by
  rw [Action.ensures_modifyFrame]
  simp only [state,Machine.piled,List.modifyHead_cons,there]

end

/-- A step of the machine executes the instruction at the offset. -/
theorem step_at (function : w.store.functionOf? code.closure = some (code.chunk,code.constants))
    (found : code.chunk.instr? offset = some i) :
    Action.step host (code.state offset w temps) =
      Action.execute host i (code.state (offset + i.size) w temps) := by
  have reads : Ensures Action.fetch (code.state offset w temps)
      (fun j m' => j = i ∧ m' = code.state (offset + i.size) w temps) fun _ _ => False := by
    rw [Action.fetch,ensures_bind,ensures_runningFunction rfl function]
    rw [ensures_bind,ensures_frame,found,ensures_bind,ensures_some,ensures_bind,
      ensures_modifyFrame (by rfl)]
    exact ⟨rfl,rfl⟩
  obtain ⟨_,_,fetched,rfl,rfl⟩ := reads.succeeds
  rw [Action.step]
  exact run_bind_ok fetched

/-- One instruction. -/
theorem Does.instr {α : Type} {x : Evaluation α} {q : α → Place}
    (found : code.chunk.instr? p.offset = some i)
    (answers : ∀ w, code.Turn host p i w →
      (Action.execute host i).Answers (code.state (p.offset + i.size) w p.temps) x w
        fun a w' m' => code.Stands (q a) w' m') : code.Does host least exits p x q := by
  intro w m stands prospect
  obtain rfl := stands.here
  have step : Action.step host (code.state p.offset w p.temps) =
      Action.execute host i (code.state (p.offset + i.size) w p.temps) :=
    step_at stands.function found
  have quiet := prospect.quiet_step
  rw [Machine.after,EStateM.run,step] at quiet
  have answer := answers w ⟨stands,prospect,quiet⟩
  rw [Answers,Ensures,← step] at answer
  cases stepped : Action.step host (code.state p.offset w p.temps) with
  | ok _ m' =>
    rw [stepped] at answer
    obtain ⟨a,w',run,done⟩ := answer
    refine .inr ?_
    rw [run]
    exact ⟨1,m',.succ stepped (.zero m'),done⟩
  | error stop m' =>
    rw [stepped] at answer
    cases stop with
    | finished => exact answer.elim
    | stuck => exact answer.elim
    | fault e =>
      rcases answer with full | ⟨w',run,output⟩
      · refine .inl ⟨0,_,.zero _,e.trace,m',?_⟩
        rw [stepped,← full]
      · refine .inr ?_
        rw [run]
        exact ⟨0,_,.zero _,e.trace,m',stepped,output⟩

/-! Putting code together. -/

section

variable {α β : Type} {x : Evaluation α} {q : α → Place} {r : β → Place} {mid p' : Place}

theorem Does.bind {next : α → Evaluation β} (first : code.Does host least exits p x q)
    (rest : ∀ a, code.Does host least exits (q a) (next a) r) :
    code.Does host least exits p (x >>= next) r :=
  fun w m stands => (first w m stands).bind fun a w' m' => rest a w' m'

/-- There is nothing to do. -/
theorem Does.pure (a : α) : code.Does host least exits (q a) (Pure.pure a) q :=
  fun _ _ stands => .pure stands

/-- Code that the evaluation knows nothing of comes first. -/
theorem Does.before (first : code.Does host least exits p (Pure.pure ()) fun _ => mid)
    (rest : code.Does host least exits mid x q) : code.Does host least exits p x q :=
  fun w m stands => .of_eq (by rfl : x w = (Pure.pure () >>= fun _ => x) w)
    (first.bind (fun _ => rest) w m stands)

/-- Code that the evaluation knows nothing of comes last. -/
theorem Does.behind {q' : α → Place} (first : code.Does host least exits p x q)
    (rest : ∀ a, code.Does host least exits (q a) (Pure.pure ()) fun _ => q' a) :
    code.Does host least exits p x q' := by
  intro w m stands
  refine .of_eq (y := x >>= fun a => Pure.pure () >>= fun _ => Pure.pure a) ?_
    (first.bind (fun a => (rest a).bind fun _ => .pure a) w m stands)
  cases run : x w with
  | ok a w' => exact (run_bind_ok run).symm
  | error halt w' => exact (run_bind_error run).symm

end

/-! What is known of the world and the machine. -/

namespace Stands

variable {store : Machine}

/-- The machine may stand elsewhere in the same world. -/
theorem lay (stands : code.Stands p w m) (offset : Nat)
    (avoids : ∀ value ∈ temps, value.Avoids code.hidden) :
    code.Stands ⟨offset,p.names,temps⟩ w (code.state offset w temps) :=
  ⟨rfl,stands.plain,stands.function,stands.shuns,avoids,stands.values,stands.names⟩

/-- What is shared with the host may change. -/
theorem setStore (stands : code.Stands p w m) (offset : Nat) (plain : store.Plain)
    (function : store.functionOf? code.closure = some (code.chunk,code.constants))
    (shuns : store.Shuns code.hidden) (avoids : ∀ value ∈ temps, value.Avoids code.hidden) :
    code.Stands ⟨offset,p.names,temps⟩ { w with store } (code.state offset { w with store } temps) :=
  ⟨rfl,plain,function,shuns,avoids,stands.values,stands.names⟩

/-- So may the values of variables. -/
theorem setBlocks {names : List (List Bytes)} (stands : code.Stands p w m) (offset : Nat)
    (blocks : List Bindings) (values : ∀ value ∈ World.values { w with blocks },
      value.Avoids code.hidden) (same : World.names { w with blocks } = names)
    (avoids : ∀ value ∈ temps, value.Avoids code.hidden) :
    code.Stands ⟨offset,names,temps⟩ { w with blocks }
      (code.state offset { w with blocks } temps) :=
  ⟨rfl,stands.plain,stands.function,stands.shuns,avoids,values,same⟩

/-- There may be a new object. -/
theorem insert (stands : code.Stands p w m) {heap : Heap} {h : Handle} {object : Object}
    (vacant : w.store.heap.get? h = none) (found : heap.get? h = some object)
    (others : ∀ other, other ≠ h → heap.get? other = w.store.heap.get? other)
    (plain : ∀ code captures, object ≠ .closure code captures)
    (references : ∀ r ∈ object.references, r ∉ code.hidden) :
    h ∉ code.hidden ∧ ∀ offset temps, (∀ value ∈ temps, value.Avoids code.hidden) →
      code.Stands ⟨offset,p.names,temps⟩ (w.setHeap heap)
        (code.state offset (w.setHeap heap) temps) := by
  obtain ⟨visible,shuns⟩ := stands.shuns.insert vacant found others plain references
  refine ⟨visible,fun offset temps avoids => ?_⟩
  refine stands.setStore offset { stands.plain with } ?_ shuns avoids
  refine Machine.functionOf?_keep (fun k o known _ => ?_) stands.function
  refine (others k ?_).trans known
  rintro rfl
  rw [vacant] at known
  contradiction

end Stands

namespace Turn

variable {h : Handle} {n : Nat}

theorem running (turn : code.Turn host p i w) : (code.state p.offset w p.temps).Running :=
  turn.prospect.running

/-- As there is no collection, what is done quietly is done. -/
theorem quietly (turn : code.Turn host p i w) {α : Type} {x : Evaluation α}
    {done : α → World → Machine → Prop}
    (quietly : (Action.execute host i).Quietly (code.state (p.offset + i.size) w p.temps) x w done) :
    (Action.execute host i).Answers (code.state (p.offset + i.size) w p.temps) x w done := by
  have quiet := turn.quiet
  rw [Quietly,Ensures] at quietly
  rw [Answers,Ensures]
  cases run : Action.execute host i (code.state (p.offset + i.size) w p.temps) with
  | ok a m' =>
    rw [Machine.after_ok run] at quiet
    rw [run] at quietly
    exact quietly quiet
  | error s m' =>
    rw [Machine.after_error run] at quiet
    rw [run] at quietly
    exact quietly quiet

theorem tidy (turn : code.Turn host p i w) : w.store.heap.Tidy :=
  turn.running.intact.tidy

theorem valid (turn : code.Turn host p i w) {o : Object} (found : w.store.heap.get? h = some o) :
    o.Valid w.store.heap (h ∈ (∅ : Set Handle)) :=
  turn.running.intact.valid h o found

theorem holds (turn : code.Turn host p i w) {value : Value} (member : value ∈ p.temps) :
    w.store.heap.Holds value := by
  refine turn.running.intact.stack value ?_
  simp [state,Machine.piled,member]

/-- Constants have been loaded. -/
theorem loaded (turn : code.Turn host p i w) {c : Constant Chunk}
    (known : code.chunk.constants[n]? = some c) :
    ∃ value, code.constants[n]? = some value ∧ w.store.heap.Mirrors c value := by
  obtain ⟨function,captures,-,there⟩ := Machine.functionOf?_some.mp turn.stands.function
  obtain ⟨-,mirrors,complete⟩ := turn.valid there
  have bound : n < code.constants.size := by
    rw [complete not_false]
    exact (List.getElem?_eq_some_iff.mp known).1
  obtain ⟨c',here,mirror⟩ := mirrors n _ (Array.getElem?_eq_getElem bound)
  rw [known] at here
  cases here
  exact ⟨_,Array.getElem?_eq_getElem bound,mirror⟩

/-- The strings among the constants are interned. -/
theorem named (turn : code.Turn host p i w) {text : Bytes}
    (known : code.chunk.constants[n]? = some (.string text)) :
    ∃ h, code.constants[n]? = some (.object h) ∧ w.store.heap.find? text = some h ∧
      w.store.heap.get? h = some (.string text) := by
  obtain ⟨value,found,h,rfl,here⟩ := turn.loaded known
  exact ⟨h,found,(turn.tidy.interned text h).mpr here,here⟩

end Turn

end Code

end ScriptMachine
