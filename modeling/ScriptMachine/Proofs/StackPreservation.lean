import Mathlib
import ScriptMachine.Proofs.Actions

/-! Actions that do not touch the operand stack or the frames, make no functions and do not fail. Most of
what instructions do before they change the stack is of this kind, and so are the standard native
functions. -/
namespace ScriptMachine

namespace Heap

/-- All functions of the later heap were there before. -/
def Lends (heap future : Heap) : Prop :=
  ∀ h chunk constants, future.get? h = some (.function chunk constants) →
    heap.get? h = some (.function chunk constants)

variable {heap future last : Heap}

theorem Lends.refl (heap : Heap) : heap.Lends heap :=
  fun _ _ _ found => found

theorem Lends.trans (first : heap.Lends future) (second : future.Lends last) : heap.Lends last :=
  fun h chunk constants found => first h chunk constants (second h chunk constants found)

theorem lends_collect (heap : Heap) (roots : List Handle) : heap.Lends (heap.collect roots) :=
  fun _ _ _ => get?_of_collect

theorem lends_insert {object : Object} (plain : ∀ chunk constants, object ≠ .function chunk constants)
    (heap : Heap) (size : Nat) : heap.Lends (heap.insert object size).2 := by
  intro h chunk constants found
  rw [insert] at found
  split at found
  next index free known =>
    by_cases same : index = h.index
    · by_cases inside : index < heap.slots.size
      · simp [get?,← same,inside] at found
        exact absurd found (plain chunk constants)
      · simp [get?,← same,inside] at found
    · rwa [get?,Array.getElem?_setIfInBounds_ne same] at found
  next known =>
    rw [get?,Array.getElem?_push] at found
    split at found
    · cases found
      exact absurd rfl (plain chunk constants)
    · exact found

theorem lends_update {change : Object → Object}
    (plain : ∀ o chunk constants, change o = .function chunk constants → o = .function chunk constants)
    (heap : Heap) (h : Handle) : heap.Lends (heap.update h change) := by
  intro other chunk constants found
  rw [get?_update] at found
  split at found
  next same =>
    obtain ⟨o,here,changed⟩ := Option.map_eq_some_iff.mp found
    rw [same,here,plain o chunk constants changed]
  next => exact found

end Heap

/-- The stack and the frames are as before, and there are no new functions. -/
structure Machine.Still (m m' : Machine) : Prop where
  stack : m'.stack = m.stack
  frames : m'.frames = m.frames
  functions : m.heap.Lends m'.heap

theorem Machine.Still.refl (m : Machine) : m.Still m :=
  ⟨rfl,rfl,.refl _⟩

theorem Machine.Still.trans {m mid m' : Machine} (first : m.Still mid) (second : mid.Still m') :
    m.Still m' :=
  ⟨second.stack.trans first.stack,second.frames.trans first.frames,first.functions.trans second.functions⟩

namespace Action

/-- How a calm action may stop: not by a fault. -/
def Rests (m : Machine) (s : Stop) (m' : Machine) : Prop :=
  m.Still m' ∧ ∀ e, s ≠ .fault e

def Calm {α : Type} (x : Action α) : Prop :=
  ∀ m, x.Ensures m (fun _ m' => m.Still m') (Rests m)

section

variable {α β : Type} {x y : Action α} {k : α → Action β}

theorem Calm.bind (first : Calm x) (rest : ∀ a, Calm (k a)) : Calm (x >>= k) := by
  intro m
  rw [ensures_bind]
  refine (first m).mono (fun a mid still => ?_) fun _ _ stops => stops
  exact (rest a mid).mono (fun _ _ => still.trans) fun _ _ stops => ⟨still.trans stops.1,stops.2⟩

theorem Calm.map (first : Calm x) (f : α → β) : Calm (f <$> x) := by
  intro m
  rw [ensures_map]
  exact first m

theorem Calm.ite {c : Prop} [Decidable c] (yes : Calm x) (no : Calm y) :
    Calm (if c then x else y) := by
  split
  · exact yes
  · exact no

theorem calm_pure (a : α) : Calm (Pure.pure a) :=
  fun m => .refl m

theorem calm_get : Calm (get : Action Machine) :=
  fun m => .refl m

theorem calm_modify {change : Machine → Machine} (still : ∀ m : Machine, m.Still (change m)) :
    Calm (modify change : Action PUnit) :=
  still

theorem calm_modifyGet {change : Machine → α × Machine} (still : ∀ m : Machine, m.Still (change m).2) :
    Calm (modifyGet change : Action α) :=
  still

theorem calm_stuck : Calm (stuck : Action α) :=
  fun m => ⟨.refl m,nofun⟩

theorem calm_need (a : Option α) : Calm (need a) := by
  cases a with
  | none => exact calm_stuck
  | some a => exact calm_pure a

end

/-! Looking at the machine. -/

theorem calm_peek (depth : Nat) : Calm (peek depth) :=
  calm_get.bind fun _ => .ite (calm_need _) calm_stuck

theorem calm_slot (index : Nat) : Calm (slot index) :=
  calm_get.bind fun _ => calm_need _

theorem calm_frame : Calm frame :=
  calm_get.bind fun _ => calm_need _

theorem calm_object (h : Handle) : Calm (object h) :=
  calm_get.bind fun _ => calm_need _

theorem calm_objectOf? : (value : Value) → Calm (objectOf? value)
  | .object h => (calm_object h).map _
  | .number _ | .bool _ | .nil => calm_pure _

theorem calm_stringOf? (value : Value) : Calm (stringOf? value) := by
  refine (calm_objectOf? value).bind fun o => ?_
  split <;> exact calm_pure _

theorem calm_typeName (value : Value) : Calm (typeName value) :=
  calm_get.bind fun _ => calm_pure _

theorem calm_text (value : Value) : Calm (text value) :=
  calm_get.bind fun _ => calm_pure _

theorem calm_nameText (name : Handle) : Calm (nameText name) :=
  calm_get.bind fun _ => calm_pure _

theorem calm_nameOf (value : Value) : Calm (nameOf value) := by
  cases value with
  | object h =>
    refine (calm_object h).bind fun o => ?_
    split
    · exact calm_pure _
    · exact calm_stuck
  | _ => exact calm_stuck

theorem calm_runningFunction : Calm runningFunction := by
  refine calm_get.bind fun m => ?_
  split
  · exact calm_need _
  · exact calm_stuck

theorem calm_constant (index : Nat) : Calm (constant index) :=
  calm_runningFunction.bind fun _ => calm_need _

theorem calm_namesOf (indices : List Nat) : Calm (namesOf indices) := by
  induction indices with
  | nil => exact calm_pure []
  | cons first rest ih =>
    exact (calm_constant first).bind fun _ => (calm_nameOf _).bind fun _ => ih.map _

theorem calm_capturedCell (index : Nat) : Calm (capturedCell index) := by
  refine calm_frame.bind fun f => (calm_object _).bind fun o => ?_
  split
  · exact calm_need _
  · exact calm_stuck

theorem calm_cellState (h : Handle) : Calm (cellState h) := by
  refine (calm_object h).bind fun o => ?_
  split
  · exact calm_pure _
  · exact calm_stuck

theorem calm_record? (value : Value) : Calm (record? value) := by
  refine (calm_objectOf? value).bind fun o => ?_
  split <;> exact calm_pure _

/-! Changing the heap and what else does not matter. -/

theorem calm_updateObject (h : Handle) {change : Object → Object}
    (plain : ∀ o chunk constants, change o = .function chunk constants → o = .function chunk constants) :
    Calm (updateObject h change) :=
  calm_modify fun m => ⟨rfl,rfl,Heap.lends_update plain m.heap h⟩

theorem calm_write (bytes : Bytes) : Calm (write bytes) :=
  calm_modify fun _ => ⟨rfl,rfl,.refl _⟩

theorem calm_collect : Calm collect :=
  calm_modify fun m => ⟨rfl,rfl,m.heap.lends_collect m.roots⟩

theorem calm_makeRoom (size : Nat) : Calm (makeRoom size) :=
  calm_get.bind fun _ => .ite calm_collect (calm_pure _)

theorem calm_allocate {object : Object} (plain : ∀ chunk constants, object ≠ .function chunk constants)
    (size : Nat) : Calm (allocate object size) :=
  (calm_makeRoom size).bind fun _ =>
    calm_modifyGet fun m => ⟨rfl,rfl,Heap.lends_insert plain m.heap size⟩

theorem calm_allocateString (text : Bytes) : Calm (allocateString text) := by
  refine calm_get.bind fun m => ?_
  split
  · exact calm_pure _
  · exact (calm_makeRoom _).bind fun _ =>
      calm_modifyGet fun m => ⟨rfl,rfl,Heap.lends_insert (by simp) m.heap _⟩

theorem calm_allocateClosure (function : Handle) : Calm (allocateClosure function) := by
  refine (calm_object function).bind fun o => ?_
  split
  · exact calm_allocate (by simp) _
  · exact calm_stuck

theorem calm_allocateRecord (struct : Handle) : Calm (allocateRecord struct) := by
  refine (calm_object struct).bind fun o => ?_
  split
  · exact calm_allocate (by simp) _
  · exact calm_stuck

theorem calm_pinning {α : Type} (value : Value) {action : Action α} (calm : Calm action) :
    Calm (pinning value action) :=
  .bind (calm_modify fun _ => ⟨rfl,rfl,.refl _⟩) fun _ => calm.bind fun _ =>
    .bind (calm_modify fun _ => ⟨rfl,rfl,.refl _⟩) fun _ => calm_pure _

theorem calm_setGlobalNamed (name : Bytes) (value : Value) : Calm (setGlobalNamed name value) :=
  (calm_pinning value (calm_allocateString name)).bind fun _ => calm_modify fun _ => ⟨rfl,rfl,.refl _⟩

theorem calm_defineNative (name : Bytes) (native : Native) : Calm (defineNative name native) :=
  (calm_allocate (by simp) _).bind fun _ => calm_setGlobalNamed name _

theorem calm_captureCell (capture : Capture) : Calm (captureCell capture) := by
  refine .ite (calm_frame.bind fun f => calm_get.bind fun m => ?_) (calm_capturedCell _)
  split
  · exact calm_pure _
  · exact (calm_allocate (by simp) _).bind fun _ =>
      .bind (calm_modify fun _ => ⟨rfl,rfl,.refl _⟩) fun _ => calm_pure _

theorem calm_addCaptures (closure : Handle) (captures : List Capture) :
    Calm (addCaptures closure captures) := by
  induction captures with
  | nil => exact calm_pure ()
  | cons first rest ih =>
    refine (calm_captureCell first).bind fun _ => (calm_updateObject _ fun o => ?_).bind fun _ => ih
    cases o <;> simp [addCapture]

theorem calm_closeFrom (place : Nat) (cells : List Handle) : Calm (closeFrom place cells) := by
  induction cells with
  | nil => exact calm_pure []
  | cons h rest ih =>
    refine (calm_cellState h).bind fun state => ?_
    have closes (p : Nat) : Calm (do
        let value ← slot p
        updateObject h fun _ => .cell (.closed value)
        closeFrom place rest) :=
      (calm_slot p).bind fun _ => (calm_updateObject _ (by simp)).bind fun _ => ih
    split
    · exact .ite (ih.bind fun _ => calm_pure _) (closes _)
    · exact calm_stuck

theorem calm_closeCells (place : Nat) : Calm (closeCells place) :=
  calm_get.bind fun _ => (calm_closeFrom _ _).bind fun _ => calm_modify fun _ => ⟨rfl,rfl,.refl _⟩

end Action

open ScriptMachine.Action

/-! Native functions. -/

/-- Native functions do as they please with the machine, but not with its stacks, and they have no other
way to fail than by a failure of their own. -/
def Host.Modest (host : Host) : Prop :=
  ∀ native arguments (m : Machine), (host.call native arguments).run.Ensures m
    (fun _ m' => m'.stack = m.stack ∧ m'.frames = m.frames)
    fun s m' => (m'.stack = m.stack ∧ m'.frames = m.frames) ∧ ∀ e, s ≠ .fault e

namespace NativeAction

variable {α β : Type}

def Calm (action : NativeAction α) : Prop :=
  Action.Calm action.run

theorem Calm.bind {action : NativeAction α} {next : α → NativeAction β} (first : Calm action)
    (rest : ∀ a, Calm (next a)) : Calm (action >>= next) := by
  rw [Calm,ExceptT.run_bind]
  refine Action.Calm.bind first fun result => ?_
  cases result with
  | ok a => exact rest a
  | error failure => exact calm_pure _

theorem Calm.of_action {x : Action α} (calm : Action.Calm x) : Calm (liftM x : NativeAction α) :=
  calm.map Except.ok

theorem Calm.pure (a : α) : Calm (Pure.pure a : NativeAction α) :=
  calm_pure _

theorem Calm.throw (failure : NativeFault) : Calm (throw failure : NativeAction α) :=
  calm_pure _

theorem calm_argument (arguments : List Value) (index : Nat) : Calm (Native.argument arguments index) :=
  .of_action (calm_need _)

theorem calm_refuse (index : Nat) (expected : String) (found : Value) :
    Calm (Native.refuse index expected found : NativeAction α) :=
  .bind (.of_action (calm_typeName found)) fun _ => .throw _

theorem calm_number (arguments : List Value) (index : Nat) : Calm (Native.number arguments index) := by
  refine (calm_argument arguments index).bind fun value => ?_
  split
  · exact .pure _
  · exact calm_refuse _ _ _

theorem calm_bool (arguments : List Value) (index : Nat) : Calm (Native.bool arguments index) := by
  refine (calm_argument arguments index).bind fun value => ?_
  split
  · exact .pure _
  · exact calm_refuse _ _ _

theorem calm_string (arguments : List Value) (index : Nat) : Calm (Native.string arguments index) := by
  refine (calm_argument arguments index).bind fun value =>
    (Calm.of_action (calm_stringOf? value)).bind fun text => ?_
  split
  · exact .pure _
  · exact calm_refuse _ _ _

theorem calm_newString (text : Bytes) : Calm (Native.newString text) :=
  .bind (.of_action (calm_allocateString text)) fun _ => .pure _

theorem calm_machine : Calm (getThe Machine : NativeAction Machine) :=
  .of_action calm_get

end NativeAction

theorem Action.calm_joinPair (lhs rhs : Value) : Calm (Native.joinPair lhs rhs) :=
  (calm_text lhs).bind fun _ => (calm_allocateString _).bind fun _ => calm_pinning _ <|
    (calm_text rhs).bind fun _ => (calm_allocateString _).bind fun _ => calm_pinning _ <|
    calm_collect.bind fun _ => (calm_allocateString _).bind fun _ => calm_pinning _ <|
    calm_collect.bind fun _ => calm_pure _

theorem Action.calm_inspection (value : Value) : Calm (Native.inspection value) := by
  cases value with
  | object h =>
    refine (calm_stringOf? _).bind fun text => ?_
    split
    · exact calm_pure _
    · exact (calm_typeName _).bind fun _ => calm_pure _
  | _ => exact calm_pure _

open NativeAction in
theorem Native.calm_call (native : Native) (arguments : List Value) :
    NativeAction.Calm (native.call arguments) := by
  cases native with
  | str =>
    refine (calm_argument arguments 0).bind fun value =>
      (Calm.of_action (calm_stringOf? value)).bind fun text => ?_
    split
    · exact .pure _
    · exact (Calm.of_action (calm_text value)).bind fun _ => calm_newString _
  | clock => exact calm_machine.bind fun _ => .pure _
  | put =>
    exact (calm_argument arguments 0).bind fun value => (Calm.of_action (calm_text value)).bind fun _ =>
      (Calm.of_action (calm_write _)).bind fun _ => .pure _
  | twice => exact (calm_number arguments 0).bind fun _ => .pure _
  | flip => exact (calm_bool arguments 0).bind fun _ => .pure _
  | len => exact (calm_string arguments 0).bind fun _ => .pure _
  | count => exact .pure _
  | type =>
    exact (calm_argument arguments 0).bind fun value => (Calm.of_action (calm_typeName value)).bind fun _ =>
      calm_newString _
  | tick =>
    have counted (step : Float) : Action.Calm (modify fun m => { m with counter := m.counter + step }) :=
      calm_modify fun _ => ⟨rfl,rfl,.refl _⟩
    exact (calm_number arguments 0).bind fun step => (Calm.of_action (counted step)).bind fun _ =>
      calm_machine.bind fun _ => .pure _
  | depth => exact calm_machine.bind fun _ => .pure _
  | frames => exact calm_machine.bind fun _ => .pure _
  | gc => exact (Calm.of_action calm_collect).bind fun _ => .pure _
  | live => exact calm_machine.bind fun _ => .pure _
  | state => exact calm_machine.bind fun _ => calm_newString _
  | mix =>
    exact (calm_number arguments 0).bind fun _ => (calm_bool arguments 1).bind fun _ =>
      (calm_string arguments 2).bind fun _ => calm_newString _
  | fail =>
    exact (calm_string arguments 0).bind fun _ => (calm_string arguments 1).bind fun _ => .throw _
  | pair =>
    exact (calm_argument arguments 0).bind fun lhs => (calm_argument arguments 1).bind fun rhs =>
      .of_action (calm_joinPair lhs rhs)
  | inspect =>
    exact (calm_argument arguments 0).bind fun value =>
      (Calm.of_action (calm_inspection value)).bind fun _ => calm_newString _
  | constants =>
    refine (calm_number arguments 0).bind fun n => ?_
    split
    · exact .pure _
    · split <;> exact .pure _
  | custom id => exact .throw _

theorem Host.standard_modest : Host.standard.Modest :=
  fun native arguments m => (native.calm_call arguments m).mono
    (fun _ _ still => ⟨still.stack,still.frames⟩) fun _ _ rests => ⟨⟨rests.1.stack,rests.1.frames⟩,rests.2⟩

end ScriptMachine
