import Mathlib
import ScriptMachine.Proofs.Actions

/-! The frames of the machine. Only jumps, calls and returns change them: whatever else an instruction
does, the running function goes on behind it. -/
namespace ScriptMachine

namespace Action

/-- When the action goes well, the frames are as before. -/
def Stays {α : Type} (x : Action α) : Prop :=
  ∀ m a m', x m = .ok a m' → m'.frames = m.frames

section

variable {α β : Type} {x y : Action α} {k : α → Action β}

theorem Stays.bind (first : Stays x) (rest : ∀ a, Stays (k a)) : Stays (x >>= k) := by
  intro m b m' run
  obtain ⟨a,mid,head,tail⟩ := bind_ok run
  exact (rest a mid b m' tail).trans (first m a mid head)

theorem Stays.map (first : Stays x) (f : α → β) : Stays (f <$> x) := by
  rw [map_eq_pure_bind]
  refine first.bind fun a m b m' run => ?_
  cases run
  rfl

theorem Stays.ite {c : Prop} [Decidable c] (yes : Stays x) (no : Stays y) :
    Stays (if c then x else y) := by
  split
  · exact yes
  · exact no

theorem stays_pure (a : α) : Stays (Pure.pure a) := by
  intro m b m' run
  cases run
  rfl

theorem stays_get : Stays (get : Action Machine) := by
  intro m a m' run
  cases run
  rfl

theorem stays_modify {change : Machine → Machine} (same : ∀ m, (change m).frames = m.frames) :
    Stays (modify change : Action PUnit) := by
  intro m a m' run
  cases run
  exact same m

theorem stays_modifyGet {change : Machine → α × Machine} (same : ∀ m, (change m).2.frames = m.frames) :
    Stays (modifyGet change : Action α) := by
  intro m a m' run
  cases run
  exact same m

theorem stays_stuck : Stays (stuck : Action α) := by
  intro m a m' run
  cases run

theorem stays_fault (f : RuntimeFault) : Stays (fault f : Action α) := by
  intro m a m' run
  cases run

theorem stays_need (a : Option α) : Stays (need a) := by
  cases a with
  | none => exact stays_stuck
  | some a => exact stays_pure a

end

theorem stays_push (value : Value) : Stays (push value) :=
  stays_get.bind fun _ => .ite ((stays_fault _).bind fun _ => stays_modify fun _ => rfl)
    (stays_modify fun _ => rfl)

theorem stays_pop : Stays pop :=
  stays_get.bind fun _ => .ite (stays_stuck.bind fun _ => stays_modify fun _ => rfl)
    (stays_modify fun _ => rfl)

theorem stays_peek (depth : Nat) : Stays (peek depth) :=
  stays_get.bind fun _ => .ite (stays_need _) stays_stuck

theorem stays_slot (index : Nat) : Stays (slot index) :=
  stays_get.bind fun _ => stays_need _

theorem stays_setSlot (index : Nat) (value : Value) : Stays (setSlot index value) :=
  stays_get.bind fun _ => .ite (stays_modify fun _ => rfl)
    (stays_stuck.bind fun _ => stays_modify fun _ => rfl)

theorem stays_replaceTop (value : Value) : Stays (replaceTop value) :=
  stays_get.bind fun _ => .ite (stays_stuck.bind fun _ => stays_setSlot _ _) (stays_setSlot _ _)

theorem stays_frame : Stays frame :=
  stays_get.bind fun _ => stays_need _

theorem stays_object (h : Handle) : Stays (object h) :=
  stays_get.bind fun _ => stays_need _

theorem stays_updateObject (h : Handle) (change : Object → Object) : Stays (updateObject h change) :=
  stays_modify fun _ => rfl

theorem stays_objectOf? : (value : Value) → Stays (objectOf? value)
  | .object h => (stays_object h).map _
  | .number _ | .bool _ | .nil => stays_pure _

theorem stays_stringOf? (value : Value) : Stays (stringOf? value) := by
  refine (stays_objectOf? value).bind fun o => ?_
  split <;> exact stays_pure _

theorem stays_typeName (value : Value) : Stays (typeName value) :=
  stays_get.bind fun _ => stays_pure _

theorem stays_text (value : Value) : Stays (text value) :=
  stays_get.bind fun _ => stays_pure _

theorem stays_nameText (name : Handle) : Stays (nameText name) :=
  stays_get.bind fun _ => stays_pure _

theorem stays_nameOf (value : Value) : Stays (nameOf value) := by
  cases value with
  | object h =>
    refine (stays_object h).bind fun o => ?_
    split
    · exact stays_pure _
    · exact stays_stuck
  | _ => exact stays_stuck

theorem stays_runningFunction : Stays runningFunction := by
  refine stays_get.bind fun m => ?_
  split
  · exact stays_need _
  · exact stays_stuck

theorem stays_constant (index : Nat) : Stays (constant index) :=
  stays_runningFunction.bind fun _ => stays_need _

theorem stays_capturedCell (index : Nat) : Stays (capturedCell index) := by
  refine stays_frame.bind fun f => (stays_object _).bind fun o => ?_
  split
  · exact stays_need _
  · exact stays_stuck

theorem stays_cellState (h : Handle) : Stays (cellState h) := by
  refine (stays_object h).bind fun o => ?_
  split
  · exact stays_pure _
  · exact stays_stuck

theorem stays_makeRoom (size : Nat) : Stays (makeRoom size) :=
  stays_get.bind fun _ => .ite (stays_modify fun _ => rfl) (stays_pure _)

theorem stays_allocate (object : Object) (size : Nat) : Stays (allocate object size) :=
  (stays_makeRoom size).bind fun _ => stays_modifyGet fun _ => rfl

theorem stays_allocateString (text : Bytes) : Stays (allocateString text) := by
  refine stays_get.bind fun m => ?_
  split
  · exact stays_pure _
  · exact (stays_makeRoom _).bind fun _ => stays_modifyGet fun _ => rfl

theorem stays_binaryFault (op : BinaryOp) (lhs rhs : Value) : Stays (binaryFault op lhs rhs) :=
  (stays_typeName _).bind fun _ => (stays_typeName _).bind fun _ => stays_fault _

theorem stays_finishBinary (result : Value) : Stays (finishBinary result) :=
  stays_pop.bind fun _ => stays_replaceTop _

theorem stays_binary (op : BinaryOp) : Stays (binary op) := by
  refine (stays_peek 0).bind fun rhs => (stays_peek 1).bind fun lhs => ?_
  split
  · exact stays_finishBinary _
  · exact stays_finishBinary _
  · exact stays_finishBinary _
  · refine (stays_stringOf? lhs).bind fun a => (stays_stringOf? rhs).bind fun b => ?_
    split
    · refine .ite ((stays_allocateString _).bind fun _ => stays_finishBinary _) ?_
      split
      · exact stays_finishBinary _
      · exact stays_binaryFault _ _ _
    · exact stays_binaryFault _ _ _

theorem stays_unary (op : UnaryOp) : Stays (unary op) := by
  refine (stays_peek 0).bind fun value => ?_
  split
  · exact stays_replaceTop _
  · exact stays_replaceTop _
  · exact (stays_typeName _).bind fun _ => stays_fault _

theorem stays_getGlobal (name : Handle) : Stays (getGlobal name) := by
  refine stays_get.bind fun m => ?_
  split
  · exact stays_push _
  · exact (stays_nameText _).bind fun _ => stays_fault _

theorem stays_setGlobal (name : Handle) : Stays (setGlobal name) :=
  stays_get.bind fun _ => .ite ((stays_peek 0).bind fun _ => stays_modify fun _ => rfl)
    ((stays_nameText _).bind fun _ => stays_fault _)

theorem stays_getCapture (index : Nat) : Stays (getCapture index) := by
  refine (stays_capturedCell index).bind fun cell => (stays_cellState cell).bind fun state => ?_
  split
  · exact (stays_slot _).bind fun _ => stays_push _
  · exact stays_push _

theorem stays_setCapture (index : Nat) : Stays (setCapture index) := by
  refine (stays_capturedCell index).bind fun cell => (stays_peek 0).bind fun value =>
    (stays_cellState cell).bind fun state => ?_
  split
  · exact stays_setSlot _ _
  · exact stays_updateObject _ _

theorem stays_record? (value : Value) : Stays (record? value) := by
  refine (stays_objectOf? value).bind fun o => ?_
  split <;> exact stays_pure _

theorem stays_fieldIndex (struct label : Handle) : Stays (fieldIndex struct label) := by
  refine (stays_object struct).bind fun o => ?_
  split
  · split
    · exact stays_pure _
    · exact (stays_nameText _).bind fun _ => (stays_nameText _).bind fun _ => stays_fault _
  · exact stays_stuck

theorem stays_getField (label : Handle) : Stays (getField label) := by
  refine (stays_peek 0).bind fun value => (stays_record? value).bind fun record => ?_
  split
  · exact (stays_fieldIndex _ _).bind fun _ => (stays_need _).bind fun _ => stays_replaceTop _
  · exact (stays_nameText _).bind fun _ => (stays_typeName _).bind fun _ => stays_fault _

theorem stays_setField (label : Handle) : Stays (setField label) := by
  refine (stays_peek 0).bind fun target => (stays_peek 1).bind fun value =>
    (stays_record? target).bind fun record => ?_
  split
  · exact (stays_fieldIndex _ _).bind fun _ => .ite ((stays_updateObject _ _).bind fun _ => stays_pop)
      (stays_stuck.bind fun _ => (stays_updateObject _ _).bind fun _ => stays_pop)
  · exact (stays_nameText _).bind fun _ => (stays_typeName _).bind fun _ => stays_fault _

theorem stays_captureCell (capture : Capture) : Stays (captureCell capture) := by
  refine .ite (stays_frame.bind fun f => stays_get.bind fun m => ?_) (stays_capturedCell _)
  split
  · exact stays_pure _
  · exact (stays_allocate _ _).bind fun _ => .bind (stays_modify fun _ => rfl) fun _ => stays_pure _

theorem stays_addCaptures (closure : Handle) (captures : List Capture) :
    Stays (addCaptures closure captures) := by
  induction captures with
  | nil => exact stays_pure ()
  | cons first rest ih =>
    exact (stays_captureCell first).bind fun _ => (stays_updateObject _ _).bind fun _ => ih

/-- If there is no room for the closure, the action does not go well. -/
theorem stays_makeClosure (function : Handle) (captures : List Capture) :
    Stays (makeClosure function captures) := by
  have rest (h : Handle) : Stays (do push (.object h); addCaptures h captures) :=
    (stays_push _).bind fun _ => stays_addCaptures _ _
  have made : Stays (allocateClosure function) := by
    refine (stays_object function).bind fun o => ?_
    split
    · exact stays_allocate _ _
    · exact stays_stuck
  refine made.bind fun h => stays_get.bind fun m => ?_
  split
  · intro m a m' run
    cases run
  · exact rest h

theorem stays_namesOf (indices : List Nat) : Stays (namesOf indices) := by
  induction indices with
  | nil => exact stays_pure []
  | cons first rest ih =>
    exact (stays_constant first).bind fun _ => (stays_nameOf _).bind fun _ => ih.map _

theorem stays_closeFrom (place : Nat) (cells : List Handle) : Stays (closeFrom place cells) := by
  induction cells with
  | nil => exact stays_pure []
  | cons h rest ih =>
    refine (stays_cellState h).bind fun state => ?_
    have closes (p : Nat) : Stays (do
        let value ← slot p
        updateObject h fun _ => .cell (.closed value)
        closeFrom place rest) :=
      (stays_slot p).bind fun _ => (stays_updateObject _ _).bind fun _ => ih
    split
    · exact .ite (ih.bind fun _ => stays_pure _) (closes _)
    · exact stays_stuck

theorem stays_closeCells (place : Nat) : Stays (closeCells place) :=
  stays_get.bind fun _ => (stays_closeFrom _ _).bind fun _ => stays_modify fun _ => rfl

end Action

/-- The instruction does not leave for another frame or another offset. -/
def Instr.Stays : Instr → Prop
  | jump _ | jumpIf .. | jumpBack _ | call _ | ret => False
  | _ => True

namespace Action

theorem stays_execute (host : Host) {i : Instr} (stays : i.Stays) : Stays (execute host i) := by
  have named (n : Nat) {k : Handle → Action Unit} (each : ∀ h, Stays (k h)) :
      Stays (do k (← nameOf (← constant n))) :=
    (stays_constant n).bind fun value => (stays_nameOf value).bind each
  cases i with
  | binary op => exact stays_binary op
  | unary op => exact stays_unary op
  | loadConstant n => exact (stays_constant n).bind fun _ => stays_push _
  | getLocal n => exact stays_frame.bind fun _ => (stays_slot _).bind fun _ => stays_push _
  | setLocal n => exact stays_frame.bind fun _ => (stays_peek 0).bind fun _ => stays_setSlot _ _
  | defineGlobal n =>
    exact named n fun _ => (stays_peek 0).bind fun _ => .bind (stays_modify fun _ => rfl) fun _ =>
      stays_pop
  | getGlobal n => exact named n stays_getGlobal
  | setGlobal n => exact named n stays_setGlobal
  | getCapture n => exact stays_getCapture n
  | setCapture n => exact stays_setCapture n
  | getField n => exact named n stays_getField
  | setField n => exact named n stays_setField
  | loadNil => exact stays_push _
  | loadBool b => exact stays_push _
  | closure n captures =>
    refine (stays_constant n).bind fun value => ?_
    split
    · exact stays_makeClosure _ _
    · exact stays_stuck
  | createStruct n fields =>
    exact named n fun _ => (stays_namesOf _).bind fun _ => (stays_allocate _ _).bind fun _ =>
      stays_push _
  | closeCell =>
    have rest (size : Nat) : Stays (do closeCells (size - 1); pop) :=
      (stays_closeCells _).bind fun _ => stays_pop
    exact stays_get.bind fun _ => .ite (stays_stuck.bind fun _ => rest _) (rest _)
  | pop => exact stays_pop
  | duplicate => exact (stays_peek 0).bind fun _ => stays_push _
  | print =>
    exact (stays_peek 0).bind fun _ => (stays_text _).bind fun _ =>
      .bind (stays_modify fun _ => rfl) fun _ => stays_pop
  | jump => exact stays.elim
  | jumpIf => exact stays.elim
  | jumpBack => exact stays.elim
  | call => exact stays.elim
  | ret => exact stays.elim

end Action

end ScriptMachine
