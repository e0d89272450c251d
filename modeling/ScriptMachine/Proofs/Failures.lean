import Mathlib
import ScriptMachine.Proofs.Chronicle
import ScriptMachine.Proofs.Mirroring
import ScriptMachine.Proofs.StackPreservation
import ScriptMachine.Proofs.Steps

/-! Instructions that fail. A fault that the machine itself raises comes before anything has changed: at
most a new object has been made that did not fit onto the stack. Where a call or a return leaves a value
it has made room before. -/
namespace ScriptMachine

open ScriptMachine.Action

/-- Not raised by a native function. -/
def RuntimeFault.IsOwn (fault : RuntimeFault) : Prop :=
  ∀ function category message, fault ≠ .native function category message

namespace Machine

/-- The stack is within its limit, and so are the frames. -/
structure Sized (m : Machine) : Prop where
  stack : m.stack.size ≤ stackLimit
  bases : ∀ f ∈ m.frames, f.base ≤ stackLimit

/-- The machine is as it was before a fault, but for the place in the running function. Only if one of the
stacks is full the heap may be another, yet not in what the roots reach. -/
structure Survives (m : Machine) (fault : RuntimeFault) (m' : Machine) : Prop where
  frames : ∃ ip, m'.frames = m.frames.modifyHead fun f => { f with ip }
  same : m' = { m with heap := m'.heap, frames := m'.frames }
  heap : fault.category ≠ .stackOverflow → m'.heap = m.heap
  kept : ∀ h o, m.heap.Reaches m.roots h → m.heap.get? h = some o → m'.heap.get? h = some o

/-- How an instruction that has been read fails. The trace is that of the machine, and the place in the
running function is still within the instruction. -/
structure Halts (m : Machine) (i : Instr) (e : RuntimeError) (m' : Machine) : Prop where
  trace : e.trace = m'.trace
  place : ∃ back < i.size, m'.frames = m.frames.modifyHead fun f => { f with ip := f.ip - back }
  own : e.fault.IsOwn → m.Survives e.fault m'
  room : e.fault = .stackFull → i ≠ .ret ∧ ∀ n, i ≠ .call n

variable {m mid m' : Machine} {i : Instr} {f : RuntimeFault}

theorem Still.sized (still : m.Still m') (sized : m.Sized) : m'.Sized :=
  ⟨still.stack ▸ sized.stack,still.frames ▸ sized.bases⟩

theorem Sized.moved {change : Frame → Frame} (base : ∀ f, (change f).base = f.base) (sized : m.Sized) :
    Machine.Sized { m with frames := m.frames.modifyHead change } := by
  refine ⟨sized.stack,?_⟩
  have bases := sized.bases
  change ∀ g ∈ m.frames.modifyHead change, g.base ≤ _
  cases frames : m.frames with
  | nil => simp
  | cons f fs =>
    rw [frames,List.forall_mem_cons] at bases
    rw [List.modifyHead_cons,List.forall_mem_cons,base]
    exact bases

theorem frames_unmoved (m : Machine) :
    m.frames.modifyHead (fun f => { f with ip := f.ip - 0 }) = m.frames := by
  cases m.frames with
  | nil => rfl
  | cons f fs => rfl

/-- The instruction fails at once. -/
theorem halts_here (room : f = .stackFull → i ≠ .ret ∧ ∀ n, i ≠ .call n) : m.Halts i ⟨f,m.trace⟩ m := by
  refine ⟨rfl,⟨0,i.size_pos,m.frames_unmoved.symm⟩,
    fun _ => ⟨?_,rfl,fun _ => rfl,fun _ _ _ found => found⟩,room⟩
  cases m.frames with
  | nil => exact ⟨0,rfl⟩
  | cons f fs => exact ⟨f.ip,rfl⟩

/-- A native function fails. -/
theorem halts_native {function message : Bytes} {category : RuntimeFault.Category}
    (frames : m'.frames = m.frames) : m.Halts i ⟨.native function category message,m'.trace⟩ m' :=
  ⟨rfl,⟨0,i.size_pos,frames ▸ m'.frames_unmoved.symm⟩,fun own => absurd rfl (own function category message),
    nofun⟩

/-- There is no room for an object that has been made. -/
theorem Clears.halts (clears : m.Clears mid) (room : i ≠ .ret ∧ ∀ n, i ≠ .call n) {back : Nat}
    (inside : back < i.size) (m' : Machine)
    (moved : m' = { mid with frames := mid.frames.modifyHead fun f => { f with ip := f.ip - back } }) :
    m.Halts i ⟨.stackFull,m'.trace⟩ m' := by
  have frames : mid.frames = m.frames := by rw [clears.same]
  have same : m' = { m with heap := m'.heap, frames := m'.frames } := by rw [moved,clears.same]
  have kept (h : Handle) (o : Object) (reached : m.heap.Reaches m.roots h)
      (found : m.heap.get? h = some o) : m'.heap.get? h = some o := by
    rw [moved]
    exact (clears.kept h reached ⟨o,found⟩).trans found
  have place : m'.frames = m.frames.modifyHead fun f => { f with ip := f.ip - back } := by
    rw [moved,← frames]
  refine ⟨rfl,⟨back,inside,place⟩,fun _ => ⟨?_,same,fun other => absurd rfl other,kept⟩,fun _ => room⟩
  rw [place]
  cases m.frames with
  | nil => exact ⟨0,rfl⟩
  | cons f fs => exact ⟨f.ip - back,rfl⟩

end Machine

variable {strict : Prop} {m mid m' : Machine} {i : Instr} {host : Host}

namespace Action

section

variable {α β : Type} {x : Action α} {k : α → Action β} {faults : RuntimeError → Machine → Prop}
  {ok : α → Prop}

/-- However an action ends that starts within the limits, it stays within them, and under strict rules it
makes no functions. It fails as allowed. -/
def Admits (strict : Prop) (x : Action α) (m : Machine) (faults : RuntimeError → Machine → Prop) : Prop :=
  m.Sized → x.Ensures m (fun _ m' => m'.Sized ∧ (strict → m.heap.Lends m'.heap)) fun s m' =>
    (m'.Sized ∧ (strict → m.heap.Lends m'.heap)) ∧ ∀ e, s = .fault e → faults e m'

/-- What the first action leads to matters for what comes after it. -/
theorem admits_bind {p : α → Machine → Prop} (first : m.Sized → x.Ensures m
      (fun a mid => (mid.Sized ∧ (strict → m.heap.Lends mid.heap)) ∧ p a mid) fun s mid =>
        (mid.Sized ∧ (strict → m.heap.Lends mid.heap)) ∧ ∀ e, s = .fault e → faults e mid)
    (rest : ∀ a mid, p a mid → Admits strict (k a) mid faults) : Admits strict (x >>= k) m faults := by
  intro sized
  rw [ensures_bind]
  refine (first sized).mono (fun a mid ⟨⟨sized,lends⟩,leads⟩ => ?_) fun _ _ stops => stops
  refine (rest a mid leads sized).mono (fun _ _ ⟨sized,more⟩ => ⟨sized,fun s => (lends s).trans (more s)⟩) ?_
  exact fun _ _ ⟨⟨sized,more⟩,stops⟩ => ⟨⟨sized,fun s => (lends s).trans (more s)⟩,stops⟩

theorem Admits.bind (first : Admits strict x m faults) (rest : ∀ a mid, Admits strict (k a) mid faults) :
    Admits strict (x >>= k) m faults :=
  admits_bind (p := fun _ _ => True) (fun sized => (first sized).mono (fun _ _ ends => ⟨ends,trivial⟩)
    fun _ _ stops => stops) fun a mid _ => rest a mid

theorem Calm.admits (calm : Calm x) : Admits strict x m faults := by
  intro sized
  refine (calm m).mono (fun _ _ still => ⟨still.sized sized,fun _ => still.functions⟩) ?_
  exact fun _ _ ⟨still,stops⟩ => ⟨⟨still.sized sized,fun _ => still.functions⟩,
    fun e fails => absurd fails (stops e)⟩

theorem Admits.laxer {others : RuntimeError → Machine → Prop} (admits : Admits strict x m faults)
    (more : ∀ e m', faults e m' → others e m') : Admits strict x m others :=
  fun sized => (admits sized).mono (fun _ _ ends => ends) fun _ _ ⟨ends,stops⟩ =>
    ⟨ends,fun e fails => more e _ (stops e fails)⟩

/-- An action may look at the machine first. -/
theorem Looks.admitsAfter (looks : Looks x m ok) (first : Admits strict x m faults)
    (rest : ∀ a, ok a → Admits strict (k a) m faults) : Admits strict (x >>= k) m faults := by
  intro sized
  have fails := first sized
  rw [ensures_bind,Ensures]
  rw [Ensures] at fails
  cases run : x m with
  | ok a mid =>
    obtain ⟨rfl,holds⟩ := looks.apply run
    exact rest a holds sized
  | error s mid =>
    rw [run] at fails
    exact fails

theorem Looks.admits (looks : Looks x m ok) (calm : Calm x)
    (rest : ∀ a, ok a → Admits strict (k a) m faults) : Admits strict (x >>= k) m faults :=
  looks.admitsAfter calm.admits rest

theorem admits_get {k : Machine → Action β} (rest : m.Sized → Admits strict (k m) m faults) :
    Admits strict (get >>= k) m faults :=
  fun sized => rest sized sized

theorem admits_modify {change : Machine → Machine} (sized : m.Sized → (change m).Sized)
    (heap : (change m).heap = m.heap) : Admits strict (modify change) m faults :=
  fun before => ⟨sized before,fun _ => heap ▸ .refl _⟩

theorem admits_fault {f : RuntimeFault} (allowed : faults ⟨f,m.trace⟩ m) :
    Admits strict (fault f : Action α) m faults := by
  refine fun sized => ⟨⟨sized,fun _ => .refl _⟩,?_⟩
  rintro _ ⟨⟩
  exact allowed

/-- What comes after a stop does not matter. -/
theorem admits_fault_bind {f : RuntimeFault} (allowed : faults ⟨f,m.trace⟩ m) :
    Admits strict (fault f >>= k) m faults := by
  refine fun sized => ⟨⟨sized,fun _ => .refl _⟩,?_⟩
  rintro _ ⟨⟩
  exact allowed

theorem admits_stuck : Admits strict (stuck : Action α) m faults :=
  calm_stuck.admits

theorem admits_stuck_bind : Admits strict (stuck >>= k) m faults :=
  fun sized => ⟨⟨sized,fun _ => .refl _⟩,nofun⟩

theorem admits_finished_bind : Admits strict (throw .finished >>= k) m faults :=
  fun sized => ⟨⟨sized,fun _ => .refl _⟩,nofun⟩

/-! The stack. -/

/-- With room on the stack nothing can fail. -/
theorem admits_push {value : Value}
    (full : Machine.stackLimit ≤ m.stack.size → faults ⟨.stackFull,m.trace⟩ m) :
    Admits strict (push value) m faults := by
  intro sized
  rw [ensures_push]
  refine ⟨fun none => ⟨⟨sized,fun _ => .refl _⟩,?_⟩,fun room => ⟨⟨?_,sized.bases⟩,fun _ => .refl _⟩⟩
  · rintro _ ⟨⟩
    exact full none
  · change (m.stack.push value).size ≤ _
    rw [Array.size_push]
    exact room

theorem admits_pop : Admits strict pop m faults := by
  refine admits_get fun _ => ?_
  split
  · exact admits_stuck_bind
  · exact admits_modify (fun sized => ⟨(Nat.le_of_eq (Array.size_pop ..)).trans
      ((Nat.sub_le _ _).trans sized.stack),sized.bases⟩) rfl

theorem admits_setSlot (index : Nat) (value : Value) : Admits strict (setSlot index value) m faults := by
  refine admits_get fun _ => ?_
  split
  · exact admits_modify (fun sized => ⟨(Nat.le_of_eq (Array.size_setIfInBounds ..)).trans sized.stack,
      sized.bases⟩) rfl
  · exact admits_stuck_bind

theorem admits_replaceTop (value : Value) : Admits strict (replaceTop value) m faults := by
  refine admits_get fun _ => ?_
  dsimp only
  split
  · exact admits_stuck_bind
  · exact admits_setSlot _ _

/-- After values have been dropped there is room. -/
theorem admits_shrinkTo {size : Nat} {next : Action α}
    (rest : ∀ mid : Machine, mid.stack.size ≤ size → Admits strict next mid faults) :
    Admits strict (do shrinkTo size; next) m faults := by
  intro sized
  have few : (m.stack.shrink size).size ≤ size := by
    rw [Array.size_shrink]
    exact Nat.min_le_left _ _
  have less : (m.stack.shrink size).size ≤ Machine.stackLimit := by
    rw [Array.size_shrink]
    exact (Nat.min_le_right _ _).trans sized.stack
  rw [ensures_bind,shrinkTo,ensures_bind,ensures_get,ensures_ite]
  exact ⟨fun _ => rest { m with stack := m.stack.shrink size } few ⟨less,sized.bases⟩,
    fun _ => ⟨⟨sized,fun _ => .refl _⟩,by simp⟩⟩

theorem admits_settle {size : Nat} {value : Value} (room : size < Machine.stackLimit) :
    Admits strict (do shrinkTo size; push value) m faults :=
  admits_shrinkTo fun _ few => admits_push fun full => absurd (full.trans few) (Nat.not_le.mpr room)

/-- A change that leaves the heap alone comes first. -/
theorem admits_modify_bind {change : Machine → Machine} {next : Unit → Action β}
    (sized : m.Sized → (change m).Sized) (heap : (change m).heap = m.heap)
    (rest : Admits strict (next ()) (change m) faults) :
    Admits strict (modify change >>= next) m faults := by
  intro before
  have ends := rest (sized before)
  rw [heap] at ends
  exact ends

theorem admits_modifyFrame {change : Frame → Frame} (base : ∀ f, (change f).base = f.base) :
    Admits strict (modifyFrame change) m faults :=
  admits_modify (fun sized => sized.moved base) rfl

end

/-! Instructions that neither call nor return. -/

/-- A fault that is raised before anything has changed. -/
theorem admits_refusal {α β : Type} {k : α → Action β} {f : RuntimeFault} (other : f ≠ .stackFull) :
    Admits strict (fault f >>= k) m (m.Halts i) :=
  admits_fault_bind (Machine.halts_here fun same => absurd same other)

theorem admits_refused {α : Type} {f : RuntimeFault} (other : f ≠ .stackFull) :
    Admits strict (fault f : Action α) m (m.Halts i) :=
  admits_fault (Machine.halts_here fun same => absurd same other)

section

variable {faults : RuntimeError → Machine → Prop} (plain : i ≠ .ret ∧ ∀ n, i ≠ .call n)

include plain in
theorem admits_load (value : Value) : Admits strict (push value) m (m.Halts i) :=
  admits_push fun _ => Machine.halts_here fun _ => plain

theorem admits_finishBinary (result : Value) : Admits strict (finishBinary result) m faults :=
  admits_pop.bind fun _ _ => admits_replaceTop result

theorem admits_binaryFault (op : BinaryOp) (lhs rhs : Value) :
    Admits strict (binaryFault op lhs rhs) m (m.Halts i) :=
  (looks_typeName lhs).admits (calm_typeName lhs) fun _ _ => (looks_typeName rhs).admits
    (calm_typeName rhs) fun _ _ => admits_refused (by simp)

theorem admits_binary (op : BinaryOp) : Admits strict (binary op) m (m.Halts i) := by
  refine (looks_peek 0).admits (calm_peek 0) fun rhs _ => (looks_peek 1).admits (calm_peek 1)
    fun lhs _ => ?_
  split
  · exact admits_finishBinary _
  · exact admits_finishBinary _
  · exact admits_finishBinary _
  · refine (looks_stringOf? lhs).admits (calm_stringOf? lhs) fun a _ =>
      (looks_stringOf? rhs).admits (calm_stringOf? rhs) fun b _ => ?_
    split
    · split
      · exact (calm_allocateString _).admits.bind fun _ _ => admits_finishBinary _
      · split
        · exact admits_finishBinary _
        · exact admits_binaryFault op lhs rhs
    · exact admits_binaryFault op lhs rhs

theorem admits_unary (op : UnaryOp) : Admits strict (unary op) m (m.Halts i) := by
  refine (looks_peek 0).admits (calm_peek 0) fun value _ => ?_
  split
  · exact admits_replaceTop _
  · exact admits_replaceTop _
  · exact (looks_typeName value).admits (calm_typeName value) fun _ _ => admits_refused (by simp)

include plain in
theorem admits_getGlobal (name : Handle) : Admits strict (getGlobal name) m (m.Halts i) := by
  refine admits_get fun _ => ?_
  split
  · exact admits_load plain _
  · exact (looks_nameText name).admits (calm_nameText name) fun _ _ => admits_refused (by simp)

theorem admits_setGlobal (name : Handle) : Admits strict (setGlobal name) m (m.Halts i) := by
  refine admits_get fun _ => ?_
  split
  · exact (looks_peek 0).admits (calm_peek 0) fun _ _ =>
      Calm.admits (calm_modify fun _ => ⟨rfl,rfl,.refl _⟩)
  · exact (looks_nameText name).admits (calm_nameText name) fun _ _ => admits_refused (by simp)

theorem looks_capturedCell_any (index : Nat) : Looks (capturedCell index) m fun _ => True := by
  refine looks_frame.bind fun f _ => (looks_object f.closure).bind fun o found => ?_
  split
  · exact (looks_need _).mono fun _ _ => trivial
  · exact looks_stuck

include plain in
theorem admits_getCapture (index : Nat) : Admits strict (getCapture index) m (m.Halts i) := by
  refine (looks_capturedCell_any index).admits (calm_capturedCell index) fun cell _ =>
    (looks_cellState cell).admits (calm_cellState cell) fun state _ => ?_
  split
  · exact (looks_slot _).admits (calm_slot _) fun _ _ => admits_load plain _
  · exact admits_load plain _

theorem admits_setCapture (index : Nat) : Admits strict (setCapture index) m (m.Halts i) := by
  refine (looks_capturedCell_any index).admits (calm_capturedCell index) fun cell _ =>
    (looks_peek 0).admits (calm_peek 0) fun value _ =>
    (looks_cellState cell).admits (calm_cellState cell) fun state _ => ?_
  split
  · exact admits_setSlot _ _
  · exact Calm.admits (calm_updateObject _ (by simp))

theorem admits_fieldIndex (struct label : Handle) :
    Admits strict (fieldIndex struct label) m (m.Halts i) := by
  refine (looks_object struct).admits (calm_object struct) fun o _ => ?_
  split
  · split
    · exact Calm.admits (calm_pure _)
    · exact (looks_nameText _).admits (calm_nameText _) fun _ _ =>
        (looks_nameText _).admits (calm_nameText _) fun _ _ => admits_refused (by simp)
  · exact admits_stuck

theorem admits_getField (label : Handle) : Admits strict (getField label) m (m.Halts i) := by
  refine (looks_peek 0).admits (calm_peek 0) fun value _ =>
    (looks_record? value).admits (calm_record? value) fun record _ => ?_
  split
  · exact (looks_fieldIndex _ label).admitsAfter (admits_fieldIndex _ label) fun index _ =>
      (looks_need _).admits (calm_need _) fun _ _ => admits_replaceTop _
  · exact (looks_nameText label).admits (calm_nameText label) fun _ _ =>
      (looks_typeName value).admits (calm_typeName value) fun _ _ => admits_refused (by simp)

theorem admits_setField (label : Handle) : Admits strict (setField label) m (m.Halts i) := by
  refine (looks_peek 0).admits (calm_peek 0) fun target _ => (looks_peek 1).admits (calm_peek 1)
    fun value _ => (looks_record? target).admits (calm_record? target) fun record _ => ?_
  split
  · refine (looks_fieldIndex _ label).admitsAfter (admits_fieldIndex _ label) fun index _ => ?_
    split
    · refine (Calm.admits (calm_updateObject _ fun o => ?_)).bind fun _ _ => admits_pop
      cases o <;> simp [setFieldAt]
    · exact admits_stuck_bind
  · exact (looks_nameText label).admits (calm_nameText label) fun _ _ =>
      (looks_typeName target).admits (calm_typeName target) fun _ _ => admits_refused (by simp)

/-! Instructions that make an object before there is room for it. -/

/-- An action that does not fail comes first. -/
theorem Calm.admitsThen {α β : Type} {x : Action α} {k : α → Action β} {ends : α → Machine → Prop}
    {stop : Stop → Machine → Prop} (calm : Calm x) (leads : x.Ensures m ends stop)
    (rest : ∀ a mid, ends a mid → Admits strict (k a) mid faults) : Admits strict (x >>= k) m faults := by
  refine admits_bind (fun sized => ?_) rest
  have ended := (calm.admits : Admits strict x m faults) sized
  rw [Ensures] at ended leads ⊢
  cases run : x m with
  | ok a mid =>
    rw [run] at ended leads
    exact ⟨ended,leads⟩
  | error s mid =>
    rw [run] at ended
    exact ended

/-- A new object. Whatever the roots reach is as before. -/
theorem clears_allocate (tidy : m.heap.Tidy) (object : Object) (size : Nat) :
    (allocate object size).Ensures m (fun _ mid => m.Clears mid) fun _ _ => False := by
  have room : (makeRoom size).Ensures m (fun _ mid => m.Clears mid ∧ mid.heap.Tidy) fun _ _ => False := by
    simp only [makeRoom,Action.collect,ensures_bind,ensures_get,ensures_ite,ensures_modify]
    exact ⟨fun _ => ⟨.collect m,tidy.collect _⟩,fun _ => ⟨.refl m,tidy⟩⟩
  rw [allocate,ensures_bind]
  refine room.mono ?_ fun _ _ never => never
  rintro _ mid ⟨clears,tidy⟩
  cases inserted : mid.heap.insert object size with
  | mk h heap =>
    obtain ⟨vacant,-,others,-⟩ := Heap.insert_spec tidy inserted
    refine .of_ok (?_ : _ = EStateM.Result.ok h { mid with heap }) ⟨by rw [clears.same],fun k kept has => ?_⟩
    · change EStateM.modifyGet _ mid = _
      rw [EStateM.modifyGet,inserted]
    · rw [← clears.kept k kept has]
      refine others k ?_
      rintro rfl
      obtain ⟨o,there⟩ := clears.has kept has
      rw [vacant] at there
      contradiction

theorem clears_allocateClosure (tidy : m.heap.Tidy) (function : Handle) :
    (allocateClosure function).Ensures m (fun _ mid => m.Clears mid) fun _ _ => True := by
  rw [allocateClosure,ensures_bind]
  refine Ensures.mono (looks_object function) ?_ fun _ _ _ => trivial
  rintro o _ ⟨rfl,-⟩
  split
  · exact (clears_allocate tidy _ _).mono (fun _ _ clears => clears) fun _ _ _ => trivial
  · exact trivial

include plain in
/-- A new object is pushed. -/
theorem admits_made (clears : m.Clears mid) (value : Value) :
    Admits strict (push value) mid (m.Halts i) := by
  refine admits_push fun _ => clears.halts plain i.size_pos mid ?_
  rw [mid.frames_unmoved]

include plain in
theorem admits_createStruct (tidy : m.heap.Tidy) (name : Handle) (labels : List Handle) :
    Admits strict (do push (.object (← allocateStruct name labels))) m (m.Halts i) :=
  (calm_allocate (by simp) _).admitsThen (clears_allocate tidy _ _) fun _ _ clears =>
    admits_made plain clears _

theorem admits_makeClosure (tidy : m.heap.Tidy) (n : Nat) (function : Handle) (captures : List Capture) :
    Admits strict (makeClosure function captures) m (m.Halts (.closure n captures)) := by
  refine (calm_allocateClosure function).admitsThen (clears_allocateClosure tidy function)
    fun h mid clears => admits_get fun _ => ?_
  dsimp only
  split
  · have inside : 1 + 2 * captures.length < (Instr.closure n captures).size := by
      rw [Instr.size]
      omega
    refine admits_modify_bind (fun sized => sized.moved fun _ => rfl) rfl (admits_fault_bind ?_)
    exact clears.halts ⟨by simp,by simp⟩ inside _ rfl
  next room =>
    refine (admits_push fun full => absurd full room).bind fun _ _ => ?_
    exact (calm_addCaptures h captures).admits

/-! Calls and returns. -/

theorem admits_callClosure (closure : Handle) (arguments : Nat) :
    Admits strict (callClosure closure arguments) m (m.Halts i) := by
  refine admits_get fun sized => (looks_need _).admits (calm_need _) fun code _ => ?_
  dsimp only
  split
  · exact admits_refusal (by simp)
  split
  · exact admits_refusal (by simp)
  split
  · refine admits_modify (fun _ => ⟨sized.stack,?_⟩) rfl
    exact List.forall_mem_cons.mpr ⟨(Nat.sub_le _ _).trans sized.stack,sized.bases⟩
  · exact admits_stuck_bind

/-- The values of a record take the places of the callee and its arguments. -/
theorem admits_construct (struct name : Handle) (labels : List Handle) (arguments : Nat) :
    Admits strict (construct struct name labels arguments) m (m.Halts i) := by
  rw [construct]
  split
  · exact (looks_nameText name).admits (calm_nameText name) fun _ _ => admits_refusal (by simp)
  refine (calm_allocateRecord struct).admits.bind fun h mid => admits_get fun sized => ?_
  dsimp only
  split
  next below =>
    refine (Calm.admits (calm_updateObject _ (by simp))).bind fun _ _ => admits_settle ?_
    have := sized.stack
    omega
  next => exact admits_stuck_bind

/-- What is asked of native functions: to leave the stacks alone, to fail by a failure of their own only,
and to make no functions where that is forbidden. -/
def Leaves (strict : Prop) (host : Host) (m : Machine) : Prop :=
  ∀ native arguments, (∀ n, host.arity native = some n → arguments.length = n) →
    (∀ value ∈ arguments, value ∈ m.stack) →
    (host.call native arguments).run.Ensures m
      (fun _ m' => m'.stack = m.stack ∧ m'.frames = m.frames ∧ (strict → m.heap.Lends m'.heap))
      fun s m' => (m'.stack = m.stack ∧ m'.frames = m.frames ∧ (strict → m.heap.Lends m'.heap)) ∧
        ∀ e, s ≠ .fault e

theorem admits_applyNative (leaves : Leaves strict host m) (name : Bytes) (native : Native)
    (arguments : Nat) (count : ∀ n, host.arity native = some n → arguments = n) :
    Admits strict (applyNative host name native arguments) m (m.Halts (.call arguments)) := by
  refine admits_get fun sized => ?_
  dsimp only
  split
  next below =>
    have values : (m.stack.extract (m.stack.size - arguments) m.stack.size).toList.length = arguments := by
      rw [Array.length_toList,Array.size_extract]
      omega
    have called := leaves native (m.stack.extract (m.stack.size - arguments) m.stack.size).toList
      (fun n known => values.trans (count n known)) fun value member =>
        mem_of_mem_extract (Array.mem_toList_iff.mp member)
    refine admits_bind (p := fun _ mid => mid.stack = m.stack ∧ mid.frames = m.frames)
      (fun _ => called.mono ?_ ?_) fun result mid ⟨stack,frames⟩ => ?_
    · exact fun _ _ ⟨stack,frames,lends⟩ =>
        ⟨⟨⟨stack ▸ sized.stack,frames ▸ sized.bases⟩,lends⟩,stack,frames⟩
    · exact fun _ _ ⟨⟨stack,frames,lends⟩,others⟩ =>
        ⟨⟨⟨stack ▸ sized.stack,frames ▸ sized.bases⟩,lends⟩,fun e fails => absurd fails (others e)⟩
    · cases result with
      | ok value =>
        refine admits_get fun _ => admits_settle ?_
        rw [stack]
        have := sized.stack
        omega
      | error failure => exact admits_fault (Machine.halts_native frames)
  next => exact admits_stuck_bind

theorem admits_callNative (leaves : Leaves strict host m) (name : Bytes) (native : Native)
    (arguments : Nat) :
    Admits strict (callNative host name native arguments) m (m.Halts (.call arguments)) := by
  have applied := admits_applyNative leaves name native arguments
  rw [callNative]
  cases arity : host.arity native with
  | none => exact applied (by simp [arity])
  | some expected =>
    dsimp only
    split
    · exact admits_refusal (by simp)
    next same => exact applied (by simpa [arity] using same)

theorem admits_call (leaves : Leaves strict host m) (arguments : Nat) :
    Admits strict (call host arguments) m (m.Halts (.call arguments)) := by
  refine (looks_peek arguments).admits (calm_peek arguments) fun callee _ =>
    (looks_objectOf? callee).admits (calm_objectOf? callee) fun o _ => ?_
  split
  · exact admits_callClosure _ _
  · exact admits_callNative leaves _ _ _
  · exact admits_construct _ _ _ _
  · exact (looks_typeName callee).admits (calm_typeName callee) fun _ _ => admits_refused (by simp)

/-- The ended frame started at or below the limit, and the callee below it. -/
theorem admits_ret : Admits strict ret m faults := by
  intro sized
  refine (looks_peek 0).admits (calm_peek 0) (fun result _ => looks_frame.admits calm_frame
    fun ended active => ?_) sized
  have base := sized.bases ended (List.mem_of_mem_head? active)
  refine (calm_closeCells ended.base).admits.bind fun _ mid => ?_
  refine (admits_modify (fun sized => ⟨sized.stack,fun f member =>
    sized.bases f (List.mem_of_mem_tail member)⟩) rfl).bind fun _ _ => ?_
  split
  · exact admits_stuck_bind
  next above =>
    refine admits_shrinkTo fun low few => admits_get fun _ => ?_
    split
    · exact (admits_modify (fun sized => ⟨sized.stack,sized.bases⟩) rfl).bind fun _ _ =>
        admits_finished_bind
    · refine admits_push fun full => ?_
      omega

end

/-! Whole instructions. -/

theorem admits_jumpForward (distance : Nat) {faults : RuntimeError → Machine → Prop} :
    Admits strict (jumpForward distance) m faults :=
  admits_modifyFrame fun _ => rfl

theorem admits_jumpBack (distance : Nat) : Admits strict (jumpBack distance) m (m.Halts i) := by
  refine looks_frame.admits calm_frame fun f _ => ?_
  split
  · exact admits_modifyFrame fun _ => rfl
  · exact admits_stuck_bind

theorem admits_jumpIf (condition : Bool) (distance : Nat) :
    Admits strict (jumpIf condition distance) m (m.Halts i) := by
  refine (looks_peek 0).admits (calm_peek 0) fun value _ => ?_
  split
  · refine admits_pop.bind fun _ _ => ?_
    split
    · exact admits_jumpForward distance
    · exact (calm_pure _).admits
  · exact (looks_typeName _).admits (calm_typeName _) fun _ _ => admits_refused (by simp)

theorem looks_namesOf_any (indices : List Nat) : Looks (namesOf indices) m fun _ => True := by
  induction indices with
  | nil => exact looks_pure trivial
  | cons first rest ih =>
    exact (looks_constant first).bind fun value _ => (looks_nameOf value).bind fun name _ =>
      ih.bind fun names _ => looks_pure trivial

theorem admits_execute (tidy : m.heap.Tidy) (leaves : Leaves strict host m) (i : Instr) :
    Admits strict (execute host i) m (m.Halts i) := by
  have named (n : Nat) {k : Handle → Action Unit}
      (each : ∀ h, Admits strict (k h) m (m.Halts i)) :
      Admits strict (do k (← nameOf (← constant n))) m (m.Halts i) :=
    (looks_constant n).admits (calm_constant n) fun value _ =>
      (looks_nameOf value).admits (calm_nameOf value) fun h _ => each h
  cases i with
  | binary op => exact admits_binary op
  | unary op => exact admits_unary op
  | loadConstant n =>
    exact (looks_constant n).admits (calm_constant n) fun _ _ => admits_load (by simp) _
  | getLocal n =>
    exact looks_frame.admits calm_frame fun f _ => (looks_slot _).admits (calm_slot _) fun _ _ =>
      admits_load (by simp) _
  | setLocal n =>
    exact looks_frame.admits calm_frame fun f _ => (looks_peek 0).admits (calm_peek 0) fun value _ =>
      admits_setSlot _ _
  | defineGlobal n =>
    refine named n fun h => (looks_peek 0).admits (calm_peek 0) fun value _ => .bind ?_ fun _ _ => admits_pop
    exact Calm.admits (calm_modify fun _ => ⟨rfl,rfl,.refl _⟩)
  | getGlobal n => exact named n fun h => admits_getGlobal (by simp) h
  | setGlobal n => exact named n fun h => admits_setGlobal h
  | getCapture n => exact admits_getCapture (by simp) n
  | setCapture n => exact admits_setCapture n
  | getField n => exact named n fun h => admits_getField h
  | setField n => exact named n fun h => admits_setField h
  | loadNil => exact admits_load (by simp) _
  | loadBool b => exact admits_load (by simp) _
  | closure n captures =>
    refine (looks_constant n).admits (calm_constant n) fun value _ => ?_
    split
    · exact admits_makeClosure tidy n _ captures
    · exact admits_stuck
  | createStruct n fields =>
    exact named n fun h => (looks_namesOf_any fields).admits (calm_namesOf fields) fun labels _ =>
      admits_createStruct (by simp) tidy h labels
  | jump n => exact admits_jumpForward n
  | jumpIf condition n => exact admits_jumpIf condition n
  | jumpBack n => exact admits_jumpBack n
  | call n => exact admits_call leaves n
  | ret => exact admits_ret
  | closeCell =>
    refine admits_get fun _ => ?_
    dsimp only
    split
    · exact admits_stuck_bind
    · exact (calm_closeCells _).admits.bind fun _ _ => admits_pop
  | pop => exact admits_pop
  | duplicate =>
    exact (looks_peek 0).admits (calm_peek 0) fun value _ => admits_load (by simp) _
  | print =>
    exact (looks_peek 0).admits (calm_peek 0) fun value _ =>
      (looks_text value).admits (calm_text value) fun text _ =>
      (calm_write _).admits.bind fun _ _ => admits_pop

end Action

namespace Machine

/-- The next instruction has been read. -/
structure Reads (m : Machine) (i : Instr) (mid : Machine) : Prop where
  next : m.next? = some i
  moved : mid = { m with frames := m.frames.modifyHead fun f => { f with ip := f.ip + i.size } }

/-- How a step fails. -/
def FailsBy (m : Machine) (e : RuntimeError) (m' : Machine) : Prop :=
  ∃ i mid, m.Reads i mid ∧ mid.Halts i e m'

theorem Reads.kept (reads : m.Reads i mid) {h : Handle} (kept : m.Kept h) : mid.Kept h := by
  have roots : mid.roots = m.roots := by
    rw [reads.moved,Machine.roots,Machine.roots]
    cases m.frames <;> rfl
  have heap : mid.heap = m.heap := by rw [reads.moved]
  unfold Kept at kept ⊢
  rwa [roots,heap]

/-- It does not matter that the instruction has been read. -/
theorem Reads.survives (reads : m.Reads i mid) (survives : mid.Survives f m') : m.Survives f m' := by
  obtain ⟨⟨ip,frames⟩,same,heap,kept⟩ := survives
  have read := reads.moved
  refine ⟨⟨ip,?_⟩,?_,fun other => (heap other).trans (by rw [read]),fun h o reached found => ?_⟩
  · rw [frames,read,List.modifyHead_modifyHead]
    rfl
  · rw [same,read]
  · exact kept h o (reads.kept reached) (by rwa [read])

end Machine

namespace Action

theorem reads_fetch : fetch.Ensures m (fun i mid => m.Reads i mid) fun s mid => s = .stuck ∧ mid = m := by
  rw [fetch]
  cases frames : m.frames with
  | nil => simp [runningFunction,frames]
  | cons f fs =>
    cases code : m.functionOf? f.closure with
    | none => simp [runningFunction,frames,code,need]
    | some loaded =>
      rw [ensures_bind,ensures_runningFunction frames code,ensures_bind,ensures_frame frames,ensures_bind]
      cases found : loaded.1.instr? f.ip with
      | none => exact ⟨rfl,rfl⟩
      | some i => exact ⟨by simp [Machine.next?,frames,code,found],rfl⟩

/-- A step fails as its instruction does. -/
theorem admits_step (tidy : m.heap.Tidy) (leaves : ∀ i mid, m.Reads i mid → Leaves strict host mid) :
    Admits strict (step host) m m.FailsBy := by
  refine admits_bind (p := m.Reads) (fun sized => reads_fetch.mono ?_ ?_) fun i mid reads => ?_
  · intro i mid reads
    have moved := reads.moved
    exact ⟨⟨moved ▸ sized.moved fun _ => rfl,fun _ => moved ▸ .refl _⟩,reads⟩
  · rintro _ _ ⟨rfl,rfl⟩
    exact ⟨⟨sized,fun _ => .refl _⟩,nofun⟩
  · have heap : mid.heap = m.heap := by rw [reads.moved]
    exact (admits_execute (heap ▸ tidy) (leaves i mid reads) i).laxer fun e m' halts => ⟨i,mid,reads,halts⟩

theorem admits_start (tidy : m.heap.Tidy) (chunk : Chunk) :
    Admits False (start chunk) m fun _ _ => True := by
  refine admits_modify_bind (fun _ => ⟨Nat.zero_le _,by simp [Machine.reset]⟩) rfl ?_
  refine admits_bind (p := fun _ _ => True) (fun sized => adds_load chunk tidy fun h mid adds _ _ => ?_)
    fun h mid _ => ?_
  · rw [adds.same]
    exact ⟨⟨⟨sized.stack,sized.bases⟩,False.elim⟩,trivial⟩
  · refine (calm_allocateClosure h).admits.bind fun closure mid => (admits_push fun _ => trivial).bind
      fun _ mid => (admits_modify (fun sized => ⟨sized.stack,sized.bases⟩) rfl).bind fun _ mid => ?_
    exact (admits_callClosure (i := .call 0) closure 0).laxer fun _ _ _ => trivial

end Action

/-- How the next step fails, if it does. -/
def Machine.failure? (m : Machine) (host : Host) : Option (RuntimeError × Machine) :=
  match Action.step host m with
  | .error (.fault e) m' => some (e,m')
  | _ => none

theorem Machine.failure?_eq_some {e : RuntimeError} : m.failure? host = some (e,m') ↔
    Action.step host m = .error (.fault e) m' := by
  rw [failure?]
  split
  next e' m'' run => simp [run]
  next others => simpa using others e m'

/-! Lives of machines. -/

theorem Host.Modest.leaves (modest : host.Modest) : Leaves False host m :=
  fun native arguments _ _ => (modest native arguments m).mono
    (fun _ _ ⟨stack,frames⟩ => ⟨stack,frames,False.elim⟩)
    fun _ _ ⟨⟨stack,frames⟩,others⟩ => ⟨⟨stack,frames,False.elim⟩,others⟩

namespace Machine

theorem Sized.after {α : Type} {x : Action α} {faults : RuntimeError → Machine → Prop}
    (sized : m.Sized) (admits : Admits strict x m faults) : (m.after x).Sized := by
  have ends := admits sized
  rw [Ensures] at ends
  cases run : x m with
  | ok a mid =>
    rw [run] at ends
    rw [after_ok run]
    exact ends.1
  | error s mid =>
    rw [run] at ends
    rw [after_error run]
    exact ends.1.1

theorem Sized.conclude (sized : m.Sized) (stop : Stop) : (m.conclude stop).2.Sized := by
  cases stop <;> exact ⟨sized.stack,sized.bases⟩

theorem Sized.happens {page next : Page} {event : Event} (sized : page.machine.Sized)
    (modest : host.Modest) (tidy : page.machine.heap.Tidy) (happens : Happens host page event next) :
    next.machine.Sized := by
  have still {α : Type} {x : Action α} (calm : Calm x) : (page.machine.after x).Sized :=
    sized.after (calm.admits : Admits False x page.machine fun _ _ => True)
  cases happens with
  | collect | wait | arrange => exact ⟨sized.stack,sized.bases⟩
  | reset => exact ⟨Nat.zero_le _,by simp [reset]⟩
  | allocate text => exact still (calm_allocateString text)
  | set name held => exact still (calm_setGlobalNamed name _)
  | define name native made => exact still (calm_defineNative name native)
  | start started => exact ((admits_start tidy _ sized).apply started).1
  | refuse stopped => exact ((admits_start tidy _ sized).stopped stopped).1.1.conclude _
  | step stepped =>
    rw [Page.enter_machine]
    exact ((admits_step tidy (fun _ _ _ => modest.leaves) sized).apply stepped).1
  | stop stopped =>
    exact ((admits_step tidy (fun _ _ _ => modest.leaves) sized).stopped stopped).1.1.conclude _

end Machine

namespace Chronicle

variable {length : Nat} {events : Nat → Event} {pages : Nat → Page} {t : Nat}

theorem sized (chronicle : Chronicle host length events pages) (discreet : host.Discreet)
    (modest : host.Modest) (within : t ≤ length) : (pages t).machine.Sized := by
  induction t with
  | zero =>
    obtain ⟨policy,clock,first⟩ := chronicle.begins
    rw [first]
    exact ⟨Nat.zero_le _,by simp [Machine.new]⟩
  | succ t ih =>
    have before := Nat.le_of_succ_le within
    exact (ih before).happens modest (chronicle.balanced discreet before).alive.tidy
      (chronicle.happens t within)

/-- A program that fails is run again, and fails again. -/
theorem failing : ∃ events pages e m, Chronicle .standard 7 events pages ∧
    Action.step .standard (pages 7).machine = .error (.fault e) m ∧
    e.fault = .operands .add (ascii "number") (ascii "nil") := by
  let source := Source.ofText (ascii "1 + nil;")
  let begin (chunk : Chunk) : Action Unit := do
    Action.start chunk
    Action.step .standard
    Action.step .standard
  let fresh := Machine.new ⟨0,2,true⟩ 0
  have computed : (source.compile.toOption.bind fun chunk => ((begin chunk).result? fresh).bind fun m =>
      (m.failure? .standard).bind fun (e,m) => ((begin chunk).result? (m.conclude (.fault e)).2).bind
        fun m => (m.failure? .standard).map fun (e,_) => decide (e.fault = .operands .add (ascii "number")
          (ascii "nil"))) = some true := by
    decide +kernel
  obtain ⟨chunk,-,computed⟩ := Option.bind_eq_some_iff.mp computed
  obtain ⟨m₁,run₁,computed⟩ := Option.bind_eq_some_iff.mp computed
  obtain ⟨⟨e₁,n₁⟩,failed₁,computed⟩ := Option.bind_eq_some_iff.mp computed
  obtain ⟨m₂,run₂,computed⟩ := Option.bind_eq_some_iff.mp computed
  obtain ⟨⟨e₂,n₂⟩,failed₂,kind⟩ := Option.map_eq_some_iff.mp computed
  rw [Machine.failure?_eq_some] at failed₁ failed₂
  let reached (length : Nat) (m : Machine) : Prop :=
    ∃ events pages, Chronicle .standard length events pages ∧ (pages length).machine = m
  have runs {m m' : Machine} {length : Nat} (run : (begin chunk).result? m = some m')
      (before : reached length m) : reached (length + 3) m' := by
    obtain ⟨_,run⟩ := result?_eq_some.mp run
    obtain ⟨_,mid,started,run⟩ := bind_ok run
    obtain ⟨_,mid',first,second⟩ := bind_ok run
    obtain ⟨events,pages,chronicle,rfl⟩ := before
    obtain ⟨events,pages,chronicle,last⟩ := extend (extend (extend ⟨events,pages,chronicle,rfl⟩
      (.start started)) (.step first)) (.step (by rw [Page.enter_machine]; exact second))
    exact ⟨events,pages,chronicle,by rw [last,Page.enter_machine]⟩
  have new : reached 0 fresh :=
    ⟨fun _ => .collect,fun _ => ⟨fresh,[.empty]⟩,⟨⟨_,_,rfl⟩,fun t within => absurd within (Nat.not_lt_zero t)⟩,
      rfl⟩
  obtain ⟨events,pages,chronicle,rfl⟩ := runs run₁ new
  obtain ⟨events,pages,chronicle,last⟩ := extend ⟨events,pages,chronicle,rfl⟩ (.stop failed₁)
  obtain ⟨events,pages,chronicle,rfl⟩ := runs run₂ ⟨events,pages,chronicle,by rw [last]⟩
  exact ⟨events,pages,e₂,n₂,chronicle,failed₂,of_decide_eq_true kind⟩

/-- An instruction on which the machine itself stops with a fault has done nothing: at most it has made an
object for which the stack had no room. A return has room for its value, and so have a call of a native
function and a construction. -/
theorem faults_harmless (chronicle : Chronicle host length events pages) (discreet : host.Discreet)
    (modest : host.Modest) (within : t ≤ length) {e : RuntimeError} {m : Machine}
    (failed : Action.step host (pages t).machine = .error (.fault e) m) :
    (e.fault.IsOwn → (pages t).machine.Survives e.fault m) ∧
      ∃ i, (pages t).machine.next? = some i ∧
        (e.fault = .stackFull → i ≠ .ret ∧ ∀ n, i ≠ .call n) := by
  have tidy := (chronicle.balanced discreet within).alive.tidy
  have admits : Admits False (Action.step host) (pages t).machine (pages t).machine.FailsBy :=
    admits_step tidy fun _ _ _ => modest.leaves
  obtain ⟨-,stops⟩ := (admits (chronicle.sized discreet modest within)).stopped failed
  obtain ⟨i,mid,reads,halts⟩ := stops e rfl
  exact ⟨fun own => reads.survives (halts.own own),i,reads.next,halts.room⟩

/-- Failing for the second time changes nothing either. -/
theorem faults_harmless_again : ∃ events pages e m, Chronicle .standard 7 events pages ∧
    Action.step .standard (pages 7).machine = .error (.fault e) m ∧ e.fault.category = .type ∧
    (pages 7).machine.Survives e.fault m ∧ m.heap = (pages 7).machine.heap := by
  obtain ⟨events,pages,e,m,chronicle,failed,kind⟩ := failing
  obtain ⟨harmless,-⟩ := chronicle.faults_harmless Host.standard_discreet Host.standard_modest le_rfl failed
  have survives := harmless (by simp [RuntimeFault.IsOwn,kind])
  have category : e.fault.category = .type := by rw [kind]; rfl
  exact ⟨events,pages,e,m,chronicle,failed,category,survives,survives.heap (by simp [category])⟩

end Chronicle

end ScriptMachine
