import Mathlib
import ScriptMachine.Proofs.Keeping
import ScriptMachine.Proofs.Steps

/-! What a step enters into the globals: only the two instructions that store globals change them, and
they do so under the name that their constant gives. All others leave the tables alone, also those
that fail. -/
namespace ScriptMachine

open ScriptMachine.Action

/-- Native functions do as they please with the machine, but not with globals: these and all that is
held are left as they are. -/
def Host.Discreet (host : Host) : Prop :=
  ∀ native arguments (m : Machine), m.Alive → (∀ value ∈ arguments, value ∈ m.stack) →
    Keeping (host.call native arguments).run m fun result m' =>
      ∀ value, result = .ok value → m'.heap.Holds value

variable {m m' : Machine} {host : Host}

namespace Action

theorem keeping_finishBinary (alive : m.Alive) {value : Value} (held : m.heap.Holds value) :
    Keeping (finishBinary value) m fun _ _ => True := by
  refine (keeping_pop alive).bind ?_
  rintro _ _ alive - rfl
  exact keeping_replaceTop alive held

theorem keeping_binaryFault (alive : m.Alive) (op : BinaryOp) (lhs rhs : Value) :
    Keeping (binaryFault op lhs rhs) m fun _ _ => True :=
  (looks_typeName lhs).keeping alive fun _ _ => (looks_typeName rhs).keeping alive fun _ _ =>
    keeping_fault alive _

theorem keeping_binary (alive : m.Alive) (op : BinaryOp) :
    Keeping (binary op) m fun _ _ => True := by
  refine (looks_peek 0).keeping alive fun rhs _ => (looks_peek 1).keeping alive fun lhs _ => ?_
  split
  · exact keeping_finishBinary alive (by simp)
  · exact keeping_finishBinary alive (by simp)
  · exact keeping_finishBinary alive (by cases op <;> simp [arithmetic])
  · refine (looks_stringOf? lhs).keeping alive fun a _ =>
      (looks_stringOf? rhs).keeping alive fun b _ => ?_
    split
    · split
      · refine (keeping_allocateString alive _).bind fun h _ alive _ made => ?_
        obtain ⟨_,found⟩ := made
        exact keeping_finishBinary alive (Heap.holds_object found)
      · split
        · exact keeping_finishBinary alive (by simp)
        · exact keeping_binaryFault alive op lhs rhs
    · exact keeping_binaryFault alive op lhs rhs

theorem keeping_unary (alive : m.Alive) (op : UnaryOp) :
    Keeping (unary op) m fun _ _ => True := by
  refine (looks_peek 0).keeping alive fun value _ => ?_
  split
  · exact keeping_replaceTop alive (by simp)
  · exact keeping_replaceTop alive (by simp)
  · exact (looks_typeName value).keeping alive fun _ _ => keeping_fault alive _

theorem keeping_load (alive : m.Alive) {value : Value} (held : m.heap.Holds value) :
    Keeping (push value) m fun _ _ => True :=
  (keeping_push alive held).mono fun _ _ _ => trivial

theorem keeping_drop (alive : m.Alive) : Keeping pop m fun _ _ => True :=
  (keeping_pop alive).mono fun _ _ _ => trivial

theorem keeping_getGlobal (alive : m.Alive) (name : Handle) :
    Keeping (getGlobal name) m fun _ _ => True := by
  refine looks_get.keeping alive ?_
  rintro _ rfl
  split
  next value found => exact keeping_load alive (alive.globals name value found).2
  next => exact (looks_nameText name).keeping alive fun _ _ => keeping_fault alive _

/-! Captured variables. -/

theorem looks_capturedCell (alive : m.Alive) (index : Nat) :
    Looks (capturedCell index) m m.heap.Has := by
  refine looks_frame.bind fun f _ => (looks_object f.closure).bind fun o found => ?_
  split
  next code captures =>
    refine (looks_need _).mono fun cell captured => ?_
    refine alive.objects f.closure _ found cell (List.mem_cons_of_mem _ ?_)
    simpa using Array.mem_of_getElem? captured
  next => exact looks_stuck

theorem keeping_getCapture (alive : m.Alive) (index : Nat) :
    Keeping (getCapture index) m fun _ _ => True := by
  refine (looks_capturedCell alive index).keeping alive fun cell _ =>
    (looks_cellState cell).keeping alive fun state found => ?_
  cases state with
  | onStack place =>
    exact (looks_slot place).keeping alive fun value member =>
      keeping_load alive (alive.stack value member)
  | closed value =>
    refine keeping_load alive fun h same => alive.objects cell _ found h ?_
    simp [Object.references,same,Value.handle?]

/-- A cell may get another value. -/
theorem keeping_setCell (alive : m.Alive) {cell : Handle} {state : Cell}
    (found : m.heap.get? cell = some (.cell state)) {value : Value} (held : m.heap.Holds value) :
    Keeping (updateObject cell fun _ => .cell (.closed value)) m fun _ m' =>
      m' = { m with heap := m'.heap } := by
  refine (keeping_updateObject alive fun o here => .inr ?_).mono ?_
  · rw [found] at here
    cases here
    refine ⟨rfl,by simp,fun r member => ?_⟩
    cases value with
    | object h =>
      obtain rfl : r = h := by simpa [Object.references,Value.handle?] using member
      exact held r rfl
    | _ => simp [Object.references,Value.handle?] at member
  · rintro _ _ rfl
    rfl

theorem keeping_setCapture (alive : m.Alive) (index : Nat) :
    Keeping (setCapture index) m fun _ _ => True := by
  refine (looks_capturedCell alive index).keeping alive fun cell _ =>
    (looks_peek 0).keeping alive fun value top => (looks_cellState cell).keeping alive
    fun state found => ?_
  have held := alive.slot top
  cases state with
  | onStack place => exact keeping_setSlot alive place held
  | closed other => exact (keeping_setCell alive found held).mono fun _ _ _ => trivial

/-! Records and structs. -/

theorem keeping_getField (alive : m.Alive) (label : Handle) :
    Keeping (getField label) m fun _ _ => True := by
  refine (looks_peek 0).keeping alive fun value _ => (looks_record? value).keeping alive
    fun record found => ?_
  split
  next shape fields =>
    obtain ⟨h,-,here⟩ := found shape fields rfl
    refine (looks_fieldIndex shape label).keeping alive fun index _ =>
      (looks_need _).keeping alive fun value inside => keeping_replaceTop alive fun k same => ?_
    refine alive.objects h _ here k (List.mem_cons_of_mem _ (Object.mem_handles.mpr ?_))
    exact same ▸ Array.mem_of_getElem? inside
  next =>
    exact (looks_nameText label).keeping alive fun _ _ => (looks_typeName value).keeping alive
      fun _ _ => keeping_fault alive _

theorem keeping_setField (alive : m.Alive) (label : Handle) :
    Keeping (setField label) m fun _ _ => True := by
  refine (looks_peek 0).keeping alive fun target _ => (looks_peek 1).keeping alive
    fun value second => (looks_record? target).keeping alive fun record found => ?_
  split
  next h shape fields _ =>
    obtain ⟨_,same,here⟩ := found shape fields rfl
    cases same
    refine (looks_fieldIndex shape label).keeping alive fun index _ => ?_
    split
    · refine (keeping_updateObject alive fun o there => .inr ?_).bind fun _ _ alive _ _ =>
        keeping_drop alive
      rw [here] at there
      cases there
      refine ⟨rfl,by simp,fun r member => ?_⟩
      rcases List.mem_cons.mp member with rfl | inside
      · exact alive.objects h _ here r List.mem_cons_self
      · rcases Array.mem_or_eq_of_mem_setIfInBounds (Object.mem_handles.mp inside) with old | new
        · exact alive.objects h _ here r (List.mem_cons_of_mem _ (Object.mem_handles.mpr old))
        · exact alive.slot second r new.symm
    · exact keeping_stuck alive
  next =>
    exact (looks_nameText label).keeping alive fun _ _ => (looks_typeName target).keeping alive
      fun _ _ => keeping_fault alive _

/-- A constant of the running function. -/
theorem looks_held_constant (alive : m.Alive) (index : Nat) :
    Looks (constant index) m fun value =>
      m.heap.Holds value ∧ ∀ h, value = .object h → m.Kept h ∧ m.heap.Has h := by
  refine (looks_constant index).mono ?_
  rintro value ⟨f,first,chunk,constants,code,found⟩
  obtain ⟨held,kept⟩ := alive.constant (List.mem_of_mem_head? first) code found
  exact ⟨held,fun h same => ⟨kept h same,held h same⟩⟩

theorem looks_namesOf (alive : m.Alive) (indices : List Nat) :
    Looks (namesOf indices) m fun names => ∀ h ∈ names, m.Kept h ∧ m.heap.IsString h := by
  induction indices with
  | nil => exact looks_pure (by simp)
  | cons first rest ih =>
    refine (looks_held_constant alive first).bind fun value ⟨_,kept⟩ =>
      (looks_nameOf value).bind fun name ⟨same,string⟩ => ih.bind fun names each => looks_pure ?_
    exact List.forall_mem_cons.mpr ⟨⟨(kept name same).1,string⟩,each⟩

theorem keeping_createStruct (alive : m.Alive) {name : Handle} {labels : List Handle}
    (named : m.Kept name ∧ m.heap.Has name) (each : ∀ h ∈ labels, m.Kept h ∧ m.heap.IsString h) :
    Keeping (do push (.object (← allocateStruct name labels))) m fun _ _ => True := by
  refine (keeping_allocate alive (by simp) ?_ ?_).bind fun h m' alive _ ⟨_,found⟩ =>
    keeping_load alive (Heap.holds_object found)
  · refine List.forall_mem_cons.mpr ⟨named,fun h member => ?_⟩
    obtain ⟨kept,text,found⟩ := each h member
    exact ⟨kept,_,found⟩
  · exact fun h member => (each h member).2

/-! Closures and their cells. -/

theorem keeping_captureSlot (alive : m.Alive) (place : Nat) :
    Keeping (captureSlot place) m fun h m' => m'.heap.Has h := by
  refine looks_get.keeping alive ?_
  rintro _ rfl
  split
  next h found => exact keeping_pure alive (alive.openCells h (List.mem_of_find?_eq_some found))
  next =>
    refine (keeping_allocate alive (by simp) (by simp [Object.references]) (by trivial)).bind
      fun h m' alive _ ⟨_,found⟩ => ?_
    refine (keeping_modify ?_ (.of_heap rfl rfl rfl)).bind ?_
    · exact { alive with openCells := List.forall_mem_cons.mpr ⟨⟨_,found⟩,alive.openCells⟩ }
    · rintro _ _ alive - rfl
      exact keeping_pure alive ⟨_,found⟩

theorem keeping_captureCell (alive : m.Alive) (capture : Capture) :
    Keeping (captureCell capture) m fun h m' => m'.heap.Has h := by
  rw [captureCell]
  split
  · exact looks_frame.keeping alive fun f _ => keeping_captureSlot alive _
  · rw [← bind_pure (capturedCell capture.index)]
    exact (looks_capturedCell alive _).keeping alive fun h has => keeping_pure alive has

theorem keeping_addCaptures (alive : m.Alive) (closure : Handle) (captures : List Capture) :
    Keeping (addCaptures closure captures) m fun _ _ => True := by
  induction captures generalizing m with
  | nil => exact keeping_pure alive trivial
  | cons first rest ih =>
    refine (keeping_captureCell alive first).bind fun cell mid alive _ has => ?_
    refine (keeping_updateObject alive fun o here => ?_).bind fun _ _ alive _ _ => ih alive
    cases o with
    | closure code captures =>
      refine .inr ⟨rfl,by simp,fun r member => ?_⟩
      simp only [addCapture,Object.references,Array.toList_push,List.mem_cons,List.mem_append,
        List.not_mem_nil,or_false] at member
      rcases member with rfl | old | rfl
      · exact alive.objects closure _ here r List.mem_cons_self
      · exact alive.objects closure _ here r (List.mem_cons_of_mem _ old)
      · exact has
    | _ => exact .inl rfl

theorem keeping_allocateClosure (alive : m.Alive) {function : Handle} (kept : m.Kept function) :
    Keeping (allocateClosure function) m fun h m' => m'.heap.Has h := by
  refine (looks_object function).keeping alive fun o found => ?_
  split
  · refine (keeping_allocate alive (by simp) ?_ (by trivial)).mono fun h m' ⟨_,found⟩ => ⟨_,found⟩
    intro r member
    obtain rfl : r = function := by simpa [Object.references] using member
    exact ⟨kept,_,found⟩
  · exact keeping_stuck alive

theorem keeping_makeClosure (alive : m.Alive) {function : Handle} (kept : m.Kept function)
    (captures : List Capture) : Keeping (makeClosure function captures) m fun _ _ => True := by
  refine (keeping_allocateClosure alive kept).bind fun h mid alive _ ⟨o,found⟩ => looks_get.keeping alive ?_
  rintro _ rfl
  dsimp only
  split
  · refine (keeping_modifyFrame alive _).bind fun _ _ alive _ _ => ?_
    exact keeping_fault_bind alive _
  · refine (keeping_push alive (Heap.holds_object found)).bind fun _ _ alive _ _ => ?_
    exact keeping_addCaptures alive h captures

theorem keeping_closeFrom (alive : m.Alive) (place : Nat) (cells : List Handle) :
    Keeping (closeFrom place cells) m fun keep m' =>
      m' = { m with heap := m'.heap } ∧ keep ⊆ cells := by
  induction cells generalizing m with
  | nil => exact keeping_pure alive ⟨rfl,List.Subset.refl _⟩
  | cons h rest ih =>
    refine (looks_cellState h).keeping alive fun state found => ?_
    split
    next p =>
      split
      · refine (ih alive).bind fun keep mid alive _ ⟨same,inside⟩ => keeping_pure alive ⟨same,?_⟩
        exact List.cons_subset_cons h inside
      · refine (looks_slot p).keeping alive fun value member => ?_
        refine (keeping_setCell alive found (alive.stack value member)).bind
          fun _ mid alive _ same => (ih alive).mono fun keep m' ⟨later,inside⟩ => ⟨?_,?_⟩
        · rw [same] at later
          exact later
        · exact List.Subset.trans inside (List.subset_cons_self h rest)
    next => exact keeping_stuck alive

theorem keeping_closeCells (alive : m.Alive) (place : Nat) :
    Keeping (closeCells place) m fun _ m' => m'.stack = m.stack := by
  refine looks_get.keeping alive ?_
  rintro _ rfl
  refine (keeping_closeFrom alive place m.openCells).bind fun keep mid alive _ ⟨same,inside⟩ => ?_
  refine (keeping_modify ?_ (.of_heap rfl rfl rfl)).mono ?_
  · refine { alive with openCells := fun h member => alive.openCells h ?_ }
    rw [same]
    exact inside member
  · rintro _ _ rfl
    rw [same]

/-! Calls. -/

theorem keeping_callClosure (alive : m.Alive) (closure : Handle) (arguments : Nat) :
    Keeping (callClosure closure arguments) m fun _ _ => True := by
  refine looks_get.keeping alive ?_
  rintro _ rfl
  refine (looks_need _).keeping alive fun code _ => ?_
  dsimp only
  split
  · exact keeping_fault_bind alive _
  split
  · exact keeping_fault_bind alive _
  split
  · exact (keeping_modify { alive with } (.of_heap rfl rfl rfl)).mono fun _ _ _ => trivial
  · exact keeping_stuck_bind alive

theorem keeping_allocateRecord (alive : m.Alive) {struct : Handle} (kept : m.Kept struct) :
    Keeping (allocateRecord struct) m fun h m' =>
      ∃ nils, m'.heap.get? h = some (.record struct nils) := by
  refine (looks_object struct).keeping alive fun o found => ?_
  split
  next labels =>
    refine (keeping_allocate alive (by simp) ?_ (by trivial)).mono fun h m' ⟨_,found⟩ => ⟨_,found⟩
    intro r member
    rcases List.mem_cons.mp member with rfl | nil
    · exact ⟨kept,_,found⟩
    · simp [Value.handle?] at nil
  next => exact keeping_stuck alive

theorem keeping_construct (alive : m.Alive) {struct : Handle} (kept : m.Kept struct) (name : Handle)
    (labels : List Handle) (arguments : Nat) :
    Keeping (construct struct name labels arguments) m fun _ _ => True := by
  rw [construct]
  split
  · exact (looks_nameText name).keeping alive fun _ _ =>
      keeping_fault_bind alive _
  refine (keeping_allocateRecord alive kept).bind fun h mid alive _ made =>
    looks_get.keeping alive ?_
  obtain ⟨nils,found⟩ := made
  rintro _ rfl
  dsimp only
  split
  · refine (keeping_updateObject alive fun o here => .inr ?_).bind ?_
    · rw [found] at here
      cases here
      refine ⟨rfl,by simp,fun r member => ?_⟩
      rcases List.mem_cons.mp member with rfl | value
      · exact alive.objects h _ found r List.mem_cons_self
      · exact alive.stack _ (mem_of_mem_extract (Object.mem_handles.mp value)) r rfl
    · rintro _ _ alive - rfl
      refine (keeping_shrinkTo alive _).bind ?_
      rintro _ _ alive - rfl
      have made := mid.heap.get?_update h
        (fun _ => .record struct (mid.stack.extract (mid.stack.size - arguments) mid.stack.size)) h
      rw [if_pos rfl,found] at made
      exact keeping_load alive (Heap.holds_object made)
  · exact keeping_stuck_bind alive

theorem keeping_callNative (alive : m.Alive) (discreet : host.Discreet) (name : Bytes)
    (native : Native) (arguments : Nat) :
    Keeping (callNative host name native arguments) m fun _ _ => True := by
  have applied : Keeping (applyNative host name native arguments) m fun _ _ => True := by
    refine looks_get.keeping alive ?_
    rintro _ rfl
    dsimp only
    split
    · refine (discreet native _ m alive fun v member =>
        mem_of_mem_extract (Array.mem_toList_iff.mp member)).bind fun result mid alive _ held => ?_
      cases result with
      | ok value =>
        refine looks_get.keeping alive ?_
        rintro _ rfl
        refine (keeping_shrinkTo alive _).bind ?_
        rintro _ _ alive - rfl
        exact keeping_load alive (held value rfl)
      | error failure => exact keeping_fault alive _
    · exact keeping_stuck_bind alive
  rw [callNative]
  cases host.arity native with
  | none => exact applied
  | some expected =>
    dsimp only
    split
    · exact keeping_fault_bind alive _
    · exact applied

theorem keeping_call (alive : m.Alive) (discreet : host.Discreet) (arguments : Nat) :
    Keeping (call host arguments) m fun _ _ => True := by
  refine (looks_peek arguments).keeping alive fun callee place =>
    (looks_objectOf? callee).keeping alive fun o found => ?_
  split
  next => exact keeping_callClosure alive _ _
  next => exact keeping_callNative alive discreet _ _ _
  next => exact keeping_construct alive (Machine.reaches_stack (Array.mem_of_getElem? place)).kept _ _ _
  next => exact (looks_typeName callee).keeping alive fun _ _ => keeping_fault alive _

theorem keeping_ret (alive : m.Alive) : Keeping ret m fun _ _ => True := by
  refine (looks_peek 0).keeping alive fun value top => looks_frame.keeping alive fun f _ => ?_
  refine (keeping_closeCells alive f.base).bind fun _ mid alive _ stack => ?_
  have held := alive.slot (stack ▸ top)
  refine (keeping_modify { alive with } (.of_heap rfl rfl rfl)).bind ?_
  rintro _ _ alive - rfl
  split
  · exact keeping_stuck_bind alive
  refine (keeping_shrinkTo alive _).bind ?_
  rintro _ _ alive - rfl
  refine looks_get.keeping alive ?_
  rintro _ rfl
  split
  · refine (keeping_modify { alive with result := held } (.of_heap rfl rfl rfl)).bind ?_
    rintro _ _ alive - rfl
    exact (keeping_throw alive _).bind fun _ _ alive _ (impossible : False) => impossible.elim
  · exact keeping_load alive held

end Action

/-! Whole instructions. -/

/-- The constant that names the global an instruction stores. -/
def Instr.stored? : Instr → Option Nat
  | defineGlobal n | setGlobal n => some n
  | _ => none

namespace Action

theorem keeping_jumpForward (alive : m.Alive) (distance : Nat) :
    Keeping (jumpForward distance) m fun _ _ => True :=
  (keeping_modifyFrame alive _).mono fun _ _ _ => trivial

theorem keeping_jumpIf (alive : m.Alive) (condition : Bool) (distance : Nat) :
    Keeping (jumpIf condition distance) m fun _ _ => True := by
  refine (looks_peek 0).keeping alive fun value _ => ?_
  split
  · refine (keeping_drop alive).bind fun _ _ alive _ _ => ?_
    split
    · exact keeping_jumpForward alive distance
    · exact keeping_pure alive trivial
  · exact (looks_typeName _).keeping alive fun _ _ => keeping_fault alive _

theorem keeping_jumpBack (alive : m.Alive) (distance : Nat) :
    Keeping (jumpBack distance) m fun _ _ => True := by
  refine looks_frame.keeping alive fun f _ => ?_
  split
  · exact (keeping_modifyFrame alive _).mono fun _ _ _ => trivial
  · exact keeping_stuck_bind alive

/-- Every instruction but the two that store globals leaves them as they are. -/
theorem keeping_execute (alive : m.Alive) (discreet : host.Discreet) {i : Instr}
    (other : i.stored? = none) : Keeping (execute host i) m fun _ _ => True := by
  have named (n : Nat) {k : Handle → Action Unit}
      (each : ∀ h, m.Kept h ∧ m.heap.Has h → Keeping (k h) m fun _ _ => True) :
      Keeping (do k (← nameOf (← constant n))) m fun _ _ => True :=
    (looks_held_constant alive n).keeping alive fun value ⟨_,kept⟩ =>
      (looks_nameOf value).keeping alive fun h ⟨same,_⟩ => each h (kept h same)
  cases i with
  | binary op => exact keeping_binary alive op
  | unary op => exact keeping_unary alive op
  | loadConstant n =>
    exact (looks_held_constant alive n).keeping alive fun value ⟨held,_⟩ => keeping_load alive held
  | getLocal n =>
    exact looks_frame.keeping alive fun f _ => (looks_slot _).keeping alive fun value member =>
      keeping_load alive (alive.stack value member)
  | setLocal n =>
    exact looks_frame.keeping alive fun f _ => (looks_peek 0).keeping alive fun value top =>
      keeping_setSlot alive _ (alive.slot top)
  | defineGlobal n => cases other
  | getGlobal n => exact named n fun h _ => keeping_getGlobal alive h
  | setGlobal n => cases other
  | getCapture n => exact keeping_getCapture alive n
  | setCapture n => exact keeping_setCapture alive n
  | getField n => exact named n fun h _ => keeping_getField alive h
  | setField n => exact named n fun h _ => keeping_setField alive h
  | loadNil => exact keeping_load alive (by simp)
  | loadBool b => exact keeping_load alive (by simp)
  | closure n captures =>
    refine (looks_held_constant alive n).keeping alive fun value ⟨_,kept⟩ => ?_
    cases value with
    | object function => exact keeping_makeClosure alive (kept function rfl).1 captures
    | _ => exact keeping_stuck alive
  | createStruct n fields =>
    exact named n fun h kept => (looks_namesOf alive fields).keeping alive fun labels each =>
      keeping_createStruct alive kept each
  | jump n => exact keeping_jumpForward alive n
  | jumpIf condition n => exact keeping_jumpIf alive condition n
  | jumpBack n => exact keeping_jumpBack alive n
  | call n => exact keeping_call alive discreet n
  | ret => exact keeping_ret alive
  | closeCell =>
    refine looks_get.keeping alive ?_
    rintro _ rfl
    dsimp only
    split
    · exact keeping_stuck_bind alive
    · exact (keeping_closeCells alive _).bind fun _ _ alive _ _ => keeping_drop alive
  | pop => exact keeping_drop alive
  | duplicate =>
    exact (looks_peek 0).keeping alive fun value top => keeping_load alive (alive.slot top)
  | print =>
    exact (looks_peek 0).keeping alive fun value _ => (looks_text value).keeping alive fun text _ =>
      (keeping_write alive _).bind fun _ _ alive _ _ => keeping_drop alive

end Action

namespace Machine

/-- What the next instruction enters into the globals: the text of the constant that names one, and the
value on top of the stack. -/
def entry? (m : Machine) : Option (Bytes × Value) := do
  let f ← m.frames.head?
  let (chunk,constants) ← m.functionOf? f.closure
  let n ← (chunk.instr? f.ip).bind Instr.stored?
  let name ← constants[n]?.bind Value.handle?
  let value ← m.stack.back?
  match m.heap.get? name with
  | some (.string text) => some (text,value)
  | _ => none

/-- The value is stored under the name in the table in use. All other tables, and what any table held
before, are as they were. -/
structure Enters (m : Machine) (text : Bytes) (value : Value) (m' : Machine) : Prop where
  named : ∃ name, m'.heap.get? name = some (.string text) ∧
    m'.globals = m.globals.insert name value
  shelved : m'.shelved = m.shelved
  stored : ∀ table ∈ m.globals :: m.shelved, ∀ h ∈ table.handles, m.heap.Outlasts m'.heap h

/-- What a step does to the tables of globals. -/
def Books (m : Machine) (m' : Machine) : Option (Bytes × Value) → Prop
  | some (text,value) => m.Enters text value m'
  | none => m.Keeps m'

end Machine

namespace Action

theorem looks_fetch : fetch.Ensures m (fun i m' => ∃ f fs chunk constants, m.frames = f :: fs ∧
    m.functionOf? f.closure = some (chunk,constants) ∧ chunk.instr? f.ip = some i ∧
    m' = { m with frames := { f with ip := f.ip + i.size } :: fs }) fun _ m' => m' = m := by
  rw [fetch,ensures_bind]
  refine Ensures.mono looks_runningFunction ?_ fun _ _ same => same
  rintro ⟨chunk,constants⟩ _ ⟨rfl,f,first,code⟩
  obtain ⟨fs,frames⟩ := List.head?_eq_some_iff.mp first
  rw [ensures_bind,ensures_frame frames,ensures_bind]
  refine Ensures.mono (looks_need _) ?_ fun _ _ same => same
  rintro i _ ⟨rfl,found⟩
  exact ⟨f,fs,chunk,constants,frames,code,found,by dsimp only; rw [frames]; rfl⟩

/-- The value on top is stored under a name. -/
theorem enters_top (alive : m.Alive) {name : Handle} {text : Bytes} {value : Value}
    (found : m.heap.get? name = some (.string text)) (top : m.stack.back? = some value) :
    Machine.Alive { m with globals := m.globals.insert name value } ∧
      m.Enters text value { m with globals := m.globals.insert name value } := by
  rw [Array.back?_eq_getElem?] at top
  exact ⟨{ alive with globals := Poised.sound_insert alive.globals ⟨text,found⟩ (alive.slot top) },
    ⟨name,found,rfl⟩,rfl,fun _ _ _ _ => .of_eq rfl⟩

theorem ensures_defineGlobal (alive : m.Alive) {name : Handle} {text : Bytes}
    (found : m.heap.get? name = some (.string text)) :
    Ensures (do
      let value ← peek 0
      modify fun m => { m with globals := m.globals.insert name value }
      pop) m
      (fun _ m' => m'.Alive ∧ ∃ value, m.stack.back? = some value ∧ m.Enters text value m')
      fun _ m' => m'.Alive ∧ m.Keeps m' := by
  rw [ensures_bind]
  refine Ensures.mono (looks_peek 0) ?_ ?_
  · rintro value _ ⟨rfl,top⟩
    rw [Nat.sub_zero,← Array.back?_eq_getElem?] at top
    obtain ⟨alive',enters⟩ := enters_top alive found top
    have filled := (Array.getElem?_eq_some_iff.mp (Array.back?_eq_getElem? ▸ top)).1
    rw [ensures_bind,ensures_modify,ensures_pop]
    · refine ⟨alive'.setStack fun v member => alive'.stack v (mem_of_mem_pop member),value,top,?_⟩
      exact ⟨enters.named,enters.shelved,enters.stored⟩
    · exact Nat.zero_lt_of_lt filled
  · rintro _ _ rfl
    exact ⟨alive,.refl _⟩

theorem ensures_setGlobal (alive : m.Alive) {name : Handle} {text : Bytes}
    (found : m.heap.get? name = some (.string text)) : Ensures (setGlobal name) m
      (fun _ m' => m'.Alive ∧ ∃ value, m.stack.back? = some value ∧ m.Enters text value m')
      fun _ m' => m'.Alive ∧ m.Keeps m' := by
  rw [setGlobal,ensures_bind,ensures_get,ensures_ite]
  refine ⟨fun _ => ?_,fun _ => ⟨alive,.refl m⟩⟩
  rw [ensures_bind]
  refine Ensures.mono (looks_peek 0) ?_ ?_
  · rintro value _ ⟨rfl,top⟩
    rw [Nat.sub_zero,← Array.back?_eq_getElem?] at top
    obtain ⟨alive',enters⟩ := enters_top alive found top
    exact ⟨alive',value,top,enters⟩
  · rintro _ _ rfl
    exact ⟨alive,.refl _⟩

/-- The two instructions that store globals. -/
theorem ensures_execute_store (alive : m.Alive) {f : Frame} {fs : List Frame} {chunk : Chunk}
    {constants : Array Value} (frames : m.frames = f :: fs)
    (code : m.functionOf? f.closure = some (chunk,constants)) {i : Instr} {n : Nat}
    (stored : i.stored? = some n) : Ensures (execute host i) m
      (fun _ m' => m'.Alive ∧ ∃ name text value, constants[n]? = some (.object name) ∧
        m.heap.get? name = some (.string text) ∧ m.stack.back? = some value ∧ m.Enters text value m')
      fun _ m' => m'.Alive ∧ m.Keeps m' := by
  have named {k : Handle → Action Unit} (each : ∀ name text,
      m.heap.get? name = some (.string text) → Ensures (k name) m
        (fun _ m' => m'.Alive ∧ ∃ value, m.stack.back? = some value ∧ m.Enters text value m')
        fun _ m' => m'.Alive ∧ m.Keeps m') : Ensures (do k (← nameOf (← constant n))) m
      (fun _ m' => m'.Alive ∧ ∃ name text value, constants[n]? = some (.object name) ∧
        m.heap.get? name = some (.string text) ∧ m.stack.back? = some value ∧ m.Enters text value m')
      fun _ m' => m'.Alive ∧ m.Keeps m' := by
    have stays (s : Stop) (m' : Machine) (same : m' = m) : m'.Alive ∧ m.Keeps m' := by
      rw [same]
      exact ⟨alive,.refl m⟩
    rw [ensures_bind]
    refine Ensures.mono (looks_constant n) ?_ stays
    rintro constant _ ⟨rfl,g,first,chunk',constants',code',here⟩
    rw [frames] at first
    cases first
    rw [code] at code'
    cases code'
    rw [ensures_bind]
    refine Ensures.mono (looks_nameOf constant) ?_ stays
    rintro name _ ⟨rfl,rfl,text,string⟩
    refine (each name text string).mono ?_ fun _ _ ends => ends
    rintro _ m' ⟨alive,value,top,enters⟩
    exact ⟨alive,name,text,value,here,string,top,enters⟩
  cases i with
  | defineGlobal n' =>
    cases stored
    exact named fun name text string => ensures_defineGlobal alive string
  | setGlobal n' =>
    cases stored
    exact named fun name text string => ensures_setGlobal alive string
  | _ => cases stored

/-- A step enters what it has to enter, and nothing else. -/
theorem ensures_step (alive : m.Alive) (discreet : host.Discreet) :
    (Action.step host).Ensures m (fun _ m' => m'.Alive ∧ m.Books m' m.entry?)
      fun _ m' => m'.Alive ∧ m.Keeps m' := by
  rw [step,ensures_bind]
  refine Ensures.mono looks_fetch ?_ ?_
  · rintro i mid ⟨f,fs,chunk,constants,frames,code,found,read⟩
    have keeps : m.Keeps mid := by rw [read]; exact .of_heap rfl rfl rfl
    have alive' : mid.Alive := by rw [read]; exact { alive with }
    have stops (s : Stop) (m' : Machine) (ends : m'.Alive ∧ mid.Keeps m') : m'.Alive ∧ m.Keeps m' :=
      ⟨ends.1,keeps.trans ends.2⟩
    cases stored : i.stored? with
    | none =>
      have entry : m.entry? = none := by simp [Machine.entry?,frames,code,found,stored]
      rw [entry]
      refine Ensures.mono (keeping_execute alive' discreet stored) ?_ stops
      rintro _ m' ⟨alive,more,-⟩
      exact ⟨alive,keeps.trans more⟩
    | some n =>
      have frames' : mid.frames = { f with ip := f.ip + i.size } :: fs := by rw [read]
      have code' : mid.functionOf? f.closure = some (chunk,constants) := by rw [read]; exact code
      refine Ensures.mono (ensures_execute_store alive' frames' code' stored) ?_ stops
      rintro _ m' ⟨alive,name,text,value,here,string,top,named,shelved,kept⟩
      rw [read] at string top named shelved kept
      have entry : m.entry? = some (text,value) := by
        simp [Machine.entry?,frames,code,found,stored,here,top,string,Value.handle?]
      rw [entry]
      exact ⟨alive,named,shelved,kept⟩
  · rintro _ _ rfl
    exact ⟨alive,.refl _⟩

end Action

end ScriptMachine
