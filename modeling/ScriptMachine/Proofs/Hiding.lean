import Mathlib
import ScriptMachine.Proofs.HiddenScript

/-! No instruction gets hold of a script: the values it takes lie above the bottom of the stack, and the
functions it makes closures of are in the source. Nor do native functions that give back what they were
given or have made. -/
namespace ScriptMachine

open ScriptMachine.Action

/-- Native functions that do as they please with the machine, but do not lay hands on a script. -/
def Host.Honest (host : Host) : Prop :=
  ∀ native arguments (m : Machine), m.Veiled → (∀ value ∈ arguments, m.heap.Candid value) →
    Veiling (host.call native arguments).run m fun result m' =>
      ∀ value, result = .ok value → m'.heap.Candid value

variable {m m' : Machine} {host : Host}

namespace Machine

/-- The functions among the constants of the running function are inner ones. -/
def Nests (m : Machine) : Prop :=
  ∀ f ∈ m.frames.head?, ∀ chunk constants, m.functionOf? f.closure = some (chunk,constants) →
    ∀ h inner values, .object h ∈ constants → m.heap.get? h = some (.function inner values) → inner.Inner

end Machine

namespace Action

theorem veiling_finishBinary (veiled : m.Veiled) {value : Value} (candid : m.heap.Candid value) :
    Veiling (finishBinary value) m fun _ _ => True :=
  (veiling_pop veiled).bind fun _ _ veiled veils _ => veiling_replaceTop veiled (candid.later veils)

theorem veiling_binaryFault (veiled : m.Veiled) (op : BinaryOp) (lhs rhs : Value) :
    Veiling (binaryFault op lhs rhs) m fun _ _ => True :=
  (looks_typeName lhs).veiling veiled fun _ _ => (looks_typeName rhs).veiling veiled fun _ _ =>
    veiling_fault veiled _

theorem veiling_binary (veiled : m.Veiled) (op : BinaryOp) :
    Veiling (binary op) m fun _ _ => True := by
  refine (looks_peek 0).veiling veiled fun rhs _ => (looks_peek 1).veiling veiled fun lhs _ => ?_
  split
  · exact veiling_finishBinary veiled (by simp)
  · exact veiling_finishBinary veiled (by simp)
  · exact veiling_finishBinary veiled (by cases op <;> simp [arithmetic])
  · refine (looks_stringOf? lhs).veiling veiled fun a _ =>
      (looks_stringOf? rhs).veiling veiled fun b _ => ?_
    split
    · split
      · exact (veiling_allocateString veiled _).bind fun h _ veiled _ candid =>
          veiling_finishBinary veiled candid
      · split
        · exact veiling_finishBinary veiled (by simp)
        · exact veiling_binaryFault veiled op lhs rhs
    · exact veiling_binaryFault veiled op lhs rhs

theorem veiling_unary (veiled : m.Veiled) (op : UnaryOp) :
    Veiling (unary op) m fun _ _ => True := by
  refine (looks_peek 0).veiling veiled fun value _ => ?_
  split
  · exact veiling_replaceTop veiled (by simp)
  · exact veiling_replaceTop veiled (by simp)
  · exact (looks_typeName value).veiling veiled fun _ _ => veiling_fault veiled _

/-! Globals. -/

theorem veiling_getGlobal (veiled : m.Veiled) (name : Handle) :
    Veiling (getGlobal name) m fun _ _ => True := by
  refine looks_get.veiling veiled ?_
  rintro _ rfl
  split
  next value found => exact veiling_push veiled (veiled.tables _ List.mem_cons_self name value found)
  next => exact (looks_nameText name).veiling veiled fun _ _ => veiling_fault veiled _

theorem veiling_enter (veiled : m.Veiled) (name : Handle) {value : Value} (candid : m.heap.Candid value) :
    Veiling (modify fun m => { m with globals := m.globals.insert name value }) m fun _ _ => True := by
  refine (veiling_modify { veiled with tables := ?_ } rfl).mono fun _ _ _ => trivial
  intro table member other stored found
  rcases List.mem_cons.mp member with rfl | shelf
  · rw [Std.TreeMap.getElem?_insert] at found
    split at found
    · cases found
      exact candid
    · exact veiled.tables _ List.mem_cons_self other stored found
  · exact veiled.tables table (List.mem_cons_of_mem _ shelf) other stored found

theorem veiling_setGlobal (veiled : m.Veiled) (name : Handle) (deep : 1 < m.stack.size) :
    Veiling (setGlobal name) m fun _ _ => True := by
  refine looks_get.veiling veiled ?_
  rintro _ rfl
  split
  · exact (looks_candid veiled (by omega)).veiling veiled fun value candid =>
      veiling_enter veiled name candid
  · exact (looks_nameText name).veiling veiled fun _ _ => veiling_fault veiled _

/-! Captured variables. -/

theorem looks_captured (veiled : m.Veiled) (index : Nat) :
    Looks (capturedCell index) m fun cell => ¬m.heap.IsScript cell := by
  refine looks_frame.bind fun f _ => (looks_object f.closure).bind fun o found => ?_
  split
  next code captures =>
    refine (looks_need _).mono fun cell captured => ?_
    refine veiled.objects f.closure _ found cell (List.mem_cons_of_mem _ ?_)
    simpa using Array.mem_of_getElem? captured
  next => exact looks_stuck

theorem veiling_getCapture (veiled : m.Veiled) (index : Nat) :
    Veiling (getCapture index) m fun _ _ => True := by
  refine (looks_captured veiled index).veiling veiled fun cell _ =>
    (looks_cellState cell).veiling veiled fun state found => ?_
  cases state with
  | onStack place =>
    exact (looks_slotAt place).veiling veiled fun value here =>
      veiling_push veiled (veiled.stack place value (veiled.cells cell place found) here)
  | closed value =>
    refine veiling_push veiled (veiled.contents found ?_)
    rintro r rfl
    simp [Object.references,Value.handle?]

/-- A cell may get another value. -/
theorem veiling_setCell (veiled : m.Veiled) {cell : Handle} {state : Cell}
    (found : m.heap.get? cell = some (.cell state)) {value : Value} (candid : m.heap.Candid value) :
    Veiling (updateObject cell fun _ => .cell (.closed value)) m fun _ _ => True := by
  refine veiling_updateObject veiled (fun o here => ?_) fun o here => ⟨fun r member => candid r ?_,by simp⟩
  · rw [found] at here
    cases here
    rfl
  · cases value with
    | object h => simpa [Object.references,Value.handle?,eq_comm] using member
    | _ => simp [Object.references,Value.handle?] at member

theorem veiling_setCapture (veiled : m.Veiled) (index : Nat) (deep : 1 < m.stack.size) :
    Veiling (setCapture index) m fun _ _ => True := by
  refine (looks_captured veiled index).veiling veiled fun cell _ =>
    (looks_candid veiled (by omega)).veiling veiled fun value candid =>
    (looks_cellState cell).veiling veiled fun state found => ?_
  cases state with
  | onStack place => exact veiling_setSlot veiled place candid
  | closed other => exact veiling_setCell veiled found candid

/-! Records and structs. -/

theorem veiling_getField (veiled : m.Veiled) (label : Handle) :
    Veiling (getField label) m fun _ _ => True := by
  refine (looks_peek 0).veiling veiled fun value _ => (looks_record? value).veiling veiled
    fun record found => ?_
  split
  next shape fields =>
    obtain ⟨h,-,here⟩ := found shape fields rfl
    refine (looks_fieldIndex shape label).veiling veiled fun index _ =>
      (looks_need _).veiling veiled fun value inside => veiling_replaceTop veiled (veiled.contents here ?_)
    rintro r rfl
    exact List.mem_cons_of_mem _ (Object.mem_handles.mpr (Array.mem_of_getElem? inside))
  next =>
    exact (looks_nameText label).veiling veiled fun _ _ => (looks_typeName value).veiling veiled
      fun _ _ => veiling_fault veiled _

theorem veiling_setField (veiled : m.Veiled) (label : Handle) (deep : 2 < m.stack.size) :
    Veiling (setField label) m fun _ _ => True := by
  refine (looks_peek 0).veiling veiled fun target _ => (looks_candid veiled (by omega)).veiling veiled
    fun value candid => (looks_record? target).veiling veiled fun record found => ?_
  split
  next h shape fields _ =>
    refine (looks_fieldIndex shape label).veiling veiled fun index _ => ?_
    split
    · refine (veiling_updateObject veiled (fun o _ => by cases o <;> rfl)
        fun o here => ⟨?_,fun slot same => ?_⟩).bind fun _ _ veiled _ _ => veiling_pop veiled
      · intro r member
        cases o with
        | record shape fields =>
          rcases List.mem_cons.mp member with rfl | inside
          · exact veiled.objects h _ here r List.mem_cons_self
          · rcases Array.mem_or_eq_of_mem_setIfInBounds (Object.mem_handles.mp inside) with old | new
            · exact veiled.objects h _ here r (List.mem_cons_of_mem _ (Object.mem_handles.mpr old))
            · exact candid r new.symm
        | _ => exact veiled.objects h _ here r member
      · cases o <;> cases same
        exact veiled.cells h slot here
    · exact veiling_stuck veiled
  next =>
    exact (looks_nameText label).veiling veiled fun _ _ => (looks_typeName target).veiling veiled
      fun _ _ => veiling_fault veiled _

/-! Constants. -/

theorem looks_candid_constant (veiled : m.Veiled) (index : Nat) :
    Looks (constant index) m fun value => m.heap.Candid value := by
  refine (looks_constant index).mono ?_
  rintro value ⟨f,first,chunk,constants,code,found⟩
  obtain ⟨function,captures,-,there⟩ := Machine.functionOf?_some.mp code
  refine veiled.contents there ?_
  rintro r rfl
  exact Object.mem_handles.mpr (Array.mem_of_getElem? found)

theorem looks_stringHandle (value : Value) : Looks (nameOf value) m fun h => ¬m.heap.IsScript h := by
  refine (looks_nameOf value).mono ?_
  rintro h ⟨-,text,found⟩
  exact Heap.not_isScript found (by simp)

theorem looks_stringHandles (indices : List Nat) :
    Looks (namesOf indices) m fun names => ∀ h ∈ names, ¬m.heap.IsScript h := by
  induction indices with
  | nil => exact looks_pure (by simp)
  | cons first rest ih =>
    exact (looks_constant first).bind fun value _ => (looks_stringHandle value).bind fun name own =>
      ih.bind fun names each => looks_pure (List.forall_mem_cons.mpr ⟨own,each⟩)

theorem veiling_createStruct (veiled : m.Veiled) {name : Handle} {labels : List Handle}
    (named : ¬m.heap.IsScript name) (each : ∀ h ∈ labels, ¬m.heap.IsScript h) :
    Veiling (do push (.object (← allocateStruct name labels))) m fun _ _ => True := by
  refine (veiling_allocate veiled (by simp) (by simp) ?_ (by simp) (by simp)).bind
    fun _ _ veiled _ ⟨_,new⟩ => veiling_push veiled (Heap.candid_object.mpr new)
  exact List.forall_mem_cons.mpr ⟨named,each⟩

/-! Closures and their cells. -/

theorem veiling_captureSlot (veiled : m.Veiled) {place : Nat} (low : 1 ≤ place) :
    Veiling (captureSlot place) m fun h m' => ¬m'.heap.IsScript h := by
  refine looks_get.veiling veiled ?_
  rintro _ rfl
  split
  next h found =>
    refine veiling_pure veiled ?_
    have known := List.find?_some found
    split at known
    next here => exact Heap.not_isScript here (by simp)
    next => contradiction
  next =>
    refine (veiling_allocate veiled (by simp) (by simp) (by simp [Object.references])
      (by rintro slot ⟨⟩; exact low) (by simp)).bind fun h mid veiled _ ⟨_,new⟩ => ?_
    refine (veiling_modify { veiled with } rfl).bind ?_
    rintro _ _ veiled - rfl
    exact veiling_pure veiled new

theorem veiling_captureCell (veiled : m.Veiled) (capture : Capture) :
    Veiling (captureCell capture) m fun h m' => ¬m'.heap.IsScript h := by
  rw [captureCell]
  split
  · refine looks_frame.veiling veiled fun f active => veiling_captureSlot veiled ?_
    exact (veiled.bases f (List.mem_of_mem_head? active)).trans (Nat.le_add_right _ _)
  · rw [← bind_pure (capturedCell capture.index)]
    exact (looks_captured veiled _).veiling veiled fun h other => veiling_pure veiled other

theorem veiling_addCaptures (veiled : m.Veiled) (closure : Handle) (captures : List Capture) :
    Veiling (addCaptures closure captures) m fun _ _ => True := by
  induction captures generalizing m with
  | nil => exact veiling_pure veiled trivial
  | cons first rest ih =>
    refine (veiling_captureCell veiled first).bind fun cell mid veiled _ other => ?_
    refine (veiling_updateObject veiled (fun o _ => by cases o <;> rfl)
      fun o here => ⟨?_,fun slot same => ?_⟩).bind fun _ _ veiled _ _ => ih veiled
    · intro r member
      cases o with
      | closure code captures =>
        simp only [addCapture,Object.references,Array.toList_push,List.mem_cons,List.mem_append,
          List.not_mem_nil,or_false] at member
        rcases member with rfl | old | rfl
        · exact veiled.objects closure _ here r List.mem_cons_self
        · exact veiled.objects closure _ here r (List.mem_cons_of_mem _ old)
        · exact other
      | _ => exact veiled.objects closure _ here r member
    · cases o <;> cases same
      exact veiled.cells closure slot here

theorem veiling_makeClosure (veiled : m.Veiled) {function : Handle} (captures : List Capture)
    (inner : ∀ chunk constants, m.heap.get? function = some (.function chunk constants) → chunk.Inner) :
    Veiling (makeClosure function captures) m fun _ _ => True := by
  have allocated : Veiling (allocateClosure function) m fun h m' => ¬m'.heap.IsScript h := by
    refine (looks_object function).veiling veiled fun o found => ?_
    split
    · refine (veiling_allocate veiled (by simp) (by simp) ?_ (by simp) ?_).mono fun h m' ⟨_,new⟩ => new
      · intro r member
        obtain rfl : r = function := by simpa [Object.references] using member
        exact Heap.not_isScript found (by simp)
      · rintro _ _ ⟨⟩
        exact inner
    · exact veiling_stuck veiled
  refine allocated.bind fun h mid veiled _ new => looks_get.veiling veiled ?_
  rintro _ rfl
  dsimp only
  split
  · refine (veiling_modifyFrame veiled ?_).bind fun _ _ veiled _ _ => veiling_fault_bind veiled _
    exact fun _ => rfl
  · exact (veiling_push veiled (Heap.candid_object.mpr new)).bind fun _ _ veiled _ _ =>
      veiling_addCaptures veiled h captures

theorem veiling_closeFrom (veiled : m.Veiled) (place : Nat) (cells : List Handle) :
    Veiling (closeFrom place cells) m fun _ _ => True := by
  induction cells generalizing m with
  | nil => exact veiling_pure veiled trivial
  | cons h rest ih =>
    refine (looks_cellState h).veiling veiled fun state found => ?_
    split
    next p =>
      split
      · exact (ih veiled).bind fun _ _ veiled _ _ => veiling_pure veiled trivial
      · refine (looks_slotAt p).veiling veiled fun value here => ?_
        have candid := veiled.stack p value (veiled.cells h p found) here
        exact (veiling_setCell veiled found candid).bind fun _ _ veiled _ _ => ih veiled
    next => exact veiling_stuck veiled

theorem veiling_closeCells (veiled : m.Veiled) (place : Nat) :
    Veiling (closeCells place) m fun _ _ => True := by
  refine looks_get.veiling veiled ?_
  rintro _ rfl
  refine (veiling_closeFrom veiled place m.openCells).bind fun keep mid veiled _ _ => ?_
  exact (veiling_modify { veiled with } rfl).mono fun _ _ _ => trivial

/-! Calls. -/

theorem veiling_callClosure (veiled : m.Veiled) (closure : Handle) {arguments : Nat}
    (deep : arguments < m.stack.size) : Veiling (callClosure closure arguments) m fun _ _ => True := by
  refine looks_get.veiling veiled ?_
  rintro _ rfl
  refine (looks_need _).veiling veiled fun code _ => ?_
  dsimp only
  split
  · exact veiling_fault_bind veiled _
  split
  · exact veiling_fault_bind veiled _
  split
  · refine (veiling_modify { veiled with bases := ?_ } rfl).mono fun _ _ _ => trivial
    refine List.forall_mem_cons.mpr ⟨?_,veiled.bases⟩
    change 1 ≤ m.stack.size - arguments
    omega
  · exact veiling_stuck_bind veiled

/-- The arguments of a call lie above the callee. -/
theorem candid_arguments (veiled : m.Veiled) {arguments : Nat} (deep : arguments < m.stack.size) :
    ∀ value ∈ m.stack.extract (m.stack.size - arguments) m.stack.size, m.heap.Candid value := by
  intro value member
  obtain ⟨p,found⟩ := Array.mem_iff_getElem?.mp member
  rw [Array.getElem?_extract] at found
  split at found
  · exact veiled.stack _ value (by omega) found
  · contradiction

theorem veiling_construct (veiled : m.Veiled) (struct name : Handle) (labels : List Handle)
    (arguments : Nat) : Veiling (construct struct name labels arguments) m fun _ _ => True := by
  have allocated : Veiling (allocateRecord struct) m fun h m' =>
      ¬m'.heap.IsScript h ∧ ¬m'.heap.IsScript struct ∧
        ∃ nils, m'.heap.get? h = some (.record struct nils) := by
    refine (looks_object struct).veiling veiled fun o found => ?_
    split
    next labels =>
      have other : ¬m.heap.IsScript struct := Heap.not_isScript found (by simp)
      refine (veiling_allocate veiled (by simp) (by simp) ?_ (by simp) (by simp)).laxer ?_
      · intro r member
        rcases List.mem_cons.mp member with rfl | nil
        · exact other
        · simp [Value.handle?] at nil
      · rintro h m' veils ⟨found,new⟩
        exact ⟨new,fun script => other (veils _ script),_,found⟩
    next => exact veiling_stuck veiled
  rw [construct]
  split
  · exact (looks_nameText name).veiling veiled fun _ _ => veiling_fault_bind veiled _
  refine allocated.bind ?_
  rintro h mid veiled - ⟨new,other,nils,found⟩
  refine looks_get.veiling veiled ?_
  rintro _ rfl
  dsimp only
  split
  next below =>
    refine (veiling_updateObject veiled (fun o here => ?_) fun o here => ⟨fun r member => ?_,by simp⟩).bind
      fun _ _ veiled veils _ => (veiling_shrinkTo veiled _).bind fun _ _ veiled more _ =>
        veiling_push veiled (Heap.candid_object.mpr fun script => new (veils h (more h script)))
    · rw [found] at here
      cases here
      rfl
    · rcases List.mem_cons.mp member with rfl | value
      · exact other
      · exact candid_arguments veiled below _ (Object.mem_handles.mp value) r rfl
  next => exact veiling_stuck_bind veiled

theorem veiling_callNative (veiled : m.Veiled) (honest : host.Honest) (name : Bytes) (native : Native)
    (arguments : Nat) : Veiling (callNative host name native arguments) m fun _ _ => True := by
  have applied : Veiling (applyNative host name native arguments) m fun _ _ => True := by
    refine looks_get.veiling veiled ?_
    rintro _ rfl
    dsimp only
    split
    next below =>
      refine (honest native _ m veiled fun v member => candid_arguments veiled below v
        (Array.mem_toList_iff.mp member)).bind fun result mid veiled _ candid => ?_
      cases result with
      | ok value =>
        refine looks_get.veiling veiled ?_
        rintro _ rfl
        exact (veiling_shrinkTo veiled _).bind fun _ _ veiled veils _ =>
          veiling_push veiled ((candid value rfl).later veils)
      | error failure => exact veiling_fault veiled _
    next => exact veiling_stuck_bind veiled
  rw [callNative]
  cases host.arity native with
  | none => exact applied
  | some expected =>
    dsimp only
    split
    · exact veiling_fault_bind veiled _
    · exact applied

theorem veiling_call (veiled : m.Veiled) (honest : host.Honest) {arguments : Nat}
    (deep : arguments < m.stack.size) : Veiling (call host arguments) m fun _ _ => True := by
  refine (looks_peek arguments).veiling veiled fun callee _ =>
    (looks_objectOf? callee).veiling veiled fun o _ => ?_
  split
  · exact veiling_callClosure veiled _ deep
  · exact veiling_callNative veiled honest _ _ _
  · exact veiling_construct veiled _ _ _ _
  · exact (looks_typeName callee).veiling veiled fun _ _ => veiling_fault veiled _

theorem veiling_ret (veiled : m.Veiled) (deep : 1 < m.stack.size) : Veiling ret m fun _ _ => True := by
  refine (looks_candid veiled (by omega)).veiling veiled fun value candid => looks_frame.veiling veiled
    fun f _ => ?_
  refine (veiling_closeCells veiled f.base).bind fun _ mid veiled veils _ => ?_
  have bases (g : Frame) (member : g ∈ mid.frames.tail) := veiled.bases g (List.mem_of_mem_tail member)
  refine (veiling_modify { veiled with bases } rfl).bind ?_
  rintro _ _ veiled - rfl
  split
  · exact veiling_stuck_bind veiled
  refine (veiling_shrinkTo veiled _).bind fun _ last veiled more _ => looks_get.veiling veiled ?_
  rintro _ rfl
  split
  · refine (veiling_modify { veiled with } rfl).bind fun _ _ veiled _ _ => ?_
    exact veiled
  · exact veiling_push veiled ((candid.later veils).later more)

/-! Whole instructions. -/

theorem veiling_jumpForward (veiled : m.Veiled) (distance : Nat) :
    Veiling (jumpForward distance) m fun _ _ => True :=
  veiling_modifyFrame veiled fun _ => rfl

theorem veiling_jumpIf (veiled : m.Veiled) (condition : Bool) (distance : Nat) :
    Veiling (jumpIf condition distance) m fun _ _ => True := by
  refine (looks_peek 0).veiling veiled fun value _ => ?_
  split
  · refine (veiling_pop veiled).bind fun _ _ veiled _ _ => ?_
    split
    · exact veiling_jumpForward veiled distance
    · exact veiling_pure veiled trivial
  · exact (looks_typeName _).veiling veiled fun _ _ => veiling_fault veiled _

theorem veiling_jumpBack (veiled : m.Veiled) (distance : Nat) :
    Veiling (jumpBack distance) m fun _ _ => True := by
  refine looks_frame.veiling veiled fun f _ => ?_
  split
  · exact veiling_modifyFrame veiled fun _ => rfl
  · exact veiling_stuck_bind veiled

/-- An instruction takes its values from above the bottom of the stack. -/
theorem veiling_execute (veiled : m.Veiled) (honest : host.Honest) (nests : m.Nests) {i : Instr}
    (deep : i.takes < m.stack.size) : Veiling (execute host i) m fun _ _ => True := by
  have named (n : Nat) {k : Handle → Action Unit}
      (each : ∀ h, ¬m.heap.IsScript h → Veiling (k h) m fun _ _ => True) :
      Veiling (do k (← nameOf (← constant n))) m fun _ _ => True :=
    (looks_constant n).veiling veiled fun value _ => (looks_stringHandle value).veiling veiled each
  cases i with
  | binary op => exact veiling_binary veiled op
  | unary op => exact veiling_unary veiled op
  | loadConstant n =>
    exact (looks_candid_constant veiled n).veiling veiled fun value candid => veiling_push veiled candid
  | getLocal n =>
    refine looks_frame.veiling veiled fun f active => (looks_slotAt _).veiling veiled fun value here => ?_
    have low := veiled.bases f (List.mem_of_mem_head? active)
    exact veiling_push veiled (veiled.stack _ value (low.trans (Nat.le_add_right _ _)) here)
  | setLocal n =>
    exact looks_frame.veiling veiled fun f _ => (looks_candid veiled (by exact deep)).veiling veiled
      fun value candid => veiling_setSlot veiled _ candid
  | defineGlobal n =>
    exact named n fun h _ => (looks_candid veiled (by exact deep)).veiling veiled fun value candid =>
      (veiling_enter veiled h candid).bind fun _ _ veiled _ _ => veiling_pop veiled
  | getGlobal n => exact named n fun h _ => veiling_getGlobal veiled h
  | setGlobal n => exact named n fun h _ => veiling_setGlobal veiled h deep
  | getCapture n => exact veiling_getCapture veiled n
  | setCapture n => exact veiling_setCapture veiled n deep
  | getField n => exact named n fun h _ => veiling_getField veiled h
  | setField n => exact named n fun h _ => veiling_setField veiled h deep
  | loadNil => exact veiling_push veiled (by simp)
  | loadBool b => exact veiling_push veiled (by simp)
  | closure n captures =>
    refine (looks_constant n).veiling veiled ?_
    rintro value ⟨f,active,chunk,constants,code,found⟩
    cases value with
    | object function =>
      exact veiling_makeClosure veiled captures fun inner values there =>
        nests f active chunk constants code function inner values (Array.mem_of_getElem? found) there
    | _ => exact veiling_stuck veiled
  | createStruct n fields =>
    exact named n fun h other => (looks_stringHandles fields).veiling veiled fun labels each =>
      veiling_createStruct veiled other each
  | jump n => exact veiling_jumpForward veiled n
  | jumpIf condition n => exact veiling_jumpIf veiled condition n
  | jumpBack n => exact veiling_jumpBack veiled n
  | call n => exact veiling_call veiled honest (Nat.lt_of_succ_lt deep)
  | ret => exact veiling_ret veiled deep
  | closeCell =>
    refine looks_get.veiling veiled ?_
    rintro _ rfl
    dsimp only
    split
    · exact veiling_stuck_bind veiled
    · exact (veiling_closeCells veiled _).bind fun _ _ veiled _ _ => veiling_pop veiled
  | pop => exact veiling_pop veiled
  | duplicate =>
    exact (looks_candid veiled (by exact deep)).veiling veiled fun value candid =>
      veiling_push veiled candid
  | print =>
    exact (looks_peek 0).veiling veiled fun value _ => (looks_text value).veiling veiled fun text _ =>
      (veiling_write veiled _).bind fun _ _ veiled _ _ => veiling_pop veiled

end Action

/-! Native functions. -/

namespace NativeAction

variable {α β : Type}

/-- The value of an action is no script. -/
def Fair (action : NativeAction Value) (m : Machine) : Prop :=
  Veiling action.run m fun result m' => ∀ value, result = .ok value → m'.heap.Candid value

variable {action : NativeAction α} {ok : α → Prop}

theorem Inspects.fair {next : α → NativeAction Value} (inspects : Inspects action m ok)
    (veiled : m.Veiled) (rest : ∀ a, ok a → Fair (next a) m) : Fair (action >>= next) m := by
  rw [Fair,ExceptT.run_bind]
  refine Looks.veiling inspects veiled fun result given => ?_
  cases result with
  | ok a => exact rest a (given a rfl)
  | error failure => exact veiling_pure veiled (by simp)

/-- An action of the machine may come first. -/
theorem Fair.after {x : Action α} {holds : α → Machine → Prop} {next : α → NativeAction Value}
    (veiling : Veiling x m holds)
    (rest : ∀ a m', m'.Veiled → m.heap.Veils m'.heap → holds a m' → Fair (next a) m') :
    Fair (liftM x >>= next) m := by
  rw [Fair,ExceptT.run_bind]
  change Veiling (Except.ok <$> x >>= _) m _
  rw [map_eq_pure_bind,bind_assoc]
  refine veiling.bind fun a m' veiled veils given => ?_
  rw [pure_bind]
  exact rest a m' veiled veils given

end NativeAction

namespace Action

theorem veiling_pinning {α : Type} {ok : α → Machine → Prop} (veiled : m.Veiled) (value : Value)
    {action : Action α}
    (inner : ∀ mid, mid.Veiled → m.heap.Veils mid.heap → Veiling action mid ok)
    (heaps : ∀ a (m' last : Machine), ok a m' → last.heap = m'.heap → ok a last) :
    Veiling (pinning value action) m ok := by
  refine (veiling_modify { veiled with } rfl).bind ?_
  rintro _ _ veiled veils rfl
  refine (inner _ veiled veils).bind fun a m' veiled _ holds => ?_
  refine (veiling_modify { veiled with } rfl).bind ?_
  rintro _ _ veiled - rfl
  exact veiling_pure veiled (heaps a m' _ holds rfl)

end Action

namespace Machine

theorem Veiled.new (policy : Policy) (clock : Float) : (new policy clock).Veiled where
  tidy := Heap.tidy_empty policy
  stack p value low found := by simp [Machine.new] at found
  objects h o found := by simp [Machine.new,Heap.empty,Heap.get?] at found
  tables table member name value found := by
    obtain rfl : table = ∅ := by simpa [Machine.new] using member
    simp at found
  cells h slot opens := by simp [Opens,Machine.new,Heap.empty,Heap.get?] at opens
  bases f active := by simp [Machine.new] at active

theorem Veiled.reset (veiled : m.Veiled) (status : Status) : Machine.Veiled { m.reset with status } :=
  { veiled with
    stack := by simp [Machine.reset]
    bases := by simp [Machine.reset] }

theorem Veiled.defineNative (veiled : m.Veiled) (name : Bytes) (native : Native) :
    (m.defineNative name native).Veiled := by
  have defined : Veiling (Action.defineNative name native) m fun _ _ => True := by
    refine (veiling_allocate veiled (by simp) (by simp) (by simp [Object.references]) (by simp)
      (by simp)).bind fun h mid veiled _ ⟨_,new⟩ => ?_
    have named : Veiling (pinning (.object h) (allocateString name)) mid fun _ _ => True :=
      veiling_pinning veiled _ (fun mid veiled _ => (veiling_allocateString veiled name).mono
        fun _ _ _ => trivial) fun _ _ _ _ _ => trivial
    exact named.bind fun k last veiled veils _ =>
      veiling_enter veiled k (Heap.Candid.later (Heap.candid_object.mpr new) veils)
  rw [Machine.defineNative]
  rw [Veiling,Ensures] at defined
  cases run : Action.defineNative name native m with
  | ok a m' =>
    rw [run] at defined
    rw [after_ok run]
    exact defined.1
  | error s m' =>
    rw [run] at defined
    rw [after_error run]
    exact defined

end Machine

end ScriptMachine
