import Mathlib
import ScriptMachine.Proofs.Running

/-! Every instruction that leaves the frames and the open cells alone leads from a state in which it
is ready to the next instruction, or to a fault that leaves everything in order. -/
namespace ScriptMachine.Poised

open ScriptMachine.Action

variable {m mid : Machine} {s : Scene} {i : Instr} {fresh : Set Handle}

/-- What an instruction must come to. -/
abbrev Safe (action : Action Unit) (m mid : Machine) (s : Scene) (i : Instr) : Prop :=
  action.Ensures mid (fun _ m' => m.Continues i (s.frame s.ip) m') m.Ends

theorem held (poised : Poised m s i) {p : Nat} {value : Value} (found : m.stack[p]? = some value) :
    m.heap.Holds value :=
  poised.intact.stack value (Array.mem_of_getElem? found)

/-- One value more. -/
theorem push (poised : Poised m s i) (steady : m.Steady fresh mid)
    (plain : i.Plain) (more : i.gives = i.takes + 1) {value : Value}
    (held : mid.heap.Holds value) : Safe (Action.push value) m mid s i := by
  rw [Safe,ensures_push]
  refine ⟨fun _ => steady.faults poised.orderly,fun room => ?_⟩
  have enough := poised.enough
  have size := poised.size
  rw [steady.stack] at room
  refine poised.settle steady plain rfl steady.frames steady.openCells
    (steady.intact.setStack ?_) ?_ ?_ ?_
  · intro other member
    rcases Array.mem_push.mp member with old | rfl
    · exact steady.intact.stack other old
    · exact held
  · rw [Array.size_push,steady.stack]
    exact room
  · rw [Array.size_push,steady.stack]
    omega
  · intro p low
    rw [steady.stack,Array.getElem?_push,if_neg (by omega)]

/-- Another value on top. -/
theorem replaceTop (poised : Poised m s i) (steady : m.Steady fresh mid)
    (plain : i.Plain) (takes : i.takes = 1) (gives : i.gives = 1)
    {value : Value} (held : mid.heap.Holds value) : Safe (Action.replaceTop value) m mid s i := by
  have enough := poised.enough
  have size := poised.size
  have bounded := poised.bounded
  have some : 0 < mid.stack.size := by rw [steady.stack]; omega
  rw [Safe,ensures_replaceTop some]
  refine poised.settle steady plain rfl steady.frames steady.openCells
    (steady.intact.setStack ?_) ?_ ?_ ?_
  · intro other member
    rcases Array.mem_or_eq_of_mem_setIfInBounds member with old | rfl
    · exact steady.intact.stack other old
    · exact held
  · rw [Array.size_setIfInBounds,steady.stack]
    exact bounded
  · rw [Array.size_setIfInBounds,steady.stack]
    omega
  · intro p low
    rw [steady.stack,Array.getElem?_setIfInBounds_ne (by omega)]

/-- One value for the two topmost. -/
theorem finishBinary (poised : Poised m s i) (steady : m.Steady fresh mid)
    (plain : i.Plain) (takes : i.takes = 2) (gives : i.gives = 1)
    {value : Value} (held : mid.heap.Holds value) : Safe (Action.finishBinary value) m mid s i := by
  have enough := poised.enough
  have size := poised.size
  have bounded := poised.bounded
  have some : 0 < mid.stack.size := by rw [steady.stack]; omega
  have more : 0 < ({ mid with stack := mid.stack.pop } : Machine).stack.size := by
    rw [Array.size_pop,steady.stack]
    omega
  rw [Safe,Action.finishBinary,ensures_bind,ensures_pop some,ensures_replaceTop more]
  refine poised.settle steady plain rfl steady.frames steady.openCells
    (steady.intact.setStack ?_) ?_ ?_ ?_
  · intro other member
    rcases Array.mem_or_eq_of_mem_setIfInBounds member with old | rfl
    · exact steady.intact.stack other (mem_of_mem_pop old)
    · exact held
  · rw [Array.size_setIfInBounds,Array.size_pop,steady.stack]
    omega
  · rw [Array.size_setIfInBounds,Array.size_pop,steady.stack]
    omega
  · intro p low
    rw [Array.size_pop,steady.stack,Array.getElem?_setIfInBounds_ne (by omega),
      Array.getElem?_pop,if_pos (by omega)]

/-- One value less. -/
theorem pop (poised : Poised m s i) (steady : m.Steady fresh mid)
    (plain : i.Plain) (takes : i.takes = i.gives + 1)
    : Safe Action.pop m mid s i := by
  have enough := poised.enough
  have size := poised.size
  have bounded := poised.bounded
  have some : 0 < mid.stack.size := by rw [steady.stack]; omega
  rw [Safe,ensures_pop some]
  refine poised.settle steady plain rfl steady.frames steady.openCells
    (steady.intact.setStack ?_) ?_ ?_ ?_
  · exact fun other member => steady.intact.stack other (mem_of_mem_pop member)
  · rw [Array.size_pop,steady.stack]
    omega
  · rw [Array.size_pop,steady.stack]
    omega
  · intro p low
    rw [steady.stack,Array.getElem?_pop,if_pos (by omega)]

/-! Constants. -/

/-- The running function has all its constants. -/
theorem loaded (poised : Poised m s i) {n : Nat} {c : Constant Chunk}
    (known : s.chunk.constants[n]? = some c) :
    ∃ value, s.constants[n]? = some value ∧ m.heap.Mirrors c value := by
  obtain ⟨function,captures,-,there⟩ := Machine.functionOf?_some.mp poised.code
  obtain ⟨-,mirrors,complete⟩ := poised.intact.valid function _ there
  have bound : n < s.constants.size := by
    rw [complete not_false]
    exact (List.getElem?_eq_some_iff.mp known).1
  obtain ⟨c',here,mirror⟩ := mirrors n _ (Array.getElem?_eq_getElem bound)
  rw [known] at here
  cases here
  exact ⟨_,Array.getElem?_eq_getElem bound,mirror⟩

/-- A constant that names something is a string. -/
theorem named (poised : Poised m s i) {n : Nat} (names : Instr.Names s.chunk.constants n) :
    ∃ h text, s.constants[n]? = some (.object h) ∧ m.heap.get? h = some (.string text) := by
  obtain ⟨text,known⟩ := names
  obtain ⟨value,found,h,rfl,here⟩ := poised.loaded known
  exact ⟨h,text,found,here⟩

theorem ensures_named (poised : Poised m s i) {n : Nat} (names : Instr.Names s.chunk.constants n)
    {next : Handle → Action Unit} {ok : Unit → Machine → Prop} {stop : Stop → Machine → Prop}
    (good : ∀ h text, m.heap.get? h = some (.string text) → (next h).Ensures m ok stop) :
    Ensures (do next (← nameOf (← constant n))) m ok stop := by
  obtain ⟨h,text,found,here⟩ := poised.named names
  rw [ensures_bind,ensures_constant poised.frames poised.code found,ensures_bind,
    ensures_nameOf here]
  exact good h text here

/-! The instructions, one by one. -/

theorem holds_arithmetic (heap : Heap) (op : BinaryOp) (lhs rhs : Float) :
    heap.Holds (arithmetic op lhs rhs) := by
  cases op <;> simp [arithmetic]

theorem binaryStrings {op : BinaryOp} (poised : Poised m s (.binary op)) (plain : (Instr.binary op).Plain)
    {lhs rhs : Value} (left : m.heap.Holds lhs) (right : m.heap.Holds rhs) :
    Safe (Action.binaryStrings op lhs rhs) m m s (.binary op) := by
  have steady := Machine.Steady.refl poised.intact
  have refused : Safe (binaryFault op lhs rhs) m m s (.binary op) := by
    simpa [Safe,binaryFault] using poised.faults
  rw [Safe,Action.binaryStrings,ensures_bind]
  refine .stringOf? left fun first => ?_
  rw [ensures_bind]
  refine .stringOf? right fun second => ?_
  split
  next a b _ _ =>
    rw [ensures_ite]
    constructor
    · intro joins
      rw [ensures_bind]
      refine .allocateString poised.intact fun h mid fresh grows only intact found => ?_
      have grown : m.Steady fresh mid := by
        refine grows.steady intact fun k new o here => ?_
        obtain rfl := only k new
        rw [found] at here
        cases here
        simp
      exact poised.finishBinary grown plain rfl rfl (Heap.holds_object found)
    · intro orders
      split
      · exact poised.finishBinary steady plain rfl rfl (by simp)
      · exact refused
  next => exact refused

theorem binary {op : BinaryOp} (poised : Poised m s (.binary op)) :
    Safe (Action.binary op) m m s (.binary op) := by
  have plain : (Instr.binary op).Plain := ⟨by simp [Instr.targets],by simp,by simp⟩
  have enough : 2 ≤ s.point.height := poised.enough
  have size := poised.size
  have finish {value : Value} (held : m.heap.Holds value) :=
    poised.finishBinary (.refl poised.intact) plain rfl rfl held
  have lhs := poised.held (Array.getElem?_eq_getElem
    (show m.stack.size - 1 - 1 < m.stack.size by omega))
  have rhs := poised.held (Array.getElem?_eq_getElem
    (show m.stack.size - 1 - 0 < m.stack.size by omega))
  rw [Safe,Action.binary,ensures_bind,ensures_peek (by omega),ensures_bind,ensures_peek (by omega)]
  split
  · exact finish (by simp)
  · exact finish (by simp)
  · exact finish (holds_arithmetic _ _ _ _)
  · exact poised.binaryStrings plain lhs rhs

theorem unary {op : UnaryOp} (poised : Poised m s (.unary op)) :
    Safe (Action.unary op) m m s (.unary op) := by
  have plain : (Instr.unary op).Plain := ⟨by simp [Instr.targets],by simp,by simp⟩
  have enough : 1 ≤ s.point.height := poised.enough
  have size := poised.size
  rw [Safe,Action.unary,ensures_bind,ensures_peek (by omega)]
  split
  · exact poised.replaceTop (.refl poised.intact) plain rfl rfl (by simp)
  · exact poised.replaceTop (.refl poised.intact) plain rfl rfl (by simp)
  · simpa using poised.faults

theorem loadConstant {n : Nat} (poised : Poised m s (.loadConstant n)) :
    Safe (do Action.push (← constant n)) m m s (.loadConstant n) := by
  obtain ⟨c,known,-⟩ := poised.ready.legal
  obtain ⟨value,found,mirrors⟩ := poised.loaded known
  rw [Safe,ensures_bind,ensures_constant poised.frames poised.code found]
  exact poised.push (.refl poised.intact) ⟨by simp [Instr.targets],by simp,by simp⟩ rfl
    mirrors.holds

theorem getLocal {n : Nat} (poised : Poised m s (.getLocal n)) :
    Safe (do Action.push (← slot ((← frame).base + n))) m m s (.getLocal n) := by
  have inside : n < s.point.height := poised.ready.legal
  have size := poised.size
  have bound : (s.frame (s.ip + (Instr.getLocal n).size)).base + n < m.stack.size := by
    change s.base + n < _
    omega
  rw [Safe,ensures_bind,ensures_frame poised.frames,ensures_bind,ensures_slot bound]
  exact poised.push (.refl poised.intact) ⟨by simp [Instr.targets],by simp,by simp⟩ rfl
    (poised.held (Array.getElem?_eq_getElem bound))

theorem loadNil (poised : Poised m s .loadNil) : Safe (Action.push .nil) m m s .loadNil :=
  poised.push (.refl poised.intact) ⟨by simp [Instr.targets],by simp,by simp⟩ rfl (by simp)

theorem loadBool {b : Bool} (poised : Poised m s (.loadBool b)) :
    Safe (Action.push (.bool b)) m m s (.loadBool b) :=
  poised.push (.refl poised.intact) ⟨by simp [Instr.targets],by simp,by simp⟩ rfl (by simp)

theorem duplicate (poised : Poised m s .duplicate) :
    Safe (do Action.push (← peek 0)) m m s .duplicate := by
  have enough : 1 ≤ s.point.height := poised.enough
  have size := poised.size
  have bound : m.stack.size - 1 - 0 < m.stack.size := by omega
  rw [Safe,ensures_bind,ensures_peek (by omega)]
  exact poised.push (.refl poised.intact) ⟨by simp [Instr.targets],by simp,by simp⟩ rfl
    (poised.held (Array.getElem?_eq_getElem bound))

theorem popValue (poised : Poised m s .pop) : Safe Action.pop m m s .pop :=
  poised.pop (.refl poised.intact) ⟨by simp [Instr.targets],by simp,by simp⟩ rfl

theorem print (poised : Poised m s .print) :
    Safe (do write ((← text (← peek 0)) ++ [Byte.lineFeed]); Action.pop) m m s .print := by
  have enough : 1 ≤ s.point.height := poised.enough
  have size := poised.size
  rw [Safe,ensures_bind,ensures_peek (by omega),ensures_bind,ensures_text,ensures_bind,ensures_write]
  exact poised.pop ⟨.of_heap (.refl m) rfl,{ poised.intact with },rfl,rfl,rfl⟩
    ⟨by simp [Instr.targets],by simp,by simp⟩ rfl

/-! Globals. -/

/-- A table with one more entry, or with one changed. -/
theorem sound_insert {table : Globals} {heap : Heap} (sound : table.Sound heap) {name : Handle}
    {value : Value} (isString : heap.IsString name) (held : heap.Holds value) :
    Globals.Sound (table.insert name value) heap := by
  intro other found known
  rw [Std.TreeMap.getElem?_insert] at known
  split at known
  next same =>
    cases known
    obtain rfl := Std.LawfulEqOrd.eq_of_compare same
    exact ⟨isString,held⟩
  next => exact sound other found known

theorem defineGlobal {n : Nat} (poised : Poised m s (.defineGlobal n)) :
    Safe (do
      let name ← nameOf (← constant n)
      let value ← peek 0
      modify fun m => { m with globals := m.globals.insert name value }
      Action.pop) m m s (.defineGlobal n) := by
  have enough : 1 ≤ s.point.height := poised.enough
  have size := poised.size
  have bound : m.stack.size - 1 - 0 < m.stack.size := by omega
  rw [Safe]
  refine poised.ensures_named poised.ready.legal fun h text found => ?_
  rw [ensures_bind,ensures_peek (by omega),ensures_bind,ensures_modify]
  have sound := sound_insert poised.intact.globals ⟨text,found⟩
    (poised.held (Array.getElem?_eq_getElem bound))
  exact poised.pop ⟨.of_heap (.refl m) rfl,{ poised.intact with globals := sound },rfl,rfl,rfl⟩
    ⟨by simp [Instr.targets],by simp,by simp⟩ rfl

theorem getGlobal {n : Nat} (poised : Poised m s (.getGlobal n)) :
    Safe (do Action.getGlobal (← nameOf (← constant n))) m m s (.getGlobal n) := by
  rw [Safe]
  refine poised.ensures_named poised.ready.legal fun h text found => ?_
  rw [Action.getGlobal,ensures_bind,ensures_get]
  split
  next value known =>
    exact poised.push (.refl poised.intact) ⟨by simp [Instr.targets],by simp,by simp⟩ rfl
      (poised.intact.globals h value known).2
  next => simpa using poised.faults

theorem setGlobal {n : Nat} (poised : Poised m s (.setGlobal n)) :
    Safe (do Action.setGlobal (← nameOf (← constant n))) m m s (.setGlobal n) := by
  have enough : 1 ≤ s.point.height := poised.enough
  have size := poised.size
  have bound : m.stack.size - 1 - 0 < m.stack.size := by omega
  rw [Safe]
  refine poised.ensures_named poised.ready.legal fun h text found => ?_
  rw [Action.setGlobal,ensures_bind,ensures_get,ensures_ite]
  constructor
  · intro known
    rw [ensures_bind,ensures_peek (by omega),ensures_modify]
    have sound := sound_insert poised.intact.globals ⟨text,found⟩
      (poised.held (Array.getElem?_eq_getElem bound))
    refine poised.settle (.refl poised.intact) ⟨by simp [Instr.targets],by simp,by simp⟩ rfl rfl rfl
      { poised.intact with globals := sound } poised.bounded ?_ fun _ _ => rfl
    change m.stack.size = s.base + (s.point.height - 1 + 1)
    omega
  · intro missing
    simpa using poised.faults

/-! Locals and captured variables. -/

/-- Another value for a variable, which is never the closure of a frame. -/
theorem setSlot (poised : Poised m s i) (plain : i.Plain) (takes : i.takes = 1) (gives : i.gives = 1)
    {place : Nat} {value : Value} (bound : place < m.stack.size)
    (own : (∃ n, i = .setLocal n ∧ place = s.base + n) ∨ ∃ h, m.Opens h place)
    (held : m.heap.Holds value) : Safe (Action.setSlot place value) m m s i := by
  have enough := poised.enough
  have size := poised.size
  have free : place ∈ s.cells ∨ s.base ≤ place := by
    rcases own with ⟨n,-,rfl⟩ | ⟨h,opens⟩
    · exact .inr (Nat.le_add_right _ _)
    · exact (poised.slots h place opens).imp id And.left
  rw [Safe,ensures_setSlot bound]
  refine poised.plain (plain.next s.ip) poised.frames (.of_heap (.refl m) rfl)
    (poised.intact.setStack ?_) rfl ?_ ?_ ?_ (fun p _ other shut => ?_) plain.noClosure plain.noCell
  · intro other member
    rcases Array.mem_or_eq_of_mem_setIfInBounds member with old | rfl
    · exact poised.intact.stack other old
    · exact held
  · rw [Array.size_setIfInBounds]
    exact poised.bounded
  · rw [Array.size_setIfInBounds]
    omega
  · intro f member
    obtain ⟨positive,-,-,-,apart⟩ := poised.guard member
    have := apart place free
    rw [Array.getElem?_setIfInBounds_ne (by omega)]
  · rw [Array.getElem?_setIfInBounds_ne]
    rintro rfl
    rcases own with ⟨n,same,here⟩ | ⟨h,opens⟩
    · exact other n same here
    · exact shut h opens

theorem setLocal {n : Nat} (poised : Poised m s (.setLocal n)) :
    Safe (do Action.setSlot ((← frame).base + n) (← peek 0)) m m s (.setLocal n) := by
  have inside : n < s.point.height := poised.ready.legal
  have size := poised.size
  have bound : m.stack.size - 1 - 0 < m.stack.size := by omega
  rw [Safe,ensures_bind,ensures_frame poised.frames,ensures_bind,ensures_peek (by omega)]
  refine poised.setSlot ⟨by simp [Instr.targets],by simp,by simp⟩ rfl rfl ?_ (.inl ⟨n,rfl,rfl⟩)
    (poised.held (Array.getElem?_eq_getElem bound))
  change s.base + n < _
  omega

/-- The running closure has all its captures, and they are cells. -/
theorem captured (poised : Poised m s i) {n : Nat} (bound : n < s.chunk.captureCount) :
    ∃ code captures cell state, m.heap.get? s.closure = some (.closure code captures) ∧
      captures[n]? = some cell ∧ m.heap.get? cell = some (.cell state) := by
  obtain ⟨code,captures,here,there⟩ := Machine.functionOf?_some.mp poised.code
  obtain ⟨⟨chunk,⟨constants,known⟩,complete⟩,cells⟩ := poised.intact.valid s.closure _ here
  rw [there] at known
  cases known
  have inside : n < captures.size := by rwa [complete not_false]
  obtain ⟨state,cell⟩ := cells _ (Array.getElem_mem inside)
  exact ⟨code,captures,_,state,here,Array.getElem?_eq_getElem inside,cell⟩

theorem getCapture {n : Nat} (poised : Poised m s (.getCapture n)) :
    Safe (Action.getCapture n) m m s (.getCapture n) := by
  have plain : (Instr.getCapture n).Plain := ⟨by simp [Instr.targets],by simp,by simp⟩
  obtain ⟨code,captures,cell,state,here,found,known⟩ := poised.captured poised.ready.legal
  rw [Safe,Action.getCapture,ensures_bind,ensures_capturedCell poised.frames here found,
    ensures_bind,ensures_cellState known]
  cases state with
  | onStack place =>
    have inside := (poised.orderly.inside cell place known).2
    rw [ensures_bind,ensures_slot inside]
    exact poised.push (.refl poised.intact) plain rfl
      (poised.held (Array.getElem?_eq_getElem inside))
  | closed value =>
    exact poised.push (.refl poised.intact) plain rfl (poised.intact.valid cell _ known)

theorem setCapture {n : Nat} (poised : Poised m s (.setCapture n)) :
    Safe (Action.setCapture n) m m s (.setCapture n) := by
  have plain : (Instr.setCapture n).Plain := ⟨by simp [Instr.targets],by simp,by simp⟩
  have enough : 1 ≤ s.point.height := poised.enough
  have size := poised.size
  have bound : m.stack.size - 1 - 0 < m.stack.size := by omega
  have held := poised.held (Array.getElem?_eq_getElem bound)
  obtain ⟨code,captures,cell,state,here,found,known⟩ := poised.captured poised.ready.legal
  rw [Safe,Action.setCapture,ensures_bind,ensures_capturedCell poised.frames here found,
    ensures_bind,ensures_peek (by omega),ensures_bind,ensures_cellState known]
  cases state with
  | onStack place =>
    exact poised.setSlot plain rfl rfl (poised.orderly.inside cell place known).2 (.inr ⟨cell,known⟩)
      held
  | closed value =>
    rw [ensures_updateObject]
    have becomes : Object.Becomes (.cell (.closed value))
        (.cell (.closed m.stack[m.stack.size - 1 - 0])) := .inr (.inr ⟨_,_,rfl,rfl⟩)
    have intact : Machine.Intact ∅ { m with
        heap := m.heap.update cell fun _ => .cell (.closed m.stack[m.stack.size - 1 - 0]) } :=
      poised.intact.update known (by simp) becomes.outline (by simp) held
    refine poised.settle ⟨Machine.evolves_update known becomes,intact,rfl,rfl,rfl⟩ plain rfl rfl rfl
      intact poised.bounded ?_ fun _ _ => rfl
    change m.stack.size = s.base + (s.point.height - 1 + 1)
    omega

/-! Structs and records. -/

/-- A record has a value for each field of its struct. -/
theorem shaped (poised : Poised m s i) {h shape : Handle} {fields : Array Value}
    (found : m.heap.get? h = some (.record shape fields)) :
    ∃ name labels, m.heap.get? shape = some (.struct name labels) ∧
      fields.size = labels.length ∧ ∀ value ∈ fields, m.heap.Holds value := by
  obtain ⟨⟨labels,⟨name,here⟩,count⟩,held⟩ := poised.intact.valid h _ found
  exact ⟨name,labels,here,count,held⟩

theorem ensures_fieldIndex {ok : Nat → Machine → Prop} {stop : Stop → Machine → Prop}
    {shape label name : Handle} {labels : List Handle}
    (found : m.heap.get? shape = some (.struct name labels))
    (next : ∀ index < labels.length, ok index m)
    (missing : ∀ f, stop (.fault ⟨f,m.trace⟩) m) : Ensures (fieldIndex shape label) m ok stop := by
  rw [fieldIndex,ensures_bind,ensures_object found]
  dsimp only
  split
  next index known => exact next index (List.findIdx?_eq_some_iff_getElem.mp known).1
  next => simpa using missing _

theorem getField {n : Nat} (poised : Poised m s (.getField n)) :
    Safe (do Action.getField (← nameOf (← constant n))) m m s (.getField n) := by
  have enough : 1 ≤ s.point.height := poised.enough
  have size := poised.size
  have bound : m.stack.size - 1 - 0 < m.stack.size := by omega
  rw [Safe]
  refine poised.ensures_named poised.ready.legal fun label text _ => ?_
  rw [Action.getField,ensures_bind,ensures_peek (by omega),ensures_bind]
  refine .record? (poised.held (Array.getElem?_eq_getElem bound)) ?_ ?_
  · intro h shape fields _ found
    obtain ⟨name,labels,here,count,held⟩ := poised.shaped found
    rw [ensures_bind]
    refine ensures_fieldIndex here (fun index inside => ?_) fun _ => poised.faults
    have room : index < fields.size := by omega
    rw [ensures_bind,Array.getElem?_eq_getElem room,ensures_some]
    exact poised.replaceTop (.refl poised.intact) ⟨by simp [Instr.targets],by simp,by simp⟩ rfl rfl
      (held _ (Array.getElem_mem room))
  · simpa using poised.faults

theorem setField {n : Nat} (poised : Poised m s (.setField n)) :
    Safe (do Action.setField (← nameOf (← constant n))) m m s (.setField n) := by
  have enough : 2 ≤ s.point.height := poised.enough
  have size := poised.size
  have first : m.stack.size - 1 - 0 < m.stack.size := by omega
  have second : m.stack.size - 1 - 1 < m.stack.size := by omega
  have value := poised.held (Array.getElem?_eq_getElem second)
  rw [Safe]
  refine poised.ensures_named poised.ready.legal fun label text _ => ?_
  rw [Action.setField,ensures_bind,ensures_peek (by omega),ensures_bind,ensures_peek (by omega),
    ensures_bind]
  refine .record? (poised.held (Array.getElem?_eq_getElem first)) ?_ ?_
  · intro h shape fields same found
    obtain ⟨name,labels,here,count,held⟩ := poised.shaped found
    rw [same]
    dsimp only
    rw [ensures_bind]
    refine ensures_fieldIndex here (fun index inside => ?_) fun _ => poised.faults
    have room : index < fields.size := by omega
    simp only [room,↓reduceIte,ensures_bind,ensures_updateObject]
    have becomes : Object.Becomes (.record shape fields)
        (setFieldAt index m.stack[m.stack.size - 1 - 1] (.record shape fields)) :=
      .inr (.inl ⟨_,_,_,rfl,rfl⟩)
    have intact : Machine.Intact ∅ { m with
        heap := m.heap.update h (setFieldAt index m.stack[m.stack.size - 1 - 1]) } := by
      refine poised.intact.update found (by simp) becomes.outline (by simp) ?_
      refine ⟨⟨labels,⟨name,here⟩,by simpa using count⟩,fun other member => ?_⟩
      rcases Array.mem_or_eq_of_mem_setIfInBounds member with old | rfl
      · exact held other old
      · exact value
    exact poised.pop ⟨Machine.evolves_update found becomes,intact,rfl,rfl,rfl⟩
      ⟨by simp [Instr.targets],by simp,by simp⟩ rfl
  · split
    next h shape fields _ impossible => cases impossible
    next => simpa using poised.faults

/-- The handles of some names. -/
theorem ensures_namesOf (poised : Poised m s i) (fields : List Nat)
    (names : ∀ f ∈ fields, Instr.Names s.chunk.constants f) {ok : List Handle → Machine → Prop}
    {stop : Stop → Machine → Prop}
    (next : ∀ labels, (∀ h ∈ labels, m.heap.IsString h ∧ .object h ∈ s.constants) → ok labels m) :
    Ensures (namesOf fields) m ok stop := by
  induction fields generalizing ok with
  | nil => exact next [] (by simp)
  | cons first rest ih =>
    obtain ⟨h,text,found,here⟩ := poised.named (names first List.mem_cons_self)
    rw [namesOf,ensures_bind,ensures_constant poised.frames poised.code found,ensures_bind,
      ensures_nameOf here,ensures_bind]
    refine ih (fun f member => names f (List.mem_cons_of_mem _ member)) fun labels each => ?_
    refine next (h :: labels) fun k member => ?_
    rcases List.mem_cons.mp member with rfl | later
    · exact ⟨⟨text,here⟩,Array.mem_of_getElem? found⟩
    · exact each k later

/-- The constants of the running function are reached. -/
theorem reaches_constant (poised : Poised m s i) {h : Handle} (member : .object h ∈ s.constants) :
    m.Reaches h := by
  obtain ⟨function,captures,here,there⟩ := Machine.functionOf?_some.mp poised.code
  have closure : m.Reaches s.closure :=
    Machine.reaches_stack (Array.mem_of_getElem? poised.running)
  exact (closure.next here List.mem_cons_self).next there (Object.mem_handles.mpr member)

theorem createStruct {n : Nat} {fields : List Nat} (poised : Poised m s (.createStruct n fields)) :
    Safe (do
      let name ← nameOf (← constant n)
      let labels ← namesOf fields
      Action.push (.object (← allocateStruct name labels))) m m s (.createStruct n fields) := by
  obtain ⟨names,each⟩ := poised.ready.legal
  obtain ⟨title,text,found,here⟩ := poised.named names
  rw [Safe,ensures_bind,ensures_constant poised.frames poised.code found,ensures_bind,
    ensures_nameOf here,ensures_bind]
  refine poised.ensures_namesOf fields each fun labels known => ?_
  rw [ensures_bind,allocateStruct]
  refine .allocate poised.intact (by simp) fun h mid grows placed still => ?_
  have intact : mid.Intact ∅ := by
    refine still False ∅ ⟨⟨text,here⟩,fun f member => (known f member).1⟩ ?_ subset_rfl False.elim
    intro r member
    rcases List.mem_cons.mp member with rfl | label
    · exact poised.reaches_constant (Array.mem_of_getElem? found)
    · exact poised.reaches_constant (known r label).2
  have steady : m.Steady {h} mid := by
    refine grows.steady intact ?_
    rintro k rfl o known
    rw [placed] at known
    cases known
    simp
  exact poised.push steady ⟨by simp [Instr.targets],by simp,by simp⟩ rfl (Heap.holds_object placed)

end ScriptMachine.Poised
