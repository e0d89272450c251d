import Mathlib
import ScriptMachine.Proofs.Actions

/-! A machine in the middle of a run. Each frame has its closure just below its values, stands at an
edge of its chunk, and has as many values as the chart says; every open cell belongs to a slot that
the chart of some frame allows for. -/
namespace ScriptMachine

/-- What may become of an object that is not under construction: records and closed cells get other
contents. -/
def Object.Becomes (o o' : Object) : Prop :=
  o' = o ∨ (∃ shape fields others, o = .record shape fields ∧ o' = .record shape others) ∨
    ∃ value other, o = .cell (.closed value) ∧ o' = .cell (.closed other)

namespace Machine

/-- The cell is open and stands for the slot. -/
def Opens (m : Machine) (h : Handle) (slot : Nat) : Prop :=
  m.heap.get? h = some (.cell (.onStack slot))

/-- The open cells are listed, each with a slot of its own. -/
structure Celled (m : Machine) : Prop where
  listed : ∀ h slot, m.Opens h slot → h ∈ m.openCells
  opened : ∀ h ∈ m.openCells, ∃ slot, m.Opens h slot
  distinct : m.openCells.Pairwise fun a b => ∀ slot, ¬(m.Opens a slot ∧ m.Opens b slot)

/-- Frames with their callers, the size of the stack once all callees have returned to the first of
them, and the slots that may have an open cell: of those that the chart of a frame allows for, the
ones that `marks` leaves. -/
inductive Stacked (m : Machine) : List Frame → Nat → Set Nat → Prop
  | bottom : Stacked m [] 1 ∅
  | frame {closure : Handle} {ip base : Nat} {callers : List Frame} {cells marks : Set Nat}
      {chunk : Chunk} {constants : Array Value} {edges : Set Nat} {points : Nat → Point}
      (below : Stacked m callers base cells) (clear : ∀ s ∈ cells, s + 1 < base)
      (room : ∀ f ∈ callers, f.base < base)
      (running : m.stack[base - 1]? = some (.object closure))
      (code : m.functionOf? closure = some (chunk,constants))
      (charted : chunk.Charted edges points) (edge : ip ∈ edges)
      (allowed : marks ⊆ (points ip).cells) :
      Stacked m (⟨closure,ip,base⟩ :: callers) (base + (points ip).height)
        (cells ∪ {s | base ≤ s ∧ s - base ∈ marks})

/-- Between two instructions. -/
structure Running (m : Machine) : Prop where
  intact : m.Intact ∅
  celled : m.Celled
  bounded : m.stack.size ≤ stackLimit
  active : m.frames ≠ []
  stacked : ∃ cells, m.Stacked m.frames m.stack.size cells ∧
    ∀ h slot, m.Opens h slot → slot ∈ cells

/-- What holds at all times, even when a fault has ended the run: nothing dangles, open cells have
slots on the stack, and the closure of each frame lies below its values. -/
structure Orderly (m : Machine) : Prop where
  intact : ∃ raw, m.Intact raw
  celled : m.Celled
  inside : ∀ h slot, m.Opens h slot → 1 ≤ slot ∧ slot < m.stack.size
  guards : ∀ f ∈ m.frames, 1 ≤ f.base ∧ m.stack[f.base - 1]? = some (.object f.closure) ∧
    ∃ code captures, m.heap.get? f.closure = some (.closure code captures)

variable {m m' : Machine} {fresh : Set Handle}

theorem Opens.unique {h : Handle} {a b : Nat} (first : m.Opens h a) (second : m.Opens h b) :
    a = b := by
  rw [Opens] at first second
  simpa [first] using second

theorem Celled.shut (celled : m.Celled) (closed : m.openCells = []) (h : Handle) (slot : Nat) :
    ¬m.Opens h slot := by
  intro opens
  have listed := celled.listed h slot opens
  rw [closed] at listed
  exact List.not_mem_nil listed

theorem Celled.unique (celled : m.Celled) {a b : Handle} {slot : Nat} (first : m.Opens a slot)
    (second : m.Opens b slot) : a = b := by
  by_contra other
  have : Std.Symm fun a b => ∀ slot, ¬(m.Opens a slot ∧ m.Opens b slot) :=
    ⟨fun _ _ apart slot both => apart slot both.symm⟩
  exact celled.distinct.forall (celled.listed a slot first) (celled.listed b slot second)
    other slot ⟨first,second⟩

/-- The open cells stay in order while their list stays and each stays open for its slot. -/
theorem Celled.of_opens (celled : m.Celled) (same : m'.openCells = m.openCells)
    (opens : ∀ h slot, m'.Opens h slot ↔ m.Opens h slot) : m'.Celled where
  listed h slot there := same ▸ celled.listed h slot ((opens h slot).mp there)
  opened h member := by
    obtain ⟨slot,there⟩ := celled.opened h (same ▸ member)
    exact ⟨slot,(opens h slot).mpr there⟩
  distinct := by
    rw [same]
    refine celled.distinct.imp fun apart slot both => apart slot ?_
    exact ⟨(opens _ slot).mp both.1,(opens _ slot).mp both.2⟩

theorem Celled.of_heap (celled : m.Celled) (heap : m'.heap = m.heap)
    (same : m'.openCells = m.openCells) : m'.Celled :=
  celled.of_opens same fun h slot => by rw [Opens,Opens,heap]

theorem Stacked.pos {frames : List Frame} {top : Nat} {cells : Set Nat}
    (stacked : m.Stacked frames top cells) : 1 ≤ top := by
  induction stacked with
  | bottom => exact le_rfl
  | frame below clear room running code charted edge allowed ih => omega

theorem Stacked.alone {top : Nat} {cells : Set Nat} (stacked : m.Stacked [] top cells) : top = 1 := by
  cases stacked
  rfl

/-- Each frame has its closure on the stack, in a slot that no cell can have. -/
theorem Stacked.guard {frames : List Frame} {top : Nat} {cells : Set Nat}
    (stacked : m.Stacked frames top cells) {f : Frame} (member : f ∈ frames) :
    1 ≤ f.base ∧ f.base ≤ top ∧ m.stack[f.base - 1]? = some (.object f.closure) ∧
      (∃ chunk constants, m.functionOf? f.closure = some (chunk,constants)) ∧
      ∀ s ∈ cells, s + 1 ≠ f.base := by
  induction stacked with
  | bottom => simp at member
  | @frame closure ip base callers cells marks chunk constants edges points below clear room running
      code charted edge allowed ih =>
    rcases List.mem_cons.mp member with rfl | caller
    · refine ⟨below.pos,Nat.le_add_right _ _,running,⟨_,_,code⟩,?_⟩
      rintro s (lower | ⟨own,-⟩)
      · exact Nat.ne_of_lt (clear s lower)
      · change s + 1 ≠ base
        omega
    · obtain ⟨positive,low,found,known,apart⟩ := ih caller
      refine ⟨positive,by omega,found,known,?_⟩
      rintro s (lower | ⟨own,-⟩)
      · exact apart s lower
      · omega

/-- The slots of cells lie on the stack, but not at its bottom. -/
theorem Stacked.inside {frames : List Frame} {top : Nat} {cells : Set Nat}
    (stacked : m.Stacked frames top cells) (small : top < 4294967296) :
    ∀ s ∈ cells, 1 ≤ s ∧ s < top := by
  induction stacked with
  | bottom => simp
  | @frame closure ip base callers cells marks chunk constants edges points below clear room running
      code charted edge allowed ih =>
    obtain ⟨i,-,ready,-⟩ := charted.next ip edge (by omega)
    have positive := below.pos
    rintro s (lower | ⟨own,marked⟩)
    · have bounds := ih (by omega) s lower
      exact ⟨bounds.1,by omega⟩
    · have := ready.inside _ (allowed marked)
      exact ⟨by omega,by omega⟩

/-- Frames stay stacked when their closures stay where and what they are. -/
theorem Stacked.keep {frames : List Frame} {top : Nat} {cells : Set Nat}
    (stacked : m.Stacked frames top cells)
    (guards : ∀ f ∈ frames, m'.stack[f.base - 1]? = m.stack[f.base - 1]?)
    (code : ∀ f ∈ frames, m'.functionOf? f.closure = m.functionOf? f.closure) :
    m'.Stacked frames top cells := by
  induction stacked with
  | bottom => exact .bottom
  | frame below clear room running known charted edge allowed ih =>
    refine .frame (ih ?_ ?_) clear room ((guards _ List.mem_cons_self).trans running)
      ((code _ List.mem_cons_self).trans known) charted edge allowed
    · exact fun f member => guards f (List.mem_cons_of_mem _ member)
    · exact fun f member => code f (List.mem_cons_of_mem _ member)

theorem functionOf?_some {closure : Handle} {chunk : Chunk} {constants : Array Value} :
    m.functionOf? closure = some (chunk,constants) ↔ ∃ code captures,
      m.heap.get? closure = some (.closure code captures) ∧
        m.heap.get? code = some (.function chunk constants) := by
  rw [functionOf?]
  constructor
  · intro found
    split at found
    next code captures here =>
      split at found
      next chunk constants there =>
        cases found
        exact ⟨code,captures,here,there⟩
      next => contradiction
    next => contradiction
  · rintro ⟨code,captures,here,there⟩
    simp [here,there]

theorem Running.orderly (running : m.Running) : m.Orderly := by
  obtain ⟨cells,stacked,slots⟩ := running.stacked
  have bounded := running.bounded
  refine ⟨⟨∅,running.intact⟩,running.celled,fun h slot opens => ?_,fun f member => ?_⟩
  · refine stacked.inside ?_ slot (slots h slot opens)
    simp only [stackLimit] at bounded
    omega
  · obtain ⟨positive,-,found,⟨chunk,constants,code⟩,-⟩ := stacked.guard member
    obtain ⟨function,captures,here,-⟩ := functionOf?_some.mp code
    exact ⟨positive,found,function,captures,here⟩

/-! What a step does to cells and closures. -/

/-- Objects that are reached stay, and so do closures and open cells; records and closed cells may
get other contents. Fresh objects are neither functions nor closures nor cells. -/
structure Evolves (fresh : Set Handle) (m m' : Machine) : Prop where
  old : ∀ h ∉ fresh, ∀ o', m'.heap.get? h = some o' → ∃ o, m.heap.get? h = some o ∧ o.Becomes o'
  kept : ∀ h o, m.Reaches h → m.heap.get? h = some o →
    h ∉ fresh ∧ ∃ o', m'.heap.get? h = some o' ∧ o.Becomes o'
  plain : ∀ h ∈ fresh, ∀ o, m'.heap.get? h = some o → (∀ code captures, o ≠ .closure code captures) ∧
    (∀ state, o ≠ .cell state) ∧ ∀ chunk constants, o ≠ .function chunk constants

/-- How many values an instruction leaves where they are. -/
def remains (m : Machine) (f : Frame) (i : Instr) : Nat :=
  if i = .ret then f.base - 1 else m.stack.size - i.takes

/-- A step closes exactly the cells of the slots it takes off the stack, all but the first `rest`, and
each keeps the last value of its slot. Closures and other open cells that are not fresh were there
before. -/
structure Turns (rest : Nat) (fresh : Set Handle) (m m' : Machine) : Prop where
  stays : ∀ h slot, m.Opens h slot → slot < rest → m'.Opens h slot
  closes : ∀ h slot, m.Opens h slot → rest ≤ slot → m'.stack.size ≤ slot ∧
    ∃ value, m.stack[slot]? = some value ∧ m'.heap.get? h = some (.cell (.closed value))
  opens : ∀ h slot, m'.Opens h slot → h ∉ fresh → m.Opens h slot
  closed : ∀ h value, m'.heap.get? h = some (.cell (.closed value)) → h ∉ fresh ∧ m.heap.IsCell h
  closures : ∀ h code captures, m'.heap.get? h = some (.closure code captures) → h ∉ fresh →
    m.heap.get? h = some (.closure code captures) ∧ ∀ c ∈ captures, c ∉ fresh

/-- A closure made in this frame has the cell for a captured variable: the one that is then open for
its slot, or one of the running closure. -/
def Captures (m : Machine) (f : Frame) (c : Capture) (cell : Handle) (m' : Machine) : Prop :=
  if c.isLocal then m'.Opens cell (f.base + c.index)
  else ∃ code outer, m.heap.get? f.closure = some (.closure code outer) ∧
    outer[c.index]? = some cell

/-- Closures that are reached stay. New ones only come from the instruction that makes them, which
leaves its closure on top of the stack, with the cells of the variables it captures. -/
structure Makes (i : Instr) (f : Frame) (fresh : Set Handle) (m m' : Machine) : Prop where
  only : ∀ h ∈ fresh, ∀ code captures, m'.heap.get? h = some (.closure code captures) →
    (∃ n list, i = .closure n list) ∧ m'.stack.back? = some (.object h)
  captured : ∀ n list, i = .closure n list → ∃ h code captures,
    m'.stack.back? = some (.object h) ∧ m'.heap.get? h = some (.closure code captures) ∧
      captures.size = list.length ∧ ∀ (k : Nat) (c : Capture), list[k]? = some c →
        ∃ cell, captures[k]? = some cell ∧ m.Captures f c cell m'
  spared : ∀ h code captures, m.Reaches h → m.heap.get? h = some (.closure code captures) →
    h ∉ fresh ∧ m'.heap.get? h = some (.closure code captures)

/-- The run is over: nothing is left on the stacks, and no cell is open. -/
structure Finished (m : Machine) : Prop where
  intact : m.Intact ∅
  celled : m.Celled
  stack : m.stack = #[]
  frames : m.frames = []
  openCells : m.openCells = []

/-- What a step does to the frames: the running one goes on, or a callee starts above it, or it is
left with its value on top of what its caller has. -/
inductive Passes (i : Instr) (f : Frame) (m m' : Machine) : Prop
  | on (target : Nat) (aim : target ∈ i.targets f.ip)
      (frames : m'.frames = { f with ip := target } :: m.frames.tail)
      (size : m'.stack.size + i.takes = m.stack.size + i.gives)
  | enter (n : Nat) (closure : Handle) (call : i = .call n)
      (callee : m.stack[m.stack.size - 1 - n]? = some (.object closure))
      (found : ∃ code captures, m.heap.get? closure = some (.closure code captures))
      (frames : m'.frames = ⟨closure,0,m.stack.size - n⟩ :: { f with ip := f.ip + i.size } ::
        m.frames.tail) (stack : m'.stack = m.stack)
  | leave (value : Value) (ret : i = .ret) (top : m.stack.back? = some value)
      (frames : m'.frames = m.frames.tail)
      (stack : m'.stack = (m.stack.shrink (f.base - 1)).push value)

/-- A step takes no values from below its frame. Of those that it does not take, only the local
variable that it sets and those with an open cell may change, and cells are opened for values of the
running frame when a closure is made. -/
structure Spares (i : Instr) (f : Frame) (m m' : Machine) : Prop where
  low : f.base ≤ m.remains f i + 1
  slots : ∀ p < m.remains f i, (∀ n, i = .setLocal n → p ≠ f.base + n) → (∀ h, ¬m.Opens h p) →
    m'.stack[p]? = m.stack[p]?
  opens : ∀ h slot, m'.Opens h slot →
    m.Opens h slot ∨ (∃ n list, i = .closure n list) ∧ f.base ≤ slot

/-- Where an instruction may lead. -/
structure Continues (i : Instr) (f : Frame) (m m' : Machine) : Prop where
  running : m'.Running
  turns : ∃ fresh, m.Turns (m.remains f i) fresh m' ∧ m.Makes i f fresh m'
  passes : m.Passes i f m'
  spares : m.Spares i f m'

/-- What a fault leaves behind: the stack and the open cells are as before, and the closures that are
reached stay. Only where the stack is full an object may be left half built, out of reach. -/
structure Faults (m m' : Machine) : Prop where
  orderly : m'.Orderly
  aside : ∃ raw, m'.Intact raw ∧ (∀ h ∈ raw, ¬m'.Reaches h) ∧ (m.stack.size < stackLimit → raw = ∅)
  stack : m'.stack = m.stack
  opens : ∀ h slot, m'.Opens h slot ↔ m.Opens h slot
  spared : ∀ h code captures, m.Reaches h → m.heap.get? h = some (.closure code captures) →
    m'.heap.get? h = some (.closure code captures)

/-- How an instruction may stop the run: never stuck. -/
def Ends (m : Machine) : Stop → Machine → Prop
  | .stuck, _ => False
  | .fault _, m' => m.Faults m'
  | .finished, m' => m'.Finished ∧ m.Turns 0 ∅ m'

@[simp] theorem ends_fault {error : RuntimeError} : m.Ends (.fault error) m' ↔ m.Faults m' := Iff.rfl

end Machine

/-! How objects and cells pass through a step. -/

/-- Not a record and not a closed cell. -/
def Object.Fixed : Object → Prop
  | .record .. | .cell (.closed _) => False
  | _ => True

theorem Object.Becomes.refl (o : Object) : o.Becomes o := .inl rfl

theorem Object.Becomes.fixed_left {o o' : Object} (becomes : o.Becomes o') (fixed : o.Fixed) :
    o' = o := by
  rcases becomes with same | ⟨shape,fields,others,rfl,rfl⟩ | ⟨value,other,rfl,rfl⟩
  · exact same
  · exact fixed.elim
  · exact fixed.elim

theorem Object.Becomes.fixed_right {o o' : Object} (becomes : o.Becomes o') (fixed : o'.Fixed) :
    o' = o := by
  rcases becomes with same | ⟨shape,fields,others,rfl,rfl⟩ | ⟨value,other,rfl,rfl⟩
  · exact same
  · exact fixed.elim
  · exact fixed.elim

theorem Object.Becomes.outline {o o' : Object} (becomes : o.Becomes o') :
    o'.outline = o.outline := by
  rcases becomes with rfl | ⟨shape,fields,others,rfl,rfl⟩ | ⟨value,other,rfl,rfl⟩ <;> rfl

namespace Machine

variable {m m' : Machine} {fresh raw : Set Handle}

theorem Grows.evolves (grows : m.Grows fresh m')
    (plain : ∀ h ∈ fresh, ∀ o, m'.heap.get? h = some o →
      (∀ code captures, o ≠ .closure code captures) ∧ (∀ state, o ≠ .cell state) ∧
        ∀ chunk constants, o ≠ .function chunk constants) : m.Evolves fresh m' where
  old h outside o found := ⟨o,grows.old h outside o found,.refl o⟩
  kept h o reaches found := by
    obtain ⟨outside,same⟩ := grows.kept h reaches
    exact ⟨outside,o,same.trans found,.refl o⟩
  plain := plain

theorem Evolves.opens_of (evolves : m.Evolves fresh m') {h : Handle} {slot : Nat}
    (opens : m'.Opens h slot) : m.Opens h slot := by
  by_cases new : h ∈ fresh
  · exact absurd rfl ((evolves.plain h new _ opens).2.1 _)
  · obtain ⟨o,found,becomes⟩ := evolves.old h new _ opens
    rw [Opens,found,becomes.fixed_right trivial]

theorem Evolves.opens (evolves : m.Evolves fresh m') (celled : m.Celled) {h : Handle} {slot : Nat}
    (opens : m.Opens h slot) : m'.Opens h slot := by
  obtain ⟨-,o,found,becomes⟩ :=
    evolves.kept h _ (reaches_openCells (celled.listed h slot opens)) opens
  rw [Opens,found,becomes.fixed_left trivial]

theorem Evolves.celled (evolves : m.Evolves fresh m') (celled : m.Celled)
    (same : m'.openCells = m.openCells) : m'.Celled :=
  celled.of_opens same fun _ _ => ⟨evolves.opens_of,evolves.opens celled⟩

theorem Grows.opens (grows : m.Grows fresh m') (celled : m.Celled) {h : Handle} {slot : Nat}
    (opens : m.Opens h slot) : m'.Opens h slot :=
  (grows.kept h (reaches_openCells (celled.listed h slot opens))).2.trans opens

/-- Cells stay what they are when no new one is open. -/
theorem Grows.celled (grows : m.Grows fresh m') (celled : m.Celled)
    (closed : ∀ h ∈ fresh, ∀ slot, ¬m'.Opens h slot) : m'.Celled := by
  exact celled.of_opens (by rw [grows.same]) fun h slot =>
    ⟨fun opens => grows.old h (fun new => closed h new slot opens) _ opens,grows.opens celled⟩

/-- A closure that is reached keeps its code. -/
theorem Evolves.functionOf? (evolves : m.Evolves fresh m') {closure : Handle}
    (reaches : m.Reaches closure) {code : Chunk × Array Value}
    (found : m.functionOf? closure = some code) : m'.functionOf? closure = some code := by
  obtain ⟨chunk,constants⟩ := code
  obtain ⟨function,captures,here,there⟩ := functionOf?_some.mp found
  obtain ⟨-,o,still,becomes⟩ := evolves.kept closure _ reaches here
  obtain ⟨-,o',stillToo,becomesToo⟩ :=
    evolves.kept function _ (reaches.next here List.mem_cons_self) there
  refine functionOf?_some.mpr ⟨function,captures,?_,?_⟩
  · rw [still,becomes.fixed_left trivial]
  · rw [stillToo,becomesToo.fixed_left trivial]

/-- Order is kept while the stacks are. -/
theorem Orderly.evolve (orderly : m.Orderly) (evolves : m.Evolves fresh m') (intact : m'.Intact raw)
    (stack : m'.stack = m.stack) (frames : m'.frames = m.frames)
    (openCells : m'.openCells = m.openCells) : m'.Orderly where
  intact := ⟨raw,intact⟩
  celled := evolves.celled orderly.celled openCells
  inside h slot opens := by
    rw [stack]
    exact orderly.inside h slot (evolves.opens_of opens)
  guards f member := by
    rw [frames] at member
    obtain ⟨positive,found,code,captures,here⟩ := orderly.guards f member
    obtain ⟨-,o,still,becomes⟩ := evolves.kept f.closure _
      (reaches_stack (Array.mem_of_getElem? found)) here
    exact ⟨positive,stack ▸ found,code,captures,by rw [still,becomes.fixed_left trivial]⟩

end Machine

/-! Just before an instruction is executed. -/

/-- The running frame with what is known about it: its chunk with the chart, and the slots that its
callers allow to have a cell. -/
structure Scene where
  closure : Handle
  ip : Nat
  base : Nat
  callers : List Frame
  chunk : Chunk
  constants : Array Value
  edges : Set Nat
  points : Nat → Point
  cells : Set Nat

namespace Scene

def point (s : Scene) : Point :=
  s.points s.ip

/-- The running frame, once it has read on to an offset. -/
def frame (s : Scene) (offset : Nat) : Frame :=
  ⟨s.closure,offset,s.base⟩

end Scene

/-- The machine has read an instruction that is ready to be executed. -/
structure Poised (m : Machine) (s : Scene) (i : Instr) : Prop where
  intact : m.Intact ∅
  celled : m.Celled
  bounded : m.stack.size ≤ Machine.stackLimit
  frames : m.frames = s.frame (s.ip + i.size) :: s.callers
  below : m.Stacked s.callers s.base s.cells
  clear : ∀ slot ∈ s.cells, slot + 1 < s.base
  room : ∀ f ∈ s.callers, f.base < s.base
  running : m.stack[s.base - 1]? = some (.object s.closure)
  code : m.functionOf? s.closure = some (s.chunk,s.constants)
  charted : s.chunk.Charted s.edges s.points
  ready : i.Ready s.chunk.constants s.chunk.captureCount s.ip s.point
  leads : ∀ target ∈ i.targets s.ip, target ∈ s.edges ∧ i.after s.point ≤ s.points target
  size : m.stack.size = s.base + s.point.height
  slots : ∀ h slot, m.Opens h slot →
    slot ∈ s.cells ∨ s.base ≤ slot ∧ slot - s.base ∈ s.point.cells

/-- The instruction makes no closure and closes no cell, and may go on to the next one. -/
structure Instr.Plain (i : Instr) : Prop where
  next : ∀ offset, offset + i.size ∈ i.targets offset
  noClosure : ∀ n list, i ≠ .closure n list
  noCell : i ≠ .closeCell

namespace Poised

variable {m m' : Machine} {s : Scene} {i : Instr} {fresh : Set Handle}

theorem pos (poised : Poised m s i) : 1 ≤ s.base := poised.below.pos

/-- Every frame has its closure on the stack, below the values of the running frame and in a slot
that no cell can have. -/
theorem guard (poised : Poised m s i) {f : Frame} (member : f ∈ m.frames) :
    1 ≤ f.base ∧ f.base ≤ s.base ∧ m.stack[f.base - 1]? = some (.object f.closure) ∧
      (∃ chunk constants, m.functionOf? f.closure = some (chunk,constants)) ∧
      ∀ slot, slot ∈ s.cells ∨ s.base ≤ slot → slot + 1 ≠ f.base := by
  rw [poised.frames] at member
  rcases List.mem_cons.mp member with rfl | caller
  · refine ⟨poised.pos,le_rfl,poised.running,⟨_,_,poised.code⟩,?_⟩
    rintro slot (lower | own)
    · exact Nat.ne_of_lt (poised.clear slot lower)
    · change slot + 1 ≠ s.base
      omega
  · obtain ⟨positive,low,found,known,apart⟩ := poised.below.guard caller
    refine ⟨positive,low,found,known,?_⟩
    rintro slot (lower | own)
    · exact apart slot lower
    · omega

theorem reaches (poised : Poised m s i) {f : Frame} (member : f ∈ m.frames) :
    m.Reaches f.closure :=
  Machine.reaches_stack (Array.mem_of_getElem? (poised.guard member).2.2.1)

/-- The frames keep their code when closures that are reached do. -/
theorem codes (poised : Poised m s i) (keeps : ∀ closure code, m.Reaches closure →
    m.functionOf? closure = some code → m'.functionOf? closure = some code) {f : Frame}
    (member : f ∈ m.frames) : m'.functionOf? f.closure = m.functionOf? f.closure := by
  obtain ⟨-,-,-,⟨chunk,constants,known⟩,-⟩ := poised.guard member
  rw [known]
  exact keeps _ _ (poised.reaches member) known

theorem enough (poised : Poised m s i) : i.takes ≤ s.point.height := poised.ready.enough

theorem bound (poised : Poised m s i) : s.base + s.point.height ≤ 8192 :=
  poised.size ▸ poised.bounded

theorem orderly (poised : Poised m s i) : m.Orderly where
  intact := ⟨∅,poised.intact⟩
  celled := poised.celled
  inside h slot opens := by
    have bound := poised.bound
    have size := poised.size
    have positive := poised.pos
    rcases poised.slots h slot opens with lower | ⟨own,marked⟩
    · have inside := poised.below.inside (by omega) slot lower
      exact ⟨inside.1,by omega⟩
    · have := poised.ready.inside _ marked
      exact ⟨by omega,by omega⟩
  guards f member := by
    obtain ⟨positive,-,found,⟨chunk,constants,code⟩,-⟩ := poised.guard member
    obtain ⟨function,captures,here,-⟩ := Machine.functionOf?_some.mp code
    exact ⟨positive,found,function,captures,here⟩

theorem faults (poised : Poised m s i) : m.Faults m :=
  ⟨poised.orderly,⟨∅,poised.intact,by simp,fun _ => rfl⟩,rfl,fun _ _ => Iff.rfl,
    fun _ _ _ _ found => found⟩

/-- No cell is open for a slot that the instruction takes. -/
theorem low (poised : Poised m s i) (other : i ≠ .closeCell) {h : Handle} {slot : Nat}
    (opens : m.Opens h slot) :
    slot < s.base + (s.point.height - i.takes) ∧
      (slot ∈ s.cells ∨ s.base ≤ slot ∧ slot - s.base ∈ (i.after s.point).cells) := by
  rcases poised.slots h slot opens with lower | ⟨own,marked⟩
  · have := poised.clear slot lower
    exact ⟨by omega,.inl lower⟩
  · have low := poised.ready.clear other _ marked
    exact ⟨by omega,.inr ⟨own,.inl ⟨marked,low⟩⟩⟩

/-- The slots that the instruction does not take. -/
theorem remains (poised : Poised m s i) (notRet : i ≠ .ret) {f : Frame} :
    m.remains f i = s.base + (s.point.height - i.takes) := by
  have enough := poised.enough
  have size := poised.size
  rw [Machine.remains,if_neg notRet]
  omega

theorem spares (poised : Poised m s i)
    (slots : ∀ p < m.remains (s.frame s.ip) i, (∀ n, i = .setLocal n → p ≠ s.base + n) →
      (∀ h, ¬m.Opens h p) → m'.stack[p]? = m.stack[p]?)
    (opens : ∀ h slot, m'.Opens h slot →
      m.Opens h slot ∨ (∃ n list, i = .closure n list) ∧ s.base ≤ slot) :
    m.Spares i (s.frame s.ip) m' := by
  refine ⟨?_,slots,opens⟩
  by_cases isRet : i = .ret
  · rw [Machine.remains,if_pos isRet]
    exact Nat.le_add_of_sub_le le_rfl
  · rw [poised.remains isRet]
    change s.base ≤ _
    omega

/-- The next instruction of the same frame. -/
theorem proceed (poised : Poised m s i) {target : Nat} (aim : target ∈ i.targets s.ip)
    (frames : m'.frames = s.frame target :: s.callers) (intact : m'.Intact ∅) (celled : m'.Celled)
    (bounded : m'.stack.size ≤ Machine.stackLimit)
    (size : m'.stack.size = s.base + (s.point.height - i.takes + i.gives))
    (guards : ∀ f ∈ m.frames, m'.stack[f.base - 1]? = m.stack[f.base - 1]?)
    (code : ∀ f ∈ m.frames, m'.functionOf? f.closure = m.functionOf? f.closure)
    (slots : ∀ h slot, m'.Opens h slot →
      slot ∈ s.cells ∨ s.base ≤ slot ∧ slot - s.base ∈ (i.after s.point).cells) : m'.Running := by
  obtain ⟨edge,allowed⟩ := poised.leads target aim
  have first : s.frame (s.ip + i.size) ∈ m.frames := by simp [poised.frames]
  have others {f : Frame} (member : f ∈ s.callers) : f ∈ m.frames := by
    simp [poised.frames,member]
  have below := poised.below.keep (fun f member => guards f (others member))
    fun f member => code f (others member)
  have stacked := Machine.Stacked.frame below poised.clear poised.room
    ((guards _ first).trans poised.running) ((code _ first).trans poised.code) poised.charted edge
    allowed.2
  have height : s.point.height - i.takes + i.gives = (s.points target).height := allowed.1
  rw [← height,← size] at stacked
  refine ⟨intact,celled,bounded,by simp [frames],_,frames ▸ stacked,?_⟩
  intro h slot opens
  rcases slots h slot opens with lower | ⟨own,marked⟩
  · exact .inl lower
  · exact .inr ⟨own,marked⟩

theorem on (poised : Poised m s i) {target : Nat} (aim : target ∈ i.targets s.ip)
    (frames : m'.frames = s.frame target :: s.callers)
    (size : m'.stack.size = s.base + (s.point.height - i.takes + i.gives)) :
    m.Passes i (s.frame s.ip) m' := by
  have enough := poised.enough
  have before := poised.size
  refine .on target aim ?_ (by omega)
  rw [frames,poised.frames]
  rfl

/-- An instruction that leaves cells and closures alone and goes on in the same frame. -/
theorem plain (poised : Poised m s i) {target : Nat} (aim : target ∈ i.targets s.ip)
    (frames : m'.frames = s.frame target :: s.callers) (evolves : m.Evolves fresh m')
    (intact : m'.Intact ∅) (openCells : m'.openCells = m.openCells)
    (bounded : m'.stack.size ≤ Machine.stackLimit)
    (size : m'.stack.size = s.base + (s.point.height - i.takes + i.gives))
    (guards : ∀ f ∈ m.frames, m'.stack[f.base - 1]? = m.stack[f.base - 1]?)
    (same : ∀ p < s.base + (s.point.height - i.takes), (∀ n, i = .setLocal n → p ≠ s.base + n) →
      (∀ h, ¬m.Opens h p) → m'.stack[p]? = m.stack[p]?)
    (notClosure : ∀ n list, i ≠ .closure n list) (notClose : i ≠ .closeCell) :
    m.Continues i (s.frame s.ip) m' := by
  have notRet : i ≠ .ret := by
    rintro rfl
    simp [Instr.targets] at aim
  refine ⟨poised.proceed aim frames intact (evolves.celled poised.celled openCells) bounded size
    guards (fun _ => poised.codes fun _ _ reaches => evolves.functionOf? reaches)
    fun h slot opens => (poised.low notClose (evolves.opens_of opens)).2,
    ⟨fresh,?_,?_⟩,poised.on aim frames size,
    poised.spares (fun p low => same p (poised.remains notRet ▸ low))
      fun h slot opens => .inl (evolves.opens_of opens)⟩
  · refine ⟨fun h slot opens _ => evolves.opens poised.celled opens,fun h slot opens high => ?_,
      fun h slot opens _ => evolves.opens_of opens,fun h value found => ?_,
      fun h function captures found outside => ?_⟩
    · have low := (poised.low notClose opens).1
      rw [poised.remains notRet] at high
      omega
    · by_cases new : h ∈ fresh
      · exact absurd rfl ((evolves.plain h new _ found).2.1 _)
      · obtain ⟨o,here,same | ⟨shape,fields,others,-,impossible⟩ | ⟨before,after,rfl,-⟩⟩ :=
          evolves.old h new _ found
        · exact ⟨new,_,same ▸ here⟩
        · cases impossible
        · exact ⟨new,_,here⟩
    · obtain ⟨o,here,becomes⟩ := evolves.old h outside _ found
      refine ⟨by rw [here,becomes.fixed_right trivial],fun c member new => ?_⟩
      obtain ⟨state,cell⟩ := (intact.valid h _ found).2 c member
      exact (evolves.plain c new _ cell).2.1 state rfl
  · refine ⟨fun h new function captures found => absurd rfl ((evolves.plain h new _ found).1 _ _),
      fun n list same => absurd same (notClosure n list),fun h function captures reaches found => ?_⟩
    obtain ⟨outside,o,still,becomes⟩ := evolves.kept h _ reaches found
    exact ⟨outside,by rw [still,becomes.fixed_left trivial]⟩

end Poised

namespace Machine

/-- Only the heap has changed, and no closure or cell in it. This is also what a native function may
do. -/
structure Steady (fresh : Set Handle) (m m' : Machine) : Prop where
  evolves : m.Evolves fresh m'
  intact : m'.Intact ∅
  stack : m'.stack = m.stack
  frames : m'.frames = m.frames
  openCells : m'.openCells = m.openCells

variable {m m' mid : Machine} {fresh raw : Set Handle}

theorem Evolves.of_heap (evolves : m.Evolves fresh mid) (same : m'.heap = mid.heap) :
    m.Evolves fresh m' := by
  refine ⟨fun h outside o => ?_,fun h o reaches found => ?_,fun h new o => ?_⟩
  · rw [same]
    exact evolves.old h outside o
  · rw [same]
    exact evolves.kept h o reaches found
  · rw [same]
    exact evolves.plain h new o

theorem Evolves.refl (m : Machine) : m.Evolves ∅ m :=
  (Grows.refl m).evolves (by simp)

theorem Steady.refl (intact : m.Intact ∅) : m.Steady ∅ m :=
  ⟨.refl m,intact,rfl,rfl,rfl⟩

theorem Grows.steady (grows : m.Grows fresh m') (intact : m'.Intact ∅)
    (plain : ∀ h ∈ fresh, ∀ o, m'.heap.get? h = some o →
      (∀ code captures, o ≠ .closure code captures) ∧ (∀ state, o ≠ .cell state) ∧
        ∀ chunk constants, o ≠ .function chunk constants) : m.Steady fresh m' := by
  have same := grows.same
  refine ⟨grows.evolves plain,intact,?_,?_,?_⟩ <;> rw [same]

theorem Steady.faults (steady : m.Steady fresh m') (orderly : m.Orderly) : m.Faults m' where
  orderly := orderly.evolve steady.evolves steady.intact steady.stack steady.frames steady.openCells
  aside := ⟨∅,steady.intact,by simp,fun _ => rfl⟩
  stack := steady.stack
  opens _ _ := ⟨steady.evolves.opens_of,steady.evolves.opens orderly.celled⟩
  spared h code captures reaches found := by
    obtain ⟨-,o,still,becomes⟩ := steady.evolves.kept h _ reaches found
    rw [still,becomes.fixed_left trivial]

theorem Intact.setStack (intact : m.Intact raw) {stack : Array Value}
    (held : ∀ value ∈ stack, m.heap.Holds value) : Intact raw { m with stack } :=
  { intact with stack := held }

theorem Intact.setFrames (intact : m.Intact raw) (frames : List Frame) :
    Intact raw { m with frames } :=
  { intact with }

/-- Changing the parts of an object that may change. -/
theorem Intact.update (intact : m.Intact raw) {still : Set Handle} {h : Handle} {o : Object}
    {change : Object → Object} (found : m.heap.get? h = some o) (grown : raw \ {h} ⊆ still)
    (outline : (change o).outline = o.outline) (plain : ∀ text, o ≠ .string text)
    (valid : (change o).Valid m.heap (h ∈ still)) :
    Intact still { m with heap := m.heap.update h change } := by
  have lasts (r : Handle) : m.heap.Outlasts (m.heap.update h change) r := by
    intro x here
    rw [Heap.get?_update]
    by_cases same : r = h
    · subst same
      rw [found] at here
      cases here
      exact ⟨change o,by simp [found],outline⟩
    · exact ⟨x,by simp [same,here],rfl⟩
  have never : ∀ text, change o ≠ .string text := by
    intro text same
    rw [same] at outline
    exact plain text (Heap.outline_string outline.symm)
  refine intact.replace (intact.tidy.update found plain never) (fun r _ => lasts r) ?_
  intro r x here
  rw [Heap.get?_update] at here
  by_cases same : r = h
  · subst same
    simp only [found,↓reduceIte,Option.map_some,Option.some_inj] at here
    subst here
    exact valid.later fun k _ => lasts k
  · rw [if_neg same] at here
    exact ((intact.valid r x here).later fun k _ => lasts k).imp fun member => grown ⟨member,same⟩

/-- Such a change to a record or a closed cell is a step of an object. -/
theorem evolves_update {h : Handle} {o : Object} {change : Object → Object}
    (found : m.heap.get? h = some o) (becomes : o.Becomes (change o)) :
    m.Evolves ∅ { m with heap := m.heap.update h change } := by
  refine ⟨fun r _ x here => ?_,fun r x _ here => ⟨not_false,?_⟩,by simp⟩
  · change (m.heap.update h change).get? r = some x at here
    rw [Heap.get?_update] at here
    by_cases same : r = h
    · subst same
      simp only [found,↓reduceIte,Option.map_some,Option.some_inj] at here
      exact ⟨o,found,here ▸ becomes⟩
    · rw [if_neg same] at here
      exact ⟨x,here,.refl x⟩
  · change ∃ x', (m.heap.update h change).get? r = some x' ∧ _
    rw [Heap.get?_update]
    by_cases same : r = h
    · subst same
      rw [found] at here
      cases here
      exact ⟨change o,by simp [found],becomes⟩
    · exact ⟨x,by simp [same,here],.refl x⟩

end Machine

namespace Poised

variable {m m' mid : Machine} {s : Scene} {i : Instr} {fresh : Set Handle}

/-- The end of an instruction that takes values off the stack and leaves others in their place. -/
theorem settle (poised : Poised m s i) (steady : m.Steady fresh mid)
    (plain : i.Plain) (heap : m'.heap = mid.heap)
    (frames : m'.frames = m.frames) (openCells : m'.openCells = m.openCells)
    (intact : m'.Intact ∅) (bounded : m'.stack.size ≤ Machine.stackLimit)
    (size : m'.stack.size = s.base + (s.point.height - i.takes + i.gives))
    (same : ∀ p < s.base + (s.point.height - i.takes), m'.stack[p]? = m.stack[p]?) :
    m.Continues i (s.frame s.ip) m' := by
  refine poised.plain (plain.next s.ip) (frames.trans poised.frames)
    (steady.evolves.of_heap heap) intact openCells bounded size (fun f member => same _ ?_)
    (fun p low _ _ => same p low) plain.noClosure plain.noCell
  obtain ⟨positive,low,-⟩ := poised.guard member
  omega

end Poised

end ScriptMachine
