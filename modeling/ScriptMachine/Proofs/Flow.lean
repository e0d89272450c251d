import Mathlib
import ScriptMachine.Compile.Fragment
import ScriptMachine.Proofs.Encoding

/-! What is known before each instruction of a piece of code, and how pieces fit together. A point
tells how many values lie above the base of the frame and which slots may have an open cell. Code
flows when every instruction finds what it needs and leads only to points that allow for what it
leaves behind. -/
namespace ScriptMachine

/-- Known before an instruction: the number of values above the base, and the slots, counted from
the base, that may have an open cell. -/
structure Point where
  height : Nat
  cells : Set Nat

namespace Point

/-- The same height and no more open cells. -/
instance : Preorder Point where
  le p q := p.height = q.height ∧ p.cells ⊆ q.cells
  le_refl p := ⟨rfl,subset_rfl⟩
  le_trans _ _ _ first second := ⟨first.1.trans second.1,first.2.trans second.2⟩

end Point

namespace Instr

/-- How many values on top of the stack the instruction uses up or rests on. -/
def takes : Instr → Nat
  | binary _ | setField _ => 2
  | unary _ | setLocal _ | defineGlobal _ | setGlobal _ | setCapture _ | getField _ | jumpIf ..
  | ret | closeCell | pop | duplicate | print => 1
  | call arguments => arguments + 1
  | _ => 0

/-- How many values it leaves in their place. -/
def gives : Instr → Nat
  | binary _ | unary _ | loadConstant _ | getLocal _ | setLocal _ | getGlobal _ | setGlobal _
  | getCapture _ | setCapture _ | getField _ | setField _ | loadNil | loadBool _ | closure ..
  | createStruct .. | call _ => 1
  | duplicate => 2
  | _ => 0

/-- The slots of the running frame that a new closure captures. -/
def captured : Instr → Set Nat
  | closure _ captures => {slot | ⟨slot,true⟩ ∈ captures}
  | _ => ∅

/-- The point behind an instruction. -/
def after (i : Instr) (p : Point) : Point where
  height := p.height - i.takes + i.gives
  cells := {slot ∈ p.cells | slot < p.height - i.takes} ∪ i.captured

/-- The offsets at which the instruction at an offset may be followed. -/
def targets (offset : Nat) : Instr → List Nat
  | jump distance => [offset + 5 + distance]
  | jumpIf _ distance => [offset + 5,offset + 5 + distance]
  | jumpBack distance => [offset + 5 - distance]
  | ret => []
  | i => [offset + i.size]

section

variable (pool : List (Constant Chunk)) (count : Nat)

/-- The constant is a string. -/
def Names (constant : Nat) : Prop :=
  ∃ text, pool[constant]? = some (.string text)

/-- The operands make sense at this offset and height, in a function with these constants and so
many captures. -/
def Legal (offset height : Nat) : Instr → Prop
  | loadConstant n => ∃ c, pool[n]? = some c ∧ ∀ chunk, c ≠ .function chunk
  | getLocal n | setLocal n => n < height
  | defineGlobal n | getGlobal n | setGlobal n | getField n | setField n => Names pool n
  | getCapture n | setCapture n => n < count
  | closure n captures =>
    (∃ chunk, pool[n]? = some (.function chunk) ∧ chunk.captureCount = captures.length) ∧
      ∀ c ∈ captures, if c.isLocal then c.index ≤ height else c.index < count
  | createStruct n fields => Names pool n ∧ ∀ f ∈ fields, Names pool f
  | jumpBack distance => distance ≤ offset + 5
  | _ => True

/-- An instruction finds at this point what it needs. Only the end of a cell may touch a slot with
an open cell. -/
structure Ready (offset : Nat) (i : Instr) (p : Point) : Prop where
  enough : i.takes ≤ p.height
  inside : ∀ slot ∈ p.cells, slot < p.height
  clear : i ≠ .closeCell → ∀ slot ∈ p.cells, slot < p.height - i.takes
  legal : i.Legal pool count offset p.height
  fits : (∀ n, i ≠ .call n) → i.Fits

end

theorem Names.mono {pool more : List (Constant Chunk)} {n : Nat} (grown : pool <+: more)
    (names : Names pool n) : Names more n := by
  obtain ⟨text,found⟩ := names
  obtain ⟨rest,rfl⟩ := grown
  exact ⟨text,List.getElem?_append_left (List.getElem?_eq_some_iff.mp found).1 ▸ found⟩

theorem Legal.mono {pool more : List (Constant Chunk)} {count larger offset later height : Nat}
    {i : Instr} (grown : pool <+: more) (counted : count ≤ larger) (moved : offset ≤ later)
    (legal : i.Legal pool count offset height) : i.Legal more larger later height := by
  have keep {n : Nat} {c : Constant Chunk} (found : pool[n]? = some c) : more[n]? = some c := by
    obtain ⟨rest,rfl⟩ := grown
    exact List.getElem?_append_left (List.getElem?_eq_some_iff.mp found).1 ▸ found
  cases i with
  | loadConstant n =>
    obtain ⟨c,found,plain⟩ := legal
    exact ⟨c,keep found,plain⟩
  | closure n captures =>
    obtain ⟨⟨chunk,found,same⟩,each⟩ := legal
    refine ⟨⟨chunk,keep found,same⟩,fun c member => ?_⟩
    have bound := each c member
    split at bound
    next isLocal => simpa [isLocal] using bound
    next notLocal => simpa [notLocal] using Nat.lt_of_lt_of_le bound counted
  | createStruct n fields =>
    exact ⟨legal.1.mono grown,fun f member => (legal.2 f member).mono grown⟩
  | getCapture n => exact Nat.lt_of_lt_of_le legal counted
  | setCapture n => exact Nat.lt_of_lt_of_le legal counted
  | jumpBack distance => exact Nat.le_trans legal (Nat.add_le_add_right moved 5)
  | defineGlobal n => exact Names.mono grown legal
  | getGlobal n => exact Names.mono grown legal
  | setGlobal n => exact Names.mono grown legal
  | getField n => exact Names.mono grown legal
  | setField n => exact Names.mono grown legal
  | _ => exact legal

theorem Ready.mono {pool more : List (Constant Chunk)} {count larger offset later : Nat}
    {i : Instr} {p : Point} (grown : pool <+: more) (counted : count ≤ larger)
    (moved : offset ≤ later) (ready : i.Ready pool count offset p) :
    i.Ready more larger later p :=
  { ready with legal := ready.legal.mono grown counted moved }

/-- Behind a jump target, counted from further on. -/
theorem targets_shift {pool : List (Constant Chunk)} {count height offset shift next : Nat}
    {i : Instr} (legal : i.Legal pool count offset height)
    (target : next ∈ i.targets (shift + offset)) :
    ∃ near ∈ i.targets offset, next = shift + near := by
  cases i with
  | jumpBack distance =>
    simp only [targets,List.mem_singleton] at target ⊢
    have : distance ≤ offset + 5 := legal
    exact ⟨_,rfl,by omega⟩
  | ret => simp [targets] at target
  | jumpIf condition distance =>
    simp only [targets,List.mem_cons,List.not_mem_nil,or_false] at target ⊢
    rcases target with rfl | rfl
    · exact ⟨_,.inl rfl,by omega⟩
    · exact ⟨_,.inr rfl,by omega⟩
  | _ =>
    simp only [targets,List.mem_singleton] at target ⊢
    exact ⟨_,rfl,by omega⟩

end Instr

namespace Compile

namespace Fragment

@[simp] theorem size_append (f g : Fragment) : (f ++ g).size = f.size + g.size := by
  induction f with
  | nil => simp [size]
  | cons item rest ih => simp [size,ih,Nat.add_assoc]

@[simp] theorem size_one (line : Nat) (i : Instr) : (one line i).size = i.size := rfl

theorem step_size_pos (step : Step) : 0 < step.size := by
  cases step with
  | instr i => exact i.size_pos
  | leaveLoop => decide
  | nextRound => decide

/-- An item of the fragment starts at the offset. -/
def At (f : Fragment) (offset : Nat) (item : Item) : Prop :=
  ∃ front back, f = front ++ item :: back ∧ size front = offset

/-- The offset lies between two items, or at either end. -/
def Edge (f : Fragment) (offset : Nat) : Prop :=
  ∃ front back, f = front ++ back ∧ size front = offset

theorem edge_start (f : Fragment) : f.Edge 0 := ⟨[],f,rfl,rfl⟩

theorem edge_end (f : Fragment) : f.Edge f.size := ⟨f,[],by simp,rfl⟩

theorem Edge.le {f : Fragment} {offset : Nat} (edge : f.Edge offset) : offset ≤ f.size := by
  obtain ⟨front,back,rfl,rfl⟩ := edge
  simp

theorem Edge.append {f : Fragment} {offset : Nat} (edge : f.Edge offset) (g : Fragment) :
    Edge (f ++ g) offset := by
  obtain ⟨front,back,rfl,rfl⟩ := edge
  exact ⟨front,back ++ g,by simp,rfl⟩

theorem Edge.shift {g : Fragment} {offset : Nat} (edge : g.Edge offset) (f : Fragment) :
    Edge (f ++ g) (f.size + offset) := by
  obtain ⟨front,back,rfl,rfl⟩ := edge
  exact ⟨f ++ front,back,by simp,by simp⟩

theorem At.lt {f : Fragment} {offset : Nat} {item : Item} (here : f.At offset item) :
    offset + item.step.size ≤ f.size := by
  obtain ⟨front,back,rfl,rfl⟩ := here
  simp [size]

theorem At.next {f : Fragment} {offset : Nat} {item : Item} (here : f.At offset item) :
    f.Edge (offset + item.step.size) := by
  obtain ⟨front,back,rfl,rfl⟩ := here
  exact ⟨front ++ [item],back,by simp,by simp [size]⟩

/-- An edge that is not the end is the start of an item. -/
theorem Edge.item {f : Fragment} {offset : Nat} (edge : f.Edge offset) (inside : offset ≠ f.size) :
    ∃ item, f.At offset item := by
  obtain ⟨front,back,rfl,rfl⟩ := edge
  cases back with
  | nil => simp at inside
  | cons item back => exact ⟨item,front,back,rfl,rfl⟩

theorem at_one {line offset : Nat} {i : Instr} {item : Item}
    (here : At (one line i) offset item) : offset = 0 ∧ item = ⟨.instr i,line⟩ := by
  obtain ⟨front,back,whole,rfl⟩ := here
  rcases List.append_eq_singleton_iff.mp whole.symm with ⟨rfl,same⟩ | ⟨_,same⟩
  · exact ⟨rfl,(List.cons.inj same).1⟩
  · simp at same

/-- An item of two fragments in a row is an item of one of them. -/
theorem at_append {f g : Fragment} {offset : Nat} {item : Item} (here : At (f ++ g) offset item) :
    f.At offset item ∨ ∃ near, offset = f.size + near ∧ g.At near item := by
  obtain ⟨front,back,whole,rfl⟩ := here
  rcases List.append_eq_append_iff.mp whole with ⟨middle,rfl,rest⟩ | ⟨middle,rfl,rest⟩
  · exact .inr ⟨size middle,by simp,middle,back,rest,rfl⟩
  · cases middle with
    | nil => exact .inr ⟨0,by simp,[],back,by simpa using rest.symm,rfl⟩
    | cons first middle =>
      obtain ⟨rfl,rfl⟩ := List.cons.inj rest
      exact .inl ⟨front,middle,rfl,rfl⟩

section

variable (pool : List (Constant Chunk)) (count : Nat) (loop : Option Point)

/-- What must hold at one item: an instruction is ready and leads to points that allow for what it
leaves; an open jump has come to the point of the loop around. -/
def Passes (f : Fragment) (points : Nat → Point) (offset : Nat) : Step → Prop
  | .instr i => i.Ready pool count offset (points offset) ∧
      ∀ next ∈ i.targets offset, f.Edge next ∧ i.after (points offset) ≤ points next
  | .leaveLoop | .nextRound => ∃ p, loop = some p ∧ points offset ≤ p

/-- The points fit the fragment. -/
def Charted (f : Fragment) (points : Nat → Point) : Prop :=
  ∀ offset item, f.At offset item → Passes pool count loop f points offset item.step

/-- Entered at `pre`, the fragment is left at its end at `post`. -/
def Flows (pre : Point) (f : Fragment) (post : Point) : Prop :=
  ∃ points, Charted pool count loop f points ∧ pre ≤ points 0 ∧ points f.size = post

end

/-- The points of two fragments in a row. -/
def join (points : Nat → Point) (size : Nat) (others : Nat → Point) (offset : Nat) : Point :=
  if offset < size then points offset else others (offset - size)

theorem join_below {points others : Nat → Point} {size offset : Nat} (below : offset < size) :
    join points size others offset = points offset := if_pos below

@[simp] theorem join_add (points others : Nat → Point) (size offset : Nat) :
    join points size others (size + offset) = others offset := by
  simp [join]

@[simp] theorem join_at (points others : Nat → Point) (size : Nat) :
    join points size others size = others 0 := by
  simp [join]

/-- The first point of two fragments in a row. -/
theorem le_join_zero {points others : Nat → Point} {size : Nat} {pre : Point}
    (entry : pre ≤ points 0) (seam : points size ≤ others 0) :
    pre ≤ join points size others 0 := by
  rcases Nat.eq_zero_or_pos size with rfl | positive
  · rw [join_at]
    exact entry.trans seam
  · rwa [join_below positive]

variable {pool : List (Constant Chunk)} {count : Nat} {loop : Option Point}

theorem Charted.append {f g : Fragment} {points others : Nat → Point}
    (first : Charted pool count loop f points) (second : Charted pool count loop g others)
    (seam : points f.size ≤ others 0) :
    Charted pool count loop (f ++ g) (join points f.size others) := by
  intro offset item here
  rcases at_append here with inFirst | ⟨near,rfl,inSecond⟩
  · have below : offset < f.size := by
      have := inFirst.lt
      have := step_size_pos item.step
      omega
    have passes := first offset item inFirst
    cases step : item.step with
    | instr i =>
      rw [step] at passes
      obtain ⟨ready,leads⟩ := passes
      refine ⟨by rwa [join_below below],fun next target => ?_⟩
      obtain ⟨edge,allowed⟩ := leads next target
      refine ⟨edge.append g,?_⟩
      rw [join_below below]
      rcases Nat.lt_or_eq_of_le edge.le with inner | rfl
      · rwa [join_below inner]
      · rw [join_at]
        exact allowed.trans seam
    | leaveLoop => simpa [Passes,step,join_below below] using passes
    | nextRound => simpa [Passes,step,join_below below] using passes
  · have passes := second near item inSecond
    cases step : item.step with
    | instr i =>
      rw [step] at passes
      obtain ⟨ready,leads⟩ := passes
      refine ⟨?_,fun next target => ?_⟩
      · rw [join_add]
        exact ready.mono List.prefix_rfl le_rfl (Nat.le_add_left _ _)
      · obtain ⟨place,nearby,rfl⟩ := Instr.targets_shift ready.legal target
        obtain ⟨edge,allowed⟩ := leads place nearby
        exact ⟨edge.shift f,by simpa using allowed⟩
    | leaveLoop => simpa [Passes,step] using passes
    | nextRound => simpa [Passes,step] using passes

theorem Flows.append {pre mid post : Point} {f g : Fragment}
    (first : Flows pool count loop pre f mid) (second : Flows pool count loop mid g post) :
    Flows pool count loop pre (f ++ g) post := by
  obtain ⟨points,charted,entry,rfl⟩ := first
  obtain ⟨others,chartedToo,seam,rfl⟩ := second
  exact ⟨_,charted.append chartedToo seam,le_join_zero entry seam,by simp⟩

theorem Flows.nil {pre post : Point} (weaker : pre ≤ post) :
    Flows pool count loop pre [] post := by
  refine ⟨fun _ => post,?_,weaker,rfl⟩
  rintro offset item ⟨front,back,whole,-⟩
  simp at whole

/-- The end of a fragment may be given any point that allows for more. -/
theorem Charted.raise {f : Fragment} {points : Nat → Point} {post : Point}
    (charted : Charted pool count loop f points) (weaker : points f.size ≤ post) :
    Charted pool count loop f (Function.update points f.size post) := by
  intro offset item here
  have below : offset ≠ f.size := by
    have := here.lt
    have := step_size_pos item.step
    omega
  have passes := charted offset item here
  cases step : item.step with
  | instr i =>
    rw [step] at passes
    obtain ⟨ready,leads⟩ := passes
    refine ⟨by rwa [Function.update_of_ne below],fun next target => ?_⟩
    obtain ⟨edge,allowed⟩ := leads next target
    refine ⟨edge,?_⟩
    rw [Function.update_of_ne below]
    by_cases last : next = f.size
    · subst last
      simpa using allowed.trans weaker
    · rwa [Function.update_of_ne last]
  | leaveLoop => simpa [Passes,step,Function.update_of_ne below] using passes
  | nextRound => simpa [Passes,step,Function.update_of_ne below] using passes

theorem Flows.weaken {pre stronger post weaker : Point} {f : Fragment}
    (flows : Flows pool count loop pre f post) (entry : stronger ≤ pre) (exit : post ≤ weaker) :
    Flows pool count loop stronger f weaker := by
  obtain ⟨points,charted,start,rfl⟩ := flows
  refine ⟨_,charted.raise exit,?_,by simp⟩
  by_cases empty : f.size = 0
  · simpa [empty] using (entry.trans start).trans (by simpa [empty] using exit)
  · rw [Function.update_of_ne (Ne.symm empty)]
    exact entry.trans start

/-- More constants, more captures and a laxer loop do no harm. -/
theorem Charted.mono {more : List (Constant Chunk)} {larger : Nat} {around : Option Point}
    {f : Fragment} {points : Nat → Point} (grown : pool <+: more) (counted : count ≤ larger)
    (laxer : ∀ p, loop = some p → ∃ q, around = some q ∧ p ≤ q)
    (charted : Charted pool count loop f points) : Charted more larger around f points := by
  intro offset item here
  have passes := charted offset item here
  cases step : item.step with
  | instr i =>
    rw [step] at passes
    exact ⟨passes.1.mono grown counted le_rfl,passes.2⟩
  | leaveLoop | nextRound =>
    rw [step] at passes
    obtain ⟨p,known,allowed⟩ := passes
    obtain ⟨q,found,weaker⟩ := laxer p known
    exact ⟨q,found,allowed.trans weaker⟩

theorem Flows.mono {more : List (Constant Chunk)} {larger : Nat} {around : Option Point}
    {pre post : Point} {f : Fragment} (grown : pool <+: more) (counted : count ≤ larger)
    (laxer : ∀ p, loop = some p → ∃ q, around = some q ∧ p ≤ q)
    (flows : Flows pool count loop pre f post) : Flows more larger around pre f post := by
  obtain ⟨points,charted,start,stop⟩ := flows
  exact ⟨points,charted.mono grown counted laxer,start,stop⟩

/-- A fragment without open jumps flows in every loop. -/
theorem Flows.anywhere {pre post : Point} {f : Fragment} (around : Option Point)
    (flows : Flows pool count none pre f post) : Flows pool count around pre f post :=
  flows.mono List.prefix_rfl le_rfl (by simp)

theorem Flows.single {line : Nat} {i : Instr} {pre post : Point}
    (ready : i.Ready pool count 0 pre) (plain : i.targets 0 = [i.size])
    (leaves : i.after pre ≤ post) : Flows pool count loop pre (one line i) post := by
  refine ⟨fun offset => if offset = 0 then pre else post,?_,by simp,?_⟩
  · intro offset item here
    obtain ⟨rfl,rfl⟩ := at_one here
    refine ⟨by simpa using ready,fun next target => ?_⟩
    rw [plain,List.mem_singleton] at target
    subst target
    exact ⟨edge_end (one line i),by simpa [i.size_pos.ne'] using leaves⟩
  · simp [i.size_pos.ne']

theorem Flows.ret {line : Nat} {pre : Point} (post : Point)
    (ready : Instr.Ready pool count 0 .ret pre) :
    Flows pool count loop pre (one line .ret) post := by
  refine ⟨fun offset => if offset = 0 then pre else post,?_,by simp,by simp [Instr.size]⟩
  intro offset item here
  obtain ⟨rfl,rfl⟩ := at_one here
  exact ⟨by simpa using ready,by simp [Instr.targets]⟩

/-- Nothing is known behind a jump out of a loop or to its next round. -/
theorem Flows.openJump {step : Step} {line : Nat} {pre p : Point} (post : Point)
    (isOpen : step = .leaveLoop ∨ step = .nextRound) (allowed : pre ≤ p) :
    Flows pool count (some p) pre [⟨step,line⟩] post := by
  refine ⟨fun offset => if offset = 0 then pre else post,?_,by simp,?_⟩
  · rintro offset item ⟨front,back,whole,rfl⟩
    rcases List.append_eq_singleton_iff.mp whole.symm with ⟨rfl,same⟩ | ⟨_,same⟩
    · obtain ⟨rfl,-⟩ := List.cons.inj same
      rcases isOpen with rfl | rfl <;> exact ⟨p,rfl,by simpa [size] using allowed⟩
    · simp at same
  · simp [size,(step_size_pos step).ne']

/-- An instruction in front of a fragment, which it may enter at any edge. -/
theorem Charted.front {line : Nat} {i : Instr} {pre : Point} {g : Fragment}
    {others : Nat → Point} (ready : i.Ready pool count 0 pre)
    (leads : ∀ next ∈ i.targets 0,
      ∃ near, next = i.size + near ∧ g.Edge near ∧ i.after pre ≤ others near)
    (charted : Charted pool count loop g others) :
    Charted pool count loop (one line i ++ g) (join (fun _ => pre) i.size others) := by
  intro offset item here
  rcases at_append here with first | ⟨near,rfl,later⟩
  · obtain ⟨rfl,rfl⟩ := at_one first
    rw [Passes,join_below i.size_pos]
    refine ⟨ready,fun next target => ?_⟩
    obtain ⟨near,rfl,edge,allowed⟩ := leads next target
    exact ⟨edge.shift (one line i),by simpa using allowed⟩
  · have passes := charted near item later
    cases step : item.step with
    | instr j =>
      rw [step] at passes
      obtain ⟨readyToo,leads⟩ := passes
      rw [Passes,size_one,join_add]
      refine ⟨readyToo.mono List.prefix_rfl le_rfl (Nat.le_add_left _ _),fun next target => ?_⟩
      obtain ⟨place,nearby,rfl⟩ := Instr.targets_shift readyToo.legal target
      obtain ⟨edge,allowed⟩ := leads place nearby
      exact ⟨edge.shift (one line i),by simpa using allowed⟩
    | leaveLoop => simpa [Passes,step] using passes
    | nextRound => simpa [Passes,step] using passes

/-- Code behind a conditional jump that leads to its end. -/
theorem Flows.guarded {line : Nat} {jumpOn : Bool} {pre mid post : Point} {code : Fragment}
    (ready : Instr.Ready pool count 0 (.jumpIf jumpOn code.size) pre)
    (leaves : (Instr.jumpIf jumpOn code.size).after pre ≤ mid) (skips : mid ≤ post)
    (flows : Flows pool count loop mid code post) :
    Flows pool count loop pre (Fragment.one line (.jumpIf jumpOn code.size) ++ code) post := by
  obtain ⟨points,charted,entry,stop⟩ := flows
  refine ⟨_,Charted.front ready ?_ charted,?_,?_⟩
  · intro next target
    simp only [Instr.targets,List.mem_cons,List.not_mem_nil,or_false] at target
    rcases target with rfl | rfl
    · exact ⟨0,rfl,code.edge_start,leaves.trans entry⟩
    · exact ⟨code.size,rfl,code.edge_end,(leaves.trans skips).trans stop.ge⟩
  · rw [join_below (Instr.size_pos _)]
  · simpa using stop

/-- Two ways to the same point: a conditional jump to the second, and a jump over it at the end of
the first. -/
theorem Flows.branch {line : Nat} {pre mid post : Point} {yes no : Fragment}
    (ready : Instr.Ready pool count 0 (.jumpIf false (yes.size + 5)) pre)
    (leaves : (Instr.jumpIf false (yes.size + 5)).after pre ≤ mid)
    (hop : Instr.Ready pool count 0 (.jump no.size) post)
    (first : Flows pool count loop mid yes post) (second : Flows pool count loop mid no post) :
    Flows pool count loop pre (Fragment.one line (.jumpIf false (yes.size + 5)) ++
      (yes ++ (Fragment.one line (.jump no.size) ++ no))) post := by
  obtain ⟨points,charted,entry,stop⟩ := first
  obtain ⟨others,chartedToo,start,done⟩ := second
  have stays : (Instr.jump no.size).after post ≤ post := by
    refine ⟨by simp [Instr.after,Instr.takes,Instr.gives],?_⟩
    rintro slot (⟨known,-⟩ | impossible)
    · exact known
    · exact impossible.elim
  have skip : Charted pool count loop (Fragment.one line (.jump no.size) ++ no)
      (join (fun _ => post) (Instr.jump no.size).size others) := by
    refine Charted.front hop ?_ chartedToo
    intro next target
    simp only [Instr.targets,List.mem_singleton] at target
    exact ⟨no.size,by simpa [Instr.size] using target,no.edge_end,stays.trans done.ge⟩
  have seam : points yes.size ≤ join (fun _ => post) (Instr.jump no.size).size others 0 := by
    rw [join_below (Instr.size_pos _),stop]
  have both := charted.append skip seam
  refine ⟨_,Charted.front ready ?_ both,?_,?_⟩
  · intro next target
    simp only [Instr.targets,List.mem_cons,List.not_mem_nil,or_false] at target
    rcases target with rfl | rfl
    · exact ⟨0,rfl,edge_start _,leaves.trans (le_join_zero entry seam)⟩
    · refine ⟨yes.size + 5,rfl,?_,?_⟩
      · exact Edge.shift (Edge.append (edge_end (Fragment.one line (.jump no.size))) no) yes
      · rw [join_add]
        exact leaves.trans (start.trans (join_at _ _ 5).ge)
  · rw [join_below (Instr.size_pos _)]
  · simpa using done

/-! Closing the open jumps of a loop. -/

@[simp] theorem size_close (total offset : Nat) (step : Step) :
    (step.close total offset).size = step.size := by
  cases step <;> rfl

theorem size_closeLoop (total offset : Nat) (f : Fragment) :
    (f.closeLoop total offset).size = f.size := by
  induction f generalizing offset with
  | nil => rfl
  | cons item rest ih => simp [closeLoop,size,ih]

theorem closeLoop_append (total offset : Nat) (f g : Fragment) :
    closeLoop total offset (f ++ g) =
      closeLoop total offset f ++ closeLoop total (offset + f.size) g := by
  induction f generalizing offset with
  | nil => simp [closeLoop,size]
  | cons item rest ih => simp [closeLoop,size,ih,Nat.add_assoc]

/-- The jump back at the end of a loop is the start of its next round. -/
theorem closeLoop_jumpBack {total line : Nat} {f : Fragment} (whole : f.size + 5 = total) :
    closeLoop total 0 (f ++ one line (.jumpBack total)) =
      closeLoop total 0 (f ++ [⟨.nextRound,line⟩]) := by
  simp [closeLoop_append,one,closeLoop,Step.close,whole]

theorem Edge.closeLoop {f : Fragment} {offset : Nat} (edge : f.Edge offset) (total start : Nat) :
    (f.closeLoop total start).Edge offset := by
  obtain ⟨front,back,rfl,rfl⟩ := edge
  exact ⟨_,_,closeLoop_append total start front back,size_closeLoop total start front⟩

/-- An item of a closed loop was an item before, with its jump closed. -/
theorem at_closeLoop {total start offset : Nat} {f : Fragment} {item : Item}
    (here : (f.closeLoop total start).At offset item) :
    ∃ old, f.At offset old ∧ item.step = old.step.close total (start + offset) := by
  induction f generalizing start offset with
  | nil =>
    obtain ⟨front,back,whole,-⟩ := here
    simp [closeLoop] at whole
  | cons old rest ih =>
    obtain ⟨front,back,whole,rfl⟩ := here
    rw [closeLoop] at whole
    cases front with
    | nil =>
      obtain ⟨rfl,-⟩ := List.cons.inj whole
      exact ⟨old,⟨[],rest,rfl,rfl⟩,rfl⟩
    | cons first front =>
      obtain ⟨rfl,tail⟩ := List.cons.inj whole
      obtain ⟨inner,⟨before,behind,split,length⟩,same⟩ := ih ⟨front,back,tail,rfl⟩
      refine ⟨inner,⟨old :: before,behind,by simp [split],by simp [size,length]⟩,?_⟩
      simpa [size,Nat.add_assoc] using same

/-- The rounds of a loop start and end at one point. -/
theorem Charted.closeLoop {p : Point} {f : Fragment} {points : Nat → Point} {total : Nat}
    (small : total < 4294967296) (whole : f.size = total)
    (inside : ∀ slot ∈ p.cells, slot < p.height) (charted : Charted pool count (some p) f points)
    (entry : p ≤ points 0) (stop : points f.size = p) :
    Charted pool count loop (f.closeLoop total 0) points := by
  intro offset item here
  obtain ⟨old,before,same⟩ := at_closeLoop here
  have passes := charted offset old before
  have bound := before.lt
  -- A jump takes nothing and leaves nothing, so it stays at its point.
  have stays (q : Point) (i : Instr) (none : i.takes = 0) (nothing : i.gives = 0)
      (plain : i.captured = ∅) : i.after q ≤ q := by
    refine ⟨by simp [Instr.after,none,nothing],?_⟩
    rintro slot (⟨known,-⟩ | impossible)
    · exact known
    · simp [plain] at impossible
  cases step : old.step with
  | instr i =>
    rw [step] at passes
    rw [same,step]
    exact ⟨passes.1,fun next target => ⟨(passes.2 next target).1.closeLoop total 0,
      (passes.2 next target).2⟩⟩
  | leaveLoop =>
    rw [step] at passes bound
    obtain ⟨q,known,allowed⟩ := passes
    cases known
    have fits : total - (0 + offset + 5) < 4294967296 := by omega
    rw [same,step]
    refine ⟨⟨Nat.zero_le _,?_,?_,trivial,fun _ => fits⟩,fun next target => ?_⟩
    · exact fun slot known => allowed.1 ▸ inside slot (allowed.2 known)
    · exact fun _ slot known => allowed.1 ▸ inside slot (allowed.2 known)
    · simp only [Instr.targets,List.mem_singleton] at target
      have last : next = f.size := by
        simp only [Step.size] at bound
        omega
      subst last
      refine ⟨f.edge_end.closeLoop total 0,(stays _ _ rfl rfl rfl).trans ?_⟩
      rw [stop]
      exact allowed
  | nextRound =>
    rw [step] at passes bound
    obtain ⟨q,known,allowed⟩ := passes
    cases known
    have fits : 0 + offset + 5 < 4294967296 := by simp only [Step.size] at bound; omega
    rw [same,step]
    refine ⟨⟨Nat.zero_le _,?_,?_,by simp [Instr.Legal],fun _ => fits⟩,fun next target => ?_⟩
    · exact fun slot known => allowed.1 ▸ inside slot (allowed.2 known)
    · exact fun _ slot known => allowed.1 ▸ inside slot (allowed.2 known)
    · simp only [Instr.targets,List.mem_singleton] at target
      have first : next = 0 := by omega
      subst first
      exact ⟨edge_start _,(stays _ _ rfl rfl rfl).trans (allowed.trans entry)⟩

/-- A loop whose rounds start and end at one point is left at that point. -/
theorem Flows.closeLoop {p : Point} {f : Fragment} {total : Nat} (small : total < 4294967296)
    (whole : f.size = total) (inside : ∀ slot ∈ p.cells, slot < p.height)
    (flows : Flows pool count (some p) p f p) :
    Flows pool count loop p (f.closeLoop total 0) p := by
  obtain ⟨points,charted,entry,stop⟩ := flows
  exact ⟨points,charted.closeLoop small whole inside entry stop,entry,by rwa [size_closeLoop]⟩

end Fragment

end Compile

end ScriptMachine
