import Mathlib
import ScriptMachine.Proofs.Cells

/-! How a closure is made. It lies on the stack while it gets its cells one by one, and some of them
are new. -/
namespace ScriptMachine

open ScriptMachine.Action

variable {m mid m' : Machine} {s : Scene} {fresh : Set Handle} {closure function : Handle}

/-- The closure has the cells of those of its captures that are `done`. Apart from that there are only
new cells, for some of the captures in `list`. -/
structure Building (m : Machine) (s : Scene) (closure function : Handle) (fresh : Set Handle)
    (list done : List Capture) (m' : Machine) : Prop where
  intact : m'.Intact {closure}
  celled : m'.Celled
  stack : m'.stack = m.stack.push (.object closure)
  frames : m'.frames = m.frames
  anchors : m.anchors ⊆ m'.anchors
  made : ∃ captures, m'.heap.get? closure = some (.closure function captures) ∧
    captures.size = done.length ∧ ∀ (k : Nat) c, done[k]? = some c →
      ∃ cell, captures[k]? = some cell ∧ m.Captures (s.frame s.ip) c cell m'
  first : closure ∈ fresh
  cells : ∀ h ∈ fresh, h ≠ closure → ∀ o, m'.heap.get? h = some o → ∃ slot, o = .cell (.onStack slot)
  old : ∀ h ∉ fresh, ∀ o, m'.heap.get? h = some o → m.heap.get? h = some o
  kept : ∀ h, m.Reaches h → h ∉ fresh ∧ m'.heap.get? h = m.heap.get? h
  apart : ∀ h ∉ fresh, ∀ o, m'.heap.get? h = some o → ∀ r ∈ o.references, r ∉ fresh
  slots : ∀ h slot, m'.Opens h slot →
    m.Opens h slot ∨ ∃ c ∈ list, c.isLocal ∧ slot = s.base + c.index

theorem Machine.Captures.later {f : Frame} {c : Capture} {cell : Handle}
    (captures : m.Captures f c cell mid) (opens : ∀ slot, mid.Opens cell slot → m'.Opens cell slot) :
    m.Captures f c cell m' := by
  rw [Captures] at captures ⊢
  by_cases isLocal : c.isLocal
  · rw [if_pos isLocal] at captures ⊢
    exact opens _ captures
  · rw [if_neg isLocal] at captures ⊢
    exact captures

namespace Building

variable {list done : List Capture}

theorem reaches (building : Building m s closure function fresh list done m') {h : Handle}
    (reaches : m.Reaches h) : m'.Reaches h :=
  reaches.carry building.anchors fun h reaches => (building.kept h reaches).2

theorem closure_reached (building : Building m s closure function fresh list done m') :
    m'.Reaches closure :=
  Machine.reaches_stack (by simp [building.stack])

/-- Adding a cell to the closure. -/
theorem add (building : Building m s closure function fresh list done m') {c : Capture}
    {cell : Handle} (isCell : m'.heap.IsCell cell)
    (captures : m.Captures (s.frame s.ip) c cell m') :
    Building m s closure function fresh list (done ++ [c])
      { m' with heap := m'.heap.update closure (addCapture cell) } := by
  obtain ⟨earlier,found,length,each⟩ := building.made
  have here : (m'.heap.update closure (addCapture cell)).get? closure =
      some (.closure function (earlier.push cell)) := by
    rw [Heap.get?_update,if_pos rfl,found]
    rfl
  have off {h : Handle} (outside : h ∉ fresh) : h ≠ closure :=
    fun same => outside (same ▸ building.first)
  have elsewhere {h : Handle} (other : h ≠ closure) :
      (m'.heap.update closure (addCapture cell)).get? h = m'.heap.get? h := by
    rw [Heap.get?_update,if_neg other]
  have opens (h : Handle) (slot : Nat) : Machine.Opens { m' with
      heap := m'.heap.update closure (addCapture cell) } h slot ↔ m'.Opens h slot := by
    rw [Machine.Opens,Machine.Opens]
    by_cases same : h = closure
    · rw [same,here,found]
      simp
    · rw [elsewhere same]
  have celled : Machine.Celled { m' with
      heap := m'.heap.update closure (addCapture cell) } := building.celled.of_opens rfl opens
  refine ⟨?_,celled,building.stack,building.frames,building.anchors,⟨_,here,by simp [length],
    fun k x known => ?_⟩,building.first,fun h new other o there => ?_,fun h outside o there => ?_,
    fun h reaches => ?_,fun h outside o there => ?_,
    fun h slot there => building.slots h slot ((opens h slot).mp there)⟩
  · obtain ⟨⟨chunk,isFunction,-⟩,cells⟩ := building.intact.valid closure _ found
    refine building.intact.update found (by simp) (by rfl) (by simp)
      ⟨⟨chunk,isFunction,by simp⟩,fun x member => ?_⟩
    rcases Array.mem_push.mp member with old | rfl
    · exact cells x old
    · exact isCell
  · by_cases last : k < done.length
    · rw [List.getElem?_append_left last] at known
      obtain ⟨y,found,taken⟩ := each k x known
      exact ⟨y,by rw [Array.getElem?_push,if_neg (by omega)]; exact found,
        taken.later fun slot => (opens y slot).mpr⟩
    · have bound := (List.getElem?_eq_some_iff.mp known).1
      rw [List.length_append,List.length_singleton] at bound
      obtain rfl : k = done.length := by omega
      rw [List.getElem?_append_right le_rfl,Nat.sub_self] at known
      cases known
      exact ⟨cell,by rw [Array.getElem?_push,if_pos length.symm],
        captures.later fun slot => (opens cell slot).mpr⟩
  · rw [elsewhere other] at there
    exact building.cells h new other o there
  · rw [elsewhere (off outside)] at there
    exact building.old h outside o there
  · obtain ⟨outside,same⟩ := building.kept h reaches
    exact ⟨outside,(elsewhere (off outside)).trans same⟩
  · rw [elsewhere (off outside)] at there
    exact building.apart h outside o there

end Building

/-- A new cell joins the list when no other is open for its slot. -/
theorem Machine.Celled.join (celled : mid.Celled) {place : Nat} {h : Handle}
    (grows : mid.Grows {h} m') (found : m'.heap.get? h = some (.cell (.onStack place)))
    (missing : ∀ k, ¬mid.Opens k place) :
    Machine.Celled { m' with openCells := h :: m'.openCells } := by
  have listed : m'.openCells = mid.openCells := by rw [grows.same]
  have before {k : Handle} {slot : Nat} (other : k ≠ h) (opens : m'.Opens k slot) :
      mid.Opens k slot := grows.old k other _ opens
  have apart (k : Handle) (member : k ∈ m'.openCells) : k ≠ h :=
    (grows.kept k (Machine.reaches_openCells (listed ▸ member))).1
  refine ⟨fun k slot there => ?_,fun k member => ?_,List.pairwise_cons.mpr ⟨?_,?_⟩⟩
  · by_cases new : k = h
    · exact new ▸ List.mem_cons_self
    · exact List.mem_cons_of_mem _ (listed ▸ celled.listed k slot (before new there))
  · rcases List.mem_cons.mp member with rfl | old
    · exact ⟨place,found⟩
    · obtain ⟨slot,opens⟩ := celled.opened k (listed ▸ old)
      exact ⟨slot,grows.opens celled opens⟩
  · rintro k member slot ⟨new,old⟩
    obtain rfl : place = slot := Machine.Opens.unique found new
    exact missing k (before (apart k member) old)
  · have distinct := celled.distinct
    rw [← listed] at distinct
    refine distinct.imp_of_mem fun first second distinct slot both => distinct slot ?_
    exact ⟨before (apart _ first) both.1,before (apart _ second) both.2⟩

namespace Building

variable {list done : List Capture}

/-- A new cell. -/
theorem another (building : Building m s closure function fresh list done mid) {place : Nat}
    {h : Handle} (grows : mid.Grows {h} m') (found : m'.heap.get? h = some (.cell (.onStack place)))
    (intact : m'.Intact {closure}) (missing : ∀ k, ¬mid.Opens k place)
    (wanted : ∃ c ∈ list, c.isLocal ∧ place = s.base + c.index) :
    Building m s closure function (fresh ∪ {h}) list done
      { m' with openCells := h :: m'.openCells } := by
  obtain ⟨captures,here,length,each⟩ := building.made
  have same {k : Handle} (reaches : mid.Reaches k) : m'.heap.get? k = mid.heap.get? k :=
    (grows.kept k reaches).2
  have celled := building.celled.join grows found missing
  refine ⟨{ intact with openCells := fun k member => ?_ },celled,?_,?_,fun k member => ?_,
    ⟨captures,?_,length,fun k c known => ?_⟩,.inl building.first,fun k new other o there => ?_,
    fun k outside o there => ?_,fun k reaches => ?_,fun k outside o there r member => ?_,
    fun k slot there => ?_⟩
  · obtain ⟨slot,there⟩ := celled.opened k member
    exact ⟨_,there⟩
  · exact (by rw [grows.same] : m'.stack = mid.stack).trans building.stack
  · exact (by rw [grows.same] : m'.frames = mid.frames).trans building.frames
  · have inside := building.anchors member
    rw [grows.same]
    simp only [Machine.anchors,List.mem_append,List.mem_cons] at inside ⊢
    tauto
  · exact (same building.closure_reached).trans here
  · obtain ⟨cell,known,taken⟩ := each k c known
    exact ⟨cell,known,taken.later fun slot => grows.opens building.celled⟩
  · rcases new with old | rfl
    · by_cases last : k = h
      · exact ⟨place,by simpa [last,found] using there.symm⟩
      · exact building.cells k old other o (grows.old k last o there)
    · exact ⟨place,by simpa [found] using there.symm⟩
  · rw [Set.mem_union,not_or] at outside
    exact building.old k outside.1 o (grows.old k outside.2 o there)
  · obtain ⟨outside,stays⟩ := building.kept k reaches
    obtain ⟨late,staysToo⟩ := grows.kept k (building.reaches reaches)
    exact ⟨fun member => member.elim outside late,staysToo.trans stays⟩
  · rw [Set.mem_union,not_or] at outside ⊢
    exact ⟨building.apart k outside.1 o (grows.old k outside.2 o there) r member,
      grows.apart k outside.2 o there r member⟩
  · by_cases new : k = h
    · subst new
      obtain rfl : place = slot := Machine.Opens.unique found there
      exact .inr wanted
    · exact building.slots k slot (grows.old k new _ there)

/-- The cell of a slot is there, or it is made. -/
theorem captureSlot (building : Building m s closure function fresh list done mid) {place : Nat}
    (wanted : ∃ c ∈ list, c.isLocal ∧ place = s.base + c.index)
    {ok : Handle → Machine → Prop} {stop : Stop → Machine → Prop}
    (next : ∀ cell m' fresh, Building m s closure function fresh list done m' →
      m'.Opens cell place → ok cell m') : Ensures (captureSlot place) mid ok stop := by
  rw [Action.captureSlot,ensures_bind,ensures_get]
  split
  next cell found =>
    refine next cell mid fresh building ?_
    have chosen := List.find?_some found
    split at chosen
    next p state => rw [Machine.Opens,state,of_decide_eq_true chosen]
    next => contradiction
  next missing =>
    rw [ensures_bind]
    refine .allocate building.intact (by simp) fun h m' grows found still => ?_
    rw [ensures_bind,ensures_modify,ensures_pure]
    have intact := still False {closure} trivial (by simp [Object.references]) subset_rfl False.elim
    refine next h _ _ (building.another grows found intact (fun k opens => ?_) wanted) found
    have never := List.find?_eq_none.mp missing k (building.celled.listed k place opens)
    rw [Machine.Opens] at opens
    simp [opens] at never

/-- The next capture. -/
theorem captureCell (building : Building m s closure function fresh list done mid) {i : Instr}
    (poised : Poised m s i) {c : Capture} (member : c ∈ list)
    (known : ¬c.isLocal → c.index < s.chunk.captureCount)
    {ok : Handle → Machine → Prop} {stop : Stop → Machine → Prop}
    (next : ∀ cell m' fresh, Building m s closure function fresh list done m' →
      m'.heap.IsCell cell → m.Captures (s.frame s.ip) c cell m' → ok cell m') :
    Ensures (captureCell c) mid ok stop := by
  have frames := building.frames.trans poised.frames
  rw [Action.captureCell,ensures_ite]
  constructor
  · intro isLocal
    rw [ensures_bind,ensures_frame frames]
    refine building.captureSlot ⟨c,member,isLocal,rfl⟩ fun cell m' fresh more opens => ?_
    exact next cell m' fresh more ⟨_,opens⟩ (by rw [Machine.Captures,if_pos isLocal]; exact opens)
  · intro notLocal
    obtain ⟨code,outer,here,there⟩ := Machine.functionOf?_some.mp poised.code
    obtain ⟨⟨chunk,⟨constants,there'⟩,count⟩,cells⟩ := poised.intact.valid s.closure _ here
    rw [there] at there'
    cases there'
    have bound : c.index < outer.size := by
      rw [count not_false]
      exact known notLocal
    have found := Array.getElem?_eq_getElem bound
    have reaches : m.Reaches s.closure :=
      Machine.reaches_stack (Array.mem_of_getElem? poised.running)
    have still := (building.kept s.closure reaches).2.trans here
    rw [ensures_capturedCell frames still found]
    refine next _ mid fresh building ?_ ?_
    · exact (building.intact.valid s.closure _ still).2 _ (Array.mem_of_getElem? found)
    · rw [Machine.Captures,if_neg notLocal]
      exact ⟨code,outer,here,found⟩

/-- All the captures that are left. -/
theorem addCaptures {i : Instr} (poised : Poised m s i) (rest : List Capture)
    (building : Building m s closure function fresh (done ++ rest) done mid)
    (known : ∀ c ∈ rest, ¬c.isLocal → c.index < s.chunk.captureCount)
    {ok : Unit → Machine → Prop} {stop : Stop → Machine → Prop}
    (next : ∀ m' fresh, Building m s closure function fresh (done ++ rest) (done ++ rest) m' →
      ok () m') : Ensures (addCaptures closure rest) mid ok stop := by
  induction rest generalizing done fresh mid with
  | nil =>
    rw [Action.addCaptures,ensures_pure]
    exact next mid fresh (by simpa using building)
  | cons c rest ih =>
    rw [Action.addCaptures,ensures_bind]
    refine building.captureCell poised (by simp) (known c List.mem_cons_self)
      fun cell m' fresh more isCell captures => ?_
    rw [ensures_bind,ensures_updateObject]
    have split : done ++ c :: rest = (done ++ [c]) ++ rest := by simp
    rw [split] at more next
    exact ih (more.add isCell captures) (fun x member => known x (List.mem_cons_of_mem _ member))
      next

/-- Of what is new only the closure is no open cell. -/
theorem only (building : Building m s closure function fresh list done m') {h : Handle}
    (new : h ∈ fresh) {o : Object} (here : m'.heap.get? h = some o)
    (plain : ∀ slot, o ≠ .cell (.onStack slot)) : h = closure := by
  by_contra other
  obtain ⟨slot,isOpen⟩ := building.cells h new other o here
  exact plain slot isOpen

theorem functionOf? (building : Building m s closure function fresh list done m') {h : Handle}
    {code : Chunk × Array Value} (reaches : m.Reaches h) (known : m.functionOf? h = some code) :
    m'.functionOf? h = some code := by
  obtain ⟨chunk,constants⟩ := code
  obtain ⟨function,captures,here,there⟩ := Machine.functionOf?_some.mp known
  have inside := reaches.next here List.mem_cons_self
  exact Machine.functionOf?_some.mpr ⟨function,captures,(building.kept h reaches).2.trans here,
    (building.kept function inside).2.trans there⟩

/-- With all its captures the closure is no longer under construction. -/
theorem whole (building : Building m s closure function fresh list list m') {chunk : Chunk}
    (isFunction : m.heap.IsFunction function chunk) (reached : m.Reaches function)
    (count : chunk.captureCount = list.length) : m'.Intact ∅ := by
  obtain ⟨captures,found,complete,-⟩ := building.made
  refine { building.intact with valid := fun h o here => ?_ }
  have valid := building.intact.valid h o here
  by_cases same : h = closure
  · subst same
    rw [found] at here
    cases here
    obtain ⟨-,cells⟩ := valid
    obtain ⟨constants,there⟩ := isFunction
    refine ⟨⟨chunk,⟨constants,?_⟩,fun _ => by rw [complete,count]⟩,cells⟩
    rw [(building.kept function reached).2,there]
  · exact valid.imp fun member => absurd member same

/-- No cell is closed. -/
theorem turns (building : Building m s closure function fresh list done m') (celled : m.Celled)
    {rest : Nat} (low : ∀ h slot, m.Opens h slot → slot < rest) : m.Turns rest fresh m' where
  stays h slot opens _ :=
    (building.kept h (Machine.reaches_openCells (celled.listed h slot opens))).2.trans opens
  closes h slot opens high := absurd (low h slot opens) (Nat.not_lt.mpr high)
  opens h slot opens outside := building.old h outside _ opens
  closed h value here := by
    have outside : h ∉ fresh := by
      intro new
      obtain ⟨captures,found,-⟩ := building.made
      rw [building.only new here (by simp),found] at here
      cases here
    exact ⟨outside,_,building.old h outside _ here⟩
  closures h code captures here outside := by
    refine ⟨building.old h outside _ here,fun c member => ?_⟩
    exact building.apart h outside _ here c (List.mem_cons_of_mem _ (by simpa using member))

theorem makes (building : Building m s closure function fresh list list m') (n : Nat) :
    m.Makes (.closure n list) (s.frame s.ip) fresh m' where
  only h new code captures here := by
    refine ⟨⟨n,list,rfl⟩,?_⟩
    rw [building.stack,building.only new here (by simp),Array.back?_push]
  captured := by
    rintro _ _ ⟨⟩
    obtain ⟨captures,found,complete,each⟩ := building.made
    exact ⟨closure,function,captures,by rw [building.stack,Array.back?_push],found,complete,each⟩
  spared h code captures reaches here := by
    obtain ⟨outside,same⟩ := building.kept h reaches
    exact ⟨outside,same.trans here⟩

end Building

namespace Poised

/-- With all its captures, the closure is complete. -/
theorem built {n : Nat} {list : List Capture} (poised : Poised m s (.closure n list))
    {chunk : Chunk} (isFunction : m.heap.IsFunction function chunk) (reached : m.Reaches function)
    (count : chunk.captureCount = list.length) (room : m.stack.size < Machine.stackLimit)
    (building : Building m s closure function fresh list list m') :
    m.Continues (.closure n list) (s.frame s.ip) m' := by
  have before := poised.size
  have length : m'.stack.size = m.stack.size + 1 := by rw [building.stack,Array.size_push]
  have frames := building.frames.trans poised.frames
  have size : m'.stack.size = s.base + (s.point.height - 0 + 1) := by omega
  have low (h : Handle) (slot : Nat) (opens : m.Opens h slot) :
      slot < m.remains (s.frame s.ip) (.closure n list) := by
    rw [poised.remains (by simp)]
    exact (poised.low (by simp) opens).1
  refine ⟨poised.proceed (List.mem_singleton.mpr rfl) frames
      (building.whole isFunction reached count) building.celled (by omega) size (fun f member => ?_)
      (fun _ => poised.codes fun _ _ reaches => building.functionOf? reaches) fun h slot opens => ?_,
    ⟨fresh,building.turns poised.celled low,building.makes n⟩,
    poised.on (List.mem_singleton.mpr rfl) frames size,
    poised.spares (fun p low _ _ => ?_) fun h slot opens => ?_⟩
  · obtain ⟨positive,low,-⟩ := poised.guard member
    rw [building.stack,Array.getElem?_push,if_neg (by omega)]
  · rcases building.slots h slot opens with before | ⟨c,member,isLocal,rfl⟩
    · exact (poised.low (by simp) before).2
    · refine .inr ⟨Nat.le_add_right _ _,.inr ?_⟩
      rw [Nat.add_sub_cancel_left]
      obtain ⟨index,_⟩ := c
      cases isLocal
      exact member
  · rw [poised.remains (by simp)] at low
    rw [building.stack,Array.getElem?_push,if_neg (by omega)]
  · rcases building.slots h slot opens with before | ⟨c,-,-,rfl⟩
    · exact .inl before
    · exact .inr ⟨⟨n,list,rfl⟩,Nat.le_add_right _ _⟩

/-- When there is no room for the closure, it is dropped before it has any captures. -/
theorem unbuilt {i : Instr} (poised : Poised m s i) {h : Handle} (grows : m.Grows {h} mid)
    (closed : ∀ k ∈ ({h} : Set Handle), ∀ slot, ¬mid.Opens k slot) (intact : mid.Intact {h})
    (full : Machine.stackLimit ≤ m.stack.size) {change : Frame → Frame}
    (same : ∀ f, (change f).closure = f.closure ∧ (change f).base = f.base) :
    m.Faults { mid with frames := mid.frames.modifyHead change } := by
  have orderly := poised.orderly
  have stack : mid.stack = m.stack := by rw [grows.same]
  have frames : mid.frames = m.frames := by rw [grows.same]
  have celled := grows.celled poised.celled closed
  refine ⟨⟨⟨{h},intact.setFrames _⟩,celled.of_heap rfl rfl,
    fun k slot opens => ?_,fun f member => ?_⟩,⟨{h},intact.setFrames _,fun k new reaches => ?_,
    fun room => absurd full (Nat.not_le.mpr room)⟩,stack,fun k slot => ⟨fun opens => ?_,fun opens => ?_⟩,
    fun k code captures reaches here => (grows.kept k reaches).2.trans here⟩
  · change 1 ≤ slot ∧ slot < mid.stack.size
    rw [stack]
    exact orderly.inside k slot (grows.old k (fun new => closed k new slot opens) _ opens)
  · have known : ∃ g ∈ m.frames, f.closure = g.closure ∧ f.base = g.base := by
      change f ∈ mid.frames.modifyHead change at member
      rw [frames,poised.frames,List.modifyHead_cons] at member
      rw [poised.frames]
      rcases List.mem_cons.mp member with rfl | caller
      · exact ⟨_,List.mem_cons_self,same _⟩
      · exact ⟨f,List.mem_cons_of_mem _ caller,rfl,rfl⟩
    obtain ⟨g,member,closure,base⟩ := known
    obtain ⟨positive,found,code,captures,here⟩ := orderly.guards g member
    rw [closure,base]
    refine ⟨positive,stack ▸ found,code,captures,?_⟩
    exact (grows.kept _ (poised.reaches member)).2.trans here
  · have before : m.Reaches k := grows.reached reaches
    exact (grows.kept k before).1 new
  · exact grows.old k (fun new => closed k new slot opens) _ opens
  · exact grows.opens poised.celled opens

/-- A closure on top of the stack, before it has any captures. -/
theorem laid {i : Instr} (poised : Poised m s i) (grows : m.Grows {closure} mid)
    (found : mid.heap.get? closure = some (.closure function #[])) (intact : mid.Intact {closure})
    (list : List Capture) : Building m s closure function {closure} list []
      { mid with stack := mid.stack.push (.object closure) } := by
  have stack : mid.stack = m.stack := by rw [grows.same]
  have closed (k : Handle) (new : k ∈ ({closure} : Set Handle)) (slot : Nat) :
      ¬mid.Opens k slot := by
    rw [Set.mem_singleton_iff.mp new,Machine.Opens,found]
    simp
  have celled := grows.celled poised.celled closed
  refine ⟨intact.setStack fun v member => ?_,celled.of_heap rfl rfl,
    by rw [stack],by rw [grows.same],fun h member => ?_,⟨#[],found,rfl,by simp⟩,rfl,
    fun h new other => absurd new other,grows.old,grows.kept,grows.apart,
    fun h slot opens => .inl (grows.old h (fun new => closed h new slot opens) _ opens)⟩
  · rcases Array.mem_push.mp member with old | rfl
    · exact intact.stack v old
    · exact Heap.holds_object found
  · rw [grows.same]
    simp only [Machine.anchors,List.mem_append] at member ⊢
    rw [Array.toList_push,List.filterMap_append,List.mem_append]
    tauto

/-- The function that an instruction makes a closure of. -/
theorem nested {n : Nat} {list : List Capture} (poised : Poised m s (.closure n list)) :
    ∃ function chunk constants, s.constants[n]? = some (.object function) ∧
      m.heap.get? function = some (.function chunk constants) ∧ m.Reaches function ∧
      chunk.captureCount = list.length := by
  obtain ⟨⟨chunk,known,count⟩,-⟩ := poised.ready.legal
  obtain ⟨value,loaded,function,rfl,constants,there⟩ := poised.loaded known
  obtain ⟨outer,captures,here,within⟩ := Machine.functionOf?_some.mp poised.code
  have running : m.Reaches s.closure :=
    Machine.reaches_stack (Array.mem_of_getElem? poised.running)
  refine ⟨function,chunk,constants,loaded,there,?_,count⟩
  refine (running.next here List.mem_cons_self).next within ?_
  exact Object.mem_handles.mpr (Array.mem_of_getElem? loaded)

theorem outside {n : Nat} {list : List Capture} (poised : Poised m s (.closure n list)) {c : Capture}
    (member : c ∈ list) (notLocal : ¬c.isLocal) : c.index < s.chunk.captureCount := by
  have bound := poised.ready.legal.2 c member
  rwa [if_neg notLocal] at bound

theorem ensures_allocateClosure {i : Instr} (poised : Poised m s i) {chunk : Chunk}
    {constants : Array Value} (there : m.heap.get? function = some (.function chunk constants))
    (reached : m.Reaches function) {ok : Handle → Machine → Prop} {stop : Stop → Machine → Prop}
    (next : ∀ closure mid, m.Grows {closure} mid →
      mid.heap.get? closure = some (.closure function #[]) → mid.Intact {closure} →
      ok closure mid) : Ensures (allocateClosure function) m ok stop := by
  rw [allocateClosure,ensures_bind,ensures_object there]
  refine .allocate poised.intact (by simp) fun closure mid grows found still => ?_
  refine next closure mid grows found ?_
  refine still True {closure} ⟨⟨chunk,⟨constants,there⟩,by simp⟩,by simp⟩ ?_ (by simp) (by simp)
  simpa [Object.references] using reached

theorem makeClosure {n : Nat} {list : List Capture} (poised : Poised m s (.closure n list)) :
    Safe (do
      match ← constant n with
      | .object function => makeClosure function list
      | _ => stuck) m m s (.closure n list) := by
  obtain ⟨function,chunk,constants,loaded,there,reached,count⟩ := poised.nested
  rw [Safe,ensures_bind,ensures_constant poised.frames poised.code loaded]
  dsimp only
  rw [Action.makeClosure,ensures_bind]
  refine poised.ensures_allocateClosure there reached fun closure mid grows found intact => ?_
  have stack : mid.stack = m.stack := by rw [grows.same]
  rw [ensures_bind,ensures_get,ensures_ite]
  constructor
  · intro full
    rw [ensures_bind,ensures_modifyFrame,ensures_bind,ensures_fault,Machine.ends_fault]
    refine poised.unbuilt grows (fun k new slot => ?_) intact (stack ▸ full) fun f => ⟨rfl,rfl⟩
    rw [Set.mem_singleton_iff.mp new,Machine.Opens,found]
    simp
  · intro room
    rw [ensures_bind,ensures_push]
    refine ⟨fun full => absurd full room,fun room => ?_⟩
    rw [stack] at room
    have building := poised.laid grows found intact ([] ++ list)
    refine Building.addCaptures poised list building (fun c => poised.outside) fun m' fresh done => ?_
    exact poised.built ⟨constants,there⟩ reached count room done

end Poised

end ScriptMachine
