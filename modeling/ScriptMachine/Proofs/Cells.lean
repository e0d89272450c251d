import Mathlib
import ScriptMachine.Proofs.Control

/-! The instructions that close cells and those that open them. Cells are closed from the top of the
stack down to some slot; a closure is made with the cells of the variables it captures, which are
opened if they are not open yet. -/
namespace ScriptMachine

open ScriptMachine.Action

/-- The cells of a list, with slots at or above a place, are closed; `keep` are the others. -/
structure Machine.Closes (place : Nat) (list keep : List Handle) (m m' : Machine) : Prop where
  same : m' = { m with heap := m'.heap }
  intact : m'.Intact ∅
  sublist : keep.Sublist list
  kept : ∀ h ∈ keep, ∃ slot < place, m.Opens h slot
  shut : ∀ h ∈ list, h ∉ keep → ∃ slot value, place ≤ slot ∧ m.Opens h slot ∧
    m.stack[slot]? = some value ∧ m'.heap.get? h = some (.cell (.closed value))
  rest : ∀ h, h ∉ list ∨ h ∈ keep → m'.heap.get? h = m.heap.get? h

variable {m m' : Machine} {s : Scene} {i : Instr}

/-- Closing a cell keeps the machine intact. -/
theorem Machine.Intact.shut (intact : m.Intact ∅) {h : Handle} {slot : Nat} {value : Value}
    (opens : m.Opens h slot) (held : m.heap.Holds value) :
    Machine.Intact ∅ { m with heap := m.heap.update h fun _ => .cell (.closed value) } :=
  intact.update opens (by simp) rfl (by simp) held

theorem ensures_closeFrom (place : Nat) (list : List Handle) (intact : m.Intact ∅)
    (distinct : list.Nodup) (inside : ∀ h ∈ list, ∃ slot < m.stack.size, m.Opens h slot)
    {ok : List Handle → Machine → Prop} {stop : Stop → Machine → Prop}
    (next : ∀ keep m', m.Closes place list keep m' → ok keep m') :
    Ensures (closeFrom place list) m ok stop := by
  induction list generalizing m ok with
  | nil => exact next [] m ⟨rfl,intact,.slnil,by simp,by simp,fun _ _ => rfl⟩
  | cons h rest ih =>
    obtain ⟨fresh,distinct⟩ := List.nodup_cons.mp distinct
    obtain ⟨slot,bound,opens⟩ := inside h List.mem_cons_self
    have others := fun k member => inside k (List.mem_cons_of_mem h member)
    rw [closeFrom,ensures_bind,ensures_cellState opens]
    dsimp only
    rw [ensures_ite]
    constructor
    · intro low
      rw [ensures_bind]
      refine ih intact distinct others fun keep m' closes => next (h :: keep) m' ?_
      have absent : h ∉ keep := fun member => fresh (closes.sublist.mem member)
      refine ⟨closes.same,closes.intact,closes.sublist.cons_cons h,fun k member => ?_,
        fun k member other => ?_,fun k side => ?_⟩
      · rcases List.mem_cons.mp member with rfl | later
        · exact ⟨slot,low,opens⟩
        · exact closes.kept k later
      · rw [List.mem_cons,not_or] at other
        exact closes.shut k ((List.mem_cons.mp member).resolve_left other.1) other.2
      · by_cases same : k = h
        · exact closes.rest k (.inl (same ▸ fresh))
        · simp only [List.mem_cons,same,false_or] at side
          exact closes.rest k side
    · intro high
      rw [ensures_bind,ensures_slot bound,ensures_bind,ensures_updateObject]
      have place := Array.getElem?_eq_getElem bound
      have held := intact.stack _ (Array.getElem_mem bound)
      generalize m.stack[slot] = value at place held
      have other {k : Handle} (member : k ∈ rest) : k ≠ h := fun same => fresh (same ▸ member)
      have get (k : Handle) (apart : k ≠ h) :
          (m.heap.update h fun _ => .cell (.closed value)).get? k = m.heap.get? k := by
        rw [Heap.get?_update,if_neg apart]
      refine ih (intact.shut opens held) distinct (fun k member => ?_) fun keep m' closes => ?_
      · obtain ⟨slot,inside,there⟩ := others k member
        exact ⟨slot,inside,(get k (other member)).trans there⟩
      have same := closes.same
      refine next keep m' ⟨same,closes.intact,closes.sublist.cons h,fun k member => ?_,
        fun k member out => ?_,fun k side => ?_⟩
      · obtain ⟨slot,low,there⟩ := closes.kept k member
        exact ⟨slot,low,(get k (other (closes.sublist.mem member))).symm.trans there⟩
      · rcases List.mem_cons.mp member with rfl | later
        · refine ⟨slot,value,Nat.le_of_not_lt high,opens,place,?_⟩
          rw [closes.rest k (.inl fresh)]
          change (m.heap.update k _).get? k = _
          rw [Heap.get?_update,if_pos rfl,opens]
          rfl
        · obtain ⟨slot,value,far,there,found,shut⟩ := closes.shut k later out
          exact ⟨slot,value,far,(get k (other later)).symm.trans there,found,shut⟩
      · have apart : k ≠ h := by
          rintro rfl
          rcases side with outside | member
          · exact outside List.mem_cons_self
          · exact fresh (closes.sublist.mem member)
        rw [closes.rest k (side.imp_left fun outside member =>
          outside (List.mem_cons_of_mem h member))]
        exact get k apart

/-- The open cells with slots at or above a place are closed, each with the value of its slot. -/
structure Machine.Shuts (place : Nat) (m m' : Machine) : Prop where
  same : m' = { m with heap := m'.heap, openCells := m'.openCells }
  intact : m'.Intact ∅
  celled : m'.Celled
  opens : ∀ h slot, m'.Opens h slot ↔ m.Opens h slot ∧ slot < place
  closes : ∀ h slot, m.Opens h slot → place ≤ slot →
    ∃ value, m.stack[slot]? = some value ∧ m'.heap.get? h = some (.cell (.closed value))
  rest : ∀ h, (∀ slot, ¬m.Opens h slot) → m'.heap.get? h = m.heap.get? h

theorem Machine.Celled.nodup (celled : m.Celled) : m.openCells.Nodup := by
  refine celled.distinct.imp_of_mem ?_
  rintro h _ member - apart rfl
  obtain ⟨slot,opens⟩ := celled.opened h member
  exact apart slot ⟨opens,opens⟩

theorem ensures_closeCells (place : Nat) (intact : m.Intact ∅) (celled : m.Celled)
    (inside : ∀ h slot, m.Opens h slot → slot < m.stack.size)
    {ok : Unit → Machine → Prop} {stop : Stop → Machine → Prop}
    (next : ∀ m', m.Shuts place m' → ok () m') : Ensures (closeCells place) m ok stop := by
  rw [closeCells,ensures_bind,ensures_get,ensures_bind]
  refine ensures_closeFrom place m.openCells intact celled.nodup (fun h member => ?_)
    fun keep mid closes => ?_
  · obtain ⟨slot,opens⟩ := celled.opened h member
    exact ⟨slot,inside h slot opens,opens⟩
  rw [ensures_modify]
  have opens (h : Handle) (slot : Nat) : mid.Opens h slot ↔ m.Opens h slot ∧ slot < place := by
    by_cases member : h ∈ m.openCells
    · by_cases stays : h ∈ keep
      · obtain ⟨own,low,opens⟩ := closes.kept h stays
        rw [Machine.Opens,closes.rest h (.inr stays)]
        exact ⟨fun open' => ⟨open',opens.unique open' ▸ low⟩,And.left⟩
      · obtain ⟨own,value,high,opens,-,shut⟩ := closes.shut h member stays
        rw [Machine.Opens,shut]
        refine ⟨by simp,fun before => ?_⟩
        have := opens.unique before.1
        omega
    · rw [Machine.Opens,closes.rest h (.inl member)]
      exact ⟨fun open' => absurd (celled.listed h slot open') member,And.left⟩
  have kept {h : Handle} (member : h ∈ keep) : ∃ slot, mid.Opens h slot := by
    obtain ⟨slot,low,there⟩ := closes.kept h member
    exact ⟨slot,(opens h slot).mpr ⟨there,low⟩⟩
  have remains {h : Handle} {slot : Nat} (there : mid.Opens h slot) : h ∈ keep := by
    by_contra outside
    obtain ⟨before,low⟩ := (opens h slot).mp there
    obtain ⟨own,value,high,own',-⟩ := closes.shut h (celled.listed h slot before) outside
    have := own'.unique before
    omega
  refine next _ ⟨?_,?_,⟨fun h slot => remains,fun h => kept,?_⟩,opens,fun h slot before high => ?_,
    fun h never => ?_⟩
  · rw [closes.same]
  · refine { closes.intact with openCells := fun h member => ?_ }
    obtain ⟨slot,there⟩ := kept member
    exact ⟨_,there⟩
  · refine (celled.distinct.sublist closes.sublist).imp fun apart slot both => apart slot ?_
    exact ⟨((opens _ _).mp both.1).1,((opens _ _).mp both.2).1⟩
  · have outside : h ∉ keep := by
      intro member
      obtain ⟨slot',there⟩ := kept member
      obtain ⟨before',low⟩ := (opens h slot').mp there
      have := before.unique before'
      omega
    obtain ⟨own,value,-,own',found,shut⟩ := closes.shut h (celled.listed h slot before) outside
    obtain rfl := before.unique own'
    exact ⟨value,found,shut⟩
  · refine closes.rest h (.inl fun member => ?_)
    obtain ⟨slot,there⟩ := celled.opened h member
    exact never slot there

namespace Machine.Shuts

variable {mid : Machine} {place : Nat}

/-- Whatever is no open cell stays. -/
theorem fixed (shuts : m.Shuts place mid) {h : Handle} {o : Object}
    (found : m.heap.get? h = some o) (other : ∀ slot, o ≠ .cell (.onStack slot)) :
    mid.heap.get? h = some o := by
  rw [shuts.rest h fun slot opens => ?_,found]
  rw [Opens,found,Option.some_inj] at opens
  exact other slot opens

theorem outlasts (shuts : m.Shuts place mid) (h : Handle) : m.heap.Outlasts mid.heap h := by
  intro o found
  by_cases other : ∀ slot, o ≠ .cell (.onStack slot)
  · exact ⟨o,shuts.fixed found other,rfl⟩
  · obtain ⟨slot,rfl⟩ := not_forall_not.mp other
    by_cases low : slot < place
    · exact ⟨_,(shuts.opens h slot).mpr ⟨found,low⟩,rfl⟩
    · obtain ⟨value,-,shut⟩ := shuts.closes h slot found (Nat.le_of_not_lt low)
      exact ⟨_,shut,rfl⟩

theorem functionOf? (shuts : m.Shuts place mid) {closure : Handle} {code : Chunk × Array Value}
    (found : m.functionOf? closure = some code) : mid.functionOf? closure = some code := by
  obtain ⟨chunk,constants⟩ := code
  obtain ⟨function,captures,here,there⟩ := functionOf?_some.mp found
  exact functionOf?_some.mpr ⟨function,captures,shuts.fixed here (by simp),
    shuts.fixed there (by simp)⟩

/-- A step that closes the cells of the slots it takes off the stack. -/
theorem turns (shuts : m.Shuts place mid) (heap : m'.heap = mid.heap) {rest : Nat}
    (top : m'.stack.size ≤ place)
    (gap : ∀ h slot, m.Opens h slot → (slot < rest ↔ slot < place)) : m.Turns rest ∅ m' where
  stays h slot opens low := by
    rw [Opens,heap]
    exact (shuts.opens h slot).mpr ⟨opens,(gap h slot opens).mp low⟩
  closes h slot opens high := by
    have far : place ≤ slot := by
      by_contra low
      exact absurd ((gap h slot opens).mpr (Nat.lt_of_not_le low)) (Nat.not_lt.mpr high)
    rw [heap]
    exact ⟨top.trans far,shuts.closes h slot opens far⟩
  opens h slot opens _ := by
    rw [Opens,heap] at opens
    exact ((shuts.opens h slot).mp opens).1
  closed h value found := by
    rw [heap] at found
    refine ⟨not_false,?_⟩
    by_cases never : ∀ slot, ¬m.Opens h slot
    · exact ⟨_,(shuts.rest h never).symm.trans found⟩
    · obtain ⟨slot,opens⟩ := not_forall_not.mp never
      exact ⟨_,opens⟩
  closures h code captures found _ := by
    rw [heap] at found
    refine ⟨?_,fun _ _ => not_false⟩
    rw [← shuts.rest h fun slot opens => ?_,found]
    obtain ⟨o,still,outline⟩ := shuts.outlasts h _ opens
    rw [found] at still
    cases still
    cases outline

end Machine.Shuts

namespace Poised

theorem closeCell (poised : Poised m s .closeCell) :
    Safe (do
      let size := (← get).stack.size
      if size = 0 then stuck
      closeCells (size - 1)
      Action.pop) m m s .closeCell := by
  have enough : 1 ≤ s.point.height := poised.enough
  have size := poised.size
  have positive := poised.pos
  have bounded := poised.bounded
  rw [Safe,ensures_bind,ensures_get]
  dsimp only
  rw [if_neg (by omega),ensures_bind]
  refine ensures_closeCells _ poised.intact poised.celled
    (fun h slot opens => (poised.orderly.inside h slot opens).2) fun mid shuts => ?_
  have stack : mid.stack = m.stack := by rw [shuts.same]
  have frames : mid.frames = m.frames := by rw [shuts.same]
  rw [ensures_pop (by rw [stack]; omega)]
  have less : mid.stack.pop.size = m.stack.size - 1 := by rw [Array.size_pop,stack]
  refine ⟨poised.proceed (List.mem_singleton.mpr rfl) (frames.trans poised.frames)
    (shuts.intact.setStack fun v member => shuts.intact.stack v (mem_of_mem_pop member))
    (shuts.celled.of_heap rfl rfl) ?_ ?_ (fun f member => ?_)
    (fun _ => poised.codes fun _ _ _ => shuts.functionOf?) fun h slot opens => ?_,⟨∅,shuts.turns (by rfl) less.le fun h slot opens => ?_,
    makes_nothing (by simp) _ fun h code captures found => shuts.fixed found (by simp)⟩,
    poised.on (List.mem_singleton.mpr rfl) (frames.trans poised.frames) ?_,
    poised.spares (fun p low _ _ => ?_) fun h slot opens => .inl ((shuts.opens h slot).mp opens).1⟩
  · rw [less]
    omega
  · rw [less]
    change _ = s.base + (s.point.height - 1 + 0)
    omega
  · obtain ⟨-,low,-⟩ := poised.guard member
    change mid.stack.pop[f.base - 1]? = _
    rw [Array.getElem?_pop,stack,if_pos (by omega)]
  · obtain ⟨before,low⟩ := (shuts.opens h slot).mp opens
    rcases poised.slots h slot before with lower | ⟨own,marked⟩
    · exact .inl lower
    · refine .inr ⟨own,.inl ⟨marked,?_⟩⟩
      change slot - s.base < s.point.height - 1
      omega
  · rw [Machine.remains,if_neg (by simp)]
    rfl
  · rw [less]
    change _ = s.base + (s.point.height - 1 + 0)
    omega
  · rw [poised.remains (by simp)] at low
    change p < s.base + (s.point.height - 1) at low
    rw [Array.getElem?_pop,stack,if_pos (by omega)]

section

variable {mid : Machine} {value : Value}

/-- What is left of the stack below a frame that returns. -/
theorem size_below (poised : Poised m s i) (shuts : m.Shuts s.base mid) :
    (mid.stack.shrink (s.base - 1)).size = s.base - 1 := by
  have stack : mid.stack = m.stack := by rw [shuts.same]
  have size := poised.size
  rw [Array.size_shrink,stack]
  omega

/-- When the first call has returned, the stack is empty. -/
theorem retLast (poised : Poised m s .ret) (shuts : m.Shuts s.base mid)
    (held : mid.heap.Holds value) (alone : s.callers = []) :
    m.Ends .finished { mid with
      frames := mid.frames.tail, stack := mid.stack.shrink (s.base - 1), result := value } := by
  have left := poised.size_below shuts
  have size := poised.size
  have first : s.base = 1 := Machine.Stacked.alone (alone ▸ poised.below)
  have empty : mid.stack.shrink (s.base - 1) = #[] := Array.size_eq_zero_iff.mp (by omega)
  have none : mid.frames.tail = [] := by rw [shuts.same,poised.frames]; exact alone
  have shut : mid.openCells = [] := by
    refine List.eq_nil_iff_forall_not_mem.mpr fun h member => ?_
    obtain ⟨slot,opens⟩ := shuts.celled.opened h member
    obtain ⟨before,low⟩ := (shuts.opens h slot).mp opens
    have := (poised.orderly.inside h slot before).1
    omega
  refine ⟨⟨{ shuts.intact with stack := ?_, result := held },shuts.celled.of_heap rfl rfl,empty,none,
    shut⟩,shuts.turns (by rfl) ?_ fun h slot opens => ?_⟩
  · exact fun v member => shuts.intact.stack v (mem_of_mem_shrink member)
  · exact left.le.trans (Nat.sub_le _ _)
  · have := (poised.orderly.inside h slot opens).1
    omega

/-- The caller goes on with the value in the place of the callee. -/
theorem retInto (poised : Poised m s .ret) (shuts : m.Shuts s.base mid)
    (held : mid.heap.Holds value) (top : m.stack.back? = some value) (called : s.callers ≠ []) :
    m.Continues .ret (s.frame s.ip) { mid with
      frames := mid.frames.tail, stack := (mid.stack.shrink (s.base - 1)).push value } := by
  have left := poised.size_below shuts
  have size := poised.size
  have positive := poised.pos
  have bounded := poised.bounded
  have enough : 1 ≤ s.point.height := poised.enough
  have stack : mid.stack = m.stack := by rw [shuts.same]
  have frames : mid.frames.tail = s.callers := by rw [shuts.same,poised.frames]; rfl
  have grown : ((mid.stack.shrink (s.base - 1)).push value).size = s.base := by
    rw [Array.size_push]
    omega
  have same (p : Nat) (low : p < s.base - 1) :
      ((mid.stack.shrink (s.base - 1)).push value)[p]? = m.stack[p]? := by
    rw [Array.getElem?_push,left,if_neg (by omega),getElem?_shrink,if_pos low,stack]
  have below : Machine.Stacked { mid with
      frames := mid.frames.tail, stack := (mid.stack.shrink (s.base - 1)).push value }
      s.callers s.base s.cells := by
    refine poised.below.keep (fun f member => same _ ?_) fun f member => ?_
    · have := poised.room f member
      have := (poised.below.guard member).1
      omega
    · obtain ⟨-,-,-,⟨chunk,constants,known⟩,-⟩ := poised.below.guard member
      rw [known]
      exact shuts.functionOf? known
  refine ⟨⟨{ shuts.intact with stack := ?_ },shuts.celled.of_heap rfl rfl,?_,frames ▸ called,s.cells,?_,
      fun h slot opens => ?_⟩,
    ⟨∅,shuts.turns (by rfl) grown.le fun h slot opens => ?_,
      makes_nothing (by simp) _ fun h code captures found => shuts.fixed found (by simp)⟩,
    .leave value rfl top ?_ ?_,
    poised.spares (fun p low _ _ => ?_) fun h slot opens => .inl ((shuts.opens h slot).mp opens).1⟩
  · intro v member
    rcases Array.mem_push.mp member with old | rfl
    · exact shuts.intact.stack v (mem_of_mem_shrink old)
    · exact held
  · change ((mid.stack.shrink (s.base - 1)).push value).size ≤ _
    omega
  · change Machine.Stacked _ mid.frames.tail ((mid.stack.shrink (s.base - 1)).push value).size _
    rw [grown]
    exact frames ▸ below
  · obtain ⟨before,low⟩ := (shuts.opens h slot).mp opens
    exact (poised.slots h slot before).resolve_right fun own => by omega
  · change slot < (if Instr.ret = .ret then s.base - 1 else _) ↔ _
    rw [if_pos rfl]
    rcases poised.slots h slot opens with lower | own
    · have := poised.clear slot lower
      omega
    · omega
  · change mid.frames.tail = m.frames.tail
    rw [shuts.same]
  · change (mid.stack.shrink (s.base - 1)).push value = _
    rw [stack]
    rfl
  · change p < (if Instr.ret = .ret then s.base - 1 else _) at low
    rw [if_pos rfl] at low
    exact same p low

end

/-- The value of the running frame replaces the callee and everything above it. When there is no
caller, the stack becomes empty. -/
theorem ret (poised : Poised m s .ret) : Safe Action.ret m m s .ret := by
  have enough : 1 ≤ s.point.height := poised.enough
  have size := poised.size
  have positive := poised.pos
  have bounded := poised.bounded
  rw [Safe,Action.ret,ensures_bind,ensures_peek (by omega),ensures_bind,
    ensures_frame poised.frames,ensures_bind]
  have top := Array.getElem?_eq_getElem (show m.stack.size - 1 - 0 < m.stack.size by omega)
  have held := poised.held top
  generalize m.stack[m.stack.size - 1 - 0] = value at top held
  refine ensures_closeCells s.base poised.intact poised.celled
    (fun h slot opens => (poised.orderly.inside h slot opens).2) fun mid shuts => ?_
  have stack : mid.stack = m.stack := by rw [shuts.same]
  have frames : mid.frames.tail = s.callers := by rw [shuts.same,poised.frames]; rfl
  have later : mid.heap.Holds value := held.later fun h _ => shuts.outlasts h
  have nonzero : (s.frame (s.ip + Instr.ret.size)).base ≠ 0 := Nat.ne_of_gt positive
  rw [ensures_bind,ensures_modify,ensures_ite]
  refine ⟨fun zero => absurd zero nonzero,fun _ => ?_⟩
  rw [ensures_bind,ensures_shrinkTo (by
    change s.base - 1 ≤ mid.stack.size
    rw [stack]
    omega),ensures_bind,ensures_get,ensures_ite]
  constructor
  · intro none
    rw [ensures_bind,ensures_modify,ensures_bind,ensures_throw]
    exact poised.retLast shuts later (frames ▸ List.isEmpty_iff.mp none)
  · intro called
    rw [ensures_push]
    refine ⟨fun full => ?_,fun _ => ?_⟩
    · have left := poised.size_below shuts
      change Machine.stackLimit ≤ (mid.stack.shrink (s.base - 1)).size at full
      omega
    · have last : m.stack.back? = some value := by rw [Array.back?_eq_getElem?]; exact top
      have callers : s.callers ≠ [] := fun alone =>
        called (List.isEmpty_iff.mpr (frames.trans alone))
      exact poised.retInto shuts later last callers

end Poised

end ScriptMachine
