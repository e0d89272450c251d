import Mathlib
import ScriptMachine.Proofs.Hosts
import ScriptMachine.Proofs.Instructions

/-! The instructions that jump, call and return, and those that open and close cells. -/
namespace ScriptMachine.Poised

open ScriptMachine.Action

variable {m mid : Machine} {s : Scene} {i : Instr} {fresh : Set Handle}

/-! Jumps. -/

theorem jump {distance : Nat} (poised : Poised m s (.jump distance)) :
    Safe (jumpForward distance) m m s (.jump distance) := by
  have size := poised.size
  refine poised.plain (List.mem_singleton.mpr rfl) ?_ (.of_heap (.refl m) rfl)
    (poised.intact.setFrames _) rfl poised.bounded ?_ (fun _ _ => rfl)
    (fun _ _ _ _ => rfl) (by simp) (by simp)
  · change m.frames.modifyHead _ = _
    rw [poised.frames]
    rfl
  · change m.stack.size = s.base + (s.point.height - 0 + 0)
    omega

theorem jumpBack {distance : Nat} (poised : Poised m s (.jumpBack distance)) :
    Safe (Action.jumpBack distance) m m s (.jumpBack distance) := by
  have size := poised.size
  have legal : distance ≤ s.ip + 5 := poised.ready.legal
  rw [Safe,Action.jumpBack,ensures_bind,ensures_frame poised.frames]
  dsimp only
  rw [if_pos (show distance ≤ (s.frame (s.ip + (Instr.jumpBack distance).size)).ip from legal)]
  refine poised.plain (List.mem_singleton.mpr rfl) ?_ (.of_heap (.refl m) rfl)
    (poised.intact.setFrames _) rfl poised.bounded ?_ (fun _ _ => rfl)
    (fun _ _ _ _ => rfl) (by simp) (by simp)
  · change m.frames.modifyHead _ = _
    rw [poised.frames]
    rfl
  · change m.stack.size = s.base + (s.point.height - 0 + 0)
    omega

theorem jumpIf {condition : Bool} {distance : Nat} (poised : Poised m s (.jumpIf condition distance)) :
    Safe (Action.jumpIf condition distance) m m s (.jumpIf condition distance) := by
  have enough : 1 ≤ s.point.height := poised.enough
  have size := poised.size
  have bounded := poised.bounded
  rw [Safe,Action.jumpIf,ensures_bind,ensures_peek (by omega)]
  split
  next b known =>
    rw [ensures_bind,ensures_pop (by omega),ensures_ite]
    -- Whether the jump is taken or not, the condition is off the stack.
    have either {target : Nat} {m' : Machine}
        (aim : target ∈ (Instr.jumpIf condition distance).targets s.ip)
        (frames : m'.frames = s.frame target :: s.callers)
        (rest : m' = { m with stack := m.stack.pop, frames := m'.frames }) :
        m.Continues (.jumpIf condition distance) (s.frame s.ip) m' := by
      rw [rest] at frames ⊢
      refine poised.plain aim frames (.of_heap (.refl m) rfl) ?_ rfl ?_ ?_ ?_ (fun p low _ _ => ?_)
        (by simp) (by simp)
      · exact (poised.intact.setStack fun v member =>
          poised.intact.stack v (mem_of_mem_pop member)).setFrames _
      · rw [Array.size_pop]
        omega
      · change m.stack.pop.size = s.base + (s.point.height - 1 + 0)
        rw [Array.size_pop]
        omega
      · intro f member
        obtain ⟨positive,low,-⟩ := poised.guard member
        rw [Array.getElem?_pop,if_pos (by omega)]
      · change p < s.base + (s.point.height - 1) at low
        rw [Array.getElem?_pop,if_pos (by omega)]
    constructor
    · intro taken
      refine either (List.mem_cons_of_mem _ List.mem_cons_self) ?_ rfl
      change m.frames.modifyHead _ = _
      rw [poised.frames]
      rfl
    · intro passed
      exact either List.mem_cons_self poised.frames rfl
  next => simpa using poised.faults

/-! Calls. -/

/-- The value of a call that needs no frame replaces the callee and the arguments. -/
theorem finishCall {n : Nat} (poised : Poised m s (.call n)) (steady : m.Steady fresh mid)
    {value : Value} (held : mid.heap.Holds value) :
    Safe (do shrinkTo (mid.stack.size - n - 1); Action.push value) m mid s (.call n) := by
  have enough : n + 1 ≤ s.point.height := poised.enough
  have size := poised.size
  have bounded := poised.bounded
  have length : mid.stack.size = m.stack.size := by rw [steady.stack]
  rw [Safe,ensures_bind,ensures_shrinkTo (by omega),ensures_push]
  have shrunk : (mid.stack.shrink (mid.stack.size - n - 1)).size = m.stack.size - n - 1 := by
    rw [Array.size_shrink]
    omega
  refine ⟨fun full => ?_,fun _ => ?_⟩
  · change Machine.stackLimit ≤ (mid.stack.shrink (mid.stack.size - n - 1)).size at full
    omega
  · refine poised.settle steady ⟨by simp [Instr.targets],by simp,by simp⟩ rfl steady.frames
      steady.openCells (steady.intact.setStack ?_) ?_ ?_ ?_
    · intro other member
      rcases Array.mem_push.mp member with old | rfl
      · exact steady.intact.stack other (mem_of_mem_shrink old)
      · exact held
    · rw [Array.size_push,shrunk]
      omega
    · rw [Array.size_push,shrunk]
      change _ = s.base + (s.point.height - (n + 1) + 1)
      omega
    · intro p low
      change p < s.base + (s.point.height - (n + 1)) at low
      rw [Array.getElem?_push,shrunk,if_neg (by omega),getElem?_shrink,if_pos (by omega),steady.stack]

/-- A fresh object may be changed before anything else sees it. -/
theorem evolves_rebuild {h : Handle} {o : Object} {change : Object → Object}
    (evolves : m.Evolves {h} mid) (found : mid.heap.get? h = some o)
    (plain : (∀ code captures, change o ≠ .closure code captures) ∧ (∀ state, change o ≠ .cell state) ∧
      ∀ chunk constants, change o ≠ .function chunk constants) :
    m.Evolves {h} { mid with heap := mid.heap.update h change } := by
  refine ⟨fun k other x here => ?_,fun k x reaches here => ?_,?_⟩
  · change (mid.heap.update h change).get? k = some x at here
    rw [Heap.get?_update,if_neg (Set.notMem_singleton_iff.mp other)] at here
    exact evolves.old k other x here
  · obtain ⟨other,x',there,becomes⟩ := evolves.kept k x reaches here
    refine ⟨other,x',?_,becomes⟩
    change (mid.heap.update h change).get? k = some x'
    rw [Heap.get?_update,if_neg (Set.notMem_singleton_iff.mp other)]
    exact there
  · rintro k rfl x here
    change (mid.heap.update k change).get? k = some x at here
    rw [Heap.get?_update,if_pos rfl,found] at here
    cases here
    exact plain

theorem construct {n : Nat} (poised : Poised m s (.call n)) {h name : Handle}
    {labels : List Handle} (found : m.heap.get? h = some (.struct name labels))
    (reaches : m.Reaches h) : Safe (Action.construct h name labels n) m m s (.call n) := by
  have enough : n + 1 ≤ s.point.height := poised.enough
  have size := poised.size
  rw [Safe,Action.construct,ensures_ite]
  refine ⟨fun _ => by simpa using poised.faults,fun same => ?_⟩
  rw [not_not] at same
  subst same
  rw [ensures_bind,allocateRecord,ensures_bind,ensures_object found]
  refine .allocate poised.intact (by simp) fun k mid grows placed still => ?_
  have nils (o : Value) (member : o ∈ Array.replicate labels.length Value.nil) : o = .nil := by
    simp_all
  have intact : mid.Intact ∅ := by
    refine still False ∅ ⟨⟨labels,⟨name,found⟩,by simp⟩,fun o member => ?_⟩ ?_ subset_rfl
      False.elim
    · rw [nils o member]
      simp
    · intro r member
      rcases List.mem_cons.mp member with rfl | value
      · exact reaches
      · cases nils _ (Object.mem_handles.mp value)
  have stack : mid.stack = m.stack := by rw [grows.same]
  have length : labels.length < mid.stack.size := by rw [stack]; omega
  simp only [ensures_bind,ensures_get,length,↓reduceIte,ensures_updateObject]
  have evolves : m.Evolves {k} mid := grows.evolves (by
    rintro _ rfl o here
    rw [placed] at here
    cases here
    simp)
  generalize known : mid.stack.extract (mid.stack.size - labels.length) mid.stack.size = values
  have steady : m.Steady {k} { mid with heap := mid.heap.update k fun _ => .record h values } := by
    have kept := grows.kept h reaches
    refine ⟨evolves_rebuild evolves placed (by simp),?_,stack,?_,?_⟩
    · refine intact.update placed (by simp) rfl (by simp) ⟨⟨labels,⟨name,?_⟩,?_⟩,fun o member => ?_⟩
      · rw [kept.2,found]
      · rw [← known,Array.size_extract]
        omega
      · rw [← known] at member
        exact intact.stack o (mem_of_mem_extract member)
    · rw [grows.same]
    · rw [grows.same]
  have value : (mid.heap.update k fun _ => .record h values).Holds (.object k) := by
    refine Heap.holds_object (o := .record h values) ?_
    rw [Heap.get?_update,if_pos rfl,placed]
    rfl
  have done := poised.finishCall steady value
  rw [Safe,ensures_bind] at done
  exact done

theorem callNative {n : Nat} (poised : Poised m s (.call n)) {host : Host}
    (respectful : host.Respectful) (name : Bytes) (native : Native) :
    Safe (Action.callNative host name native n) m m s (.call n) := by
  have enough : n + 1 ≤ s.point.height := poised.enough
  have size := poised.size
  have length : n < m.stack.size := by omega
  -- The call itself, once the number of arguments is known to be right.
  have called (fits : ∀ k, host.arity native = some k → n = k) :
      Safe (applyNative host name native n) m m s (.call n) := by
    simp only [Safe,applyNative,ensures_bind,ensures_get,length,↓reduceIte]
    obtain ⟨result,mid,fresh,run,steady,held⟩ := respectful native
      (m.stack.extract (m.stack.size - n) m.stack.size).toList m (by
        intro k known
        rw [Array.length_toList,Array.size_extract,← fits k known]
        omega) poised.intact (fun v member => mem_of_mem_extract (Array.mem_toList_iff.mp member))
    refine .of_ok run ?_
    cases result with
    | ok value =>
      have done := poised.finishCall steady (held value rfl)
      simpa [Safe] using done
    | error failure => simpa using steady.faults poised.orderly
  rw [Safe,Action.callNative]
  cases known : host.arity native with
  | none => exact called (by simp [known])
  | some expected =>
    dsimp only
    rw [ensures_ite]
    refine ⟨fun _ => by simpa using poised.faults,fun same => ?_⟩
    rw [not_not] at same
    exact called (by simp [known,same])

/-- A step that leaves the heap alone and takes no slot with an open cell. -/
theorem turns_same {m m' : Machine} (heap : m'.heap = m.heap)
    {rest : Nat} (low : ∀ h slot, m.Opens h slot → slot < rest) : m.Turns rest ∅ m' where
  stays h slot opens _ := by rwa [Machine.Opens,heap]
  closes h slot opens high := absurd (low h slot opens) (Nat.not_lt.mpr high)
  opens h slot opens _ := by rwa [Machine.Opens,heap] at opens
  closed h value found := ⟨not_false,_,heap ▸ found⟩
  closures h code captures found _ := ⟨heap ▸ found,fun _ _ => not_false⟩

theorem makes_nothing (other : ∀ n list, i ≠ .closure n list) (f : Frame) {m m' : Machine}
    (stays : ∀ h code captures, m.heap.get? h = some (.closure code captures) →
      m'.heap.get? h = some (.closure code captures)) : m.Makes i f ∅ m' :=
  ⟨fun _ impossible => impossible.elim,fun n list same => absurd same (other n list),
    fun h code captures _ found => ⟨not_false,stays h code captures found⟩⟩

/-- Above a caller that waits at the next instruction, as if the value were already there, the callee
starts with its arguments. -/
theorem entered {chunk : Chunk} {constants : Array Value} {h : Handle}
    (poised : Poised m s (.call chunk.parameterCount))
    (known : m.functionOf? h = some (chunk,constants)) (sound : chunk.Sound)
    (callee : m.stack[m.stack.size - 1 - chunk.parameterCount]? = some (.object h)) :
    ∃ cells, Machine.Stacked { m with
        frames := ⟨h,0,m.stack.size - chunk.parameterCount⟩ :: m.frames }
      (⟨h,0,m.stack.size - chunk.parameterCount⟩ :: m.frames) m.stack.size cells ∧
      ∀ k slot, m.Opens k slot → slot ∈ cells := by
  have enough : chunk.parameterCount + 1 ≤ s.point.height := poised.enough
  have size := poised.size
  obtain ⟨edges,points,charted⟩ := sound.charted
  obtain ⟨edge,allowed⟩ := poised.leads _ List.mem_cons_self
  obtain ⟨height,marks⟩ := allowed
  change s.point.height - (chunk.parameterCount + 1) + 1 = _ at height
  have below : Machine.Stacked { m with frames :=
      ⟨h,0,m.stack.size - chunk.parameterCount⟩ :: m.frames } s.callers s.base s.cells :=
    poised.below.keep (fun _ _ => rfl) fun _ _ => rfl
  have waiting := Machine.Stacked.frame below poised.clear poised.room poised.running poised.code
    poised.charted edge marks
  have base : m.stack.size - chunk.parameterCount =
      s.base + (s.points (s.ip + (Instr.call chunk.parameterCount).size)).height := by omega
  rw [← base] at waiting
  have entry : chunk.parameterCount = (points 0).height := charted.entry.1
  have clear : ∀ x ∈ s.cells ∪ {x | s.base ≤ x ∧
      x - s.base ∈ ((Instr.call chunk.parameterCount).after s.point).cells},
      x + 1 < m.stack.size - chunk.parameterCount := by
    rintro x (lower | ⟨own,⟨-,low⟩ | impossible⟩)
    · have := poised.clear x lower
      omega
    · change x - s.base < s.point.height - (chunk.parameterCount + 1) at low
      omega
    · exact impossible.elim
  have room : ∀ f ∈ s.frame (s.ip + (Instr.call chunk.parameterCount).size) :: s.callers,
      f.base < m.stack.size - chunk.parameterCount := by
    intro f member
    rcases List.mem_cons.mp member with rfl | caller
    · change s.base < _
      omega
    · have := poised.room f caller
      omega
  have guard : m.stack[m.stack.size - chunk.parameterCount - 1]? = some (.object h) := by
    rw [← callee]
    congr 1
    omega
  have called := Machine.Stacked.frame waiting clear room guard known charted charted.start
    (Set.empty_subset _)
  rw [← entry,Nat.sub_add_cancel (by omega)] at called
  change Machine.Stacked _ (_ :: s.frame (s.ip + (Instr.call chunk.parameterCount).size) ::
    s.callers) _ _ at called
  rw [← poised.frames] at called
  exact ⟨_,called,fun k slot opens => .inl (poised.low (by simp) opens).2⟩

/-- A closure that is called gets a frame of its own, at the start of its code. -/
theorem callClosure {n : Nat} (poised : Poised m s (.call n)) {h : Handle} {code : Handle}
    {captures : Array Handle} (found : m.heap.get? h = some (.closure code captures))
    (callee : m.stack[m.stack.size - 1 - n]? = some (.object h)) :
    Safe (Action.callClosure h n) m m s (.call n) := by
  have enough : n + 1 ≤ s.point.height := poised.enough
  have size := poised.size
  obtain ⟨⟨chunk,⟨constants,there⟩,-⟩,-⟩ := poised.intact.valid h _ found
  have known : m.functionOf? h = some (chunk,constants) :=
    Machine.functionOf?_some.mpr ⟨code,captures,found,there⟩
  have sound : chunk.Sound := (poised.intact.valid code _ there).1
  rw [Safe,Action.callClosure,ensures_bind,ensures_get,known,ensures_bind,ensures_some]
  dsimp only
  rw [ensures_ite]
  refine ⟨fun _ => by simpa using poised.faults,fun same => ?_⟩
  rw [not_not] at same
  subst same
  rw [ensures_ite]
  refine ⟨fun _ => by simpa using poised.faults,fun _ => ?_⟩
  rw [if_pos (by omega),ensures_modify]
  refine ⟨⟨poised.intact.setFrames _,poised.celled.of_heap rfl rfl,poised.bounded,by simp,
      poised.entered known sound callee⟩,
    ⟨∅,turns_same (by rfl) fun k slot opens => ?_,makes_nothing (by simp) _ fun _ _ _ found => found⟩,
    .enter chunk.parameterCount h rfl callee ⟨code,captures,found⟩ ?_ rfl,
    poised.spares (fun _ _ _ _ => rfl) fun _ _ opens => .inl opens⟩
  · rw [poised.remains (by simp)]
    exact (poised.low (by simp) opens).1
  · change _ :: m.frames = _
    rw [poised.frames]
    rfl

theorem call {n : Nat} (poised : Poised m s (.call n)) {host : Host}
    (respectful : host.Respectful) : Safe (Action.call host n) m m s (.call n) := by
  have enough : n + 1 ≤ s.point.height := poised.enough
  have size := poised.size
  have inside : m.stack.size - 1 - n < m.stack.size := by omega
  have callee := Array.getElem?_eq_getElem inside
  have held := poised.held callee
  rw [Safe,Action.call,ensures_bind,ensures_peek (by omega),ensures_bind,ensures_objectOf? held]
  generalize m.stack[m.stack.size - 1 - n] = value at callee held
  cases value with
  | object h =>
    obtain ⟨o,found⟩ := held h rfl
    have reaches := Machine.reaches_stack (Array.mem_of_getElem? callee)
    simp only [Value.handle?,Option.bind_some,found]
    cases o with
    | closure code captures => exact poised.callClosure found callee
    | native name native => exact poised.callNative respectful name native
    | struct name labels => exact poised.construct found reaches
    | _ => simpa using poised.faults
  | _ => simpa [Value.handle?] using poised.faults

end ScriptMachine.Poised
