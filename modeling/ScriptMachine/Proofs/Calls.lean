import Mathlib
import ScriptMachine.Proofs.Histories

/-! What a call leaves to its caller. Until the callee's frame is gone, every frame above the caller's
has its values at or above those of the callee, so the slots below can only be reached through cells
that were open when the call was made. -/
namespace ScriptMachine

open ScriptMachine.Action

variable {host : Host} {m m' m₀ : Machine} {i : Instr} {f : Frame} {n : Nat}

namespace Machine

/-- The values on top that a call passes on. -/
def arguments (m : Machine) (n : Nat) : Array Value :=
  m.stack.extract (m.stack.size - n) m.stack.size

/-- What the callee of a call made on `m` answers: a closure the value on top of the stack when it
returns, after the step before the last, a native function what its host gives for the arguments, and
a struct a record of them. -/
inductive Answers (host : Host) (m : Machine) (n : Nat) (callee : Handle) (last m' : Machine) :
    Value → Prop
  | closure {code : Handle} {captures : Array Handle} {value : Value}
      (found : m.heap.get? callee = some (.closure code captures))
      (inside : last.frames.length = m.frames.length + 1) (ends : last.next? = some .ret)
      (top : last.stack.back? = some value) : Answers host m n callee last m' value
  | native {name : Bytes} {native : Native} {value : Value} {done : Machine}
      (found : m.heap.get? callee = some (.native name native))
      (called : (host.call native (m.arguments n).toList).run { m with frames := m'.frames } =
        .ok (.ok value) done) : Answers host m n callee last m' value
  | struct {name record : Handle} {labels : List Handle}
      (found : m.heap.get? callee = some (.struct name labels)) (count : labels.length = n)
      (made : m'.heap.get? record = some (.record callee (m.arguments n))) :
      Answers host m n callee last m' (.object record)

/-- Frames from some call on: that of the callee, which has its values from `base` on, and those above
it. The caller's frame is the first of `rest`. -/
def Above (closure : Handle) (base : Nat) (rest frames : List Frame) : Prop :=
  ∃ above ip, frames = above ++ ⟨closure,ip,base⟩ :: rest ∧ ∀ g ∈ above, base ≤ g.base

section

variable {closure : Handle} {base : Nat} {rest frames : List Frame}

theorem Above.floor (above : Above closure base rest (f :: frames)) : base ≤ f.base := by
  obtain ⟨_ | ⟨g,above⟩,ip,same,high⟩ := above
  · cases same
    exact le_rfl
  · cases same
    exact high f List.mem_cons_self

theorem Above.goOn (above : Above closure base rest (f :: frames)) (target : Nat) :
    Above closure base rest ({ f with ip := target } :: frames) := by
  have floor := above.floor
  obtain ⟨_ | ⟨g,above⟩,ip,same,high⟩ := above
  · cases same
    exact ⟨[],target,rfl,by simp⟩
  · cases same
    refine ⟨{ f with ip := target } :: above,ip,rfl,fun g member => ?_⟩
    rcases List.mem_cons.mp member with rfl | other
    · exact floor
    · exact high g (List.mem_cons_of_mem _ other)

theorem Above.enter (above : Above closure base rest frames) (taller : base ≤ f.base) :
    Above closure base rest (f :: frames) := by
  obtain ⟨above,ip,rfl,high⟩ := above
  exact ⟨f :: above,ip,rfl,List.forall_mem_cons.mpr ⟨taller,high⟩⟩

theorem Above.leave (above : Above closure base rest (f :: frames)) :
    Above closure base rest frames ∨ frames = rest ∧ f.base = base := by
  obtain ⟨_ | ⟨g,above⟩,ip,same,high⟩ := above
  · cases same
    exact .inr ⟨rfl,rfl⟩
  · cases same
    exact .inl ⟨above,ip,rfl,fun g member => high g (List.mem_cons_of_mem _ member)⟩

theorem Above.length (above : Above closure base rest frames) : rest.length < frames.length := by
  obtain ⟨above,ip,rfl,-⟩ := above
  simp
  omega

end

/-- Inside a call that was made when the machine was `m₀`: the slots below the callee are as they were,
as far as no cell was open for them. -/
structure Within (m₀ : Machine) (closure : Handle) (base : Nat) (rest : List Frame) (m : Machine) :
    Prop where
  above : Above closure base rest m.frames
  slots : ∀ p, p + 1 < base → (∀ h, ¬m₀.Opens h p) →
    m.stack[p]? = m₀.stack[p]? ∧ ∀ h, ¬m.Opens h p

/-- The callee's frame is gone, and what was on top has taken the place of the callee. -/
structure Left (base : Nat) (rest : List Frame) (m m' : Machine) : Prop where
  inside : m.frames.length = rest.length + 1
  ends : m.next? = some .ret
  frames : m'.frames = rest
  result : ∃ value, m.stack.back? = some value ∧ m'.stack = (m.stack.shrink (base - 1)).push value

variable {closure : Handle} {base : Nat} {rest : List Frame}

/-- No step inside a call changes a slot below the callee that no cell was open for. -/
theorem Within.slots_step (within : m₀.Within closure base rest m) (floor : base ≤ f.base)
    (spares : m.Spares i f m') {p : Nat} (low : p + 1 < base) (shut : ∀ h, ¬m₀.Opens h p) :
    m'.stack[p]? = m₀.stack[p]? ∧ ∀ h, ¬m'.Opens h p := by
  obtain ⟨same,closed⟩ := within.slots p low shut
  have reach := spares.low
  refine ⟨?_,fun h opens => ?_⟩
  · rw [spares.slots p (by omega) (fun n _ => by omega) closed,same]
  · rcases spares.opens h p opens with before | ⟨-,own⟩
    · exact closed h before
    · omega

/-- A step inside a call stays inside, unless it is the return from it. -/
theorem Within.step (within : m₀.Within closure base rest m) (next : m.next? = some i)
    (head : f ∈ m.frames.head?) (continues : m.Continues i f m') :
    m₀.Within closure base rest m' ∨ Left base rest m m' := by
  have frames : m.frames = f :: m.frames.tail := (List.cons_head?_tail head).symm
  have above := within.above
  rw [frames] at above
  have kept := fun p => within.slots_step (p := p) above.floor continues.spares
  cases continues.passes with
  | on target aim after size => exact .inl ⟨after ▸ above.goOn target,kept⟩
  | enter n callee call place found after stack =>
    refine .inl ⟨?_,kept⟩
    obtain ⟨cells,stacked,-⟩ := continues.running.stacked
    rw [after] at stacked ⊢
    obtain ⟨-,-,-,-,-,-,-,room,-⟩ := stacked.cons
    have taller : f.base < m.stack.size - n := room { f with ip := f.ip + i.size } List.mem_cons_self
    exact (above.goOn _).enter (above.floor.trans taller.le)
  | leave value ret top after stack =>
    rcases above.leave with inner | ⟨out,rfl⟩
    · exact .inl ⟨after ▸ inner,kept⟩
    · exact .inr ⟨by rw [frames,out]; rfl,ret ▸ next,after.trans out,value,top,stack⟩

end Machine

/-! What a call does at once. -/

namespace Action

theorem need_ok {α : Type} {a : Option α} {b : α} (run : need a m = .ok b m') :
    a = some b ∧ m' = m := by
  cases a with
  | none => cases run
  | some a =>
    cases run
    exact ⟨rfl,rfl⟩

theorem peek_ok {depth : Nat} {value : Value} (run : peek depth m = .ok value m') :
    m.stack[m.stack.size - 1 - depth]? = some value ∧ m' = m := by
  obtain ⟨_,_,read,run⟩ := bind_ok run
  cases read
  split at run
  · exact need_ok run
  · cases run

theorem push_ok {value : Value} (run : push value m = .ok () m') :
    m' = { m with stack := m.stack.push value } := by
  obtain ⟨_,_,read,run⟩ := bind_ok run
  cases read
  split at run
  · cases run
  · cases run
    rfl

/-- A call that goes well goes to a closure, to a native function or to a struct. -/
theorem call_ok (run : call host n m = .ok () m') :
    ∃ callee, m.stack[m.stack.size - 1 - n]? = some (.object callee) ∧
      ((∃ code captures, m.heap.get? callee = some (.closure code captures) ∧
          callClosure callee n m = .ok () m') ∨
        (∃ name native, m.heap.get? callee = some (.native name native) ∧
          callNative host name native n m = .ok () m') ∨
        ∃ name labels, m.heap.get? callee = some (.struct name labels) ∧
          construct callee name labels n m = .ok () m') := by
  obtain ⟨callee,_,peeked,rest⟩ := bind_ok run
  clear run
  obtain ⟨found,rfl⟩ := peek_ok peeked
  obtain ⟨o,mid,read,run⟩ := bind_ok rest
  cases callee with
  | object h =>
    rw [objectOf?,map_eq_pure_bind] at read
    obtain ⟨o,_,there,mapped⟩ := bind_ok read
    obtain ⟨_,_,got,here⟩ := bind_ok there
    cases got
    obtain ⟨here,rfl⟩ := need_ok here
    cases mapped
    refine ⟨h,found,?_⟩
    cases o with
    | closure code captures => exact .inl ⟨code,captures,here,run⟩
    | native name native => exact .inr (.inl ⟨name,native,here,run⟩)
    | struct name labels => exact .inr (.inr ⟨name,labels,here,run⟩)
    | _ => cases run
  | _ =>
    cases read
    cases run

theorem callClosure_ok {closure : Handle} (run : callClosure closure n m = .ok () m') :
    m' = { m with frames := ⟨closure,0,m.stack.size - n⟩ :: m.frames } := by
  have entered : (callClosure closure n).Ensures m
      (fun _ m' => m' = { m with frames := ⟨closure,0,m.stack.size - n⟩ :: m.frames })
      fun _ _ => True := by
    rw [callClosure,ensures_bind,ensures_get]
    cases m.functionOf? closure with
    | none => trivial
    | some code => simp
  exact entered.apply run

theorem callNative_ok {name : Bytes} {native : Native}
    (run : callNative host name native n m = .ok () m') : ∃ value mid,
      (host.call native (m.arguments n).toList).run m = .ok (.ok value) mid ∧
        m'.stack.back? = some value := by
  have applied (run : applyNative host name native n m = .ok () m') : ∃ value mid,
      (host.call native (m.arguments n).toList).run m = .ok (.ok value) mid ∧
        m'.stack.back? = some value := by
    obtain ⟨_,_,read,run⟩ := bind_ok run
    cases read
    dsimp only at run
    split at run
    · obtain ⟨result,mid,called,run⟩ := bind_ok run
      cases result with
      | ok value =>
        obtain ⟨_,_,read,run⟩ := bind_ok run
        cases read
        obtain ⟨_,_,-,pushed⟩ := bind_ok run
        exact ⟨value,mid,called,by rw [push_ok pushed,Array.back?_push]⟩
      | error failure => cases run
    · cases run
  rw [callNative] at run
  cases known : host.arity native with
  | none =>
    rw [known] at run
    exact applied run
  | some expected =>
    rw [known] at run
    dsimp only at run
    split at run
    · cases run
    · exact applied run

theorem construct_ok {callee name : Handle} {labels : List Handle} (intact : m.Intact ∅)
    (found : m.heap.get? callee = some (.struct name labels))
    (run : construct callee name labels n m = .ok () m') : ∃ record, labels.length = n ∧
      m'.heap.get? record = some (.record callee (m.arguments n)) ∧
        m'.stack.back? = some (.object record) := by
  have built : (construct callee name labels n).Ensures m (fun _ m' => ∃ record,
      labels.length = n ∧ m'.heap.get? record = some (.record callee (m.arguments n)) ∧
        m'.stack.back? = some (.object record)) fun _ _ => True := by
    rw [construct,ensures_ite]
    refine ⟨fun _ => by simp,fun count => ?_⟩
    rw [ensures_bind,allocateRecord,ensures_bind,ensures_object found]
    refine .allocate intact (by simp) fun record mid grows placed _ => ?_
    have stack : mid.stack = m.stack := by rw [grows.same]
    rw [ensures_bind,ensures_get,stack,ensures_ite]
    refine ⟨fun room => ?_,fun _ => by simp⟩
    simp only [ensures_bind,ensures_updateObject]
    rw [ensures_shrinkTo (by change _ ≤ mid.stack.size; rw [stack]; omega),ensures_push]
    refine ⟨fun _ => trivial,fun _ => ⟨record,(not_not.mp count).symm,?_,Array.back?_push ..⟩⟩
    change (mid.heap.update record _).get? record = _
    rw [Heap.get?_update,if_pos rfl,placed]
    rfl
  exact built.apply run

end Action

/-! What a call has done when it returns. -/

/-- At stage `u` a call made at stage `t` has returned: for the first time since then there are as many
frames as before. -/
structure Returns (stages : Nat → Stage) (t u : Nat) : Prop where
  later : t < u
  inside : ∀ v, t < v → v < u →
    (stages t).machine.frames.length < (stages v).machine.frames.length
  back : (stages u).machine.frames.length = (stages t).machine.frames.length

/-- The call is over: the result is on top, in the place of the callee, and the frame of the caller is
as it was, after the call. -/
structure Machine.Answered (m : Machine) (n : Nat) (f : Frame) (callers : List Frame) (value : Value)
    (m' : Machine) : Prop where
  frames : m'.frames = { f with ip := f.ip + (Instr.call n).size } :: callers
  size : m'.stack.size + n = m.stack.size
  result : m'.stack.back? = some value
  slots : ∀ p < m.stack.size - 1 - n, (∀ h, ¬m.Opens h p) → m'.stack[p]? = m.stack[p]?

/-- A call that needs no frame is over after one step. -/
theorem Machine.Continues.answered {callers : List Frame} {callee : Handle} {value : Value}
    (continues : m.Continues (.call n) f m') (frames : m.frames = f :: callers)
    (place : m.stack[m.stack.size - 1 - n]? = some (.object callee))
    (other : ∀ code captures, m.heap.get? callee ≠ some (.closure code captures))
    (result : m'.stack.back? = some value) : m.Answered n f callers value m' := by
  cases continues.passes with
  | on target aim after size =>
    obtain rfl := List.mem_singleton.mp aim
    refine ⟨by rw [after,frames]; rfl,?_,result,fun p low shut => ?_⟩
    · change m'.stack.size + (n + 1) = m.stack.size + 1 at size
      omega
    · refine continues.spares.slots p ?_ (by simp) shut
      rw [remains,if_neg (by simp)]
      change p < m.stack.size - (n + 1)
      omega
  | enter k closure call place' found after stack =>
    cases call
    rw [place] at place'
    cases place'
    obtain ⟨code,captures,found⟩ := found
    exact absurd found (other code captures)
  | leave value ret top after stack => cases ret

/-- The step that returns from a call. -/
theorem Machine.Within.answered {callee : Handle} {callers : List Frame} {now : Machine}
    (within : m.Within callee (m.stack.size - n) ({ f with ip := f.ip + (Instr.call n).size } :: callers)
      now) (running : now.Running) (left : Machine.Left (m.stack.size - n)
      ({ f with ip := f.ip + (Instr.call n).size } :: callers) now m') :
    ∃ value, now.stack.back? = some value ∧ m.Answered n f callers value m' := by
  obtain ⟨value,top,stack⟩ := left.result
  obtain ⟨above,ip,frames,-⟩ := within.above
  obtain ⟨positive,guard,-⟩ := running.orderly.guards ⟨callee,ip,m.stack.size - n⟩ (by simp [frames])
  change 1 ≤ m.stack.size - n at positive
  have inside : m.stack.size - n - 1 < now.stack.size := (Array.getElem?_eq_some_iff.mp guard).1
  have left' : (now.stack.shrink (m.stack.size - n - 1)).size = m.stack.size - n - 1 := by
    rw [Array.size_shrink]
    omega
  refine ⟨value,top,left.frames,?_,?_,fun p low shut => ?_⟩
  · rw [stack,Array.size_push,left']
    omega
  · rw [stack,Array.back?_push]
  · rw [stack,Array.getElem?_push,left',if_neg (by omega),getElem?_shrink,if_pos (by omega)]
    exact (within.slots p (by omega) shut).1

section

variable {stages : Nat → Stage} {length t u : Nat}

/-- Between two stages of a run there is a step. -/
theorem History.step (history : History host length stages) (respectful : host.Respectful) {v : Nat}
    (within : v < length) (here : stages v = ⟨.running,m⟩) (there : stages (v + 1) = ⟨.running,m'⟩) :
    Action.step host m = .ok () m' ∧
      ∃ i f, m.next? = some i ∧ f ∈ m.frames.head? ∧ m.Continues i f m' := by
  have moves := history.moves v within
  have good := history.good respectful within.le
  rw [here] at moves good
  rw [there] at moves
  obtain ⟨i,f,next,head,ensures⟩ := Machine.Running.step good respectful
  cases moves with
  | step stepped => exact ⟨stepped,i,f,next,head,ensures.apply stepped⟩

/-- A stage with frames that is not the last belongs to a run. -/
theorem History.active (history : History host length stages) (respectful : host.Respectful) {v : Nat}
    (within : v < length) (active : 0 < (stages v).machine.frames.length) :
    ∃ m, stages v = ⟨.running,m⟩ := by
  have moves := history.moves v within
  have good := history.good respectful within.le
  generalize stages v = s at moves good active
  obtain ⟨phase,m⟩ := s
  cases phase with
  | idle =>
    have empty : m.frames = [] := Machine.Idle.frames good
    simp [empty] at active
  | running => exact ⟨m,rfl⟩
  | failed => cases moves

/-- Until the call returns, the run stays inside. -/
theorem History.inside_call (history : History host length stages) (respectful : host.Respectful)
    (returns : Returns stages t u) (within : u ≤ length) (calling : stages t = ⟨.running,m⟩)
    {callee : Handle} {base : Nat} {rest : List Frame} (count : rest.length = m.frames.length)
    (entered : ∀ first, stages (t + 1) = ⟨.running,first⟩ → m.Within callee base rest first) {v : Nat}
    (after : t + 1 ≤ v) (before : v < u) :
    ∃ now, stages v = ⟨.running,now⟩ ∧ m.Within callee base rest now := by
  have active (v : Nat) (after : t < v) (before : v < u) : ∃ now, stages v = ⟨.running,now⟩ :=
    history.active respectful (by omega) (Nat.zero_lt_of_lt (returns.inside v after before))
  induction v, after using Nat.le_induction with
  | base =>
    obtain ⟨first,there⟩ := active (t + 1) (Nat.lt_succ_self t) before
    exact ⟨first,there,entered first there⟩
  | succ v after ih =>
    obtain ⟨now,here,inside⟩ := ih (by omega)
    obtain ⟨next,there⟩ := active (v + 1) (by omega) before
    obtain ⟨-,i,f,instr,head,continues⟩ := history.step respectful (by omega) here there
    refine ⟨next,there,(inside.step instr head continues).resolve_right fun left => ?_⟩
    have deeper := returns.inside (v + 1) (by omega) before
    rw [there,calling,left.frames,count] at deeper
    exact lt_irrefl _ deeper

/-- A call is followed by a stage of the run, inside the call or behind it. -/
theorem History.follows_call (history : History host length stages) (respectful : host.Respectful)
    (returns : Returns stages t u) (within : u ≤ length) (returned : stages u = ⟨.running,m'⟩) :
    ∃ first, stages (t + 1) = ⟨.running,first⟩ := by
  rcases Nat.eq_or_lt_of_le returns.later with last | before
  · exact ⟨m',by rwa [← last] at returned⟩
  · exact history.active respectful (by omega)
      (Nat.zero_lt_of_lt (returns.inside _ (Nat.lt_succ_self t) before))

/-- A call with a frame of its own returns by leaving that frame. -/
theorem History.leaves_call (history : History host length stages) (respectful : host.Respectful)
    (returns : Returns stages t u) (within : u ≤ length) (calling : stages t = ⟨.running,m⟩)
    {callers : List Frame} (frames : m.frames = f :: callers) {callee : Handle} (before : t + 1 < u)
    (entered : ∀ first, stages (t + 1) = ⟨.running,first⟩ → m.Within callee (m.stack.size - n)
      ({ f with ip := f.ip + (Instr.call n).size } :: callers) first)
    (returned : stages u = ⟨.running,m'⟩) :
    ∃ now value, stages (u - 1) = ⟨.running,now⟩ ∧ now.stack.back? = some value ∧
      Machine.Left (m.stack.size - n) ({ f with ip := f.ip + (Instr.call n).size } :: callers) now m' ∧
      m.Answered n f callers value m' := by
  obtain ⟨now,here,inside⟩ := history.inside_call respectful returns within calling
    (by rw [frames]; rfl) entered (v := u - 1) (by omega) (by omega)
  have running := history.good respectful (t := u - 1) (by omega)
  rw [here] at running
  obtain ⟨-,i,g,instr,head,continues⟩ := history.step respectful (v := u - 1) (by omega) here
    (by rwa [Nat.sub_add_cancel (by omega)])
  have left := (inside.step instr head continues).resolve_left fun still => by
    have back := returns.back
    have deeper := still.above.length
    rw [returned,calling,frames] at back
    exact Nat.ne_of_gt deeper back
  obtain ⟨value,top,answered⟩ := inside.answered running left
  exact ⟨now,value,here,top,left,answered⟩

/-- When a call returns, its result has taken the place of the callee and the arguments, every slot
below is as it was unless a cell was open for it, and its caller goes on behind it. -/
theorem History.calls_return (history : History host length stages) (respectful : host.Respectful)
    (within : u ≤ length) (calling : stages t = ⟨.running,m⟩) (next : m.next? = some (.call n))
    (returns : Returns stages t u) (returned : stages u = ⟨.running,m'⟩) :
    ∃ f callers callee value, m.frames = f :: callers ∧
      m.stack[m.stack.size - 1 - n]? = some (.object callee) ∧
      m.Answers host n callee (stages (u - 1)).machine m' value ∧
      m.Answered n f callers value m' := by
  have later := returns.later
  have good := history.good respectful (t := t) (by omega)
  rw [calling] at good
  obtain ⟨s,i,read,frames,fetched,poised⟩ := Machine.Running.fetch good
  rw [next] at read
  cases read
  obtain ⟨first,entered⟩ := history.follows_call respectful returns within returned
  obtain ⟨stepped,j,f,same,head,continues⟩ := history.step respectful (by omega) calling entered
  rw [next] at same
  cases same
  rw [frames] at head
  cases head
  obtain ⟨i,mid,fetched',run⟩ := bind_ok stepped
  rw [fetched] at fetched'
  cases fetched'
  obtain ⟨callee,place,kinds⟩ := call_ok run
  suffices done : ∃ value, m.Answers host n callee (stages (u - 1)).machine m' value ∧
      m.Answered n (s.frame s.ip) s.callers value m' by
    obtain ⟨value,answers,answered⟩ := done
    exact ⟨_,_,callee,value,frames,place,answers,answered⟩
  -- Without a frame of its own the callee has answered at once.
  have once {value : Value} (answered : m.Answered n (s.frame s.ip) s.callers value first) :
      first = m' := by
    rcases Nat.eq_or_lt_of_le later with last | before
    · rw [← last,entered] at returned
      cases returned
      rfl
    · have deeper := returns.inside _ (Nat.lt_succ_self t) before
      rw [entered,calling,answered.frames,frames] at deeper
      simp at deeper
  rcases kinds with ⟨code,captures,found,run⟩ | ⟨name,native,found,run⟩ | ⟨name,labels,found,run⟩
  · have deep := callClosure_ok run
    have before : t + 1 < u := by
      refine Nat.lt_of_le_of_ne later fun last => ?_
      have back := returns.back
      rw [← last,entered,calling,deep,frames] at back
      simp at back
    have begun (again : Machine) (same : stages (t + 1) = ⟨.running,again⟩) :
        m.Within callee (m.stack.size - n) (s.frame (s.ip + (Instr.call n).size) :: s.callers)
          again := by
      rw [entered] at same
      cases same
      rw [deep]
      exact ⟨⟨[],0,rfl,by simp⟩,fun p low shut => ⟨rfl,shut⟩⟩
    obtain ⟨now,value,here,top,left,answered⟩ :=
      history.leaves_call respectful returns within calling frames before begun returned
    refine ⟨value,?_,answered⟩
    rw [here]
    exact .closure found (by rw [left.inside,frames]; rfl) left.ends top
  · obtain ⟨value,done,called,top⟩ := callNative_ok run
    have answered := continues.answered frames place (by simp [found]) top
    obtain rfl := once answered
    have same : ({ m with frames := s.frame (s.ip + (Instr.call n).size) :: s.callers } : Machine) =
        { m with frames := first.frames } := by rw [answered.frames]; rfl
    exact ⟨value,.native found (same ▸ called),answered⟩
  · obtain ⟨record,count,made,top⟩ := construct_ok poised.intact found run
    have answered := continues.answered frames place (by simp [found]) top
    obtain rfl := once answered
    exact ⟨.object record,.struct found count made,answered⟩

end

/-- The machine after so many steps. -/
def Machine.advance (host : Host) (m : Machine) : Nat → Machine
  | 0 => m
  | k + 1 => (m.advance host k).after (Action.step host)

/-- A new machine that starts a program and takes steps. -/
def History.started (host : Host) (begun : Machine) : Nat → Stage
  | 0 => ⟨.idle,.new .standard 0⟩
  | k + 1 => ⟨.running,begun.advance host k⟩

theorem History.started_succ (host : Host) (begun : Machine) (k : Nat) :
    History.started host begun (k + 1) = ⟨.running,begun.advance host k⟩ := rfl

theorem History.of_steps {source : Source} {chunk : Chunk} {begun : Machine} {length : Nat}
    (compiled : source.compile = .ok chunk)
    (starts : Action.start chunk (.new .standard 0) = .ok () begun)
    (steps : ∀ k < length, ((Action.step host).result? (begun.advance host k)).isSome) :
    History host (length + 1) (History.started host begun) := by
  refine ⟨⟨.standard,0,rfl⟩,fun t within => ?_⟩
  cases t with
  | zero => exact .start compiled starts
  | succ k =>
    obtain ⟨m',found⟩ := Option.isSome_iff_exists.mp (steps k (by omega))
    obtain ⟨_,stepped⟩ := result?_eq_some.mp found
    have next : begun.advance host (k + 1) = m' := Machine.after_ok stepped
    rw [History.started,History.started,next]
    exact .step stepped

/-- A call within a call: the callee calls itself and sets a local variable of its caller, which it has
captured. -/
theorem History.calls_return_nested : ∃ stages m m', History .standard 24 stages ∧
    stages 5 = ⟨.running,m⟩ ∧ m.next? = some (.call 1) ∧ Returns stages 5 24 ∧
    stages 24 = ⟨.running,m'⟩ ∧ ∃ f callers callee value, m.frames = f :: callers ∧
      m.stack[m.stack.size - 1 - 1]? = some (.object callee) ∧
      m.Answers .standard 1 callee (stages 23).machine m' value ∧
      m.Answered 1 f callers value m' := by
  let source := Source.ofText (ascii
    "\x7b var x = nil; fun f(b) \x7b if b \x7b f(false); \x7d x = b; return b; \x7d f(true); \x7d")
  have computed : (source.compile.toOption.bind fun chunk =>
      ((Action.start chunk).result? (.new .standard 0)).map fun begun =>
        decide ((∀ k < 23, ((Action.step .standard).result? (begun.advance .standard k)).isSome) ∧
          (begun.advance .standard 4).next? = some (.call 1) ∧
          (∀ k < 18, 1 < (begun.advance .standard (k + 5)).frames.length) ∧
          (begun.advance .standard 4).frames.length = 1 ∧
          (begun.advance .standard 23).frames.length = 1)) = some true := by
    decide +kernel
  obtain ⟨chunk,accepted,started⟩ := Option.bind_eq_some_iff.mp computed
  have compiled := toOption_eq_some.mp accepted
  obtain ⟨begun,run,holds⟩ := Option.map_eq_some_iff.mp started
  obtain ⟨steps,next,above,before,after⟩ := of_decide_eq_true holds
  obtain ⟨_,starts⟩ := result?_eq_some.mp run
  have history := History.of_steps compiled starts steps
  have returns : Returns (History.started .standard begun) 5 24 := by
    refine ⟨by decide,fun v late early => ?_,after.trans before.symm⟩
    obtain ⟨k,rfl⟩ : ∃ k, v = k + 5 + 1 := ⟨v - 6,by omega⟩
    exact before.trans_lt (above k (by omega))
  have calling := History.started_succ .standard begun 4
  have returned := History.started_succ .standard begun 23
  have done := history.calls_return Host.standard_respectful le_rfl calling next returns returned
  refine ⟨_,_,_,history,calling,next,returns,returned,?_⟩
  exact done

end ScriptMachine
