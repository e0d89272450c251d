import Mathlib
import ScriptMachine.Proofs.Execution

/-! The effect of each instruction on a script without functions: what an evaluation does at that
point, or nothing that it knows of. -/
namespace ScriptMachine.Code

open ScriptMachine.Action

variable {code : Code} {host : Host} {least o n d : Nat} {exits : Option Exits}
  {names : List (List Bytes)} {temps : List Value} {p : Place} {w w' : World} {m : Machine}
  {i : Instr} {value left right : Value} {α : Type} {x : Evaluation α} {q : α → Place} {a : α}

/-! Leaving values on the stack. -/

/-- A value goes onto the stack, if there is room for it. -/
theorem Stands.push (stands : code.Stands p w' m) (run : x w = .ok a w')
    (avoids : value.Avoids code.hidden) (there : q a = ⟨p.offset,p.names,value :: p.temps⟩) :
    (push value).Answers m x w fun a w' m' => code.Stands (q a) w' m' := by
  obtain rfl := stands.here
  refine ensures_push.mpr ⟨fun _ => .inl rfl,fun _ => ⟨a,w',run,?_⟩⟩
  change code.Stands (q a) w' _
  rw [there]
  exact stands.lay p.offset (List.forall_mem_cons.mpr ⟨avoids,stands.temps⟩)

/-- The machine behind the instruction that has just been read. -/
theorem Turn.next (turn : code.Turn host p i w) :
    code.Stands ⟨p.offset + i.size,p.names,p.temps⟩ w
      (code.state (p.offset + i.size) w p.temps) :=
  turn.stands.lay _ turn.stands.temps

/-- A fault leaves the machine as it is. -/
theorem refuses {offset : Nat} {f : RuntimeFault} {trace : List TraceEntry}
    (run : x w = .error (.fault f) w) :
    Refuses x w (.fault ⟨f,trace⟩) (code.state offset w temps) :=
  .inr ⟨w,run,rfl⟩

/-- The values below the topmost one. -/
theorem Turn.rest (turn : code.Turn host ⟨o,names,value :: temps⟩ i w) :
    ∀ v ∈ temps, v.Avoids code.hidden :=
  fun v member => turn.stands.temps v (List.mem_cons_of_mem _ member)

/-- An instruction that only pushes a value. -/
theorem Does.push (found : code.chunk.instr? o = some i)
    (pushes : Action.execute host i = Action.push value) (avoids : value.Avoids code.hidden) (a : α) :
    code.Does host least exits ⟨o,names,temps⟩ (Pure.pure a)
      fun _ => ⟨o + i.size,names,value :: temps⟩ := by
  refine .instr found fun w turn => ?_
  rw [pushes]
  exact turn.next.push rfl avoids rfl

theorem Does.loadNumber {number : Float} (found : code.chunk.instr? o = some (.loadConstant n))
    (known : code.chunk.constants[n]? = some (.number number)) :
    code.Does host least exits ⟨o,names,temps⟩ (Pure.pure (.number number))
      fun value => ⟨o + 5,names,value :: temps⟩ := by
  refine .instr found fun w turn => ?_
  obtain ⟨value,there,rfl⟩ := turn.loaded known
  refine ensures_bind.mpr ?_
  rw [ensures_constant rfl turn.stands.function there]
  exact turn.next.push rfl (by simp) rfl

theorem intern_known {text : Bytes} {h : Handle} (known : w.store.heap.find? text = some h) :
    Evaluation.intern text w = .ok h w := by
  have first : Evaluation.heap w = .ok w.store.heap w := rfl
  rw [Evaluation.intern,run_bind_ok first,known]
  rfl

theorem string_known {text : Bytes} {h : Handle} (known : w.store.heap.find? text = some h) :
    Evaluation.string text w = .ok (.object h) w :=
  run_bind_ok (intern_known known)

theorem Does.loadString {text : Bytes} (found : code.chunk.instr? o = some (.loadConstant n))
    (known : code.chunk.constants[n]? = some (.string text)) :
    code.Does host least exits ⟨o,names,temps⟩ (Evaluation.string text)
      fun value => ⟨o + 5,names,value :: temps⟩ := by
  refine .instr found fun w turn => ?_
  obtain ⟨h,there,interned,string⟩ := turn.named known
  refine ensures_bind.mpr ?_
  rw [ensures_constant rfl turn.stands.function there]
  refine turn.next.push (a := .object h) (string_known interned) ?_ rfl
  exact Value.avoids_object.mpr (turn.stands.shuns.string string)

theorem Does.duplicate (found : code.chunk.instr? o = some .duplicate) :
    code.Does host least exits ⟨o,names,value :: temps⟩ (Pure.pure ())
      fun _ => ⟨o + 1,names,value :: value :: temps⟩ := by
  refine .instr found fun w turn => ?_
  refine ensures_bind.mpr ((ensures_peek rfl).mpr ?_)
  exact turn.next.push rfl (turn.stands.temps value List.mem_cons_self) rfl

/-- The topmost value goes. -/
theorem Turn.pop (turn : code.Turn host ⟨o,names,value :: temps⟩ i w) (run : x w = .ok a w)
    (there : q a = ⟨o + i.size,names,temps⟩) :
    Action.pop.Answers (code.state (o + i.size) w (value :: temps)) x w
      fun a w' m' => code.Stands (q a) w' m' := by
  refine ensures_pop.mpr ⟨a,w,run,?_⟩
  change code.Stands (q a) w _
  rw [there]
  exact turn.stands.lay _ turn.rest

theorem Does.pop (found : code.chunk.instr? o = some .pop) :
    code.Does host least exits ⟨o,names,value :: temps⟩ (Pure.pure ())
      fun _ => ⟨o + 1,names,temps⟩ :=
  .instr found fun _ turn => turn.pop rfl rfl

theorem Does.print (found : code.chunk.instr? o = some .print) :
    code.Does host least exits ⟨o,names,value :: temps⟩ (Evaluation.print value)
      fun _ => ⟨o + 1,names,temps⟩ := by
  refine .instr found fun w turn => ?_
  refine ensures_bind.mpr ((ensures_peek rfl).mpr ?_)
  refine ensures_bind.mpr (ensures_text.mpr ?_)
  refine ensures_bind.mpr (ensures_write.mpr ?_)
  change Ensures Action.pop (code.state (o + 1)
    (w.write (w.store.heap.text value ++ [Byte.lineFeed])) (value :: temps)) _ _
  refine ensures_pop.mpr ⟨(),_,rfl,?_⟩
  exact turn.stands.setStore (o + 1) { turn.stands.plain with } turn.stands.function
    (turn.stands.shuns.of_eq rfl rfl) turn.rest

/-- A machine without open cells has none to close. -/
theorem ensures_closeCells (plain : w.store.Plain) {offset place : Nat}
    {stop : Stop → Machine → Prop} {ok : Unit → Machine → Prop} :
    Ensures (closeCells place) (code.state offset w temps) ok stop ↔
      ok () (code.state offset w temps) := by
  have none : (code.state offset w temps).openCells = [] := plain.openCells
  rw [closeCells,ensures_bind,ensures_get,ensures_bind,none,closeFrom,ensures_pure,ensures_modify]
  have same : { code.state offset w temps with openCells := [] } = code.state offset w temps := by
    rw [← none]
  rw [same]

/-- Closing a cell that is not open only takes the value off the stack. -/
theorem Does.closeCell (found : code.chunk.instr? o = some .closeCell) :
    code.Does host least exits ⟨o,names,value :: temps⟩ (Pure.pure ())
      fun _ => ⟨o + 1,names,temps⟩ := by
  refine .instr found fun w turn => ?_
  refine ensures_bind.mpr (ensures_get.mpr ?_)
  rw [if_neg (by simp [state])]
  exact ensures_bind.mpr ((ensures_closeCells turn.stands.plain).mpr (turn.pop rfl rfl))

/-! Jumps. -/

/-- The machine may go on elsewhere. -/
theorem Does.jump (found : code.chunk.instr? o = some (.jump n)) :
    code.Does host least exits ⟨o,names,temps⟩ (Pure.pure ())
      fun _ => ⟨o + 5 + n,names,temps⟩ := by
  refine .instr found fun w turn => (ensures_modifyFrame rfl).mpr ⟨(),w,rfl,?_⟩
  exact turn.stands.lay (o + 5 + n) turn.stands.temps

/-- A jump back takes one step. -/
theorem Stands.jumpBack (stands : code.Stands ⟨o,names,temps⟩ w m)
    (found : code.chunk.instr? o = some (.jumpBack n)) {target : Nat} (there : o + 5 = target + n) :
    ∃ m', m.Takes host 1 m' ∧ code.Stands ⟨target,names,temps⟩ w m' := by
  have low : n ≤ o + (Instr.jumpBack n).size := there ▸ Nat.le_add_left n target
  obtain rfl : target = o + (Instr.jumpBack n).size - n := Nat.eq_sub_of_add_eq there.symm
  have jumps : (Action.execute host (.jumpBack n)).Ensures
      (code.state (o + (Instr.jumpBack n).size) w temps)
      (fun _ m' => m' = code.state (o + (Instr.jumpBack n).size - n) w temps) fun _ _ => False := by
    refine ensures_bind.mpr (ensures_frame.mpr ?_)
    dsimp only
    rw [if_pos low]
    exact (ensures_modifyFrame rfl).mpr rfl
  obtain ⟨_,_,stepped,rfl⟩ := jumps.succeeds
  obtain rfl := stands.here
  refine ⟨_,.succ ((step_at stands.function found).trans stepped) (.zero _),?_⟩
  exact stands.lay _ stands.temps

theorem Does.jumpIf {b : Bool} (found : code.chunk.instr? o = some (.jumpIf b n)) :
    code.Does host least exits ⟨o,names,value :: temps⟩ (Evaluation.truth value)
      fun holds => ⟨if holds = b then o + 5 + n else o + 5,names,temps⟩ := by
  refine .instr found fun w turn => ?_
  refine ensures_bind.mpr ((ensures_peek rfl).mpr ?_)
  cases value with
  | bool holds =>
    refine ensures_bind.mpr (ensures_pop.mpr ?_)
    refine ensures_ite.mpr ⟨fun same => ?_,fun other => ?_⟩
    · refine (ensures_modifyFrame rfl).mpr ⟨holds,w,rfl,?_⟩
      change code.Stands ⟨if holds = b then o + 5 + n else o + 5,names,temps⟩ w _
      rw [if_pos same]
      exact turn.stands.lay (o + 5 + n) turn.rest
    · refine ⟨holds,w,rfl,?_⟩
      change code.Stands ⟨if holds = b then o + 5 + n else o + 5,names,temps⟩ w _
      rw [if_neg other]
      exact turn.stands.lay (o + 5) turn.rest
  | number n => exact refuses rfl
  | nil => exact refuses rfl
  | object h => exact refuses rfl

/-! Operators. -/

/-- The topmost value is replaced. -/
theorem Turn.replace (turn : code.Turn host ⟨o,names,value :: temps⟩ i w) {result : Value}
    (run : x w = .ok a w) (avoids : result.Avoids code.hidden)
    (there : q a = ⟨o + i.size,names,result :: temps⟩) :
    (replaceTop result).Answers (code.state (o + i.size) w (value :: temps)) x w
      fun a w' m' => code.Stands (q a) w' m' := by
  refine ensures_replaceTop.mpr ⟨a,w,run,?_⟩
  change code.Stands (q a) w _
  rw [there]
  exact turn.stands.lay _ (List.forall_mem_cons.mpr ⟨avoids,turn.rest⟩)

theorem Does.unary {op : UnaryOp} (found : code.chunk.instr? o = some (.unary op)) :
    code.Does host least exits ⟨o,names,value :: temps⟩ (Evaluation.unary op value)
      fun result => ⟨o + 1,names,result :: temps⟩ := by
  refine .instr found fun w turn => ?_
  refine ensures_bind.mpr ((ensures_peek rfl).mpr ?_)
  cases op with
  | negate =>
    cases value with
    | number n => exact turn.replace rfl (by simp) rfl
    | bool b => exact refuses rfl
    | nil => exact refuses rfl
    | object h => exact refuses rfl
  | not =>
    cases value with
    | number n => exact refuses rfl
    | bool b => exact turn.replace rfl (by simp) rfl
    | nil => exact refuses rfl
    | object h => exact refuses rfl

/-- The two topmost values are replaced. -/
theorem Stands.finishBinary (stands : code.Stands ⟨o,names,right :: left :: temps⟩ w' m)
    {result : Value} (run : x w = .ok a w') (avoids : result.Avoids code.hidden)
    (there : q a = ⟨o,names,result :: temps⟩) :
    (finishBinary result).Answers m x w fun a w' m' => code.Stands (q a) w' m' := by
  obtain rfl := stands.here
  refine ensures_finishBinary.mpr ⟨a,w',run,?_⟩
  change code.Stands (q a) w' _
  rw [there]
  refine stands.lay o (List.forall_mem_cons.mpr ⟨avoids,fun v member => stands.temps v ?_⟩)
  exact List.mem_cons_of_mem _ (List.mem_cons_of_mem _ member)

theorem intern_new {text : Bytes} (unknown : w.store.heap.find? text = none) :
    Evaluation.intern text w =
      .ok (w.store.heap.insertString text).1 (w.setHeap (w.store.heap.insertString text).2) := by
  have first : Evaluation.heap w = .ok w.store.heap w := rfl
  rw [Evaluation.intern,run_bind_ok first,unknown]
  rfl

theorem string_new {text : Bytes} (unknown : w.store.heap.find? text = none) :
    Evaluation.string text w = .ok (.object (w.store.heap.insertString text).1)
      (w.setHeap (w.store.heap.insertString text).2) :=
  run_bind_ok (intern_new unknown)

theorem avoids_arithmetic (op : BinaryOp) (a b : Float) (hidden : Set Handle) :
    (arithmetic op a b).Avoids hidden := by
  cases op <;> simp [arithmetic]

theorem ensures_stringOf? {ok : Option Bytes → Machine → Prop} {stop : Stop → Machine → Prop}
    (held : w.store.heap.Holds value) : Ensures (stringOf? value) (code.state o w temps) ok stop ↔
      ok (w.store.heap.string? value) (code.state o w temps) :=
  Action.ensures_stringOf? held

/-- The joined string may be there already. -/
theorem Turn.join (turn : code.Turn host ⟨o,names,right :: left :: temps⟩ i w) (text : Bytes) :
    (allocateString text >>= fun joined => finishBinary (.object joined)).Quietly
      (code.state (o + i.size) w (right :: left :: temps)) (Evaluation.string text) w
      fun result w' m' => code.Stands ⟨o + i.size,names,result :: temps⟩ w' m' := by
  cases known : w.store.heap.find? text with
  | some h =>
    have string := (turn.tidy.interned text h).mp known
    have found : Action.allocateString text (code.state (o + i.size) w (right :: left :: temps)) =
        .ok h (code.state (o + i.size) w (right :: left :: temps)) := by
      have same : (code.state (o + i.size) w (right :: left :: temps)).heap.find? text = some h :=
        known
      rw [Action.allocateString]
      change EStateM.bind _ _ _ = _
      simp only [EStateM.bind,get,getThe,MonadStateOf.get,EStateM.get,same]
      rfl
    refine ensures_bind.mpr (.of_ok found ?_)
    refine (turn.next.finishBinary (string_known known) ?_ rfl).quietly
    exact Value.avoids_object.mpr (turn.stands.shuns.string string)
  | none =>
    refine ensures_allocateString known (fun h => frugal_finishBinary _) ?_
    obtain ⟨-,vacant,found,others⟩ := Heap.insertString_spec turn.tidy known rfl
    obtain ⟨visible,stands⟩ :=
      turn.stands.insert vacant found others (by simp) (by simp [Object.references])
    have next := stands (o + i.size) _ turn.stands.temps
    exact (next.finishBinary (string_new known) (Value.avoids_object.mpr visible) rfl).quietly

/-- Strings can be joined and ordered. -/
theorem Turn.binaryStrings (turn : code.Turn host ⟨o,names,right :: left :: temps⟩ i w)
    (op : BinaryOp) : (binaryStrings op left right).Quietly
      (code.state (o + i.size) w (right :: left :: temps)) (Evaluation.strings op left right) w
      fun result w' m' => code.Stands ⟨o + i.size,names,result :: temps⟩ w' m' := by
  have leftHeld : w.store.heap.Holds left := turn.holds (by simp)
  have rightHeld : w.store.heap.Holds right := turn.holds (by simp)
  have looks : Evaluation.heap w = .ok w.store.heap w := rfl
  refine ensures_bind.mpr ((ensures_stringOf? leftHeld).mpr ?_)
  refine ensures_bind.mpr ((ensures_stringOf? rightHeld).mpr ?_)
  cases first : w.store.heap.string? left with
  | none =>
    refine fun _ => refuses ?_
    rw [Evaluation.strings,run_bind_ok looks,first]
    rfl
  | some a =>
    cases second : w.store.heap.string? right with
    | none =>
      refine fun _ => refuses ?_
      rw [Evaluation.strings,run_bind_ok looks,first,second]
      rfl
    | some b =>
      dsimp only
      by_cases add : op = .add
      · have run : Evaluation.strings op left right w = Evaluation.string (a ++ b) w := by
          rw [Evaluation.strings,run_bind_ok looks,first,second]
          simp [add]
        rw [if_pos add]
        exact (turn.join (a ++ b)).of_eq run
      · rw [if_neg add]
        cases compared : comparison? op a b with
        | some result =>
          have run : Evaluation.strings op left right w = .ok (.bool result) w := by
            rw [Evaluation.strings,run_bind_ok looks,first,second]
            simp only [if_neg add,compared]
            rfl
          exact (turn.next.finishBinary run (by simp) rfl).quietly
        | none =>
          refine fun _ => refuses ?_
          rw [Evaluation.strings,run_bind_ok looks,first,second]
          simp only [if_neg add,compared]
          rfl

theorem Does.binary {op : BinaryOp} (found : code.chunk.instr? o = some (.binary op)) :
    code.Does host least exits ⟨o,names,right :: left :: temps⟩ (Evaluation.binary op left right)
      fun result => ⟨o + 1,names,result :: temps⟩ := by
  refine .instr found fun w turn => turn.quietly ?_
  refine ensures_bind.mpr ((ensures_peek rfl).mpr ?_)
  refine ensures_bind.mpr ((ensures_peek rfl).mpr ?_)
  have next := turn.next
  split
  · have run : Evaluation.binary .equal left right w = .ok (.bool (left.equals right)) w := rfl
    exact (next.finishBinary run (by simp) rfl).quietly
  · have run : Evaluation.binary .notEqual left right w = .ok (.bool !left.equals right) w := rfl
    exact (next.finishBinary run (by simp) rfl).quietly
  next a b notEqual notUnequal =>
    have run := congrFun (Evaluation.binary.eq_3 op a b notEqual notUnequal) w
    exact (next.finishBinary run (avoids_arithmetic op a b _) rfl).quietly
  next notEqual notUnequal notNumbers =>
    rw [Evaluation.binary.eq_4 op left right notEqual notUnequal notNumbers]
    exact turn.binaryStrings op

end ScriptMachine.Code
