import Mathlib
import ScriptMachine.Proofs.Variables

/-! Records and calls in a script. The evaluation compares fields by their texts and the machine by
their handles, which is the same because strings are interned. A new record goes into the heap empty
and gets its fields afterwards. -/
namespace ScriptMachine

open ScriptMachine.Action

namespace Heap

variable {heap : Heap} {h : Handle}

/-- An object may be changed as soon as it is there. -/
theorem update_insert (heap : Heap) (object other : Object) (size : Nat) :
    (heap.insert object size).2.update (heap.insert object size).1 (fun _ => other) =
      (heap.insert other size).2 := by
  rw [insert,insert]
  cases heap.free with
  | nil =>
    simp only [update,Heap.mk.injEq,true_and,and_true]
    apply Array.ext (by simp)
    intro i bound bound'
    simp only [Array.size_push] at bound'
    simp only [Array.getElem_modify,Array.getElem_push]
    split <;> split <;> first | rfl | omega
  | cons index free =>
    simp only [update,Heap.mk.injEq,true_and,and_true]
    apply Array.ext (by simp)
    intro i bound bound'
    have inside : i < heap.slots.size := by simpa using bound'
    rw [Array.getElem_modify,Array.getElem_setIfInBounds inside,Array.getElem_setIfInBounds inside]
    split <;> rfl

theorem insert_handle (heap : Heap) (object other : Object) (size : Nat) :
    (heap.insert object size).1 = (heap.insert other size).1 := by
  rw [insert,insert]
  cases heap.free <;> rfl

/-- The value is no record. -/
def Unstructured (heap : Heap) (value : Value) : Prop :=
  ∀ struct fields, value.handle?.bind heap.get? ≠ some (.record struct fields)

theorem record_or (heap : Heap) (value : Value) :
    (∃ h struct fields, value = .object h ∧ heap.get? h = some (.record struct fields)) ∨
      heap.Unstructured value := by
  by_cases record : ∃ struct fields, value.handle?.bind heap.get? = some (.record struct fields)
  · obtain ⟨struct,fields,found⟩ := record
    cases value with
    | object h => exact .inl ⟨h,struct,fields,rfl,found⟩
    | _ => contradiction
  · exact .inr fun struct fields found => record ⟨struct,fields,found⟩

end Heap

namespace Code

variable {code : Code} {host : Host} {least o n : Nat} {exits : Option Exits}
  {names : List (List Bytes)} {temps : List Value} {p : Place} {w : World} {i : Instr}
  {value target : Value} {name : Bytes} {α : Type} {x : Evaluation α} {q : α → Place} {a : α}
  {h struct : Handle} {fields : Array Value}

/-! Fields. -/

section

variable {stop : Stop → Machine → Prop} {ok : Option (Handle × Array Value) → Machine → Prop}

theorem ensures_record (found : w.store.heap.get? h = some (.record struct fields)) :
    Ensures (record? (.object h)) (code.state o w temps) ok stop ↔
      ok (some (struct,fields)) (code.state o w temps) := by
  have here : (code.state o w temps).heap.get? h = some (.record struct fields) := found
  rw [Action.record?,ensures_bind,ensures_objectOf? (Heap.holds_object here)]
  simp [Value.handle?,here]

theorem ensures_unstructured (held : w.store.heap.Holds value)
    (other : w.store.heap.Unstructured value) :
    Ensures (record? value) (code.state o w temps) ok stop ↔ ok none (code.state o w temps) := by
  have there : (code.state o w temps).heap.Holds value := held
  rw [Action.record?,ensures_bind,ensures_objectOf? there]
  split
  next found => exact absurd found (other _ _)
  next => rfl

end

/-- A record has a value for each field of its struct, and the fields have names. -/
theorem Turn.shaped (turn : code.Turn host p i w)
    (found : w.store.heap.get? h = some (.record struct fields)) :
    ∃ title labels, w.store.heap.get? struct = some (.struct title labels) ∧
      fields.size = labels.length ∧ ∀ f ∈ labels, w.store.heap.IsString f := by
  obtain ⟨⟨labels,⟨title,here⟩,count⟩,-⟩ := turn.valid found
  obtain ⟨-,each⟩ := turn.valid here
  exact ⟨title,labels,here,count,each⟩

/-- The place of a field, with what comes next. -/
theorem Turn.ensures_fieldIndex (turn : code.Turn host p i w) {label : Handle} {title : Handle}
    {labels : List Handle} {offset : Nat} {ok : Nat → Machine → Prop}
    {stop : Stop → Machine → Prop} (shape : w.store.heap.get? struct = some (.struct title labels))
    (string : w.store.heap.get? label = some (.string name))
    (next : ∀ index < labels.length, Evaluation.fieldIndex struct name w = .ok index w →
      ok index (code.state offset w temps))
    (missing : ∀ f trace, Evaluation.fieldIndex struct name w = .error (.fault f) w →
      stop (.fault ⟨f,trace⟩) (code.state offset w temps)) :
    Ensures (fieldIndex struct label) (code.state offset w temps) ok stop := by
  have looks : Evaluation.heap w = .ok w.store.heap w := rfl
  have there : (code.state offset w temps).heap.get? struct = some (.struct title labels) := shape
  obtain ⟨-,each⟩ := turn.valid shape
  have same := Heap.findIdx?_label turn.tidy each string
  rw [Action.fieldIndex,ensures_bind,ensures_object there]
  dsimp only
  cases known : labels.findIdx? (· = label) with
  | some index =>
    refine next index (List.findIdx?_eq_some_iff_getElem.mp known).1 ?_
    rw [Evaluation.fieldIndex,run_bind_ok looks,shape]
    dsimp only
    rw [same,known]
    rfl
  | none =>
    dsimp only
    rw [ensures_bind,Action.ensures_nameText,ensures_bind,ensures_nameText string]
    refine missing _ _ ?_
    rw [Evaluation.fieldIndex,run_bind_ok looks,shape]
    dsimp only
    rw [same,known]
    rfl

theorem getField_record (found : w.store.heap.get? h = some (.record struct fields)) :
    Evaluation.getField (.object h) name w = (do
      match fields[← Evaluation.fieldIndex struct name]? with
      | some value => return value
      | none => throw .stuck : Evaluation Value) w := by
  have looks : Evaluation.heap w = .ok w.store.heap w := rfl
  rw [Evaluation.getField,run_bind_ok looks]
  have record : (Value.object h).handle?.bind w.store.heap.get? = some (.record struct fields) := found
  generalize (Value.object h).handle?.bind w.store.heap.get? = target at record
  subst record
  rfl

theorem getField_other (other : w.store.heap.Unstructured target) :
    Evaluation.getField target name w =
      .error (.fault (.getFieldOf name (w.store.heap.typeName target))) w := by
  have looks : Evaluation.heap w = .ok w.store.heap w := rfl
  rw [Evaluation.getField,run_bind_ok looks]
  cases found : target.handle?.bind w.store.heap.get? with
  | none => rfl
  | some o =>
    cases o with
    | record struct fields => exact absurd found (other struct fields)
    | _ => rfl

theorem Does.getField (found : code.chunk.instr? o = some (.getField n))
    (known : code.chunk.constants[n]? = some (.string name)) :
    code.Does host least exits ⟨o,names,target :: temps⟩ (Evaluation.getField target name)
      fun result => ⟨o + 5,names,result :: temps⟩ := by
  refine .instr found fun w turn => ?_
  have held : w.store.heap.Holds target := turn.holds List.mem_cons_self
  refine turn.ensures_named known fun label interned string => ?_
  refine ensures_bind.mpr ((ensures_peek rfl).mpr ?_)
  rcases w.store.heap.record_or target with ⟨h,struct,fields,rfl,record⟩ | other
  · obtain ⟨title,labels,shape,count,-⟩ := turn.shaped record
    refine ensures_bind.mpr ((ensures_record record).mpr ?_)
    refine ensures_bind.mpr (turn.ensures_fieldIndex shape string ?_ fun f trace run => ?_)
    · intro index inside run
      have bound : index < fields.size := by omega
      have there := Array.getElem?_eq_getElem bound
      refine ensures_bind.mpr ?_
      rw [there,ensures_some]
      refine turn.replace (a := fields[index]) ?_ ?_ rfl
      · rw [getField_record record,run_bind_ok run,there]
        rfl
      · rintro r same member
        have visible : h ∉ code.hidden :=
          Value.avoids_object.mp (turn.stands.temps _ List.mem_cons_self)
        refine (turn.stands.shuns.objects h visible _ record).2 r ?_ member
        exact List.mem_cons_of_mem _ (Object.mem_handles.mpr (same ▸ Array.getElem_mem bound))
    · exact refuses ((getField_record record).trans (run_bind_error run))
  · refine ensures_bind.mpr ((ensures_unstructured held other).mpr ?_)
    refine ensures_bind.mpr ((ensures_nameText string).mpr ?_)
    exact ensures_bind.mpr (ensures_typeName.mpr (refuses (getField_other other)))

theorem setField_record (found : w.store.heap.get? h = some (.record struct fields)) :
    Evaluation.setField (.object h) name value w = (do
      Evaluation.setHeap (w.store.heap.update h
        (setFieldAt (← Evaluation.fieldIndex struct name) value))
      return value : Evaluation Value) w := by
  have looks : Evaluation.heap w = .ok w.store.heap w := rfl
  rw [Evaluation.setField,run_bind_ok looks]
  simp only [Value.handle?,Option.bind_some,found]

theorem setField_other (other : w.store.heap.Unstructured target) :
    Evaluation.setField target name value w =
      .error (.fault (.setFieldOf name (w.store.heap.typeName target))) w := by
  have looks : Evaluation.heap w = .ok w.store.heap w := rfl
  rw [Evaluation.setField,run_bind_ok looks]
  cases target with
  | object h =>
    cases found : w.store.heap.get? h with
    | none => simp only [Value.handle?,Option.bind_some,found]; rfl
    | some o =>
      cases o with
      | record struct fields => exact absurd found (other struct fields)
      | _ => simp only [Value.handle?,Option.bind_some,found]; rfl
  | _ => rfl

/-- A field of a record that the script can see gets a value that it can see as well. -/
theorem Turn.changed (turn : code.Turn host ⟨o,names,.object h :: value :: temps⟩ i w)
    (found : w.store.heap.get? h = some (.record struct fields)) (index offset : Nat)
    {rest : List Value} (avoids : ∀ v ∈ rest, v.Avoids code.hidden) :
    code.Stands ⟨offset,names,rest⟩
      (w.setHeap (w.store.heap.update h (setFieldAt index value)))
      (code.state offset (w.setHeap (w.store.heap.update h (setFieldAt index value))) rest) := by
  have visible : h ∉ code.hidden :=
    Value.avoids_object.mp (turn.stands.temps _ List.mem_cons_self)
  refine turn.stands.setStore offset { turn.stands.plain with } ?_
    (turn.stands.shuns.update visible ?_ ?_) avoids
  · refine Machine.functionOf?_keep (fun k o known fixed => ?_) turn.stands.function
    have other : k ≠ h := by
      rintro rfl
      rw [found] at known
      cases known
      exact fixed
    exact (Heap.get?_update ..).trans (by rw [if_neg other,known])
  · intro o known
    rw [found] at known
    cases known
    simp [setFieldAt]
  · intro o known r member
    rw [found] at known
    cases known
    have old := (turn.stands.shuns.objects h visible _ found).2
    rcases List.mem_cons.mp member with rfl | later
    · exact old _ List.mem_cons_self
    · rcases Array.mem_or_eq_of_mem_setIfInBounds (Object.mem_handles.mp later) with kept | same
      · exact old r (List.mem_cons_of_mem _ (Object.mem_handles.mpr kept))
      · exact turn.rest value List.mem_cons_self r same.symm

theorem Does.setField (found : code.chunk.instr? o = some (.setField n))
    (known : code.chunk.constants[n]? = some (.string name)) :
    code.Does host least exits ⟨o,names,target :: value :: temps⟩
      (Evaluation.setField target name value) fun result => ⟨o + 5,names,result :: temps⟩ := by
  refine .instr found fun w turn => ?_
  have held : w.store.heap.Holds target := turn.holds List.mem_cons_self
  refine turn.ensures_named known fun label interned string => ?_
  refine ensures_bind.mpr ((ensures_peek rfl).mpr ?_)
  refine ensures_bind.mpr ((ensures_peek rfl).mpr ?_)
  rcases w.store.heap.record_or target with ⟨h,struct,fields,rfl,record⟩ | other
  · obtain ⟨title,labels,shape,count,-⟩ := turn.shaped record
    refine ensures_bind.mpr ((ensures_record record).mpr ?_)
    refine ensures_bind.mpr (turn.ensures_fieldIndex shape string ?_ fun f trace run => ?_)
    · intro index inside run
      have bound : index < fields.size := by omega
      rw [if_pos bound]
      refine ensures_bind.mpr (ensures_updateObject.mpr ?_)
      change Ensures Action.pop (code.state (o + 5)
        (w.setHeap (w.store.heap.update h (setFieldAt index value)))
        (.object h :: value :: temps)) _ _
      refine ensures_pop.mpr ⟨value,_,(setField_record record).trans (run_bind_ok run),?_⟩
      exact turn.changed record index (o + 5) turn.rest
    · exact refuses ((setField_record record).trans (run_bind_error run))
  · refine ensures_bind.mpr ((ensures_unstructured held other).mpr ?_)
    have refused : Ensures (do
        fault (.setFieldOf (← nameText label) (← typeName target)) : Action Unit)
        (code.state (o + 5) w (target :: value :: temps))
        (fun _ m' => ∃ result w', Evaluation.setField target name value w = .ok result w' ∧
          code.Stands ⟨o + 5,names,result :: temps⟩ w' m')
        (Refuses (Evaluation.setField target name value) w) := by
      refine ensures_bind.mpr ((ensures_nameText string).mpr ?_)
      exact ensures_bind.mpr (ensures_typeName.mpr (refuses (setField_other other)))
    cases target <;> exact refused

/-! Structs. -/

/-- A new object goes into the heap. -/
theorem Turn.insert (turn : code.Turn host p i w) (object : Object) (size : Nat)
    (plain : ∀ code captures, object ≠ .closure code captures)
    (references : ∀ r ∈ object.references, r ∉ code.hidden) :
    (w.store.heap.insert object size).1 ∉ code.hidden ∧
      ∀ offset temps, (∀ value ∈ temps, value.Avoids code.hidden) →
        code.Stands ⟨offset,p.names,temps⟩ (w.setHeap (w.store.heap.insert object size).2)
          (code.state offset (w.setHeap (w.store.heap.insert object size).2) temps) := by
  obtain ⟨vacant,found,others,-⟩ :=
    Heap.insert_spec turn.tidy (Prod.mk.eta (p := w.store.heap.insert object size)).symm
  exact turn.stands.insert vacant found others plain references

theorem ensures_namesOf {labels : List (Nat × Bytes)} (turn : code.Turn host p i w)
    (known : ∀ l ∈ labels, code.chunk.constants[l.1]? = some (.string l.2))
    {stop : Stop → Machine → Prop} {ok : List Handle → Machine → Prop}
    (next : ∀ handles, Evaluation.internAll (labels.map Prod.snd) w = .ok handles w →
      (∀ h ∈ handles, w.store.heap.IsString h) → ok handles (code.state o w temps)) :
    Ensures (namesOf (labels.map Prod.fst)) (code.state o w temps) ok stop := by
  induction labels generalizing ok with
  | nil => exact next [] rfl (by simp)
  | cons first rest ih =>
    obtain ⟨h,there,interned,string⟩ := turn.named (known first List.mem_cons_self)
    have here : (code.state o w temps).heap.get? h = some (.string first.2) := string
    rw [List.map_cons,namesOf,ensures_bind,ensures_constant rfl turn.stands.function there,
      ensures_bind,ensures_nameOf here,ensures_bind]
    refine ih (fun l member => known l (List.mem_cons_of_mem _ member)) fun handles run each => ?_
    refine next (h :: handles) ?_ (List.forall_mem_cons.mpr ⟨⟨_,string⟩,each⟩)
    rw [List.map_cons,Evaluation.internAll,run_bind_ok (intern_known interned),run_bind_ok run]
    rfl

/-- A new struct. Its name and those of its fields are constants. -/
theorem Does.createStruct {labels : List (Nat × Bytes)}
    (found : code.chunk.instr? o = some (.createStruct n (labels.map Prod.fst)))
    (known : code.chunk.constants[n]? = some (.string name))
    (each : ∀ l ∈ labels, code.chunk.constants[l.1]? = some (.string l.2)) :
    code.Does host least exits ⟨o,names,temps⟩ (do
      let title ← Evaluation.intern name
      let handles ← Evaluation.internAll (labels.map Prod.snd)
      Evaluation.create (.struct title handles) (Footprint.struct handles.length))
      fun value => ⟨o + (Instr.createStruct n (labels.map Prod.fst)).size,names,value :: temps⟩ := by
  refine .instr found fun w turn => turn.quietly ?_
  refine turn.ensures_named known fun title interned string => ?_
  refine ensures_bind.mpr (ensures_namesOf turn each fun handles run strings => ?_)
  have interns : (do
      let title ← Evaluation.intern name
      let handles ← Evaluation.internAll (labels.map Prod.snd)
      Evaluation.create (.struct title handles) (Footprint.struct handles.length)) w =
      Evaluation.create (.struct title handles) (Footprint.struct handles.length) w :=
    (run_bind_ok (intern_known interned)).trans (run_bind_ok run)
  have references : ∀ r ∈ (Object.struct title handles).references, r ∉ code.hidden := by
    rintro r member
    rcases List.mem_cons.mp member with rfl | label
    · exact turn.stands.shuns.string string
    · obtain ⟨text,found⟩ := strings r label
      exact turn.stands.shuns.string found
  obtain ⟨visible,stands⟩ := turn.insert (.struct title handles) (Footprint.struct handles.length)
    (by simp) references
  refine ensures_allocate (fun h => frugal_push _) ?_
  exact ((stands _ _ turn.stands.temps).push interns (Value.avoids_object.mpr visible) rfl).quietly

/-! Calls. The callee lies below its arguments. -/

variable {arguments : List Value} {callee : Value} {native : Native} {w' : World} {m : Machine}

/-- The stack with the arguments of a call on it. -/
theorem extract_arguments (code : Code) (o : Nat) (w : World) (arguments : List Value)
    (callee : Value) (temps : List Value) :
    (code.state o w (arguments.reverse ++ callee :: temps)).stack.extract
      ((code.state o w (arguments.reverse ++ callee :: temps)).stack.size - arguments.length)
      (code.state o w (arguments.reverse ++ callee :: temps)).stack.size = arguments.toArray := by
  have pile : (arguments.reverse ++ callee :: temps ++ w.values ++ [Value.object code.closure]).reverse =
      (callee :: temps ++ w.values ++ [Value.object code.closure]).reverse ++ arguments := by
    simp
  rw [state,size_piled,Machine.piled,← List.length_reverse,pile]
  generalize (callee :: temps ++ w.values ++ [Value.object code.closure]).reverse = below
  simp

/-- The value of a call takes the place of the callee and the arguments. -/
theorem Stands.finishCall
    (stands : code.Stands ⟨o,names,arguments.reverse ++ callee :: temps⟩ w' m)
    (run : x w = .ok a w') (avoids : value.Avoids code.hidden)
    (there : q a = ⟨o,names,value :: temps⟩) :
    Answers (do
      shrinkTo (m.stack.size - arguments.length - 1)
      Action.push value) m x w fun a w' m' => code.Stands (q a) w' m' := by
  obtain rfl := stands.here
  have pile : arguments.reverse ++ callee :: temps ++ w'.values ++ [Value.object code.closure] =
      (arguments.reverse ++ [callee]) ++ (temps ++ w'.values ++ [Value.object code.closure]) := by
    simp
  have size : (code.state o w' (arguments.reverse ++ callee :: temps)).stack.size -
      arguments.length - 1 = (temps ++ w'.values ++ [Value.object code.closure]).length := by
    simp [state]
  have rest : ∀ v ∈ temps, v.Avoids code.hidden := fun v member => stands.temps v (by simp [member])
  rw [size]
  rw [Answers,ensures_bind,state,pile,ensures_shrinkTo_piled]
  exact (stands.lay o rest).push run avoids there

theorem call_struct {title : Handle} {labels : List Handle}
    (shape : w.store.heap.get? h = some (.struct title labels)) :
    Evaluation.call host (.object h) arguments w = (do
      Evaluation.checkCount (w.store.heap.stringText title) arguments.length (some labels.length)
      Evaluation.create (.record h arguments.toArray)
        (Footprint.record labels.length) : Evaluation Value) w := by
  have looks : Evaluation.heap w = .ok w.store.heap w := rfl
  rw [Evaluation.call,run_bind_ok looks]
  simp only [Value.handle?,Option.bind_some,shape]

theorem checkCount_same {expected given : Nat} (same : given = expected) (f : Bytes) (w : World) :
    Evaluation.checkCount f given (some expected) w = .ok () w := by
  rw [Evaluation.checkCount,if_neg (not_not.mpr same)]
  rfl

theorem checkCount_other {expected given : Nat} (other : given ≠ expected) (f : Bytes) (w : World) :
    Evaluation.checkCount f given (some expected) w =
      .error (.fault (.argumentCount f expected given)) w := by
  rw [Evaluation.checkCount,if_pos other]
  rfl

/-- Calling a struct makes a record of it. -/
theorem Turn.construct (turn : code.Turn host ⟨o,names,arguments.reverse ++ .object h :: temps⟩ i w)
    {title : Handle} {labels : List Handle}
    (shape : w.store.heap.get? h = some (.struct title labels)) :
    (Action.construct h title labels arguments.length).Quietly
      (code.state (o + i.size) w (arguments.reverse ++ .object h :: temps))
      (Evaluation.call host (.object h) arguments) w
      fun result w' m' => code.Stands ⟨o + i.size,names,result :: temps⟩ w' m' := by
  obtain ⟨⟨text,string⟩,-⟩ := turn.valid shape
  have called : Evaluation.call host (.object h) arguments w = _ := call_struct shape
  refine ensures_ite.mpr ⟨fun other => ?_,fun same => ?_⟩
  · rw [stringText_eq string] at called
    have run := called.trans (run_bind_error (checkCount_other other _ w))
    simp only [ensures_bind]
    refine (ensures_nameText string).mpr ?_
    exact fun _ => refuses run
  · have same := not_not.mp same
    have run := called.trans (run_bind_ok (checkCount_same same _ w))
    have here : (code.state (o + i.size) w (arguments.reverse ++ .object h :: temps)).heap.get? h =
        some (.struct title labels) := shape
    rw [ensures_bind,allocateRecord,ensures_bind,ensures_object here,← ensures_bind]
    refine ensures_allocate (fun k => ?_) ?_
    · have fills (values : Array Value) (size : Nat) : Frugal (do
          updateObject k fun _ => .record h values
          shrinkTo size
          Action.push (.object k)) :=
        (frugal_updateObject k _).bind fun _ =>
          (frugal_shrinkTo size).bind fun _ => frugal_push (.object k)
      exact .look fun m => .ite (fills _ _) ((frugal_throw _).bind fun _ => fills _ _)
    · refine ensures_bind.mpr (ensures_get.mpr ?_)
      dsimp only
      rw [if_pos (by simp [state])]
      refine ensures_bind.mpr (ensures_updateObject.mpr ?_)
      have values := extract_arguments code (o + i.size) w arguments (.object h) temps
      have references : ∀ r ∈ (Object.record h arguments.toArray).references, r ∉ code.hidden := by
        rintro r member
        rcases List.mem_cons.mp member with rfl | later
        · exact Value.avoids_object.mp (turn.stands.temps _ (by simp))
        · refine turn.stands.temps (.object r) ?_ r rfl
          have given : .object r ∈ arguments := by simpa using Object.mem_handles.mp later
          simp [given]
      obtain ⟨visible,stands⟩ := turn.insert (.record h arguments.toArray)
        (Footprint.record labels.length) (by simp) references
      have done := (stands (o + i.size) _ turn.stands.temps).finishCall
        run (Value.avoids_object.mpr visible) (q := fun result => ⟨o + i.size,names,result :: temps⟩) rfl
      rw [← Heap.update_insert w.store.heap (.record h (Array.replicate labels.length .nil)),
        Heap.insert_handle w.store.heap (.record h arguments.toArray)
          (.record h (Array.replicate labels.length .nil)),← values] at done
      exact done.quietly

/-! Native functions. -/

/-- A machine is given by its stack, its frame and what it shares with its host. -/
theorem state_bare (stack : m.stack = (code.state o w temps).stack)
    (frames : m.frames = (code.state o w temps).frames) (cells : m.openCells = []) :
    m = code.state o { w with store := m.bare } temps := by
  obtain ⟨heap,_,_,_,_,_,_,_,_,_,_,_,_⟩ := m
  cases stack
  cases frames
  cases cells
  rfl

theorem bare_state (plain : w.store.Plain) : (code.state o w temps).bare = w.store :=
  plain.bare_eq

/-- The native function that a call reaches is detached, so that it does in the evaluation what it
does on the machine. -/
theorem Turn.applies {arguments : List Value}
    (turn : code.Turn host ⟨o,names,arguments.reverse ++ .object h :: temps⟩
      (.call arguments.length) w)
    (here : code.chunk.instr? o = some (.call arguments.length))
    (found : w.store.heap.get? h = some (.native name native))
    (fits : ∀ n, host.arity native = some n → arguments.length = n) :
    ∃ result m', (host.call native arguments).run
        (code.state (o + 5) w (arguments.reverse ++ .object h :: temps)) = .ok result m' ∧
      (m'.heap.collections = w.store.heap.collections →
        (host.call native arguments).run w.store = .ok result m'.bare ∧
        code.Stands ⟨o + 5,names,arguments.reverse ++ .object h :: temps⟩
          { w with store := m'.bare } m' ∧
        ∀ value, result = .ok value → value.Avoids code.hidden) := by
  have given : ∀ value ∈ arguments,
      value ∈ (code.state (o + 5) w (arguments.reverse ++ .object h :: temps)).stack := by
    intro value member
    simp [state,Machine.piled,member]
  have intact : (code.state (o + 5) w (arguments.reverse ++ .object h :: temps)).Intact ∅ :=
    turn.running.intact.setFrames _
  obtain ⟨result,m',fresh,run,steady,-⟩ :=
    turn.prospect.respectful native arguments _ fits intact given
  refine ⟨result,m',run,fun quiet => ?_⟩
  have detached : host.Detached native := by
    refine turn.prospect.detached _ native .refl ⟨arguments.length,h,name,?_,?_,found⟩
    · change (w.store.functionOf? code.closure).bind _ = _
      rw [turn.stands.function]
      exact here
    · rw [state,size_piled,getElem?_piled (by simp)]
      simp
  obtain ⟨bare,unseen⟩ := detached arguments _ result m' fits intact given run quiet
  rw [bare_state turn.stands.plain] at bare
  have avoids : ∀ value ∈ arguments, value.Avoids code.hidden := fun value member =>
    turn.stands.temps value (by simp [member])
  obtain ⟨shuns,value⟩ := unseen code.hidden (turn.stands.shuns.of_eq rfl rfl) avoids
  refine ⟨bare,⟨?_,m'.plain_bare,?_,shuns.of_eq rfl rfl,turn.stands.temps,turn.stands.values,
    turn.stands.names⟩,value⟩
  · exact state_bare steady.stack steady.frames (steady.openCells.trans turn.stands.plain.openCells)
  · refine steady.evolves.functionOf? (Machine.reaches_stack ?_) turn.stands.function
    simp [state,Machine.piled]

theorem call_native (found : w.store.heap.get? h = some (.native name native)) :
    Evaluation.call host (.object h) arguments w = (do
      Evaluation.checkCount name arguments.length (host.arity native)
      Evaluation.callNative host name native arguments : Evaluation Value) w := by
  have looks : Evaluation.heap w = .ok w.store.heap w := rfl
  rw [Evaluation.call,run_bind_ok looks]
  simp only [Value.handle?,Option.bind_some,found]

theorem Turn.applyNative
    (turn : code.Turn host ⟨o,names,arguments.reverse ++ .object h :: temps⟩
      (.call arguments.length) w)
    (here : code.chunk.instr? o = some (.call arguments.length))
    (found : w.store.heap.get? h = some (.native name native))
    (fits : ∀ n, host.arity native = some n → arguments.length = n) :
    (Action.applyNative host name native arguments.length).Quietly
      (code.state (o + 5) w (arguments.reverse ++ .object h :: temps))
      (Evaluation.callNative host name native arguments) w
      fun result w' m' => code.Stands ⟨o + 5,names,result :: temps⟩ w' m' := by
  obtain ⟨result,m',run,detached⟩ := turn.applies here found fits
  have looks : (get : Evaluation World) w = .ok w w := rfl
  refine ensures_bind.mpr (ensures_get.mpr ?_)
  dsimp only
  rw [if_pos (by simp [state]),extract_arguments,List.toList_toArray]
  refine ensures_bind.mpr (.of_ok run ?_)
  by_cases quiet : m'.heap.collections = w.store.heap.collections
  · obtain ⟨bare,stands,avoids⟩ := detached quiet
    cases result with
    | ok value =>
      have called : Evaluation.callNative host name native arguments w =
          .ok value { w with store := m'.bare } := by
        rw [Evaluation.callNative,run_bind_ok looks]
        rw [bare]
        rfl
      exact ensures_bind.mpr (ensures_get.mpr
        (stands.finishCall called (avoids value rfl) rfl).quietly)
    | error failure =>
      have called : Evaluation.callNative host name native arguments w =
          .error (.fault (.native name failure.category failure.message))
            { w with store := m'.bare } := by
        rw [Evaluation.callNative,run_bind_ok looks]
        rw [bare]
        rfl
      exact fun _ => .inr ⟨_,called,rfl⟩
  · cases result with
    | ok value =>
      exact Frugal.barring (.look fun _ => (frugal_shrinkTo _).bind fun _ => frugal_push _) quiet
    | error failure => exact Frugal.barring (frugal_fault _) quiet

theorem Turn.callNative
    (turn : code.Turn host ⟨o,names,arguments.reverse ++ .object h :: temps⟩
      (.call arguments.length) w)
    (here : code.chunk.instr? o = some (.call arguments.length))
    (found : w.store.heap.get? h = some (.native name native)) :
    (Action.callNative host name native arguments.length).Quietly
      (code.state (o + 5) w (arguments.reverse ++ .object h :: temps))
      (Evaluation.call host (.object h) arguments) w
      fun result w' m' => code.Stands ⟨o + 5,names,result :: temps⟩ w' m' := by
  have called : Evaluation.call host (.object h) arguments w = _ := call_native found
  rw [Action.callNative]
  cases known : host.arity native with
  | none =>
    rw [known] at called
    exact (turn.applyNative here found (by simp [known])).of_eq called
  | some expected =>
    rw [known] at called
    dsimp only
    refine ensures_ite.mpr ⟨fun other => ?_,fun same => ?_⟩
    · exact fun _ => refuses (called.trans (run_bind_error (checkCount_other other _ w)))
    · have same := not_not.mp same
      refine Quietly.of_eq (called.trans (run_bind_ok (checkCount_same same _ w))) ?_
      exact turn.applyNative here found (by simp [known,same])

/-- A call. The script can see no closures. -/
theorem Does.call (found : code.chunk.instr? o = some (.call (arguments.length % 4294967296))) :
    code.Does host least exits ⟨o,names,arguments.reverse ++ callee :: temps⟩
      (Evaluation.call host callee arguments) fun result => ⟨o + 5,names,result :: temps⟩ := by
  refine .instr found fun w turn => turn.quietly ?_
  have bound := turn.running.bounded
  have count : arguments.length % 4294967296 = arguments.length := by
    refine Nat.mod_eq_of_lt ?_
    simp [state,Machine.stackLimit] at bound
    omega
  rw [count] at turn found ⊢
  have held : (code.state (o + 5) w (arguments.reverse ++ callee :: temps)).heap.Holds callee :=
    turn.holds (by simp)
  have there : (arguments.reverse ++ callee :: temps)[arguments.length]? = some callee := by simp
  have looks : Evaluation.heap w = .ok w.store.heap w := rfl
  refine ensures_bind.mpr ((ensures_peek there).mpr ?_)
  refine ensures_bind.mpr ((ensures_objectOf? held).mpr ?_)
  cases callee with
  | number n => exact fun _ => refuses rfl
  | bool b => exact fun _ => refuses rfl
  | nil => exact fun _ => refuses rfl
  | object h =>
    have visible : h ∉ code.hidden := Value.avoids_object.mp (turn.stands.temps _ (by simp))
    obtain ⟨object,here⟩ := held h rfl
    have known : w.store.heap.get? h = some object := here
    have plain := (turn.stands.shuns.objects h visible object known).1
    simp only [Value.handle?,Option.bind_some,here]
    have other (run : Evaluation.call host (.object h) arguments w =
        .error (.fault (.notCallable (w.store.heap.typeName (.object h)))) w) :
        Quietly (do fault (.notCallable (← typeName (.object h))))
          (code.state (o + 5) w (arguments.reverse ++ .object h :: temps))
          (Evaluation.call host (.object h) arguments) w
          fun result w' m' => code.Stands ⟨o + 5,names,result :: temps⟩ w' m' :=
      ensures_bind.mpr (ensures_typeName.mpr fun _ => refuses run)
    have call : Evaluation.call host (.object h) arguments w = _ := run_bind_ok looks
    simp only [Value.handle?,Option.bind_some,known] at call
    cases object with
    | closure function captures => exact absurd rfl (plain function captures)
    | native name native => exact turn.callNative found known
    | struct title labels => exact turn.construct known
    | string text => exact other call
    | function chunk constants => exact other call
    | cell state => exact other call
    | record struct fields => exact other call

end Code

end ScriptMachine
