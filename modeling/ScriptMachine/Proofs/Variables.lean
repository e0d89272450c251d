import Mathlib
import ScriptMachine.Proofs.Effects

/-! Variables of a script. Those of blocks have their values on the stack, in the order of their
declaration; the others are globals. -/
namespace ScriptMachine

namespace Bindings

variable {name : Bytes} {value : Value}

theorem names_assign (block : Bindings) :
    (block.assign name value).map Prod.fst = block.map Prod.fst := by
  induction block with
  | nil => rfl
  | cons first rest ih =>
    obtain ⟨other,old⟩ := first
    rw [assign]
    split
    · rfl
    · rw [List.map_cons,List.map_cons,ih]

theorem values_assign (block : Bindings) {depth : Nat}
    (first : block.findIdx? (·.1 = name) = some depth) :
    (block.assign name value).map Prod.snd = (block.map Prod.snd).set depth value := by
  induction block generalizing depth with
  | nil => simp at first
  | cons head rest ih =>
    obtain ⟨other,old⟩ := head
    rw [List.findIdx?_cons] at first
    rw [assign]
    by_cases same : other = name
    · simp only [same,decide_true,↓reduceIte,Option.some_inj] at first
      subst first
      simp [same]
    · simp only [same,decide_false,Bool.false_eq_true,↓reduceIte,Option.map_eq_some_iff] at first
      obtain ⟨below,found,rfl⟩ := first
      simp [same,ih found]

theorem names_assignIn (blocks : List Bindings) :
    (assignIn name value blocks).map (List.map Prod.fst) = blocks.map (List.map Prod.fst) := by
  induction blocks with
  | nil => rfl
  | cons block outer ih =>
    rw [assignIn]
    split
    · rw [List.map_cons,List.map_cons,names_assign]
    · rw [List.map_cons,List.map_cons,ih]

theorem values_assignIn (blocks : List Bindings) {depth : Nat}
    (first : blocks.flatten.findIdx? (·.1 = name) = some depth) :
    (assignIn name value blocks).flatten.map Prod.snd =
      (blocks.flatten.map Prod.snd).set depth value := by
  induction blocks generalizing depth with
  | nil => simp at first
  | cons block outer ih =>
    rw [List.flatten_cons,List.findIdx?_append] at first
    rw [assignIn]
    cases here : block.findIdx? (·.1 = name) with
    | some index =>
      rw [here,Option.some_or,Option.some_inj] at first
      subst first
      have some : block.any (·.1 = name) = true := by
        obtain ⟨inside,same,-⟩ := List.findIdx?_eq_some_iff_getElem.mp here
        exact List.any_eq_true.mpr ⟨_,List.getElem_mem inside,same⟩
      have inside : index < (block.map Prod.snd).length := by
        rw [List.length_map]
        exact (List.findIdx?_eq_some_iff_getElem.mp here).1
      rw [if_pos some,List.flatten_cons,List.map_append,List.flatten_cons,List.map_append,
        values_assign block here,List.set_append_left _ _ inside]
    | none =>
      rw [here,Option.none_or,Option.map_eq_some_iff] at first
      obtain ⟨below,found,rfl⟩ := first
      have none : ¬block.any (·.1 = name) = true := by
        rw [List.any_eq_true]
        rintro ⟨v,member,same⟩
        have := List.findIdx?_eq_none_iff.mp here v member
        rw [this] at same
        contradiction
      rw [if_neg none,List.flatten_cons,List.map_append,List.flatten_cons,List.map_append,
        ih found,List.set_append_right _ _ (by rw [List.length_map]; exact Nat.le_add_left _ _),
        List.length_map,Nat.add_sub_cancel]

end Bindings

namespace Code

open ScriptMachine.Action

variable {code : Code} {host : Host} {least o n d : Nat} {exits : Option Exits}
  {names : List (List Bytes)} {temps : List Value} {w : World} {name : Bytes} {value : Value}

/-- The latest variable of a name has this slot. -/
def Slot (names : List (List Bytes)) (name : Bytes) (slot : Nat) : Prop :=
  ∃ depth, names.flatten.findIdx? (· = name) = some depth ∧ slot + depth + 1 = names.flatten.length

theorem flatten_names (w : World) : w.names.flatten = w.blocks.flatten.map Prod.fst := by
  rw [World.names,List.map_flatten]

theorem length_values (w : World) : w.values.length = w.names.flatten.length := by
  rw [flatten_names,World.values,List.length_map,List.length_map]

theorem local?_some {depth : Nat} (first : w.names.flatten.findIdx? (· = name) = some depth) :
    ∃ value, w.local? name = some value ∧ w.values[depth]? = some value := by
  rw [flatten_names,List.findIdx?_map,List.findIdx?_eq_some_iff_getElem] at first
  obtain ⟨inside,same,earlier⟩ := first
  refine ⟨w.blocks.flatten[depth].2,?_,?_⟩
  · have found : w.blocks.flatten.find? (·.1 = name) = some w.blocks.flatten[depth] := by
      refine List.find?_eq_some_iff_getElem.mpr ⟨same,depth,inside,rfl,fun k bound => ?_⟩
      simpa using earlier k bound
    rw [World.local?,found]
    rfl
  · rw [World.values,List.getElem?_map,List.getElem?_eq_getElem inside]
    rfl

theorem local?_none (absent : w.names.flatten.findIdx? (· = name) = none) :
    w.local? name = none := by
  rw [flatten_names,List.findIdx?_map,List.findIdx?_eq_none_iff] at absent
  have missing : w.blocks.flatten.find? (·.1 = name) = none := by
    refine List.find?_eq_none.mpr fun v member => ?_
    simpa using absent v member
  rw [World.local?,missing]
  rfl

/-! Variables of blocks. -/

theorem ensures_slot {ok : Value → Machine → Prop} {stop : Stop → Machine → Prop}
    (found : w.values[d]? = some value) (place : n + d + 1 = w.values.length) :
    Ensures (slot (1 + n)) (code.state o w temps) ok stop ↔ ok value (code.state o w temps) := by
  have inside := (List.getElem?_eq_some_iff.mp found).1
  have index : 1 + n = (temps ++ w.values ++ [Value.object code.closure]).length - 1 -
      (temps.length + d) := by
    simp only [List.length_append,List.length_singleton]
    omega
  rw [index]
  refine ensures_slot_piled ?_
  rw [List.append_assoc,List.getElem?_append_right (Nat.le_add_right _ _),Nat.add_sub_cancel_left,
    List.getElem?_append_left inside,found]

theorem ensures_setSlot {stop : Stop → Machine → Prop} {ok : Unit → Machine → Prop}
    (first : w.blocks.flatten.findIdx? (·.1 = name) = some d)
    (place : n + d + 1 = w.values.length) :
    Ensures (setSlot (1 + n) value) (code.state o w temps) ok stop ↔
      ok () (code.state o { w with blocks := Bindings.assignIn name value w.blocks } temps) := by
  have inside : d < w.values.length := by omega
  have index : 1 + n = (temps ++ w.values ++ [Value.object code.closure]).length - 1 -
      (temps.length + d) := by
    simp only [List.length_append,List.length_singleton]
    omega
  have below : temps.length + d < (temps ++ w.values ++ [Value.object code.closure]).length := by
    simp only [List.length_append,List.length_singleton]
    omega
  rw [index]
  refine (ensures_setSlot_piled below).trans ?_
  rw [List.append_assoc,List.set_append_right _ _ (Nat.le_add_right _ _),Nat.add_sub_cancel_left,
    List.set_append_left _ _ inside,World.values,← Bindings.values_assignIn w.blocks first,
    ← List.append_assoc]
  rfl

/-- A variable of a block is read from its slot. -/
theorem Does.getLocal (found : code.chunk.instr? o = some (.getLocal n)) (slot : Slot names name n) :
    code.Does host least exits ⟨o,names,temps⟩ (Evaluation.read name)
      fun value => ⟨o + 5,names,value :: temps⟩ := by
  refine .instr found fun w turn => ?_
  obtain ⟨depth,first,place⟩ := slot
  have same : w.names = names := turn.stands.names
  rw [← same] at first place
  rw [← length_values] at place
  obtain ⟨value,known,there⟩ := local?_some first
  refine ensures_bind.mpr (ensures_frame.mpr ?_)
  refine ensures_bind.mpr ((ensures_slot there place).mpr ?_)
  have run : Evaluation.read name w = .ok value w := by
    have looks : (get : Evaluation World) w = .ok w w := rfl
    rw [Evaluation.read,run_bind_ok looks,known]
    rfl
  exact turn.next.push run (turn.stands.values value (List.mem_of_getElem? there)) rfl

theorem Does.setLocal (found : code.chunk.instr? o = some (.setLocal n)) (slot : Slot names name n) :
    code.Does host least exits ⟨o,names,value :: temps⟩ (Evaluation.assign name value)
      fun result => ⟨o + 5,names,result :: temps⟩ := by
  refine .instr found fun w turn => ?_
  obtain ⟨depth,first,place⟩ := slot
  have same : w.names = names := turn.stands.names
  rw [← same] at first place
  rw [← length_values] at place
  obtain ⟨old,known,there⟩ := local?_some first
  rw [flatten_names,List.findIdx?_map] at first
  refine ensures_bind.mpr (ensures_frame.mpr ?_)
  refine ensures_bind.mpr ((ensures_peek rfl).mpr ?_)
  have run : Evaluation.assign name value w =
      .ok value { w with blocks := Bindings.assignIn name value w.blocks } := by
    have looks : (get : Evaluation World) w = .ok w w := rfl
    rw [Evaluation.assign,run_bind_ok looks,known]
    rfl
  refine (ensures_setSlot first place).mpr ⟨value,_,run,?_⟩
  refine turn.stands.setBlocks (o + 5) _ (fun v member => ?_) ?_ turn.stands.temps
  · rw [World.values,Bindings.values_assignIn w.blocks first] at member
    rcases List.mem_or_eq_of_mem_set member with old | rfl
    · exact turn.stands.values v old
    · exact turn.stands.temps v List.mem_cons_self
  · exact (Bindings.names_assignIn w.blocks).trans same

/-! Globals. -/

/-- The name of a global is a constant. -/
theorem Turn.ensures_named {p : Place} {i : Instr} (turn : code.Turn host p i w)
    (known : code.chunk.constants[n]? = some (.string name)) {next : Handle → Action Unit}
    {ok : Unit → Machine → Prop} {stop : Stop → Machine → Prop}
    (good : ∀ h, w.store.heap.find? name = some h → w.store.heap.get? h = some (.string name) →
      (next h).Ensures (code.state o w temps) ok stop) :
    Ensures (do next (← nameOf (← constant n))) (code.state o w temps) ok stop := by
  obtain ⟨h,there,interned,string⟩ := turn.named known
  have here : (code.state o w temps).heap.get? h = some (.string name) := string
  rw [ensures_bind,ensures_constant rfl turn.stands.function there,ensures_bind,
    ensures_nameOf here]
  exact good h interned string

/-- There is no variable of this name in any block. -/
def Free (names : List (List Bytes)) (name : Bytes) : Prop :=
  names.flatten.findIdx? (· = name) = none

theorem stringText_eq {heap : Heap} {h : Handle} (string : heap.get? h = some (.string name)) :
    heap.stringText h = name := by
  rw [Heap.stringText,string]

theorem ensures_nameText {h : Handle} {ok : Bytes → Machine → Prop} {stop : Stop → Machine → Prop}
    (string : w.store.heap.get? h = some (.string name)) :
    Ensures (nameText h) (code.state o w temps) ok stop ↔ ok name (code.state o w temps) := by
  have text : (code.state o w temps).heap.stringText h = name := stringText_eq string
  rw [Action.ensures_nameText,text]

theorem read_free (free : Free w.names name) :
    Evaluation.read name w = Evaluation.readGlobal name w := by
  have looks : (get : Evaluation World) w = .ok w w := rfl
  rw [Evaluation.read,run_bind_ok looks,local?_none free]

theorem assign_free (free : Free w.names name) :
    Evaluation.assign name value w = Evaluation.assignGlobal name value w := by
  have looks : (get : Evaluation World) w = .ok w w := rfl
  rw [Evaluation.assign,run_bind_ok looks,local?_none free]

/-- Neither reading nor assigning makes a global. -/
theorem ensures_notDefined {h : Handle} {x : Evaluation Value} {ok : Unit → Machine → Prop}
    (string : w.store.heap.get? h = some (.string name))
    (run : x w = .error (.fault (.notDefined name)) w) :
    Ensures (do fault (.notDefined (← nameText h))) (code.state o w temps) ok (Refuses x w) := by
  rw [ensures_bind,ensures_nameText string]
  exact refuses run

theorem Does.getGlobal (found : code.chunk.instr? o = some (.getGlobal n)) (free : Free names name)
    (known : code.chunk.constants[n]? = some (.string name)) :
    code.Does host least exits ⟨o,names,temps⟩ (Evaluation.read name)
      fun value => ⟨o + 5,names,value :: temps⟩ := by
  refine .instr found fun w turn => ?_
  have same : w.names = names := turn.stands.names
  rw [← same] at free
  have looks : (get : Evaluation World) w = .ok w w := rfl
  refine turn.ensures_named known fun h interned string => ?_
  have same (offset : Nat) : (code.state offset w temps).globals = w.store.globals := rfl
  rw [Action.getGlobal,ensures_bind,ensures_get,same]
  cases there : w.store.globals[h]? with
  | some value =>
    have run : Evaluation.read name w = .ok value w := by
      rw [read_free free,Evaluation.readGlobal,run_bind_ok looks,interned,Option.bind_some,there]
      rfl
    exact turn.next.push run (turn.stands.shuns.globals h value there) rfl
  | none =>
    have run : Evaluation.read name w = .error (.fault (.notDefined name)) w := by
      rw [read_free free,Evaluation.readGlobal,run_bind_ok looks,interned,Option.bind_some,there]
      rfl
    exact ensures_notDefined string run

theorem Does.setGlobal (found : code.chunk.instr? o = some (.setGlobal n)) (free : Free names name)
    (known : code.chunk.constants[n]? = some (.string name)) :
    code.Does host least exits ⟨o,names,value :: temps⟩ (Evaluation.assign name value)
      fun result => ⟨o + 5,names,result :: temps⟩ := by
  refine .instr found fun w turn => ?_
  have same : w.names = names := turn.stands.names
  rw [← same] at free
  have looks : (get : Evaluation World) w = .ok w w := rfl
  refine turn.ensures_named known fun h interned string => ?_
  rw [Action.setGlobal,ensures_bind,ensures_get,ensures_ite]
  constructor
  · intro there
    have there : w.store.globals.contains h = true := there
    have run : Evaluation.assign name value w = .ok value (w.setGlobal h value) := by
      rw [assign_free free,Evaluation.assignGlobal,run_bind_ok looks,interned,
        Option.filter_some_pos there]
      rfl
    refine ensures_bind.mpr ((ensures_peek rfl).mpr (ensures_modify.mpr ⟨value,_,run,?_⟩))
    exact turn.stands.setStore (o + 5) { turn.stands.plain with } turn.stands.function
      (turn.stands.shuns.setGlobal h (turn.stands.temps value List.mem_cons_self)) turn.stands.temps
  · intro missing
    have missing : ¬w.store.globals.contains h = true := missing
    have run : Evaluation.assign name value w = .error (.fault (.notDefined name)) w := by
      rw [assign_free free,Evaluation.assignGlobal,run_bind_ok looks,interned,
        Option.filter_some_neg (Bool.eq_false_of_not_eq_true missing)]
      rfl
    exact ensures_notDefined string run

/-- Outside of all blocks a declaration makes a global. -/
theorem Does.defineGlobal (found : code.chunk.instr? o = some (.defineGlobal n))
    (known : code.chunk.constants[n]? = some (.string name)) :
    code.Does host least exits ⟨o,[],value :: temps⟩ (Evaluation.define name value)
      fun _ => ⟨o + 5,[],temps⟩ := by
  refine .instr found fun w turn => ?_
  have outside : w.blocks = [] := List.map_eq_nil_iff.mp turn.stands.names
  have looks : (get : Evaluation World) w = .ok w w := rfl
  refine turn.ensures_named known fun h interned string => ?_
  have run : Evaluation.define name value w = .ok () (w.setGlobal h value) := by
    rw [Evaluation.define,run_bind_ok looks,outside]
    exact run_bind_ok (intern_known interned)
  refine ensures_bind.mpr ((ensures_peek rfl).mpr (ensures_bind.mpr (ensures_modify.mpr ?_)))
  change Ensures Action.pop (code.state (o + 5) (w.setGlobal h value) (value :: temps)) _ _
  refine ensures_pop.mpr ⟨(),_,run,?_⟩
  exact turn.stands.setStore (o + 5) { turn.stands.plain with } turn.stands.function
    (turn.stands.shuns.setGlobal h (turn.stands.temps value List.mem_cons_self)) turn.rest

/-- In a block the value of a declaration stays where it is. -/
theorem Does.define {block : List Bytes} {outer : List (List Bytes)} (o : Nat) :
    code.Does host least exits ⟨o,block :: outer,[value]⟩ (Evaluation.define name value)
      fun _ => ⟨o,(name :: block) :: outer,[]⟩ := by
  intro w m stands
  obtain ⟨store,blocks⟩ := w
  obtain rfl := stands.here
  have same := stands.names
  cases blocks with
  | nil => contradiction
  | cons bindings rest =>
    obtain ⟨rfl,rfl⟩ := List.cons.inj same
    refine .of_eq (y := Pure.pure ()) (v := ⟨store,((name,value) :: bindings) :: rest⟩) rfl (.pure ?_)
    refine ⟨rfl,stands.plain,stands.function,stands.shuns,by simp,?_,rfl⟩
    exact List.forall_mem_cons.mpr ⟨stands.temps value List.mem_cons_self,stands.values⟩

end Code

end ScriptMachine
