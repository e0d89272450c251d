import Mathlib
import ScriptMachine.Proofs.Entries

/-! The standard native functions do not touch globals, nor anything else that is held. -/
namespace ScriptMachine

open ScriptMachine.Action

variable {α β : Type} {m : Machine}

namespace NativeAction

/-- An action only looks at the machine. If it does not refuse, it gives what is expected. -/
def Inspects (action : NativeAction α) (m : Machine) (ok : α → Prop) : Prop :=
  Looks action.run m fun result => ∀ a, result = .ok a → ok a

/-- An action leaves what is held as it is, and its value is there. -/
def Decent (action : NativeAction Value) (m : Machine) : Prop :=
  Keeping action.run m fun result m' => ∀ value, result = .ok value → m'.heap.Holds value

variable {action : NativeAction α} {ok : α → Prop}

theorem Inspects.bind {next : α → NativeAction Value} (inspects : Inspects action m ok)
    (alive : m.Alive) (decent : ∀ a, ok a → Decent (next a) m) : Decent (action >>= next) m := by
  rw [Decent,ExceptT.run_bind]
  refine Looks.keeping inspects alive fun result given => ?_
  cases result with
  | ok a => exact decent a (given a rfl)
  | error failure => exact keeping_pure alive (by simp)

theorem Inspects.seq {next : α → NativeAction β} {ok' : β → Prop} (inspects : Inspects action m ok)
    (more : ∀ a, ok a → Inspects (next a) m ok') : Inspects (action >>= next) m ok' := by
  rw [Inspects,ExceptT.run_bind]
  refine Looks.bind inspects fun result given => ?_
  cases result with
  | ok a => exact more a (given a rfl)
  | error failure => exact looks_pure (by simp)

theorem Inspects.of_looks {x : Action α} (looks : Looks x m ok) : Inspects (liftM x) m ok := by
  have lifted : Looks (x >>= fun a => pure (Except.ok a)) m fun result : Except NativeFault α =>
      ∀ a, result = .ok a → ok a := by
    refine looks.bind fun a holds => looks_pure ?_
    rintro _ ⟨⟩
    exact holds
  rw [← map_eq_pure_bind] at lifted
  exact lifted

/-- An action of the machine may come first. -/
theorem Decent.after {x : Action α} {holds : α → Machine → Prop}
    {next : α → NativeAction Value} (keeping : Keeping x m holds)
    (rest : ∀ a m', m'.Alive → holds a m' → Decent (next a) m') : Decent (liftM x >>= next) m := by
  rw [Decent,ExceptT.run_bind]
  change Keeping (Except.ok <$> x >>= _) m _
  rw [map_eq_pure_bind,bind_assoc]
  refine keeping.bind fun a m' alive _ given => ?_
  rw [pure_bind]
  exact rest a m' alive given

theorem Decent.of_keeping {x : Action Value} (keeping : Keeping x m fun v m' => m'.heap.Holds v) :
    Decent (liftM x) m := by
  have lifted : Keeping (x >>= fun v => pure (Except.ok v)) m
      fun (result : Except NativeFault Value) m' => ∀ v, result = .ok v → m'.heap.Holds v := by
    refine keeping.bind fun v m' alive _ held => keeping_pure alive ?_
    rintro _ ⟨⟩
    exact held
  rw [← map_eq_pure_bind] at lifted
  exact lifted

theorem decent_pure (alive : m.Alive) {value : Value} (held : m.heap.Holds value) :
    Decent (pure value) m :=
  keeping_pure alive (by rintro _ ⟨⟩; exact held)

theorem inspects_pure {a : α} (holds : ok a) : Inspects (pure a) m ok :=
  looks_pure (by rintro _ ⟨⟩; exact holds)

theorem inspects_argument (arguments : List Value) (index : Nat) :
    Inspects (Native.argument arguments index) m (· ∈ arguments) :=
  .of_looks ((looks_need arguments[index]?).mono fun _ found => List.mem_of_getElem? found)

theorem inspects_refuse (index : Nat) (expected : String) (found : Value) :
    Inspects (Native.refuse index expected found) m ok :=
  Inspects.seq (.of_looks (looks_typeName found)) fun _ _ => looks_pure (by simp)

theorem inspects_number (arguments : List Value) (index : Nat) :
    Inspects (Native.number arguments index) m fun _ => True := by
  refine (inspects_argument arguments index).seq fun value _ => ?_
  split
  · exact inspects_pure trivial
  · exact inspects_refuse _ _ _

theorem inspects_bool (arguments : List Value) (index : Nat) :
    Inspects (Native.bool arguments index) m fun _ => True := by
  refine (inspects_argument arguments index).seq fun value _ => ?_
  split
  · exact inspects_pure trivial
  · exact inspects_refuse _ _ _

theorem inspects_string (arguments : List Value) (index : Nat) :
    Inspects (Native.string arguments index) m fun _ => True := by
  refine (inspects_argument arguments index).seq fun value _ =>
    (Inspects.of_looks (looks_stringOf? value)).seq fun text _ => ?_
  split
  · exact inspects_pure trivial
  · exact inspects_refuse _ _ _

theorem inspects_get : Inspects (getThe Machine) m fun _ => True :=
  .of_looks (looks_get.mono fun _ _ => trivial)

theorem decent_newString (alive : m.Alive) (text : Bytes) : Decent (Native.newString text) m := by
  exact .after (keeping_allocateString alive text) fun h m' alive ⟨_,found⟩ =>
    decent_pure alive (Heap.holds_object found)

end NativeAction

namespace Action

/-- While a value is pinned, it is there. -/
theorem keeping_pinning (alive : m.Alive) {value : Value} (held : m.heap.Holds value)
    {action : Action Value}
    (inner : ∀ mid, mid.Alive → value ∈ mid.pinned → Keeping action mid fun v m' => m'.heap.Holds v) :
    Keeping (pinning value action) m fun v m' => m'.heap.Holds v := by
  refine (keeping_modify ?_ (.of_heap rfl rfl rfl)).bind ?_
  · exact { alive with pinned := List.forall_mem_cons.mpr ⟨held,alive.pinned⟩ }
  · rintro _ _ alive - rfl
    refine (inner _ alive List.mem_cons_self).bind fun v m' alive _ held => ?_
    refine (keeping_modify ?_ (.of_heap rfl rfl rfl)).bind ?_
    · exact { alive with pinned := fun w member => alive.pinned w (List.mem_of_mem_tail member) }
    · rintro _ _ alive - rfl
      exact keeping_pure alive held

theorem looks_inspected (value : Value) : Looks (Native.inspection value) m fun _ => True := by
  cases value with
  | object h =>
    refine (looks_stringOf? (.object h)).bind fun text _ => ?_
    split
    · exact looks_pure trivial
    · exact (looks_typeName _).bind fun _ _ => looks_pure trivial
  | _ => exact looks_pure trivial

theorem keeping_collect (alive : m.Alive) : Keeping collect m fun _ m' => m' = m.collect :=
  keeping_modify alive.collect.1 alive.collect.2

theorem keeping_joinPair (alive : m.Alive) (lhs rhs : Value) :
    Keeping (Native.joinPair lhs rhs) m fun value m' => m'.heap.Holds value := by
  refine (looks_text lhs).keeping alive fun left _ =>
    (keeping_allocateString alive left).bind fun l _ alive _ ⟨_,found⟩ =>
    keeping_pinning alive (Heap.holds_object found) fun mid alive _ =>
    (looks_text rhs).keeping alive fun right _ =>
    (keeping_allocateString alive right).bind fun r _ alive _ ⟨_,found⟩ =>
    keeping_pinning alive (Heap.holds_object found) fun mid alive _ =>
    (keeping_collect alive).bind fun _ _ alive _ _ =>
    (keeping_allocateString alive _).bind fun joined _ alive _ ⟨_,found⟩ =>
    keeping_pinning alive (Heap.holds_object found) fun mid alive pinned =>
    (keeping_collect alive).bind ?_
  rintro _ _ alive - rfl
  exact keeping_pure alive (alive.pinned _ pinned)

end Action

theorem Host.standard_discreet : Host.standard.Discreet := by
  intro native arguments m alive stack
  change NativeAction.Decent (native.call arguments) m
  open NativeAction in
  cases native with
  | str =>
    refine (inspects_argument arguments 0).bind alive fun value member =>
      (Inspects.of_looks (looks_stringOf? value)).bind alive fun text _ => ?_
    split
    · exact decent_pure alive (alive.stack value (stack value member))
    · exact (Inspects.of_looks (looks_text value)).bind alive fun text _ => decent_newString alive text
  | clock => exact inspects_get.bind alive fun _ _ => decent_pure alive (by simp)
  | put =>
    exact (inspects_argument arguments 0).bind alive fun value _ =>
      (Inspects.of_looks (looks_text value)).bind alive fun text _ =>
      .after (keeping_write alive text) fun _ _ alive _ => decent_pure alive (by simp)
  | twice => exact (inspects_number arguments 0).bind alive fun _ _ => decent_pure alive (by simp)
  | flip => exact (inspects_bool arguments 0).bind alive fun _ _ => decent_pure alive (by simp)
  | len => exact (inspects_string arguments 0).bind alive fun _ _ => decent_pure alive (by simp)
  | count => exact decent_pure alive (by simp)
  | type =>
    exact (inspects_argument arguments 0).bind alive fun value _ =>
      (Inspects.of_looks (looks_typeName value)).bind alive fun text _ => decent_newString alive text
  | tick =>
    refine (inspects_number arguments 0).bind alive fun step _ => ?_
    have counted : Keeping (modify fun m => { m with counter := m.counter + step }) m
        fun _ _ => True := ⟨{ alive with },.of_heap rfl rfl rfl,trivial⟩
    exact .after counted fun _ _ alive _ => inspects_get.bind alive fun _ _ =>
      decent_pure alive (by simp)
  | depth => exact inspects_get.bind alive fun _ _ => decent_pure alive (by simp)
  | frames => exact inspects_get.bind alive fun _ _ => decent_pure alive (by simp)
  | gc => exact .after (keeping_collect alive) fun _ _ alive _ => decent_pure alive (by simp)
  | live => exact inspects_get.bind alive fun _ _ => decent_pure alive (by simp)
  | state => exact inspects_get.bind alive fun _ _ => decent_newString alive _
  | mix =>
    exact (inspects_number arguments 0).bind alive fun _ _ =>
      (inspects_bool arguments 1).bind alive fun _ _ =>
      (inspects_string arguments 2).bind alive fun _ _ => decent_newString alive _
  | fail =>
    exact (inspects_string arguments 0).bind alive fun _ _ =>
      (inspects_string arguments 1).bind alive fun _ _ => keeping_pure alive (by simp)
  | pair =>
    exact (inspects_argument arguments 0).bind alive fun lhs _ =>
      (inspects_argument arguments 1).bind alive fun rhs _ =>
      .of_keeping (keeping_joinPair alive lhs rhs)
  | inspect =>
    exact (inspects_argument arguments 0).bind alive fun value _ =>
      (Inspects.of_looks (looks_inspected value)).bind alive fun text _ => decent_newString alive text
  | constants =>
    refine (inspects_number arguments 0).bind alive fun n _ => ?_
    split
    · exact decent_pure alive (by simp)
    · split <;> exact decent_pure alive (by simp)
  | custom id => exact keeping_pure alive (by simp)

end ScriptMachine
