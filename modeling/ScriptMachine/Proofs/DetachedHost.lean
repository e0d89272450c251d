import Mathlib
import ScriptMachine.Proofs.Execution

/-! The standard functions are detached, but for the two that show the sizes of the stacks. One that
collects is not held to anything here. -/
namespace ScriptMachine

open ScriptMachine.Action

variable {α β : Type} {m : Machine}

namespace Action

/-- A string is there already, or it is new; it is the same on every machine with this heap, unless there
is a collection first. -/
theorem allocateString_cases (text : Bytes) (m : Machine) :
    (∃ h, m.heap.find? text = some h ∧
      ∀ n : Machine, n.heap = m.heap → allocateString text n = .ok h n) ∨
    (m.heap.find? text = none ∧ ∀ n : Machine, n.heap = m.heap → allocateString text n =
      .ok (m.heap.insertString text).1 { n with heap := (m.heap.insertString text).2 }) ∨
    ∃ h m', allocateString text m = .ok h m' ∧ m'.heap.collections = m.heap.collections + 1 := by
  cases known : m.heap.find? text with
  | some h =>
    refine .inl ⟨h,rfl,fun n same => ?_⟩
    have ensured : Ensures (allocateString text) n (fun k n' => k = h ∧ n' = n) fun _ _ => False := by
      rw [allocateString,ensures_bind,ensures_get,same,known]
      exact ⟨rfl,rfl⟩
    obtain ⟨_,_,run,rfl,rfl⟩ := ensured.succeeds
    exact run
  | none =>
    by_cases due : m.heap.isDue (Footprint.string text) = true
    · refine .inr (.inr ?_)
      have ensured : Ensures (allocateString text) m
          (fun _ m' => m'.heap.collections = m.heap.collections + 1) fun _ _ => False := by
        rw [allocateString,ensures_bind,ensures_get,known]
        dsimp only
        rw [ensures_bind,makeRoom,ensures_bind,ensures_get,if_pos due,collect,ensures_modify]
        exact Heap.collections_insert m.collect.heap (.string text) (Footprint.string text)
      exact ensured.succeeds
    · refine .inr (.inl ⟨rfl,fun n same => ?_⟩)
      have ensured : Ensures (allocateString text) n (fun k n' => k = (m.heap.insertString text).1 ∧
          n' = { n with heap := (m.heap.insertString text).2 }) fun _ _ => False := by
        rw [allocateString,ensures_bind,ensures_get,same,known]
        dsimp only
        rw [ensures_bind,makeRoom,ensures_bind,ensures_get,same,if_neg due]
        rw [← same]
        exact ⟨rfl,rfl⟩
      obtain ⟨_,_,run,rfl,rfl⟩ := ensured.succeeds
      exact run

/-- When the action is done, there have been so many collections at least. -/
def Counts (action : Action α) (m : Machine) (count : Nat) : Prop :=
  ∀ a m', action m = .ok a m' → count ≤ m'.heap.collections

theorem Counts.bind {action : Action α} {next : α → Action β} {count more : Nat}
    (first : action.Counts m count)
    (rest : ∀ a mid, count ≤ mid.heap.collections → (next a).Counts mid more) :
    (action >>= next).Counts m more := by
  intro b m' run
  obtain ⟨a,mid,early,late⟩ := of_run_bind run
  exact rest a mid (first a mid early) b m' late

theorem counts_pure {a : α} {count : Nat} (enough : count ≤ m.heap.collections) :
    (pure a : Action α).Counts m count := by
  rintro _ _ ⟨⟩
  exact enough

theorem counts_modify {change : Machine → Machine} {count : Nat}
    (enough : count ≤ (change m).heap.collections) : (modify change : Action Unit).Counts m count := by
  rintro _ _ ⟨⟩
  exact enough

theorem counts_text {value : Value} {count : Nat} (enough : count ≤ m.heap.collections) :
    (Action.text value).Counts m count := by
  rintro _ _ ⟨⟩
  exact enough

theorem counts_allocateString {text : Bytes} {count : Nat} (enough : count ≤ m.heap.collections) :
    (allocateString text).Counts m count := by
  intro h m' run
  rcases allocateString_cases text m with ⟨k,-,known⟩ | ⟨-,fresh⟩ | ⟨k,last,due,more⟩
  · rw [known m rfl] at run
    cases run
    exact enough
  · rw [fresh m rfl] at run
    cases run
    exact enough.trans_eq (Heap.collections_insert m.heap (.string text) (Footprint.string text)).symm
  · rw [due] at run
    cases run
    omega

theorem Counts.pinning {value : Value} {action : Action α} {count more : Nat}
    (enough : count ≤ m.heap.collections)
    (inner : ∀ m, count ≤ m.heap.collections → action.Counts m more) :
    (pinning value action).Counts m more :=
  .bind (counts_modify enough) fun _ mid enough => .bind (inner mid enough) fun _ _ enough =>
    .bind (counts_modify enough) fun _ _ enough => counts_pure enough

end Action

namespace Native

theorem counts_joinPair (lhs rhs : Value) :
    (joinPair lhs rhs).Counts m (m.heap.collections + 1) := by
  refine .bind (counts_text le_rfl) fun left _ enough => ?_
  refine .bind (counts_allocateString enough) fun l _ enough => ?_
  refine .pinning enough fun _ enough => ?_
  refine .bind (counts_text enough) fun right _ enough => ?_
  refine .bind (counts_allocateString enough) fun r _ enough => ?_
  refine .pinning enough fun _ enough => ?_
  refine .bind (counts_modify (Nat.succ_le_succ enough)) fun _ _ enough => ?_
  refine .bind (counts_allocateString enough) fun joined _ enough => ?_
  refine .pinning enough fun _ enough => ?_
  refine .bind (counts_modify (enough.trans (Nat.le_succ _))) fun _ _ enough => ?_
  exact counts_pure enough

end Native

/-! Functions that do the same on the bare machine. -/

namespace NativeAction

/-- The action only looks at what is left on the bare machine. -/
def Looks (action : NativeAction α) (m : Machine) : Prop :=
  ∃ r, ∀ n : Machine, n.heap = m.heap → n.clock = m.clock → n.status = m.status →
    action.run n = .ok r n

/-- Without a collection, the action does the same on the bare machine, and it does not find what is hidden
from its arguments. -/
def Bared (arguments : List Value) (action : NativeAction Value) (m : Machine) : Prop :=
  ∀ result m', action.run m = .ok result m' → m'.heap.collections = m.heap.collections →
    action.run m.bare = .ok result m'.bare ∧
      ∀ hidden, m.Shuns hidden → (∀ value ∈ arguments, value.Avoids hidden) →
        m'.Shuns hidden ∧ ∀ value, result = .ok value → value.Avoids hidden

variable {arguments : List Value}

theorem Looks.bind {action : NativeAction α} {next : α → NativeAction β} (first : Looks action m)
    (rest : ∀ a, Looks (next a) m) : Looks (action >>= next) m := by
  obtain ⟨r,same⟩ := first
  cases r with
  | error failure =>
    refine ⟨.error failure,fun n heap clock status => ?_⟩
    rw [ExceptT.run_bind,run_bind_ok (same n heap clock status)]
    rfl
  | ok a =>
    obtain ⟨r,more⟩ := rest a
    refine ⟨r,fun n heap clock status => ?_⟩
    rw [ExceptT.run_bind,run_bind_ok (same n heap clock status)]
    exact more n heap clock status

theorem looks_pure (a : α) : Looks (pure a) m :=
  ⟨.ok a,fun _ _ _ _ => rfl⟩

theorem Looks.then {action : NativeAction α} {next : α → NativeAction Value} (first : Looks action m)
    (rest : ∀ a, Bared arguments (next a) m) : Bared arguments (action >>= next) m := by
  obtain ⟨r,same⟩ := first
  intro result m' run still
  have here := same m rfl rfl rfl
  have there := same m.bare rfl rfl rfl
  rw [ExceptT.run_bind,run_bind_ok here] at run
  rw [ExceptT.run_bind,run_bind_ok there]
  cases r with
  | error failure =>
    cases run
    exact ⟨rfl,fun hidden shuns _ => ⟨shuns,by simp⟩⟩
  | ok a => exact rest a result m' run still

theorem bared_pure {value : Value}
    (avoids : ∀ hidden, (∀ v ∈ arguments, v.Avoids hidden) → value.Avoids hidden) :
    Bared arguments (pure value) m := by
  rintro _ _ ⟨⟩ _
  refine ⟨rfl,fun hidden shuns safe => ⟨shuns,?_⟩⟩
  rintro _ ⟨⟩
  exact avoids hidden safe

/-- The objects and the globals stay as they are, and the result is none of the objects. -/
theorem bared_plain {action : NativeAction Value} {result : Except NativeFault Value} {m' : Machine}
    (run : action.run m = .ok result m') (bare : action.run m.bare = .ok result m'.bare)
    (heap : m'.heap = m.heap) (globals : m'.globals = m.globals)
    (plain : ∀ h, result ≠ .ok (.object h)) : Bared arguments action m := by
  intro result' last ran _
  rw [run] at ran
  cases ran
  refine ⟨bare,fun hidden shuns _ => ⟨shuns.of_eq heap globals,?_⟩⟩
  rintro value rfl h rfl
  exact absurd rfl (plain h)

theorem run_lift {action : Action α} {a : α} {m m' : Machine} (run : action m = .ok a m') :
    (liftM action : NativeAction α).run m = .ok (.ok a) m' := by
  change EStateM.map Except.ok action m = _
  rw [EStateM.map,run]

theorem run_newString {text : Bytes} {h : Handle} {m m' : Machine}
    (run : allocateString text m = .ok h m') :
    (Native.newString text).run m = .ok (.ok (.object h)) m' := by
  rw [Native.newString,ExceptT.run_bind]
  exact run_bind_ok (run_lift run)

theorem bared_newString (text : Bytes) (tidy : m.heap.Tidy) :
    Bared arguments (Native.newString text) m := by
  intro result m' run still
  rcases allocateString_cases text m with ⟨h,known,same⟩ | ⟨unknown,same⟩ | ⟨h,last,due,more⟩
  · rw [run_newString (same m rfl)] at run
    cases run
    refine ⟨run_newString (same m.bare rfl),fun hidden shuns _ => ⟨shuns,?_⟩⟩
    rintro _ ⟨⟩
    exact Value.avoids_object.mpr (shuns.string ((tidy.interned text h).mp known))
  · rw [run_newString (same m rfl)] at run
    cases run
    refine ⟨run_newString (same m.bare rfl),fun hidden shuns _ => ?_⟩
    obtain ⟨-,vacant,found,others⟩ := Heap.insertString_spec tidy unknown rfl
    obtain ⟨visible,shuns⟩ := shuns.insert vacant found others (by simp) (by simp [Object.references])
    refine ⟨shuns,?_⟩
    rintro _ ⟨⟩
    exact Value.avoids_object.mpr visible
  · rw [run_newString due] at run
    cases run
    omega

/-! What the functions look at. -/

theorem looks_throw (failure : NativeFault) : Looks (throw failure : NativeAction α) m :=
  ⟨.error failure,fun _ _ _ _ => rfl⟩

theorem looks_typeName (value : Value) : Looks (liftM (Action.typeName value)) m :=
  ⟨.ok (m.heap.typeName value),fun _ heap _ _ => run_lift (heap ▸ rfl)⟩

theorem looks_text (value : Value) : Looks (liftM (Action.text value)) m :=
  ⟨.ok (m.heap.text value),fun _ heap _ _ => run_lift (heap ▸ rfl)⟩

theorem run_stringOf? {value : Value} (held : m.heap.Holds value) :
    Action.stringOf? value m = .ok (m.heap.string? value) m := by
  have ensured : Ensures (Action.stringOf? value) m (fun text m' => text = m.heap.string? value ∧ m' = m)
      fun _ _ => False := (ensures_stringOf? held).mpr ⟨rfl,rfl⟩
  obtain ⟨_,_,run,rfl,rfl⟩ := ensured.succeeds
  exact run

theorem looks_stringOf? {value : Value} (held : m.heap.Holds value) :
    Looks (liftM (Action.stringOf? value)) m := by
  refine ⟨.ok (m.heap.string? value),fun n heap _ _ => run_lift ?_⟩
  rw [run_stringOf? (heap ▸ held),heap]

theorem looks_refuse {index : Nat} {expected : String} {value : Value} :
    Looks (Native.refuse index expected value : NativeAction α) m :=
  (looks_typeName value).bind fun _ => looks_throw _

theorem argument_eq {index : Nat} {value : Value} (found : arguments[index]? = some value) :
    Native.argument arguments index = pure value := by
  rw [Native.argument,found]
  rfl

section

variable {index : Nat} {value : Value} (found : arguments[index]? = some value)
include found

theorem looks_argument : Looks (Native.argument arguments index) m := by
  rw [argument_eq found]
  exact looks_pure value

theorem looks_number : Looks (Native.number arguments index) m := by
  refine (looks_argument found).bind fun value => ?_
  split
  · exact looks_pure _
  · exact looks_refuse

theorem looks_bool : Looks (Native.bool arguments index) m := by
  refine (looks_argument found).bind fun value => ?_
  split
  · exact looks_pure _
  · exact looks_refuse

theorem looks_string (held : m.heap.Holds value) : Looks (Native.string arguments index) m := by
  rw [Native.string,argument_eq found,pure_bind]
  refine (looks_stringOf? held).bind fun text => ?_
  split
  · exact looks_pure _
  · exact looks_refuse

end

theorem looks_inspection {value : Value} (held : m.heap.Holds value) :
    Looks (liftM (Native.inspection value)) m := by
  cases value with
  | number n => exact ⟨_,fun _ _ _ _ => run_lift rfl⟩
  | bool b => exact ⟨_,fun _ _ _ _ => run_lift rfl⟩
  | nil => exact ⟨_,fun _ _ _ _ => run_lift rfl⟩
  | object h =>
    cases known : m.heap.string? (.object h) with
    | some text =>
      refine ⟨.ok (ascii "string " ++ text),fun n heap _ _ => run_lift ?_⟩
      rw [Native.inspection,run_bind_ok (run_stringOf? (heap ▸ held)),heap,known]
      rfl
    | none =>
      refine ⟨.ok (ascii "other " ++ m.heap.typeName (.object h)),fun n heap _ _ => run_lift ?_⟩
      rw [Native.inspection,run_bind_ok (run_stringOf? (heap ▸ held)),heap,known,← heap]
      rfl

end NativeAction

namespace Native

open NativeAction

/-- There is always a collection. -/
theorem bared_joinPair (first second : Value) :
    Bared arguments (liftM (joinPair first second)) m := by
  intro result m' run still
  change EStateM.map Except.ok (joinPair first second) m = _ at run
  rw [EStateM.map] at run
  cases joined : joinPair first second m with
  | ok value last =>
    rw [joined] at run
    cases run
    exact absurd still (Nat.ne_of_gt (counts_joinPair first second _ _ joined))
  | error stop last =>
    rw [joined] at run
    cases run

/-- Each in turn. Two make collections of their own. -/
theorem bared_call (native : Native) (arguments : List Value) (noDepth : native ≠ .depth)
    (noFrames : native ≠ .frames) (intact : m.Intact ∅)
    (length : ∀ n, native.arity = some n → arguments.length = n)
    (stack : ∀ value ∈ arguments, value ∈ m.stack) : Bared arguments (native.call arguments) m := by
  have argument {n : Nat} := @argument_held m native arguments intact length stack n
  cases native with
  | str =>
    obtain ⟨value,found,held⟩ := argument rfl Nat.one_pos
    rw [call,argument_eq found,pure_bind]
    refine (looks_stringOf? held).then fun text => ?_
    split
    · exact bared_pure fun hidden safe => safe value (List.mem_of_getElem? found)
    · exact (NativeAction.looks_text _).then fun text => bared_newString text intact.tidy
  | clock => exact bared_plain rfl rfl rfl rfl (by simp)
  | put =>
    obtain ⟨value,found,held⟩ := argument rfl Nat.one_pos
    rw [call,argument_eq found,pure_bind]
    exact bared_plain rfl rfl rfl rfl (by simp)
  | twice =>
    obtain ⟨value,found,held⟩ := argument rfl Nat.one_pos
    exact (looks_number found).then fun _ => bared_pure (by simp)
  | flip =>
    obtain ⟨value,found,held⟩ := argument rfl Nat.one_pos
    exact (looks_bool found).then fun _ => bared_pure (by simp)
  | len =>
    obtain ⟨value,found,held⟩ := argument rfl Nat.one_pos
    exact (looks_string found held).then fun _ => bared_pure (by simp)
  | count => exact bared_pure (by simp)
  | type =>
    obtain ⟨value,found,held⟩ := argument rfl Nat.one_pos
    refine (looks_argument found).then fun value => ?_
    exact (NativeAction.looks_typeName _).then fun text => bared_newString text intact.tidy
  | tick =>
    obtain ⟨value,found,held⟩ := argument rfl Nat.one_pos
    refine (looks_number found).then fun step => ?_
    exact bared_plain rfl rfl rfl rfl (by simp)
  | depth => contradiction
  | frames => contradiction
  | gc =>
    rintro _ _ ⟨⟩ still
    exact absurd still (Nat.succ_ne_self _)
  | live => exact bared_plain rfl rfl rfl rfl (by simp)
  | state => exact bared_newString m.status.name intact.tidy
  | mix =>
    obtain ⟨first,found,-⟩ := argument rfl (show 0 < 3 by decide)
    obtain ⟨second,foundToo,-⟩ := argument rfl (show 1 < 3 by decide)
    obtain ⟨third,last,held⟩ := argument rfl (show 2 < 3 by decide)
    refine (looks_number found).then fun n => (looks_bool foundToo).then fun b => ?_
    exact (looks_string last held).then fun s => bared_newString _ intact.tidy
  | fail =>
    obtain ⟨kind,found,held⟩ := argument rfl (show 0 < 2 by decide)
    obtain ⟨message,foundToo,heldToo⟩ := argument rfl (show 1 < 2 by decide)
    refine (looks_string found held).then fun kind => (looks_string foundToo heldToo).then fun s => ?_
    exact bared_plain rfl rfl rfl rfl (by simp)
  | pair =>
    obtain ⟨first,found,-⟩ := argument rfl (show 0 < 2 by decide)
    obtain ⟨second,foundToo,-⟩ := argument rfl (show 1 < 2 by decide)
    rw [call,argument_eq found,pure_bind,argument_eq foundToo,pure_bind]
    exact bared_joinPair first second
  | inspect =>
    obtain ⟨value,found,held⟩ := argument rfl Nat.one_pos
    rw [call,argument_eq found,pure_bind]
    exact (looks_inspection held).then fun text => bared_newString text intact.tidy
  | constants =>
    obtain ⟨value,found,held⟩ := argument rfl Nat.one_pos
    refine (looks_number found).then fun n => ?_
    split
    · exact bared_pure (by simp)
    · split <;> exact bared_pure (by simp)
  | custom id => exact bared_plain rfl rfl rfl rfl (by simp)

end Native

/-- Each standard function but those two works on what the machine shares with its host. -/
theorem Host.standard_detached {native : Native} (noDepth : native ≠ .depth)
    (noFrames : native ≠ .frames) : Host.standard.Detached native := by
  intro arguments m result m' length intact stack run still
  exact Native.bared_call native arguments noDepth noFrames intact length stack result m' run still

/-- The standard host without the functions that show the sizes of the stacks. -/
def Host.stackless : Host where
  arity := Native.arity
  call
    | .depth, _ | .frames, _ => return .nil
    | native, arguments => native.call arguments

theorem Host.stackless_detached (native : Native) : Host.stackless.Detached native := by
  by_cases shown : native = .depth ∨ native = .frames
  · have nothing (arguments : List Value) (m : Machine) :
        (Host.stackless.call native arguments).run m = .ok (.ok .nil) m := by
      rcases shown with rfl | rfl <;> rfl
    intro arguments m result m' _ _ _ run still
    exact NativeAction.bared_plain (nothing arguments m) (nothing arguments m.bare) rfl rfl (by simp)
      result m' run still
  · obtain ⟨noDepth,noFrames⟩ := not_or.mp shown
    have same : Host.stackless.call native = native.call := by
      cases native <;> first | rfl | contradiction
    intro arguments m result m'
    rw [same]
    exact Host.standard_detached noDepth noFrames arguments m result m'

theorem Host.stackless_respectful : Host.stackless.Respectful := by
  intro native arguments m length intact stack
  by_cases shown : native = .depth ∨ native = .frames
  · refine ⟨.ok .nil,m,∅,?_,.refl intact,?_⟩
    · rcases shown with rfl | rfl <;> rfl
    · rintro _ ⟨⟩
      exact Heap.holds_nil
  · obtain ⟨noDepth,noFrames⟩ := not_or.mp shown
    have same : Host.stackless.call native = native.call := by
      cases native <;> first | rfl | contradiction
    rw [same]
    exact Host.standard_respectful native arguments m length intact stack

end ScriptMachine
