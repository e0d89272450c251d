import Mathlib
import ScriptMachine.Proofs.Running

/-! What is expected of native functions, and that the standard ones do it. -/
namespace ScriptMachine

open ScriptMachine.Action

/-- The call of a native function, once the number of arguments is known to be right. -/
def Action.applyNative (host : Host) (name : Bytes) (native : Native) (arguments : Nat) :
    Action Unit := do
  let stack := (← get).stack
  unless arguments < stack.size do stuck
  let values := (stack.extract (stack.size - arguments) stack.size).toList
  match ← (host.call native values).run with
  | .ok result =>
    shrinkTo ((← get).stack.size - arguments - 1)
    push result
  | .error failure => fault (.native name failure.category failure.message)

/-- A native function that is called with as many arguments as it takes, all of them on the stack,
comes to a value or a failure of its own. It leaves the stacks, the closures and the cells alone. -/
def Host.Respectful (host : Host) : Prop :=
  ∀ native arguments (m : Machine), (∀ n, host.arity native = some n → arguments.length = n) →
    m.Intact ∅ → (∀ value ∈ arguments, value ∈ m.stack) →
    ∃ result m' fresh, (host.call native arguments).run m = .ok result m' ∧ m.Steady fresh m' ∧
      ∀ value, result = .ok value → m'.heap.Holds value

namespace Machine

/-- There may be new strings, and nothing else has changed. -/
def Spells (m m' : Machine) : Prop :=
  ∃ fresh, m.Grows fresh m' ∧ m'.Intact ∅ ∧
    ∀ h ∈ fresh, ∀ o, m'.heap.get? h = some o → ∃ text, o = .string text

variable {m mid m' : Machine}

theorem Spells.trans (first : m.Spells mid) (second : mid.Spells m') : m.Spells m' := by
  obtain ⟨fresh,grows,-,strings⟩ := first
  obtain ⟨more,growsToo,intact,stringsToo⟩ := second
  refine ⟨fresh ∪ more,grows.trans growsToo,intact,fun h member o found => ?_⟩
  by_cases late : h ∈ more
  · exact stringsToo h late o found
  · exact strings h (member.resolve_right late) o (growsToo.old h late o found)

theorem Spells.intact (spells : m.Spells m') : m'.Intact ∅ := by
  obtain ⟨-,-,intact,-⟩ := spells
  exact intact

theorem Spells.steady (spells : m.Spells m') : ∃ fresh, m.Steady fresh m' := by
  obtain ⟨fresh,grows,intact,strings⟩ := spells
  refine ⟨fresh,grows.steady intact fun h new o found => ?_⟩
  obtain ⟨text,rfl⟩ := strings h new o found
  simp

theorem Spells.collect (intact : m.Intact ∅) : m.Spells m.collect :=
  ⟨∅,intact.collect.2,intact.collect.1,by simp⟩

/-- A value may be pinned for a while. -/
theorem Spells.unpin {value : Value}
    (spells : Machine.Spells { m with pinned := value :: m.pinned } m') :
    m.Spells { m' with pinned := m'.pinned.tail } := by
  obtain ⟨fresh,grows,still,strings⟩ := spells
  have pinned : m'.pinned = value :: m.pinned := by rw [grows.same]
  have anchors : m.anchors ⊆ Machine.anchors { m with pinned := value :: m.pinned } := by
    intro h member
    simp only [Machine.anchors,List.mem_append,List.filterMap_cons] at member ⊢
    refine member.imp_right fun pinned => ?_
    split
    · exact pinned
    · exact List.mem_cons_of_mem _ pinned
  refine ⟨fresh,⟨?_,grows.old,fun h there => grows.kept h (there.carry anchors fun _ _ => rfl),
    grows.apart⟩,
    { still with pinned := fun v member => still.pinned v (List.mem_of_mem_tail member) },strings⟩
  have same := grows.same
  rw [same]
  rfl

end Machine

/-! The rules for native actions. -/

section

variable {α β : Type} {m m' : Machine}

theorem Action.ensures_pinning {value : Value} {action : Action α} {ok : α → Machine → Prop}
    {stop : Stop → Machine → Prop} : Ensures (pinning value action) m ok stop ↔
      action.Ensures { m with pinned := value :: m.pinned }
        (fun a m' => ok a { m' with pinned := m'.pinned.tail }) stop := by
  simp [pinning]

namespace NativeAction

/-- An action only looks at the machine, and either refuses or gives what is expected. -/
def Reads (action : NativeAction α) (m : Machine) (ok : α → Prop) : Prop :=
  Ensures action.run m (fun r m' => m' = m ∧ ∀ a, r = .ok a → ok a) fun _ _ => False

/-- An action does no more than a native function may do. -/
def Polite (action : NativeAction Value) (m : Machine) : Prop :=
  Ensures action.run m
    (fun r m' => (∃ fresh, m.Steady fresh m') ∧ ∀ value, r = .ok value → m'.heap.Holds value)
    fun _ _ => False

theorem Reads.bind {action : NativeAction α} {next : α → NativeAction Value} {ok : α → Prop}
    (intact : m.Intact ∅) (reads : Reads action m ok) (polite : ∀ a, ok a → Polite (next a) m) :
    Polite (action >>= next) m := by
  rw [Polite,ExceptT.run_bind,ensures_bind]
  refine reads.mono ?_ fun _ _ impossible => impossible
  rintro (failure | a) m' ⟨rfl,given⟩
  · exact ⟨⟨∅,.refl intact⟩,by simp⟩
  · exact polite a (given a rfl)

theorem Reads.of_action {action : Action α} {ok : α → Prop}
    (ensures : action.Ensures m (fun a m' => m' = m ∧ ok a) fun _ _ => False) :
    Reads (liftM action) m ok := by
  rw [Reads]
  change Ensures (Except.ok <$> action) m _ _
  rw [ensures_map]
  refine ensures.mono ?_ fun _ _ impossible => impossible
  rintro a m' ⟨same,given⟩
  refine ⟨same,?_⟩
  rintro _ ⟨⟩
  exact given

theorem Polite.of_action {action : Action Value}
    (ensures : action.Ensures m (fun value m' => (∃ fresh, m.Steady fresh m') ∧ m'.heap.Holds value)
      fun _ _ => False) : Polite (liftM action) m := by
  rw [Polite]
  change Ensures (Except.ok <$> action) m _ _
  rw [ensures_map]
  refine ensures.mono ?_ fun _ _ impossible => impossible
  rintro value m' ⟨steady,held⟩
  refine ⟨steady,?_⟩
  rintro _ ⟨⟩
  exact held

/-- An action of the machine may come first. -/
theorem ensures_liftM {action : Action α} {next : α → NativeAction β}
    {ok : Except NativeFault β → Machine → Prop} {stop : Stop → Machine → Prop} :
    Ensures (liftM action >>= next : NativeAction β).run m ok stop ↔
      action.Ensures m (fun a m' => (next a).run.Ensures m' ok stop) stop := by
  rw [ExceptT.run_bind,ensures_bind]
  change Ensures (Except.ok <$> action) m _ _ ↔ _
  rw [ensures_map]

theorem polite_pure (intact : m.Intact ∅) {value : Value} (held : m.heap.Holds value) :
    Polite (pure value) m :=
  ⟨⟨∅,.refl intact⟩,by rintro _ ⟨⟩; exact held⟩

theorem reads_argument {arguments : List Value} {index : Nat} {value : Value}
    (found : arguments[index]? = some value) :
    Reads (Native.argument arguments index) m fun v => v = value := by
  rw [Native.argument,found]
  exact ⟨rfl,by rintro _ ⟨⟩; rfl⟩

theorem Reads.seq {action : NativeAction α} {next : α → NativeAction β} {ok : α → Prop}
    {ok' : β → Prop} (reads : Reads action m ok) (more : ∀ a, ok a → Reads (next a) m ok') :
    Reads (action >>= next) m ok' := by
  rw [Reads,ExceptT.run_bind,ensures_bind]
  refine reads.mono ?_ fun _ _ impossible => impossible
  rintro (failure | a) m' ⟨rfl,given⟩
  · exact ⟨rfl,by simp⟩
  · exact more a (given a rfl)

theorem reads_refuse {index : Nat} {expected : String} {value : Value} {ok : α → Prop} :
    Reads (Native.refuse index expected value) m ok :=
  ⟨rfl,by rintro _ ⟨⟩⟩

theorem reads_number {arguments : List Value} {index : Nat} {value : Value}
    (found : arguments[index]? = some value) :
    Reads (Native.number arguments index) m fun _ => True := by
  refine (reads_argument found).seq ?_
  rintro _ rfl
  split
  · exact ⟨rfl,fun _ _ => trivial⟩
  · exact reads_refuse

theorem reads_bool {arguments : List Value} {index : Nat} {value : Value}
    (found : arguments[index]? = some value) :
    Reads (Native.bool arguments index) m fun _ => True := by
  refine (reads_argument found).seq ?_
  rintro _ rfl
  split
  · exact ⟨rfl,fun _ _ => trivial⟩
  · exact reads_refuse

theorem reads_stringOf? {value : Value} (held : m.heap.Holds value) :
    Reads (liftM (Action.stringOf? value)) m fun _ => True :=
  .of_action (.stringOf? held fun _ => ⟨rfl,trivial⟩)

theorem reads_text (value : Value) :
    Reads (liftM (Action.text value)) m fun _ => True :=
  ⟨rfl,fun _ _ => trivial⟩

theorem reads_typeName (value : Value) :
    Reads (liftM (Action.typeName value)) m fun _ => True :=
  ⟨rfl,fun _ _ => trivial⟩

theorem reads_get : Reads (getThe Machine) m fun _ => True :=
  ⟨rfl,fun _ _ => trivial⟩

theorem reads_string {arguments : List Value} {index : Nat} {value : Value}
    (found : arguments[index]? = some value) (held : m.heap.Holds value) :
    Reads (Native.string arguments index) m fun _ => True := by
  refine (reads_argument found).seq ?_
  rintro _ rfl
  refine (reads_stringOf? held).seq fun text _ => ?_
  split
  · exact ⟨rfl,fun _ _ => trivial⟩
  · exact reads_refuse

end NativeAction

end

/-! The standard functions. -/

namespace Native

open NativeAction

variable {m : Machine}

theorem ensures_newText {text : Bytes} (intact : m.Intact ∅) {ok : Handle → Machine → Prop}
    {stop : Stop → Machine → Prop}
    (next : ∀ h m', m.Spells m' → m'.heap.get? h = some (.string text) → ok h m') :
    Ensures (allocateString text) m ok stop := by
  refine .allocateString intact fun h m' fresh grows only still found => ?_
  refine next h m' ⟨fresh,grows,still,fun k new o here => ?_⟩ found
  obtain rfl := only k new
  rw [found] at here
  cases here
  exact ⟨text,rfl⟩

theorem polite_newString (text : Bytes) (intact : m.Intact ∅) : Polite (newString text) m := by
  rw [Polite,newString,ensures_liftM]
  refine ensures_newText intact fun h m' spells found => ⟨spells.steady,?_⟩
  rintro _ ⟨⟩
  exact Heap.holds_object found

theorem reads_inspection {value : Value} (held : m.heap.Holds value) :
    Reads (liftM (inspection value)) m fun _ => True := by
  refine .of_action ?_
  cases value with
  | number n => exact ⟨rfl,trivial⟩
  | bool b => exact ⟨rfl,trivial⟩
  | nil => exact ⟨rfl,trivial⟩
  | object h =>
    rw [inspection,ensures_bind]
    refine .stringOf? held fun text => ?_
    split
    · exact ⟨rfl,trivial⟩
    · exact ⟨rfl,trivial⟩

/-- While a value is pinned, strings may be made as well. -/
theorem ensures_pinned {value : Value} {action : Action Value} (intact : m.Intact ∅)
    (held : m.heap.Holds value)
    (inner : ∀ mid, mid.Intact ∅ → mid = { m with pinned := value :: m.pinned } →
      Ensures action mid (fun v m' => mid.Spells m' ∧ m'.heap.Holds v) fun _ _ => False) :
    Ensures (pinning value action) m (fun v m' => m.Spells m' ∧ m'.heap.Holds v)
      fun _ _ => False := by
  have pinned : Machine.Intact ∅ { m with pinned := value :: m.pinned } := by
    refine { intact with pinned := fun v member => ?_ }
    rcases List.mem_cons.mp member with rfl | old
    · exact held
    · exact intact.pinned v old
  rw [ensures_pinning]
  refine (inner _ pinned rfl).mono ?_ fun _ _ impossible => impossible
  exact fun v m' ⟨spells,held⟩ => ⟨spells.unpin,held⟩

/-- The joined text is pinned during the last collection, so that it is still there. -/
theorem ensures_joinPair (lhs rhs : Value) (intact : m.Intact ∅) :
    Ensures (joinPair lhs rhs) m (fun value m' => m.Spells m' ∧ m'.heap.Holds value)
      fun _ _ => False := by
  rw [joinPair,ensures_bind,ensures_text,ensures_bind]
  refine ensures_newText intact fun l m₁ spells found => ?_
  refine (ensures_pinned spells.intact (Heap.holds_object found) fun m₂ intact _ => ?_).mono
    (fun v m' ⟨more,held⟩ => ⟨spells.trans more,held⟩) fun _ _ impossible => impossible
  rw [ensures_bind,ensures_text,ensures_bind]
  refine ensures_newText intact fun r m₃ spells found => ?_
  refine (ensures_pinned spells.intact (Heap.holds_object found) fun m₄ intact _ => ?_).mono
    (fun v m' ⟨more,held⟩ => ⟨spells.trans more,held⟩) fun _ _ impossible => impossible
  have collected := Machine.Spells.collect intact
  rw [ensures_bind,collect,ensures_modify,ensures_bind]
  refine ensures_newText collected.intact fun joined m₅ spells found => ?_
  refine (ensures_pinned spells.intact (Heap.holds_object found) fun m₆ intact same => ?_).mono
    (fun v m' ⟨more,held⟩ => ⟨(collected.trans spells).trans more,held⟩)
    fun _ _ impossible => impossible
  rw [ensures_bind,ensures_modify,ensures_pure]
  have pinned : m₆.Reaches joined := Machine.reaches_pinned (by simp [same])
  have heap : m₆.heap = m₅.heap := by rw [same]
  have still := (intact.collect.2.kept joined pinned).2
  rw [heap,found] at still
  exact ⟨.collect intact,Heap.holds_object still⟩

/-- An argument that a standard function asks for is there, and it is held. -/
theorem argument_held {native : Native} {arguments : List Value} (intact : m.Intact ∅)
    (length : ∀ n, native.arity = some n → arguments.length = n)
    (stack : ∀ value ∈ arguments, value ∈ m.stack) {n : Nat} (arity : native.arity = some n)
    {index : Nat} (inside : index < n) :
    ∃ value, arguments[index]? = some value ∧ m.heap.Holds value := by
  have bound : index < arguments.length := length n arity ▸ inside
  exact ⟨_,List.getElem?_eq_getElem bound,intact.stack _ (stack _ (List.getElem_mem bound))⟩

/-- Every standard function does as it should. -/
theorem polite_call (native : Native) (arguments : List Value) (intact : m.Intact ∅)
    (length : ∀ n, native.arity = some n → arguments.length = n)
    (stack : ∀ value ∈ arguments, value ∈ m.stack) : Polite (native.call arguments) m := by
  have argument {n : Nat} := @argument_held m native arguments intact length stack n
  cases native with
  | str =>
    obtain ⟨value,found,held⟩ := argument rfl Nat.one_pos
    refine (reads_argument found).bind intact ?_
    rintro _ rfl
    refine (reads_stringOf? held).bind intact fun text _ => ?_
    split
    · exact polite_pure intact held
    · exact (reads_text _).bind intact fun text _ => polite_newString text intact
  | clock => exact polite_pure intact (by simp)
  | put =>
    obtain ⟨value,found,held⟩ := argument rfl Nat.one_pos
    refine (reads_argument found).bind intact ?_
    rintro _ rfl
    exact ⟨⟨∅,.of_heap (.refl m) rfl,{ intact with },rfl,rfl,rfl⟩,by rintro _ ⟨⟩; simp⟩
  | twice =>
    obtain ⟨value,found,held⟩ := argument rfl Nat.one_pos
    exact (reads_number found).bind intact fun _ _ => polite_pure intact (by simp)
  | flip =>
    obtain ⟨value,found,held⟩ := argument rfl Nat.one_pos
    exact (reads_bool found).bind intact fun _ _ => polite_pure intact (by simp)
  | len =>
    obtain ⟨value,found,held⟩ := argument rfl Nat.one_pos
    exact (reads_string found held).bind intact fun _ _ => polite_pure intact (by simp)
  | count => exact polite_pure intact (by simp)
  | type =>
    obtain ⟨value,found,held⟩ := argument rfl Nat.one_pos
    refine (reads_argument found).bind intact ?_
    rintro _ rfl
    exact (reads_typeName _).bind intact fun text _ => polite_newString text intact
  | tick =>
    obtain ⟨value,found,held⟩ := argument rfl Nat.one_pos
    refine (reads_number found).bind intact fun step _ => ?_
    exact ⟨⟨∅,.of_heap (.refl m) rfl,{ intact with },rfl,rfl,rfl⟩,by rintro _ ⟨⟩; simp⟩
  | depth => exact polite_pure intact (by simp)
  | frames => exact polite_pure intact (by simp)
  | gc => exact ⟨(Machine.Spells.collect intact).steady,by rintro _ ⟨⟩; simp⟩
  | live => exact polite_pure intact (by simp)
  | state => exact reads_get.bind intact fun other _ => polite_newString _ intact
  | mix =>
    obtain ⟨first,found,-⟩ := argument rfl (show 0 < 3 by decide)
    obtain ⟨second,foundToo,-⟩ := argument rfl (show 1 < 3 by decide)
    obtain ⟨third,last,held⟩ := argument rfl (show 2 < 3 by decide)
    refine (reads_number found).bind intact fun n _ => ?_
    refine (reads_bool foundToo).bind intact fun b _ => ?_
    exact (reads_string last held).bind intact fun s _ => polite_newString _ intact
  | fail =>
    obtain ⟨kind,found,held⟩ := argument rfl (show 0 < 2 by decide)
    obtain ⟨message,foundToo,heldToo⟩ := argument rfl (show 1 < 2 by decide)
    refine (reads_string found held).bind intact fun kind _ => ?_
    refine (reads_string foundToo heldToo).bind intact fun message _ => ?_
    exact ⟨⟨∅,.refl intact⟩,by rintro _ ⟨⟩⟩
  | pair =>
    obtain ⟨first,found,-⟩ := argument rfl (show 0 < 2 by decide)
    obtain ⟨second,foundToo,-⟩ := argument rfl (show 1 < 2 by decide)
    refine (reads_argument found).bind intact fun lhs _ => ?_
    refine (reads_argument foundToo).bind intact fun rhs _ => .of_action ?_
    refine (ensures_joinPair lhs rhs intact).mono ?_ fun _ _ impossible => impossible
    exact fun value m' ⟨spells,held⟩ => ⟨spells.steady,held⟩
  | inspect =>
    obtain ⟨value,found,held⟩ := argument rfl Nat.one_pos
    refine (reads_argument found).bind intact ?_
    rintro _ rfl
    exact (reads_inspection held).bind intact fun text _ => polite_newString text intact
  | constants =>
    obtain ⟨value,found,held⟩ := argument rfl Nat.one_pos
    refine (reads_number found).bind intact fun n _ => ?_
    split
    · exact polite_pure intact (by simp)
    · split <;> exact polite_pure intact (by simp)
  | custom id => exact ⟨⟨∅,.refl intact⟩,by rintro _ ⟨⟩⟩

end Native

theorem Host.standard_respectful : Host.standard.Respectful := by
  intro native arguments m length intact stack
  obtain ⟨result,m',run,⟨fresh,steady⟩,held⟩ :=
    (Native.polite_call native arguments intact length stack).succeeds
  exact ⟨result,m',fresh,run,steady,held⟩

end ScriptMachine
