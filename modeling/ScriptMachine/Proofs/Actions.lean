import Mathlib
import ScriptMachine.Proofs.Integrity

/-! What an action comes to, step by step. Each primitive action has one rule that tells what must
hold for it to go well and for it to stop; the rule of an action in two parts is made of theirs. -/
namespace ScriptMachine.Action

/-- An action that goes well leads to `ok`, and one that stops leads to `stop`. -/
def Ensures {α : Type} (action : Action α) (m : Machine) (ok : α → Machine → Prop)
    (stop : Stop → Machine → Prop) : Prop :=
  match action m with
  | .ok a m' => ok a m'
  | .error s m' => stop s m'

section

variable {α β : Type} {m : Machine} {ok : α → Machine → Prop} {stop : Stop → Machine → Prop}

theorem Ensures.mono {action : Action α} {ok' : α → Machine → Prop}
    {stop' : Stop → Machine → Prop} (ensures : action.Ensures m ok stop)
    (more : ∀ a m', ok a m' → ok' a m') (laxer : ∀ s m', stop s m' → stop' s m') :
    action.Ensures m ok' stop' := by
  unfold Ensures at ensures ⊢
  cases run : action m with
  | ok a m' =>
    rw [run] at ensures
    exact more a m' ensures
  | error s m' =>
    rw [run] at ensures
    exact laxer s m' ensures

theorem Ensures.of_ok {action : Action α} {a : α} {m' : Machine} (run : action m = .ok a m')
    (holds : ok a m') : action.Ensures m ok stop := by
  rw [Ensures,run]
  exact holds

/-- The parts of an action that went well. -/
theorem bind_ok {action : Action α} {next : α → Action β} {b : β} {m' : Machine}
    (run : (action >>= next) m = .ok b m') :
    ∃ a mid, action m = .ok a mid ∧ next a mid = .ok b m' := by
  change EStateM.bind action next m = .ok b m' at run
  rw [EStateM.bind] at run
  split at run
  next a mid first => exact ⟨a,mid,first,run⟩
  next => contradiction

/-- The machine after an action that goes well. -/
def result? (action : Action α) (m : Machine) : Option Machine :=
  match action m with
  | .ok _ m' => some m'
  | .error _ _ => none

theorem result?_eq_some {action : Action α} {m' : Machine} :
    action.result? m = some m' ↔ ∃ a, action m = .ok a m' := by
  rw [result?]
  cases action m with
  | ok a mid => simp
  | error s mid => simp

theorem Ensures.apply {action : Action α} (ensures : action.Ensures m ok stop) {a : α} {m' : Machine}
    (run : action m = .ok a m') : ok a m' := by
  rwa [Ensures,run] at ensures

theorem Ensures.stopped {action : Action α} (ensures : action.Ensures m ok stop) {s : Stop}
    {m' : Machine} (run : action m = .error s m') : stop s m' := by
  rwa [Ensures,run] at ensures

/-- An action that cannot stop. -/
theorem Ensures.succeeds {action : Action α} (ensures : action.Ensures m ok fun _ _ => False) :
    ∃ a m', action m = .ok a m' ∧ ok a m' := by
  unfold Ensures at ensures
  cases run : action m with
  | ok a m' =>
    rw [run] at ensures
    exact ⟨a,m',rfl,ensures⟩
  | error s m' =>
    rw [run] at ensures
    exact ensures.elim

@[simp] theorem ensures_bind {action : Action α} {next : α → Action β}
    {ok : β → Machine → Prop} : Ensures (action >>= next) m ok stop ↔
      action.Ensures m (fun a m' => (next a).Ensures m' ok stop) stop := by
  unfold Ensures
  change (match EStateM.bind action next m with | .ok a m' => ok a m' | .error s m' => stop s m') ↔ _
  rw [EStateM.bind]
  cases action m <;> rfl

@[simp] theorem ensures_map {action : Action α} {f : α → β} {ok : β → Machine → Prop} :
    Ensures (f <$> action) m ok stop ↔ action.Ensures m (fun a m' => ok (f a) m') stop := by
  unfold Ensures
  change (match EStateM.map f action m with | .ok a m' => ok a m' | .error s m' => stop s m') ↔ _
  rw [EStateM.map]
  cases action m <;> rfl

@[simp] theorem ensures_pure {a : α} : Ensures (pure a) m ok stop ↔ ok a m := Iff.rfl

@[simp] theorem ensures_get {ok : Machine → Machine → Prop} : Ensures get m ok stop ↔ ok m m :=
  Iff.rfl

@[simp] theorem ensures_modify {change : Machine → Machine} {ok : Unit → Machine → Prop} :
    Ensures (modify change) m ok stop ↔ ok () (change m) := Iff.rfl

@[simp] theorem ensures_throw {s : Stop} : Ensures (throw s : Action α) m ok stop ↔ stop s m :=
  Iff.rfl

@[simp] theorem ensures_stuck : Ensures (stuck : Action α) m ok stop ↔ stop .stuck m := Iff.rfl

@[simp] theorem ensures_fault {f : RuntimeFault} :
    Ensures (fault f : Action α) m ok stop ↔ stop (.fault ⟨f,m.trace⟩) m := Iff.rfl

@[simp] theorem ensures_ite {c : Prop} [Decidable c] {yes no : Action α} :
    Ensures (if c then yes else no) m ok stop ↔
      (c → yes.Ensures m ok stop) ∧ (¬c → no.Ensures m ok stop) := by
  split <;> simp [*]

theorem ensures_need {value : Option α} :
    Ensures (need value) m ok stop ↔
      (∀ a, value = some a → ok a m) ∧ (value = none → stop .stuck m) := by
  cases value <;> simp [need]

@[simp] theorem ensures_some {a : α} : Ensures (need (some a)) m ok stop ↔ ok a m := Iff.rfl

end

/-! The stack. -/

section

variable {m : Machine} {stop : Stop → Machine → Prop} {ok : Unit → Machine → Prop}

theorem ensures_push {value : Value} : Ensures (push value) m ok stop ↔
    (Machine.stackLimit ≤ m.stack.size → stop (.fault ⟨.stackFull,m.trace⟩) m) ∧
      (m.stack.size < Machine.stackLimit → ok () { m with stack := m.stack.push value }) := by
  simp [push]

theorem ensures_pop (some : 0 < m.stack.size) :
    Ensures pop m ok stop ↔ ok () { m with stack := m.stack.pop } := by
  have full : m.stack ≠ #[] := Array.ne_empty_of_size_pos some
  simp [pop,full]

theorem mem_of_mem_pop {values : Array Value} {value : Value} (member : value ∈ values.pop) :
    value ∈ values := by
  rw [← Array.mem_toList_iff] at member ⊢
  rw [Array.toList_pop] at member
  exact List.mem_of_mem_dropLast member

theorem getElem?_shrink {values : Array Value} {size p : Nat} :
    (values.shrink size)[p]? = if p < size then values[p]? else none := by
  by_cases low : p < size
  · by_cases inside : p < values.size
    · have bound : p < (values.shrink size).size := by
        rw [Array.size_shrink]
        omega
      rw [Array.getElem?_eq_getElem bound,Array.getElem_shrink,if_pos low,
        Array.getElem?_eq_getElem inside]
    · rw [if_pos low,Array.getElem?_eq_none (Nat.le_of_not_lt inside),Array.getElem?_eq_none]
      rw [Array.size_shrink]
      omega
  · rw [if_neg low,Array.getElem?_eq_none]
    rw [Array.size_shrink]
    omega

theorem mem_of_mem_shrink {values : Array Value} {size : Nat} {value : Value}
    (member : value ∈ values.shrink size) : value ∈ values := by
  obtain ⟨p,found⟩ := Array.mem_iff_getElem?.mp member
  rw [getElem?_shrink] at found
  split at found
  · exact Array.mem_of_getElem? found
  · contradiction

theorem mem_of_mem_extract {values : Array Value} {start stop : Nat} {value : Value}
    (member : value ∈ values.extract start stop) : value ∈ values := by
  obtain ⟨p,found⟩ := Array.mem_iff_getElem?.mp member
  rw [Array.getElem?_extract] at found
  split at found
  · exact Array.mem_of_getElem? found
  · contradiction

theorem ensures_setSlot {index : Nat} {value : Value} (inside : index < m.stack.size) :
    Ensures (setSlot index value) m ok stop ↔
      ok () { m with stack := m.stack.setIfInBounds index value } := by
  simp [setSlot,inside]

theorem ensures_replaceTop {value : Value} (some : 0 < m.stack.size) :
    Ensures (replaceTop value) m ok stop ↔
      ok () { m with stack := m.stack.setIfInBounds (m.stack.size - 1) value } := by
  have inside : m.stack.size - 1 < m.stack.size := by omega
  have full : m.stack ≠ #[] := Array.ne_empty_of_size_pos some
  simp [replaceTop,full,ensures_setSlot inside]

theorem ensures_shrinkTo {size : Nat} (inside : size ≤ m.stack.size) :
    Ensures (shrinkTo size) m ok stop ↔ ok () { m with stack := m.stack.shrink size } := by
  simp [shrinkTo,inside]

theorem ensures_peek {ok : Value → Machine → Prop} {depth : Nat} (inside : depth < m.stack.size) :
    Ensures (peek depth) m ok stop ↔ ok (m.stack[m.stack.size - 1 - depth]) m := by
  simp [peek,inside,show m.stack.size - 1 - depth < m.stack.size by omega]

theorem ensures_slot {ok : Value → Machine → Prop} {index : Nat} (inside : index < m.stack.size) :
    Ensures (slot index) m ok stop ↔ ok (m.stack[index]) m := by
  simp [slot,inside]

end

/-! Frames and objects. -/

section

variable {m : Machine} {stop : Stop → Machine → Prop}

theorem ensures_frame {ok : Frame → Machine → Prop} {f : Frame} {fs : List Frame}
    (frames : m.frames = f :: fs) : Ensures frame m ok stop ↔ ok f m := by
  simp [frame,frames]

@[simp] theorem ensures_modifyFrame {ok : Unit → Machine → Prop} {change : Frame → Frame} :
    Ensures (modifyFrame change) m ok stop ↔
      ok () { m with frames := m.frames.modifyHead change } := Iff.rfl

theorem ensures_object {ok : Object → Machine → Prop} {h : Handle} {o : Object}
    (found : m.heap.get? h = some o) : Ensures (object h) m ok stop ↔ ok o m := by
  simp [object,found]

@[simp] theorem ensures_updateObject {ok : Unit → Machine → Prop} {h : Handle}
    {change : Object → Object} : Ensures (updateObject h change) m ok stop ↔
      ok () { m with heap := m.heap.update h change } := Iff.rfl

@[simp] theorem ensures_typeName {ok : Bytes → Machine → Prop} {value : Value} :
    Ensures (typeName value) m ok stop ↔ ok (m.heap.typeName value) m := Iff.rfl

@[simp] theorem ensures_text {ok : Bytes → Machine → Prop} {value : Value} :
    Ensures (text value) m ok stop ↔ ok (m.heap.text value) m := Iff.rfl

@[simp] theorem ensures_nameText {ok : Bytes → Machine → Prop} {h : Handle} :
    Ensures (nameText h) m ok stop ↔ ok (m.heap.stringText h) m := Iff.rfl

@[simp] theorem ensures_write {ok : Unit → Machine → Prop} {bytes : Bytes} :
    Ensures (write bytes) m ok stop ↔ ok () { m with output := m.output ++ bytes } := Iff.rfl

/-- The object of a value that is there. -/
theorem ensures_objectOf? {ok : Option Object → Machine → Prop} {value : Value}
    (held : m.heap.Holds value) : Ensures (objectOf? value) m ok stop ↔
      ok (value.handle?.bind m.heap.get?) m := by
  cases value with
  | object h =>
    obtain ⟨o,found⟩ := held h rfl
    simp [objectOf?,Value.handle?,ensures_object found,found]
  | _ => simp [objectOf?,Value.handle?]

theorem Ensures.stringOf? {ok : Option Bytes → Machine → Prop} {value : Value}
    (held : m.heap.Holds value) (next : ∀ text, ok text m) :
    Ensures (stringOf? value) m ok stop := by
  rw [Action.stringOf?,ensures_bind,ensures_objectOf? held]
  split
  · exact next _
  · exact next _

/-- The record that a value is, if it is one. -/
theorem Ensures.record? {ok : Option (Handle × Array Value) → Machine → Prop} {value : Value}
    (held : m.heap.Holds value)
    (some : ∀ h shape fields, value = .object h → m.heap.get? h = some (.record shape fields) →
      ok (some (shape,fields)) m) (none : ok none m) : Ensures (record? value) m ok stop := by
  rw [Action.record?,ensures_bind,ensures_objectOf? held]
  split
  next shape fields found =>
    cases value with
    | object h => exact some h shape fields rfl found
    | _ => cases found
  next => exact none

theorem ensures_nameOf {ok : Handle → Machine → Prop} {h : Handle} {text : Bytes}
    (found : m.heap.get? h = some (.string text)) :
    Ensures (nameOf (.object h)) m ok stop ↔ ok h m := by
  simp [nameOf,ensures_object found]

theorem ensures_runningFunction {ok : Chunk × Array Value → Machine → Prop} {f : Frame}
    {fs : List Frame} {chunk : Chunk} {constants : Array Value} (frames : m.frames = f :: fs)
    (code : m.functionOf? f.closure = some (chunk,constants)) :
    Ensures runningFunction m ok stop ↔ ok (chunk,constants) m := by
  simp [runningFunction,frames,code]

theorem ensures_constant {ok : Value → Machine → Prop} {f : Frame} {fs : List Frame}
    {chunk : Chunk} {constants : Array Value} {index : Nat} {value : Value}
    (frames : m.frames = f :: fs) (code : m.functionOf? f.closure = some (chunk,constants))
    (found : constants[index]? = some value) :
    Ensures (constant index) m ok stop ↔ ok value m := by
  simp [constant,ensures_runningFunction frames code,found]

theorem ensures_capturedCell {ok : Handle → Machine → Prop} {f : Frame} {fs : List Frame}
    {code cell : Handle} {captures : Array Handle} {n : Nat}
    (frames : m.frames = f :: fs) (here : m.heap.get? f.closure = some (.closure code captures))
    (found : captures[n]? = some cell) : Ensures (capturedCell n) m ok stop ↔ ok cell m := by
  rw [capturedCell,ensures_bind,ensures_frame frames,ensures_bind,ensures_object here]
  simp [found]

theorem ensures_cellState {ok : Cell → Machine → Prop} {h : Handle} {state : Cell}
    (found : m.heap.get? h = some (.cell state)) : Ensures (cellState h) m ok stop ↔ ok state m := by
  simp [cellState,ensures_object found]

end

/-! Allocation. -/

section

variable {m : Machine} {raw : Set Handle} {stop : Stop → Machine → Prop}
  {ok : Handle → Machine → Prop}

theorem ensures_makeRoom {ok : Unit → Machine → Prop} {size : Nat} (intact : m.Intact raw)
    (next : ∀ m', m'.Intact raw → m.Grows ∅ m' → ok () m') :
    Ensures (makeRoom size) m ok stop := by
  simp only [makeRoom,collect,ensures_bind,ensures_get,ensures_ite,ensures_modify]
  exact ⟨fun _ => next _ intact.collect.1 intact.collect.2,fun _ => next _ intact (.refl m)⟩

/-- A new object that is no string. If it is under construction, it has to be listed as such. -/
theorem Ensures.allocate {object : Object} {size : Nat} (intact : m.Intact raw)
    (plain : ∀ text, object ≠ .string text)
    (next : ∀ h m', m.Grows {h} m' → m'.heap.get? h = some object →
      (∀ incomplete still, object.Valid m.heap incomplete → (∀ r ∈ object.references, m.Reaches r) →
        raw ⊆ still → (incomplete → h ∈ still) → m'.Intact still) → ok h m') :
    Ensures (allocate object size) m ok stop := by
  rw [Action.allocate,ensures_bind]
  refine ensures_makeRoom intact fun mid intactToo grown => ?_
  cases inserted : mid.heap.insert object size with
  | mk h heap =>
    obtain ⟨vacant,found,others,-⟩ := Heap.insert_spec intactToo.tidy inserted
    obtain ⟨grows,still⟩ := intactToo.insert vacant found others
    have whole : m.Grows {h} { mid with heap } := by simpa using grown.trans grows
    refine .of_ok (?_ : _ = EStateM.Result.ok h { mid with heap }) (next h _ whole found ?_)
    · change EStateM.modifyGet _ mid = _
      rw [EStateM.modifyGet,inserted]
    · intro incomplete later valid reached
      refine still (intactToo.tidy.insert inserted plain) incomplete later (valid.later ?_)
      exact fun r member => .of_eq (grown.kept r (reached r member)).2

/-- The interned string with these bytes. -/
theorem Ensures.allocateString {text : Bytes} (intact : m.Intact raw)
    (next : ∀ h m' fresh, m.Grows fresh m' → (∀ k ∈ fresh, k = h) → m'.Intact raw →
      m'.heap.get? h = some (.string text) → ok h m') :
    Ensures (allocateString text) m ok stop := by
  rw [Action.allocateString,ensures_bind,ensures_get]
  cases known : m.heap.find? text with
  | some h =>
    exact next h m ∅ (.refl m) (by simp) intact ((intact.tidy.interned text h).mp known)
  | none =>
    simp only [ensures_bind]
    refine ensures_makeRoom intact fun mid intactToo grown => ?_
    have missing : mid.heap.find? text = none := by
      cases later : mid.heap.find? text with
      | none => rfl
      | some h =>
        have here := grown.old h not_false _ ((intactToo.tidy.interned text h).mp later)
        rw [(intact.tidy.interned text h).mpr here] at known
        contradiction
    cases inserted : mid.heap.insertString text with
    | mk h heap =>
      obtain ⟨tidy,vacant,found,others⟩ :=
        Heap.insertString_spec intactToo.tidy missing inserted
      obtain ⟨grows,still⟩ := intactToo.insert vacant found others
      have whole : m.Grows {h} { mid with heap } := by simpa using grown.trans grows
      refine .of_ok (?_ : _ = EStateM.Result.ok h { mid with heap }) (next h _ {h} whole (by simp)
        (still tidy False raw trivial subset_rfl False.elim) found)
      change EStateM.modifyGet _ mid = _
      rw [EStateM.modifyGet,inserted]

end

end ScriptMachine.Action

/-! What follows from what an action came to. -/
namespace ScriptMachine.Machine

variable {α : Type} {host : Host} {fuel : Nat} {chunk : Chunk} {m m' : Machine} {stop : Stop}
  {action : Action α} {a : α}

theorem resumeWith_ok (stepped : Action.step host m = .ok () m') :
    m.resumeWith host (fuel + 1) = m'.resumeWith host fuel := by
  simp [resumeWith,EStateM.run,stepped]

theorem resumeWith_error (stepped : Action.step host m = .error stop m') :
    m.resumeWith host (fuel + 1) = m'.conclude stop := by
  simp [resumeWith,EStateM.run,stepped]

theorem executeWith_ok (started : Action.start chunk m = .ok () m') :
    m.executeWith host fuel chunk = m'.resumeWith host fuel := by
  simp [executeWith,EStateM.run,started]

theorem after_ok (done : action m = .ok a m') : m.after action = m' := by
  simp [after,EStateM.run,done]

theorem after_error (failed : action m = .error stop m') : m.after action = m' := by
  simp [after,EStateM.run,failed]

end ScriptMachine.Machine
