import Mathlib
import ScriptMachine.Proofs.Discretion
import ScriptMachine.Proofs.Origins

/-! Scripts stay hidden. The closure of a script lies at the bottom of the stack, where no instruction
looks, and nothing else refers to it. So whatever is called runs the code of a function in some source,
and only the lowest frame runs the code of a script. -/
namespace ScriptMachine

open ScriptMachine.Action

namespace Heap

/-- A closure that does not run the code of a function in a source, such as that of a script. -/
def IsScript (heap : Heap) (h : Handle) : Prop :=
  ∃ function captures chunk constants, heap.get? h = some (.closure function captures) ∧
    heap.get? function = some (.function chunk constants) ∧ ¬chunk.Inner

/-- The value is no script. -/
def Candid (heap : Heap) (value : Value) : Prop :=
  ∀ h, value = .object h → ¬heap.IsScript h

/-- There are no new scripts. -/
def Veils (heap future : Heap) : Prop :=
  ∀ h, future.IsScript h → heap.IsScript h

variable {heap future last : Heap} {h : Handle}

theorem Veils.refl (heap : Heap) : heap.Veils heap :=
  fun _ script => script

theorem Veils.trans (first : heap.Veils future) (second : future.Veils last) : heap.Veils last :=
  fun h script => first h (second h script)

theorem Candid.later {value : Value} (candid : heap.Candid value) (veils : heap.Veils future) :
    future.Candid value :=
  fun h same script => candid h same (veils h script)

@[simp] theorem candid_number (n : Float) : heap.Candid (.number n) := by simp [Candid]

@[simp] theorem candid_bool (b : Bool) : heap.Candid (.bool b) := by simp [Candid]

@[simp] theorem candid_nil : heap.Candid .nil := by simp [Candid]

theorem candid_object : heap.Candid (.object h) ↔ ¬heap.IsScript h := by simp [Candid]

/-- An object of another kind is no script. -/
theorem not_isScript {o : Object} (found : heap.get? h = some o)
    (other : ∀ function captures, o ≠ .closure function captures) : ¬heap.IsScript h := by
  rintro ⟨function,captures,chunk,constants,here,-⟩
  rw [found] at here
  exact other function captures (Option.some.inj here)

/-- It makes no difference what the parts are that may change. -/
theorem veils_of_outlines (outlines : ∀ h o', future.get? h = some o' →
    ∃ o, heap.get? h = some o ∧ o.outline = o'.outline) : heap.Veils future := by
  rintro h ⟨function,captures,chunk,constants,here,there,outer⟩
  obtain ⟨o,before,same⟩ := outlines h _ here
  obtain ⟨o',beforeToo,sameToo⟩ := outlines function _ there
  cases o <;> simp [Object.outline] at same
  cases o' <;> simp [Object.outline] at sameToo
  subst same sameToo
  exact ⟨_,_,_,_,before,beforeToo,outer⟩

theorem veils_collect (heap : Heap) (roots : List Handle) : heap.Veils (heap.collect roots) :=
  veils_of_outlines fun _ o' found => ⟨o',get?_of_collect found,rfl⟩

theorem veils_update {change : Object → Object}
    (changes : ∀ o, heap.get? h = some o → (change o).outline = o.outline) :
    heap.Veils (heap.update h change) := by
  refine veils_of_outlines fun k o' found => ?_
  rw [get?_update] at found
  split at found
  next same =>
    obtain ⟨o,here,rfl⟩ := Option.map_eq_some_iff.mp found
    exact ⟨o,same ▸ here,(changes o here).symm⟩
  next => exact ⟨o',found,rfl⟩

/-- A new object is no script unless it is a closure of one. -/
theorem veils_insert {object : Object} (found : future.get? h = some object)
    (others : ∀ other, other ≠ h → future.get? other = heap.get? other)
    (plain : ∀ chunk constants, object ≠ .function chunk constants)
    (inner : ∀ function captures, object = .closure function captures → ∀ chunk constants,
      heap.get? function = some (.function chunk constants) → chunk.Inner) : heap.Veils future := by
  rintro k ⟨function,captures,chunk,constants,here,there,outer⟩
  have elsewhere : function ≠ h := by
    rintro rfl
    rw [found] at there
    exact plain chunk constants (Option.some.inj there)
  rw [others function elsewhere] at there
  by_cases new : k = h
  · subst new
    rw [found] at here
    exact absurd (inner function captures (Option.some.inj here) chunk constants there) outer
  · exact ⟨function,captures,chunk,constants,others k new ▸ here,there,outer⟩

end Heap

namespace Machine

/-- No script is within reach of an instruction: none lies on the stack above the bottom, no object refers
to one and no global has one for its value, nor is a cell or a frame open for the bottom of the stack. -/
structure Veiled (m : Machine) : Prop where
  tidy : m.heap.Tidy
  stack : ∀ p value, 1 ≤ p → m.stack[p]? = some value → m.heap.Candid value
  objects : ∀ h o, m.heap.get? h = some o → ∀ r ∈ o.references, ¬m.heap.IsScript r
  tables : ∀ table ∈ m.globals :: m.shelved, ∀ (name : Handle) (value : Value),
    table[name]? = some value → m.heap.Candid value
  cells : ∀ h slot, m.Opens h slot → 1 ≤ slot
  bases : ∀ f ∈ m.frames, 1 ≤ f.base

variable {m m' : Machine} {h : Handle}

theorem Veiled.contents (veiled : m.Veiled) {o : Object} (found : m.heap.get? h = some o) {value : Value}
    (inside : ∀ r, value = .object r → r ∈ o.references) : m.heap.Candid value :=
  fun r same => veiled.objects h o found r (inside r same)

theorem Veiled.setStack (veiled : m.Veiled) {stack : Array Value}
    (candid : ∀ p value, 1 ≤ p → stack[p]? = some value → m.heap.Candid value) :
    Machine.Veiled { m with stack } :=
  { veiled with stack := candid }

theorem Veiled.moved (veiled : m.Veiled) {change : Frame → Frame} (base : ∀ f, (change f).base = f.base) :
    Machine.Veiled { m with frames := m.frames.modifyHead change } := by
  refine { veiled with bases := ?_ }
  have bases := veiled.bases
  change ∀ g ∈ m.frames.modifyHead change, _
  cases frames : m.frames with
  | nil => simp
  | cons f fs =>
    rw [frames,List.forall_mem_cons] at bases
    rw [List.modifyHead_cons,List.forall_mem_cons,base]
    exact bases

/-- Another heap can take the place of the machine's own if it has no new scripts. -/
theorem Veiled.replace (veiled : m.Veiled) {heap : Heap} (tidy : heap.Tidy) (veils : m.heap.Veils heap)
    (objects : ∀ h o, heap.get? h = some o → m.heap.get? h = some o ∨
      (∀ r ∈ o.references, ¬heap.IsScript r) ∧ ∀ slot, o = .cell (.onStack slot) → 1 ≤ slot) :
    Machine.Veiled { m with heap } where
  tidy
  stack p value low found := (veiled.stack p value low found).later veils
  objects h o found r member script := by
    rcases objects h o found with old | ⟨new,-⟩
    · exact veiled.objects h o old r member (veils r script)
    · exact new r member script
  tables table member name value found := (veiled.tables table member name value found).later veils
  cells h slot opens := by
    rcases objects h _ opens with old | ⟨-,new⟩
    · exact veiled.cells h slot old
    · exact new slot rfl
  bases := veiled.bases

theorem Veiled.collect (veiled : m.Veiled) : m.collect.Veiled :=
  veiled.replace (veiled.tidy.collect _) (Heap.veils_collect _ _) fun _ _ found =>
    .inl (Heap.get?_of_collect found)

theorem Veiled.update (veiled : m.Veiled) {change : Object → Object}
    (outline : ∀ o, m.heap.get? h = some o → (change o).outline = o.outline)
    (refers : ∀ o, m.heap.get? h = some o → (∀ r ∈ (change o).references, ¬m.heap.IsScript r) ∧
      ∀ slot, change o = .cell (.onStack slot) → 1 ≤ slot) :
    Machine.Veiled { m with heap := m.heap.update h change } := by
  have veils := Heap.veils_update outline
  refine veiled.replace (veiled.tidy.change fun text => ?_) veils fun k o found => ?_
  · cases here : m.heap.get? h with
    | none => simp
    | some o =>
      have same := outline o here
      rw [Option.map_some,Option.some_inj,Option.some_inj]
      constructor
      · intro new
        rw [new] at same
        exact Heap.outline_string same.symm
      · rintro rfl
        exact Heap.outline_string same
  · rw [Heap.get?_update] at found
    split at found
    next same =>
      obtain ⟨o,here,rfl⟩ := Option.map_eq_some_iff.mp found
      obtain ⟨each,opens⟩ := refers o here
      exact .inr ⟨fun r member script => each r member (veils r script),opens⟩
    next => exact .inl found

/-- An object in a place that held nothing. -/
theorem Veiled.insert (veiled : m.Veiled) {object : Object} {heap : Heap} (tidy : heap.Tidy)
    (found : heap.get? h = some object)
    (others : ∀ other, other ≠ h → heap.get? other = m.heap.get? other) (veils : m.heap.Veils heap)
    (refers : ∀ r ∈ object.references, ¬m.heap.IsScript r)
    (opens : ∀ slot, object = .cell (.onStack slot) → 1 ≤ slot) : Machine.Veiled { m with heap } := by
  refine veiled.replace tidy veils fun k o there => ?_
  by_cases new : k = h
  · subst new
    rw [found] at there
    cases there
    exact .inr ⟨fun r member script => refers r member (veils r script),opens⟩
  · exact .inl (others k new ▸ there)

end Machine

namespace Action

variable {α β : Type} {m : Machine} {x : Action α} {k : α → Action β}
  {ok : α → Machine → Prop} {ok' : β → Machine → Prop}

/-- However the action ends, no script is within reach, and none has come into being. -/
def Veiling (x : Action α) (m : Machine) (ok : α → Machine → Prop) : Prop :=
  x.Ensures m (fun a m' => m'.Veiled ∧ m.heap.Veils m'.heap ∧ ok a m') fun _ m' => m'.Veiled

theorem Veiling.bind (first : Veiling x m ok)
    (rest : ∀ a m', m'.Veiled → m.heap.Veils m'.heap → ok a m' → Veiling (k a) m' ok') :
    Veiling (x >>= k) m ok' := by
  rw [Veiling,ensures_bind]
  refine Ensures.mono first ?_ fun _ _ ends => ends
  rintro a mid ⟨veiled,veils,holds⟩
  exact Ensures.mono (rest a mid veiled veils holds)
    (fun b m' ⟨veiled,more,holds⟩ => ⟨veiled,veils.trans more,holds⟩) fun _ _ ends => ends

theorem Veiling.laxer {other : α → Machine → Prop} (veiling : Veiling x m ok)
    (more : ∀ a m', m.heap.Veils m'.heap → ok a m' → other a m') : Veiling x m other :=
  Ensures.mono veiling (fun a m' ⟨veiled,veils,holds⟩ => ⟨veiled,veils,more a m' veils holds⟩)
    fun _ _ ends => ends

theorem Veiling.mono {other : α → Machine → Prop} (veiling : Veiling x m ok)
    (more : ∀ a m', ok a m' → other a m') : Veiling x m other :=
  veiling.laxer fun a m' _ holds => more a m' holds

theorem Looks.veiling {p : α → Prop} (looks : Looks x m p) (veiled : m.Veiled)
    (rest : ∀ a, p a → Veiling (k a) m ok') : Veiling (x >>= k) m ok' := by
  rw [Veiling,ensures_bind]
  refine Ensures.mono looks ?_ ?_
  · rintro a _ ⟨rfl,holds⟩
    exact rest a holds
  · rintro _ _ rfl
    exact veiled

theorem veiling_pure (veiled : m.Veiled) {a : α} (holds : ok a m) : Veiling (pure a) m ok :=
  ⟨veiled,.refl _,holds⟩

theorem veiling_stuck (veiled : m.Veiled) : Veiling (stuck : Action α) m ok :=
  veiled

theorem veiling_fault (veiled : m.Veiled) (f : RuntimeFault) : Veiling (fault f : Action α) m ok :=
  veiled

/-- What comes after a stop does not matter. -/
theorem veiling_stuck_bind (veiled : m.Veiled) : Veiling (stuck >>= k) m ok' :=
  looks_stuck.veiling veiled fun _ (impossible : False) => impossible.elim

theorem veiling_fault_bind (veiled : m.Veiled) (f : RuntimeFault) : Veiling (fault f >>= k) m ok' :=
  (looks_fault f).veiling veiled fun _ (impossible : False) => impossible.elim

/-- A change that leaves the heap alone. -/
theorem veiling_modify {change : Machine → Machine} (veiled : (change m).Veiled)
    (heap : (change m).heap = m.heap) : Veiling (modify change) m fun _ m' => m' = change m :=
  ⟨veiled,heap ▸ .refl _,rfl⟩

/-! The stack. -/

/-- A value with others below it, or one above the bottom. -/
theorem looks_candid (veiled : m.Veiled) {depth : Nat} (deep : depth + 1 < m.stack.size) :
    Looks (peek depth) m m.heap.Candid :=
  (looks_peek depth).mono fun value found => veiled.stack _ value (by omega) found

theorem looks_slotAt (index : Nat) : Looks (slot index) m fun value => m.stack[index]? = some value := by
  refine looks_get.bind ?_
  rintro _ rfl
  exact looks_need _

theorem veiling_push (veiled : m.Veiled) {value : Value} (candid : m.heap.Candid value) :
    Veiling (push value) m fun _ _ => True := by
  rw [Veiling,ensures_push]
  refine ⟨fun _ => veiled,fun _ => ⟨veiled.setStack fun p other low found => ?_,.refl _,trivial⟩⟩
  rw [Array.getElem?_push] at found
  split at found
  · cases found
    exact candid
  · exact veiled.stack p other low found

theorem veiling_pop (veiled : m.Veiled) : Veiling pop m fun _ _ => True := by
  refine looks_get.veiling veiled ?_
  rintro _ rfl
  split
  · exact veiling_stuck_bind veiled
  · refine (veiling_modify (veiled.setStack fun p value low found => ?_) rfl).mono fun _ _ _ => trivial
    rw [Array.getElem?_pop] at found
    split at found
    · exact veiled.stack p value low found
    · contradiction

theorem veiling_setSlot (veiled : m.Veiled) (index : Nat) {value : Value} (candid : m.heap.Candid value) :
    Veiling (setSlot index value) m fun _ _ => True := by
  refine looks_get.veiling veiled ?_
  rintro _ rfl
  split
  · refine (veiling_modify (veiled.setStack fun p other low found => ?_) rfl).mono fun _ _ _ => trivial
    rw [Array.getElem?_setIfInBounds] at found
    split at found
    · cases found
      exact candid
    · exact veiled.stack p other low found
  · exact veiling_stuck veiled

theorem veiling_replaceTop (veiled : m.Veiled) {value : Value} (candid : m.heap.Candid value) :
    Veiling (replaceTop value) m fun _ _ => True := by
  refine looks_get.veiling veiled ?_
  rintro _ rfl
  dsimp only
  split
  · exact veiling_stuck veiled
  · exact veiling_setSlot veiled _ candid

theorem veiling_shrinkTo (veiled : m.Veiled) (size : Nat) : Veiling (shrinkTo size) m fun _ _ => True := by
  refine looks_get.veiling veiled ?_
  rintro _ rfl
  split
  · refine (veiling_modify (veiled.setStack fun p value low found => ?_) rfl).mono fun _ _ _ => trivial
    rw [getElem?_shrink] at found
    split at found
    · exact veiled.stack p value low found
    · contradiction
  · exact veiling_stuck veiled

theorem veiling_modifyFrame (veiled : m.Veiled) {change : Frame → Frame}
    (base : ∀ f, (change f).base = f.base) : Veiling (modifyFrame change) m fun _ _ => True :=
  (veiling_modify (veiled.moved base) rfl).mono fun _ _ _ => trivial

theorem veiling_write (veiled : m.Veiled) (bytes : Bytes) : Veiling (write bytes) m fun _ _ => True :=
  ⟨{ veiled with },.refl _,trivial⟩

/-! The heap. -/

theorem veiling_updateObject (veiled : m.Veiled) {h : Handle} {change : Object → Object}
    (outline : ∀ o, m.heap.get? h = some o → (change o).outline = o.outline)
    (refers : ∀ o, m.heap.get? h = some o → (∀ r ∈ (change o).references, ¬m.heap.IsScript r) ∧
      ∀ slot, change o = .cell (.onStack slot) → 1 ≤ slot) :
    Veiling (updateObject h change) m fun _ _ => True :=
  ⟨veiled.update outline refers,Heap.veils_update outline,trivial⟩

theorem veiling_makeRoom (veiled : m.Veiled) (size : Nat) : Veiling (makeRoom size) m fun _ m' =>
    ∀ h o, m'.heap.get? h = some o → m.heap.get? h = some o := by
  refine looks_get.veiling veiled ?_
  rintro _ rfl
  split
  · exact ⟨veiled.collect,Heap.veils_collect _ _,fun _ _ => Heap.get?_of_collect⟩
  · exact veiling_pure veiled fun _ _ found => found

/-- A new object that is neither a string nor a function. -/
theorem veiling_allocate (veiled : m.Veiled) {object : Object} {size : Nat}
    (string : ∀ text, object ≠ .string text)
    (function : ∀ chunk constants, object ≠ .function chunk constants)
    (refers : ∀ r ∈ object.references, ¬m.heap.IsScript r)
    (opens : ∀ slot, object = .cell (.onStack slot) → 1 ≤ slot)
    (inner : ∀ code captures, object = .closure code captures → ∀ chunk constants,
      m.heap.get? code = some (.function chunk constants) → chunk.Inner) :
    Veiling (allocate object size) m fun h m' =>
      m'.heap.get? h = some object ∧ ¬m'.heap.IsScript h := by
  refine (veiling_makeRoom veiled size).bind fun _ mid veiled' veils old => ?_
  cases inserted : mid.heap.insert object size with
  | mk h heap =>
    obtain ⟨vacant,found,others,-⟩ := Heap.insert_spec veiled'.tidy inserted
    have more : mid.heap.Veils heap := Heap.veils_insert found others function
      fun code captures same chunk constants there =>
        inner code captures same chunk constants (old _ _ there)
    refine .of_ok (?_ : _ = EStateM.Result.ok h { mid with heap })
      ⟨veiled'.insert (veiled'.tidy.insert inserted string) found others more
        (fun r member script => refers r member (veils r script)) opens,more,found,fun script => ?_⟩
    · change EStateM.modifyGet _ mid = _
      rw [EStateM.modifyGet,inserted]
    · obtain ⟨_,_,_,_,here,-⟩ := more h script
      rw [vacant] at here
      contradiction

theorem veiling_allocateString (veiled : m.Veiled) (text : Bytes) :
    Veiling (allocateString text) m fun h m' => m'.heap.Candid (.object h) := by
  refine looks_get.veiling veiled ?_
  rintro _ rfl
  split
  next h known =>
    have found := (veiled.tidy.interned text h).mp known
    exact veiling_pure veiled (Heap.candid_object.mpr (Heap.not_isScript found (by simp)))
  next unknown =>
    refine (veiling_makeRoom veiled _).bind fun _ mid veiled' _ old => ?_
    have missing : mid.heap.find? text = none := by
      refine Option.eq_none_iff_forall_ne_some.mpr fun h found => ?_
      have here := old h _ ((veiled'.tidy.interned text h).mp found)
      rw [(veiled.tidy.interned text h).mpr here] at unknown
      contradiction
    cases inserted : mid.heap.insertString text with
    | mk h heap =>
      obtain ⟨tidy,vacant,found,others⟩ := Heap.insertString_spec veiled'.tidy missing inserted
      have more : mid.heap.Veils heap := Heap.veils_insert found others (by simp) (by simp)
      refine .of_ok (?_ : _ = EStateM.Result.ok h { mid with heap })
        ⟨veiled'.insert tidy found others more (by simp [Object.references]) (by simp),more,
          Heap.candid_object.mpr (Heap.not_isScript found (by simp))⟩
      change EStateM.modifyGet _ mid = _
      rw [EStateM.modifyGet,inserted]

end Action

end ScriptMachine
