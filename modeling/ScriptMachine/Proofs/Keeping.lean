import Mathlib
import ScriptMachine.Proofs.Running

/-! What stays while a machine works, whatever has become of it before: what tables of globals hold is
still there afterwards, and so is everything else that is held. Nothing is assumed about the frames
and the open cells, which a fault may leave in any state. -/
namespace ScriptMachine

open ScriptMachine.Action

namespace Heap

def Has (heap : Heap) (h : Handle) : Prop :=
  ∃ o, heap.get? h = some o

variable {heap future last : Heap} {h : Handle}

theorem Has.later (has : heap.Has h) (kept : heap.Outlasts future h) : future.Has h := by
  obtain ⟨o,found⟩ := has
  obtain ⟨o',still,-⟩ := kept o found
  exact ⟨o',still⟩

theorem Outlasts.trans (first : heap.Outlasts future h) (second : future.Outlasts last h) :
    heap.Outlasts last h := by
  intro o found
  obtain ⟨o',there,same⟩ := first o found
  obtain ⟨o'',still,again⟩ := second o' there
  exact ⟨o'',still,again.trans same⟩

end Heap

/-- The fields of a struct have strings for names. -/
def Object.Labelled (heap : Heap) : Object → Prop
  | struct _ labels => ∀ label ∈ labels, heap.IsString label
  | _ => True

theorem Object.Labelled.later {heap future : Heap} {o : Object} (labelled : o.Labelled heap)
    (strings : ∀ label ∈ o.references, heap.IsString label → future.IsString label) :
    o.Labelled future := by
  cases o with
  | struct _ labels =>
    exact fun label member => strings label (List.mem_cons_of_mem _ member) (labelled label member)
  | _ => exact trivial

theorem Object.Labelled.of_outline {heap : Heap} {o o' : Object} (labelled : o.Labelled heap)
    (same : o'.outline = o.outline) : o'.Labelled heap := by
  cases o' with
  | struct name labels => cases o <;> simp_all [Object.outline,Object.Labelled]
  | _ => exact trivial

namespace Machine

/-- Whatever the machine or one of its objects refers to is there, and globals and fields have strings
for names. Only the closure of a frame may be gone. -/
structure Alive (m : Machine) : Prop where
  tidy : m.heap.Tidy
  objects : ∀ h o, m.heap.get? h = some o → ∀ r ∈ o.references, m.heap.Has r
  labels : ∀ h o, m.heap.get? h = some o → o.Labelled m.heap
  stack : ∀ value ∈ m.stack, m.heap.Holds value
  result : m.heap.Holds m.result
  pinned : ∀ value ∈ m.pinned, m.heap.Holds value
  globals : m.globals.Sound m.heap
  shelved : ∀ table ∈ m.shelved, table.Sound m.heap
  loading : ∀ h ∈ m.loading, m.heap.Has h
  openCells : ∀ h ∈ m.openCells, m.heap.Has h

/-- What a collection keeps. -/
def Kept (m : Machine) (h : Handle) : Prop :=
  m.heap.Reaches m.roots h

/-- The tables of globals are as before, and so is what they hold. -/
structure Keeps (m m' : Machine) : Prop where
  globals : m'.globals = m.globals
  shelved : m'.shelved = m.shelved
  stored : ∀ table ∈ m.globals :: m.shelved, ∀ h ∈ table.handles, m.heap.Outlasts m'.heap h

variable {m mid m' : Machine} {h : Handle}

theorem Keeps.of_heap (globals : m'.globals = m.globals) (shelved : m'.shelved = m.shelved)
    (heap : m'.heap = m.heap) : m.Keeps m' :=
  ⟨globals,shelved,fun _ _ _ _ => .of_eq (by rw [heap])⟩

theorem Keeps.refl (m : Machine) : m.Keeps m :=
  .of_heap rfl rfl rfl

theorem Keeps.trans (first : m.Keeps mid) (second : mid.Keeps m') : m.Keeps m' where
  globals := second.globals.trans first.globals
  shelved := second.shelved.trans first.shelved
  stored table member h inside := (first.stored table member h inside).trans
    (second.stored table (by rwa [first.globals,first.shelved]) h inside)

theorem Alive.tables (alive : m.Alive) {table : Globals} (member : table ∈ m.globals :: m.shelved) :
    table.Sound m.heap := by
  rcases List.mem_cons.mp member with rfl | shelf
  · exact alive.globals
  · exact alive.shelved table shelf

theorem Reaches.kept (reaches : m.Reaches h) : m.Kept h := by
  unfold Kept
  induction reaches with
  | root member => exact .root (m.anchors_subset_roots member)
  | next _ member ih => exact .next ih member

theorem kept_stored {table : Globals} (member : table ∈ m.globals :: m.shelved)
    (inside : h ∈ table.handles) : m.Kept h := by
  rcases List.mem_cons.mp member with rfl | shelf
  · exact (reaches_globals inside).kept
  · exact (reaches_shelved shelf inside).kept

/-- What the closure of a frame refers to is kept. -/
theorem kept_frame {f : Frame} {o : Object} {r : Handle} (member : f ∈ m.frames)
    (found : m.heap.get? f.closure = some o) (inside : r ∈ o.references) : m.Kept r := by
  refine .root ?_
  have root : r ∈ m.frames.flatMap m.frameRoots :=
    List.mem_flatMap.mpr ⟨f,member,by simpa [frameRoots,Heap.references,found] using inside⟩
  simp only [roots,List.mem_append]
  tauto

theorem Kept.next {o : Object} {r : Handle} (kept : m.Kept h) (found : m.heap.get? h = some o)
    (member : r ∈ o.references) : m.Kept r :=
  Heap.Reaches.next kept (by simpa [Heap.references,found] using member)

/-- A heap that keeps what is kept, and is closed, can take the place of the machine's own. -/
theorem Alive.replace (alive : m.Alive) {heap : Heap} (tidy : heap.Tidy)
    (kept : ∀ h, m.Kept h → m.heap.Outlasts heap h)
    (objects : ∀ h o, heap.get? h = some o → ∀ r ∈ o.references, heap.Has r)
    (labels : ∀ h o, heap.get? h = some o → o.Labelled heap) :
    Machine.Alive { m with heap } ∧ m.Keeps { m with heap } := by
  have table {t : Globals} (member : t ∈ m.globals :: m.shelved) : t.Sound heap :=
    (alive.tables member).later fun h inside => kept h (kept_stored member inside)
  refine ⟨⟨tidy,objects,labels,fun v member => (alive.stack v member).later fun h same => ?_,
    alive.result.later fun h same => ?_,fun v member => (alive.pinned v member).later fun h same => ?_,
    table List.mem_cons_self,fun t shelf => table (List.mem_cons_of_mem _ shelf),
    fun h member => (alive.loading h member).later ?_,
    fun h member => (alive.openCells h member).later ?_⟩,rfl,rfl,
    fun t member h inside => kept h (kept_stored member inside)⟩
  · exact kept h (reaches_stack (same ▸ member)).kept
  · exact kept h (reaches_result same).kept
  · exact kept h (reaches_pinned (same ▸ member)).kept
  · exact kept h (reaches_loading (m := m) member).kept
  · exact kept h (reaches_openCells (m := m) member).kept

theorem get?_collect (kept : m.Kept h) : m.collect.heap.get? h = m.heap.get? h :=
  Heap.get?_collect kept

theorem Alive.collect (alive : m.Alive) : m.collect.Alive ∧ m.Keeps m.collect := by
  refine alive.replace (alive.tidy.collect _) (fun h kept => .of_eq (get?_collect kept)) ?_ ?_
  · intro h o found r member
    have same := Heap.get?_collect_references found member
    obtain ⟨x,there⟩ := alive.objects h o (Heap.get?_of_collect found) r member
    exact ⟨x,same.trans there⟩
  · intro h o found
    refine (alive.labels h o (Heap.get?_of_collect found)).later fun label member string => ?_
    exact string.later (.of_eq (Heap.get?_collect_references found member))

/-- An object in a place that held nothing. -/
theorem Alive.insert (alive : m.Alive) {object : Object} {heap : Heap} (tidy : heap.Tidy)
    (vacant : m.heap.get? h = none) (found : heap.get? h = some object)
    (others : ∀ other, other ≠ h → heap.get? other = m.heap.get? other)
    (refers : ∀ r ∈ object.references, m.heap.Has r) (labelled : object.Labelled m.heap) :
    Machine.Alive { m with heap } ∧ m.Keeps { m with heap } := by
  have same {r : Handle} (has : m.heap.Has r) : heap.get? r = m.heap.get? r := by
    refine others r ?_
    rintro rfl
    obtain ⟨x,there⟩ := has
    rw [vacant] at there
    contradiction
  have stays {r : Handle} (has : m.heap.Has r) : heap.Has r := by
    obtain ⟨x,there⟩ := has
    exact ⟨x,(same ⟨x,there⟩).trans there⟩
  have strings (label : Handle) (string : m.heap.IsString label) : heap.IsString label := by
    obtain ⟨text,there⟩ := string
    exact ⟨text,(same ⟨_,there⟩).trans there⟩
  refine alive.replace tidy (fun r kept o there => ⟨o,(same ⟨o,there⟩).trans there,rfl⟩) ?_ ?_
  · intro r o here k member
    by_cases new : r = h
    · subst new
      rw [found] at here
      cases here
      exact stays (refers k member)
    · exact stays (alive.objects r o (by rwa [← others r new]) k member)
  · intro r o here
    by_cases new : r = h
    · subst new
      rw [found] at here
      cases here
      exact labelled.later fun label _ => strings label
    · exact (alive.labels r o (by rwa [← others r new])).later fun label _ => strings label

/-- An object may change in the parts that may change, as long as what it refers to is there. -/
theorem Alive.update (alive : m.Alive) {change : Object → Object}
    (changes : ∀ o, m.heap.get? h = some o → change o = o ∨ (change o).outline = o.outline ∧
      (∀ text, o ≠ .string text) ∧ ∀ r ∈ (change o).references, m.heap.Has r) :
    Machine.Alive { m with heap := m.heap.update h change } ∧
      m.Keeps { m with heap := m.heap.update h change } := by
  have outlasts (r : Handle) : m.heap.Outlasts (m.heap.update h change) r := by
    intro o found
    rw [Heap.get?_update]
    by_cases same : r = h
    · subst same
      rw [if_pos rfl,found]
      refine ⟨_,rfl,?_⟩
      rcases changes o found with still | ⟨outline,-⟩
      · rw [still]
      · exact outline
    · exact ⟨o,by rw [if_neg same,found],rfl⟩
  refine alive.replace ?_ (fun r _ => outlasts r) ?_ ?_
  · refine alive.tidy.change fun text => ?_
    cases found : m.heap.get? h with
    | none => simp
    | some o =>
      rcases changes o found with still | ⟨outline,plain,-⟩
      · simp [still]
      · refine ⟨fun same => absurd ?_ (plain text),fun same => absurd (Option.some.inj same) (plain text)⟩
        rw [Option.map_some,Option.some_inj] at same
        rw [same] at outline
        exact Heap.outline_string outline.symm
  · intro r o here k member
    rw [Heap.get?_update] at here
    by_cases same : r = h
    · subst same
      rw [if_pos rfl] at here
      obtain ⟨x,found,rfl⟩ := Option.map_eq_some_iff.mp here
      rcases changes x found with still | ⟨-,-,refers⟩
      · exact (alive.objects r x found k (still ▸ member)).later (outlasts k)
      · exact (refers k member).later (outlasts k)
    · rw [if_neg same] at here
      exact (alive.objects r o here k member).later (outlasts k)
  · intro r o here
    have strings {label : Handle} (string : m.heap.IsString label) := string.later (outlasts label)
    rw [Heap.get?_update] at here
    by_cases same : r = h
    · subst same
      rw [if_pos rfl] at here
      obtain ⟨x,found,rfl⟩ := Option.map_eq_some_iff.mp here
      have before := alive.labels r x found
      rcases changes x found with still | ⟨outline,-⟩
      · exact (still ▸ before).later fun _ _ => strings
      · exact (before.of_outline outline).later fun _ _ => strings
    · rw [if_neg same] at here
      exact (alive.labels r o here).later fun _ _ => strings

/-- The constants of a function that runs are there, and a collection keeps them. -/
theorem Alive.constant (alive : m.Alive) {f : Frame} {chunk : Chunk} {constants : Array Value}
    {index : Nat} {value : Value} (member : f ∈ m.frames)
    (code : m.functionOf? f.closure = some (chunk,constants))
    (found : constants[index]? = some value) :
    m.heap.Holds value ∧ ∀ h, value = .object h → m.Kept h := by
  obtain ⟨function,captures,here,there⟩ := functionOf?_some.mp code
  have refers {h : Handle} (same : value = .object h) :
      h ∈ (Object.function chunk constants).references :=
    Object.mem_handles.mpr (same ▸ Array.mem_of_getElem? found)
  have kept := kept_frame member here List.mem_cons_self
  exact ⟨fun h same => alive.objects function _ there h (refers same),
    fun h same => kept.next there (refers same)⟩

theorem Alive.slot (alive : m.Alive) {p : Nat} {value : Value} (found : m.stack[p]? = some value) :
    m.heap.Holds value :=
  alive.stack value (Array.mem_of_getElem? found)

theorem Alive.setStack (alive : m.Alive) {stack : Array Value}
    (held : ∀ value ∈ stack, m.heap.Holds value) : Machine.Alive { m with stack } :=
  { alive with stack := held }

/-- The heap has lost nothing that a collection keeps. -/
structure Clears (m m' : Machine) : Prop where
  same : m' = { m with heap := m'.heap }
  kept : ∀ h, m.Kept h → m.heap.Has h → m'.heap.get? h = m.heap.get? h

theorem Clears.refl (m : Machine) : m.Clears m :=
  ⟨rfl,fun _ _ _ => rfl⟩

theorem Clears.collect (m : Machine) : m.Clears m.collect :=
  ⟨rfl,fun _ kept _ => get?_collect kept⟩

theorem Clears.has (clears : m.Clears m') (kept : m.Kept h) (has : m.heap.Has h) : m'.heap.Has h := by
  obtain ⟨o,found⟩ := has
  exact ⟨o,(clears.kept h kept ⟨o,found⟩).trans found⟩

theorem Clears.string (clears : m.Clears m') (kept : m.Kept h) (string : m.heap.IsString h) :
    m'.heap.IsString h := by
  obtain ⟨text,found⟩ := string
  exact ⟨text,(clears.kept h kept ⟨_,found⟩).trans found⟩

end Machine

/-! Actions that only look at the machine. -/

namespace Action

variable {α β : Type} {m : Machine} {x : Action α} {k : α → Action β} {ok : α → Prop} {ok' : β → Prop}

def Looks (x : Action α) (m : Machine) (ok : α → Prop) : Prop :=
  x.Ensures m (fun a m' => m' = m ∧ ok a) fun _ m' => m' = m

theorem Looks.bind (first : Looks x m ok) (rest : ∀ a, ok a → Looks (k a) m ok') :
    Looks (x >>= k) m ok' := by
  rw [Looks,ensures_bind]
  refine first.mono ?_ fun _ _ same => same
  rintro a _ ⟨rfl,holds⟩
  exact rest a holds

theorem Looks.mono {other : α → Prop} (looks : Looks x m ok) (more : ∀ a, ok a → other a) :
    Looks x m other :=
  Ensures.mono looks (fun a _ ⟨same,holds⟩ => ⟨same,more a holds⟩) fun _ _ same => same

theorem looks_pure {a : α} (holds : ok a) : Looks (pure a) m ok :=
  ⟨rfl,holds⟩

theorem looks_get : Looks get m fun now => m = now :=
  ⟨rfl,rfl⟩

theorem looks_stuck : Looks stuck m ok :=
  rfl

theorem looks_fault (f : RuntimeFault) : Looks (fault f) m ok :=
  rfl

theorem looks_need (a : Option α) : Looks (need a) m fun b => a = some b := by
  cases a with
  | none => exact rfl
  | some a => exact ⟨rfl,rfl⟩

theorem looks_peek (depth : Nat) : Looks (peek depth) m fun value =>
    m.stack[m.stack.size - 1 - depth]? = some value := by
  refine looks_get.bind ?_
  rintro _ rfl
  split
  · exact looks_need _
  · exact looks_stuck

theorem looks_slot (index : Nat) : Looks (slot index) m (· ∈ m.stack) := by
  refine looks_get.bind ?_
  rintro _ rfl
  exact (looks_need _).mono fun value found => Array.mem_of_getElem? found

theorem looks_frame : Looks frame m (· ∈ m.frames.head?) := by
  refine looks_get.bind ?_
  rintro _ rfl
  exact looks_need _

theorem looks_object (h : Handle) : Looks (object h) m fun o => m.heap.get? h = some o := by
  refine looks_get.bind ?_
  rintro _ rfl
  exact looks_need _

theorem looks_objectOf? (value : Value) : Looks (objectOf? value) m fun found =>
    ∀ o, found = some o → ∃ h, value = .object h ∧ m.heap.get? h = some o := by
  cases value with
  | object h =>
    rw [objectOf?,map_eq_pure_bind]
    refine (looks_object h).bind fun o found => looks_pure ?_
    rintro _ ⟨⟩
    exact ⟨h,rfl,found⟩
  | _ => exact looks_pure (by simp)

theorem looks_stringOf? (value : Value) : Looks (stringOf? value) m fun _ => True := by
  refine (looks_objectOf? value).bind fun o _ => ?_
  split <;> exact looks_pure trivial

theorem looks_typeName (value : Value) : Looks (typeName value) m fun _ => True :=
  ⟨rfl,trivial⟩

theorem looks_text (value : Value) : Looks (text value) m fun _ => True :=
  ⟨rfl,trivial⟩

theorem looks_nameText (name : Handle) : Looks (nameText name) m fun text =>
    text = m.heap.stringText name :=
  ⟨rfl,rfl⟩

theorem looks_nameOf (value : Value) : Looks (nameOf value) m fun h =>
    value = .object h ∧ m.heap.IsString h := by
  cases value with
  | object h =>
    refine (looks_object h).bind fun o found => ?_
    split
    · exact looks_pure ⟨rfl,_,found⟩
    · exact looks_stuck
  | _ => exact looks_stuck

theorem looks_runningFunction : Looks runningFunction m fun code =>
    ∃ f ∈ m.frames.head?, m.functionOf? f.closure = some code := by
  refine looks_get.bind ?_
  rintro _ rfl
  split
  next f fs frames => exact (looks_need _).mono fun code found => ⟨f,by simp [frames],found⟩
  next => exact looks_stuck

theorem looks_constant (index : Nat) : Looks (constant index) m fun value =>
    ∃ f ∈ m.frames.head?, ∃ chunk constants, m.functionOf? f.closure = some (chunk,constants) ∧
      constants[index]? = some value := by
  refine looks_runningFunction.bind ?_
  rintro ⟨chunk,constants⟩ ⟨f,first,code⟩
  exact (looks_need _).mono fun value found => ⟨f,first,chunk,constants,code,found⟩

theorem looks_cellState (h : Handle) : Looks (cellState h) m fun state =>
    m.heap.get? h = some (.cell state) := by
  refine (looks_object h).bind fun o found => ?_
  split
  · exact looks_pure found
  · exact looks_stuck

theorem looks_record? (value : Value) : Looks (record? value) m fun found =>
    ∀ shape fields, found = some (shape,fields) →
      ∃ h, value = .object h ∧ m.heap.get? h = some (.record shape fields) := by
  refine (looks_objectOf? value).bind fun o found => ?_
  split
  · refine looks_pure ?_
    rintro _ _ ⟨⟩
    exact found _ rfl
  · exact looks_pure (by simp)

theorem looks_fieldIndex (struct label : Handle) : Looks (fieldIndex struct label) m fun _ => True := by
  refine (looks_object struct).bind fun o _ => ?_
  split
  · split
    · exact looks_pure trivial
    · exact (looks_nameText _).bind fun _ _ => (looks_nameText _).bind fun _ _ => looks_fault _
  · exact looks_stuck

end Action

/-! Actions that change the machine. -/

namespace Action

variable {α β : Type} {m : Machine} {x : Action α} {k : α → Action β}
  {ok : α → Machine → Prop} {ok' : β → Machine → Prop}

/-- However the action ends, all that is held is there, and the tables of globals hold what they held. -/
def Keeping (x : Action α) (m : Machine) (ok : α → Machine → Prop) : Prop :=
  x.Ensures m (fun a m' => m'.Alive ∧ m.Keeps m' ∧ ok a m') fun _ m' => m'.Alive ∧ m.Keeps m'

theorem Keeping.bind (first : Keeping x m ok)
    (rest : ∀ a m', m'.Alive → m.Keeps m' → ok a m' → Keeping (k a) m' ok') :
    Keeping (x >>= k) m ok' := by
  rw [Keeping,ensures_bind]
  refine Ensures.mono first ?_ fun _ _ ends => ends
  rintro a mid ⟨alive,keeps,holds⟩
  refine Ensures.mono (rest a mid alive keeps holds) ?_ ?_
  · exact fun b m' ⟨alive,more,holds⟩ => ⟨alive,keeps.trans more,holds⟩
  · exact fun _ m' ⟨alive,more⟩ => ⟨alive,keeps.trans more⟩

theorem Keeping.mono {other : α → Machine → Prop} (keeping : Keeping x m ok)
    (more : ∀ a m', ok a m' → other a m') : Keeping x m other :=
  Ensures.mono keeping (fun a m' ⟨alive,keeps,holds⟩ => ⟨alive,keeps,more a m' holds⟩)
    fun _ _ ends => ends

/-- An action may look at the machine first. -/
theorem Looks.keeping {p : α → Prop} (looks : Looks x m p) (alive : m.Alive)
    (rest : ∀ a, p a → Keeping (k a) m ok') : Keeping (x >>= k) m ok' := by
  rw [Keeping,ensures_bind]
  refine Ensures.mono looks ?_ ?_
  · rintro a _ ⟨rfl,holds⟩
    exact rest a holds
  · rintro _ _ rfl
    exact ⟨alive,.refl _⟩

theorem keeping_pure (alive : m.Alive) {a : α} (holds : ok a m) : Keeping (pure a) m ok :=
  ⟨alive,.refl m,holds⟩

theorem keeping_throw (alive : m.Alive) (s : Stop) : Keeping (throw s : Action α) m ok :=
  ⟨alive,.refl m⟩

theorem keeping_stuck (alive : m.Alive) : Keeping (stuck : Action α) m ok :=
  ⟨alive,.refl m⟩

theorem keeping_fault (alive : m.Alive) (f : RuntimeFault) : Keeping (fault f : Action α) m ok :=
  ⟨alive,.refl m⟩

/-- What comes after a stop does not matter. -/
theorem keeping_stuck_bind (alive : m.Alive) : Keeping (stuck >>= k) m ok' :=
  looks_stuck.keeping alive fun _ (impossible : False) => impossible.elim

theorem keeping_fault_bind (alive : m.Alive) (f : RuntimeFault) : Keeping (fault f >>= k) m ok' :=
  (looks_fault f).keeping alive fun _ (impossible : False) => impossible.elim

/-- A change that leaves the heap and the tables alone. -/
theorem keeping_modify {change : Machine → Machine} (alive : (change m).Alive)
    (keeps : m.Keeps (change m)) : Keeping (modify change) m fun _ m' => m' = change m :=
  ⟨alive,keeps,rfl⟩

theorem keeping_push (alive : m.Alive) {value : Value} (held : m.heap.Holds value) :
    Keeping (push value) m fun _ m' => m' = { m with stack := m.stack.push value } := by
  rw [Keeping,ensures_push]
  refine ⟨fun _ => ⟨alive,.refl m⟩,fun _ => ⟨alive.setStack fun other member => ?_,
    .of_heap rfl rfl rfl,rfl⟩⟩
  rcases Array.mem_push.mp member with old | rfl
  · exact alive.stack other old
  · exact held

theorem keeping_pop (alive : m.Alive) :
    Keeping pop m fun _ m' => m' = { m with stack := m.stack.pop } := by
  refine looks_get.keeping alive ?_
  rintro _ rfl
  split
  · exact keeping_stuck alive
  · exact keeping_modify (alive.setStack fun v member => alive.stack v (mem_of_mem_pop member))
      (.of_heap rfl rfl rfl)

theorem keeping_setSlot (alive : m.Alive) (index : Nat) {value : Value} (held : m.heap.Holds value) :
    Keeping (setSlot index value) m fun _ _ => True := by
  have stored (other : Value) (member : other ∈ m.stack.setIfInBounds index value) :
      m.heap.Holds other := by
    rcases Array.mem_or_eq_of_mem_setIfInBounds member with old | rfl
    · exact alive.stack other old
    · exact held
  refine looks_get.keeping alive ?_
  rintro _ rfl
  split
  · exact (keeping_modify (alive.setStack stored) (.of_heap rfl rfl rfl)).mono fun _ _ _ => trivial
  · exact keeping_stuck alive

theorem keeping_replaceTop (alive : m.Alive) {value : Value} (held : m.heap.Holds value) :
    Keeping (replaceTop value) m fun _ _ => True := by
  refine looks_get.keeping alive ?_
  rintro _ rfl
  dsimp only
  split
  · exact keeping_stuck alive
  · exact keeping_setSlot alive _ held

theorem keeping_shrinkTo (alive : m.Alive) (size : Nat) : Keeping (shrinkTo size) m fun _ m' =>
    m' = { m with stack := m.stack.shrink size } := by
  refine looks_get.keeping alive ?_
  rintro _ rfl
  split
  · exact keeping_modify (alive.setStack fun v member => alive.stack v (mem_of_mem_shrink member))
      (.of_heap rfl rfl rfl)
  · exact keeping_stuck alive

theorem keeping_modifyFrame (alive : m.Alive) (change : Frame → Frame) :
    Keeping (modifyFrame change) m fun _ m' =>
      m' = { m with frames := m.frames.modifyHead change } :=
  keeping_modify { alive with } (.of_heap rfl rfl rfl)

theorem keeping_updateObject (alive : m.Alive) {h : Handle} {change : Object → Object}
    (changes : ∀ o, m.heap.get? h = some o → change o = o ∨ (change o).outline = o.outline ∧
      (∀ text, o ≠ .string text) ∧ ∀ r ∈ (change o).references, m.heap.Has r) :
    Keeping (updateObject h change) m fun _ m' => m' = { m with heap := m.heap.update h change } := by
  obtain ⟨alive',keeps⟩ := alive.update changes
  exact keeping_modify alive' keeps

theorem keeping_write (alive : m.Alive) (bytes : Bytes) : Keeping (write bytes) m fun _ _ => True :=
  ⟨{ alive with },.of_heap rfl rfl rfl,trivial⟩

theorem keeping_makeRoom (alive : m.Alive) (size : Nat) :
    Keeping (makeRoom size) m fun _ m' => m.Clears m' ∧
      ∀ h o, m'.heap.get? h = some o → m.heap.get? h = some o := by
  refine looks_get.keeping alive ?_
  rintro _ rfl
  split
  · obtain ⟨alive',keeps⟩ := alive.collect
    refine (keeping_modify alive' keeps).mono ?_
    rintro _ _ rfl
    exact ⟨.collect _,fun h o found => Heap.get?_of_collect found⟩
  · exact keeping_pure alive ⟨.refl _,fun _ _ found => found⟩

/-- A new object that is no string. What it refers to has to be kept until it is there. -/
theorem keeping_allocate (alive : m.Alive) {object : Object} {size : Nat}
    (plain : ∀ text, object ≠ .string text)
    (refers : ∀ r ∈ object.references, m.Kept r ∧ m.heap.Has r) (labelled : object.Labelled m.heap) :
    Keeping (allocate object size) m fun h m' =>
      m' = { m with heap := m'.heap } ∧ m'.heap.get? h = some object := by
  refine (keeping_makeRoom alive size).bind fun _ mid alive' _ ⟨clears,_⟩ => ?_
  cases inserted : mid.heap.insert object size with
  | mk h heap =>
    obtain ⟨vacant,found,others,-⟩ := Heap.insert_spec alive'.tidy inserted
    obtain ⟨alive'',keeps⟩ := alive'.insert (alive'.tidy.insert inserted plain) vacant found others
      (fun r member => clears.has (refers r member).1 (refers r member).2)
      (labelled.later fun r member string => clears.string (refers r member).1 string)
    refine .of_ok (?_ : _ = EStateM.Result.ok h { mid with heap }) ⟨alive'',keeps,?_,found⟩
    · change EStateM.modifyGet _ mid = _
      rw [EStateM.modifyGet,inserted]
    · rw [clears.same]

/-- The interned string with these bytes. Whatever is kept stays what it is. -/
theorem keeping_allocateString (alive : m.Alive) (text : Bytes) :
    Keeping (allocateString text) m fun h m' =>
      m.Clears m' ∧ m'.heap.get? h = some (.string text) := by
  refine looks_get.keeping alive ?_
  rintro _ rfl
  split
  next h known => exact keeping_pure alive ⟨.refl _,(alive.tidy.interned text h).mp known⟩
  next unknown =>
    refine (keeping_makeRoom alive _).bind fun _ mid alive' _ ⟨clears,old⟩ => ?_
    have missing : mid.heap.find? text = none := by
      refine Option.eq_none_iff_forall_ne_some.mpr fun h found => ?_
      have here := old h _ ((alive'.tidy.interned text h).mp found)
      rw [(alive.tidy.interned text h).mpr here] at unknown
      contradiction
    cases inserted : mid.heap.insertString text with
    | mk h heap =>
      obtain ⟨tidy,vacant,found,others⟩ :=
        Heap.insertString_spec alive'.tidy missing inserted
      obtain ⟨alive'',keeps⟩ :=
        alive'.insert tidy vacant found others (by simp [Object.references]) trivial
      refine .of_ok (?_ : _ = EStateM.Result.ok h { mid with heap })
        ⟨alive'',keeps,⟨?_,fun k kept has => ?_⟩,found⟩
      · change EStateM.modifyGet _ mid = _
        rw [EStateM.modifyGet,inserted]
      · rw [clears.same]
      · rw [← clears.kept k kept has]
        refine others k ?_
        rintro rfl
        obtain ⟨o,there⟩ := clears.has kept has
        rw [vacant] at there
        contradiction

end Action

end ScriptMachine
