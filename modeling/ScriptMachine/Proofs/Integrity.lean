import Mathlib
import ScriptMachine.Machine.Run
import ScriptMachine.Proofs.Chart
import ScriptMachine.Proofs.Collection

/-! No dangling references: whatever the machine or one of its objects refers to is there, and it is
of the kind that is expected. Functions and closures under construction are exempt from being
complete. An allocation may collect first, yet keeps everything the machine reaches. -/
namespace ScriptMachine

namespace Heap

/-- If the value is an object, it is there. -/
def Holds (heap : Heap) (value : Value) : Prop :=
  ∀ h, value = .object h → ∃ object, heap.get? h = some object

def IsString (heap : Heap) (h : Handle) : Prop :=
  ∃ text, heap.get? h = some (.string text)

def IsCell (heap : Heap) (h : Handle) : Prop :=
  ∃ state, heap.get? h = some (.cell state)

def IsFunction (heap : Heap) (h : Handle) (chunk : Chunk) : Prop :=
  ∃ constants, heap.get? h = some (.function chunk constants)

def IsStruct (heap : Heap) (h : Handle) (labels : List Handle) : Prop :=
  ∃ name, heap.get? h = some (.struct name labels)

/-- The value that a constant becomes when it is loaded. -/
def Mirrors (heap : Heap) : Constant Chunk → Value → Prop
  | .number n, value => value = .number n
  | .string text, value => ∃ h, value = .object h ∧ heap.get? h = some (.string text)
  | .function chunk, value => ∃ h, value = .object h ∧ heap.IsFunction h chunk

end Heap

namespace Object

/-- What an object refers to is there and of the right kind, and it has all its parts unless it is
under construction. -/
def Valid (heap : Heap) (incomplete : Prop) : Object → Prop
  | string _ | native .. | cell (.onStack _) => True
  | function chunk constants => chunk.Sound ∧
      (∀ (i : Nat) value, constants[i]? = some value →
        ∃ c, chunk.constants[i]? = some c ∧ heap.Mirrors c value) ∧
      (¬incomplete → constants.size = chunk.constants.length)
  | closure code captures =>
      (∃ chunk, heap.IsFunction code chunk ∧ (¬incomplete → captures.size = chunk.captureCount)) ∧
        ∀ c ∈ captures, heap.IsCell c
  | cell (.closed value) => heap.Holds value
  | struct title fields => heap.IsString title ∧ ∀ f ∈ fields, heap.IsString f
  | record shape fields => (∃ labels, heap.IsStruct shape labels ∧ fields.size = labels.length) ∧
      ∀ value ∈ fields, heap.Holds value

/-- An object without the parts that may change. -/
def outline : Object → Object
  | function chunk _ => function chunk #[]
  | closure code _ => closure code #[]
  | cell _ => cell (.closed .nil)
  | record shape _ => record shape #[]
  | other => other

end Object

namespace Heap

/-- What lies here in one heap does so in the other, up to parts that may change. -/
def Outlasts (heap future : Heap) (h : Handle) : Prop :=
  ∀ o, heap.get? h = some o → ∃ o', future.get? h = some o' ∧ o'.outline = o.outline

variable {heap future : Heap} {h : Handle}

@[simp] theorem holds_number (n : Float) : heap.Holds (.number n) := by simp [Holds]

@[simp] theorem holds_bool (b : Bool) : heap.Holds (.bool b) := by simp [Holds]

@[simp] theorem holds_nil : heap.Holds .nil := by simp [Holds]

theorem holds_object {o : Object} (found : heap.get? h = some o) : heap.Holds (.object h) := by
  rintro k ⟨⟩
  exact ⟨o,found⟩

theorem Outlasts.of_eq (same : future.get? h = heap.get? h) : heap.Outlasts future h :=
  fun o found => ⟨o,same.trans found,rfl⟩

theorem Holds.later {value : Value} (held : heap.Holds value)
    (kept : ∀ h, value = .object h → heap.Outlasts future h) : future.Holds value := by
  intro h same
  obtain ⟨o,found⟩ := held h same
  obtain ⟨o',still,-⟩ := kept h same o found
  exact ⟨o',still⟩

theorem outline_string {o : Object} {text : Bytes} (same : o.outline = .string text) :
    o = .string text := by
  cases o <;> simp_all [Object.outline]

theorem string_later {text : Bytes} (kept : heap.Outlasts future h)
    (found : heap.get? h = some (.string text)) : future.get? h = some (.string text) := by
  obtain ⟨o,still,same⟩ := kept _ found
  rw [still,outline_string same]

theorem IsString.later (isString : heap.IsString h) (kept : heap.Outlasts future h) :
    future.IsString h := by
  obtain ⟨text,found⟩ := isString
  exact ⟨text,string_later kept found⟩

/-- Strings are the same object if they have the same bytes. -/
theorem Tidy.same_iff (tidy : heap.Tidy) {k : Handle} {a b : Bytes}
    (first : heap.get? h = some (.string a)) (second : heap.get? k = some (.string b)) :
    h = k ↔ a = b := by
  constructor
  · rintro rfl
    rw [first] at second
    cases second
    rfl
  · rintro rfl
    have one := (tidy.interned a h).mpr first
    rw [(tidy.interned a k).mpr second] at one
    exact (Option.some.inj one).symm

/-- Names are found among others by their handles as well as by their bytes. -/
theorem findIdx?_label (tidy : heap.Tidy) {labels : List Handle} {label : Bytes}
    (each : ∀ f ∈ labels, heap.IsString f) (string : heap.get? h = some (.string label)) :
    labels.findIdx? (heap.stringText · = label) = labels.findIdx? (· = h) := by
  induction labels with
  | nil => rfl
  | cons first rest ih =>
    obtain ⟨text,found⟩ := each first List.mem_cons_self
    have same : heap.stringText first = label ↔ first = h := by
      rw [stringText,found]
      exact (tidy.same_iff found string).symm
    rw [List.findIdx?_cons,List.findIdx?_cons,
      ih fun f member => each f (List.mem_cons_of_mem _ member)]
    simp only [same]

theorem IsCell.later (isCell : heap.IsCell h) (kept : heap.Outlasts future h) : future.IsCell h := by
  obtain ⟨state,found⟩ := isCell
  obtain ⟨o,still,same⟩ := kept _ found
  cases o <;> simp_all [Object.outline,IsCell]

theorem IsFunction.later {chunk : Chunk} (isFunction : heap.IsFunction h chunk)
    (kept : heap.Outlasts future h) : future.IsFunction h chunk := by
  obtain ⟨constants,found⟩ := isFunction
  obtain ⟨o,still,same⟩ := kept _ found
  cases o <;> simp_all [Object.outline,IsFunction]

theorem IsStruct.later {labels : List Handle} (isStruct : heap.IsStruct h labels)
    (kept : heap.Outlasts future h) : future.IsStruct h labels := by
  obtain ⟨name,found⟩ := isStruct
  obtain ⟨o,still,same⟩ := kept _ found
  cases o <;> simp_all [Object.outline,IsStruct]

theorem Mirrors.later {c : Constant Chunk} {value : Value} (mirrors : heap.Mirrors c value)
    (kept : ∀ h, value = .object h → heap.Outlasts future h) : future.Mirrors c value := by
  cases c with
  | number n => exact mirrors
  | string text =>
    obtain ⟨h,rfl,found⟩ := mirrors
    exact ⟨h,rfl,string_later (kept h rfl) found⟩
  | function chunk =>
    obtain ⟨h,rfl,isFunction⟩ := mirrors
    exact ⟨h,rfl,isFunction.later (kept h rfl)⟩

theorem Mirrors.holds {c : Constant Chunk} {value : Value} (mirrors : heap.Mirrors c value) :
    heap.Holds value := by
  rintro h rfl
  cases c with
  | number n => cases mirrors
  | string text =>
    obtain ⟨_,same,found⟩ := mirrors
    cases same
    exact ⟨_,found⟩
  | function chunk =>
    obtain ⟨_,same,constants,found⟩ := mirrors
    cases same
    exact ⟨_,found⟩

end Heap

namespace Object

variable {heap future : Heap} {incomplete : Prop}

theorem mem_handles {values : Array Value} {h : Handle} :
    h ∈ values.toList.filterMap Value.handle? ↔ .object h ∈ values := by
  rw [List.mem_filterMap]
  constructor
  · rintro ⟨value,member,same⟩
    cases value with
    | object k =>
      cases same
      simpa using member
    | _ => cases same
  · exact fun member => ⟨_,by simpa using member,rfl⟩

/-- An object stays valid as long as what it refers to stays. -/
theorem Valid.later {o : Object} (valid : o.Valid heap incomplete)
    (kept : ∀ r ∈ o.references, heap.Outlasts future r) : o.Valid future incomplete := by
  cases o with
  | string text => trivial
  | native name function => trivial
  | function chunk constants =>
    obtain ⟨sound,mirrors,complete⟩ := valid
    refine ⟨sound,fun i value found => ?_,complete⟩
    obtain ⟨c,here,mirror⟩ := mirrors i value found
    refine ⟨c,here,mirror.later ?_⟩
    rintro h rfl
    exact kept h (mem_handles.mpr (Array.mem_of_getElem? found))
  | closure code captures =>
    obtain ⟨⟨chunk,isFunction,complete⟩,cells⟩ := valid
    refine ⟨⟨chunk,isFunction.later (kept _ List.mem_cons_self),complete⟩,fun c member => ?_⟩
    exact (cells c member).later (kept c (List.mem_cons_of_mem _ (by simpa using member)))
  | cell state =>
    cases state with
    | onStack slot => trivial
    | closed value =>
      refine Heap.Holds.later valid ?_
      rintro h rfl
      exact kept h (by simp [references,Value.handle?])
  | struct title fields =>
    exact ⟨valid.1.later (kept _ List.mem_cons_self),
      fun f member => (valid.2 f member).later (kept f (List.mem_cons_of_mem _ member))⟩
  | record shape fields =>
    obtain ⟨⟨labels,isStruct,count⟩,held⟩ := valid
    refine ⟨⟨labels,isStruct.later (kept _ List.mem_cons_self),count⟩,fun value member => ?_⟩
    refine (held value member).later ?_
    rintro h rfl
    exact kept h (List.mem_cons_of_mem _ (mem_handles.mpr member))

/-- What a valid object refers to is there. -/
theorem Valid.alive {o : Object} (valid : o.Valid heap incomplete) {r : Handle}
    (member : r ∈ o.references) : ∃ x, heap.get? r = some x := by
  cases o with
  | string text => simp [references] at member
  | native name function => simp [references] at member
  | function chunk constants =>
    obtain ⟨i,found⟩ := Array.mem_iff_getElem?.mp (mem_handles.mp member)
    obtain ⟨c,-,mirror⟩ := valid.2.1 i _ found
    exact mirror.holds r rfl
  | closure code captures =>
    obtain ⟨⟨chunk,⟨constants,found⟩,-⟩,cells⟩ := valid
    rcases List.mem_cons.mp member with rfl | captured
    · exact ⟨_,found⟩
    · obtain ⟨state,here⟩ := cells r (by simpa using captured)
      exact ⟨_,here⟩
  | cell state =>
    cases state with
    | onStack slot => simp [references] at member
    | closed value =>
      cases value with
      | object h =>
        obtain rfl : r = h := by simpa [references,Value.handle?] using member
        exact valid r rfl
      | _ => simp [references,Value.handle?] at member
  | struct title fields =>
    rcases List.mem_cons.mp member with rfl | label
    · obtain ⟨text,found⟩ := valid.1
      exact ⟨_,found⟩
    · obtain ⟨text,found⟩ := valid.2 r label
      exact ⟨_,found⟩
  | record shape fields =>
    obtain ⟨⟨labels,⟨name,found⟩,-⟩,held⟩ := valid
    rcases List.mem_cons.mp member with rfl | value
    · exact ⟨_,found⟩
    · exact held _ (mem_handles.mp value) r rfl

theorem Valid.imp {weaker : Prop} {o : Object} (valid : o.Valid heap incomplete)
    (allowed : incomplete → weaker) : o.Valid heap weaker := by
  cases o with
  | function chunk constants =>
    obtain ⟨sound,mirrors,complete⟩ := valid
    exact ⟨sound,mirrors,fun no => complete fun yes => no (allowed yes)⟩
  | closure code captures =>
    obtain ⟨⟨chunk,isFunction,complete⟩,cells⟩ := valid
    exact ⟨⟨chunk,isFunction,fun no => complete fun yes => no (allowed yes)⟩,cells⟩
  | cell state => cases state <;> exact valid
  | _ => exact valid

end Object

/-- Names of globals are strings and their values are there. -/
def Globals.Sound (table : Globals) (heap : Heap) : Prop :=
  ∀ name value, table[name]? = some value → heap.IsString name ∧ heap.Holds value

theorem Globals.mem_handles {table : Globals} {name : Handle} {value : Value}
    (found : table[name]? = some value) :
    name ∈ table.handles ∧ ∀ h, value = .object h → h ∈ table.handles := by
  have member := Std.TreeMap.mem_toList_iff_getElem?_eq_some.mpr found
  refine ⟨List.mem_flatMap.mpr ⟨_,member,List.mem_cons_self⟩,?_⟩
  rintro h rfl
  exact List.mem_flatMap.mpr ⟨_,member,by simp [Value.handle?]⟩

theorem Globals.Sound.later {table : Globals} {heap future : Heap}
    (sound : table.Sound heap) (kept : ∀ h ∈ table.handles, heap.Outlasts future h) :
    table.Sound future := by
  intro name value found
  obtain ⟨isString,held⟩ := sound name value found
  obtain ⟨first,others⟩ := Globals.mem_handles found
  exact ⟨isString.later (kept _ first),held.later fun h same => kept h (others h same)⟩

namespace Machine

/-- What the machine itself holds, apart from its frames. -/
def anchors (m : Machine) : List Handle :=
  m.stack.toList.filterMap Value.handle? ++ m.openCells ++ m.loading ++ m.result.handle?.toList ++
    m.globals.handles ++ m.shelved.flatMap Globals.handles ++ m.pinned.filterMap Value.handle?

/-- What is found by following references from there. -/
def Reaches (m : Machine) (h : Handle) : Prop :=
  m.heap.Reaches m.anchors h

/-- Everything the machine holds is there, and so is everything its objects refer to. Those in `raw`
are under construction. -/
structure Intact (raw : Set Handle) (m : Machine) : Prop where
  tidy : m.heap.Tidy
  valid : ∀ h o, m.heap.get? h = some o → o.Valid m.heap (h ∈ raw)
  stack : ∀ value ∈ m.stack, m.heap.Holds value
  result : m.heap.Holds m.result
  pinned : ∀ value ∈ m.pinned, m.heap.Holds value
  globals : m.globals.Sound m.heap
  shelved : ∀ table ∈ m.shelved, table.Sound m.heap
  loading : ∀ h ∈ m.loading, ∃ chunk, m.heap.IsFunction h chunk
  openCells : ∀ h ∈ m.openCells, m.heap.IsCell h

variable {m m' : Machine} {raw fresh : Set Handle}

theorem anchors_subset_roots (m : Machine) : m.anchors ⊆ m.roots := by
  intro h member
  simp only [anchors,roots,List.mem_append] at member ⊢
  tauto

theorem reaches_stack {h : Handle} (member : .object h ∈ m.stack) : m.Reaches h := by
  refine .root ?_
  simp only [anchors,List.mem_append]
  have := Object.mem_handles.mpr member
  tauto

theorem reaches_openCells {h : Handle} (member : h ∈ m.openCells) : m.Reaches h := by
  refine .root ?_
  simp only [anchors,List.mem_append]
  tauto

theorem reaches_loading {h : Handle} (member : h ∈ m.loading) : m.Reaches h := by
  refine .root ?_
  simp only [anchors,List.mem_append]
  tauto

theorem reaches_result {h : Handle} (same : m.result = .object h) : m.Reaches h := by
  refine .root ?_
  simp [anchors,same,Value.handle?]

theorem reaches_pinned {h : Handle} (member : .object h ∈ m.pinned) : m.Reaches h := by
  refine .root ?_
  simp only [anchors,List.mem_append]
  exact .inr (List.mem_filterMap.mpr ⟨_,member,rfl⟩)

theorem reaches_globals {h : Handle} (member : h ∈ m.globals.handles) : m.Reaches h := by
  refine .root ?_
  simp only [anchors,List.mem_append]
  tauto

theorem reaches_shelved {h : Handle} {table : Globals} (shelf : table ∈ m.shelved)
    (member : h ∈ table.handles) : m.Reaches h := by
  refine .root ?_
  simp only [anchors,List.mem_append]
  exact .inl (.inr (List.mem_flatMap.mpr ⟨_,shelf,member⟩))

theorem Reaches.next {h r : Handle} {o : Object} (reaches : m.Reaches h)
    (found : m.heap.get? h = some o) (member : r ∈ o.references) : m.Reaches r :=
  Heap.Reaches.next reaches (by simpa [Heap.references,found] using member)

/-- What is reached stays so as long as it stays what it is. -/
theorem Reaches.carry (anchors : m.anchors ⊆ m'.anchors)
    (kept : ∀ h, m.Reaches h → m'.heap.get? h = m.heap.get? h) {h : Handle}
    (reaches : m.Reaches h) : m'.Reaches h := by
  induction reaches with
  | root member => exact .root (anchors member)
  | next earlier member ih =>
    refine Heap.Reaches.next ih ?_
    simpa [Heap.references,kept _ earlier] using member

/-- A heap that keeps what the machine reaches, and has valid objects only, can take the place of
the machine's own. -/
theorem Intact.replace {still : Set Handle} (intact : m.Intact raw) {heap : Heap} (tidy : heap.Tidy)
    (kept : ∀ h, m.Reaches h → m.heap.Outlasts heap h)
    (valid : ∀ h o, heap.get? h = some o → o.Valid heap (h ∈ still)) :
    Intact still { m with heap } where
  tidy := tidy
  valid := valid
  stack value member := (intact.stack value member).later
    fun h same => kept h (reaches_stack (same ▸ member))
  result := intact.result.later fun h same => kept h (reaches_result same)
  pinned value member := (intact.pinned value member).later
    fun h same => kept h (reaches_pinned (same ▸ member))
  globals := intact.globals.later fun h member => kept h (reaches_globals member)
  shelved table shelf := (intact.shelved table shelf).later
    fun h member => kept h (reaches_shelved shelf member)
  loading h member := by
    obtain ⟨chunk,isFunction⟩ := intact.loading h member
    exact ⟨chunk,isFunction.later (kept h (reaches_loading member))⟩
  openCells h member := (intact.openCells h member).later (kept h (reaches_openCells member))

/-- What an intact machine reaches is there. -/
theorem Intact.alive (intact : m.Intact raw) {h : Handle} (reaches : m.Reaches h) :
    ∃ o, m.heap.get? h = some o := by
  induction reaches with
  | @root h member =>
    have held {values : List Value} (each : ∀ value ∈ values, m.heap.Holds value)
        (member : h ∈ values.filterMap Value.handle?) : ∃ o, m.heap.get? h = some o := by
      obtain ⟨value,inside,same⟩ := List.mem_filterMap.mp member
      cases value with
      | object k =>
        cases same
        exact each _ inside h rfl
      | _ => cases same
    have table {t : Globals} (sound : t.Sound m.heap) (member : h ∈ t.handles) :
        ∃ o, m.heap.get? h = some o := by
      obtain ⟨⟨name,value⟩,inside,part⟩ := List.mem_flatMap.mp member
      obtain ⟨⟨text,isString⟩,holds⟩ :=
        sound name value (Std.TreeMap.mem_toList_iff_getElem?_eq_some.mp inside)
      rcases List.mem_cons.mp part with rfl | valued
      · exact ⟨_,isString⟩
      · exact @held [value] (by simpa using holds) (by
          cases value <;> simp_all [Value.handle?])
    simp only [anchors,List.mem_append] at member
    rcases member with (((((onStack | cell) | loading) | result) | globals) | shelved) | pinned
    · exact held (by simpa using intact.stack) onStack
    · obtain ⟨state,found⟩ := intact.openCells h cell
      exact ⟨_,found⟩
    · obtain ⟨chunk,constants,found⟩ := intact.loading h loading
      exact ⟨_,found⟩
    · exact @held [m.result] (by simpa using intact.result) (by
        cases known : m.result <;> simp_all [Value.handle?])
    · exact table intact.globals globals
    · obtain ⟨t,shelf,inside⟩ := List.mem_flatMap.mp shelved
      exact table (intact.shelved t shelf) inside
    · exact held intact.pinned pinned
  | next _ member ih =>
    obtain ⟨o,found⟩ := ih
    simp only [Heap.references,found] at member
    exact (intact.valid _ o found).alive member

/-- The heap may have lost objects that are not reached and gained fresh ones; nothing else has
changed. No object of before refers to a fresh one. -/
structure Grows (fresh : Set Handle) (m m' : Machine) : Prop where
  same : m' = { m with heap := m'.heap }
  old : ∀ h ∉ fresh, ∀ o, m'.heap.get? h = some o → m.heap.get? h = some o
  kept : ∀ h, m.Reaches h → h ∉ fresh ∧ m'.heap.get? h = m.heap.get? h
  apart : ∀ h ∉ fresh, ∀ o, m'.heap.get? h = some o → ∀ r ∈ o.references, r ∉ fresh

theorem Grows.refl (m : Machine) : m.Grows ∅ m :=
  ⟨rfl,fun _ _ _ found => found,fun _ _ => ⟨not_false,rfl⟩,fun _ _ _ _ _ _ => not_false⟩

theorem Grows.reaches (grows : m.Grows fresh m') {h : Handle} (reaches : m.Reaches h) :
    m'.Reaches h := by
  refine reaches.carry ?_ fun h reaches => (grows.kept h reaches).2
  rw [grows.same]
  exact List.Subset.refl _

/-- Nothing fresh is reached yet. -/
theorem Grows.reached (grows : m.Grows fresh m') {h : Handle} (reaches : m'.Reaches h) :
    m.Reaches h := by
  induction reaches with
  | root member =>
    rw [grows.same] at member
    exact .root member
  | next _ member ih =>
    rw [Heap.references,(grows.kept _ ih).2] at member
    exact Heap.Reaches.next ih member

theorem Grows.trans {m'' : Machine} {more : Set Handle} (first : m.Grows fresh m')
    (second : m'.Grows more m'') : m.Grows (fresh ∪ more) m'' where
  same := by
    have here := first.same
    have there := second.same
    rw [here] at there
    exact there
  old h outside o found := by
    rw [Set.mem_union,not_or] at outside
    exact first.old h outside.1 o (second.old h outside.2 o found)
  kept h reaches := by
    obtain ⟨early,same⟩ := first.kept h reaches
    obtain ⟨late,sameToo⟩ := second.kept h (first.reaches reaches)
    exact ⟨fun member => member.elim early late,sameToo.trans same⟩
  apart h outside o found r member := by
    rw [Set.mem_union,not_or] at outside ⊢
    exact ⟨first.apart h outside.1 o (second.old h outside.2 o found) r member,
      second.apart h outside.2 o found r member⟩

/-- A collection keeps the machine intact. -/
theorem Intact.collect (intact : m.Intact raw) : m.collect.Intact raw ∧ m.Grows ∅ m.collect := by
  have kept (h : Handle) (reaches : m.Reaches h) : m.collect.heap.get? h = m.heap.get? h := by
    refine Heap.get?_collect ?_
    induction reaches with
    | root member => exact .root (m.anchors_subset_roots member)
    | next _ member ih => exact .next ih member
  refine ⟨intact.replace (intact.tidy.collect _) (fun h reaches => .of_eq (kept h reaches)) ?_,
    rfl,?_,fun h reaches => ⟨not_false,kept h reaches⟩,fun _ _ _ _ _ _ => not_false⟩
  · intro h o found
    exact (intact.valid h o (Heap.get?_of_collect found)).later
      fun r member => .of_eq (Heap.get?_collect_references found member)
  · exact fun h _ o found => Heap.get?_of_collect found

/-- An object in a place that held nothing. -/
theorem Intact.insert (intact : m.Intact raw) {object : Object} {h : Handle} {heap : Heap}
    (vacant : m.heap.get? h = none) (found : heap.get? h = some object)
    (others : ∀ other, other ≠ h → heap.get? other = m.heap.get? other) :
    m.Grows {h} { m with heap } ∧ (heap.Tidy → ∀ incomplete still, object.Valid m.heap incomplete →
      raw ⊆ still → (incomplete → h ∈ still) → Intact still { m with heap }) := by
  have fresh {r : Handle} {x : Object} (alive : m.heap.get? r = some x) : r ≠ h := by
    rintro rfl
    rw [vacant] at alive
    contradiction
  have kept (r : Handle) (reaches : m.Reaches r) : r ≠ h ∧ heap.get? r = m.heap.get? r := by
    obtain ⟨x,alive⟩ := intact.alive reaches
    exact ⟨fresh alive,others r (fresh alive)⟩
  refine ⟨⟨rfl,fun r other o here => ?_,kept,fun r other o here k member => ?_⟩,?_⟩
  · rwa [← others r other]
  · rw [others r other] at here
    obtain ⟨x,alive⟩ := (intact.valid r o here).alive member
    exact fresh alive
  · intro tidy incomplete still valid grown construction
    refine intact.replace tidy (fun r reaches => .of_eq (kept r reaches).2) ?_
    have lasting {o : Object} {p : Prop} (valid : o.Valid m.heap p) : o.Valid heap p := by
      refine valid.later fun r member => .of_eq (others r ?_)
      obtain ⟨x,alive⟩ := valid.alive member
      exact fresh alive
    intro r o here
    by_cases same : r = h
    · subst same
      rw [found] at here
      cases here
      exact (lasting valid).imp construction
    · rw [others r same] at here
      exact (lasting (intact.valid r o here)).imp fun member => grown member

end Machine

end ScriptMachine
