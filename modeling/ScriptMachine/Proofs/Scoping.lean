import Mathlib
import ScriptMachine.Compile
import ScriptMachine.Proofs.Chart

/-! The variables in scope while code is compiled. Locals have the slots in which their values were
pushed, every capture of a function designates a variable or a capture of the function around it,
and what is compiled only ever adds to what was there. -/
namespace ScriptMachine.Compile

namespace FunctionScope

/-- Names and slots of the locals, without the marks of captured ones. -/
def layout (f : FunctionScope) : List (List (Bytes × Nat)) :=
  f.blocks.map (List.map fun l => (l.name,l.slot))

/-- The slots of the locals that some nested function captured. -/
def cells (f : FunctionScope) : Set Nat :=
  {slot | ∃ l ∈ f.blocks.flatten, l.captured = true ∧ l.slot = slot}

/-- Limits are kept, slots follow the order of declaration, and nested functions are sound. -/
structure Regular (f : FunctionScope) : Prop where
  slots : f.blocks.flatten.map (·.slot) = (List.range f.localCount).reverse
  locals : f.localCount ≤ 256
  captures : f.captures.length ≤ 255
  constants : f.constants.length < wordLimit
  nested : ∀ chunk, Constant.function chunk ∈ f.constants → chunk.Sound

/-- The captures of a function designate captured locals or captures of the one around it. -/
def Linked (f outer : FunctionScope) : Prop :=
  ∀ c ∈ f.captures, if c.isLocal then c.index ∈ outer.cells else c.index < outer.captures.length

/-- The same locals; more of them may be captured, and captures and constants may be added. -/
structure Raises (f g : FunctionScope) : Prop where
  layout : g.layout = f.layout
  cells : f.cells ⊆ g.cells
  captures : f.captures <+: g.captures
  constants : f.constants <+: g.constants

theorem Raises.refl (f : FunctionScope) : f.Raises f :=
  ⟨rfl,subset_rfl,List.prefix_rfl,List.prefix_rfl⟩

theorem Raises.trans {f g h : FunctionScope} (first : f.Raises g) (second : g.Raises h) :
    f.Raises h :=
  ⟨second.layout.trans first.layout,first.cells.trans second.cells,
    first.captures.trans second.captures,first.constants.trans second.constants⟩

theorem localCount_layout (f : FunctionScope) : f.localCount = f.layout.flatten.length := by
  simp [localCount,layout,List.length_flatten,Function.comp_def]

theorem Raises.localCount {f g : FunctionScope} (raises : f.Raises g) :
    g.localCount = f.localCount := by
  rw [localCount_layout,raises.layout,← localCount_layout]

theorem length_layout (f : FunctionScope) : f.layout.length = f.blocks.length := by
  simp [layout]

theorem Raises.length_blocks {f g : FunctionScope} (raises : f.Raises g) :
    g.blocks.length = f.blocks.length := by
  rw [← length_layout,raises.layout,length_layout]

theorem slots_layout (f : FunctionScope) :
    f.blocks.flatten.map (·.slot) = f.layout.flatten.map (·.2) := by
  simp [layout,List.map_flatten,Function.comp_def]

/-- Every captured slot is the slot of a local. -/
theorem Regular.cells_lt {f : FunctionScope} (regular : f.Regular) {slot : Nat}
    (member : slot ∈ f.cells) : slot < f.localCount := by
  obtain ⟨l,inside,-,rfl⟩ := member
  have found : l.slot ∈ f.blocks.flatten.map (·.slot) := List.mem_map_of_mem inside
  rw [regular.slots] at found
  simpa using found

theorem slot?_mem {f : FunctionScope} {name : Bytes} {slot : Nat}
    (found : f.slot? name = some slot) : ∃ l ∈ f.blocks.flatten, l.slot = slot := by
  obtain ⟨l,first,rfl⟩ := Option.map_eq_some_iff.mp found
  exact ⟨l,List.mem_of_find?_eq_some first,rfl⟩

theorem Regular.slot?_lt {f : FunctionScope} (regular : f.Regular) {name : Bytes} {slot : Nat}
    (found : f.slot? name = some slot) : slot < f.localCount := by
  obtain ⟨l,inside,rfl⟩ := slot?_mem found
  have found : l.slot ∈ f.blocks.flatten.map (·.slot) := List.mem_map_of_mem inside
  rw [regular.slots] at found
  simpa using found

/-- A local whose slot is captured is marked so, because no other local has its slot. -/
theorem Regular.captured {f : FunctionScope} (regular : f.Regular) {l : Local}
    (member : l ∈ f.blocks.flatten) (known : l.slot ∈ f.cells) : l.captured = true := by
  obtain ⟨other,inside,captured,same⟩ := known
  have distinct : (f.blocks.flatten.map (·.slot)).Nodup := by
    rw [regular.slots]
    exact List.nodup_reverse.mpr List.nodup_range
  rwa [← List.inj_on_of_nodup_map distinct inside member same]

/-- The slots of the innermost blocks lie above those of the blocks around them. -/
theorem Regular.split {f : FunctionScope} (regular : f.Regular) (inner : List Block)
    {outer : List Block} (blocks : f.blocks = inner ++ outer) :
    inner.flatten.map (·.slot) =
        ((List.range inner.flatten.length).map (outer.flatten.length + ·)).reverse ∧
      outer.flatten.map (·.slot) = (List.range outer.flatten.length).reverse := by
  have slots := regular.slots
  rw [localCount,blocks,List.flatten_append,List.length_append,List.map_append,
    Nat.add_comm inner.flatten.length,List.range_add,List.reverse_append] at slots
  exact List.append_inj slots (by
    simp only [List.length_map,List.length_reverse,List.length_range])

/-- Leaving the innermost block. -/
theorem Regular.leave {f : FunctionScope} (regular : f.Regular) {block : Block}
    {outer : List Block} (blocks : f.blocks = block :: outer) :
    ({ f with blocks := outer } : FunctionScope).Regular := by
  have count : f.localCount = block.length + outer.flatten.length := by simp [localCount,blocks]
  have locals := regular.locals
  refine ⟨(regular.split [block] blocks).2,?_,regular.captures,regular.constants,
    regular.nested⟩
  change outer.flatten.length ≤ 256
  omega

/-- The captured locals of the blocks around the innermost one. -/
theorem Regular.cells_leave {f : FunctionScope} (regular : f.Regular) {block : Block}
    {outer : List Block} (blocks : f.blocks = block :: outer) :
    f.cells ∩ Set.Iio outer.flatten.length ⊆
      ({ f with blocks := outer } : FunctionScope).cells := by
  rintro slot ⟨⟨l,member,captured,rfl⟩,below⟩
  rw [blocks,List.flatten_cons,List.mem_append] at member
  rcases member with inner | rest
  · have slots := (regular.split [block] blocks).1
    have found : l.slot ∈ [block].flatten.map (·.slot) := List.mem_map_of_mem (by simpa using inner)
    rw [slots] at found
    simp only [List.mem_reverse,List.mem_map] at found
    obtain ⟨k,-,above⟩ := found
    have : l.slot < outer.flatten.length := below
    omega
  · exact ⟨l,rest,captured,rfl⟩

/-! Marking a local as captured. -/

theorem layout_markCaptured (f : FunctionScope) (slot : Nat) :
    (f.markCaptured slot).layout = f.layout := by
  simp only [layout,markCaptured,List.map_map]
  congr 1
  funext block
  simp only [Function.comp_apply,List.map_map]
  congr 1
  funext l
  by_cases same : l.slot = slot <;> simp [same]

theorem cells_markCaptured (f : FunctionScope) (slot : Nat) :
    f.cells ⊆ (f.markCaptured slot).cells := by
  rintro place ⟨l,inside,captured,rfl⟩
  obtain ⟨block,outer,inner⟩ := List.mem_flatten.mp inside
  refine ⟨if l.slot = slot then { l with captured := true } else l,?_,?_,?_⟩
  · refine List.mem_flatten.mpr ⟨_,List.mem_map_of_mem outer,?_⟩
    exact List.mem_map.mpr ⟨l,inner,rfl⟩
  · split <;> simp [captured]
  · split <;> rfl

theorem mem_cells_markCaptured {f : FunctionScope} {name : Bytes} {slot : Nat}
    (found : f.slot? name = some slot) : slot ∈ (f.markCaptured slot).cells := by
  obtain ⟨l,inside,rfl⟩ := slot?_mem found
  obtain ⟨block,outer,inner⟩ := List.mem_flatten.mp inside
  refine ⟨{ l with captured := true },?_,rfl,rfl⟩
  refine List.mem_flatten.mpr ⟨_,List.mem_map_of_mem outer,?_⟩
  exact List.mem_map.mpr ⟨l,inner,by simp⟩

theorem raises_markCaptured (f : FunctionScope) (slot : Nat) :
    f.Raises (f.markCaptured slot) :=
  ⟨layout_markCaptured f slot,cells_markCaptured f slot,List.prefix_rfl,List.prefix_rfl⟩

/-- Raising keeps a function regular as long as the limits are kept. -/
theorem Raises.regular {f g : FunctionScope} (raises : f.Raises g) (regular : f.Regular)
    (captures : g.captures.length ≤ 255) (constants : g.constants.length < wordLimit)
    (nested : ∀ chunk, Constant.function chunk ∈ g.constants → chunk.Sound) : g.Regular where
  slots := by
    rw [slots_layout,raises.layout,raises.localCount,← slots_layout]
    exact regular.slots
  locals := raises.localCount ▸ regular.locals
  captures := captures
  constants := constants
  nested := nested

/-- Links survive when both functions are raised, the inner one without new captures. -/
theorem Linked.raise {f outer g larger : FunctionScope} (linked : f.Linked outer)
    (same : g.captures = f.captures) (raises : outer.Raises larger) : g.Linked larger := by
  intro c member
  have link := linked c (same ▸ member)
  split at link
  next isLocal => simpa [isLocal] using raises.cells link
  next notLocal => simpa [notLocal] using Nat.lt_of_lt_of_le link raises.captures.length_le

/-- Adding a capture that is linked. -/
theorem capture?_spec {f g outer : FunctionScope} {c : Capture} {index : Nat}
    (found : f.capture? c = some (index,g)) (regular : f.Regular) (linked : f.Linked outer)
    (link : if c.isLocal then c.index ∈ outer.cells else c.index < outer.captures.length) :
    f.Raises g ∧ g.Regular ∧ g.Linked outer ∧ index < g.captures.length := by
  rw [capture?] at found
  split at found
  next place known =>
    cases found
    exact ⟨.refl f,regular,linked,(List.findIdx?_eq_some_iff_getElem.mp known).1⟩
  next =>
    split at found
    next room =>
      cases found
      have raises : f.Raises { f with captures := f.captures ++ [c] } :=
        ⟨rfl,subset_rfl,List.prefix_append _ _,List.prefix_rfl⟩
      refine ⟨raises,raises.regular regular ?_ regular.constants regular.nested,?_,by simp⟩
      · simp only [captureLimit] at room
        simp only [List.length_append,List.length_singleton]
        omega
      · intro d member
        rcases List.mem_append.mp member with old | new
        · exact linked d old
        · obtain rfl := List.mem_singleton.mp new
          exact link
    next => contradiction

/-- The same locals and possibly more in the innermost block. -/
structure Extends (f g : FunctionScope) : Prop where
  layout : ∃ new, g.layout = f.layout.modifyHead (new ++ ·)
  cells : f.cells ⊆ g.cells
  captures : f.captures <+: g.captures
  constants : f.constants <+: g.constants

theorem Raises.extends {f g : FunctionScope} (raises : f.Raises g) : f.Extends g :=
  ⟨⟨[],by rw [raises.layout]; cases f.layout <;> rfl⟩,raises.cells,raises.captures,
    raises.constants⟩

theorem Extends.trans {f g h : FunctionScope} (first : f.Extends g) (second : g.Extends h) :
    f.Extends h := by
  obtain ⟨new,added⟩ := first.layout
  obtain ⟨newer,more⟩ := second.layout
  refine ⟨⟨newer ++ new,?_⟩,first.cells.trans second.cells,
    first.captures.trans second.captures,first.constants.trans second.constants⟩
  rw [more,added]
  cases f.layout <;> simp

theorem Extends.length_blocks {f g : FunctionScope} (grown : f.Extends g) :
    g.blocks.length = f.blocks.length := by
  obtain ⟨new,added⟩ := grown.layout
  rw [← length_layout,added,List.length_modifyHead,length_layout]

/-- How many locals the outermost `depth` blocks hold. -/
def outerCount (f : FunctionScope) (depth : Nat) : Nat :=
  (f.layout.drop (f.layout.length - depth)).flatten.length

/-- New locals in the innermost block do not touch the blocks around it. -/
theorem Extends.outerCount {f g : FunctionScope} (grown : f.Extends g) {depth : Nat}
    (inner : depth < f.blocks.length) : g.outerCount depth = f.outerCount depth := by
  obtain ⟨new,added⟩ := grown.layout
  rw [← length_layout] at inner
  rw [FunctionScope.outerCount,FunctionScope.outerCount,added,List.length_modifyHead]
  cases whole : f.layout with
  | nil => rfl
  | cons block outer =>
    rw [whole,List.length_cons] at inner
    obtain ⟨skip,rest⟩ : ∃ skip, outer.length + 1 - depth = skip + 1 := ⟨outer.length - depth,by omega⟩
    simp [rest]

theorem outerCount_le (f : FunctionScope) (depth : Nat) : f.outerCount depth ≤ f.localCount := by
  rw [localCount_layout,outerCount]
  exact (List.drop_sublist _ _).flatten.length_le

end FunctionScope

/-- Functions under construction, the innermost first: each is regular and linked to the one around
it, and the outermost captures nothing. -/
def Nested : List FunctionScope → Prop
  | [] => True
  | [f] => f.Regular ∧ f.captures = []
  | f :: outer :: rest => f.Regular ∧ f.Linked outer ∧ Nested (outer :: rest)

theorem Nested.regular {f : FunctionScope} {rest : List FunctionScope}
    (nested : Nested (f :: rest)) : f.Regular := by
  cases rest <;> exact nested.1

/-- The innermost function may be replaced by one with the same captures. -/
theorem Nested.replace {f g : FunctionScope} {rest : List FunctionScope}
    (nested : Nested (f :: rest)) (regular : g.Regular) (same : g.captures = f.captures) :
    Nested (g :: rest) := by
  cases rest with
  | nil => exact ⟨regular,same.trans nested.2⟩
  | cons outer rest => exact ⟨regular,nested.2.1.raise same (.refl outer),nested.2.2⟩

/-- Looking up a captured variable raises the functions it passes through. -/
theorem resolveCapture_spec {name : Bytes} {f g : FunctionScope}
    {enclosing around : List FunctionScope} {index : Nat}
    (found : resolveCapture name f enclosing = .captured index g around)
    (nested : Nested (f :: enclosing)) :
    f.Raises g ∧ List.Forall₂ FunctionScope.Raises enclosing around ∧ Nested (g :: around) ∧
      index < g.captures.length := by
  induction enclosing generalizing f g around index with
  | nil => simp [resolveCapture] at found
  | cons outer rest ih =>
    obtain ⟨regular,linked,outerNested⟩ := nested
    rw [resolveCapture] at found
    split at found
    next slot known =>
      split at found
      next place inner added =>
        cases found
        have marked := outer.raises_markCaptured slot
        have markedRegular := marked.regular outerNested.regular outerNested.regular.captures
          outerNested.regular.constants outerNested.regular.nested
        obtain ⟨raises,innerRegular,innerLinked,bound⟩ := FunctionScope.capture?_spec added regular
          (linked.raise rfl marked) (by simpa using FunctionScope.mem_cells_markCaptured known)
        exact ⟨raises,.cons marked (List.forall₂_same.mpr fun h _ => .refl h),
          ⟨innerRegular,innerLinked,outerNested.replace markedRegular rfl⟩,bound⟩
      next => contradiction
    next =>
      split at found
      next place larger others resolved =>
        obtain ⟨outerRaises,restRaises,largerNested,outerBound⟩ := ih resolved outerNested
        split at found
        next position inner added =>
          cases found
          obtain ⟨raises,innerRegular,innerLinked,bound⟩ := FunctionScope.capture?_spec added regular
            (linked.raise rfl outerRaises) (by simpa using outerBound)
          exact ⟨raises,.cons outerRaises restRaises,⟨innerRegular,innerLinked,largerNested⟩,bound⟩
        next => contradiction
      next => contradiction
      next => contradiction

namespace State

/-- The function under construction and those around it are in order. -/
def Regular (s : State) : Prop :=
  Nested (s.function :: s.enclosing)

/-- No function has other locals than before. -/
structure Raises (s t : State) : Prop where
  function : s.function.Raises t.function
  enclosing : List.Forall₂ FunctionScope.Raises s.enclosing t.enclosing

/-- The function under construction may have more locals in its innermost block. -/
structure Extends (s t : State) : Prop where
  function : s.function.Extends t.function
  enclosing : List.Forall₂ FunctionScope.Raises s.enclosing t.enclosing

theorem enclosing_refl (l : List FunctionScope) : List.Forall₂ FunctionScope.Raises l l :=
  List.forall₂_same.mpr fun f _ => .refl f

theorem enclosing_trans {a b c : List FunctionScope}
    (first : List.Forall₂ FunctionScope.Raises a b)
    (second : List.Forall₂ FunctionScope.Raises b c) :
    List.Forall₂ FunctionScope.Raises a c := by
  induction first generalizing c with
  | nil => exact second
  | cons head _ ih =>
    cases second with
    | cons next tail => exact .cons (head.trans next) (ih tail)

theorem Raises.refl (s : State) : s.Raises s := ⟨.refl _,enclosing_refl _⟩

theorem Raises.trans {s t u : State} (first : s.Raises t) (second : t.Raises u) : s.Raises u :=
  ⟨first.function.trans second.function,enclosing_trans first.enclosing second.enclosing⟩

theorem Raises.extends {s t : State} (raises : s.Raises t) : s.Extends t :=
  ⟨raises.function.extends,raises.enclosing⟩

theorem Extends.refl (s : State) : s.Extends s := (Raises.refl s).extends

theorem Extends.trans {s t u : State} (first : s.Extends t) (second : t.Extends u) :
    s.Extends u :=
  ⟨first.function.trans second.function,enclosing_trans first.enclosing second.enclosing⟩

end State

end ScriptMachine.Compile
