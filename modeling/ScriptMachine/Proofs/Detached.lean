import Mathlib
import ScriptMachine.Proofs.Hosts

/-! Native functions that work on what machines share with their hosts. What they do does not depend on
the stack, and they find no objects but those they are given, those that globals hold and new ones. -/
namespace ScriptMachine

/-- The value is none of these objects. -/
def Value.Avoids (hidden : Set Handle) (value : Value) : Prop :=
  ∀ h, value = .object h → h ∉ hidden

namespace Machine

/-- What is left without the stack, the frames and the open cells. -/
def bare (m : Machine) : Machine :=
  { m with stack := #[], frames := [], openCells := [] }

/-- There is no stack, no frame and no open cell. -/
structure Plain (m : Machine) : Prop where
  stack : m.stack = #[]
  frames : m.frames = []
  openCells : m.openCells = []

theorem plain_bare (m : Machine) : m.bare.Plain :=
  ⟨rfl,rfl,rfl⟩

theorem Plain.bare_eq {m : Machine} (plain : m.Plain) : m.bare = m := by
  obtain ⟨stack,frames,openCells⟩ := plain
  rw [bare,← stack,← frames,← openCells]

/-- Nothing leads from globals, or from any object that is not hidden, to one that is. No other object
is a closure. -/
structure Shuns (hidden : Set Handle) (m : Machine) : Prop where
  taken : ∀ h ∈ hidden, ∃ o, m.heap.get? h = some o ∧ ∀ text, o ≠ .string text
  objects : ∀ h ∉ hidden, ∀ o, m.heap.get? h = some o →
    (∀ code captures, o ≠ .closure code captures) ∧ ∀ r ∈ o.references, r ∉ hidden
  globals : ∀ (name : Handle) (value : Value), m.globals[name]? = some value → value.Avoids hidden

end Machine

/-- A native function does the same on the bare machine, as long as it does not collect, and it does
not find what is hidden. -/
def Host.Detached (host : Host) (native : Native) : Prop :=
  ∀ arguments (m : Machine) result m', (∀ n, host.arity native = some n → arguments.length = n) →
    m.Intact ∅ → (∀ value ∈ arguments, value ∈ m.stack) →
    (host.call native arguments).run m = .ok result m' →
    m'.heap.collections = m.heap.collections →
    (host.call native arguments).run m.bare = .ok result m'.bare ∧
      ∀ hidden, m.Shuns hidden → (∀ value ∈ arguments, value.Avoids hidden) →
        m'.Shuns hidden ∧ ∀ value, result = .ok value → value.Avoids hidden

namespace Value

variable {hidden : Set Handle}

@[simp] theorem avoids_number (n : Float) : (number n).Avoids hidden := by simp [Avoids]

@[simp] theorem avoids_bool (b : Bool) : (bool b).Avoids hidden := by simp [Avoids]

@[simp] theorem avoids_nil : nil.Avoids hidden := by simp [Avoids]

@[simp] theorem avoids_object {h : Handle} : (object h).Avoids hidden ↔ h ∉ hidden := by
  simp [Avoids]

end Value

namespace Machine.Shuns

variable {hidden : Set Handle} {m m' : Machine} {h : Handle}

/-- Only the heap and the globals matter. -/
theorem of_eq (shuns : m.Shuns hidden) (heap : m'.heap = m.heap) (globals : m'.globals = m.globals) :
    m'.Shuns hidden := by
  refine ⟨?_,?_,?_⟩
  · rw [heap]
    exact shuns.taken
  · rw [heap]
    exact shuns.objects
  · rw [globals]
    exact shuns.globals

theorem string (shuns : m.Shuns hidden) {text : Bytes} (found : m.heap.get? h = some (.string text)) :
    h ∉ hidden := by
  intro member
  obtain ⟨o,here,plain⟩ := shuns.taken h member
  rw [found] at here
  cases here
  exact plain text rfl

/-- A new object. -/
theorem insert (shuns : m.Shuns hidden) {heap : Heap} {object : Object}
    (vacant : m.heap.get? h = none) (found : heap.get? h = some object)
    (others : ∀ other, other ≠ h → heap.get? other = m.heap.get? other)
    (plain : ∀ code captures, object ≠ .closure code captures)
    (references : ∀ r ∈ object.references, r ∉ hidden) :
    h ∉ hidden ∧ Shuns hidden { m with heap } := by
  have visible : h ∉ hidden := by
    intro member
    obtain ⟨o,here,-⟩ := shuns.taken h member
    rw [vacant] at here
    contradiction
  refine ⟨visible,fun k member => ?_,fun k outside o here => ?_,shuns.globals⟩
  · obtain ⟨o,here,text⟩ := shuns.taken k member
    have other : k ≠ h := by
      rintro rfl
      exact visible member
    exact ⟨o,(others k other).trans here,text⟩
  · change heap.get? k = some o at here
    by_cases same : k = h
    · subst same
      rw [found] at here
      cases here
      exact ⟨plain,references⟩
    · rw [others k same] at here
      exact shuns.objects k outside o here

/-- Changing an object that is not hidden. -/
theorem update (shuns : m.Shuns hidden) (visible : h ∉ hidden) {change : Object → Object}
    (plain : ∀ o, m.heap.get? h = some o → ∀ code captures, change o ≠ .closure code captures)
    (references : ∀ o, m.heap.get? h = some o → ∀ r ∈ (change o).references, r ∉ hidden) :
    Shuns hidden { m with heap := m.heap.update h change } := by
  refine ⟨fun k member => ?_,fun k outside o here => ?_,shuns.globals⟩
  · have other : k ≠ h := by
      rintro rfl
      exact visible member
    obtain ⟨o,here,text⟩ := shuns.taken k member
    exact ⟨o,by rw [Heap.get?_update,if_neg other,here],text⟩
  · change (m.heap.update h change).get? k = some o at here
    rw [Heap.get?_update] at here
    by_cases same : k = h
    · subst same
      rw [if_pos rfl] at here
      obtain ⟨before,known,rfl⟩ := Option.map_eq_some_iff.mp here
      exact ⟨plain before known,references before known⟩
    · rw [if_neg same] at here
      exact shuns.objects k outside o here

theorem setGlobal (shuns : m.Shuns hidden) (h : Handle) {value : Value}
    (avoids : value.Avoids hidden) :
    Shuns hidden { m with globals := m.globals.insert h value } := by
  refine ⟨shuns.taken,shuns.objects,fun name other here => ?_⟩
  change (m.globals.insert h value)[name]? = some other at here
  rw [Std.TreeMap.getElem?_insert] at here
  split at here
  · cases here
    exact avoids
  · exact shuns.globals name other here

end Machine.Shuns

end ScriptMachine
