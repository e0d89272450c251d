import Mathlib
import ScriptMachine.Proofs.Execution
import ScriptMachine.Proofs.Failures
import ScriptMachine.Proofs.Rooted
import ScriptMachine.Proofs.Stores

/-! Interned strings. At any time there is one string for each text, so strings are compared, fields
found and globals looked up by handles, and all of it comes out as if it were done by bytes. -/
namespace ScriptMachine

open ScriptMachine.Action

/-- A text is found if and only if there is a string of it, and there is no second one. -/
structure Heap.Interned (heap : Heap) : Prop where
  exact : ∀ text h, heap.find? text = some h ↔ heap.get? h = some (.string text)
  unique : ∀ text h k, heap.get? h = some (.string text) → heap.get? k = some (.string text) → h = k

theorem Heap.Tidy.exactly {heap : Heap} (tidy : heap.Tidy) : heap.Interned :=
  ⟨tidy.interned,fun _ _ _ first second => (tidy.same_iff first second).mpr rfl⟩

namespace Machine

variable {m : Machine}

/-- What a running program makes of handles of strings. -/
structure Interns (m : Machine) : Prop where
  interned : m.heap.Interned
  equals : ∀ h k a b, m.heap.get? h = some (.string a) → m.heap.get? k = some (.string b) →
    ((Value.object h).equals (.object k) = true ↔ a = b)
  compares : ∀ values h k a b, m = m.piled (.object k :: .object h :: values) →
    m.heap.get? h = some (.string a) → m.heap.get? k = some (.string b) →
      binary .equal m = .ok () (m.piled (.bool (a = b) :: values)) ∧
      binary .notEqual m = .ok () (m.piled (.bool (a ≠ b) :: values))
  fields : ∀ struct title labels label text, m.heap.get? struct = some (.struct title labels) →
    m.heap.get? label = some (.string text) →
      fieldIndex struct label m = match (labels.map m.heap.stringText).findIdx? (· = text) with
        | some index => .ok index m
        | none => .error (.fault ⟨.noField (m.heap.stringText title) text,m.trace⟩) m
  globals : ∀ table ∈ m.globals :: m.shelved, ∀ name value label text, table[name]? = some value →
    m.heap.get? label = some (.string text) →
      (name = label ↔ m.heap.get? name = some (.string text))

/-- The values on top are replaced by whether they are equal. -/
theorem binary_equals {op : BinaryOp} {values : List Value} {lhs rhs : Value} {result : Bool}
    (asked : op = .equal ∧ result = lhs.equals rhs ∨ op = .notEqual ∧ result = !lhs.equals rhs) :
    binary op (m.piled (rhs :: lhs :: values)) = .ok () (m.piled (.bool result :: values)) := by
  have done : (binary op).Ensures (m.piled (rhs :: lhs :: values))
      (fun _ m' => m' = m.piled (.bool result :: values)) fun _ _ => False := by
    rw [binary,ensures_bind,ensures_peek_piled rfl,ensures_bind,ensures_peek_piled rfl]
    rcases asked with ⟨rfl,rfl⟩ | ⟨rfl,rfl⟩
    · exact ensures_finishBinary_piled.mpr rfl
    · exact ensures_finishBinary_piled.mpr rfl
  obtain ⟨_,_,run,rfl⟩ := done.succeeds
  exact run

/-- What is known of an action whatever comes of it. -/
theorem run_of_ensures {α : Type} {action : Action α} {result : EStateM.Result Stop Machine α}
    (ensures : action.Ensures m (fun a m' => .ok a m' = result) fun s m' => .error s m' = result) :
    action m = result := by
  rw [Ensures] at ensures
  split at ensures <;> rename_i run <;> rw [run,ensures]

theorem interns (tidy : m.heap.Tidy) (labels : ∀ h o, m.heap.get? h = some o → o.Labelled m.heap)
    (tables : ∀ table ∈ m.globals :: m.shelved, table.Sound m.heap) : m.Interns := by
  constructor
  case interned => exact tidy.exactly
  case equals =>
    intro h k a b first second
    rw [Value.equals,decide_eq_true_iff]
    exact tidy.same_iff first second
  case compares =>
    intro values h k a b stack first second
    have same : (Value.object h).equals (.object k) = decide (a = b) := by
      rw [Value.equals]
      exact decide_eq_decide.mpr (tidy.same_iff first second)
    have yes : binary .equal (m.piled _) = .ok () (m.piled (.bool (a = b) :: values)) :=
      binary_equals (.inl ⟨rfl,same.symm⟩)
    have no : binary .notEqual (m.piled _) = .ok () (m.piled (.bool (a ≠ b) :: values)) :=
      binary_equals (.inr ⟨rfl,by rw [same,decide_not]⟩)
    rw [← stack] at yes no
    exact ⟨yes,no⟩
  case fields =>
    intro struct title fields label text shape string
    have same := Heap.findIdx?_label tidy (labels _ _ shape) string
    have spelled : m.heap.stringText label = text := by rw [Heap.stringText,string]
    refine run_of_ensures ?_
    rw [fieldIndex,ensures_bind,ensures_object shape,List.findIdx?_map]
    simp only [Function.comp_def,← same]
    cases fields.findIdx? (m.heap.stringText · = text) with
    | some index => exact rfl
    | none => simp [spelled]
  case globals =>
    intro table member name value label text found string
    obtain ⟨⟨other,there⟩,-⟩ := tables table member name value found
    rw [tidy.same_iff there string,there]
    simp

theorem Alive.interns (alive : m.Alive) : m.Interns :=
  Machine.interns alive.tidy alive.labels fun _ => alive.tables

theorem Orderly.interns (orderly : m.Orderly) : m.Interns := by
  obtain ⟨raw,intact⟩ := orderly.intact
  refine Machine.interns intact.tidy (fun h o found => ?_) ?_
  · have valid := intact.valid h o found
    cases o with
    | struct _ _ => exact valid.2
    | _ => exact trivial
  · exact List.forall_mem_cons.mpr ⟨intact.globals,intact.shelved⟩

end Machine

/-- After whatever requests to a store, a text is found if and only if there is the one string of it;
and at any time handles of strings do the work of their bytes, also when a text is freed, its place goes
to something else and the text is made again: in a history while programs are loaded and run, and
whatever has happened to a machine otherwise, with runs that failed. -/
theorem interning_exact :
    (∀ policy requests, ((Store.new policy).after requests).heap.Interned) ∧
    (∀ (host : Host) (length : Nat) (stages : Nat → Stage), History host length stages →
      host.Respectful → ∀ t ≤ length, ∀ m, (stages t).Passes m → m.Interns) ∧
    ∀ (host : Host) (length : Nat) (events : Nat → Event) (pages : Nat → Page),
      Chronicle host length events pages → host.Discreet → ∀ t ≤ length, (pages t).machine.Interns := by
  refine ⟨?_,?_,?_⟩
  · intro policy requests
    exact (Store.arises_after (.empty policy) requests).tidy.exactly
  · intro host length stages history respectful t within m passes
    exact ((history.good respectful within).passes passes).interns
  · intro host length events pages chronicle discreet t within
    exact (chronicle.balanced discreet within).alive.interns

/-- A text is freed, a cell takes its place, and the text is made again. -/
def Store.recycling : List Request :=
  [.string (ascii "a"),.cell 0,.register (ascii "c") (.object ⟨0⟩),.string (ascii "a")]

theorem interning_exact_recycling :
    (∀ s, s = (Store.new ⟨0,2.0,true⟩).after Store.recycling →
      s.heap.get? ⟨0⟩ = some (.cell (.onStack 0)) ∧ s.heap.find? (ascii "a") = some ⟨1⟩ ∧
        s.heap.Interned) ∧
    (∃ stages, History .standard 3 stages ∧ (stages 3).machine.Interns) ∧
    ∃ events pages e m, Chronicle .standard 7 events pages ∧
      Action.step .standard (pages 7).machine = .error (.fault e) m ∧ (pages 7).machine.Interns := by
  refine ⟨?_,?_,?_⟩
  · rintro _ rfl
    exact ⟨by with_unfolding_all rfl,by decide +kernel,interning_exact.1 _ _⟩
  · obtain ⟨stages,m,history,-⟩ := History.capturing
    exact ⟨stages,history,
      interning_exact.2.1 _ _ _ history Host.standard_respectful 3 le_rfl _ .here⟩
  · obtain ⟨events,pages,e,m,chronicle,failed,-⟩ := Chronicle.failing
    exact ⟨events,pages,e,m,chronicle,failed,
      interning_exact.2.2 _ _ _ _ chronicle Host.standard_discreet 7 le_rfl⟩

end ScriptMachine
