import Mathlib
import ScriptMachine.Proofs.Records
import ScriptMachine.Proofs.Resolution

/-! Where the code of a script lies in its chunk, and how the work of its parts adds up. Jumps that are
open while the code is emitted are closed in the chunk. -/
namespace ScriptMachine

namespace Compile.Fragment

/-- What stands at an offset for an item. An open jump leads out of the loop around or to its next
round. -/
def Placed (chunk : Chunk) (exits : Option Code.Exits) (offset : Nat) : Step → Prop
  | .instr i => chunk.instr? offset = some i.stored
  | .leaveLoop => ∃ e distance, exits = some e ∧
      chunk.instr? offset = some (.jump distance) ∧ offset + 5 + distance = e.leave
  | .nextRound => ∃ e distance, exits = some e ∧
      chunk.instr? offset = some (.jumpBack distance) ∧ offset + 5 = e.again + distance

/-- The code lies in the chunk from an offset on. -/
def Lies (chunk : Chunk) (exits : Option Code.Exits) : Nat → Fragment → Prop
  | _, [] => True
  | offset, item :: rest =>
    Placed chunk exits offset item.step ∧ Lies chunk exits (offset + item.step.size) rest

variable {chunk : Chunk} {exits : Option Code.Exits} {offset : Nat}

theorem lies_append {f g : Fragment} :
    Lies chunk exits offset (f ++ g) ↔
      Lies chunk exits offset f ∧ Lies chunk exits (offset + f.size) g := by
  induction f generalizing offset with
  | nil => simp [Lies,size]
  | cons item rest ih => simp [Lies,size,ih,and_assoc,Nat.add_assoc]

theorem lies_one {line : Nat} {i : Instr} :
    Lies chunk exits offset (one line i) ↔ chunk.instr? offset = some i.stored := by
  simp [one,Lies,Placed]

/-- Before a loop was closed, its open jumps led behind it and to its start. -/
theorem Lies.ofLoop {names : List (List Bytes)} {total base i : Nat} {f : Fragment}
    (whole : i + f.size ≤ total)
    (lies : Lies chunk exits (base + i) (f.closeLoop total i)) :
    Lies chunk (some ⟨names,base + total,base⟩) (base + i) f := by
  induction f generalizing i with
  | nil => trivial
  | cons item rest ih =>
    obtain ⟨step,line⟩ := item
    obtain ⟨here,later⟩ := lies
    change i + (step.size + size rest) ≤ total at whole
    rw [size_close,Nat.add_assoc] at later
    have after := ih (i := i + step.size) (by omega) later
    rw [← Nat.add_assoc] at after
    refine ⟨?_,after⟩
    cases step with
    | instr => exact here
    | leaveLoop =>
      change i + (5 + size rest) ≤ total at whole
      refine ⟨_,_,rfl,here,?_⟩
      change base + i + 5 + (total - (i + 5)) = base + total
      omega
    | nextRound => exact ⟨_,_,rfl,here,Nat.add_assoc base i 5⟩

/-- Code without open jumps lies in the chunk that is made of it. -/
theorem lies_of_code {f : Fragment} (whole : chunk.code = f.code) (closed : f.Closed)
    (fits : ∀ item ∈ f, ∀ i, item.step = .instr i → (∀ n, i ≠ .call n) → i.Fits)
    (front back : Fragment) (split : f = front ++ back) : Lies chunk exits front.size back := by
  induction back generalizing front with
  | nil => trivial
  | cons item back ih =>
    have member : item ∈ f := by simp [split]
    obtain ⟨i,step⟩ := closed item member
    have small := fits item member i step
    obtain ⟨_,line⟩ := item
    cases step
    have stands : Instr.Stands chunk.code front.size i.encode := by
      rw [whole,split]
      exact stands_code back fun x inside => closed x (split ▸ List.mem_append_left _ inside)
    have later := ih (front ++ one line i) (by simp [split,one])
    rw [size_append,size_one] at later
    refine ⟨?_,later⟩
    exact Instr.decode?_stored i small stands

/-- So does code that flows, with a return at its end. -/
theorem Flows.lies {front : Fragment} {line count : Nat} {pool : List (Constant Chunk)}
    {pre mid : Point} (flows : Flows pool count none pre front mid)
    (whole : chunk.code = (front ++ one line .ret).code) :
    (front ++ one line .ret).Lies chunk exits 0 := by
  have plain : ∀ item ∈ one line .ret, ∃ i : Instr, item.step = .instr i ∧ i.Fits := by
    simp [one,Instr.Fits]
  obtain ⟨closed,fits⟩ := flows.fits plain
  exact lies_of_code whole closed fits [] _ (List.nil_append _).symm

end Compile.Fragment

namespace Compile

open ScriptMachine.Code

variable {source : Source} {span : Span} {line : Nat} {s t u : State}

/-- The compiler is at work on a script, outside of all functions. -/
structure State.Alone (s : State) : Prop where
  regular : s.Regular
  enclosing : s.enclosing = []

theorem State.Alone.extend (alone : s.Alone) (regular : t.Regular) (grown : s.Extends t) :
    t.Alone where
  regular := regular
  enclosing := by
    have around := grown.enclosing
    rw [alone.enclosing] at around
    exact List.forall₂_nil_left_iff.mp around

theorem Valued.alone {n : Nat} {f : Fragment} (valued : Valued n s t f) (alone : s.Alone) : t.Alone :=
  alone.extend valued.regular valued.raises.extends

/-- Names in the order of their declaration are looked up from the latest on. -/
theorem slot_findIdx? {name : Bytes} {names : List Bytes} {slot : Nat}
    (found : Scopes.slot? name names = some slot) :
    ∃ depth, names.findIdx? (· = name) = some depth ∧ slot + depth + 1 = names.length := by
  induction names with
  | nil => contradiction
  | cons latest earlier ih =>
    rw [Scopes.slot?] at found
    by_cases same : latest = name
    · rw [if_pos same] at found
      cases found
      exact ⟨0,by simp [List.findIdx?_cons,same],rfl⟩
    · rw [if_neg same] at found
      obtain ⟨depth,known,place⟩ := ih found
      refine ⟨depth + 1,by simp [List.findIdx?_cons,same,known],?_⟩
      rw [List.length_cons]
      omega

theorem slot_absent {name : Bytes} {names : List Bytes} (absent : Scopes.slot? name names = none) :
    names.findIdx? (· = name) = none := by
  induction names with
  | nil => rfl
  | cons latest earlier ih =>
    rw [Scopes.slot?] at absent
    by_cases same : latest = name
    · rw [if_pos same] at absent
      contradiction
    · rw [if_neg same] at absent
      simp [List.findIdx?_cons,same,ih absent]

/-- In a script a variable is one of a block, in its slot, or a global. -/
theorem variableInstr_alone {onLocal onCapture onGlobal : Nat → Instr} {name : Bytes} {i : Instr}
    (run : variableInstr source onLocal onCapture onGlobal name span s = .ok i t) (alone : s.Alone) :
    (∃ slot, Slot s.function.names name slot ∧ i = onLocal slot) ∨
      ∃ n, Free s.function.names name ∧ t.function.constants[n]? = some (.string name) ∧
        i = onGlobal n := by
  have inner : s.function.Regular := Nested.regular alone.regular
  have same := inner.slot?_eq name
  obtain ⟨slot,known,rfl,-⟩ | ⟨known,⟨index,function,enclosing,resolved,-⟩ | ⟨-,n,found,rfl⟩⟩ :=
    variableInstr_ok run
  · exact .inl ⟨slot,slot_findIdx? (same.symm.trans known),rfl⟩
  · rw [alone.enclosing,resolveCapture] at resolved
    cases resolved
  · obtain ⟨-,-,-,-,there⟩ := constant_string found alone.regular
    exact .inr ⟨n,slot_absent (same.symm.trans known),there,rfl⟩

/-! The work of code. -/

section

variable {code : Code} {host : Host} {limit : Nat} {exits : Option Exits} {α β : Type}
  {temps : List Value} {x : Evaluation α} {left : α → List Value} {f g : Fragment}

/-- Wherever the code between two states of the compiler lies, it does what the evaluation does. -/
def Works (code : Code) (host : Host) (limit : Nat) (exits : Option Exits) (s t : State)
    (f : Fragment) (temps : List Value) (x : Evaluation α) (left : α → List Value) : Prop :=
  ∀ offset, t.function.constants <+: code.chunk.constants → f.Lies code.chunk exits offset →
    code.Does host limit exits ⟨offset,s.function.names,temps⟩ x
      fun a => ⟨offset + f.size,t.function.names,left a⟩

/-- The rest may rely on what is known of every result so far. -/
theorem Works.thenOf {next : α → Evaluation β} {final : β → List Value} {k : α → Prop}
    (first : Works code host limit exits s t f temps x left)
    (each : ∀ w a w', x w = .ok a w' → k a)
    (grown : t.function.constants <+: u.function.constants)
    (rest : ∀ a, k a → Works code host limit exits t u g (left a) (next a) final) :
    Works code host limit exits s u (f ++ g) temps (x >>= next) final := by
  intro offset pool lies
  obtain ⟨here,there⟩ := Fragment.lies_append.mp lies
  rw [Fragment.size_append,← Nat.add_assoc]
  intro w m stands
  have does := (first offset (grown.trans pool) here w m stands).also (each w)
  exact does.bind fun a w' m' done => rest a done.1 (offset + f.size) pool there w' m' done.2

theorem Works.then {next : α → Evaluation β} {final : β → List Value}
    (first : Works code host limit exits s t f temps x left)
    (grown : t.function.constants <+: u.function.constants)
    (rest : ∀ a, Works code host limit exits t u g (left a) (next a) final) :
    Works code host limit exits s u (f ++ g) temps (x >>= next) final :=
  first.thenOf (k := fun _ => True) (fun _ _ _ _ => trivial) grown fun a _ => rest a

/-- No code for nothing to do. -/
theorem Works.nil {l : α → List Value} (a : α) : Works code host limit exits s s [] (l a) (Pure.pure a) l :=
  fun offset _ _ => .pure (q := fun a => ⟨offset,s.function.names,l a⟩) a

theorem Works.one {i : Instr}
    (does : ∀ offset, code.chunk.instr? offset = some i.stored →
      t.function.constants <+: code.chunk.constants →
      code.Does host limit exits ⟨offset,s.function.names,temps⟩ x
        fun a => ⟨offset + i.size,t.function.names,left a⟩) :
    Works code host limit exits s t (.one line i) temps x left :=
  fun offset pool lies => does offset (Fragment.lies_one.mp lies) pool

/-- The last result may be put together from earlier ones. -/
theorem Works.map {final : β → List Value} {y : Evaluation β} {p : α → β}
    (works : Works code host limit exits s t f temps x left) (same : ∀ a, final (p a) = left a)
    (whole : y = x >>= fun a => Pure.pure (p a)) :
    Works code host limit exits s t f temps y final := by
  subst whole
  intro offset pool lies
  refine (works offset pool lies).bind fun a => ?_
  rw [← same]
  exact .pure (q := fun b => ⟨offset + f.size,t.function.names,final b⟩) (p a)

end

end Compile

end ScriptMachine
