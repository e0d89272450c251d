import Mathlib
import ScriptMachine.Proofs.Lexical

/-! Names and the instructions they are compiled to. While code is compiled, the locals of the functions
under construction are what is in scope, and their captures only grow; so an entry leads to the same
variable in the end as when it was made. -/
namespace ScriptMachine.Compile

variable {source : Source} {span : Span} {line : Nat} {s t u : State} {α β : Type}

/-! Instructions that use names, in code under construction and in the bytes of a chunk. -/

namespace Fragment

def uses (f : Fragment) : List Instr :=
  f.instrs.filter Instr.isUse

@[simp] theorem uses_nil : uses [] = [] := rfl

@[simp] theorem uses_append (f g : Fragment) : (f ++ g).uses = f.uses ++ g.uses := by
  simp [uses,instrs]

@[simp] theorem uses_one (line : Nat) (i : Instr) :
    (one line i).uses = if i.isUse then [i] else [] := by
  cases known : i.isUse <;> simp [uses,instrs,one,known]

@[simp] theorem uses_open (line : Nat) :
    uses [⟨.leaveLoop,line⟩] = [] ∧ uses [⟨.nextRound,line⟩] = [] := by
  simp [uses,instrs]

/-- The jumps that are closed with a loop use no names. -/
@[simp] theorem uses_closeLoop (f : Fragment) (total offset : Nat) :
    (f.closeLoop total offset).uses = f.uses := by
  induction f generalizing offset with
  | nil => rfl
  | cons item rest ih =>
    obtain ⟨step,line⟩ := item
    change uses ([⟨step.close total offset,line⟩] ++ _) = uses ([⟨step,line⟩] ++ rest)
    rw [uses_append,uses_append,ih]
    cases step with
    | instr i => rfl
    | leaveLoop => simp [Step.close,uses,instrs,Instr.isUse]
    | nextRound => simp [Step.close,uses,instrs,Instr.isUse]

@[simp] theorem uses_discard (line : Nat) (block : Block) : (discard line block).uses = [] := by
  induction block with
  | nil => rfl
  | cons l rest ih =>
    change uses (one line (if l.captured then .closeCell else .pop) ++ discard line rest) = []
    rw [uses_append,ih,uses_one]
    cases l.captured <;> rfl

theorem uses_unwind (line : Nat) (blocks : List Block) :
    Fragment.uses (blocks.flatMap (discard line)) = [] := by
  induction blocks with
  | nil => rfl
  | cons block rest ih => rw [List.flatMap_cons,uses_append,uses_discard,ih,List.append_nil]

theorem filter_stored (code : List Instr) :
    (code.map Instr.stored).filter Instr.isUse = code.filter Instr.isUse := by
  induction code with
  | nil => rfl
  | cons i rest ih =>
    rw [List.map_cons,List.filter_cons,List.filter_cons,ih]
    cases i <;> rfl

/-- A chunk uses the names that the code it was made of uses, up to some plain instructions at its end. -/
theorem Flows.reads {front back : Fragment} {pool : List (Constant Chunk)} {count : Nat}
    {pre mid : Point} {chunk : Chunk} (flows : Flows pool count none pre front mid)
    (whole : chunk.code = (front ++ back).code)
    (plain : ∀ item ∈ back, ∃ i : Instr, item.step = .instr i ∧ i.Fits) :
    ∃ code, chunk.Reads 0 code chunk.code.size ∧
      code.filter Instr.isUse = (front ++ back).uses := by
  exact ⟨_,(flows.assembled whole plain).read,filter_stored _⟩

end Fragment

/-! The functions under construction and what is in scope. -/

def FunctionScope.names (f : FunctionScope) : List (List Bytes) :=
  f.blocks.map (List.map (·.name))

namespace State

def scopes (s : State) : Scopes :=
  (s.function :: s.enclosing).map (·.names)

def chain (s : State) : List (List Capture) :=
  (s.function :: s.enclosing).map (·.captures)

end State

/-- This is in scope, and no function captures a variable twice. -/
structure Lexical (scopes : Scopes) (s : State) : Prop where
  regular : s.Regular
  names : s.scopes = scopes
  distinct : ∀ own ∈ s.chain, own.Nodup

/-- Captures and constants are only added. -/
structure Grows (s t : State) : Prop where
  chain : List.Forall₂ (· <+: ·) s.chain t.chain
  constants : s.function.constants <+: t.function.constants
  around : t.enclosing.map (·.names) = s.enclosing.map (·.names)

/-- What the captures and constants of a state have become in the end. -/
structure Final (s : State) (captures : List (List Capture)) (pool : List (Constant Chunk)) : Prop where
  chain : List.Forall₂ (· <+: ·) s.chain captures
  constants : s.function.constants <+: pool
  chained : Chained captures s.scopes

theorem chain_refl (captures : List (List Capture)) : List.Forall₂ (· <+: ·) captures captures :=
  List.forall₂_same.mpr fun _ _ => List.prefix_rfl

theorem chain_trans {a b c : List (List Capture)} (first : List.Forall₂ (· <+: ·) a b)
    (second : List.Forall₂ (· <+: ·) b c) : List.Forall₂ (· <+: ·) a c := by
  induction first generalizing c with
  | nil => exact second
  | cons head _ ih =>
    cases second with
    | cons next tail => exact .cons (head.trans next) (ih tail)

theorem Grows.refl (s : State) : Grows s s := ⟨chain_refl _,List.prefix_rfl,rfl⟩

theorem Grows.trans (first : Grows s t) (second : Grows t u) : Grows s u :=
  ⟨chain_trans first.chain second.chain,first.constants.trans second.constants,
    second.around.trans first.around⟩

theorem Final.before {captures : List (List Capture)} {pool : List (Constant Chunk)}
    (final : Final t captures pool) (grows : Grows s t) : Final s captures pool where
  chain := chain_trans grows.chain final.chain
  constants := grows.constants.trans final.constants
  chained := by
    have chained := final.chained
    rw [State.scopes,List.map_cons,grows.around] at chained
    rw [State.scopes,List.map_cons]
    generalize s.enclosing.map (·.names) = scopes at *
    cases chained with
    | script => exact .script _
    | function distinct linked more => exact .function distinct linked more

namespace FunctionScope

theorem names_layout (f : FunctionScope) : f.names = f.layout.map (List.map Prod.fst) := by
  simp [names,layout,Function.comp_def]

theorem Raises.names {f g : FunctionScope} (raises : f.Raises g) : g.names = f.names := by
  rw [names_layout,names_layout,raises.layout]

theorem length_names (f : FunctionScope) : f.names.flatten.length = f.localCount := by
  simp [names,localCount,List.length_flatten,Function.comp_def]

/-- Locals are found by the order of their declaration. -/
theorem Regular.slot?_eq {f : FunctionScope} (regular : f.Regular) (name : Bytes) :
    f.slot? name = Scopes.slot? name f.names.flatten := by
  have slots := regular.slots
  have same : f.names.flatten = f.blocks.flatten.map (·.name) := by
    simp [names,List.map_flatten]
  rw [same,slot?]
  rw [localCount] at slots
  generalize f.blocks.flatten = locals at slots
  induction locals with
  | nil => rfl
  | cons l rest ih =>
    rw [List.length_cons,List.range_succ,List.reverse_append] at slots
    obtain ⟨place,others⟩ := List.cons.inj slots
    rw [List.find?_cons,List.map_cons,Scopes.slot?,List.length_map]
    by_cases found : l.name = name
    · simpa [found] using place
    · simpa [found] using ih others

theorem Regular.find_inside {f : FunctionScope} (regular : f.Regular) {name : Bytes} {slot : Nat}
    (known : f.slot? name = some slot) (outer : Scopes) :
    Scopes.find name (f.names :: outer) = some ⟨0,slot⟩ := by
  simp [Scopes.find,← regular.slot?_eq,known]

theorem Regular.find_outside {f : FunctionScope} (regular : f.Regular) {name : Bytes}
    (unknown : f.slot? name = none) (outer : Scopes) :
    Scopes.find name (f.names :: outer) = (Scopes.find name outer).map .deeper := by
  simp [Scopes.find,← regular.slot?_eq,unknown]

/-- A capture is only added when it is not there. -/
theorem capture?_leads {f g : FunctionScope} {c : Capture} {index : Nat}
    (found : f.capture? c = some (index,g)) (distinct : f.captures.Nodup) :
    g.captures.Nodup ∧ g.captures[index]? = some c := by
  rw [capture?] at found
  split at found
  next place known =>
    cases found
    obtain ⟨bound,same,-⟩ := List.findIdx?_eq_some_iff_getElem.mp known
    exact ⟨distinct,by simpa [List.getElem?_eq_getElem bound] using same⟩
  next absent =>
    split at found
    · cases found
      refine ⟨List.nodup_append.mpr ⟨distinct,List.nodup_singleton c,?_⟩,by simp⟩
      intro old member new other same
      obtain rfl := List.mem_singleton.mp other
      have different := List.findIdx?_eq_none_iff.mp absent old member
      simp [same] at different
    · contradiction

end FunctionScope

theorem raises_chain {functions later : List FunctionScope}
    (raises : List.Forall₂ FunctionScope.Raises functions later) :
    List.Forall₂ (· <+: ·) (functions.map (·.captures)) (later.map (·.captures)) ∧
      later.map (·.names) = functions.map (·.names) := by
  induction raises with
  | nil => exact ⟨.nil,rfl⟩
  | cons head _ ih => exact ⟨.cons head.captures ih.1,by rw [List.map_cons,head.names,ih.2]; rfl⟩

theorem State.Raises.grows (raises : s.Raises t) : Grows s t ∧ t.scopes = s.scopes := by
  obtain ⟨chain,names⟩ := raises_chain (.cons raises.function raises.enclosing)
  exact ⟨⟨chain,raises.function.constants,(List.cons.inj names).2⟩,names⟩

theorem Lexical.raise {scopes : Scopes} (lexical : Lexical scopes s) (regular : t.Regular)
    (raises : s.Raises t) (distinct : ∀ own ∈ t.chain, own.Nodup) :
    Lexical scopes t ∧ Grows s t :=
  have ⟨grows,names⟩ := raises.grows
  ⟨⟨regular,names.trans lexical.names,distinct⟩,grows⟩

/-- A search for a captured variable finds what lexical scoping gives, and the entry leads there. -/
theorem resolveCapture_leads {name : Bytes} {f g : FunctionScope}
    {enclosing around : List FunctionScope} {index : Nat}
    (found : resolveCapture name f enclosing = .captured index g around)
    (nested : Nested (f :: enclosing)) (distinct : ∀ h ∈ f :: enclosing, h.captures.Nodup) :
    (∀ h ∈ g :: around, h.captures.Nodup) ∧
      ∃ v, Scopes.find name (enclosing.map (·.names)) = some v ∧
        follow ((g :: around).map (·.captures)) index = some v.deeper := by
  induction enclosing generalizing f g around index with
  | nil => simp [resolveCapture] at found
  | cons outer rest ih =>
    obtain ⟨-,-,outerNested⟩ := nested
    obtain ⟨own,outerDistinct⟩ := List.forall_mem_cons.mp distinct
    rw [resolveCapture] at found
    rw [List.map_cons]
    cases known : outer.slot? name with
    | some slot =>
      rw [known] at found
      dsimp only at found
      rw [outerNested.regular.find_inside known]
      split at found
      next place inner added =>
        cases found
        obtain ⟨kept,entry⟩ := FunctionScope.capture?_leads added own
        refine ⟨?_,⟨0,slot⟩,rfl,by simp [follow,entry,Variable.deeper]⟩
        rintro h (_ | ⟨_,_ | ⟨_,member⟩⟩)
        · exact kept
        · exact outerDistinct outer List.mem_cons_self
        · exact outerDistinct h (List.mem_cons_of_mem _ member)
      next => contradiction
    | none =>
      rw [known] at found
      dsimp only at found
      rw [outerNested.regular.find_outside known]
      split at found
      next place larger others resolved =>
        obtain ⟨outerKept,v,further,leads⟩ := ih resolved outerNested outerDistinct
        split at found
        next position inner added =>
          cases found
          obtain ⟨kept,entry⟩ := FunctionScope.capture?_leads added own
          refine ⟨List.forall_mem_cons.mpr ⟨kept,outerKept⟩,v.deeper,by simp [further],?_⟩
          rw [List.map_cons,follow,entry]
          exact Option.map_eq_some_iff.mpr ⟨_,leads,rfl⟩
        next => contradiction
      next => contradiction
      next => contradiction

/-- A name that no search finds is global. -/
theorem resolveCapture_absent {name : Bytes} {f : FunctionScope} {enclosing : List FunctionScope}
    (absent : resolveCapture name f enclosing = .absent) (nested : Nested (f :: enclosing)) :
    Scopes.find name (enclosing.map (·.names)) = none := by
  induction enclosing generalizing f with
  | nil => rfl
  | cons outer rest ih =>
    obtain ⟨-,-,outerNested⟩ := nested
    rw [resolveCapture] at absent
    rw [List.map_cons]
    cases known : outer.slot? name with
    | some slot =>
      rw [known] at absent
      dsimp only at absent
      split at absent <;> contradiction
    | none =>
      rw [known] at absent
      dsimp only at absent
      rw [outerNested.regular.find_outside known]
      split at absent
      next => split at absent <;> contradiction
      next resolved => simp [ih resolved outerNested]
      next => contradiction

end ScriptMachine.Compile
