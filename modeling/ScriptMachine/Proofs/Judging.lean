import Mathlib
import ScriptMachine.Proofs.Reached

/-! The compiler as a judge of trees. A part of it that comes to an end has met no fault and has captured
what the tree uses; one that fails names a fault of the tree, or has met a constant or a jump that is too
large. -/
namespace ScriptMachine

/-- A constant or a jump has no room in an operand. -/
def Diagnostic.Oversize (d : Diagnostic) : Prop :=
  d.cause = .tooManyConstants ∨ d.cause = .jumpTooLarge

namespace Compile

/-- The names in scope and the globals declared so far. -/
structure Setting where
  scopes : Scopes
  globals : List Bytes

namespace Setting

/-- The names that stand beside what is declared next. -/
def siblings (h : Setting) : List Bytes :=
  match h.scopes.headD [] with
  | [] => h.globals
  | block :: _ => block

/-- What is wrong if one of them is declared again. -/
def clash (h : Setting) : Bytes → Diagnostic.Cause :=
  match h.scopes.headD [] with
  | [] => .duplicateGlobal
  | _ :: _ => .duplicateVariable

def declare (name : Bytes) (h : Setting) : Setting :=
  ⟨h.scopes.declare name,
    match h.scopes.headD [] with
    | [] => name :: h.globals
    | _ :: _ => h.globals⟩

def openBlock (h : Setting) : Setting :=
  ⟨h.scopes.openBlock,h.globals⟩

def after (h : Setting) (st : Stmt) : Setting :=
  match st.declaration? with
  | some (name,_) => h.declare name
  | none => h

def afterAll (h : Setting) (body : List Stmt) : Setting :=
  body.foldl after h

def clashes (h : Setting) (entries : List (Bytes × Span)) : List Fault :=
  repeated h.clash h.siblings entries

@[simp] theorem clashes_nil (h : Setting) : h.clashes [] = [] := rfl

variable (h : Setting) (name : Bytes) (st : Stmt) (body : List Stmt)

@[simp] theorem siblings_declare : (h.declare name).siblings = name :: h.siblings := by
  obtain ⟨_ | ⟨_ | ⟨block,blocks⟩,outer⟩,globals⟩ := h <;> rfl

@[simp] theorem clash_declare : (h.declare name).clash = h.clash := by
  obtain ⟨_ | ⟨_ | ⟨block,blocks⟩,outer⟩,globals⟩ := h <;> rfl

@[simp] theorem scopes_after : (h.after st).scopes = st.after h.scopes := by
  cases st <;> rfl

theorem clashes_append (first : List (Bytes × Span)) :
    h.clashes (st.declaration?.toList ++ first) =
      h.clashes st.declaration?.toList ++ (h.after st).clashes first := by
  rw [clashes,repeated_append]
  cases known : st.declaration? with
  | none => simp [after,known,clashes]
  | some entry => simp [after,known,clashes]

/-- Declarations only concern the innermost block. -/
theorem afterAll_inside (block : List Bytes) (blocks : List (List Bytes)) (outer : Scopes)
    (globals : List Bytes) : ∃ more, afterAll ⟨(block :: blocks) :: outer,globals⟩ body =
      ⟨(more :: blocks) :: outer,globals⟩ := by
  induction body generalizing block with
  | nil => exact ⟨block,rfl⟩
  | cons first rest ih => cases first <;> exact ih _

end Setting

/-- The state of the compiler belongs to this setting. -/
structure Placed (h : Setting) (s : State) : Prop where
  lexical : Lexical h.scopes s
  globals : s.globals = h.globals

/-- What some uses add to the variables that the function so far out reaches. -/
def beyond (k : Nat) (mentions : List Mention) : Finset Variable :=
  (mentions.filterMap (·.used.beyond? k)).toFinset

@[simp] theorem beyond_nil (k : Nat) : beyond k [] = ∅ := rfl

@[simp] theorem beyond_append (k : Nat) (front back : List Mention) :
    beyond k (front ++ back) = beyond k front ∪ beyond k back := by
  simp [beyond]

/-- The functions under construction reach what they did, and what is used. -/
structure Gathers (s t : State) (mentions : List Mention) : Prop where
  length : t.chain.length = s.chain.length
  reached : ∀ k, reached (t.chain.drop k) = reached (s.chain.drop k) ∪ beyond k mentions

/-- The reasons for a refusal. A use may also be one too many for a function around, with what that has
reached before. -/
inductive Blamed (source : Source) (s : State) (mentions : List Mention) (faults : List Fault)
    (d : Diagnostic) : Prop
  | oversize (large : d.Oversize)
  | fault {fault : Fault} (member : fault ∈ faults) (located : d = fault.located source)
  | overfull {k : Nat} {front back : List Mention} {m : Mention} {w : Variable}
      (bound : k + 1 < s.chain.length) (split : mentions = front ++ m :: back)
      (outside : m.used.beyond? k = some w)
      (many : captureLimit < (insert w (reached (s.chain.drop k) ∪ beyond k front)).card)
      (located : d = Fault.located source ⟨.tooManyCaptures,m.span⟩)

/-- What a part of the compiler does in a state, when there are these uses and faults in the tree. -/
structure Verdict {α : Type} (source : Source) (later : Setting) (s : State) (x : Compiler α)
    (mentions : List Mention) (faults : List Fault) : Prop where
  accepts : ∀ a t, x s = .ok a t → Placed later t ∧ Gathers s t mentions ∧ faults = []
  refuses : ∀ d t, x s = .error d t → Blamed source s mentions faults d

def Judged {α : Type} (source : Source) (h later : Setting) (x : Compiler α)
    (mentions : List Mention) (faults : List Fault) : Prop :=
  ∀ s, Placed h s → Verdict source later s x mentions faults

/-- What compiling some statements does in every setting. -/
def AllJudged (source : Source) (inLoop : Bool) (sts : List Stmt) (x : Compiler Fragment) : Prop :=
  ∀ h : Setting, Judged source h (h.afterAll sts) x (Stmt.mentionsIn h.scopes sts)
    (Stmt.faultsIn h.scopes inLoop sts ++ h.clashes (declarations sts))

variable {source : Source} {span : Span} {line : Nat} {s t : State} {α β : Type}
  {h mid later : Setting} {mentions more : List Mention} {faults others : List Fault}

theorem Gathers.refl (s : State) : Gathers s s [] :=
  ⟨rfl,fun k => by simp⟩

theorem Verdict.bind {x : Compiler α} {k : α → Compiler β}
    (first : Verdict source mid s x mentions faults)
    (rest : ∀ a, Judged source mid later (k a) more others) :
    Verdict source later s (x >>= k) (mentions ++ more) (faults ++ others) := by
  constructor
  · intro b u run
    obtain ⟨a,t,head,tail⟩ := bind_ok run
    obtain ⟨placed,gathers,none⟩ := first.accepts a t head
    obtain ⟨last,further,nothing⟩ := (rest a t placed).accepts b u tail
    refine ⟨last,⟨further.length.trans gathers.length,fun k => ?_⟩,by rw [none,nothing]; rfl⟩
    rw [further.reached,gathers.reached,beyond_append,Finset.union_assoc]
  · intro d u run
    rcases bind_error run with head | ⟨a,t,head,tail⟩
    · cases first.refuses d u head with
      | oversize large => exact .oversize large
      | fault member located => exact .fault (List.mem_append_left _ member) located
      | overfull bound split outside many located =>
        exact .overfull bound (by rw [split,List.append_assoc]; rfl) outside many located
    · obtain ⟨placed,gathers,-⟩ := first.accepts a t head
      cases (rest a t placed).refuses d u tail with
      | oversize large => exact .oversize large
      | fault member located => exact .fault (List.mem_append_right _ member) located
      | overfull bound split outside many located =>
        rw [gathers.length] at bound
        rw [gathers.reached,Finset.union_assoc,← beyond_append] at many
        exact .overfull bound (by rw [split,List.append_assoc]) outside many located

theorem Judged.bind {x : Compiler α} {k : α → Compiler β}
    (first : Judged source h mid x mentions faults)
    (rest : ∀ a, Judged source mid later (k a) more others) :
    Judged source h later (x >>= k) (mentions ++ more) (faults ++ others) :=
  fun s placed => (first s placed).bind rest

theorem Verdict.same {x : Compiler α} (verdict : Verdict source later s x mentions faults)
    (uses : mentions = more) (same : ∀ fault, fault ∈ faults ↔ fault ∈ others) :
    Verdict source later s x more others := by
  subst uses
  constructor
  · intro a t run
    obtain ⟨placed,gathers,none⟩ := verdict.accepts a t run
    refine ⟨placed,gathers,List.eq_nil_iff_forall_not_mem.mpr fun fault member => ?_⟩
    rw [← same,none] at member
    exact List.not_mem_nil member
  · intro d t run
    cases verdict.refuses d t run with
    | oversize large => exact .oversize large
    | fault member located => exact .fault ((same _).mp member) located
    | overfull bound split outside many located =>
      exact .overfull bound split outside many located

/-- The order of faults does not matter. -/
theorem Judged.same {x : Compiler α} (judged : Judged source h later x mentions faults)
    (uses : mentions = more) (same : ∀ fault, fault ∈ faults ↔ fault ∈ others) :
    Judged source h later x more others :=
  fun s placed => (judged s placed).same uses same

theorem Judged.pure {a : α} : Judged source h h (Pure.pure a : Compiler α) [] [] := by
  intro s placed
  constructor
  · intro b t run
    cases run
    exact ⟨placed,.refl s,rfl⟩
  · intro d t run
    cases run

/-- A refusal that is due. -/
theorem Verdict.refuse {cause : Diagnostic.Cause} (member : ⟨cause,span⟩ ∈ faults) :
    Verdict source later s (Compile.refuse source cause span : Compiler α) mentions faults := by
  constructor
  · intro a t run
    cases run
  · intro d t run
    cases run
    exact .fault member rfl

/-- What follows a refusal does not matter. -/
theorem Verdict.refused {cause : Diagnostic.Cause} {k : α → Compiler β}
    (member : ⟨cause,span⟩ ∈ faults) :
    Verdict source later s (Compile.refuse source cause span >>= k) mentions faults := by
  constructor
  · intro a t run
    cases run
  · intro d t run
    cases run
    exact .fault member rfl

theorem Verdict.ite {c : Prop} [Decidable c] {yes no : Compiler α}
    (first : c → Verdict source later s yes mentions faults)
    (second : ¬c → Verdict source later s no mentions faults) :
    Verdict source later s (if c then yes else no) mentions faults := by
  split
  next known => exact first known
  next known => exact second known

theorem Verdict.get {k : State → Compiler β} (rest : Verdict source later s (k s) mentions faults) :
    Verdict source later s (MonadState.get >>= k) mentions faults :=
  ⟨fun a t run => rest.accepts a t run,fun d t run => rest.refuses d t run⟩

theorem Judged.get {k : State → Compiler β}
    (rest : ∀ s, Judged source h later (k s) mentions faults) :
    Judged source h later (MonadState.get >>= k) mentions faults :=
  fun s placed => .get (rest s s placed)

/-- There is a function in every setting. -/
theorem Judged.inside {x : Compiler α}
    (known : ∀ blocks outer, h.scopes = blocks :: outer → Judged source h later x mentions faults) :
    Judged source h later x mentions faults :=
  fun s placed => known _ _ placed.lexical.names.symm s placed

/-- A part that changes nothing but constants fails only for want of room. -/
theorem Judged.still {x : Compiler α} {good : Prospect α} (known : Scoped h.scopes h.scopes x good)
    (quiet : ∀ s a t, x s = .ok a t → t.chain = s.chain ∧ t.globals = s.globals)
    (large : ∀ s d t, x s = .error d t → d.Oversize) : Judged source h h x [] [] := by
  intro s placed
  constructor
  · intro a t run
    obtain ⟨chain,globals⟩ := quiet s a t run
    refine ⟨⟨(known s a t run placed.lexical).1,globals.trans placed.globals⟩,?_,rfl⟩
    exact ⟨by rw [chain],fun k => by simp [chain]⟩
  · intro d t run
    exact .oversize (large s d t run)

theorem constant_quiet {c : Constant Chunk} {n : Nat}
    (run : Compile.constant source c span s = .ok n t) :
    t.chain = s.chain ∧ t.globals = s.globals := by
  obtain ⟨own,around⟩ := captures_constant run
  refine ⟨by simp [State.chain,own,around],?_⟩
  obtain ⟨-,rfl⟩ | ⟨-,-,-,rfl⟩ := constant_ok run
  · rfl
  · rfl

theorem constant_large {c : Constant Chunk} {d : Diagnostic}
    (run : Compile.constant source c span s = .error d t) : d.Oversize := by
  rw [constant_run] at run
  split at run
  · cases run
  · split at run
    · cases run
    · cases run
      exact .inl rfl

theorem Judged.constant {c : Constant Chunk} (plain : ∀ chunk, c ≠ .function chunk) :
    Judged source h h (Compile.constant source c span) [] [] :=
  .still (.constant plain) (fun _ _ _ run => constant_quiet run) fun _ _ _ run => constant_large run

theorem Judged.name {text : Bytes} :
    Judged source h h (Compile.constant source (.string text) span) [] [] :=
  .constant (by simp)

theorem Judged.define {name : Bytes} :
    Judged source h h (Compile.define source line name span) [] [] := by
  refine .get fun s => ?_
  split
  · exact Judged.name.bind fun _ => .pure
  · exact .pure

theorem Judged.unwind {depth : Nat} : Judged source h h (Compile.unwind line depth) [] [] :=
  .get fun _ => .pure

theorem Judged.blockDepth : Judged source h h Compile.blockDepth [] [] :=
  .get fun _ => .pure

theorem Judged.checkDistance (distance : Nat) :
    Judged source h h (Compile.checkDistance source distance span) [] [] := by
  refine .still (Scoped.checkDistance _) (fun s a t run => ?_) fun s d t run => ?_
  · rw [Compile.checkDistance] at run
    split at run <;> cases run
    exact ⟨rfl,rfl⟩
  · rw [Compile.checkDistance] at run
    split at run <;> cases run
    exact .inr rfl

theorem Judged.guarded {jumpOn : Bool} {code : Fragment} :
    Judged source h h (Compile.guarded source line jumpOn code span) [] [] :=
  (Judged.checkDistance _).bind fun _ => .pure

theorem Judged.closeLoop {condition : Option Fragment} {body : Fragment} :
    Judged source h h (Compile.closeLoop source line condition body span) [] [] :=
  (Judged.checkDistance _).bind fun _ => .pure

/-- What a function under construction has in scope. -/
theorem Placed.names (placed : Placed h s) :
    h.scopes = s.function.names :: s.enclosing.map (·.names) :=
  placed.lexical.names.symm

theorem Placed.outside (placed : Placed h s) (blocks : s.function.blocks = []) :
    h.siblings = s.globals ∧ h.clash = .duplicateGlobal ∧
      ∀ name, (h.declare name).globals = name :: s.globals := by
  have names : h.scopes.headD [] = [] := by
    rw [placed.names,FunctionScope.names,blocks]
    rfl
  rw [Setting.siblings,Setting.clash,names,placed.globals]
  exact ⟨rfl,rfl,fun name => by rw [Setting.declare,names]⟩

theorem Placed.inside (placed : Placed h s) {block : Block} {outer : List Block}
    (blocks : s.function.blocks = block :: outer) :
    h.siblings = block.map (·.name) ∧ h.clash = .duplicateVariable ∧
      ∀ name, (h.declare name).globals = s.globals := by
  have names : h.scopes.headD [] = block.map (·.name) :: outer.map (List.map (·.name)) := by
    rw [placed.names,FunctionScope.names,blocks]
    rfl
  rw [Setting.siblings,Setting.clash,names,placed.globals]
  exact ⟨rfl,rfl,fun name => by rw [Setting.declare,names]⟩

theorem Placed.localCount (placed : Placed h s) :
    (h.scopes.headD []).flatten.length = s.function.localCount := by
  rw [placed.names,List.headD_cons,FunctionScope.length_names]

theorem Setting.clashes_one {name : Bytes} :
    h.clashes [(name,span)] = Fault.check (name ∉ h.siblings) (h.clash name) span := by
  rw [clashes,repeated,repeated,List.append_nil]

/-- A declaration that is accepted is the first of its name, and there is room for it. -/
theorem Placed.declare_ok {name : Bytes} (placed : Placed h s)
    (run : Compile.declare source name span s = .ok () t) :
    t.globals = (h.declare name).globals ∧ t.chain = s.chain ∧ name ∉ h.siblings ∧
      s.function.localCount < localLimit := by
  obtain ⟨blocks,new,rfl⟩ | ⟨block,outer,blocks,new,room,rfl⟩ := Compile.declare_ok run
  · obtain ⟨siblings,-,globals⟩ := placed.outside blocks
    refine ⟨(globals name).symm,rfl,siblings ▸ new,?_⟩
    simp [FunctionScope.localCount,blocks,localLimit]
  · obtain ⟨siblings,-,globals⟩ := placed.inside blocks
    exact ⟨(globals name).symm,rfl,siblings ▸ new,room⟩

theorem Placed.declare_error {name : Bytes} {d : Diagnostic} (placed : Placed h s)
    (run : Compile.declare source name span s = .error d t) :
    Blamed source s [] (h.clashes [(name,span)] ++ h.scopes.room span) d := by
  rw [Setting.clashes_one,Scopes.room,placed.localCount]
  rw [Compile.declare] at run
  obtain got | ⟨_,_,got,run⟩ := bind_error run
  · cases got
  cases got
  cases blocks : s.function.blocks with
  | nil =>
    obtain ⟨siblings,clash,-⟩ := placed.outside blocks
    rw [blocks] at run
    dsimp only at run
    split at run
    next known =>
      cases run
      refine .fault (List.mem_append_left _ (Fault.broken ?_)) (by rw [clash]; rfl)
      rw [siblings,not_not]
      simpa using known
    · cases run
  | cons block outer =>
    obtain ⟨siblings,clash,-⟩ := placed.inside blocks
    rw [blocks] at run
    dsimp only at run
    split at run
    next known =>
      cases run
      refine .fault (List.mem_append_left _ (Fault.broken ?_)) (by rw [clash]; rfl)
      rw [siblings,not_not]
      simpa using known
    · split at run
      · cases run
      next full =>
        cases run
        exact .fault (List.mem_append_right _ (Fault.broken full)) rfl

theorem Judged.declare {name : Bytes} :
    Judged source h (h.declare name) (Compile.declare source name span) []
      (h.clashes [(name,span)] ++ h.scopes.room span) := by
  refine fun s placed => ⟨fun _ t run => ?_,fun d t run => placed.declare_error run⟩
  have lexical := (Scoped.declare s () t run placed.lexical).1
  obtain ⟨globals,chain,new,room⟩ := placed.declare_ok run
  refine ⟨⟨lexical,globals⟩,⟨by rw [chain],fun k => by simp [chain]⟩,?_⟩
  rw [Setting.clashes_one,Scopes.room,placed.localCount,List.append_eq_nil_iff,Fault.check_eq_nil,
    Fault.check_eq_nil]
  exact ⟨new,room⟩

section

variable {onLocal onCapture onGlobal : Nat → Instr} {name : Bytes}

/-- A use of a name adds the variable that it refers to. -/
theorem Placed.variableInstr_ok {i : Instr} (placed : Placed h s)
    (run : Compile.variableInstr source onLocal onCapture onGlobal name span s = .ok i t) :
    t.globals = s.globals ∧ Gathers s t (h.scopes.mentions name span) := by
  have regular := placed.lexical.regular
  have inner := Nested.regular regular
  have distinct : ∀ f ∈ s.function :: s.enclosing, f.captures.Nodup :=
    fun f member => placed.lexical.distinct _ (List.mem_map_of_mem member)
  have one (v : Variable) (k : Nat) : beyond k [⟨v,span⟩] = (v.beyond? k).toFinset := by
    rw [beyond]
    cases known : v.beyond? k <;> simp [known]
  rw [Scopes.mentions,placed.names]
  obtain ⟨slot,known,rfl,rfl⟩ | ⟨known,⟨index,function,enclosing,resolved,rfl,rfl⟩ |
    ⟨resolved,n,stored,rfl⟩⟩ := Compile.variableInstr_ok run
  · rw [inner.find_inside known]
    exact ⟨rfl,rfl,fun k => by simp [one]⟩
  · obtain ⟨-,v,meaning,-⟩ := resolveCapture_leads resolved regular distinct
    rw [inner.find_outside known,meaning]
    refine ⟨rfl,?_,fun k => ?_⟩
    · have raises := (resolveCapture_spec resolved regular).2.1
      simp [State.chain,raises.length_eq]
    · exact (resolveCapture_reached resolved regular distinct meaning k).trans
        (by rw [← one]; rfl)
  · obtain ⟨chain,globals⟩ := constant_quiet stored
    rw [inner.find_outside known,resolveCapture_absent resolved regular]
    exact ⟨globals,by rw [chain],fun k => by simp [chain]⟩

theorem Placed.variableInstr_error {d : Diagnostic} (placed : Placed h s)
    (run : Compile.variableInstr source onLocal onCapture onGlobal name span s = .error d t) :
    Blamed source s (h.scopes.mentions name span) [] d := by
  have regular := placed.lexical.regular
  have inner := Nested.regular regular
  have distinct : ∀ f ∈ s.function :: s.enclosing, f.captures.Nodup :=
    fun f member => placed.lexical.distinct _ (List.mem_map_of_mem member)
  rw [Scopes.mentions,placed.names]
  rw [Compile.variableInstr] at run
  obtain got | ⟨_,_,got,run⟩ := bind_error run
  · cases got
  cases got
  cases known : s.function.slot? name with
  | some slot =>
    rw [known] at run
    cases run
  | none =>
    rw [known] at run
    cases resolved : resolveCapture name s.function s.enclosing with
    | captured index function enclosing =>
      rw [resolved] at run
      cases run
    | full =>
      rw [resolved] at run
      cases run
      obtain ⟨v,k,w,meaning,bound,outside,many⟩ := resolveCapture_full resolved regular distinct
      rw [inner.find_outside known,meaning]
      have alone : (some v.deeper).toList.map (⟨·,span⟩) =
          [] ++ (⟨v.deeper,span⟩ : Mention) :: [] := rfl
      refine .overfull (k := k) ?_ alone outside ?_ rfl
      · simpa [State.chain] using bound
      · simpa [State.chain] using many
    | absent =>
      rw [resolved] at run
      obtain failed | ⟨_,_,-,run⟩ := bind_error run
      · exact .oversize (constant_large failed)
      · cases run

theorem Judged.variableInstr :
    Judged source h h (Compile.variableInstr source onLocal onCapture onGlobal name span)
      (h.scopes.mentions name span) [] := by
  refine fun s placed => ⟨fun i t run => ?_,fun d t run => placed.variableInstr_error run⟩
  have lexical := (Scoped.variableInstr s i t run placed.lexical).1
  obtain ⟨globals,gathers⟩ := placed.variableInstr_ok run
  exact ⟨⟨lexical,globals.trans placed.globals⟩,gathers,rfl⟩

end

theorem Judged.openBlock : Judged source h h.openBlock Compile.openBlock [] [] := by
  intro s placed
  constructor
  · intro a t run
    have lexical := (Scoped.openBlock s a t run placed.lexical).1
    cases run
    exact ⟨⟨lexical,placed.globals⟩,⟨rfl,fun k => by simp [State.chain]⟩,rfl⟩
  · intro d t run
    cases run

theorem Judged.closeBlock {block : List Bytes} {blocks : List (List Bytes)} {outer : Scopes}
    {globals : List Bytes} : Judged source ⟨(block :: blocks) :: outer,globals⟩
      ⟨blocks :: outer,globals⟩ (Compile.closeBlock line) [] [] := by
  intro s placed
  constructor
  · intro a t run
    have lexical := (Scoped.closeBlock s a t run placed.lexical).1
    obtain ⟨-,rfl⟩ := closeBlock_ok run
    exact ⟨⟨lexical,placed.globals⟩,⟨rfl,fun k => by simp [State.chain]⟩,rfl⟩
  · intro d t run
    cases run

/-- A block as a whole. -/
theorem Judged.blockCode {body : List Stmt} {loop : Option Nat} {inLoop : Bool}
    (inner : AllJudged source inLoop body (stmts source loop body)) :
    Judged source h h (Compile.blockCode source loop line body)
      (Stmt.mentionsIn h.scopes.openBlock body)
      (blockFaults body (Stmt.faultsIn h.scopes.openBlock inLoop body)) := by
  refine .inside fun blocks outer scopes => ?_
  obtain ⟨block,ended⟩ := Setting.afterAll_inside body [] blocks outer h.globals
  have opened : h.openBlock.clashes (declarations body) =
      repeated .duplicateVariable [] (declarations body) := by
    rw [Setting.clashes,Setting.openBlock,scopes]
    rfl
  have restored : Judged source (h.openBlock.afterAll body) h (Compile.closeBlock line) [] [] := by
    obtain ⟨_,globals⟩ := h
    obtain rfl := scopes
    rw [Setting.openBlock]
    exact ended ▸ .closeBlock
  have whole := Judged.openBlock.bind fun _ : Unit => (inner h.openBlock).bind fun code =>
    restored.bind fun last : Fragment => .pure (a := code ++ last)
  refine whole.same (by simp [Setting.openBlock]) fun fault => ?_
  rw [opened,blockFaults]
  simp only [List.nil_append,List.append_nil,List.mem_append,Setting.openBlock]
  tauto

theorem Judged.fieldConstants (seen names : List Bytes) :
    Judged source h h (Compile.fieldConstants source span seen names) []
      (repeated .duplicateField seen (names.map (·,span))) := by
  induction names generalizing seen with
  | nil => exact .pure
  | cons name rest ih =>
    intro s placed
    rw [Compile.fieldConstants,List.map_cons,repeated]
    split
    next known =>
      refine .refuse (List.mem_append_left _ (Fault.broken ?_))
      simpa using known
    next new =>
      have stored : Judged source h h (Compile.constant source (.string name) span) [] [] := .name
      refine ((stored s placed).bind fun _ => (ih _).bind fun _ => .pure).same rfl fun fault => ?_
      simp only [Bool.not_eq_true] at new
      have absent : name ∉ seen := by simpa using new
      simp [absent]

/-- The names go into the innermost block as long as there is room. -/
theorem Judged.declareAll (names : List Bytes) {block : List Bytes} {blocks : List (List Bytes)}
    {outer : Scopes} {globals : List Bytes} :
    Judged source ⟨(block :: blocks) :: outer,globals⟩
      ⟨((names.reverse ++ block) :: blocks) :: outer,globals⟩
      (Compile.declareAll source span names) []
      (repeated .duplicateVariable block (names.map (·,span)) ++
        Fault.check ((block :: blocks).flatten.length + names.length ≤ localLimit)
          .tooManyLocals span) := by
  induction names generalizing block with
  | nil =>
    intro s placed
    have room : s.function.localCount ≤ localLimit :=
      (Nested.regular placed.lexical.regular).locals
    rw [← placed.localCount] at room
    refine (Judged.pure s placed).same rfl fun fault => ?_
    rw [List.map_nil,repeated,List.nil_append,Fault.mem_check]
    constructor
    · intro member
      exact absurd member List.not_mem_nil
    · rintro ⟨many,-⟩
      exact absurd room many
  | cons name rest ih =>
    have first : Judged source ⟨(block :: blocks) :: outer,globals⟩
        ⟨((name :: block) :: blocks) :: outer,globals⟩ (Compile.declare source name span) [] _ :=
      .declare
    rw [List.reverse_cons,List.append_assoc]
    refine (first.bind fun _ => ih).same rfl fun fault => ?_
    have length : ((name :: block) :: blocks).flatten.length =
        (block :: blocks).flatten.length + 1 := rfl
    have limits : ¬(block :: blocks).flatten.length < localLimit ∨
        ¬(block :: blocks).flatten.length + 1 + rest.length ≤ localLimit ↔
        ¬(block :: blocks).flatten.length + (rest.length + 1) ≤ localLimit := by omega
    rw [length,Setting.clashes_one,Scopes.room,List.map_cons,repeated,List.length_cons]
    simp only [List.mem_append,Fault.mem_check,← limits]
    simp only [List.headD_cons,Setting.siblings,Setting.clash]
    tauto

/-- What is used in a function, as the functions around it see it. -/
theorem beyond_outward (k : Nat) (mentions : List Mention) :
    beyond k (outward mentions) = beyond (k + 1) mentions := by
  rw [beyond,beyond,outward,List.filterMap_filterMap]
  congr 2
  funext m
  rw [Variable.beyond?]
  cases m.used.outward? <;> rfl

theorem usedBy_outward (mentions : List Mention) : usedBy (outward mentions) = beyond 0 mentions := by
  rw [usedBy,outward,beyond,List.map_filterMap]
  congr 2
  funext m
  rw [Variable.beyond?]
  cases m.used.outward? <;> rfl

theorem outward_append (front back : List Mention) :
    outward (front ++ back) = outward front ++ outward back :=
  List.filterMap_append

/-- A use of a variable around, among all those in a function. -/
theorem outward_split {front back : List Mention} {m : Mention} {v : Variable}
    (outside : m.used.outward? = some v) :
    outward (front ++ m :: back) = outward front ++ ⟨v,m.span⟩ :: outward back := by
  rw [outward_append]
  congr 1
  simp [outward,outside]

/-- What is wrong inside a function, as it is seen around the function. -/
theorem Blamed.leave {body : List Stmt} {parameters : List Bytes} {d : Diagnostic}
    (blamed : Blamed source t mentions faults d) (chain : t.chain = [] :: s.chain)
    (known : ∀ fault ∈ faults, fault ∈ functionFaults span parameters body mentions ++ others) :
    Blamed source s (outward mentions) (functionFaults span parameters body mentions ++ others) d := by
  cases blamed with
  | oversize large => exact .oversize large
  | fault member located => exact .fault (known _ member) located
  | @overfull k front back m w bound split outside many located =>
    subst split
    cases k with
    | zero =>
      rw [chain,List.drop_zero] at many
      refine .fault (List.mem_append_left _ (List.mem_append_right _ ?_)) located
      rw [outward_split outside]
      refine mem_crowded ?_
      rw [usedBy_outward]
      exact many
    | succ k =>
      rw [chain,List.drop_succ_cons,← beyond_outward] at many
      rw [chain,List.length_cons] at bound
      obtain ⟨v,here,further⟩ := Option.bind_eq_some_iff.mp outside
      exact .overfull (m := ⟨v,m.span⟩) (Nat.lt_of_succ_lt_succ bound) (outward_split here) further
        many located

theorem Scopes.enter_eq (parameters : List Bytes) (scopes : Scopes) :
    scopes.enter parameters = [parameters.reverse] :: scopes := by
  suffices declared : ∀ block, Scopes.declareAll parameters ([block] :: scopes) =
      [parameters.reverse ++ block] :: scopes by
    rw [Scopes.enter,declared,List.append_nil]
  induction parameters with
  | nil => exact fun block => rfl
  | cons first rest ih =>
    intro block
    rw [List.reverse_cons,List.append_assoc]
    exact ih (first :: block)

/-- Compiling the parameters and the body of a function. -/
theorem Judged.body {parameters : List Bytes} {body : List Stmt}
    (inner : AllJudged source false body (stmts source none body)) :
    Judged source ⟨[[]] :: h.scopes,h.globals⟩
      (Setting.afterAll ⟨h.scopes.enter parameters,h.globals⟩ body)
      (Compile.declareAll source span parameters >>= fun _ => stmts source none body)
      (Stmt.mentionsIn (h.scopes.enter parameters) body)
      (repeated .duplicateVariable [] (parameters.map (·,span) ++ declarations body) ++
        Fault.check (parameters.length ≤ localLimit) .tooManyLocals span ++
        Stmt.faultsIn (h.scopes.enter parameters) false body) := by
  have declared : Judged source ⟨[[]] :: h.scopes,h.globals⟩ _
      (Compile.declareAll source span parameters) [] _ := .declareAll parameters
  have inside := declared.bind fun _ => inner _
  rw [List.append_nil,← Scopes.enter_eq] at inside
  refine inside.same rfl fun fault => ?_
  have clashes : Setting.clashes ⟨h.scopes.enter parameters,h.globals⟩ (declarations body) =
      repeated .duplicateVariable parameters.reverse (declarations body) := by
    rw [Setting.clashes,Scopes.enter_eq]
    rfl
  rw [clashes,repeated_append,List.map_map,List.append_nil]
  simp only [List.mem_append,Function.comp_def,List.map_id',List.flatten_cons,List.flatten_nil,
    List.append_nil,List.length_nil,Nat.zero_add]
  tauto

/-- The globals declared are those of the body. -/
theorem globals_endFunction {name : Bytes} {count : Nat} {body f : Fragment}
    (run : endFunction source line name count span body s = .ok f t) : t.globals = s.globals := by
  rw [endFunction] at run
  obtain ⟨_,_,got,run⟩ := bind_ok run
  cases got
  obtain ⟨_,_,got,run⟩ := bind_ok run
  cases got
  obtain ⟨_,_,stored,run⟩ := bind_ok run
  cases run
  exact (constant_quiet stored).2

/-- A function is refused at its end only if it has too many constants. -/
theorem endFunction_large {name : Bytes} {count : Nat} {body : Fragment} {d : Diagnostic}
    (run : endFunction source line name count span body s = .error d t) : d.Oversize := by
  rw [endFunction] at run
  obtain got | ⟨_,_,got,run⟩ := bind_error run
  · cases got
  cases got
  obtain got | ⟨_,_,got,run⟩ := bind_error run
  · cases got
  obtain failed | ⟨_,_,-,run⟩ := bind_error run
  · exact constant_large failed
  · cases run

theorem closureCode_eq {name : Bytes} {parameters : List Bytes} {body : List Stmt} :
    closureCode source line name parameters span body = (do
      modify fun s => { s with function := ⟨[[]],[],[]⟩, enclosing := s.function :: s.enclosing }
      (Compile.declareAll source span parameters >>= fun _ => stmts source none body) >>=
        endFunction source line name parameters.length span) := by
  simp [closureCode,beginFunction,bind_assoc]

/-- A function as a whole. -/
theorem Judged.closureCode {name : Bytes} {parameters : List Bytes} {body : List Stmt}
    (inner : AllJudged source false body (stmts source none body)) :
    Judged source h h (Compile.closureCode source line name parameters span body)
      (outward (Stmt.mentionsIn (h.scopes.enter parameters) body))
      (functionFaults span parameters body (Stmt.mentionsIn (h.scopes.enter parameters) body) ++
        Stmt.faultsIn (h.scopes.enter parameters) false body) := by
  intro s placed
  let start : State :=
    { s with function := ⟨[[]],[],[]⟩, enclosing := s.function :: s.enclosing }
  have begun : Placed ⟨[[]] :: h.scopes,h.globals⟩ start := ⟨placed.lexical.enter,placed.globals⟩
  have verdict : Verdict source _ start
      (Compile.declareAll source span parameters >>= fun _ => stmts source none body) _ _ :=
    Judged.body inner start begun
  constructor
  · intro f t run
    have lexical := (Scoped.closureCode (fun scopes => (compiled_uses source).2.1 none body scopes)
      s f t run placed.lexical).1
    rw [closureCode_eq] at run
    change (_ >>= endFunction source line name parameters.length span) start = .ok f t at run
    obtain ⟨code,last,compiled,ended⟩ := bind_ok run
    obtain ⟨left,gathers,none⟩ := verdict.accepts code last compiled
    obtain ⟨behind,-,-,captured,-⟩ := endFunction_finishes ended rfl
    have chain : t.chain = last.chain.drop 1 := by
      have length := gathers.length
      rw [State.chain,behind,List.map_cons,captured,State.chain]
      cases known : last.enclosing with
      | nil => simp [State.chain,known,start] at length
      | cons outer others => rfl
    refine ⟨⟨lexical,?_⟩,⟨?_,fun k => ?_⟩,?_⟩
    · rw [globals_endFunction ended,left.globals,Scopes.enter_eq]
      obtain ⟨more,same⟩ := Setting.afterAll_inside body parameters.reverse [] h.scopes h.globals
      rw [same]
    · rw [chain,List.length_drop,gathers.length]
      rfl
    · rw [chain,List.drop_drop,Nat.add_comm,gathers.reached,beyond_outward]
      rfl
    · rw [List.append_eq_nil_iff,List.append_eq_nil_iff,repeated_eq_nil,Fault.check_eq_nil] at none
      obtain ⟨⟨⟨distinct,-⟩,room⟩,nothing⟩ := none
      rw [nothing,List.append_nil,functionFaults_eq_nil]
      refine ⟨by simpa [Function.comp_def] using distinct,room,?_⟩
      have reaches := gathers.reached 0
      have few := (Nested.regular left.lexical.regular).captures
      rw [List.drop_zero,List.drop_zero] at reaches
      rw [usedBy_outward,← Finset.empty_union (beyond 0 _)]
      refine Nat.le_trans (Nat.le_of_eq ?_) few
      refine (congrArg Finset.card reaches).symm.trans ?_
      exact (Nested.chained left.lexical.regular
        fun f member => left.lexical.distinct _ (List.mem_map_of_mem member)).card_reached
  · intro d t run
    rw [closureCode_eq] at run
    change (_ >>= endFunction source line name parameters.length span) start = .error d t at run
    obtain failed | ⟨code,last,-,ended⟩ := bind_error run
    · refine (verdict.refuses d t failed).leave rfl fun fault member => ?_
      rw [functionFaults]
      simp only [List.mem_append] at member ⊢
      tauto
    · exact .oversize (endFunction_large ended)

end Compile

end ScriptMachine
