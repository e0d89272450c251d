import Mathlib
import ScriptMachine.Proofs.Judging

/-! Two runs of the compiler, of which the first has fewer constants. Where the second comes to an end, so
does the first, with code that is no longer. Only the limits of 32 bits tell such runs apart: names are
resolved alike. -/
namespace ScriptMachine.Compile

/-- What tells constants apart; no two functions are the same constant. -/
def keyOf : Constant Chunk → Option (UInt64 ⊕ Bytes)
  | .number value => some (.inl value.toBits)
  | .string text => some (.inr text)
  | .function _ => none

theorem sameConstant_iff {c d : Constant Chunk} :
    sameConstant c d = true ↔ keyOf c ≠ none ∧ keyOf c = keyOf d := by
  cases c <;> cases d <;> simp [sameConstant,keyOf]

/-- A constant is found if another with its key is there. -/
theorem findIdx?_isSome (c : Constant Chunk) (pool : List (Constant Chunk)) :
    (pool.findIdx? (sameConstant c)).isSome ↔ keyOf c ≠ none ∧ keyOf c ∈ pool.map keyOf := by
  rw [List.findIdx?_isSome,List.any_eq_true,List.mem_map]
  simp only [sameConstant_iff]
  constructor
  · rintro ⟨d,member,key,same⟩
    exact ⟨key,d,member,same.symm⟩
  · rintro ⟨key,d,member,same⟩
    exact ⟨d,member,key,same.symm⟩

/-- The same locals and captures, and at most as many constants, of which there are not too many. -/
structure FunctionScope.Within (f g : FunctionScope) : Prop where
  blocks : f.blocks = g.blocks
  captures : f.captures = g.captures
  pool : (f.constants.map keyOf).Subperm (g.constants.map keyOf)
  room : g.constants.length < wordLimit

/-- The functions under construction are the same but for their constants. -/
structure State.Within (s t : State) : Prop where
  function : s.function.Within t.function
  enclosing : List.Forall₂ FunctionScope.Within s.enclosing t.enclosing
  globals : s.globals = t.globals

variable {f g : FunctionScope} {s t : State} {α β γ δ : Type}

namespace FunctionScope.Within

theorem length_le (within : f.Within g) : f.constants.length ≤ g.constants.length := by
  simpa using within.pool.length_le

theorem slot? (within : f.Within g) (name : Bytes) : f.slot? name = g.slot? name := by
  rw [FunctionScope.slot?,within.blocks,FunctionScope.slot?]

theorem trans {h : FunctionScope} (first : f.Within g) (second : g.Within h) : f.Within h :=
  ⟨first.blocks.trans second.blocks,first.captures.trans second.captures,first.pool.trans second.pool,
    second.room⟩

theorem localCount (within : f.Within g) : f.localCount = g.localCount := by
  rw [FunctionScope.localCount,within.blocks,FunctionScope.localCount]

theorem withBlocks (within : f.Within g) (blocks : List Block) :
    Within { f with blocks } { g with blocks } :=
  ⟨rfl,within.captures,within.pool,within.room⟩

/-- A function of which nothing has been compiled yet. -/
theorem fresh (blocks : List Block) : Within ⟨blocks,[],[]⟩ ⟨blocks,[],[]⟩ :=
  ⟨rfl,rfl,.refl _,Nat.zero_lt_succ _⟩

theorem markCaptured (within : f.Within g) (slot : Nat) :
    (f.markCaptured slot).Within (g.markCaptured slot) := by
  rw [FunctionScope.markCaptured,FunctionScope.markCaptured,within.blocks]
  exact within.withBlocks _

/-- A capture is added to both, or to neither. -/
theorem capture? (within : f.Within g) (c : Capture) : (f.capture? c = none ∧ g.capture? c = none) ∨
    ∃ index f' g', f.capture? c = some (index,f') ∧ g.capture? c = some (index,g') ∧ f'.Within g' := by
  rw [FunctionScope.capture?,FunctionScope.capture?,within.captures]
  split
  · exact .inr ⟨_,f,g,rfl,rfl,within⟩
  · split
    · exact .inr ⟨_,_,_,rfl,rfl,within.blocks,rfl,within.pool,within.room⟩
    · exact .inl ⟨rfl,rfl⟩

end FunctionScope.Within

theorem State.Within.trans {u : State} (first : s.Within t) (second : t.Within u) : s.Within u := by
  have around {a b c : List FunctionScope} (first : List.Forall₂ FunctionScope.Within a b)
      (second : List.Forall₂ FunctionScope.Within b c) : List.Forall₂ FunctionScope.Within a c := by
    induction first generalizing c with
    | nil => exact second
    | cons head tail ih =>
      cases second with
      | cons next rest => exact .cons (head.trans next) (ih rest)
  exact ⟨first.function.trans second.function,around first.enclosing second.enclosing,
    first.globals.trans second.globals⟩

/-- A name is found in the same place. -/
inductive Resolution.Within : Resolution → Resolution → Prop
  | captured {index : Nat} {f g : FunctionScope} {outer around : List FunctionScope}
      (function : f.Within g) (enclosing : List.Forall₂ FunctionScope.Within outer around) :
      Within (.captured index f outer) (.captured index g around)
  | absent : Within .absent .absent
  | full : Within .full .full

/-- By induction on the functions around. -/
theorem resolveCapture_within (name : Bytes) {outer around : List FunctionScope} (within : f.Within g)
    (enclosing : List.Forall₂ FunctionScope.Within outer around) :
    (resolveCapture name f outer).Within (resolveCapture name g around) := by
  induction enclosing generalizing f g with
  | nil => exact .absent
  | @cons first other rest others head tail ih =>
    rw [resolveCapture,resolveCapture,head.slot? name]
    cases other.slot? name with
    | some slot =>
      rcases within.capture? ⟨slot,true⟩ with ⟨none,noneToo⟩ | ⟨index,f',g',found,foundToo,inside⟩
      · simp only [none,noneToo]
        exact .full
      · simp only [found,foundToo]
        exact .captured inside (.cons (head.markCaptured slot) tail)
    | none =>
      have deeper := ih head
      generalize resolveCapture name first rest = one at deeper ⊢
      generalize resolveCapture name other others = two at deeper ⊢
      cases deeper with
      | absent => exact .absent
      | full => exact .full
      | @captured index _ _ _ _ function enclosing =>
        rcases within.capture? ⟨index,false⟩ with ⟨none,noneToo⟩ | ⟨_,f',g',found,foundToo,inside⟩
        · simp only [none,noneToo]
          exact .full
        · simp only [found,foundToo]
          exact .captured inside (.cons function enclosing)

/-! One part of the compiler lags behind another if it comes to an end wherever the other does. -/

/-- In these states. -/
def LagsAt (s t : State) (x : Compiler α) (y : Compiler β) (good : α → β → Prop) : Prop :=
  ∀ b t', y t = .ok b t' → ∃ a s', x s = .ok a s' ∧ good a b ∧ s'.Within t'

def Lags (x : Compiler α) (y : Compiler β) (good : α → β → Prop) : Prop :=
  ∀ s t, s.Within t → LagsAt s t x y good

variable {x : Compiler α} {y : Compiler β} {good : α → β → Prop} {k : α → Compiler γ}
  {l : β → Compiler δ} {fine : γ → δ → Prop}

theorem LagsAt.bind (first : LagsAt s t x y good)
    (rest : ∀ a b s' t', good a b → s'.Within t' → y t = .ok b t' → LagsAt s' t' (k a) (l b) fine) :
    LagsAt s t (x >>= k) (y >>= l) fine := by
  intro d u run
  obtain ⟨b,mid,head,tail⟩ := bind_ok run
  obtain ⟨a,s',ended,holds,within⟩ := first b mid head
  obtain ⟨c,s'',endedToo,holdsToo,withinToo⟩ := rest a b s' mid holds within head d u tail
  refine ⟨c,s'',?_,holdsToo,withinToo⟩
  change EStateM.bind x k s = _
  rw [EStateM.bind,ended]
  exact endedToo

theorem Lags.bind (first : Lags x y good) (rest : ∀ a b, good a b → Lags (k a) (l b) fine) :
    Lags (x >>= k) (y >>= l) fine :=
  fun s t within => (first s t within).bind fun a b s' t' holds within _ =>
    rest a b holds s' t' within

theorem LagsAt.pure {a : α} {b : β} (within : s.Within t) (holds : good a b) :
    LagsAt s t (Pure.pure a) (Pure.pure b) good := by
  intro _ _ run
  cases run
  exact ⟨a,s,rfl,holds,within⟩

theorem Lags.pure {a : α} {b : β} (holds : good a b) :
    Lags (Pure.pure a : Compiler α) (Pure.pure b : Compiler β) good :=
  fun _ _ within => .pure within holds

/-- Where the second part never ends. -/
theorem LagsAt.never (never : ∀ b t', y t ≠ .ok b t') : LagsAt s t x y good :=
  fun b t' run => absurd run (never b t')

theorem refuse_ne {source : Source} {cause : Diagnostic.Cause} {span : Span} {a : α} {t t' : State} :
    Compile.refuse source cause span t ≠ .ok a t' := by
  intro ended
  cases ended

theorem Lags.refused {source : Source} {cause : Diagnostic.Cause} {span : Span} {l : β → Compiler δ}
    {z : Compiler γ} : Lags z (Compile.refuse source cause span >>= l) fine := by
  refine fun _ _ _ => .never fun _ _ ran => ?_
  obtain ⟨_,_,refused,-⟩ := bind_ok ran
  exact refuse_ne refused

theorem Lags.get {k : State → Compiler γ} {l : State → Compiler δ}
    (rest : ∀ s t, s.Within t → Lags (k s) (l t) fine) :
    Lags (MonadState.get >>= k) (MonadState.get >>= l) fine :=
  fun s t within => rest s t within s t within

theorem Lags.ite {c d : Prop} [Decidable c] [Decidable d] (same : c ↔ d) {yes no : Compiler α}
    {yes' no' : Compiler β} (first : Lags yes yes' good) (second : Lags no no' good) :
    Lags (if c then yes else no) (if d then yes' else no') good := by
  by_cases holds : c
  · rw [if_pos holds,if_pos (same.mp holds)]
    exact first
  · rw [if_neg holds,if_neg (same.not.mp holds)]
    exact second

section

variable {source other : Source} {span span' : Span} {line line' : Nat}

theorem lags_modify {change : FunctionScope → FunctionScope}
    (keeps : ∀ f g : FunctionScope, f.Within g → (change f).Within (change g)) :
    Lags (modifyFunction change) (modifyFunction change) fun _ _ => True := by
  intro s t within _ _ run
  cases run
  exact ⟨(),_,rfl,trivial,keeps _ _ within.function,within.enclosing,within.globals⟩

theorem State.Within.withConstant (within : s.Within t) {c d : Constant Chunk} (same : keyOf c = keyOf d)
    (room : t.function.constants.length + 1 < wordLimit) :
    (s.withConstant c).Within (t.withConstant d) := by
  refine ⟨⟨within.function.blocks,within.function.captures,?_,?_⟩,within.enclosing,within.globals⟩
  · simp only [State.withConstant,List.map_append,List.map_cons,List.map_nil,same]
    exact (List.subperm_append_right _).mpr within.function.pool
  · simpa [State.withConstant] using room

/-- A constant that one run has need not be added to the other. -/
theorem lags_constant {c d : Constant Chunk} (same : keyOf c = keyOf d) :
    Lags (constant source c span) (constant other d span') fun _ _ => True := by
  intro s t within n t' run
  have pools := within.function
  rw [constant_run] at run ⊢
  have here := findIdx?_isSome c s.function.constants
  have there := findIdx?_isSome d t.function.constants
  cases known : t.function.constants.findIdx? (sameConstant d) with
  | some index =>
    rw [known] at run there
    cases run
    cases found : s.function.constants.findIdx? (sameConstant c) with
    | some index => exact ⟨_,_,rfl,trivial,within⟩
    | none =>
      rw [found] at here
      obtain ⟨key,member⟩ := there.mp rfl
      have new : keyOf c ∉ s.function.constants.map keyOf := fun old =>
        absurd (here.mpr ⟨same ▸ key,old⟩) (by simp)
      have more := List.cons_subperm_of_not_mem_of_mem new (same ▸ member) pools.pool
      have room : s.function.constants.length + 1 < wordLimit := by
        have := more.length_le
        rw [List.length_cons,List.length_map,List.length_map] at this
        exact this.trans_lt pools.room
      refine ⟨_,_,if_pos room,trivial,⟨pools.blocks,pools.captures,?_,pools.room⟩,within.enclosing,
        within.globals⟩
      rw [State.withConstant,List.map_append]
      exact (List.perm_append_singleton _ _).subperm_right.mpr more
  | none =>
    rw [known] at run
    dsimp only at run
    split at run
    next room =>
      cases run
      have grown := within.withConstant same room
      cases found : s.function.constants.findIdx? (sameConstant c) with
      | some index =>
        refine ⟨_,_,rfl,trivial,⟨pools.blocks,pools.captures,?_,grown.function.room⟩,within.enclosing,
          within.globals⟩
        rw [State.withConstant,List.map_append]
        exact pools.pool.trans (List.sublist_append_left _ _).subperm
      | none =>
        exact ⟨_,_,if_pos ((Nat.succ_le_succ pools.length_le).trans_lt room),trivial,grown⟩
    next => cases run

theorem lags_function (chunk chunk' : Chunk) :
    Lags (constant source (.function chunk) span) (constant other (.function chunk') span')
      fun _ _ => True :=
  lags_constant (c := .function chunk) (d := .function chunk') (by rfl)

theorem lags_set {s t : State} (within : s.Within t) : Lags (MonadStateOf.set s : Compiler Unit)
    (MonadStateOf.set t : Compiler Unit) fun _ _ => True := by
  intro _ _ _ _ _ run
  cases run
  exact ⟨(),s,rfl,trivial,within⟩

theorem lags_declare (name : Bytes) :
    Lags (declare source name span) (declare other name span') fun _ _ => True := by
  refine .get fun s t within => ?_
  dsimp only
  rw [within.function.blocks,within.function.localCount]
  split
  · refine .ite (by rw [within.globals]) .refused (lags_set ⟨within.function,within.enclosing,?_⟩)
    exact congrArg (name :: ·) within.globals
  · have added (blocks : List Block) : Lags
        (MonadStateOf.set { s with function := { s.function with blocks } } : Compiler Unit)
        (MonadStateOf.set { t with function := { t.function with blocks } } : Compiler Unit)
        fun _ _ => True :=
      lags_set ⟨within.function.withBlocks blocks,within.enclosing,within.globals⟩
    exact .ite Iff.rfl .refused (.ite Iff.rfl (added _) .refused)

/-- The first fragment is no longer than the second. -/
def Shorter (f g : Fragment) : Prop :=
  f.size ≤ g.size

theorem Shorter.append {f g f' g' : Fragment} (first : Shorter f g) (second : Shorter f' g') :
    Shorter (f ++ f') (g ++ g') := by
  rw [Shorter,Fragment.size_append,Fragment.size_append]
  exact Nat.add_le_add first second

theorem Shorter.one {i j : Instr} (same : i.size = j.size) : Shorter (.one line i) (.one line' j) :=
  same.le

theorem Shorter.nil {f : Fragment} : Shorter [] f :=
  Nat.zero_le _

theorem lags_define (name : Bytes) :
    Lags (define source line name span) (define other line' name span') Shorter := by
  refine .get fun s t within => ?_
  rw [within.function.blocks]
  refine .ite Iff.rfl ?_ (.pure .nil)
  exact (lags_constant rfl).bind fun _ _ _ => .pure (.one rfl)

/-- A variable is found in the same place, whatever is done with it. -/
theorem lags_variableInstr {onLocal onCapture onGlobal onLocal' onCapture' onGlobal' : Nat → Instr}
    (name : Bytes) (locals : ∀ n, (onLocal n).size = (onLocal' n).size)
    (captures : ∀ n, (onCapture n).size = (onCapture' n).size)
    (globals : ∀ n m, (onGlobal n).size = (onGlobal' m).size) :
    Lags (variableInstr source onLocal onCapture onGlobal name span)
      (variableInstr other onLocal' onCapture' onGlobal' name span') fun i j => i.size = j.size := by
  refine .get fun s t within => ?_
  rw [within.function.slot? name]
  cases t.function.slot? name with
  | some slot => exact .pure (locals slot)
  | none =>
    have found := resolveCapture_within name within.function within.enclosing
    dsimp only
    generalize resolveCapture name s.function s.enclosing = one at found ⊢
    generalize resolveCapture name t.function t.enclosing = two at found ⊢
    cases found with
    | @captured index f g outer around function enclosing =>
      have next : State.Within { s with function := f, enclosing := outer }
          { t with function := g, enclosing := around } := ⟨function,enclosing,within.globals⟩
      exact (lags_set next).bind fun _ _ _ => .pure (captures index)
    | absent => exact (lags_constant rfl).bind fun n m _ => .pure (globals n m)
    | full => exact fun _ _ _ => .never fun _ _ run => by cases run

theorem lags_declareAll (names : List Bytes) :
    Lags (declareAll source span names) (declareAll other span' names) fun _ _ => True := by
  induction names with
  | nil => exact .pure trivial
  | cons first rest ih => exact (lags_declare first).bind fun _ _ _ => ih

theorem lags_beginFunction (parameters : List Bytes) :
    Lags (beginFunction source parameters span) (beginFunction other parameters span')
      fun _ _ => True := by
  have entered : Lags
      (modify fun s => { s with function := ⟨[[]], [], []⟩, enclosing := s.function :: s.enclosing } :
        Compiler Unit)
      (modify fun s => { s with function := ⟨[[]], [], []⟩, enclosing := s.function :: s.enclosing } :
        Compiler Unit) fun _ _ => True := by
    intro s t within _ _ run
    cases run
    exact ⟨(),_,rfl,trivial,.fresh _,.cons within.function within.enclosing,within.globals⟩
  exact entered.bind fun _ _ _ => lags_declareAll parameters

/-- What is under construction when a function is finished. -/
theorem within_outside {outer around : List FunctionScope}
    (enclosing : List.Forall₂ FunctionScope.Within outer around) :
    (outer.headD .empty).Within (around.headD .empty) ∧
      List.Forall₂ FunctionScope.Within outer.tail around.tail := by
  cases enclosing with
  | nil => exact ⟨.fresh [],.nil⟩
  | cons head tail => exact ⟨head,tail⟩

theorem lags_endFunction (name : Bytes) (count : Nat) (body body' : Fragment) :
    Lags (endFunction source line name count span body) (endFunction other line' name count span' body')
      Shorter := by
  refine .get fun s t within => ?_
  obtain ⟨around,outer⟩ := within_outside within.enclosing
  have next (finished finished' : List Chunk) :
      State.Within { s with function := s.enclosing.headD .empty, enclosing := s.enclosing.tail, finished }
        { t with
          function := t.enclosing.headD .empty
          enclosing := t.enclosing.tail
          finished := finished' } :=
    ⟨around,outer,within.globals⟩
  refine (lags_set (next _ _)).bind fun _ _ _ => ?_
  refine (lags_function _ _).bind fun _ _ _ => .pure (.one ?_)
  simp only [Instr.size,within.function.captures]

theorem lags_checkDistance {distance distance' : Nat} (less : distance ≤ distance') :
    Lags (checkDistance source distance span) (checkDistance other distance' span')
      fun _ _ => True := by
  intro s t within _ t' run
  rw [checkDistance] at run
  split at run
  next small =>
    cases run
    exact ⟨(),s,by rw [checkDistance,if_pos (less.trans_lt small)]; rfl,trivial,within⟩
  next => cases run

theorem lags_guarded (jumpOn : Bool) {code code' : Fragment} (shorter : Shorter code code') :
    Lags (guarded source line jumpOn code span) (guarded other line' jumpOn code' span') Shorter :=
  (lags_checkDistance shorter).bind fun _ _ _ => .pure (Shorter.append (.one rfl) shorter)

theorem lags_closeLoop {condition condition' : Option Fragment} {body body' : Fragment}
    (test : Option.Rel Shorter condition condition') (shorter : Shorter body body') :
    Lags (closeLoop source line condition body span) (closeLoop other line' condition' body' span')
      Shorter := by
  have closed {f g : Fragment} (first : Shorter f g) : Lags
      (do
        checkDistance source (f.size + body.size + 5) span
        return (f ++ body ++ .one line (.jumpBack (f.size + body.size + 5))).closeLoop
          (f.size + body.size + 5) 0)
      (do
        checkDistance other (g.size + body'.size + 5) span'
        return (g ++ body' ++ .one line' (.jumpBack (g.size + body'.size + 5))).closeLoop
          (g.size + body'.size + 5) 0) Shorter := by
    have total : f.size + body.size + 5 ≤ g.size + body'.size + 5 :=
      Nat.add_le_add_right (Nat.add_le_add first shorter) 5
    refine (lags_checkDistance total).bind fun _ _ _ => .pure ?_
    rw [Shorter,Fragment.size_closeLoop,Fragment.size_closeLoop]
    exact (first.append shorter).append (.one rfl)
  cases test with
  | none => exact closed .nil
  | some tested => exact closed (tested.append (.one rfl))

theorem lags_fieldConstants (seen names : List Bytes) :
    Lags (fieldConstants source span seen names) (fieldConstants other span' seen names)
      fun a b => a.length = b.length := by
  induction names generalizing seen with
  | nil => exact .pure rfl
  | cons name rest ih =>
    have others : Lags
        (do
          let first ← constant source (.string name) span
          return first :: (← fieldConstants source span (name :: seen) rest))
        (do
          let first ← constant other (.string name) span'
          return first :: (← fieldConstants other span' (name :: seen) rest))
        fun a b => a.length = b.length :=
      (lags_constant rfl).bind fun _ _ _ => (ih _).bind fun _ _ same => .pure (by simp [same])
    exact .ite Iff.rfl .refused others

theorem lags_openBlock : Lags openBlock openBlock fun _ _ => True :=
  lags_modify fun f g within => by
    rw [within.blocks]
    exact within.withBlocks _

theorem shorter_discard (line line' : Nat) (block : Block) :
    Shorter (discard line block) (discard line' block) := by
  induction block with
  | nil => exact .nil
  | cons l rest ih =>
    cases captured : l.captured <;>
      exact Shorter.append (f := [_]) (g := [_]) (by simp [Shorter,Fragment.size,captured]) ih

theorem lags_closeBlock : Lags (closeBlock line) (closeBlock line') Shorter := by
  refine .get fun s t within => ?_
  rw [within.function.blocks]
  exact (lags_modify fun f g within => within.withBlocks _).bind fun _ _ _ =>
    .pure (shorter_discard _ _ _)

theorem lags_unwind (depth : Nat) : Lags (unwind line depth) (unwind line' depth) Shorter := by
  have each (blocks : List Block) :
      Shorter (blocks.flatMap (discard line)) (blocks.flatMap (discard line')) := by
    induction blocks with
    | nil => exact .nil
    | cons block rest ih => exact (shorter_discard line line' block).append ih
  refine .get fun s t within => .pure ?_
  rw [within.function.blocks]
  exact each _

theorem lags_blockDepth : Lags blockDepth blockDepth Eq :=
  .get fun s t within => .pure (by rw [within.function.blocks])

end

end ScriptMachine.Compile
