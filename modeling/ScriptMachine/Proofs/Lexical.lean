import Mathlib
import ScriptMachine.Proofs.WellFormed

/-! Lexical scoping. The tree alone tells which declaration a name refers to: the latest one in the
innermost block or function that has one. An instruction designates a variable by a slot of its own
function, by a capture that leads to a slot of a function around, or by a name if it is global. -/
namespace ScriptMachine

/-- A variable as a function sees it: so many functions out, and its slot there. -/
structure Variable where
  distance : Nat
  slot : Nat
  deriving DecidableEq, Repr

/-- The same variable as a function sees it that is nested in the one that sees it so. -/
def Variable.deeper (v : Variable) : Variable := ⟨v.distance + 1, v.slot⟩

theorem Variable.deeper_inj {v w : Variable} (same : v.deeper = w.deeper) : v = w := by
  cases v
  cases w
  simpa [deeper] using same

/-- The names in scope: functions from the innermost on, in each its blocks from the innermost on, in
each block the latest name first. The script is the last of the functions; what it declares outside
of all blocks is global and in none of the lists. -/
abbrev Scopes := List (List (List Bytes))

namespace Scopes

/-- The slot of a name among the names of a function, as many as were declared before it. -/
def slot? (name : Bytes) : List Bytes → Option Nat
  | [] => none
  | latest :: earlier => if latest = name then some earlier.length else slot? name earlier

/-- What a name refers to: the innermost function that has it decides, or else it is global. -/
def find (name : Bytes) : Scopes → Option Variable
  | [] => none
  | blocks :: outer =>
    match slot? name blocks.flatten with
    | some slot => some ⟨0, slot⟩
    | none => (find name outer).map .deeper

/-- There is a variable in scope that has this slot. -/
def Has (scopes : Scopes) (v : Variable) : Prop :=
  ∃ blocks, scopes[v.distance]? = some blocks ∧ v.slot < blocks.flatten.length

/-- Outside of all blocks of the script a declaration adds nothing. -/
def declare (name : Bytes) : Scopes → Scopes
  | (block :: blocks) :: outer => ((name :: block) :: blocks) :: outer
  | scopes => scopes

def openBlock : Scopes → Scopes
  | blocks :: outer => ([] :: blocks) :: outer
  | [] => []

def closeBlock : Scopes → Scopes
  | blocks :: outer => blocks.tail :: outer
  | [] => []

def declareAll : List Bytes → Scopes → Scopes
  | [], scopes => scopes
  | first :: rest, scopes => declareAll rest (scopes.declare first)

/-- The body of a function shares a block with the parameters. -/
def enter (parameters : List Bytes) (scopes : Scopes) : Scopes :=
  declareAll parameters ([[]] :: scopes)

end Scopes

/-- What is done with a name, or a function with what is done with names in it. -/
inductive Use where
  | read (name : Bytes) (meaning : Option Variable)
  | assign (name : Bytes) (meaning : Option Variable)
  | function (around : Scopes) (body : List Use)

/-- What is in scope behind a statement. -/
def Stmt.after (scopes : Scopes) : Stmt → Scopes
  | .declare _ name _ | .function _ name _ _ | .struct _ name _ => scopes.declare name
  | _ => scopes

mutual

/-- The uses of names in an expression, in the order in which they come about. -/
@[simp]
def Expr.uses (scopes : Scopes) : Expr → List Use
  | .number .. | .string .. | .bool .. | .nil _ => []
  | .binary _ _ lhs rhs | .logical _ _ lhs rhs => lhs.uses scopes ++ rhs.uses scopes
  | .unary _ _ operand => operand.uses scopes
  | .name _ spelling => [.read spelling (scopes.find spelling)]
  | .call _ callee arguments => callee.uses scopes ++ Expr.usesOf scopes arguments
  | .assign _ (.name _ spelling) value =>
    value.uses scopes ++ [.assign spelling (scopes.find spelling)]
  | .assign _ (.field _ object _) value => value.uses scopes ++ object.uses scopes
  | .assign _ _ value => value.uses scopes
  | .field _ object _ => object.uses scopes
  | .lambda _ parameters body => [.function scopes (Stmt.usesIn (scopes.enter parameters) body)]

@[simp]
def Expr.usesOf (scopes : Scopes) : List Expr → List Use
  | [] => []
  | first :: rest => first.uses scopes ++ Expr.usesOf scopes rest

/-- The uses of names in a statement. A function's own name is in scope in its body, a variable is not
in its own initializer. -/
@[simp]
def Stmt.uses (scopes : Scopes) : Stmt → List Use
  | .expression _ value | .print _ value | .declare _ _ (some value) => value.uses scopes
  | .declare _ _ none | .struct .. | .breakLoop _ | .continueLoop _ => []
  | .block _ body => Stmt.usesIn scopes.openBlock body
  | .function _ name parameters body =>
    [.function (scopes.declare name) (Stmt.usesIn ((scopes.declare name).enter parameters) body)]
  | .ret _ (some value) => value.uses scopes
  | .ret _ none => []
  | .branch _ condition yes none => condition.uses scopes ++ Stmt.usesIn scopes.openBlock yes
  | .branch _ condition yes (some no) =>
    condition.uses scopes ++ Stmt.usesIn scopes.openBlock yes ++ Stmt.usesIn scopes.openBlock no
  | .loop _ none body => Stmt.usesIn scopes.openBlock body
  | .loop _ (some condition) body =>
    condition.uses scopes ++ Stmt.usesIn scopes.openBlock body

@[simp]
def Stmt.usesIn (scopes : Scopes) : List Stmt → List Use
  | [] => []
  | first :: rest => first.uses scopes ++ Stmt.usesIn (first.after scopes) rest

end

/-- Where an entry in the captures of a function leads, given those of the functions around it too,
from the innermost on: to a local of the function next around, or on to an entry of that one. -/
def follow : List (List Capture) → Nat → Option Variable
  | [], _ => none
  | captures :: outer, k =>
    match captures[k]? with
    | none => none
    | some c => if c.isLocal then some ⟨1, c.index⟩ else (follow outer c.index).map .deeper

/-- An instruction of one of three forms reaches the variable that a name refers to. -/
inductive Designates (captures : List (List Capture)) (pool : List (Constant Chunk))
    (onLocal onCapture onGlobal : Nat → Instr) (name : Bytes) : Option Variable → Instr → Prop
  | inside (slot : Nat) : Designates captures pool onLocal onCapture onGlobal name
      (some ⟨0, slot⟩) (onLocal slot)
  | around {v : Variable} {k : Nat} (leads : follow captures k = some v.deeper) :
      Designates captures pool onLocal onCapture onGlobal name (some v.deeper) (onCapture k)
  | outside {n : Nat} (named : pool[n]? = some (.string name)) :
      Designates captures pool onLocal onCapture onGlobal name none (onGlobal n)

/-- The instruction reads or assigns what a name refers to, or makes a function. -/
def Instr.isUse : Instr → Bool
  | .getLocal _ | .setLocal _ | .getCapture _ | .setCapture _ | .getGlobal _ | .setGlobal _
  | .closure .. => true
  | _ => false

mutual

/-- An instruction does what the tree says. The entries of a function lead to different variables, and
what the code of the function does with names is again what the tree says. -/
inductive Resolves : List (List Capture) → List (Constant Chunk) → Use → Instr → Prop
  | read {captures : List (List Capture)} {pool : List (Constant Chunk)} {name : Bytes}
      {meaning : Option Variable} {i : Instr}
      (designates : Designates captures pool .getLocal .getCapture .getGlobal name meaning i) :
      Resolves captures pool (.read name meaning) i
  | assign {captures : List (List Capture)} {pool : List (Constant Chunk)} {name : Bytes}
      {meaning : Option Variable} {i : Instr}
      (designates : Designates captures pool .setLocal .setCapture .setGlobal name meaning i) :
      Resolves captures pool (.assign name meaning) i
  | function {captures : List (List Capture)} {pool : List (Constant Chunk)} {around : Scopes}
      {body : List Use} {n : Nat} {own : List Capture} {chunk : Chunk} {code : List Instr}
      (made : pool[n]? = some (.function chunk))
      (leads : ∀ k < own.length, ∃ v, follow (own :: captures) k = some v.deeper ∧ around.Has v)
      (apart : ∀ j < own.length, ∀ k < own.length,
        follow (own :: captures) j = follow (own :: captures) k → j = k)
      (reads : chunk.Reads 0 code chunk.code.size)
      (inside : ResolvesAll (own :: captures) chunk.constants body (code.filter Instr.isUse)) :
      Resolves captures pool (.function around body) (.closure n own)

/-- Instructions do in order what the tree says. -/
inductive ResolvesAll : List (List Capture) → List (Constant Chunk) → List Use → List Instr → Prop
  | nil {captures : List (List Capture)} {pool : List (Constant Chunk)} :
      ResolvesAll captures pool [] []
  | cons {captures : List (List Capture)} {pool : List (Constant Chunk)} {use : Use} {i : Instr}
      {uses : List Use} {rest : List Instr} (first : Resolves captures pool use i)
      (others : ResolvesAll captures pool uses rest) :
      ResolvesAll captures pool (use :: uses) (i :: rest)

end

theorem ResolvesAll.append {captures : List (List Capture)} {pool : List (Constant Chunk)}
    {uses more : List Use} {code rest : List Instr} (first : ResolvesAll captures pool uses code)
    (second : ResolvesAll captures pool more rest) :
    ResolvesAll captures pool (uses ++ more) (code ++ rest) := by
  induction uses generalizing code with
  | nil =>
    cases first
    exact second
  | cons use uses ih =>
    cases first with
    | cons head tail => exact .cons head (ih tail)

/-- The captures of the functions around a place fit what is in scope in each of them: no entry is there
twice, and each is that of a variable or an entry of the function next around. -/
inductive Chained : List (List Capture) → Scopes → Prop
  | script (blocks : List (List Bytes)) : Chained [[]] [blocks]
  | function {own outer : List Capture} {captures : List (List Capture)}
      {blocks around : List (List Bytes)} {scopes : Scopes} (distinct : own.Nodup)
      (linked : ∀ c ∈ own, c.index < if c.isLocal then around.flatten.length else outer.length)
      (more : Chained (outer :: captures) (around :: scopes)) :
      Chained (own :: outer :: captures) (blocks :: around :: scopes)

/-- Every entry leads to a variable of a function around. -/
theorem Chained.leads {own : List Capture} {captures : List (List Capture)}
    {blocks : List (List Bytes)} {scopes : Scopes}
    (chained : Chained (own :: captures) (blocks :: scopes)) {k : Nat} (bound : k < own.length) :
    ∃ v, follow (own :: captures) k = some v.deeper ∧ scopes.Has v := by
  induction captures generalizing own blocks scopes k with
  | nil =>
    cases chained
    exact absurd bound (Nat.not_lt_zero k)
  | cons outer captures ih =>
    cases chained with
    | @function _ _ _ _ around scopes distinct linked more =>
      have link := linked own[k] (List.getElem_mem bound)
      rw [follow,List.getElem?_eq_getElem bound]
      dsimp only
      cases isLocal : own[k].isLocal with
      | true =>
        rw [isLocal] at link
        exact ⟨⟨0,own[k].index⟩,rfl,around,rfl,link⟩
      | false =>
        rw [isLocal] at link
        obtain ⟨v,leads,names,found,inside⟩ := ih more link
        exact ⟨v.deeper,by rw [if_neg Bool.false_ne_true,leads]; rfl,names,found,inside⟩

/-- Different entries lead to different variables. -/
theorem Chained.apart {own : List Capture} {captures : List (List Capture)}
    {blocks : List (List Bytes)} {scopes : Scopes}
    (chained : Chained (own :: captures) (blocks :: scopes)) {j k : Nat} (first : j < own.length)
    (second : k < own.length) (same : follow (own :: captures) j = follow (own :: captures) k) :
    j = k := by
  induction captures generalizing own blocks scopes j k with
  | nil =>
    cases chained
    exact absurd first (Nat.not_lt_zero j)
  | cons outer captures ih =>
    cases chained with
    | function distinct linked more =>
      have left := linked own[j] (List.getElem_mem first)
      have right := linked own[k] (List.getElem_mem second)
      suffices entries : own[j] = own[k] from (List.Nodup.getElem_inj_iff distinct).mp entries
      rw [follow,follow,List.getElem?_eq_getElem first,List.getElem?_eq_getElem second] at same
      dsimp only at same
      generalize own[j] = c at *
      generalize own[k] = d at *
      obtain ⟨m,cLocal⟩ := c
      obtain ⟨n,dLocal⟩ := d
      cases cLocal <;> cases dLocal <;>
        simp only [Bool.false_eq_true,↓reduceIte] at left right same
      · obtain ⟨v,one,-⟩ := more.leads left
        have two : follow (outer :: captures) m = follow (outer :: captures) n := by
          rw [one] at same ⊢
          cases other : follow (outer :: captures) n with
          | none => simp [other] at same
          | some w =>
            rw [other] at same
            exact congrArg some (Variable.deeper_inj (Option.some_inj.mp same))
        rw [ih more left right two]
      · obtain ⟨v,one,-⟩ := more.leads left
        simp [one,Variable.deeper] at same
      · obtain ⟨v,one,-⟩ := more.leads right
        simp [one,Variable.deeper] at same
      · simpa using same

/-- Entries that are added later do not change where the others lead. -/
theorem follow_grown {captures larger : List (List Capture)}
    (grown : List.Forall₂ (· <+: ·) captures larger) {k : Nat} {v : Variable}
    (leads : follow captures k = some v) : follow larger k = some v := by
  induction grown generalizing k v with
  | nil => cases leads
  | @cons own more captures larger head tail ih =>
    rw [follow] at leads ⊢
    cases found : own[k]? with
    | none => simp [found] at leads
    | some c =>
      rw [found] at leads
      obtain ⟨bound,same⟩ := List.getElem?_eq_some_iff.mp found
      have still : more[k]? = some c := by
        obtain ⟨rest,rfl⟩ := head
        rw [List.getElem?_append_left bound,found]
      rw [still]
      dsimp only at leads ⊢
      split at leads
      next isLocal =>
        rwa [if_pos isLocal]
      next notLocal =>
        obtain ⟨w,further,rfl⟩ := Option.map_eq_some_iff.mp leads
        rw [if_neg notLocal,ih further]
        rfl

end ScriptMachine
