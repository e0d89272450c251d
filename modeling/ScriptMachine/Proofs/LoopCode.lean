import Mathlib
import ScriptMachine.Proofs.StatementCode

/-! The code of a loop goes round as often as the loop does. A jump out of a loop, or to its next round,
takes the variables of the blocks in it off the stack, from however deep inside. -/
namespace ScriptMachine

namespace Machine

variable {α : Type} {host : Host} {least : Nat} {m : Machine} {w v : World}
  {done : α → World → Machine → Prop} {out laxer : Halt → World → Machine → Prop}
  {here : World → Machine → Prop}

/-- A machine gets to where a loop is left, or starts its next round, while nothing else goes on. -/
theorem Tracks.exit {halt : Halt} (known : halt = .leave ∨ halt = .again)
    (tracks : Tracks host least m (Pure.pure ()) v (fun _ => here) laxer)
    (far : ∀ m', here v m' → out halt w m') :
    Tracks host least m (throw halt : Evaluation α) w done out := by
  intro prospect
  rcases tracks prospect with overflows | ⟨count,m',takes,holds⟩
  · exact .inl overflows
  · refine .inr ?_
    rcases known with rfl | rfl
    · exact ⟨count,m',takes,far m' holds⟩
    · exact ⟨count,m',takes,far m' holds⟩

end Machine

namespace Code

variable {code : Code} {host : Host} {limit o o' n : Nat} {exits : Option Exits} {e : Exits}

/-- After a round the machine is about to jump back for the next one, or behind the loop. -/
def AfterRound (code : Code) (e : Exits) : Bool → World → Machine → Prop
  | true, w, m => ∃ offset distance, code.chunk.instr? offset = some (.jumpBack distance) ∧
      offset + 5 = e.again + distance ∧ code.Stands ⟨offset,e.names,[]⟩ w m
  | false, w, m => code.Stands ⟨e.leave,e.names,[]⟩ w m

/-- The body of a loop, with the jump back behind it. -/
theorem Does.round {body : Evaluation Unit}
    (does : code.Does host limit (some e) ⟨o,e.names,[]⟩ body fun _ => ⟨o',e.names,[]⟩)
    (found : code.chunk.instr? o' = some (.jumpBack n)) (there : o' + 5 = e.again + n)
    (w : World) (m : Machine) (stands : code.Stands ⟨o,e.names,[]⟩ w m) :
    Machine.Tracks host limit m (Evaluation.round e.names.length body) w (code.AfterRound e)
      (code.Out exits) := by
  have tracks : Machine.Tracks host limit m body w (fun _ => code.AfterRound e true)
      (code.Out (some e)) :=
    (does w m stands).mono (fun _ _ _ done => ⟨o',n,found,there,done⟩) fun _ _ _ out => out
  refine tracks.round (fun w' m' out => ?_) fun w' m' out => ?_
  · obtain ⟨_,same,away⟩ := out
    cases same
    exact away
  · obtain ⟨_,offset,distance,same,jump,target,away⟩ := out
    cases same
    exact ⟨offset,distance,jump,target,away⟩

/-- The induction is on the number of rounds that are left. Each takes a step at least, the one that
jumps back. -/
theorem Does.rounds {step : Evaluation Bool}
    (each : ∀ w m, code.Stands ⟨e.again,e.names,[]⟩ w m →
      Machine.Tracks host limit m step w (code.AfterRound e) (code.Out exits)) (count : Nat)
    (few : count ≤ limit) :
    code.Does host count exits ⟨e.again,e.names,[]⟩ (Evaluation.rounds step count)
      fun _ => ⟨e.leave,e.names,[]⟩ := by
  induction count with
  | zero => exact fun w m _ _ => .inr ⟨m,.zero m⟩
  | succ count ih =>
    intro w m stands
    refine ((each w m stands).fewer few).bind fun more w' m' after => ?_
    cases more with
    | false => exact .pure after
    | true =>
      obtain ⟨offset,distance,found,there,before⟩ := after
      obtain ⟨mid,takes,again⟩ := before.jumpBack found there
      rw [Nat.add_comm]
      exact .after takes (ih (Nat.le_of_succ_le few) w' mid again)

/-- The blocks that are open when a loop starts are counted. -/
theorem Does.counted {n : Nat → Evaluation Unit} {names : List (List Bytes)} {q : Unit → Place}
    (does : code.Does host limit exits ⟨o,names,[]⟩ (n names.length) q) :
    code.Does host limit exits ⟨o,names,[]⟩ (do
      let depth := (← get).blocks.length
      n depth) q := by
  intro w m stands
  refine .of_eq (y := n names.length) (v := w) ?_ (does w m stands)
  have same : w.names = names := stands.names
  rw [← same,World.names,List.length_map]
  rfl

end Code

namespace Compile

open ScriptMachine.Code

variable {source : Source} {span : Span} {line : Nat} {s t : State} {code : Code} {host : Host}
  {limit : Nat} {loop : Option Nat} {exits : Option Exits} {f : Fragment}

namespace Fragment

/-- Code without open jumps does not depend on the loop around. -/
theorem Lies.anywhere {chunk : Chunk} {offset : Nat} (lies : Lies chunk exits offset f)
    (closed : f.Closed) {others : Option Exits} : Lies chunk others offset f := by
  induction f generalizing offset with
  | nil => trivial
  | cons item rest ih =>
    obtain ⟨here,later⟩ := lies
    obtain ⟨i,step⟩ := closed item List.mem_cons_self
    refine ⟨?_,ih later fun x member => closed x (List.mem_cons_of_mem _ member)⟩
    rw [step] at here ⊢
    exact here

end Fragment

theorem Valued.closed {k : Nat} (valued : Valued k s t f) : f.Closed := by
  obtain ⟨points,charted,-⟩ := valued.flows _ le_rfl ∅ (Set.empty_subset _)
  exact charted.closed

/-! Jumps out of loops. -/

/-- Before the jump the stack is as the loop found it. -/
theorem unwind_does (code : Code) (host : Host) (limit : Nat) {depth : Nat}
    (run : unwind line depth s = .ok f t)
    (around : Around s.function (some depth) exits) :
    ∃ e, exits = some e ∧ t = s ∧ ∀ offset, f.Lies code.chunk exits offset → ∀ w m,
      code.Stands ⟨offset,s.function.names,[]⟩ w m →
        Machine.Tracks host limit m (Pure.pure ()) (w.cut e.names.length)
          (fun _ => code.Stands ⟨offset + f.size,e.names,[]⟩) (code.Out exits) := by
  rw [unwind] at run
  obtain ⟨_,_,got,run⟩ := bind_ok run
  cases got
  cases run
  obtain ⟨e,known,bound,outer⟩ := around depth rfl
  refine ⟨e,known,rfl,fun offset lies w m stands => ?_⟩
  have length : s.function.names.length = s.function.blocks.length := by
    rw [FunctionScope.names,List.length_map]
  have same : w.names = s.function.names := stands.names
  have inner : (s.function.names.take (s.function.blocks.length - depth)).flatten.length =
      (s.function.blocks.take (s.function.blocks.length - depth)).flatten.length := by
    rw [FunctionScope.names,← List.map_take,← List.map_flatten,List.length_map]
  have count := (length_exposed same (s.function.blocks.length - depth)).trans inner
  have blocks : w.blocks.length = s.function.names.length := by
    rw [← same,World.names,List.length_map]
  have cut : w.cut e.names.length =
      { w with blocks := w.blocks.drop (s.function.blocks.length - depth) } := by
    rw [World.cut,outer,List.length_drop,blocks,length]
    congr 2
    omega
  have code' : (s.function.blocks.take (s.function.blocks.length - depth)).flatMap (discard line) =
      discard line (s.function.blocks.take (s.function.blocks.length - depth)).flatten := by
    unfold discard
    rw [List.map_flatten,List.flatMap_def]
  rw [code'] at lies ⊢
  have does : code.Does host limit exits ⟨_,e.names,_ ++ []⟩ (Pure.pure ())
      fun _ => ⟨_,e.names,[]⟩ := Does.discard count lies
  rw [List.append_nil] at does
  rw [cut]
  refine does _ m ?_
  rw [outer,length]
  exact stands.expose _

theorem stmtWorks_breakLoop : StmtWorks source code host limit loop (.breakLoop span) := by
  intro s f t run alone within _ exits around
  cases loop with
  | none =>
    rw [stmt] at run
    cases run
  | some depth =>
    rw [stmt] at run
    obtain ⟨a,_,unwound,run⟩ := bind_ok run
    cases run
    obtain ⟨e,known,rfl,does⟩ := unwind_does code host limit unwound around
    rw [Evaluation.stmt]
    intro offset _ lies w m stands
    obtain ⟨front,jump⟩ := Fragment.lies_append.mp lies
    obtain ⟨⟨_,distance,same,found,there⟩,-⟩ := jump
    cases known.symm.trans same
    have behind : code.Does host limit exits ⟨_,e.names,[]⟩ (Pure.pure ()) fun _ => ⟨_,e.names,[]⟩ :=
      .jump found
    have tracks := (does offset front w m stands).bind
      fun _ w' m' done => behind w' m' done
    refine .exit (.inl rfl) tracks fun m' done => ⟨e,known,?_⟩
    rw [← there]
    exact done

theorem stmtWorks_continueLoop : StmtWorks source code host limit loop (.continueLoop span) := by
  intro s f t run alone within _ exits around
  cases loop with
  | none =>
    rw [stmt] at run
    cases run
  | some depth =>
    rw [stmt] at run
    obtain ⟨a,_,unwound,run⟩ := bind_ok run
    cases run
    obtain ⟨e,known,rfl,does⟩ := unwind_does code host limit unwound around
    rw [Evaluation.stmt]
    intro offset _ lies w m stands
    obtain ⟨front,jump⟩ := Fragment.lies_append.mp lies
    obtain ⟨⟨_,distance,same,found,there⟩,-⟩ := jump
    cases known.symm.trans same
    refine .exit (.inr rfl) (does offset front w m stands) fun m' done => ?_
    exact ⟨e,offset + a.size,distance,known,found,there,done⟩

/-! Loops. -/

/-- What a round runs before a body of this size. -/
def tested (line size : Nat) : Option Fragment → Fragment
  | some code => code ++ .one line (.jumpIf false (size + 5))
  | none => []

/-- The code of a loop before its jumps are closed. -/
theorem closeLoop_lies {condition : Option Fragment} {body : Fragment} {chunk : Chunk} {offset : Nat}
    (names : List (List Bytes)) (run : closeLoop source line condition body span s = .ok f t)
    (lies : f.Lies chunk exits offset) :
    t = s ∧ f.size = (tested line body.size condition).size + body.size + 5 ∧
      (tested line body.size condition ++ body ++ Fragment.one line (.jumpBack f.size)).Lies chunk
        (some ⟨names,offset + f.size,offset⟩) offset := by
  have whole : closeLoop source line condition body span = (do
      let test := tested line body.size condition
      checkDistance source (test.size + body.size + 5) span
      return (test ++ body ++ Fragment.one line (.jumpBack (test.size + body.size + 5))).closeLoop
        (test.size + body.size + 5) 0) := by
    cases condition <;> rfl
  rw [whole] at run
  obtain ⟨_,_,checked,run⟩ := bind_ok run
  cases run
  obtain ⟨rfl,-⟩ := checkDistance_spec checked
  have size : ((tested line body.size condition ++ body ++ Fragment.one line (.jumpBack
      ((tested line body.size condition).size + body.size + 5))).closeLoop
        ((tested line body.size condition).size + body.size + 5) 0).size =
      (tested line body.size condition).size + body.size + 5 := by
    simp [Fragment.size_closeLoop,Instr.size,Nat.add_assoc]
  rw [size]
  exact ⟨rfl,rfl,lies.ofLoop (i := 0) (by simp [Instr.size,Nat.add_assoc])⟩

/-- The block of a loop, with the jump back behind it. -/
theorem StmtsWork.round (exits : Option Exits) {body : List Stmt} {a rest : Fragment} {e : Exits}
    {mid late last : State} {offset n : Nat}
    (inner : StmtsWork source code host limit (some s.function.blocks.length) body)
    (alone : mid.Alone) (depth : s.function.blocks.length = mid.function.blocks.length)
    (names : e.names = mid.function.names) (plain : Stmt.functionlessAll body = true)
    (first : stmts source (some s.function.blocks.length) body mid.open = .ok a late)
    (closed : closeBlock line late = .ok rest last)
    (pool : last.function.constants <+: code.chunk.constants)
    (lies : (a ++ rest).Lies code.chunk (some e) offset)
    (found : code.chunk.instr? (offset + (a ++ rest).size) = some (.jumpBack n))
    (there : offset + (a ++ rest).size + 5 = e.again + n) (w : World) (m : Machine)
    (stands : code.Stands ⟨offset,e.names,[]⟩ w m) :
    Machine.Tracks host limit m
      (Evaluation.round e.names.length (Evaluation.inBlock (Evaluation.stmts host limit body))) w
      (code.AfterRound e) (code.Out exits) := by
  have length : mid.function.names.length = s.function.blocks.length := by
    rw [FunctionScope.names,List.length_map,depth]
  have within : Within mid.open.function (some s.function.blocks.length) := within_open depth
  have around : Around mid.open.function (some s.function.blocks.length) (some e) := by
    rintro _ ⟨⟩
    rw [names_open,List.length_cons,length,Nat.add_sub_cancel_left]
    exact ⟨e,rfl,Nat.le_succ _,names⟩
  obtain ⟨-,raises⟩ := block_kept alone (by rintro _ ⟨⟩; exact depth.le) first closed
  have does := inner.inBlock alone within plain around first closed offset pool lies
  rw [raises.function.names,← names] at does
  exact does.round found there w m stands

theorem stmtWorks_loop {body : List Stmt}
    (inner : ∀ depth, StmtsWork source code host limit (some depth) body) :
    StmtWorks source code host limit loop (.loop span none body) := by
  intro s f t run alone within plain exits around
  rw [stmt_loop] at run
  obtain ⟨_,_,counted,run⟩ := bind_ok run
  cases counted
  obtain ⟨_,last,block,looped⟩ := bind_ok run
  obtain ⟨a,late,rest,first,closed,rfl⟩ := blockCode_ok block
  obtain ⟨-,raises⟩ := block_kept alone (by rintro _ ⟨⟩; exact le_rfl) first closed
  rw [Evaluation.stmt]
  intro offset pool lies
  obtain ⟨rfl,size,whole⟩ := closeLoop_lies s.function.names looped lies
  obtain ⟨block,back⟩ := Fragment.lies_append.mp whole
  have there : offset + (a ++ rest).size + 5 = offset + f.size := by
    rw [size]
    simp [tested,Fragment.size,Nat.add_assoc]
  have each := (inner _).round exits alone rfl rfl plain first closed pool block
    (Fragment.lies_one.mp back) there
  rw [raises.function.names]
  refine Does.counted (n := fun depth => Evaluation.rounds (Evaluation.round depth
    (Evaluation.inBlock (Evaluation.stmts host limit body))) limit) ?_
  exact Does.rounds (e := ⟨s.function.names,offset + f.size,offset⟩) each limit le_rfl

theorem stmtWorks_while {condition : Expr} {body : List Stmt}
    (test : ExprWorks source code host limit condition)
    (inner : ∀ depth, StmtsWork source code host limit (some depth) body) :
    StmtWorks source code host limit loop (.loop span (some condition) body) := by
  intro s f t run alone within plain exits around
  obtain ⟨testPlain,innerPlain⟩ := Bool.and_eq_true_iff.mp plain
  rw [stmt_while] at run
  obtain ⟨_,_,counted,run⟩ := bind_ok run
  cases counted
  obtain ⟨c,mid,compiled,run⟩ := bind_ok run
  obtain ⟨_,last,block,looped⟩ := bind_ok run
  obtain ⟨a,late,rest,first,closed,rfl⟩ := blockCode_ok block
  have valued := (compiled_flows source).1 condition s c mid compiled alone.regular
  have still := valued.alone alone
  have depth := valued.raises.function.length_blocks.symm
  obtain ⟨-,raises⟩ := block_kept still (by rintro _ ⟨⟩; exact depth.le) first closed
  rw [Evaluation.stmt]
  intro offset pool lies
  obtain ⟨rfl,size,whole⟩ := closeLoop_lies s.function.names looped lies
  obtain ⟨front,back⟩ := Fragment.lies_append.mp whole
  obtain ⟨front,block⟩ := Fragment.lies_append.mp front
  obtain ⟨front,jump⟩ := Fragment.lies_append.mp front
  have there : offset + (tested (source.line span.start) (a ++ rest).size (some c)).size +
      (a ++ rest).size + 5 =
      offset + f.size := by
    rw [size]
    simp [tested,Nat.add_assoc]
  have names := valued.raises.function.names
  have each := (inner _).round exits still depth names.symm innerPlain first closed pool block
    (by rw [Fragment.size_append,← Nat.add_assoc] at back; exact Fragment.lies_one.mp back) there
  rw [raises.function.names,names]
  refine Does.counted (n := fun depth => Evaluation.rounds (do
    let condition ← Evaluation.expr host limit condition
    if ← Evaluation.truth condition then
      Evaluation.round depth (Evaluation.inBlock (Evaluation.stmts host limit body))
    else return false) limit) ?_
  refine Does.rounds (e := ⟨s.function.names,offset + f.size,offset⟩) (fun w m stands => ?_) limit le_rfl
  have tests := test s c mid compiled alone testPlain exits [] offset
    (raises.function.constants.trans pool) (front.anywhere valued.closed)
  refine (tests w m stands).bind fun v w' m' stood => ?_
  have jumps : code.Does host limit exits ⟨_,mid.function.names,[v]⟩ (Evaluation.truth v)
      fun holds => ⟨if holds = false then _ else _,mid.function.names,[]⟩ :=
    .jumpIf (Fragment.lies_one.mp jump)
  refine (jumps w' m' stood).bind fun holds w'' m'' stands => ?_
  rw [names] at stands
  have begins : offset + c.size + 5 =
      offset + (tested (source.line span.start) (a ++ rest).size (some c)).size := by
    simp [tested,Instr.size,Nat.add_assoc]
  have ends : offset + c.size + 5 + ((a ++ rest).size + 5) = offset + f.size := by
    rw [begins,← Nat.add_assoc,there]
  cases holds with
  | true => exact each w'' m'' (begins ▸ stands)
  | false => exact .pure (show code.Stands ⟨offset + f.size,s.function.names,[]⟩ w'' m'' from ends ▸ stands)

end Compile

end ScriptMachine
