import Mathlib
import ScriptMachine.Proofs.DetachedHost
import ScriptMachine.Proofs.ScriptCode
import ScriptMachine.Proofs.ScriptStart

/-! Compiling keeps the meaning of scripts. A chunk runs as its script evaluates, with the same output and
the same result, unless the stack of the machine overflows; and it runs for ever if the script does. -/
namespace ScriptMachine

open ScriptMachine.Action ScriptMachine.Compile

namespace Machine

variable {host : Host} {m mid m' : Machine} {outcome : Outcome}

/-- A run that has ended stays as it is, however much fuel there is. -/
theorem resumeWith_ended {fuel : Nat} (ended : (m.resumeWith host fuel).1 ≠ .unfinished) (more : Nat) :
    m.resumeWith host (fuel + more) = m.resumeWith host fuel := by
  induction fuel generalizing m with
  | zero => exact absurd rfl ended
  | succ fuel ih =>
    rw [Nat.add_right_comm]
    cases stepped : Action.step host m with
    | ok _ mid =>
      rw [resumeWith_ok stepped] at ended ⊢
      rw [resumeWith_ok stepped,ih ended]
    | error stop mid => rw [resumeWith_error stepped,resumeWith_error stepped]

/-- There is one end at most. -/
theorem resumeWith_unique {fuel less : Nat} (ended : (m.resumeWith host fuel).1 ≠ .unfinished)
    (endedToo : (m.resumeWith host less).1 ≠ .unfinished) :
    m.resumeWith host fuel = m.resumeWith host less := by
  rcases Nat.le_total less fuel with within | within
  · obtain ⟨more,rfl⟩ := Nat.exists_eq_add_of_le within
    exact resumeWith_ended endedToo more
  · obtain ⟨more,rfl⟩ := Nat.exists_eq_add_of_le within
    exact (resumeWith_ended ended more).symm

/-- The last step of a run. -/
theorem Takes.conclude {count : Nat} {stop : Stop} (takes : m.Takes host count mid)
    (stopped : Action.step host mid = .error stop m') :
    m.resumeWith host (count + 1) = m'.conclude stop := by
  rw [takes.resumeWith,resumeWith_error stopped]

end Machine

/-- The run ended as the evaluation did: with the same value, objects and globals, or with the same
fault, and with the same output. -/
def Outcome.Matches (outcome : Outcome) (m : Machine) : EStateM.Result Halt World Value → Prop
  | .ok result w => outcome = .value result ∧ m.heap = w.store.heap ∧ m.globals = w.store.globals ∧
      m.output = w.store.output
  | .error (.fault f) w => (∃ trace, outcome = .error ⟨f,trace⟩) ∧ m.output = w.store.output
  | .error _ _ => False

/-- There was no room left on the stack. -/
def Outcome.Overflows (outcome : Outcome) : Prop :=
  ∃ trace, outcome = .error ⟨.stackFull,trace⟩

theorem Outcome.Matches.ended {outcome : Outcome} {m : Machine} {result : EStateM.Result Halt World Value}
    (matched : outcome.Matches m result) : outcome ≠ .unfinished := by
  rintro rfl
  cases result with
  | ok _ w => cases matched.1
  | error halt w =>
    cases halt with
    | fault f =>
      obtain ⟨_,impossible⟩ := matched.1
      cases impossible
    | _ => exact matched

theorem Outcome.Overflows.ended {outcome : Outcome} (overflows : outcome.Overflows) :
    outcome ≠ .unfinished := by
  obtain ⟨_,rfl⟩ := overflows
  simp

/-- The evaluation reached its limit. -/
def Evaluation.Unfinished (result : EStateM.Result Halt World Value) : Prop :=
  ∃ w, result = .error .unfinished w

namespace Code

variable {code : Code} {host : Host} {o : Nat} {value : Value} {w : World} {m : Machine}

/-- The return of a script ends the run with its value. -/
theorem Stands.ret (stands : code.Stands ⟨o,[],[value]⟩ w m)
    (found : code.chunk.instr? o = some .ret) :
    ∃ m', Action.step host m = .error .finished m' ∧ m'.result = value ∧ m'.heap = w.store.heap ∧
      m'.globals = w.store.globals ∧ m'.output = w.store.output := by
  obtain rfl := stands.here
  have none : w.values = [] := by
    have names : w.names = [] := stands.names
    rw [World.values,List.map_eq_nil_iff.mp names]
    rfl
  have ends : Ensures (Action.execute host .ret) (code.state (o + Instr.size .ret) w [value])
      (fun _ _ => False) fun stop m' => stop = .finished ∧ m'.result = value ∧
        m'.heap = w.store.heap ∧ m'.globals = w.store.globals ∧ m'.output = w.store.output := by
    refine ensures_bind.mpr ((ensures_peek rfl).mpr ?_)
    refine ensures_bind.mpr (ensures_frame.mpr ?_)
    refine ensures_bind.mpr ((ensures_closeCells stands.plain).mpr ?_)
    refine ensures_bind.mpr (ensures_modify.mpr ?_)
    dsimp only
    rw [if_neg Nat.one_ne_zero]
    refine ensures_bind.mpr ((ensures_shrinkTo (by simp)).mpr ?_)
    exact ⟨rfl,rfl,rfl,rfl,rfl⟩
  have stepped : Action.step host (code.state o w [value]) =
      Action.execute host .ret (code.state (o + Instr.ret.size) w [value]) := step_at stands.function found
  rw [Ensures,← stepped] at ends
  change ∃ m', Action.step host (code.state o w [value]) = .error .finished m' ∧ _
  cases stepped : Action.step host (code.state o w [value]) with
  | ok _ m' =>
    rw [stepped] at ends
    exact ends.elim
  | error stop m' =>
    rw [stepped] at ends
    obtain ⟨rfl,known⟩ := ends
    exact ⟨m',rfl,known⟩

end Code

/-- The meaning of a compiled script is where its run leads. -/
theorem Source.compile_tracks {source : Source} {chunk : Chunk} {program : List Stmt}
    (parsed : source.parse = .ok program) (compiled : source.compile = .ok chunk)
    (plain : Stmt.functionlessAll program = true) {code : Code} (same : code.chunk = chunk) (host : Host)
    (limit : Nat) :
    ∃ o, chunk.instr? o = some .ret ∧ code.Does host limit none ⟨0,[],[]⟩
      (Evaluation.script host limit program) fun value => ⟨o,[],[value]⟩ := by
  subst same
  rw [compile_parsed parsed] at compiled
  obtain ⟨f,t,run,made⟩ := Compile.tree_eq_ok.mp compiled
  have alone : State.initial.Alone := ⟨regular_initial,rfl⟩
  obtain ⟨-,grown,front,line,rfl,flows⟩ := scriptFlows source program _ _ _ run regular_initial rfl
  obtain ⟨front',line',same,works⟩ := script_works source code host limit program _ _ _ run alone rfl plain
  obtain ⟨rfl,-⟩ := List.append_inj' same rfl
  have whole : code.chunk.code = (front ++ Fragment.one line .ret).code := by rw [made]
  have lies : (front ++ Fragment.one line .ret).Lies code.chunk none 0 := flows.lies whole
  obtain ⟨body,last⟩ := Fragment.lies_append.mp lies
  have outside := blocks_outside grown.function rfl
  have names : t.function.names = [] := by rw [FunctionScope.names,outside]; rfl
  refine ⟨0 + front.size,Fragment.lies_one.mp last,?_⟩
  have does := works 0 (by rw [made]) body
  rw [names] at does
  exact does

namespace Machine

variable {source : Source} {chunk : Chunk} {program : List Stmt} {host : Host} {m first : Machine}
  {limit : Nat} {result : EStateM.Result Halt World Value}

/-- What a run that follows an evaluation comes to, once the evaluation is finished. -/
theorem Ensues.matches {code : Code} {o : Nat} (found : code.chunk.instr? o = some .ret)
    (ensues : Ensues host limit first (fun value => code.Stands ⟨o,[],[value]⟩) (code.Out none) result)
    (finished : ¬Evaluation.Unfinished result) :
    ∃ fuel, (first.resumeWith host fuel).1.Matches (first.resumeWith host fuel).2 result := by
  cases result with
  | ok value w =>
    obtain ⟨count,mid,takes,stands⟩ := ensues
    obtain ⟨last,stopped,rfl,heap,globals,output⟩ := stands.ret found
    refine ⟨count + 1,?_⟩
    rw [takes.conclude stopped]
    exact ⟨rfl,heap,globals,output⟩
  | error halt w =>
    cases halt with
    | leave =>
      obtain ⟨_,_,_,_,impossible,-⟩ := ensues
      cases impossible
    | again =>
      obtain ⟨_,_,_,_,_,_,impossible,-⟩ := ensues
      cases impossible
    | fault f =>
      obtain ⟨count,mid,takes,trace,last,stopped,output⟩ := ensues
      refine ⟨count + 1,?_⟩
      rw [takes.conclude stopped]
      exact ⟨⟨trace,rfl⟩,output⟩
    | stuck => exact ensues.elim
    | unfinished => exact absurd ⟨w,rfl⟩ finished

theorem Overflows.outcome (overflows : Overflows host first) :
    ∃ fuel, (first.resumeWith host fuel).1.Overflows := by
  obtain ⟨count,mid,takes,trace,last,stopped⟩ := overflows
  refine ⟨count + 1,?_⟩
  rw [takes.conclude stopped]
  exact ⟨trace,rfl⟩

/-- If the evaluation finishes, the machine finishes in the same way or its stack overflows; and if the
machine finishes otherwise, so does the evaluation. -/
theorem Idle.executeWith_correct (parsed : source.parse = .ok program)
    (plain : Stmt.functionlessAll program = true) (compiled : source.compile = .ok chunk)
    (respectful : host.Respectful) (idle : m.Idle) (closureless : m.Closureless)
    (quiet : ∀ fuel, (m.executeWith host fuel chunk).2.heap.collections = m.heap.collections)
    (detached : ∀ first mid native, Action.start chunk m = .ok () first → first.Leads host mid →
      mid.Calls native → host.Detached native) :
    ∃ first, Action.start chunk m = .ok () first ∧ first.globals = m.globals ∧
      first.output = m.output ∧
      (∀ h, m.heap.Reaches m.globals.handles h → first.heap.get? h = m.heap.get? h) ∧
      let evaluated (limit : Nat) := Evaluation.script host limit program ⟨first.bare,[]⟩
      (∀ limit, ¬Evaluation.Unfinished (evaluated limit) → ∃ fuel,
        (m.executeWith host fuel chunk).1.Overflows ∨
        (m.executeWith host fuel chunk).1.Matches (m.executeWith host fuel chunk).2
          (evaluated limit)) ∧
      ∀ fuel, (m.executeWith host fuel chunk).1 ≠ .unfinished →
        ¬(m.executeWith host fuel chunk).1.Overflows → ∃ limit,
          (m.executeWith host fuel chunk).1.Matches (m.executeWith host fuel chunk).2
            (evaluated limit) := by
  obtain ⟨sound,noParameters,noCaptures⟩ := Source.compile_sound compiled
  obtain ⟨first,begun,started⟩ := idle.start sound noParameters noCaptures
  obtain ⟨globals,output,kept⟩ := idle.start_keeps sound noParameters begun
  obtain ⟨code,same,stands⟩ := started.stands closureless globals kept
  have ran (fuel : Nat) : m.executeWith host fuel chunk = first.resumeWith host fuel :=
    executeWith_ok begun
  simp only [ran] at quiet ⊢
  have prospect : first.Prospect host :=
    ⟨respectful,started.running,fun fuel => (quiet fuel).trans (quiet 0).symm,
      fun mid native => detached first mid native begun⟩
  have follows (limit : Nat) := Source.compile_tracks parsed compiled plain same host limit
  refine ⟨first,begun,globals,output,kept,fun limit finished => ?_,fun fuel ended room => ?_⟩
  · obtain ⟨o,found,does⟩ := follows limit
    rcases does _ _ stands prospect with overflows | ensues
    · obtain ⟨fuel,full⟩ := overflows.outcome
      exact ⟨fuel,.inl full⟩
    · obtain ⟨fuel,matched⟩ := ensues.matches (same ▸ found) finished
      exact ⟨fuel,.inr matched⟩
  · obtain ⟨o,found,does⟩ := follows fuel
    rcases does _ _ stands prospect with overflows | ensues
    · obtain ⟨other,full⟩ := overflows.outcome
      rw [resumeWith_unique ended full.ended] at room
      exact absurd full room
    · -- An evaluation that has as many rounds as the run has steps is finished when the run is.
      have finished : ¬Evaluation.Unfinished (Evaluation.script host fuel program ⟨first.bare,[]⟩) := by
        rintro ⟨w,result⟩
        rw [result] at ensues
        obtain ⟨last,takes⟩ := ensues
        exact ended (takes.unfinished le_rfl)
      obtain ⟨other,matched⟩ := ensues.matches (same ▸ found) finished
      rw [resumeWith_unique ended matched.ended]
      exact ⟨fuel,matched⟩

/-- There may be no closures on a machine at all. -/
theorem closureless_of_slots
    (each : (m.heap.slots.all fun slot =>
      ((slot.map Resident.object).bind Object.captured?).isNone) = true) : m.Closureless := by
  intro h code captures _ found
  obtain ⟨resident,here,object⟩ := Option.map_eq_some_iff.mp found
  have member := Array.mem_of_getElem? (Option.join_eq_some_iff.mp here)
  have none := Array.all_eq_true'.mp each _ member
  simp [object,Object.captured?] at none

/-- A loop that joins strings in a field, and is left by its condition. -/
theorem Idle.executeWith_correct_looping :
    let source := Source.ofText (ascii "struct P \x7b f \x7d var p = P(\"a\"); while p.f == \"a\" \x7b
      var t = \"b\"; if t == \"b\" or p \x7b p.f = str(p.f + t); continue; \x7d break; \x7d
      print p.f; p.f")
    let m := (Machine.new .standard 0).defineBuiltins
    ∃ program chunk first limit, source.parse = .ok program ∧ source.compile = .ok chunk ∧
      Action.start chunk m = .ok () first ∧
      let ran := m.executeWith .stackless 41 chunk
      ran.1.Matches ran.2 (Evaluation.script .stackless limit program ⟨first.bare,[]⟩) ∧
        ran.2.output.toList = ascii "ab\n" := by
  intro source m
  let m := (Machine.new .standard 0).defineBuiltins
  have plain : source.parse.toOption.any Stmt.functionlessAll = true := by decide +kernel
  have computed : (source.compile.toOption.any fun chunk =>
      let ran := m.executeWith .stackless 41 chunk
      ran.1 = .value (.object ⟨13⟩) ∧ ran.2.output.toList = ascii "ab\n" ∧
        (List.range 42).all fun fuel =>
          (m.executeWith .stackless fuel chunk).2.heap.collections = m.heap.collections) = true := by
    decide +kernel
  have none : (m.heap.slots.all fun slot =>
      ((slot.map Resident.object).bind Object.captured?).isNone) = true := by
    decide +kernel
  obtain ⟨program,read,plain⟩ := (Option.any_eq_true _ _).mp plain
  obtain ⟨chunk,accepted,holds⟩ := (Option.any_eq_true _ _).mp computed
  have parsed := toOption_eq_some.mp read
  have compiled := toOption_eq_some.mp accepted
  obtain ⟨ended,output,each⟩ := of_decide_eq_true holds
  have same (fuel : Nat) (few : fuel < 42) :
      (m.executeWith .stackless fuel chunk).2.heap.collections = m.heap.collections :=
    of_decide_eq_true (List.all_eq_true.mp each fuel (List.mem_range.mpr few))
  obtain ⟨sound,noParameters,noCaptures⟩ := Source.compile_sound compiled
  have idle : m.Idle := ((Furnished.new .standard .standard 0 0).define (ascii "str") .str |>.define
    (ascii "clock") .clock).spec.1
  have quiet (fuel : Nat) :
      (m.executeWith .stackless fuel chunk).2.heap.collections = m.heap.collections := by
    rcases Nat.lt_or_ge fuel 42 with few | many
    · exact same fuel few
    · obtain ⟨more,rfl⟩ := Nat.exists_eq_add_of_le many
      obtain ⟨first,begun,-⟩ := idle.start sound noParameters noCaptures
      rw [← same 41 (by decide),executeWith_ok begun,executeWith_ok begun]
      rw [executeWith_ok begun] at ended
      rw [show 42 + more = 41 + (1 + more) by omega,resumeWith_ended (by rw [ended]; simp)]
  obtain ⟨first,begun,-,-,-,-,backward⟩ := Idle.executeWith_correct parsed plain compiled
    Host.stackless_respectful idle (closureless_of_slots none) quiet
    fun _ _ native _ _ _ => Host.stackless_detached native
  obtain ⟨limit,matched⟩ := backward 41 (by rw [ended]; simp) (by rw [ended]; simp [Outcome.Overflows])
  exact ⟨program,chunk,first,limit,parsed,compiled,begun,matched,output⟩

end Machine

end ScriptMachine
