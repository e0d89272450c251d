import Mathlib
import ScriptMachine.Proofs.Detached
import ScriptMachine.Proofs.Evaluation
import ScriptMachine.Proofs.Invisible

/-! Machines that keep up with an evaluation. A machine tracks an evaluation if it comes to the same,
unless its stack overflows; the rules put longer evaluations together from their parts. Steps are
counted, because an evaluation that is not finished within its limit has to take the machine as many
steps at least. -/
namespace ScriptMachine

section

variable {ε σ α β : Type} {x : EStateM ε σ α} {next : α → EStateM ε σ β} {s s' : σ}

theorem run_bind_ok {a : α} (run : x s = .ok a s') : (x >>= next) s = next a s' := by
  change EStateM.bind x next s = _
  rw [EStateM.bind,run]

theorem run_bind_error {e : ε} (run : x s = .error e s') : (x >>= next) s = .error e s' := by
  change EStateM.bind x next s = _
  rw [EStateM.bind,run]

/-- Both parts went well if the whole did. -/
theorem of_run_bind {b : β} {last : σ} (run : (x >>= next) s = .ok b last) :
    ∃ a mid, x s = .ok a mid ∧ next a mid = .ok b last := by
  cases first : x s with
  | ok a mid => exact ⟨a,mid,rfl,(run_bind_ok first).symm.trans run⟩
  | error e mid =>
    rw [run_bind_error first] at run
    contradiction

end

/-- What becomes of a round when its body has come to a result. -/
def Evaluation.endRound (depth : Nat) :
    EStateM.Result Halt World Unit → EStateM.Result Halt World Bool
  | .ok _ w => .ok true w
  | .error .leave w => .ok false (w.cut depth)
  | .error .again w => .ok true (w.cut depth)
  | .error halt w => .error halt w

theorem Evaluation.round_eq (depth : Nat) (body : Evaluation Unit) (w : World) :
    Evaluation.round depth body w = Evaluation.endRound depth (body w) := by
  cases run : body w with
  | ok a w' =>
    simp [Evaluation.round,bind,EStateM.bind,run,tryCatch,tryCatchThe,MonadExceptOf.tryCatch,
      EStateM.tryCatch]
    rfl
  | error halt w' =>
    cases halt
    all_goals
      simp [Evaluation.round,bind,EStateM.bind,run,tryCatch,tryCatchThe,MonadExceptOf.tryCatch,
        EStateM.tryCatch]
      rfl

namespace Machine

/-- The machine takes so many steps. -/
inductive Takes (host : Host) : Nat → Machine → Machine → Prop
  | zero (m : Machine) : Takes host 0 m m
  | succ {count : Nat} {m mid m' : Machine} (first : Action.step host m = .ok () mid)
      (rest : Takes host count mid m') : Takes host (count + 1) m m'

/-- The machine is in the middle of a run without collections, and all native functions that the run
calls are detached. -/
structure Prospect (host : Host) (m : Machine) : Prop where
  respectful : host.Respectful
  running : m.Running
  quiet : ∀ fuel, (m.resumeWith host fuel).2.heap.collections = m.heap.collections
  detached : ∀ mid native, m.Leads host mid → mid.Calls native → host.Detached native

variable {host : Host} {m mid m' : Machine} {count more : Nat}

theorem Takes.trans (first : Takes host count m mid) (second : Takes host more mid m') :
    Takes host (count + more) m m' := by
  induction first with
  | zero => simpa using second
  | succ step _ ih =>
    rw [Nat.add_right_comm]
    exact .succ step (ih second)

/-- Fewer steps can be taken as well. -/
theorem Takes.fewer (takes : Takes host count m m') (less : more ≤ count) :
    ∃ mid, Takes host more m mid := by
  induction takes generalizing more with
  | zero m =>
    obtain rfl : more = 0 := Nat.le_zero.mp less
    exact ⟨m,.zero m⟩
  | @succ count m mid m' step _ ih =>
    cases more with
    | zero => exact ⟨m,.zero m⟩
    | succ more =>
      obtain ⟨last,rest⟩ := ih (Nat.le_of_succ_le_succ less)
      exact ⟨last,.succ step rest⟩

theorem Takes.resumeWith (takes : Takes host count m m') (fuel : Nat) :
    m.resumeWith host (count + fuel) = m'.resumeWith host fuel := by
  induction takes with
  | zero => rw [Nat.zero_add]
  | succ step _ ih => rw [Nat.add_right_comm,resumeWith_ok step,ih]

/-- No step in between ends the run. -/
theorem Takes.unfinished (takes : Takes host count m m') {fuel : Nat} (within : fuel ≤ count) :
    (m.resumeWith host fuel).1 = .unfinished := by
  obtain ⟨mid,fewer⟩ := takes.fewer within
  rw [← Nat.add_zero fuel,fewer.resumeWith]
  rfl

namespace Prospect

theorem step (prospect : m.Prospect host) (stepped : Action.step host m = .ok () m') :
    m'.Prospect host where
  respectful := prospect.respectful
  running := by
    obtain ⟨i,f,-,-,ensures⟩ := prospect.running.step prospect.respectful
    exact (ensures.apply stepped).running
  quiet fuel := by
    have now := prospect.quiet 1
    have later := prospect.quiet (fuel + 1)
    rw [resumeWith_ok stepped] at now later
    exact later.trans now.symm
  detached mid native leads := prospect.detached mid native (.head stepped leads)

theorem takes (prospect : m.Prospect host) (takes : Takes host count m m') : m'.Prospect host := by
  induction takes with
  | zero => exact prospect
  | succ step _ ih => exact ih (prospect.step step)

/-- The next step does not collect, whatever it comes to. -/
theorem quiet_step (prospect : m.Prospect host) :
    (m.after (Action.step host)).heap.collections = m.heap.collections := by
  have now := prospect.quiet 1
  cases stepped : Action.step host m with
  | ok _ m' =>
    rw [resumeWith_ok stepped] at now
    rwa [after_ok stepped]
  | error stop m' =>
    rw [resumeWith_error stepped] at now
    rw [after_error stepped,← now]
    cases stop <;> rfl

end Prospect

/-- The machine comes to a state with the property. -/
def Comes (host : Host) (m : Machine) (there : Machine → Prop) : Prop :=
  ∃ count m', Takes host count m m' ∧ there m'

/-- The run ends with this fault and this output. -/
def Fails (host : Host) (m : Machine) (fault : RuntimeFault) (output : Array UInt8) : Prop :=
  Comes host m fun last => ∃ trace m',
    Action.step host last = .error (.fault ⟨fault,trace⟩) m' ∧ m'.output = output

/-- The run ends because there is no room on the stack. -/
def Overflows (host : Host) (m : Machine) : Prop :=
  Comes host m fun last => ∃ trace m', Action.step host last = .error (.fault ⟨.stackFull,trace⟩) m'

theorem Comes.after {there : Machine → Prop} (takes : Takes host count m mid)
    (comes : Comes host mid there) : Comes host m there := by
  obtain ⟨more,m',rest,holds⟩ := comes
  exact ⟨count + more,m',takes.trans rest,holds⟩

section

variable {α β : Type} {least : Nat}

/-- What a machine does when an evaluation comes to this result. It gets where `done` holds, or where
`out` does when a loop is left or its next round starts; it fails in the same way; and it takes so
many steps at least while the evaluation is not finished. -/
def Ensues (host : Host) (least : Nat) (m : Machine) (done : α → World → Machine → Prop)
    (out : Halt → World → Machine → Prop) : EStateM.Result Halt World α → Prop
  | .ok a w => Comes host m (done a w)
  | .error .leave w => Comes host m (out .leave w)
  | .error .again w => Comes host m (out .again w)
  | .error (.fault f) w => Fails host m f w.store.output
  | .error .stuck _ => False
  | .error .unfinished _ => ∃ m', Takes host least m m'

/-- The machine keeps up with the evaluation, unless its stack overflows. -/
def Tracks (host : Host) (least : Nat) (m : Machine) (x : Evaluation α) (w : World)
    (done : α → World → Machine → Prop) (out : Halt → World → Machine → Prop) : Prop :=
  m.Prospect host → Overflows host m ∨ Ensues host least m done out (x w)

variable {done : α → World → Machine → Prop} {done' : β → World → Machine → Prop}
  {out : Halt → World → Machine → Prop} {x : Evaluation α} {w : World}

theorem Ensues.after {result : EStateM.Result Halt World α} (takes : Takes host count m mid)
    (ensues : Ensues host least mid done out result) :
    Ensues host (count + least) m done out result := by
  cases result with
  | ok a w => exact Comes.after takes ensues
  | error halt w =>
    cases halt with
    | leave => exact Comes.after takes ensues
    | again => exact Comes.after takes ensues
    | fault f => exact Comes.after takes ensues
    | stuck => exact ensues
    | unfinished =>
      obtain ⟨m',rest⟩ := ensues
      exact ⟨m',takes.trans rest⟩

theorem Ensues.fewer {result : EStateM.Result Halt World α}
    (ensues : Ensues host least m done out result) (less : more ≤ least) :
    Ensues host more m done out result := by
  cases result with
  | ok a w => exact ensues
  | error halt w =>
    cases halt with
    | unfinished =>
      obtain ⟨m',takes⟩ := ensues
      exact takes.fewer less
    | _ => exact ensues

namespace Tracks

theorem of_eq {y : Evaluation α} {v : World} (same : x w = y v)
    (tracks : Tracks host least m y v done out) : Tracks host least m x w done out := by
  rw [Tracks,same]
  exact tracks

theorem pure {a : α} (holds : done a w m) : Tracks host least m (Pure.pure a) w done out :=
  fun _ => .inr ⟨0,m,.zero m,holds⟩

/-- The machine may take some steps first. -/
theorem after (takes : Takes host count m mid) (tracks : Tracks host least mid x w done out) :
    Tracks host (count + least) m x w done out := by
  intro prospect
  rcases tracks (prospect.takes takes) with overflows | ensues
  · exact .inl (Comes.after takes overflows)
  · exact .inr (ensues.after takes)

theorem fewer (tracks : Tracks host least m x w done out) (less : more ≤ least) :
    Tracks host more m x w done out := by
  intro prospect
  rcases tracks prospect with overflows | ensues
  · exact .inl overflows
  · exact .inr (ensues.fewer less)

/-- An evaluation in two parts. -/
theorem bind {next : α → Evaluation β} (first : Tracks host least m x w done out)
    (rest : ∀ a w' m', done a w' m' → Tracks host least m' (next a) w' done' out) :
    Tracks host least m (x >>= next) w done' out := by
  intro prospect
  rcases first prospect with overflows | ensues
  · exact .inl overflows
  · cases run : x w with
    | ok a w' =>
      rw [run] at ensues
      obtain ⟨count,m',takes,holds⟩ := ensues
      rw [run_bind_ok run]
      exact ((rest a w' m' holds).after takes |>.fewer (Nat.le_add_left _ _)) prospect
    | error halt w' =>
      rw [run] at ensues
      rw [run_bind_error run]
      cases halt <;> exact .inr ensues

/-- What is known of every result is known of the one the machine gets. -/
theorem also {known : α → Prop} (tracks : Tracks host least m x w done out)
    (each : ∀ a w', x w = .ok a w' → known a) :
    Tracks host least m x w (fun a w' m' => known a ∧ done a w' m') out := by
  intro prospect
  rcases tracks prospect with overflows | ensues
  · exact .inl overflows
  · refine .inr ?_
    cases run : x w with
    | ok a w' =>
      rw [run] at ensues
      obtain ⟨count,m',takes,holds⟩ := ensues
      exact ⟨count,m',takes,each a w' run,holds⟩
    | error halt w' =>
      rw [run] at ensues
      cases halt <;> exact ensues

theorem mono {there : α → World → Machine → Prop} {out' : Halt → World → Machine → Prop}
    (tracks : Tracks host least m x w done out) (more : ∀ a w' m', done a w' m' → there a w' m')
    (laxer : ∀ halt w' m', out halt w' m' → out' halt w' m') :
    Tracks host least m x w there out' := by
  intro prospect
  rcases tracks prospect with overflows | ensues
  · exact .inl overflows
  · refine .inr ?_
    cases run : x w with
    | ok a w' =>
      rw [run] at ensues
      obtain ⟨count,m',takes,holds⟩ := ensues
      exact ⟨count,m',takes,more a w' m' holds⟩
    | error halt w' =>
      rw [run] at ensues
      cases halt with
      | leave =>
        obtain ⟨count,m',takes,holds⟩ := ensues
        exact ⟨count,m',takes,laxer _ w' m' holds⟩
      | again =>
        obtain ⟨count,m',takes,holds⟩ := ensues
        exact ⟨count,m',takes,laxer _ w' m' holds⟩
      | fault f => exact ensues
      | stuck => exact ensues
      | unfinished => exact ensues

/-- The body of a loop. A jump out of it ends the loop, and one to its next round does not. -/
theorem round {body : Evaluation Unit} {depth : Nat} {there : Bool → World → Machine → Prop}
    {inner : Halt → World → Machine → Prop}
    (tracks : Tracks host least m body w (fun _ => there true) inner)
    (leave : ∀ w' m', inner .leave w' m' → there false (w'.cut depth) m')
    (again : ∀ w' m', inner .again w' m' → there true (w'.cut depth) m') :
    Tracks host least m (Evaluation.round depth body) w there out := by
  intro prospect
  rcases tracks prospect with overflows | ensues
  · exact .inl overflows
  · refine .inr ?_
    rw [Evaluation.round_eq]
    cases run : body w with
    | ok a w' =>
      rw [run] at ensues
      exact ensues
    | error halt w' =>
      rw [run] at ensues
      cases halt with
      | leave =>
        obtain ⟨count,m',takes,holds⟩ := ensues
        exact ⟨count,m',takes,leave w' m' holds⟩
      | again =>
        obtain ⟨count,m',takes,holds⟩ := ensues
        exact ⟨count,m',takes,again w' m' holds⟩
      | fault f => exact ensues
      | stuck => exact ensues
      | unfinished => exact ensues

end Tracks

end

end Machine

end ScriptMachine
