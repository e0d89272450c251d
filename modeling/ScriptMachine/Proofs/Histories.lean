import Mathlib
import ScriptMachine.Proofs.CompiledSound
import ScriptMachine.Proofs.Hosts
import ScriptMachine.Proofs.Loading

/-! All that may happen to a machine, from the moment it is made: its host prepares it and runs
compiled programs on it, one after the other, until one of them fails. -/
namespace ScriptMachine

open ScriptMachine.Action

namespace Machine

/-- What a host may do between two runs: collect, forget the last run, store values under names, take
other tables of globals into use, take the output and let time pass. -/
inductive Deed (m : Machine) : Machine → Prop
  | collect : Deed m m.collect
  | reset : Deed m m.reset
  | define (name : Bytes) (native : Native) : Deed m (m.defineNative name native)
  | store (name : Bytes) {value : Value} (held : m.heap.Holds value) :
      Deed m (m.after (setGlobalNamed name value))
  | spell (name text : Bytes) : Deed m (m.after do
      let h ← allocateString text
      setGlobalNamed name (.object h))
  | tables {globals : Globals} {shelved : List Globals}
      (known : ∀ table ∈ globals :: shelved, table = ∅ ∨ table ∈ m.globals :: m.shelved) :
      Deed m { m with globals, shelved }
  | wait (output : Array UInt8) (clock : Float) : Deed m { m with output, clock }

end Machine

inductive Phase where
  | idle
  | running
  | failed
  deriving DecidableEq

structure Stage where
  phase : Phase
  machine : Machine

/-- A deed of the host, the start of a compiled program, one step of it, its end, or a fault. -/
inductive Moves (host : Host) : Stage → Stage → Prop
  | deed {m m' : Machine} (deed : m.Deed m') : Moves host ⟨.idle,m⟩ ⟨.idle,m'⟩
  | start {m m' : Machine} {source : Source} {chunk : Chunk} (compiled : source.compile = .ok chunk)
      (started : Action.start chunk m = .ok () m') : Moves host ⟨.idle,m⟩ ⟨.running,m'⟩
  | step {m m' : Machine} (stepped : Action.step host m = .ok () m') :
      Moves host ⟨.running,m⟩ ⟨.running,m'⟩
  | finish {m m' : Machine} (stepped : Action.step host m = .error .finished m') :
      Moves host ⟨.running,m⟩ ⟨.idle,(m'.conclude .finished).2⟩
  | fail {m m' : Machine} {error : RuntimeError}
      (stepped : Action.step host m = .error (.fault error) m') :
      Moves host ⟨.running,m⟩ ⟨.failed,(m'.conclude (.fault error)).2⟩

/-- The first stages in the life of a machine. -/
structure History (host : Host) (length : Nat) (stages : Nat → Stage) : Prop where
  begins : ∃ policy clock, stages 0 = ⟨.idle,.new policy clock⟩
  moves : ∀ t < length, Moves host (stages t) (stages (t + 1))

/-- What is true at a stage. -/
def Stage.Good : Stage → Prop
  | ⟨.idle,m⟩ => m.Idle
  | ⟨.running,m⟩ => m.Running
  | ⟨.failed,m⟩ => m.Orderly

namespace Machine

variable {m m' mid : Machine} {fresh : Set Handle}

/-- An idle machine has nothing new but strings and native functions. -/
structure Arranges (m m' : Machine) : Prop where
  idle : m'.Idle
  turns : ∃ fresh, m.Turns 0 fresh m' ∧
    ∀ h ∈ fresh, ∀ code captures, m'.heap.get? h ≠ some (.closure code captures)

theorem Idle.arranges (idle : m.Idle) (grows : m.Grows fresh mid)
    (plain : ∀ h ∈ fresh, ∀ o, mid.heap.get? h = some o →
      (∃ text, o = .string text) ∨ ∃ name native, o = .native name native)
    (same : m'.heap = mid.heap) (frames : m'.frames = mid.frames)
    (openCells : m'.openCells = mid.openCells) (intact : m'.Intact ∅) : m.Arranges m' := by
  have neither {h : Handle} (new : h ∈ fresh) {o : Object} (found : m'.heap.get? h = some o) :
      (∀ code captures, o ≠ .closure code captures) ∧ ∀ state, o ≠ .cell state := by
    rw [same] at found
    rcases plain h new o found with ⟨text,rfl⟩ | ⟨name,native,rfl⟩ <;> simp
  have before {h : Handle} (old : h ∉ fresh) {o : Object} (found : m'.heap.get? h = some o) :
      m.heap.get? h = some o := grows.old h old o (same ▸ found)
  have shut (h : Handle) (slot : Nat) : ¬m'.Opens h slot := by
    intro opens
    by_cases new : h ∈ fresh
    · exact (neither new opens).2 _ rfl
    · exact idle.shut h slot (before new opens)
  have framesToo : mid.frames = m.frames := by rw [grows.same]
  have openCellsToo : mid.openCells = m.openCells := by rw [grows.same]
  refine ⟨⟨intact,shut,frames.trans (framesToo.trans idle.frames),
    openCells.trans (openCellsToo.trans idle.openCells)⟩,fresh,
    ⟨fun h slot opens => absurd opens (idle.shut h slot),
    fun h slot opens => absurd opens (idle.shut h slot),fun h slot opens => absurd opens (shut h slot),
    fun h value found => ?_,fun h code captures found old => ⟨before old found,fun c member => ?_⟩⟩,
    fun h new code captures found => (neither new found).1 _ _ rfl⟩
  · have old : h ∉ fresh := fun new => (neither new found).2 _ rfl
    exact ⟨old,_,before old found⟩
  · refine grows.apart h old _ (same ▸ found) c (List.mem_cons_of_mem _ ?_)
    simpa using member

theorem after_of_ensures {α : Type} {action : Action α} {ok : Machine → Prop}
    (ensures : action.Ensures m (fun _ m' => ok m') fun _ _ => False) : ok (m.after action) := by
  obtain ⟨a,m',run,holds⟩ := ensures.succeeds
  rw [after_ok run]
  exact holds

/-- The value is pinned while its name is made, so that it is still there when it is stored. -/
theorem ensures_setGlobalNamed {name : Bytes} {value : Value} (intact : m.Intact ∅)
    (held : m.heap.Holds value) {ok : Unit → Machine → Prop} {stop : Stop → Machine → Prop}
    (next : ∀ h mid, m.Spells mid → mid.heap.get? h = some (.string name) → mid.heap.Holds value →
      ok () { mid with globals := mid.globals.insert h value }) :
    Ensures (setGlobalNamed name value) m ok stop := by
  have pinned : Machine.Intact ∅ { m with pinned := value :: m.pinned } := by
    refine { intact with pinned := fun v member => ?_ }
    rcases List.mem_cons.mp member with rfl | old
    · exact held
    · exact intact.pinned v old
  rw [setGlobalNamed,ensures_bind,ensures_pinning]
  refine Native.ensures_newText pinned fun h m' spells found => ?_
  rw [ensures_modify]
  refine next h _ spells.unpin found (held.later fun k same => ?_)
  obtain ⟨fresh,grows,-,-⟩ := spells
  exact .of_eq (grows.kept k (reaches_pinned (by simp [same]))).2

theorem Intact.setGlobal (intact : m.Intact ∅) {h : Handle} {name : Bytes} {value : Value}
    (found : m.heap.get? h = some (.string name)) (held : m.heap.Holds value) :
    Intact ∅ { m with globals := m.globals.insert h value } :=
  { intact with globals := Poised.sound_insert intact.globals ⟨name,found⟩ held }

/-- What the host does leaves the machine idle. -/
theorem Idle.deed (idle : m.Idle) (deed : m.Deed m') : m.Arranges m' := by
  have intact := idle.intact
  cases deed with
  | collect => exact idle.arranges intact.collect.2 (by simp) rfl rfl rfl intact.collect.1
  | reset =>
    exact idle.arranges (.refl m) (by simp) rfl idle.frames.symm idle.openCells.symm
      (idle.reset .ready).intact
  | define name native =>
    refine after_of_ensures ?_
    rw [Action.defineNative,ensures_bind]
    refine .allocate intact (by simp) fun h mid grows found still => ?_
    have whole := still False ∅ trivial (by simp [Object.references]) subset_rfl False.elim
    refine ensures_setGlobalNamed whole (Heap.holds_object found) fun k last spells text held => ?_
    obtain ⟨fresh,more,intactToo,strings⟩ := spells
    refine idle.arranges (grows.trans more) (fun x new o here => ?_) rfl rfl rfl
      (intactToo.setGlobal text held)
    by_cases late : x ∈ fresh
    · exact .inl (strings x late o here)
    · obtain rfl := new.resolve_right late
      rw [more.old x late o here] at found
      cases found
      exact .inr ⟨_,_,rfl⟩
  | store name held =>
    refine after_of_ensures (ensures_setGlobalNamed intact held fun h mid spells text held => ?_)
    obtain ⟨fresh,grows,intactToo,strings⟩ := spells
    exact idle.arranges grows (fun x new o here => .inl (strings x new o here)) rfl rfl rfl
      (intactToo.setGlobal text held)
  | spell name text =>
    refine after_of_ensures ?_
    rw [ensures_bind]
    refine Native.ensures_newText intact fun k first spells found => ?_
    refine ensures_setGlobalNamed spells.intact (Heap.holds_object found)
      fun h mid more text held => ?_
    obtain ⟨fresh,grows,intactToo,strings⟩ := spells.trans more
    exact idle.arranges grows (fun x new o here => .inl (strings x new o here)) rfl rfl rfl
      (intactToo.setGlobal text held)
  | tables known =>
    have sound (table : Globals) (member : table = ∅ ∨ table ∈ m.globals :: m.shelved) :
        table.Sound m.heap := by
      rcases member with rfl | old
      · intro name value found
        simp at found
      · rcases List.mem_cons.mp old with rfl | shelf
        · exact intact.globals
        · exact intact.shelved table shelf
    exact idle.arranges (.refl m) (by simp) rfl rfl rfl { intact with
      globals := sound _ (known _ List.mem_cons_self)
      shelved := fun table member => sound table (known table (List.mem_cons_of_mem _ member)) }
  | wait output clock => exact idle.arranges (.refl m) (by simp) rfl rfl rfl { intact with }

end Machine

/-! Every stage of a history is good. -/

section

variable {host : Host} {s s' : Stage} {stages : Nat → Stage} {length : Nat}

theorem Stage.good_new (policy : Policy) (clock : Float) :
    Stage.Good ⟨.idle,.new policy clock⟩ := by
  have empty (h : Handle) : (Machine.new policy clock).heap.get? h = none := by
    simp [Machine.new,Heap.empty,Heap.get?]
  refine ⟨⟨Heap.tidy_empty policy,fun h o found => ?_,?_,Heap.holds_nil,?_,fun name value found => ?_,
    ?_,?_,?_⟩,fun h slot opens => ?_,rfl,rfl⟩
  · rw [empty] at found
    contradiction
  · simp [Machine.new]
  · simp [Machine.new]
  · simp [Machine.new] at found
  · simp [Machine.new]
  · simp [Machine.new]
  · simp [Machine.new]
  · rw [Machine.Opens,empty] at opens
    contradiction

theorem Stage.Good.move (good : s.Good) (respectful : host.Respectful) (moves : Moves host s s') :
    s'.Good := by
  cases moves with
  | deed deed => exact (Machine.Idle.deed good deed).idle
  | @start m m' source chunk compiled started =>
    obtain ⟨sound,noParameters,noCaptures⟩ := Source.compile_sound compiled
    obtain ⟨mid,run,starts⟩ := Machine.Idle.start good sound noParameters noCaptures
    rw [run] at started
    cases started
    exact starts.running
  | step stepped =>
    obtain ⟨i,f,-,-,ensures⟩ := Machine.Running.step good respectful
    rw [Ensures,stepped] at ensures
    exact ensures.running
  | finish stepped =>
    obtain ⟨i,f,-,-,ensures⟩ := Machine.Running.step good respectful
    rw [Ensures,stepped] at ensures
    obtain ⟨finished,-⟩ := ensures
    exact ⟨{ finished.intact with },finished.idle.shut,finished.frames,finished.openCells⟩
  | fail stepped =>
    obtain ⟨i,f,-,-,ensures⟩ := Machine.Running.step good respectful
    rw [Ensures,stepped] at ensures
    obtain ⟨⟨raw,intact⟩,celled,inside,guards⟩ := ensures.orderly
    exact ⟨⟨raw,{ intact with }⟩,celled.of_heap rfl rfl,inside,guards⟩

theorem History.good (history : History host length stages) (respectful : host.Respectful) {t : Nat}
    (within : t ≤ length) : (stages t).Good := by
  induction t with
  | zero =>
    obtain ⟨policy,clock,first⟩ := history.begins
    exact first ▸ Stage.good_new policy clock
  | succ t ih =>
    exact (ih (Nat.le_of_succ_le within)).move respectful (history.moves t within)

theorem History.new (host : Host) (policy : Policy) (clock : Float) :
    History host 0 fun _ => ⟨.idle,.new policy clock⟩ :=
  ⟨⟨policy,clock,rfl⟩,fun t within => absurd within (Nat.not_lt_zero t)⟩

/-- A history goes on with any move from its last stage. -/
theorem History.extend (history : History host length stages)
    (moves : Moves host (stages length) s) :
    History host (length + 1) (Function.update stages (length + 1) s) := by
  have early {t : Nat} (before : t ≤ length) :
      Function.update stages (length + 1) s t = stages t :=
    Function.update_of_ne (by omega) s stages
  refine ⟨?_,fun t within => ?_⟩
  · rw [early (Nat.zero_le _)]
    exact history.begins
  · rw [early (by omega)]
    rcases Nat.lt_or_ge t length with before | last
    · rw [early before]
      exact history.moves t before
    · obtain rfl : t = length := by omega
      rwa [Function.update_self]

/-- The number of captures of a closure. -/
def Object.captured? : Object → Option Nat
  | .closure _ captures => some captures.size
  | _ => none

theorem Object.captured?_eq_some {o : Object} {count : Nat} (known : o.captured? = some count) :
    ∃ code captures, o = .closure code captures ∧ captures.size = count := by
  cases o with
  | closure code captures => exact ⟨code,captures,rfl,Option.some_inj.mp known⟩
  | _ => contradiction

/-- A new machine can start a program and take two steps, which make a closure with two captures. -/
theorem History.capturing : ∃ stages m, History .standard 3 stages ∧ stages 3 = ⟨.running,m⟩ ∧
    ∃ h code captures, m.heap.get? h = some (.closure code captures) ∧ captures.size = 2 := by
  let source := Source.ofText (ascii "\x7b var n = nil; fun f() \x7b n = f; \x7d \x7d")
  let begin (chunk : Chunk) : Action Unit := do
    Action.start chunk
    Action.step .standard
    Action.step .standard
  have computed : (source.compile.toOption.bind fun chunk =>
      ((begin chunk).result? (.new .standard 0)).bind fun m =>
        ((m.stack.back?.bind Value.handle?).bind m.heap.get?).bind Object.captured?) = some 2 := by
    decide +kernel
  obtain ⟨chunk,accepted,begins⟩ := Option.bind_eq_some_iff.mp computed
  have compiled := toOption_eq_some.mp accepted
  obtain ⟨m,run,found⟩ := Option.bind_eq_some_iff.mp begins
  obtain ⟨o,found,captured⟩ := Option.bind_eq_some_iff.mp found
  obtain ⟨h,-,here⟩ := Option.bind_eq_some_iff.mp found
  obtain ⟨code,captures,rfl,count⟩ := Object.captured?_eq_some captured
  obtain ⟨_,run⟩ := result?_eq_some.mp run
  obtain ⟨_,m₁,started,run⟩ := bind_ok run
  obtain ⟨_,m₂,first,second⟩ := bind_ok run
  have history := (((History.new .standard .standard 0).extend (.start compiled started)).extend
    (.step first)).extend (.step second)
  exact ⟨_,m,history,Function.update_self ..,h,code,captures,here,count⟩

end

end ScriptMachine
