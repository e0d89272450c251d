import Mathlib
import ScriptMachine.Proofs.Blindness
import ScriptMachine.Proofs.Histories

/-! Collections cannot be noticed. A program that is run on two machines with the same globals does
the same on both of them, however often and at whatever moments they collect: it writes the same, and
it ends with values that look the same or with the same error. -/
namespace ScriptMachine

open ScriptMachine.Action

/-! Loading. No frame is active, so the functions that are being loaded need only be listed. -/

namespace Machine

variable {p q r : Pairing} {m n m' n' mid mid' : Machine} {h k : Handle}

/-- A function and its partner that are being loaded. -/
structure Listed (p : Pairing) (m n : Machine) (h k : Handle) : Prop where
  paired : p h k
  listed : h ∈ m.loading
  listedToo : k ∈ n.loading
  function : ∃ chunk constants, m.heap.get? h = some (.function chunk constants)

/-- Twins after something has been loaded on both sides. -/
structure Loaded (p q : Pairing) (m n m' n' : Machine) : Prop where
  twin : m'.Twin q n'
  frames : m'.frames = []
  framesToo : n'.frames = []
  kept : ∀ h k, Listed p m n h k → Listed q m' n' h k

theorem Guarded.of_frames (frames : m.frames = []) : m.Guarded := by
  intro f member
  rw [frames] at member
  contradiction

theorem Loaded.refl (twin : m.Twin p n) (frames : m.frames = []) (framesToo : n.frames = []) :
    Loaded p p m n m n :=
  ⟨twin,frames,framesToo,fun _ _ => id⟩

theorem Loaded.trans (first : Loaded p q m n mid mid') (second : Loaded q r mid mid' m' n') :
    Loaded p r m n m' n' :=
  ⟨second.twin,second.frames,second.framesToo,fun h k before => second.kept h k (first.kept h k before)⟩

theorem Grown.loaded (grown : Grown p q m n m' n') (frames : m.frames = [])
    (framesToo : n.frames = []) : Loaded p q m n m' n' where
  twin := grown.twin
  frames := by rw [grown.same]; exact frames
  framesToo := by rw [grown.sameToo]; exact framesToo
  kept h k before := by
    obtain ⟨paired,same,-⟩ := grown.kept h k before.paired (reaches_loading before.listed)
      (reaches_loading before.listedToo)
    obtain ⟨chunk,constants,found⟩ := before.function
    refine ⟨paired,?_,?_,chunk,constants,same.trans found⟩
    · rw [grown.same]; exact before.listed
    · rw [grown.sameToo]; exact before.listedToo

/-- Both functions may get another constant. -/
theorem Loaded.addConstant {v w : Value} (twin : m.Twin p n) (frames : m.frames = [])
    (framesToo : n.frames = []) (before : Listed p m n h k) (alike : v.Twin p w) :
    Loaded p p m n { m with heap := m.heap.update h (Action.addConstant v) }
      { n with heap := n.heap.update k (Action.addConstant w) } := by
  obtain ⟨chunk,constants,found⟩ := before.function
  obtain ⟨_,o,here,foundToo,twins⟩ := twin.heap.objects h k before.paired
  obtain rfl : Object.function chunk constants = _ := Option.some_inj.mp (found.symm.trans here)
  refine ⟨twin.update before.paired found foundToo (by simp) (by simp [Action.addConstant]) ?_,frames,
    framesToo,fun a b other => ⟨other.paired,other.listed,other.listedToo,?_⟩⟩
  · rintro (_ | ⟨_,constants⟩)
    exact .function chunk (constants.push alike)
  · obtain ⟨code,values,there⟩ := other.function
    change ∃ code values, (m.heap.update h _).get? a = some (.function code values)
    rw [Heap.get?_update]
    split
    next same => exact ⟨code,values.push v,by simp [← same,there,Action.addConstant]⟩
    next => exact ⟨code,values,there⟩

/-- The functions to be loaded start without constants. -/
theorem Twin.allocateFunction {ok : Handle → Handle → Machine → Machine → Prop} (twin : m.Twin p n)
    (frames : m.frames = []) (framesToo : n.frames = []) (chunk : Chunk)
    (next : ∀ q h k m' n',
      Loaded p q m n { m' with loading := h :: m'.loading } { n' with loading := k :: n'.loading } →
      Listed q { m' with loading := h :: m'.loading } { n' with loading := k :: n'.loading } h k →
      ok h k m' n') :
    Together (Action.allocateFunction chunk) (Action.allocateFunction chunk) m n ok := by
  refine twin.allocate (.of_frames frames) (.of_frames framesToo) (by simp)
    (.function chunk (.empty)) (by simp [Object.references]) (by simp [Object.references]) _ _
    fun q h k m' n' grown new found foundToo => ?_
  have loaded := grown.loaded frames framesToo
  refine next q h k m' n' ⟨{ loaded.twin with loading := .cons new loaded.twin.loading },
    loaded.frames,loaded.framesToo,fun a b before => ?_⟩
    ⟨new,List.mem_cons_self,List.mem_cons_self,_,_,found⟩
  obtain ⟨paired,listed,listedToo,function⟩ := loaded.kept a b before
  exact ⟨paired,List.mem_cons_of_mem _ listed,List.mem_cons_of_mem _ listedToo,function⟩

end Machine

open Machine

mutual

theorem together_load : ∀ (chunk : Chunk) {p : Pairing} {m n : Machine}
    {ok : Handle → Handle → Machine → Machine → Prop}, m.Twin p n → m.frames = [] → n.frames = [] →
    (∀ q h k m' n', Loaded p q m n m' n' → Listed q m' n' h k → ok h k m' n') →
    Together (load chunk) (load chunk) m n ok
  | ⟨name,parameterCount,captureCount,code,lines,constants⟩,p,m,n,ok,twin,frames,framesToo,next => by
    rw [load]
    refine .bind (twin.allocateFunction frames framesToo _ fun q h k m' n' loaded listed =>
      .bind (.modify (.bind ?_)))
    refine together_loadConstants constants loaded.twin loaded.frames loaded.framesToo listed
      fun r m' n' more listed => ?_
    exact .pure (next r h k m' n' (loaded.trans more) listed)

theorem together_loadConstants : ∀ (constants : List (Constant Chunk)) {p : Pairing} {m n : Machine}
    {h k : Handle} {ok : Unit → Unit → Machine → Machine → Prop}, m.Twin p n → m.frames = [] →
    n.frames = [] → Listed p m n h k →
    (∀ q m' n', Loaded p q m n m' n' → Listed q m' n' h k → ok () () m' n') →
    Together (loadConstants h constants) (loadConstants k constants) m n ok
  | [],p,m,n,h,k,ok,twin,frames,framesToo,listed,next => by
    rw [loadConstants,loadConstants]
    exact .pure (next p m n (.refl twin frames framesToo) listed)
  | c :: rest,p,m,n,h,k,ok,twin,frames,framesToo,listed,next => by
    rw [loadConstants,loadConstants]
    refine .bind (together_loadConstant c twin frames framesToo fun q v w m' n' loaded alike =>
      .bind (.modify ?_))
    have still := loaded.kept h k listed
    have added := Loaded.addConstant loaded.twin loaded.frames loaded.framesToo still alike
    exact together_loadConstants rest added.twin added.frames added.framesToo (added.kept h k still)
      fun r m' n' more listed => next r m' n' ((loaded.trans added).trans more) listed

theorem together_loadConstant : ∀ (c : Constant Chunk) {p : Pairing} {m n : Machine}
    {ok : Value → Value → Machine → Machine → Prop}, m.Twin p n → m.frames = [] → n.frames = [] →
    (∀ q v w m' n', Loaded p q m n m' n' → v.Twin q w → ok v w m' n') →
    Together (loadConstant c) (loadConstant c) m n ok
  | .number a,p,m,n,ok,twin,frames,framesToo,next => by
    rw [loadConstant]
    exact .pure (next p _ _ m n (.refl twin frames framesToo) (.number a))
  | .string text,p,m,n,ok,twin,frames,framesToo,next => by
    rw [loadConstant]
    exact .bind (twin.allocateString (.of_frames frames) (.of_frames framesToo) text
      fun q h k m' n' grown new =>
        .pure (next q _ _ m' n' (grown.loaded frames framesToo) (.object new)))
  | .function chunk,p,m,n,ok,twin,frames,framesToo,next => by
    rw [loadConstant]
    exact .bind (together_load chunk twin frames framesToo fun q h k m' n' loaded listed =>
      .pure (next q _ _ m' n' loaded (.object listed.paired)))

end

namespace Machine

variable {p : Pairing} {m n m' n' : Machine} {host : Host}

theorem Twin.reset (twin : m.Twin p n) (status : Status) :
    Machine.Twin p { m.reset with status } { n.reset with status } :=
  { twin with
    stack := .empty
    frames := .nil
    openCells := .nil
    loading := .nil
    result := .nil
    status := rfl }

/-- A program starts alike on machines that are alike. -/
theorem Twin.start (twin : m.Twin p n) (chunk : Chunk) :
    Together (Action.start chunk) (Action.start chunk) m n Aligned := by
  refine .bind (.modify (.bind ?_))
  refine together_load chunk (twin.reset .running) rfl rfl fun q h k m' n' loaded listed =>
    .bind (.bind (loaded.twin.object listed.paired fun o o' found foundToo alike => ?_))
  cases alike with
  | function code constants =>
    refine loaded.twin.allocate (.of_frames loaded.frames) (.of_frames loaded.framesToo) (by simp)
      (.closure listed.paired .empty) ?_ ?_ _ _ fun r a b m' n' grown new _ _ => ?_
    · simpa [Object.references] using reaches_loading listed.listed
    · simpa [Object.references] using reaches_loading listed.listedToo
    · refine .bind (grown.twin.push (.object new) fun twin => .bind (.modify ?_))
      have cleared : Machine.Twin r
          { m' with stack := m'.stack.push (.object a), loading := [] }
          { n' with stack := n'.stack.push (.object b), loading := [] } :=
        { twin with loading := .nil }
      exact cleared.callClosure new 0
  | _ => exact loaded.twin.stuck

end Machine

/-! Running. -/

theorem Poised.guarded {m : Machine} {s : Scene} {i : Instr} (poised : Poised m s i) : m.Guarded :=
  fun _ member => Array.mem_of_getElem? (poised.guard member).2.2.1

namespace Machine

variable {m n m' n' : Machine} {host : Host}

/-- One step of two machines that are alike. -/
theorem Alike.step (alike : m.Alike n) (running : m.Running) (runningToo : n.Running)
    (blind : ∀ native, m.Calls native → host.Blind native) :
    Together (Action.step host) (Action.step host) m n Aligned := by
  obtain ⟨p,twin⟩ := alike
  obtain ⟨s,i,next,-,fetched,poised⟩ := running.fetch
  obtain ⟨s',i',-,-,fetchedToo,poisedToo⟩ := runningToo.fetch
  have both : Together Action.fetch Action.fetch m n fun i j m' n' => i = j ∧ m'.Twin p n' :=
    twin.fetch fun i m' n' twin => ⟨rfl,twin⟩
  rw [Together,fetched,fetchedToo] at both
  obtain ⟨rfl,twin⟩ := both
  refine .bind (.of_ok fetched fetchedToo
    (twin.execute poised.guarded poisedToo.guarded i fun count same h name native found here => ?_))
  exact blind native ⟨count,h,name,same ▸ next,found,here⟩

/-- The machine comes to another one in some steps. -/
def Leads (host : Host) : Machine → Machine → Prop :=
  Relation.ReflTransGen fun m m' => Action.step host m = .ok () m'

/-- The runs came to the same: to values that look the same, to the same error, or to no end yet. -/
inductive Agrees (m n : Machine) : Outcome → Outcome → Prop
  | value {v w : Value} (text : m.heap.text v = n.heap.text w)
      (type : m.heap.typeName v = n.heap.typeName w) : Agrees m n (.value v) (.value w)
  | error (e : RuntimeError) : Agrees m n (.error e) (.error e)
  | unfinished : Agrees m n .unfinished .unfinished

/-- Two runs that cannot be told apart. -/
structure Indistinct (a b : Outcome × Machine) : Prop where
  output : a.2.output = b.2.output
  outcome : Agrees a.2 b.2 a.1 b.1
  alike : a.2.Alike b.2

theorem Alike.output (alike : m.Alike n) : m.output = n.output := by
  obtain ⟨p,twin⟩ := alike
  exact twin.output

/-- Both machines stop for the same reason. -/
theorem Alike.conclude (alike : m.Alike n) {stop : Stop} (notStuck : stop ≠ .stuck) :
    Indistinct (m.conclude stop) (n.conclude stop) := by
  obtain ⟨p,twin⟩ := alike
  cases stop with
  | stuck => contradiction
  | fault error => exact ⟨twin.output,.error error,p,{ twin with status := rfl }⟩
  | finished =>
    exact ⟨twin.output,.value (twin.heap.text twin.result) (twin.heap.typeName twin.result),p,
      { twin with status := rfl }⟩

/-- What one step preserves, a whole run preserves. -/
theorem Alike.resumeWith (respectful : host.Respectful) (fuel : Nat) : ∀ {m n : Machine},
    m.Alike n → m.Running → n.Running →
    (∀ mid native, m.Leads host mid → mid.Calls native → host.Blind native) →
    Indistinct (m.resumeWith host fuel) (n.resumeWith host fuel) := by
  induction fuel with
  | zero =>
    intro m n alike _ _ _
    exact ⟨alike.output,.unfinished,alike⟩
  | succ fuel ih =>
    intro m n alike running runningToo blind
    have both := alike.step running runningToo fun native => blind m native .refl
    obtain ⟨_,_,-,-,ensures⟩ := running.step respectful
    obtain ⟨_,_,-,-,ensuresToo⟩ := runningToo.step respectful
    rcases both.cases with ⟨_,m',_,n',here,there,alike⟩ | ⟨stop,m',n',here,there,alike⟩
    · rw [resumeWith_ok here,resumeWith_ok there]
      exact ih alike (ensures.apply here).running (ensuresToo.apply there).running
        fun mid native leads => blind mid native (.head here leads)
    · rw [resumeWith_error here,resumeWith_error there]
      apply alike.conclude
      rintro rfl
      exact ensures.stopped here

/-- Programs do not notice collections: on two machines that are alike, a program writes the same and
comes to the same, as long as the native functions that it calls cannot tell twins apart. -/
theorem Idle.executeWith_indistinct {source : Source} {chunk : Chunk}
    (compiled : source.compile = .ok chunk) (respectful : host.Respectful) (idle : m.Idle)
    (idleToo : n.Idle) (alike : m.Alike n)
    (blind : ∀ first mid native, Action.start chunk m = .ok () first → first.Leads host mid →
      mid.Calls native → host.Blind native) (fuel : Nat) :
    Indistinct (m.executeWith host fuel chunk) (n.executeWith host fuel chunk) := by
  obtain ⟨sound,noParameters,noCaptures⟩ := Source.compile_sound compiled
  obtain ⟨m',here,started⟩ := idle.start sound noParameters noCaptures
  obtain ⟨n',there,startedToo⟩ := idleToo.start sound noParameters noCaptures
  obtain ⟨p,twin⟩ := alike
  have both := twin.start chunk
  rw [Together,here,there] at both
  rw [executeWith_ok here,executeWith_ok there]
  exact Alike.resumeWith respectful fuel both started.running startedToo.running
    fun mid native leads => blind m' mid native here leads

/-! Machines that are alike. -/

/-- Two machines that were made and furnished in the same way, but for policies and clocks. -/
inductive Furnished : Machine → Machine → Prop
  | new (policy policy' : Policy) (clock clock' : Float) :
      Furnished (.new policy clock) (.new policy' clock')
  | define {m n : Machine} (before : Furnished m n) (name : Bytes) (native : Native) :
      Furnished (m.defineNative name native) (n.defineNative name native)
  | store {m n : Machine} (before : Furnished m n) (name : Bytes) {v : Value}
      (scalar : v.handle? = none) :
      Furnished (m.after (setGlobalNamed name v)) (n.after (setGlobalNamed name v))
  | spell {m n : Machine} (before : Furnished m n) (name text : Bytes) :
      Furnished (m.after do
        let h ← allocateString text
        setGlobalNamed name (.object h)) (n.after do
        let h ← allocateString text
        setGlobalNamed name (.object h))

theorem alike_new (policy policy' : Policy) (clock clock' : Float) :
    (Machine.new policy clock).Alike (.new policy' clock') := by
  refine ⟨fun _ _ => False,⟨⟨fun _ _ _ => False.elim,fun _ _ _ => False.elim⟩,
    Heap.tidy_empty policy,Heap.tidy_empty policy',fun _ _ => False.elim⟩,.empty,.nil,.nil,.nil,.nil,
    .nil,rfl,⟨fun h v found => ?_,fun k w found => ?_⟩,.nil,rfl,rfl⟩
  · simp [Machine.new] at found
  · simp [Machine.new] at found

theorem Alike.after {α β : Type} {x : Action α} {y : Action β}
    (together : Together x y m n fun _ _ m' n' => m'.Alike n') :
    (m.after x).Alike (n.after y) := by
  rcases together.cases with ⟨_,m',_,n',here,there,alike⟩ | ⟨_,m',n',here,there,alike⟩
  · rwa [after_ok here,after_ok there]
  · rwa [after_error here,after_error there]

/-- Machines that were furnished in the same way are idle, and they are alike. -/
theorem Furnished.spec (furnished : Furnished m n) : m.Idle ∧ n.Idle ∧ m.Alike n := by
  induction furnished with
  | new policy policy' clock clock' =>
    exact ⟨Stage.good_new policy clock,Stage.good_new policy' clock',alike_new ..⟩
  | define _ name native ih =>
    obtain ⟨idle,idleToo,p,twin⟩ := ih
    refine ⟨(idle.deed (.define name native)).idle,(idleToo.deed (.define name native)).idle,
      .after (.bind ?_)⟩
    refine twin.allocate (.of_frames idle.frames) (.of_frames idleToo.frames) (by simp)
      (.native name native) (by simp [Object.references]) (by simp [Object.references]) _ _
      fun q h k m' n' grown new _ _ => ?_
    have fit : Native.Fit q m' n' := ⟨grown.twin,
      (Guarded.of_frames idle.frames).of_same grown.same,
      (Guarded.of_frames idleToo.frames).of_same grown.sameToo⟩
    exact fit.setGlobalNamed name (.object new)
  | @store m n _ name v scalar ih =>
    obtain ⟨idle,idleToo,p,twin⟩ := ih
    have fit : Native.Fit p m n := ⟨twin,.of_frames idle.frames,.of_frames idleToo.frames⟩
    have holds (heap : Heap) : heap.Holds v := by
      rintro h rfl
      contradiction
    have alike : v.Twin p v := by
      cases v with
      | number a => exact .number a
      | bool b => exact .bool b
      | nil => exact .nil
      | object h => contradiction
    exact ⟨(idle.deed (.store name (holds m.heap))).idle,
      (idleToo.deed (.store name (holds n.heap))).idle,.after (fit.setGlobalNamed name alike)⟩
  | spell _ name text ih =>
    obtain ⟨idle,idleToo,p,twin⟩ := ih
    have fit : Native.Fit p _ _ := ⟨twin,.of_frames idle.frames,.of_frames idleToo.frames⟩
    exact ⟨(idle.deed (.spell name text)).idle,(idleToo.deed (.spell name text)).idle,
      .after (.bind (fit.allocateString text fun q h k m' n' fit new _ =>
        fit.setGlobalNamed name (.object new)))⟩

/-- One machine never collects, and another one does at every allocation. The program sees nothing of
it. -/
theorem Idle.executeWith_indistinct_stressed : ∃ chunk,
    (Source.ofText (ascii "var s = \"a\"; fun f(t) \x7b s = s + t; return s; \x7d
      print f(\"b\") + str(f); f(\"c\");")).compile = .ok chunk ∧
    let calm := (Machine.new .standard 0).defineBuiltins.executeWith .secluded 100 chunk
    let busy := (Machine.new ⟨0,1,true⟩ 7).defineBuiltins.executeWith .secluded 100 chunk
    Indistinct calm busy ∧ calm.2.output.toList = ascii "ab<fn f>\n" ∧
      calm.2.heap.collections = 0 ∧ 0 < busy.2.heap.collections := by
  have computed : ((Source.ofText (ascii "var s = \"a\"; fun f(t) \x7b s = s + t; return s; \x7d
      print f(\"b\") + str(f); f(\"c\");")).compile.toOption.any fun chunk =>
      let calm := (Machine.new .standard 0).defineBuiltins.executeWith .secluded 100 chunk
      let busy := (Machine.new ⟨0,1,true⟩ 7).defineBuiltins.executeWith .secluded 100 chunk
      calm.2.output.toList = ascii "ab<fn f>\n" ∧ calm.2.heap.collections = 0 ∧
        0 < busy.2.heap.collections) = true := by decide +kernel
  obtain ⟨chunk,accepted,holds⟩ := (Option.any_eq_true _ _).mp computed
  have compiled := toOption_eq_some.mp accepted
  obtain ⟨idle,idleToo,alike⟩ := ((Furnished.new .standard ⟨0,1,true⟩ 0 7).define (ascii "str")
    .str |>.define (ascii "clock") .clock).spec
  exact ⟨chunk,compiled,Idle.executeWith_indistinct compiled Host.secluded_respectful idle idleToo
    alike (fun _ _ native _ _ _ => Host.secluded_blind native) 100,of_decide_eq_true holds⟩

end Machine

end ScriptMachine
