import Mathlib
import ScriptMachine.Proofs.Rooted

/-! Captured variables over time. Closures that captured the same variable, while it stayed in its
slot, share one cell from then on; closures that captured different variables never share one. -/
namespace ScriptMachine

open ScriptMachine.Action

/-- From one stage to the next, the running frame makes a closure with these captures. -/
structure Stage.Creates (s s' : Stage) (h : Handle) (f : Frame) (list : List Capture) : Prop where
  running : s.phase = .running
  goesOn : s'.phase = .running
  next : ∃ n, s.machine.next? = some (.closure n list)
  frame : f ∈ s.machine.frames.head?
  result : s'.machine.stack.back? = some (.object h)

/-- From one stage to the next, the slot stays on the stack. -/
def Stage.Stays (s s' : Stage) (slot : Nat) : Prop :=
  s.phase = .running ∧ s'.phase = .running ∧ ∃ i f, s.machine.next? = some i ∧
    f ∈ s.machine.frames.head? ∧ slot < s.machine.remains f i

section

variable (stages : Nat → Stage)

/-- The closure that a handle denotes at one time was made at an earlier one. -/
def MadeAt (h : Handle) (t now : Nat) : Prop :=
  t < now ∧ (∃ f list, (stages t).Creates (stages (t + 1)) h f list) ∧
    ∀ u, t < u → u < now → ∀ f list, ¬(stages u).Creates (stages (u + 1)) h f list

/-- A closure made at a time captured the variable that was in a slot at a time `since`: it was a
local of the frame that made the closure, or a variable that the frame's own closure captured. -/
inductive Binds : Nat → Handle → Nat → Nat → Nat → Prop
  | own {t k : Nat} {h : Handle} {f : Frame} {list : List Capture} {c : Capture}
      (creates : (stages t).Creates (stages (t + 1)) h f list) (known : list[k]? = some c)
      (isLocal : c.isLocal) : Binds t h k (f.base + c.index) (t + 1)
  | outer {t u k slot since : Nat} {h : Handle} {f : Frame} {list : List Capture} {c : Capture}
      (creates : (stages t).Creates (stages (t + 1)) h f list) (known : list[k]? = some c)
      (notLocal : ¬c.isLocal) (made : MadeAt stages f.closure u t)
      (binds : Binds u f.closure c.index slot since) : Binds t h k slot since

/-- A capture of a closure that is there now is the variable that was in the slot at a time
`since`. -/
def Captured (now : Nat) (h : Handle) (k : Nat) (cell : Handle) (slot since : Nat) : Prop :=
  ∃ code captures t, (stages now).machine.heap.get? h = some (.closure code captures) ∧
    captures[k]? = some cell ∧ MadeAt stages h t now ∧ Binds stages t h k slot since

end

/-- Open cells stay open while their slots stay on the stack, also when a fault ends the run. When a
slot leaves the stack, its cell keeps the last value. -/
def Stage.Shuts (s s' : Stage) : Prop :=
  ∀ h slot, s.machine.Opens h slot →
    (s.Stays s' slot ∨ s'.phase = .failed →
      s'.machine.Opens h slot ∧ slot < s'.machine.stack.size) ∧
    (¬s.Stays s' slot → s'.phase ≠ .failed → s'.machine.stack.size ≤ slot ∧
      ∃ value, s.machine.stack[slot]? = some value ∧
        s'.machine.heap.get? h = some (.cell (.closed value)))

/-- What becomes of cells and closures from one stage to the next. -/
structure Stage.Turned (s s' : Stage) (fresh : Set Handle) : Prop where
  before : ∀ h slot, s'.machine.Opens h slot → h ∉ fresh → s.machine.Opens h slot
  stays : ∀ h slot, s.machine.Opens h slot → (s'.machine.Opens h slot ↔ s.Stays s' slot)
  leaves : ∀ h slot, s.machine.Opens h slot → ¬s.Stays s' slot → s'.machine.stack.size ≤ slot ∧
    ∃ value, s.machine.stack[slot]? = some value ∧
      s'.machine.heap.get? h = some (.cell (.closed value))
  old : ∀ h code captures, s'.machine.heap.get? h = some (.closure code captures) → h ∉ fresh →
    s.machine.heap.get? h = some (.closure code captures) ∧ ∀ c ∈ captures, c ∉ fresh
  made : ∀ h ∈ fresh, ∀ code captures, s'.machine.heap.get? h = some (.closure code captures) →
    captures.size = 0 ∨ ∃ f list, s.Creates s' h f list
  captured : ∀ h f list, s.Creates s' h f list → ∃ code captures,
    s'.machine.heap.get? h = some (.closure code captures) ∧ captures.size = list.length ∧
      ∀ (k : Nat) (c : Capture), list[k]? = some c →
        ∃ cell, captures[k]? = some cell ∧ s.machine.Captures f c cell s'.machine
  spared : ∀ h f list, s.Creates s' h f list → ∀ code captures,
    s.machine.heap.get? f.closure = some (.closure code captures) → ∀ c ∈ captures, c ∉ fresh

section

variable {s s' : Stage} {host : Host} {m m' : Machine}

theorem Stage.Turned.of_idle {fresh : Set Handle} {rest : Nat} (idle : s.machine.Idle)
    (notRunning : s.phase ≠ .running) (turns : s.machine.Turns rest fresh s'.machine)
    (made : ∀ h ∈ fresh, ∀ code captures,
      s'.machine.heap.get? h = some (.closure code captures) → captures.size = 0) :
    s.Turned s' fresh where
  before := turns.opens
  stays h slot opens := absurd opens (idle.shut h slot)
  leaves h slot opens := absurd opens (idle.shut h slot)
  old := turns.closures
  made h new code captures found := .inl (made h new code captures found)
  captured _ _ _ creates := absurd creates.running notRunning
  spared _ _ _ creates := absurd creates.running notRunning

/-- A new run makes no closure but the one of the script, which captures nothing. -/
theorem Stage.Turned.start {source : Source} {chunk : Chunk} (idle : m.Idle)
    (compiled : source.compile = .ok chunk) (started : Action.start chunk m = .ok () m') :
    ∃ fresh, Stage.Turned ⟨.idle,m⟩ ⟨.running,m'⟩ fresh := by
  obtain ⟨sound,noParameters,noCaptures⟩ := Source.compile_sound compiled
  obtain ⟨mid,run,starts⟩ := Machine.Idle.start idle sound noParameters noCaptures
  rw [run] at started
  cases started
  obtain ⟨fresh,turns,plain⟩ := starts.turns
  refine ⟨fresh,.of_idle idle (by simp) turns fun h new code captures found => ?_⟩
  obtain ⟨closure,constants,-,stack,known⟩ := starts.entry
  have top := plain h new code captures found
  obtain rfl : closure = h := by simpa [stack] using top
  obtain ⟨function,others,here,there⟩ := Machine.functionOf?_some.mp known
  change m'.heap.get? closure = _ at found
  rw [found] at here
  cases here
  obtain ⟨⟨inner,⟨values,thereToo⟩,complete⟩,-⟩ := starts.running.intact.valid closure _ found
  rw [there] at thereToo
  cases thereToo
  rw [complete not_false,noCaptures]

/-- What a stage creates is named by the instruction that is next in its first frame. -/
theorem Stage.Creates.instr {i : Instr} {f g : Frame} {list : List Capture} {h : Handle}
    (creates : Stage.Creates ⟨.running,m⟩ s' h g list) (next : m.next? = some i)
    (head : f ∈ m.frames.head?) : g = f ∧ ∃ n, i = .closure n list := by
  obtain ⟨n,nextToo⟩ := creates.next
  have headToo := creates.frame
  rw [head] at headToo
  rw [next] at nextToo
  cases headToo
  cases nextToo
  exact ⟨rfl,n,rfl⟩

theorem Stage.stays_iff {i : Instr} {f : Frame} {slot : Nat} (next : m.next? = some i)
    (head : f ∈ m.frames.head?) :
    Stage.Stays ⟨.running,m⟩ ⟨.running,m'⟩ slot ↔ slot < m.remains f i := by
  refine ⟨?_,fun low => ⟨rfl,rfl,i,f,next,head,low⟩⟩
  rintro ⟨-,-,j,g,nextToo,headToo,low⟩
  rw [head] at headToo
  rw [next] at nextToo
  cases headToo
  cases nextToo
  exact low

/-- One instruction of a run. -/
theorem Stage.Turned.step (running : m.Running) {i : Instr} {f : Frame} (next : m.next? = some i)
    (head : f ∈ m.frames.head?) (continues : m.Continues i f m') :
    ∃ fresh, Stage.Turned ⟨.running,m⟩ ⟨.running,m'⟩ fresh := by
  obtain ⟨-,⟨fresh,turns,makes⟩,-,-⟩ := continues
  refine ⟨fresh,turns.opens,fun h slot opens => ?_,fun h slot opens high => ?_,turns.closures,
    fun h new code captures found => ?_,fun h g list made => ?_,
    fun h g list made code captures found => ?_⟩
  · rw [Stage.stays_iff next head]
    refine ⟨fun still => ?_,turns.stays h slot opens⟩
    by_contra high
    obtain ⟨-,value,-,closed⟩ := turns.closes h slot opens (Nat.le_of_not_lt high)
    rw [Machine.Opens,closed] at still
    cases still
  · rw [Stage.stays_iff next head] at high
    exact turns.closes h slot opens (Nat.le_of_not_lt high)
  · obtain ⟨⟨n,list,rfl⟩,top⟩ := makes.only h new code captures found
    exact .inr ⟨f,list,rfl,rfl,⟨n,next⟩,head,top⟩
  · obtain ⟨rfl,n,rfl⟩ := made.instr next head
    obtain ⟨k,code,captures,top,found,count,each⟩ := makes.captured n list rfl
    obtain rfl : k = h := by simpa [top] using made.result
    exact ⟨code,captures,found,count,each⟩
  · obtain ⟨rfl,-⟩ := made.instr next head
    have active : g ∈ m.frames := List.mem_of_mem_head? head
    obtain ⟨outside,still⟩ :=
      makes.spared _ code captures ((Machine.Running.orderly running).reached active) found
    exact (turns.closures _ code captures still outside).2

/-- The end of a run closes all cells that are open and makes nothing. -/
theorem Stage.Turned.finish (finished : m'.Finished) (turns : m.Turns 0 ∅ m') :
    Stage.Turned ⟨.running,m⟩ ⟨.idle,(m'.conclude .finished).2⟩ ∅ := by
  have notCreates {h : Handle} {g : Frame} {list : List Capture}
      (creates : Stage.Creates ⟨.running,m⟩ ⟨.idle,(m'.conclude .finished).2⟩ h g list) : False := by
    cases creates.goesOn
  refine ⟨turns.opens,fun h slot opens => ⟨fun still => ?_,fun stays => ?_⟩,
    fun h slot opens _ => turns.closes h slot opens (Nat.zero_le slot),turns.closures,?_,
    fun h g list creates => (notCreates creates).elim,
    fun h g list creates => (notCreates creates).elim⟩
  · exact absurd still (finished.idle.shut h slot)
  · cases stays.2.1
  · simp

theorem Stage.Good.turned (good : s.Good) (respectful : host.Respectful) (moves : Moves host s s')
    (alive : s'.phase ≠ .failed) : ∃ fresh, s.Turned s' fresh := by
  cases moves with
  | deed deed =>
    obtain ⟨-,fresh,turns,plain⟩ := Machine.Idle.deed good deed
    refine ⟨fresh,.of_idle good (by simp) turns fun h new code captures found => ?_⟩
    exact absurd found (plain h new code captures)
  | start compiled started => exact Stage.Turned.start good compiled started
  | step stepped =>
    obtain ⟨i,f,next,head,ensures⟩ := Machine.Running.step good respectful
    exact Stage.Turned.step good next head (ensures.apply stepped)
  | finish stepped =>
    obtain ⟨i,f,-,-,ensures⟩ := Machine.Running.step good respectful
    obtain ⟨finished,turns⟩ := ensures.stopped stepped
    exact ⟨∅,.finish finished turns⟩
  | fail stepped => exact absurd rfl alive

end

theorem Moves.alive {host : Host} {s s' : Stage} (moves : Moves host s s') : s.phase ≠ .failed := by
  cases moves <;> simp

/-! A cell that is followed from the time it was open for a slot. -/
section

variable {host : Host} {length : Nat} {stages : Nat → Stage} {t u now since slot k : Nat}
  {h cell : Handle}

/-- The cell was open for the slot, and it has been the same cell since then. -/
structure Follows (stages : Nat → Stage) (cell : Handle) (slot since now : Nat) : Prop where
  order : since ≤ now
  opens : (stages since).machine.Opens cell slot
  same : ∀ u, since ≤ u → u < now →
    ∀ place, (stages (u + 1)).machine.Opens cell place → (stages u).machine.Opens cell place

/-- A cell that is open now has been open for the same slot. -/
theorem Follows.back (follows : Follows stages cell slot since now) {place : Nat}
    (opens : (stages now).machine.Opens cell place) :
    place = slot ∧ ∀ u, since ≤ u → u ≤ now → (stages u).machine.Opens cell slot := by
  obtain ⟨order,first,same⟩ := follows
  have backwards (d : Nat) (within : since + d ≤ now) :
      (stages (now - d)).machine.Opens cell place := by
    induction d with
    | zero => exact opens
    | succ d ih =>
      refine same (now - (d + 1)) (by omega) (by omega) place ?_
      rw [show now - (d + 1) + 1 = now - d by omega]
      exact ih (by omega)
  have early (u : Nat) (low : since ≤ u) (high : u ≤ now) :
      (stages u).machine.Opens cell place := by
    have := backwards (now - u) (by omega)
    rwa [show now - (now - u) = u by omega] at this
  obtain rfl := first.unique (early since le_rfl order)
  exact ⟨rfl,early⟩

theorem History.alive_before (history : History host length stages) (within : t ≤ length)
    (alive : (stages t).phase ≠ .failed) (before : u ≤ t) : (stages u).phase ≠ .failed := by
  intro failed
  rcases Nat.eq_or_lt_of_le before with rfl | early
  · exact alive failed
  · exact (history.moves u (by omega)).alive failed

/-- A cell is open for as long as its slot stays on the stack. -/
theorem Follows.opens_iff (history : History host length stages) (respectful : host.Respectful)
    (within : now ≤ length) (alive : (stages now).phase ≠ .failed)
    (follows : Follows stages cell slot since now) : (stages now).machine.Opens cell slot ↔
      ∀ u, since ≤ u → u < now → (stages u).Stays (stages (u + 1)) slot := by
  have turned (u : Nat) (before : u < now) :
      ∃ fresh, (stages u).Turned (stages (u + 1)) fresh :=
    (history.good respectful (by omega)).turned respectful (history.moves u (by omega))
      (history.alive_before within alive before)
  constructor
  · intro opens u low high
    obtain ⟨fresh,turned⟩ := turned u high
    have all := (follows.back opens).2
    exact (turned.stays cell slot (all u low (by omega))).mp (all (u + 1) (by omega) high)
  · intro stays
    have forwards (d : Nat) (bound : since + d ≤ now) :
        (stages (since + d)).machine.Opens cell slot := by
      induction d with
      | zero => exact follows.opens
      | succ d ih =>
        obtain ⟨fresh,turned⟩ := turned (since + d) (by omega)
        exact (turned.stays cell slot (ih (by omega))).mpr (stays _ (by omega) (by omega))
    have := forwards (now - since) (by have := follows.order; omega)
    rwa [Nat.add_sub_cancel' follows.order] at this

/-- A closure that was not made just now was there before, with the same cells. -/
theorem Stage.Turned.back {s s' : Stage} {fresh : Set Handle} (turned : s.Turned s' fresh)
    {code : Handle} {captures : Array Handle}
    (found : s'.machine.heap.get? h = some (.closure code captures)) (parts : 0 < captures.size)
    (notMade : ∀ f list, ¬s.Creates s' h f list) :
    s.machine.heap.get? h = some (.closure code captures) ∧ ∀ c ∈ captures, ∀ place,
      s'.machine.Opens c place → s.machine.Opens c place := by
  have old : h ∉ fresh := by
    intro new
    rcases turned.made h new code captures found with none | ⟨f,list,creates⟩
    · omega
    · exact notMade f list creates
  obtain ⟨before,apart⟩ := turned.old h code captures found old
  exact ⟨before,fun c member place opens => turned.before c place opens (apart c member)⟩

variable (history : History host length stages) (respectful : host.Respectful)
  (within : now ≤ length) (alive : (stages now).phase ≠ .failed)

include history respectful within alive

theorem History.turned (before : u < now) : ∃ fresh, (stages u).Turned (stages (u + 1)) fresh :=
  (history.good respectful (by omega)).turned respectful (history.moves u (by omega))
    (history.alive_before within alive before)

/-- A closure and its cells are the same since the closure was made. -/
theorem MadeAt.keeps (made : MadeAt stages h t now) {code : Handle} {captures : Array Handle}
    (found : (stages now).machine.heap.get? h = some (.closure code captures))
    (parts : 0 < captures.size) :
    (stages (t + 1)).machine.heap.get? h = some (.closure code captures) ∧
      ∀ c ∈ captures, ∀ u, t < u → u < now →
        ∀ place, (stages (u + 1)).machine.Opens c place → (stages u).machine.Opens c place := by
  obtain ⟨before,-,notMade⟩ := made
  have back {u : Nat} (late : t < u) (early : u < now)
      (found : (stages (u + 1)).machine.heap.get? h = .some (.closure code captures)) :=
    (history.turned respectful within alive early).elim fun _ turned =>
      turned.back found parts (notMade u late early)
  have there (d : Nat) (bound : t + 1 + d ≤ now) :
      (stages (now - d)).machine.heap.get? h = .some (.closure code captures) := by
    induction d with
    | zero => exact found
    | succ d ih =>
      refine (back (u := now - (d + 1)) (by omega) (by omega) ?_).1
      rw [show now - (d + 1) + 1 = now - d by omega]
      exact ih (by omega)
  have all (u : Nat) (late : t < u) (early : u ≤ now) :
      (stages u).machine.heap.get? h = .some (.closure code captures) := by
    have := there (now - u) (by omega)
    rwa [show now - (now - u) = u by omega] at this
  exact ⟨all (t + 1) (by omega) before,fun c member u late early =>
    (back late early (all (u + 1) (by omega) early)).2 c member⟩

omit within alive in
/-- The cell that a closure has for a captured variable was open for the slot of that variable. -/
theorem Binds.follows (binds : Binds stages t h k slot since) (within : now ≤ length)
    (alive : (stages now).phase ≠ .failed) (made : MadeAt stages h t now) {code : Handle}
    {captures : Array Handle}
    (found : (stages now).machine.heap.get? h = some (.closure code captures))
    (has : captures[k]? = some cell) : Follows stages cell slot since now := by
  induction binds generalizing now code captures cell with
  | @own t k h f list c creates known isLocal =>
    obtain ⟨bound,-⟩ := Array.getElem?_eq_some_iff.mp has
    obtain ⟨there,same⟩ := MadeAt.keeps history respectful within alive made found (by omega)
    obtain ⟨fresh,turned⟩ := history.turned respectful within alive made.1
    obtain ⟨code',captures',thereToo,-,each⟩ := turned.captured h f list creates
    rw [there] at thereToo
    cases thereToo
    obtain ⟨cell',hasToo,captured⟩ := each k c known
    rw [has] at hasToo
    cases hasToo
    rw [Machine.Captures,if_pos isLocal] at captured
    exact ⟨made.1,captured,fun u late early => same cell (Array.mem_of_getElem? has) u late early⟩
  | @outer t u k slot since h f list c creates known notLocal madeOuter binds ih =>
    obtain ⟨bound,-⟩ := Array.getElem?_eq_some_iff.mp has
    have before := made.1
    obtain ⟨there,same⟩ := MadeAt.keeps history respectful within alive made found (by omega)
    obtain ⟨fresh,turned⟩ := history.turned respectful within alive before
    obtain ⟨code',captures',thereToo,-,each⟩ := turned.captured h f list creates
    rw [there] at thereToo
    cases thereToo
    obtain ⟨cell',hasToo,captured⟩ := each k c known
    rw [has] at hasToo
    cases hasToo
    rw [Machine.Captures,if_neg notLocal] at captured
    obtain ⟨inner,others,foundOuter,hasOuter⟩ := captured
    have early := ih (by omega) (history.alive_before within alive (by omega)) madeOuter foundOuter
      hasOuter
    refine ⟨by have := early.order; omega,early.opens,fun v late bound place opens => ?_⟩
    rcases Nat.lt_trichotomy v t with sooner | rfl | later
    · exact early.same v late sooner place opens
    · refine turned.before cell place opens ?_
      exact turned.spared h f list creates inner others foundOuter cell
        (Array.mem_of_getElem? hasOuter)
    · exact same cell (Array.mem_of_getElem? has) v later bound place opens

omit alive within in
/-- Every capture is some variable. -/
theorem History.captured (within : now ≤ length) (alive : (stages now).phase ≠ .failed)
    {code : Handle} {captures : Array Handle}
    (found : (stages now).machine.heap.get? h = some (.closure code captures))
    (has : captures[k]? = some cell) :
    ∃ t slot since, MadeAt stages h t now ∧ Binds stages t h k slot since := by
  induction now generalizing h k code captures cell with
  | zero =>
    obtain ⟨policy,clock,first⟩ := history.begins
    rw [first] at found
    simp [Machine.new,Heap.empty,Heap.get?] at found
  | succ now ih =>
    obtain ⟨fresh,turned⟩ := history.turned respectful within alive (Nat.lt_succ_self now)
    have early : (stages now).phase ≠ .failed := history.alive_before within alive (Nat.le_succ now)
    have bound := (Array.getElem?_eq_some_iff.mp has).1
    by_cases made : ∃ f list, (stages now).Creates (stages (now + 1)) h f list
    · obtain ⟨f,list,creates⟩ := made
      obtain ⟨code',captures',foundToo,count,each⟩ := turned.captured h f list creates
      rw [found] at foundToo
      cases foundToo
      have known := List.getElem?_eq_getElem (count ▸ bound)
      obtain ⟨cell',hasToo,captured⟩ := each k _ known
      have madeNow : MadeAt stages h now (now + 1) :=
        ⟨Nat.lt_succ_self now,⟨f,list,creates⟩,fun u late soon => by omega⟩
      by_cases isLocal : list[k].isLocal
      · exact ⟨now,_,_,madeNow,.own creates known isLocal⟩
      · rw [Machine.Captures,if_neg isLocal] at captured
        obtain ⟨inner,others,foundOuter,hasOuter⟩ := captured
        obtain ⟨u,slot,since,madeOuter,binds⟩ := ih (by omega) early foundOuter hasOuter
        exact ⟨now,slot,since,madeNow,.outer creates known isLocal madeOuter binds⟩
    · have notMade (f : Frame) (list : List Capture) :
          ¬(stages now).Creates (stages (now + 1)) h f list := fun creates => made ⟨f,list,creates⟩
      obtain ⟨before,-⟩ := turned.back found (by omega) notMade
      obtain ⟨t,slot,since,⟨order,creates,later⟩,binds⟩ := ih (by omega) early before has
      refine ⟨t,slot,since,⟨by omega,creates,fun u late soon => ?_⟩,binds⟩
      rcases Nat.lt_succ_iff_lt_or_eq.mp soon with sooner | rfl
      · exact later u late sooner
      · exact notMade

/-- The earlier of two cells that are followed is the later one if and only if its slot is the same
and has stayed on the stack. -/
theorem Follows.same_iff {slot' since' : Nat} {cell' : Handle}
    (first : Follows stages cell slot since now) (second : Follows stages cell' slot' since' now)
    (order : since ≤ since') : cell = cell' ↔
      slot = slot' ∧ ∀ u, since ≤ u → u < since' → (stages u).Stays (stages (u + 1)) slot := by
  have before := second.order
  have aliveThen := history.alive_before within alive before
  have until' : Follows stages cell slot since since' :=
    ⟨order,first.opens,fun u late soon => first.same u late (by omega)⟩
  have iff := until'.opens_iff history respectful (by omega) aliveThen
  constructor
  · rintro rfl
    obtain ⟨rfl,opens⟩ := until'.back second.opens
    exact ⟨rfl,iff.mp second.opens⟩
  · rintro ⟨rfl,stays⟩
    have celled := (history.good respectful (t := since') (by omega)).orderly.celled
    exact celled.unique (iff.mpr stays) second.opens

omit history within alive in
/-- What becomes of the open cells from one stage to the next. -/
theorem Stage.Good.shuts {s s' : Stage} (good : s.Good) (moves : Moves host s s') : s.Shuts s' := by
  have goodToo := good.move respectful moves
  intro h slot opens
  by_cases failed : s'.phase = .failed
  · refine ⟨fun _ => ?_,fun _ alive => absurd failed alive⟩
    cases moves with
    | fail stepped =>
      obtain ⟨i,f,-,-,ensures⟩ := Machine.Running.step good respectful
      have faults := ensures.stopped stepped
      have still := (faults.opens h slot).mpr opens
      exact ⟨still,(goodToo.orderly.inside h slot still).2⟩
    | _ => cases failed
  · obtain ⟨fresh,turned⟩ := good.turned respectful moves failed
    refine ⟨fun stays => ?_,fun leaves _ => turned.leaves h slot opens leaves⟩
    have still := (turned.stays h slot opens).mpr (stays.resolve_right failed)
    exact ⟨still,(goodToo.orderly.inside h slot still).2⟩

end

/-- Whatever was done with a machine before, as long as no run has failed: every open cell is listed
and has a slot of its own on the stack; it is closed when that slot leaves the stack, and keeps the
slot's last value. Two captures of closures have the same cell if and only if they are the same
variable in the same slot, which has been on the stack in between. A run that ends leaves no cell
open. -/
theorem History.captured_variables {host : Host} {length : Nat} {stages : Nat → Stage}
    (history : History host length stages) (respectful : host.Respectful) :
    (∀ t ≤ length, ∀ m, (stages t).Passes m → m.Celled ∧
      ∀ h slot, m.Opens h slot → 1 ≤ slot ∧ slot < m.stack.size) ∧
    (∀ t < length, (stages t).Shuts (stages (t + 1))) ∧
    (∀ now ≤ length, (stages now).phase ≠ .failed →
      (∀ h code captures k cell,
        (stages now).machine.heap.get? h = some (.closure code captures) →
        captures[k]? = some cell → ∃ slot since, Captured stages now h k cell slot since) ∧
      ∀ h k cell slot since h' k' cell' slot' since', Captured stages now h k cell slot since →
        Captured stages now h' k' cell' slot' since' → (cell = cell' ↔ slot = slot' ∧
          ∀ u, min since since' ≤ u → u < max since since' →
            (stages u).Stays (stages (u + 1)) slot)) ∧
    ∀ t ≤ length, (stages t).phase = .idle →
      (stages t).machine.openCells = [] ∧ ∀ h slot, ¬(stages t).machine.Opens h slot := by
  refine ⟨fun t within m passes => ?_,fun t within => ?_,fun now within alive => ⟨?_,?_⟩,
    fun t within idle => ?_⟩
  · have orderly := (history.good respectful within).passes passes
    exact ⟨orderly.celled,orderly.inside⟩
  · exact (history.good respectful (Nat.le_of_lt within)).shuts respectful (history.moves t within)
  · intro h code captures k cell found has
    obtain ⟨t,slot,since,made,binds⟩ := history.captured respectful within alive found has
    exact ⟨slot,since,code,captures,t,found,has,made,binds⟩
  · rintro h k cell slot since h' k' cell' slot' since' ⟨code,captures,t,found,has,made,binds⟩
      ⟨code',captures',t',found',has',made',binds'⟩
    have first := binds.follows history respectful within alive made found has
    have second := binds'.follows history respectful within alive made' found' has'
    rcases Nat.le_total since since' with order | order
    · rw [Nat.min_eq_left order,Nat.max_eq_right order]
      exact first.same_iff history respectful within alive second order
    · rw [Nat.min_eq_right order,Nat.max_eq_left order,eq_comm,
        second.same_iff history respectful within alive first order,eq_comm (a := slot')]
      refine and_congr_right fun same => ?_
      rw [same]
  · have good := history.good respectful within
    generalize stages t = s at idle good
    obtain ⟨_,m⟩ := s
    subst idle
    exact ⟨Machine.Idle.openCells good,Machine.Idle.shut good⟩

/-- The first capture of a closure that has just been made is some variable. -/
theorem History.captured_variables_capturing : ∃ stages h cell slot since,
    History .standard 3 stages ∧ Captured stages 3 h 0 cell slot since := by
  obtain ⟨stages,m,history,last,h,code,captures,found,count⟩ := History.capturing
  obtain ⟨-,-,shared,-⟩ := history.captured_variables Host.standard_respectful
  have has := Array.getElem?_eq_getElem (show 0 < captures.size by omega)
  obtain ⟨each,-⟩ := shared 3 le_rfl (by simp [last])
  obtain ⟨slot,since,captured⟩ := each h code captures 0 _ (last ▸ found) has
  exact ⟨stages,h,_,slot,since,history,captured⟩

end ScriptMachine
