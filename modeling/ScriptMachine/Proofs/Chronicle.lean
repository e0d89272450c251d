import Mathlib
import ScriptMachine.Proofs.Ledger

/-! The life of a machine with its tables of globals, next to what a host and its programs stored in
them. Whatever happens, and whether programs fail or not, each table shows what was stored last. -/
namespace ScriptMachine

open ScriptMachine.Action

/-! What happens. -/

/-- A machine with a ledger for each table of globals, that of the table in use first. -/
structure Page where
  machine : Machine
  books : List Ledger

inductive Event where
  | collect
  | reset
  | wait
  | allocate (text : Bytes)
  | set (name : Bytes) (value : Value)
  | define (name : Bytes) (native : Native)
  | arrange
  | start (chunk : Chunk)
  | step

namespace Page

variable (page : Page)

def tables : List Globals :=
  page.machine.globals :: page.machine.shelved

/-- Something is stored in the table in use. -/
def store (name : Bytes) (value : Value) (machine : Machine) : Page where
  machine
  books := page.books.modifyHead fun ledger => ledger.store name value

/-- What the next instruction stores, if it stores something. -/
def enter (machine : Machine) : Page :=
  match page.machine.entry? with
  | some (name,value) => page.store name value machine
  | none => { page with machine }

@[simp]
theorem enter_machine (machine : Machine) : (page.enter machine).machine = machine := by
  rw [enter]
  split <;> rfl

end Page

/-- What a host does, with programs that may call its native functions. Any program may start at any
time, and a run may end with a fault. -/
inductive Happens (host : Host) (page : Page) : Event → Page → Prop
  | collect : Happens host page .collect { page with machine := page.machine.collect }
  | reset : Happens host page .reset { page with machine := page.machine.reset }
  | wait (output : Array UInt8) (clock : Float) :
      Happens host page .wait { page with machine := { page.machine with output, clock } }
  | allocate (text : Bytes) : Happens host page (.allocate text)
      { page with machine := page.machine.after (allocateString text) }
  | set (name : Bytes) {value : Value} (held : page.machine.heap.Holds value) :
      Happens host page (.set name value)
        (page.store name value (page.machine.after (setGlobalNamed name value)))
  | define (name : Bytes) (native : Native) {h : Handle} {mid : Machine}
      (made : allocateNative name native page.machine = .ok h mid) :
      Happens host page (.define name native)
        (page.store name (.object h) (page.machine.defineNative name native))
  | arrange {globals : Globals} {shelved : List Globals} {books : List Ledger}
      (known : List.Forall₂ (fun ledger table => (ledger = .empty ∧ table = ∅) ∨
        (ledger,table) ∈ page.books.zip page.tables) books (globals :: shelved)) :
      Happens host page .arrange ⟨{ page.machine with globals, shelved },books⟩
  | start {chunk : Chunk} {m : Machine} (started : Action.start chunk page.machine = .ok () m) :
      Happens host page (.start chunk) { page with machine := m }
  | refuse {chunk : Chunk} {stop : Stop} {m : Machine}
      (stopped : Action.start chunk page.machine = .error stop m) :
      Happens host page (.start chunk) { page with machine := (m.conclude stop).2 }
  | step {m : Machine} (stepped : Action.step host page.machine = .ok () m) :
      Happens host page .step (page.enter m)
  | stop {stop : Stop} {m : Machine} (stopped : Action.step host page.machine = .error stop m) :
      Happens host page .step { page with machine := (m.conclude stop).2 }

/-- All that happens to a machine from the moment it is made. -/
structure Chronicle (host : Host) (length : Nat) (events : Nat → Event) (pages : Nat → Page) :
    Prop where
  begins : ∃ policy clock, pages 0 = ⟨.new policy clock,[.empty]⟩
  happens : ∀ t < length, Happens host (pages t) (events t) (pages (t + 1))

/-- The books agree with the tables. -/
structure Page.Balanced (page : Page) : Prop where
  alive : page.machine.Alive
  agree : List.Forall₂ (fun ledger table => ledger.Describes page.machine.heap table) page.books
    page.tables

/-- The next page is balanced too, and whatever a table held is still there. -/
structure Page.Turns (page next : Page) : Prop where
  balanced : next.Balanced
  stored : ∀ table ∈ page.tables, ∀ h ∈ table.handles,
    page.machine.heap.Outlasts next.machine.heap h

theorem forall₂_of_mem {α β : Type} {p q : α → β → Prop} {xs : List α} {ys : List β}
    (all : List.Forall₂ p xs ys) (more : ∀ x, ∀ y ∈ ys, p x y → q x y) : List.Forall₂ q xs ys :=
  List.forall₂_iff_zip.mpr ⟨all.length_eq,fun member =>
    more _ _ (List.of_mem_zip member).2 ((List.forall₂_iff_zip.mp all).2 member)⟩

namespace Page.Balanced

variable {page next : Page} {event : Event} {m : Machine}

theorem new (policy : Policy) (clock : Float) : Balanced ⟨.new policy clock,[.empty]⟩ := by
  have empty (h : Handle) : (Machine.new policy clock).heap.get? h = none := by
    simp [Machine.new,Heap.empty,Heap.get?]
  refine ⟨⟨Heap.tidy_empty policy,fun h o found => ?_,fun h o found => ?_,?_,Heap.holds_nil,?_,
    fun name value found => ?_,?_,?_,?_⟩,.cons (.empty _) .nil⟩
  · rw [empty] at found
    contradiction
  · rw [empty] at found
    contradiction
  · simp [Machine.new]
  · simp [Machine.new]
  · simp [Machine.new] at found
  · simp [Machine.new]
  · simp [Machine.new]
  · simp [Machine.new]

theorem keeps (balanced : page.Balanced) (alive : m.Alive) (keeps : page.machine.Keeps m) :
    page.Turns { page with machine := m } := by
  refine ⟨⟨alive,?_⟩,keeps.stored⟩
  have same : tables ⟨m,page.books⟩ = page.tables := by
    rw [tables,keeps.globals,keeps.shelved,tables]
  exact same ▸ forall₂_of_mem balanced.agree fun ledger table member describes =>
    describes.later (balanced.alive.tables member) (keeps.stored table member)

theorem enters (balanced : page.Balanced) (alive : m.Alive) {name : Bytes} {value : Value}
    (enters : page.machine.Enters name value m) : page.Turns (page.store name value m) := by
  refine ⟨⟨alive,?_⟩,enters.stored⟩
  have later {ledger : Ledger} {table : Globals} (member : table ∈ page.tables)
      (describes : ledger.Describes page.machine.heap table) : ledger.Describes m.heap table :=
    describes.later (balanced.alive.tables member) (enters.stored table member)
  obtain ⟨h,found,inserted⟩ := enters.named
  obtain ⟨ledger,books,first,rest,same⟩ := List.forall₂_cons_right_iff.mp balanced.agree
  rw [store,tables,inserted,enters.shelved,same]
  refine .cons ((later List.mem_cons_self first).insert alive.tidy found value) ?_
  exact forall₂_of_mem rest fun other table member => later (List.mem_cons_of_mem _ member)

theorem conclude (turns : page.Turns { page with machine := m }) (stop : Stop) :
    page.Turns { page with machine := (m.conclude stop).2 } := by
  cases stop with
  | stuck => exact turns
  | finished | fault error => exact ⟨⟨{ turns.balanced.alive with },turns.balanced.agree⟩,turns.stored⟩

/-- Tables may be put away, taken up again, dropped and made. -/
theorem arrange (balanced : page.Balanced) {globals : Globals} {shelved : List Globals}
    {books : List Ledger} (known : List.Forall₂ (fun ledger table => (ledger = .empty ∧ table = ∅) ∨
      (ledger,table) ∈ page.books.zip page.tables) books (globals :: shelved)) :
    page.Turns ⟨{ page.machine with globals, shelved },books⟩ := by
  have alive := balanced.alive
  have agree {ledger : Ledger} {table : Globals} (known : (ledger = .empty ∧ table = ∅) ∨
      (ledger,table) ∈ page.books.zip page.tables) :
      ledger.Describes page.machine.heap table ∧ table.Sound page.machine.heap := by
    rcases known with ⟨rfl,rfl⟩ | old
    · refine ⟨.empty _,fun name value found => ?_⟩
      simp at found
    · exact ⟨(List.forall₂_iff_zip.mp balanced.agree).2 old,alive.tables (List.of_mem_zip old).2⟩
  have sound : ∀ table ∈ globals :: shelved, table.Sound page.machine.heap := by
    intro table member
    obtain ⟨i,inside,rfl⟩ := List.mem_iff_getElem.mp member
    exact (agree (known.get (known.length_eq ▸ inside) inside)).2
  refine ⟨⟨{ alive with
    globals := sound _ List.mem_cons_self
    shelved := fun table member => sound table (List.mem_cons_of_mem _ member) },
    known.imp fun _ _ pair => (agree pair).1⟩,fun _ _ _ _ => .of_eq rfl⟩

/-- An action that keeps the tables, whether it is finished or not. -/
theorem after {α : Type} (balanced : page.Balanced) {action : Action α} {ok : α → Machine → Prop}
    (keeping : Keeping action page.machine ok) :
    page.Turns { page with machine := page.machine.after action } := by
  rw [Keeping,Ensures] at keeping
  cases run : action page.machine with
  | ok a m =>
    rw [run] at keeping
    rw [Machine.after_ok run]
    exact balanced.keeps keeping.1 keeping.2.1
  | error stop m =>
    rw [run] at keeping
    rw [Machine.after_error run]
    exact balanced.keeps keeping.1 keeping.2

theorem happens (balanced : page.Balanced) {host : Host} (discreet : host.Discreet)
    (happens : Happens host page event next) : page.Turns next := by
  have alive := balanced.alive
  cases happens with
  | collect => exact balanced.keeps alive.collect.1 alive.collect.2
  | reset => exact balanced.keeps alive.reset (.of_heap rfl rfl rfl)
  | wait output clock => exact balanced.keeps { alive with } (.of_heap rfl rfl rfl)
  | allocate text => exact balanced.after (keeping_allocateString alive text)
  | set name held =>
    obtain ⟨alive',enters,-⟩ := enters_setGlobalNamed alive name held
    exact balanced.enters alive' enters
  | @define name native h mid made =>
    obtain ⟨alive',keeps,-,found⟩ :=
      Ensures.apply (keeping_allocate alive (by simp) (by simp [Object.references]) (by trivial)) made
    obtain ⟨alive',enters,-⟩ := enters_setGlobalNamed alive' name (Heap.holds_object found)
    have same : page.machine.defineNative name native =
        mid.after (setGlobalNamed name (.object h)) := by
      simp only [Machine.defineNative,Machine.after,Action.defineNative,EStateM.run,Bind.bind,
        EStateM.bind,made]
    rw [same]
    exact balanced.enters alive' (.after keeps enters)
  | arrange known => exact balanced.arrange known
  | start started =>
    obtain ⟨alive',keeps,-⟩ := (keeping_start alive _).apply started
    exact balanced.keeps alive' keeps
  | refuse stopped =>
    obtain ⟨alive',keeps⟩ := (keeping_start alive _).stopped stopped
    exact conclude (balanced.keeps alive' keeps) _
  | step stepped =>
    obtain ⟨alive',books⟩ := (ensures_step alive discreet).apply stepped
    rw [enter]
    split
    next name value entry =>
      rw [entry] at books
      exact balanced.enters alive' books
    next entry =>
      rw [entry] at books
      exact balanced.keeps alive' books
  | stop stopped =>
    obtain ⟨alive',keeps⟩ := (ensures_step alive discreet).stopped stopped
    exact conclude (balanced.keeps alive' keeps) _

end Page.Balanced

/-! What a table shows. -/

theorem Action.get_bind {α : Type} (next : Machine → Action α) (m : Machine) : (get >>= next) m = next m m :=
  rfl

theorem Action.notDefined {m : Machine} {name : Handle} {text : Bytes}
    (string : m.heap.get? name = some (.string text)) :
    (do fault (.notDefined (← nameText name)) : Action Unit) m =
      .error (.fault ⟨.notDefined text,m.trace⟩) m := by
  change EStateM.Result.error (Stop.fault ⟨.notDefined (m.heap.stringText name),m.trace⟩) m = _
  rw [Heap.stringText,string]

/-- The table in use is the map that the ledger is: for a host that asks by the bytes of a name and for
a program that has the name as a string. Nothing is stored under a name that is not defined. -/
structure Machine.Shows (m : Machine) (ledger : Ledger) : Prop where
  get (text : Bytes) : m.global? text = ledger text
  size : (m.globals.size : ℕ∞) = {text | (ledger text).isSome}.encard
  held {text : Bytes} {value : Value} (stored : ledger text = some value) : m.heap.Holds value
  read {name : Handle} {text : Bytes} (string : m.heap.get? name = some (.string text)) :
    getGlobal name m = match ledger text with
      | some value => push value m
      | none => .error (.fault ⟨.notDefined text,m.trace⟩) m
  refuse {name : Handle} {text : Bytes} (string : m.heap.get? name = some (.string text))
    (missing : ledger text = none) : setGlobal name m = .error (.fault ⟨.notDefined text,m.trace⟩) m

theorem Ledger.Describes.shows {ledger : Ledger} {m : Machine}
    (describes : ledger.Describes m.heap m.globals) (alive : m.Alive) : m.Shows ledger where
  get text := by
    rw [Machine.global?]
    cases known : m.heap.find? text with
    | none =>
      refine (Option.eq_none_iff_forall_ne_some.mpr fun value stored => ?_).symm
      obtain ⟨name,string,-⟩ := (describes text value).mp stored
      rw [(alive.tidy.interned text name).mpr string] at known
      contradiction
    | some name => exact describes.lookup alive.tidy ((alive.tidy.interned text name).mp known)
  size := describes.size alive.tidy alive.globals
  held stored := by
    obtain ⟨name,-,found⟩ := (describes _ _).mp stored
    exact (alive.globals name _ found).2
  read {name text} string := by
    rw [getGlobal,get_bind,describes.lookup alive.tidy string]
    cases ledger text with
    | some value => rfl
    | none => exact notDefined string
  refuse {name text} string missing := by
    rw [setGlobal,get_bind,Std.TreeMap.contains_eq_isSome_getElem?,
      describes.lookup alive.tidy string,missing]
    exact notDefined string

namespace Chronicle

variable {length : Nat} {events : Nat → Event} {pages : Nat → Page} {t : Nat}

theorem balanced (chronicle : Chronicle host length events pages) (discreet : host.Discreet)
    (within : t ≤ length) : (pages t).Balanced := by
  induction t with
  | zero =>
    obtain ⟨policy,clock,first⟩ := chronicle.begins
    exact first ▸ .new policy clock
  | succ t ih =>
    exact ((ih (Nat.le_of_succ_le within)).happens discreet (chronicle.happens t within)).balanced

/-- At any time each table is the map of what was stored last under each name, and what it holds is
still there and the same object at the next time; so is a value while its name is made. -/
theorem tables_follow (chronicle : Chronicle host length events pages) (discreet : host.Discreet)
    (within : t ≤ length) :
    List.Forall₂ (fun ledger table => Machine.Shows { (pages t).machine with globals := table } ledger)
        (pages t).books (pages t).tables ∧
      (t < length → ∀ h, (∃ ledger ∈ (pages t).books, ∃ text, ledger text = some (.object h)) ∨
          (∃ name, events t = .set name (.object h)) →
        (pages t).machine.heap.Has h ∧
          (pages t).machine.heap.Outlasts (pages (t + 1)).machine.heap h) := by
  have balanced := chronicle.balanced discreet within
  have alive := balanced.alive
  refine ⟨forall₂_of_mem balanced.agree fun ledger table member describes =>
    describes.shows { alive with globals := alive.tables member },fun before h known => ?_⟩
  have happens := chronicle.happens t before
  rcases known with ⟨ledger,member,text,stored⟩ | ⟨name,event⟩
  · obtain ⟨i,inside,rfl⟩ := List.mem_iff_getElem.mp member
    have inside' : i < (pages t).tables.length := balanced.agree.length_eq ▸ inside
    have describes := balanced.agree.get inside inside'
    obtain ⟨label,-,found⟩ := (describes text _).mp stored
    have known := List.getElem_mem inside'
    exact ⟨((alive.tables known) label _ found).2 h rfl,
      (balanced.happens discreet happens).stored _ known h ((Globals.mem_handles found).2 h rfl)⟩
  · rw [event] at happens
    generalize pages (t + 1) = next at happens
    cases happens with
    | set name held => exact ⟨held h rfl,(enters_setGlobalNamed alive name held).2.2 h rfl⟩

/-- A chronicle goes on with anything that happens on its last page. -/
theorem extend {event : Event} {last next : Page}
    (chronicle : ∃ events pages, Chronicle host length events pages ∧ pages length = last)
    (happens : Happens host last event next) :
    ∃ events pages, Chronicle host (length + 1) events pages ∧ pages (length + 1) = next := by
  obtain ⟨events,pages,chronicle,rfl⟩ := chronicle
  refine ⟨Function.update events length event,Function.update pages (length + 1) next,⟨?_,?_⟩,
    Function.update_self ..⟩
  · rw [Function.update_of_ne (Nat.succ_ne_zero _).symm]
    exact chronicle.begins
  · intro t within
    have early : Function.update pages (length + 1) next t = pages t :=
      Function.update_of_ne (by omega) ..
    rw [early]
    rcases Nat.lt_or_ge t length with before | after
    · rw [Function.update_of_ne before.ne,Function.update_of_ne (by omega)]
      exact chronicle.happens t before
    · obtain rfl : t = length := by omega
      rwa [Function.update_self,Function.update_self]

/-- A host stores a global and collects, and a program that collects whenever it allocates defines a
second global by the first. -/
theorem tables_follow_copied : ∃ events pages ledger, Chronicle .standard 5 events pages ∧
    (pages 5).books = [ledger] ∧ ledger (ascii "b") = some (.bool true) ∧
    (pages 5).machine.Shows ledger := by
  let source := Source.ofText (ascii "var b = a;")
  let begin (chunk : Chunk) : Action Unit := do
    Action.start chunk
    Action.step .standard
    Action.step .standard
  let fresh := Machine.new ⟨0,2,true⟩ 0
  let stored := fresh.after (setGlobalNamed (ascii "a") (.bool true))
  have computed : (source.compile.toOption.bind fun chunk =>
      ((begin chunk).result? stored.collect).bind fun m =>
        if m.shelved = [] then m.global? (ascii "b") else none) = some (.bool true) := by
    decide +kernel
  obtain ⟨chunk,-,computed⟩ := Option.bind_eq_some_iff.mp computed
  obtain ⟨m,run,found⟩ := Option.bind_eq_some_iff.mp computed
  obtain ⟨alone,found⟩ := Option.ite_none_right_eq_some.mp found
  obtain ⟨_,run⟩ := result?_eq_some.mp run
  obtain ⟨_,m₁,started,run⟩ := bind_ok run
  obtain ⟨_,m₂,first,second⟩ := bind_ok run
  have new : ∃ events pages, Chronicle .standard 0 events pages ∧ pages 0 = ⟨fresh,[.empty]⟩ :=
    ⟨fun _ => .collect,fun _ => ⟨fresh,[.empty]⟩,
      ⟨⟨_,_,rfl⟩,fun t within => absurd within (Nat.not_lt_zero t)⟩,rfl⟩
  obtain ⟨events,pages,chronicle,last⟩ := extend (extend (extend (extend (extend new
    (.set (ascii "a") (by simp))) .collect) (.start started)) (.step first))
    (.step (by rw [Page.enter_machine]; exact second))
  obtain ⟨follows,-⟩ := chronicle.tables_follow Host.standard_discreet le_rfl
  have machine : (pages 5).machine = m := by rw [last,Page.enter_machine]
  rw [Page.tables,machine,alone] at follows
  obtain ⟨ledger,books,shows,none,same⟩ := List.forall₂_cons_right_iff.mp follows
  rw [List.forall₂_nil_right_iff.mp none] at same
  refine ⟨events,pages,ledger,chronicle,same,?_,machine ▸ shows⟩
  exact (shows.get _).symm.trans found

end Chronicle

end ScriptMachine
