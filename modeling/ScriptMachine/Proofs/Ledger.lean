import Mathlib
import ScriptMachine.Proofs.Discretion
import ScriptMachine.Proofs.Histories

/-! Globals are a map from names to values. Whatever a host and its programs do, and whether they fail
or not, a table gives for each name the value that was stored under it last, and what it holds stays. -/
namespace ScriptMachine

open ScriptMachine.Action

variable {m m' : Machine} {host : Host}

/-! Loading and starting a program. -/

theorem Machine.Enters.after {mid : Machine} {name : Bytes} {value : Value} (keeps : m.Keeps mid)
    (enters : mid.Enters name value m') : m.Enters name value m' where
  named := by
    rw [← keeps.globals]
    exact enters.named
  shelved := enters.shelved.trans keeps.shelved
  stored table member h inside := (keeps.stored table member h inside).trans
    (enters.stored table (by rwa [keeps.globals,keeps.shelved]) h inside)

theorem Machine.Alive.reset (alive : m.Alive) : m.reset.Alive :=
  { alive with
    stack := by simp [Machine.reset]
    result := by simp [Machine.reset]
    loading := by simp [Machine.reset]
    openCells := by simp [Machine.reset] }

namespace Action

mutual

theorem keeping_loadChunk : (chunk : Chunk) → ∀ {m : Machine}, m.Alive →
    Keeping (load chunk) m fun h m' => h ∈ m'.loading ∧ m.loading ⊆ m'.loading
  | ⟨name,parameterCount,captureCount,code,lines,constants⟩,m,alive => by
    refine (keeping_allocate alive (by simp) (by simp [Object.references]) (by trivial)).bind
      fun h mid alive _ ⟨same,found⟩ => ?_
    refine (keeping_modify ?_ (.of_heap rfl rfl rfl)).bind ?_
    · exact { alive with loading := List.forall_mem_cons.mpr ⟨⟨_,found⟩,alive.loading⟩ }
    · rintro _ _ alive - rfl
      refine (keeping_loadConstants h constants alive).bind fun _ m' alive _ more => ?_
      refine keeping_pure alive ⟨more List.mem_cons_self,fun k member => ?_⟩
      refine more (List.mem_cons_of_mem _ ?_)
      rw [same]
      exact member

theorem keeping_loadConstants (h : Handle) : (constants : List (Constant Chunk)) →
    ∀ {m : Machine}, m.Alive →
      Keeping (loadConstants h constants) m fun _ m' => m.loading ⊆ m'.loading
  | [],_,alive => keeping_pure alive (List.Subset.refl _)
  | first :: rest,m,alive => by
    refine (keeping_loadConstant first alive).bind fun value mid alive _ ⟨held,more⟩ => ?_
    refine (keeping_updateObject alive fun o here => ?_).bind ?_
    · cases o with
      | function chunk constants =>
        refine .inr ⟨rfl,by simp,fun r member => ?_⟩
        rcases Array.mem_push.mp (Object.mem_handles.mp member) with old | new
        · exact alive.objects h _ here r (Object.mem_handles.mpr old)
        · exact held r new.symm
      | _ => exact .inl rfl
    · rintro _ _ alive - rfl
      exact (keeping_loadConstants h rest alive).mono fun _ _ later => List.Subset.trans more later

theorem keeping_loadConstant : (c : Constant Chunk) → ∀ {m : Machine}, m.Alive →
    Keeping (loadConstant c) m fun value m' => m'.heap.Holds value ∧ m.loading ⊆ m'.loading
  | .number value,_,alive => keeping_pure alive ⟨by simp,List.Subset.refl _⟩
  | .string text,_,alive =>
    (keeping_allocateString alive text).bind fun h m' alive _ ⟨clears,found⟩ =>
      keeping_pure alive ⟨Heap.holds_object found,by rw [clears.same]; exact List.Subset.refl _⟩
  | .function chunk,_,alive =>
    (keeping_loadChunk chunk alive).bind fun h m' alive _ ⟨member,more⟩ => by
      obtain ⟨o,found⟩ := alive.loading h member
      exact keeping_pure alive ⟨Heap.holds_object found,more⟩

end

theorem keeping_start (alive : m.Alive) (chunk : Chunk) :
    Keeping (start chunk) m fun _ _ => True := by
  have fresh : Machine.Alive { m.reset with status := .running } := { alive.reset with }
  refine (keeping_modify fresh (.of_heap rfl rfl rfl)).bind ?_
  rintro _ _ alive - rfl
  refine (keeping_loadChunk chunk alive).bind fun function m' alive _ ⟨member,_⟩ => ?_
  refine (keeping_allocateClosure alive (Machine.reaches_loading member).kept).bind
    fun closure _ alive _ ⟨_,found⟩ => (keeping_push alive (Heap.holds_object found)).bind ?_
  rintro _ _ alive - rfl
  refine (keeping_modify { alive with loading := by simp } (.of_heap rfl rfl rfl)).bind ?_
  rintro _ _ alive - rfl
  exact keeping_callClosure alive closure 0

/-! What a host does with globals. -/

theorem allocateString_succeeds (text : Bytes) (m : Machine) :
    ∃ h m', allocateString text m = .ok h m' := by
  have done : (allocateString text).Ensures m (fun _ _ => True) fun _ _ => False := by
    rw [allocateString,ensures_bind,ensures_get]
    split
    · exact trivial
    · simp only [makeRoom,collect,ensures_bind,ensures_get,ensures_ite,ensures_modify]
      exact ⟨fun _ => trivial,fun _ => trivial⟩
  obtain ⟨h,m',run,-⟩ := done.succeeds
  exact ⟨h,m',run⟩

/-- A value that the host stores is pinned while its name is made. -/
theorem enters_setGlobalNamed (alive : m.Alive) (name : Bytes) {value : Value}
    (held : m.heap.Holds value) :
    (m.after (setGlobalNamed name value)).Alive ∧
      m.Enters name value (m.after (setGlobalNamed name value)) ∧
      ∀ h, value = .object h → m.heap.Outlasts (m.after (setGlobalNamed name value)).heap h := by
  have alive' : Machine.Alive { m with pinned := value :: m.pinned } :=
    { alive with pinned := List.forall_mem_cons.mpr ⟨held,alive.pinned⟩ }
  obtain ⟨h,mid,run⟩ := allocateString_succeeds name { m with pinned := value :: m.pinned }
  obtain ⟨alive'',keeps,clears,found⟩ := Ensures.apply (keeping_allocateString alive' name) run
  have pinned : mid.pinned = value :: m.pinned := by rw [clears.same]
  have stays : mid.heap.Holds value := alive''.pinned value (by simp [pinned])
  have stored : setGlobalNamed name value m =
      .ok () { mid with pinned := mid.pinned.tail, globals := mid.globals.insert h value } := by
    have done : (setGlobalNamed name value).Ensures m (fun _ m' => m' =
        { mid with pinned := mid.pinned.tail, globals := mid.globals.insert h value })
        fun _ _ => False := by
      rw [setGlobalNamed,ensures_bind,ensures_pinning]
      exact .of_ok run rfl
    obtain ⟨_,_,ran,rfl⟩ := done.succeeds
    exact ran
  rw [Machine.after_ok stored]
  refine ⟨{ alive'' with
    pinned := fun v member => alive''.pinned v (List.mem_of_mem_tail member)
    globals := Poised.sound_insert alive''.globals ⟨name,found⟩ stays },
    ⟨⟨h,found,?_⟩,keeps.shelved,keeps.stored⟩,?_⟩
  · rw [keeps.globals]
  · rintro k rfl
    obtain ⟨o,there⟩ := held k rfl
    refine .of_eq (clears.kept k (Machine.Reaches.kept (Machine.reaches_pinned ?_)) ⟨o,there⟩)
    exact List.mem_cons_self

end Action

/-! Tables of globals by the bytes of the names. -/

/-- What was stored last under each name. -/
abbrev Ledger := Bytes → Option Value

def Ledger.empty : Ledger :=
  fun _ => none

def Ledger.store (ledger : Ledger) (name : Bytes) (value : Value) : Ledger :=
  Function.update ledger name (some value)

/-- The table has what is in the ledger, under the handles of the names. -/
def Ledger.Describes (ledger : Ledger) (heap : Heap) (table : Globals) : Prop :=
  ∀ text value, ledger text = some value ↔
    ∃ name, heap.get? name = some (.string text) ∧ table[name]? = some value

namespace Ledger.Describes

variable {ledger : Ledger} {heap future : Heap} {table : Globals}

theorem empty (heap : Heap) : Ledger.empty.Describes heap ∅ := by
  intro text value
  simp [Ledger.empty]

/-- Names stay what they are, since the table holds them. -/
theorem later (describes : ledger.Describes heap table) (sound : table.Sound heap)
    (kept : ∀ h ∈ table.handles, heap.Outlasts future h) : ledger.Describes future table := by
  intro text value
  rw [describes]
  constructor
  · rintro ⟨name,string,found⟩
    exact ⟨name,Heap.string_later (kept name (Globals.mem_handles found).1) string,found⟩
  · rintro ⟨name,string,found⟩
    obtain ⟨⟨other,before⟩,-⟩ := sound name value found
    have after := Heap.string_later (kept name (Globals.mem_handles found).1) before
    rw [string] at after
    cases after
    exact ⟨name,before,found⟩

/-- One handle for each name: so storing under one name leaves all others alone. -/
theorem insert (describes : ledger.Describes heap table) (tidy : heap.Tidy) {name : Handle}
    {text : Bytes} (string : heap.get? name = some (.string text)) (value : Value) :
    (ledger.store text value).Describes heap (table.insert name value) := by
  intro other found
  rw [store,Function.update_apply]
  split
  next same =>
    subst same
    rw [Option.some_inj]
    constructor
    · rintro rfl
      exact ⟨name,string,by simp⟩
    · rintro ⟨label,there,stored⟩
      obtain rfl := (tidy.same_iff string there).mpr rfl
      simpa using stored
  next differs =>
    rw [describes]
    refine exists_congr fun label => and_congr_right fun there => ?_
    have apart : name ≠ label := fun same => differs ((tidy.same_iff string there).mp same).symm
    rw [Std.TreeMap.getElem?_insert,if_neg]
    exact fun same => apart (Std.LawfulEqOrd.eq_of_compare same)

theorem lookup (describes : ledger.Describes heap table) (tidy : heap.Tidy) {name : Handle}
    {text : Bytes} (string : heap.get? name = some (.string text)) : table[name]? = ledger text := by
  refine Option.ext fun value => ?_
  rw [describes]
  constructor
  · exact fun found => ⟨name,string,found⟩
  · rintro ⟨label,there,found⟩
    rwa [(tidy.same_iff string there).mpr rfl]

/-- As many names as there are handles. -/
theorem size (describes : ledger.Describes heap table) (tidy : heap.Tidy) (sound : table.Sound heap) :
    (table.size : ℕ∞) = {text | (ledger text).isSome}.encard := by
  have string {name : Handle} (member : name ∈ table.keys) :
      heap.get? name = some (.string (heap.stringText name)) := by
    rw [Std.TreeMap.mem_keys,Std.TreeMap.mem_iff_isSome_getElem?,Option.isSome_iff_exists] at member
    obtain ⟨value,found⟩ := member
    obtain ⟨⟨text,here⟩,-⟩ := sound name value found
    rw [Heap.stringText,here]
  have distinct : (table.keys.map heap.stringText).Nodup := by
    refine List.Nodup.map_on (fun first left second right same => ?_) ?_
    · exact (tidy.same_iff (string left) (string right)).mpr same
    · exact table.distinct_keys.imp fun apart same => apart (by subst same; exact Std.ReflCmp.compare_self)
  have names : {text | (ledger text).isSome} = (table.keys.map heap.stringText).toFinset := by
    ext text
    rw [Set.mem_ofPred_eq,Option.isSome_iff_exists,Finset.mem_coe,List.mem_toFinset,List.mem_map]
    constructor
    · rintro ⟨value,stored⟩
      obtain ⟨name,here,found⟩ := (describes text value).mp stored
      exact ⟨name,Std.TreeMap.mem_keys.mpr (Std.TreeMap.mem_iff_isSome_getElem?.mpr (by simp [found])),
        by rw [Heap.stringText,here]⟩
    · rintro ⟨name,member,rfl⟩
      rw [← Option.isSome_iff_exists,← describes.lookup tidy (string member),
        ← Std.TreeMap.mem_iff_isSome_getElem?]
      exact Std.TreeMap.mem_keys.mp member
  rw [names,Set.encard_coe_eq_coe_finsetCard,List.toFinset_card_of_nodup distinct,List.length_map,
    Std.TreeMap.length_keys]

end Ledger.Describes

end ScriptMachine
