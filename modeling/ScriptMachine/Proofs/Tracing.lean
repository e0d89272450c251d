import Mathlib
import ScriptMachine.Proofs.Accounting

/-! A collection step by step, with the marks and the work list that it leaves behind. It ends, and
comes to the heap without the objects that the roots do not reach. -/
namespace ScriptMachine

open Finset (range)

/-- A heap in the middle of a collection: which places hold a marked object, and the handles still to
be looked at, the latest first. -/
structure Collector where
  heap : Heap
  marked : Array Bool
  work : List Handle

namespace Collector

def add (c : Collector) (h : Handle) : Collector :=
  { c with work := h :: c.work }

/-- No object is marked, and the roots have been added. -/
def start (heap : Heap) (roots : List Handle) : Collector :=
  roots.foldl add ⟨heap, Array.replicate heap.slots.size false, []⟩

/-- Marks the object, unless it is marked already, and adds what it refers to. -/
def markObject (c : Collector) (h : Handle) : Collector :=
  if Heap.isSettled c.marked h then c
  else (c.heap.references h).foldl add { c with marked := c.marked.setIfInBounds h.index true }

/-- Takes the latest handle off the work list. -/
def round (c : Collector) : Collector :=
  match c.work with
  | [] => c
  | h :: rest => { c with work := rest }.markObject h

/-- The places whose objects have no mark. -/
def unmarked (c : Collector) : Finset Nat :=
  (range c.marked.size).filter (c.marked[·]? = some false)

/-- How many handles there are to be taken at most. -/
def remaining (c : Collector) : Nat :=
  c.work.length + ∑ i ∈ c.unmarked, (c.heap.references ⟨i⟩).length

theorem foldl_add (c : Collector) (handles : List Handle) :
    handles.foldl add c = { c with work := handles.reverse ++ c.work } := by
  induction handles generalizing c with
  | nil => rfl
  | cons first rest ih =>
    rw [List.foldl_cons,ih,add]
    simp

theorem start_eq (heap : Heap) (roots : List Handle) :
    start heap roots = ⟨heap,Array.replicate heap.slots.size false,roots.reverse⟩ := by
  rw [start,foldl_add,List.append_nil]

/-- Marking takes a place from those without marks. -/
theorem unmarked_set (c : Collector) (h : Handle) (work : List Handle) :
    unmarked ⟨c.heap,c.marked.setIfInBounds h.index true,work⟩ = c.unmarked.erase h.index := by
  ext i
  simp only [unmarked,Finset.mem_filter,Finset.mem_range,Finset.mem_erase,Array.size_setIfInBounds]
  by_cases same : i = h.index
  · subst same
    simp [Array.getElem?_setIfInBounds]
  · simp [Array.getElem?_setIfInBounds_ne (Ne.symm same),same]

theorem unsettled_iff {marked : Array Bool} {h : Handle} :
    ¬Heap.isSettled marked h = true ↔ marked[h.index]? = some false := by
  rw [Heap.isSettled_iff,not_not]

theorem round_cons {heap : Heap} {marked : Array Bool} {h : Handle} {rest : List Handle} :
    round ⟨heap,marked,h :: rest⟩ = if Heap.isSettled marked h then ⟨heap,marked,rest⟩
      else ⟨heap,marked.setIfInBounds h.index true,(heap.references h).reverse ++ rest⟩ := by
  change markObject ⟨heap,marked,rest⟩ h = _
  rw [markObject,foldl_add]

theorem remaining_round {c : Collector} (busy : c.work ≠ []) : c.round.remaining + 1 = c.remaining := by
  obtain ⟨heap,marked,work⟩ := c
  cases work with
  | nil => contradiction
  | cons h rest =>
    rw [round_cons]
    split
    next =>
      rw [remaining,remaining,List.length_cons]
      exact Nat.add_right_comm _ _ _
    next unsettled =>
      have place := unsettled_iff.mp unsettled
      have inside : h.index ∈ unmarked ⟨heap,marked,h :: rest⟩ :=
        Finset.mem_filter.mpr ⟨Finset.mem_range.mpr (Array.getElem?_eq_some_iff.mp place).1,place⟩
      have gone := unmarked_set ⟨heap,marked,h :: rest⟩ h ((heap.references h).reverse ++ rest)
      have here : heap.references ⟨h.index⟩ = heap.references h := rfl
      rw [remaining,remaining,gone,← Finset.add_sum_erase _ _ inside]
      simp only [List.length_append,List.length_reverse,List.length_cons,here]
      omega

/-- The loop goes on until no handle is left. -/
def trace (c : Collector) : Collector :=
  if c.work = [] then c else c.round.trace
termination_by c.remaining
decreasing_by
  have less := remaining_round (by assumption : c.work ≠ [])
  omega

/-- What the loop does in so many rounds. -/
theorem trace_eq (c : Collector) : ∃ count ≤ c.remaining, c.trace = round^[count] c := by
  fun_induction trace c with
  | case1 c idle => exact ⟨0,Nat.zero_le _,rfl⟩
  | case2 c busy ih =>
    obtain ⟨count,less,same⟩ := ih
    have fewer := remaining_round busy
    exact ⟨count + 1,by omega,same⟩

theorem work_trace (c : Collector) : c.trace.work = [] := by
  fun_induction trace c with
  | case1 c idle => exact idle
  | case2 c busy ih => exact ih

/-- What is marked or to be looked at is reached, and what is reached is found from there. -/
structure Tracing (heap : Heap) (roots : List Handle) (c : Collector) : Prop where
  same : c.heap = heap
  size : c.marked.size = heap.slots.size
  marked : ∀ h, c.marked[h.index]? = some true → heap.Reaches roots h
  work : ∀ h ∈ c.work, heap.Reaches roots h
  rooted : ∀ h ∈ roots, Heap.isSettled c.marked h = true ∨ h ∈ c.work
  closed : ∀ h, c.marked[h.index]? = some true → ∀ r ∈ heap.references h,
    Heap.isSettled c.marked r = true ∨ r ∈ c.work

variable {heap : Heap} {roots : List Handle} {c : Collector}

theorem tracing_start (heap : Heap) (roots : List Handle) :
    (start heap roots).Tracing heap roots := by
  rw [start_eq]
  refine ⟨rfl,Array.size_replicate,?_,?_,?_,?_⟩
  · simp [Array.getElem?_replicate]
  · exact fun h member => .root (List.mem_reverse.mp member)
  · exact fun h member => .inr (List.mem_reverse.mpr member)
  · simp [Array.getElem?_replicate]

theorem settled_set {marked : Array Bool} (h : Handle) :
    Heap.isSettled (marked.setIfInBounds h.index true) h = true := by
  rw [Heap.isSettled_iff,Array.getElem?_setIfInBounds]
  simp

theorem Tracing.round (tracing : c.Tracing heap roots) : c.round.Tracing heap roots := by
  obtain ⟨own,marked,work⟩ := c
  obtain ⟨same,size,sound,reached,covered,closed⟩ := tracing
  obtain rfl : heap = own := same.symm
  cases work with
  | nil => exact ⟨rfl,size,sound,reached,covered,closed⟩
  | cons h rest =>
    have first : heap.Reaches roots h := reached h List.mem_cons_self
    have others : ∀ k ∈ rest, heap.Reaches roots k :=
      fun k member => reached k (List.mem_cons_of_mem _ member)
    rw [round_cons]
    split
    next settled =>
      -- a handle of a marked object need not stay on the work list
      have drop {k : Handle} : Heap.isSettled marked k = true ∨ k ∈ h :: rest →
          Heap.isSettled marked k = true ∨ k ∈ rest := by
        rintro (known | member)
        · exact .inl known
        · rcases List.mem_cons.mp member with rfl | later
          · exact .inl settled
          · exact .inr later
      exact ⟨rfl,size,sound,others,fun k member => drop (covered k member),
        fun k known r member => drop (closed k known r member)⟩
    next unsettled =>
      have moves {k : Handle} : Heap.isSettled marked k = true ∨ k ∈ h :: rest →
          Heap.isSettled (marked.setIfInBounds h.index true) k = true ∨
            k ∈ (heap.references h).reverse ++ rest := by
        rintro (known | member)
        · exact .inl (Heap.isSettled_set _ known)
        · rcases List.mem_cons.mp member with rfl | later
          · exact .inl (settled_set _)
          · exact .inr (List.mem_append_right _ later)
      have before {k : Handle} (other : k ≠ h)
          (known : (marked.setIfInBounds h.index true)[k.index]? = some true) :
          marked[k.index]? = some true := by
        have apart : h.index ≠ k.index := fun equal => other (by cases h; cases k; simp_all)
        rwa [Array.getElem?_setIfInBounds_ne apart] at known
      refine ⟨rfl,by rw [← size]; exact Array.size_setIfInBounds,fun k known => ?_,
        fun k member => ?_,fun k member => moves (covered k member),fun k known r member => ?_⟩
      · by_cases same : k = h
        · exact same ▸ first
        · exact sound k (before same known)
      · rcases List.mem_append.mp member with new | later
        · exact .next first (List.mem_reverse.mp new)
        · exact others k later
      · by_cases same : k = h
        · exact .inr (List.mem_append_left _ (List.mem_reverse.mpr (same ▸ member)))
        · exact moves (closed k (before same known) r member)

theorem Tracing.trace (tracing : c.Tracing heap roots) : c.trace.Tracing heap roots := by
  fun_induction Collector.trace c with
  | case1 c idle => exact tracing
  | case2 c busy ih => exact ih tracing.round

/-- When nothing is left to be looked at, the marked objects are those that the roots reach. -/
theorem Tracing.marked_iff (tracing : c.Tracing heap roots) (idle : c.work = []) {h : Handle}
    (inside : h.index < heap.slots.size) :
    c.marked[h.index]? = some true ↔ heap.Reaches roots h := by
  have marks {k : Handle} (bound : k.index < heap.slots.size)
      (settled : Heap.isSettled c.marked k = true ∨ k ∈ c.work) :
      c.marked[k.index]? = some true := by
    rw [idle,or_iff_left List.not_mem_nil,Heap.isSettled_iff] at settled
    rw [← tracing.size] at bound
    rw [Array.getElem?_eq_getElem bound] at settled ⊢
    simpa using settled
  refine ⟨tracing.marked h,fun reaches => ?_⟩
  induction reaches with
  | root member => exact marks inside (tracing.rooted _ member)
  | @next k r _ member ih =>
    refine marks inside (tracing.closed k (ih ?_) r member)
    cases found : heap.get? k with
    | none => simp [Heap.references,found] at member
    | some o => exact Heap.index_lt found

end Collector

namespace Heap

variable {heap : Heap} {roots : List Handle}

/-- In whatever order handles are taken, only objects that the roots reach are marked. -/
theorem mark_sound (rounds : Nat) {marked : Array Bool} {work : List Handle}
    (sound : ∀ h, marked[h.index]? = some true → heap.Reaches roots h)
    (reached : ∀ h ∈ work, heap.Reaches roots h) :
    ∀ h, (heap.mark rounds marked work)[h.index]? = some true → heap.Reaches roots h := by
  induction rounds generalizing marked work with
  | zero => exact sound
  | succ rounds ih =>
    rw [mark]
    cases left : work.dropWhile (isSettled marked) with
    | nil => exact sound
    | cons h rest =>
      have later : ∀ k ∈ h :: rest, heap.Reaches roots k :=
        fun k member => reached k ((List.dropWhile_sublist _).mem (left ▸ member))
      have first : heap.Reaches roots h := later h List.mem_cons_self
      refine ih (fun k known => ?_) fun k member => ?_
      · by_cases same : k = h
        · exact same ▸ first
        · have apart : h.index ≠ k.index := fun equal => same (by cases h; cases k; simp_all)
          rw [Array.getElem?_setIfInBounds_ne apart] at known
          exact sound k known
      · rcases List.mem_append.mp member with new | old
        · exact .next first new
        · exact later k (List.mem_cons_of_mem _ old)

theorem size_reached (heap : Heap) (roots : List Handle) :
    (heap.reached roots).size = heap.slots.size := by
  rw [reached,size_mark,Array.size_replicate]

/-- The marked places are those of the objects that the roots reach. -/
theorem reached_iff {h : Handle} (inside : h.index < heap.slots.size) :
    (heap.reached roots).getD h.index false = true ↔ heap.Reaches roots h := by
  refine ⟨fun marked => ?_,fun reaches => reached_complete reaches inside⟩
  have unmarked : ∀ h : Handle, (Array.replicate heap.slots.size false)[h.index]? = some true →
      heap.Reaches roots h := by simp [Array.getElem?_replicate]
  refine mark_sound heap.slots.size unmarked (fun _ => .root) h ?_
  change (heap.reached roots)[h.index]? = some true
  have bound : h.index < (heap.reached roots).size := by rwa [size_reached]
  rw [Array.getD_eq_getD_getElem?,Array.getElem?_eq_getElem bound,Option.getD_some] at marked
  rw [Array.getElem?_eq_getElem bound,marked]

/-- What a collection leaves is what the roots reach. -/
theorem reaches_of_collect {h : Handle} {o : Object} (found : (heap.collect roots).get? h = some o) :
    heap.Reaches roots h := by
  refine (reached_iff (index_lt (get?_of_collect found))).mp ?_
  by_contra unmarked
  change (heap.sweep (heap.reached roots)).get? h = some o at found
  rw [get?_sweep,if_neg unmarked] at found
  contradiction

end Heap

namespace Collector

variable {heap : Heap} {roots : List Handle}

/-- Marking comes to the marks that decide what the collection keeps. -/
theorem trace_start (heap : Heap) (roots : List Handle) :
    (start heap roots).trace = ⟨heap,heap.reached roots,[]⟩ := by
  have tracing := (tracing_start heap roots).trace
  have idle := work_trace (start heap roots)
  have marks (h : Handle) (inside : h.index < heap.slots.size) :=
    (tracing.marked_iff idle inside).trans (Heap.reached_iff inside).symm
  have same := tracing.same
  have size := tracing.size
  generalize (start heap roots).trace = c at idle marks same size
  obtain ⟨own,marked,work⟩ := c
  obtain rfl : heap = own := same.symm
  obtain rfl : work = [] := idle
  congr 1
  refine Array.ext (by rw [Heap.size_reached]; exact size) fun i inside bound => ?_
  have mark := marks ⟨i⟩ (by rwa [Heap.size_reached] at bound)
  simp only [Array.getD_eq_getD_getElem?,Array.getElem?_eq_getElem inside,
    Array.getElem?_eq_getElem bound,Option.getD_some,Option.some_inj] at mark
  exact Bool.eq_iff_iff.mpr mark

/-! The rest of a collection. -/

/-- The table of strings forgets those without a mark. -/
def prune (c : Collector) : Collector :=
  { c with heap := { c.heap with
      strings := c.heap.strings.filter fun _ h => c.marked.getD h.index false } }

/-- Frees a place. -/
def release (heap : Heap) (index : Nat) : Heap :=
  { heap with
    slots := heap.slots.setIfInBounds index none
    free := index :: heap.free
    bytes := heap.bytes - heap.sizeAt index }

/-- An object loses its mark, or its place is freed if it has none. -/
def visit (c : Collector) (index : Nat) : Collector :=
  if c.heap.isAlive ⟨index⟩ then
    if c.marked.getD index false then { c with marked := c.marked.setIfInBounds index false }
    else { c with heap := release c.heap index }
  else c

def sweep (c : Collector) : Collector :=
  (List.range c.heap.slots.size).foldl visit c

/-- The collection is counted, and the next limit is set. -/
def finish (c : Collector) : Collector :=
  { c with heap := { c.heap with
      limit := Heap.nextLimit c.heap.policy c.heap.bytes
      collections := c.heap.collections + 1 } }

def run (heap : Heap) (roots : List Handle) : Collector :=
  (start heap roots).trace.prune.sweep.finish

/-- The places before this one that are to be freed. -/
def deadBelow (heap : Heap) (marked : Array Bool) (count : Nat) : List Nat :=
  (List.range count).filter fun i => ((heap.slots[i]?).join).isSome && !marked.getD i false

/-- Before this place, objects without a mark are gone. -/
def slotsBelow (heap : Heap) (marked : Array Bool) (count : Nat) : Array (Option Resident) :=
  heap.slots.mapIdx fun i resident =>
    if i < count then if marked.getD i false then resident else none else resident

/-- Before this place, objects have lost their marks. -/
def marksBelow (heap : Heap) (marked : Array Bool) (count : Nat) : Array Bool :=
  marked.mapIdx fun i mark => if i < count then !heap.isAlive ⟨i⟩ && mark else mark

/-- A collection that has come to this place. -/
def swept (heap : Heap) (marked : Array Bool) (count : Nat) : Collector where
  heap := { heap with
    slots := slotsBelow heap marked count
    free := (deadBelow heap marked count).reverse ++ heap.free
    bytes := (deadBelow heap marked count).foldl (fun bytes i => bytes - heap.sizeAt i) heap.bytes }
  marked := marksBelow heap marked count
  work := []

variable {marked : Array Bool} {count : Nat}

theorem deadBelow_succ (heap : Heap) (marked : Array Bool) (count : Nat) :
    deadBelow heap marked (count + 1) = deadBelow heap marked count ++
      if heap.isAlive ⟨count⟩ ∧ marked.getD count false = false then [count] else [] := by
  rw [deadBelow,List.range_succ,List.filter_append,List.filter_singleton,Heap.isAlive,Heap.get?,
    Option.isSome_map]
  simp [deadBelow]

/-- One place more matters only there. -/
theorem lt_succ_of_ne {i : Nat} (other : i ≠ count) : i < count + 1 ↔ i < count := by
  omega

theorem getElem?_slotsBelow (i : Nat) : (slotsBelow heap marked count)[i]? =
    if i < count ∧ marked.getD i false = false then (heap.slots[i]?).map fun _ => none
    else heap.slots[i]? := by
  rw [slotsBelow,Array.getElem?_mapIdx]
  cases heap.slots[i]? with
  | none => simp
  | some resident => by_cases before : i < count <;> by_cases mark : marked.getD i false <;> simp [*]

theorem slotsBelow_dead (gone : marked.getD count false = false) :
    slotsBelow heap marked (count + 1) = (slotsBelow heap marked count).setIfInBounds count none := by
  apply Array.ext_getElem?
  intro i
  by_cases same : i = count
  · subst same
    rw [Array.getElem?_setIfInBounds_self,getElem?_slotsBelow,
      if_pos ⟨Nat.lt_succ_self i,gone⟩,slotsBelow,Array.size_mapIdx]
    by_cases inside : i < heap.slots.size
    · rw [if_pos inside,Array.getElem?_eq_getElem inside,Option.map_some]
    · rw [if_neg inside,Array.getElem?_eq_none (Nat.le_of_not_lt inside),Option.map_none]
  · rw [Array.getElem?_setIfInBounds_ne (Ne.symm same),getElem?_slotsBelow,getElem?_slotsBelow]
    simp only [lt_succ_of_ne same]

theorem slotsBelow_kept (kept : heap.isAlive ⟨count⟩ = true → marked.getD count false = true) :
    slotsBelow heap marked (count + 1) = slotsBelow heap marked count := by
  apply Array.ext_getElem?
  intro i
  rw [getElem?_slotsBelow,getElem?_slotsBelow]
  by_cases same : i = count
  · subst same
    have here : ¬(i < i ∧ marked.getD i false = false) := fun both => Nat.lt_irrefl i both.1
    rw [if_neg here]
    split
    next both =>
      have vacant : ¬heap.isAlive ⟨i⟩ = true := fun alive => by simp [kept alive] at both
      rw [Heap.isAlive,Heap.get?,Option.isSome_map,Option.not_isSome_iff_eq_none,
        Option.join_eq_none_iff] at vacant
      rcases vacant with missing | empty
      · rw [missing,Option.map_none]
      · rw [empty,Option.map_some]
    next => rfl
  · simp only [lt_succ_of_ne same]

theorem marksBelow_alive (alive : heap.isAlive ⟨count⟩ = true) :
    marksBelow heap marked (count + 1) = (marksBelow heap marked count).setIfInBounds count false := by
  apply Array.ext_getElem?
  intro i
  by_cases same : i = count
  · subst same
    simp only [marksBelow,Array.getElem?_setIfInBounds_self,Array.getElem?_mapIdx,alive,
      Array.size_mapIdx]
    by_cases inside : i < marked.size
    · simp [inside]
    · simp [inside]
  · rw [Array.getElem?_setIfInBounds_ne (Ne.symm same)]
    simp only [marksBelow,Array.getElem?_mapIdx,lt_succ_of_ne same]

theorem marksBelow_vacant (vacant : heap.isAlive ⟨count⟩ = false) :
    marksBelow heap marked (count + 1) = marksBelow heap marked count := by
  apply Array.ext_getElem?
  intro i
  by_cases same : i = count
  · subst same
    simp [marksBelow,vacant]
  · simp only [marksBelow,Array.getElem?_mapIdx,lt_succ_of_ne same]

theorem marksBelow_unmarked (gone : marked.getD count false = false) :
    marksBelow heap marked (count + 1) = marksBelow heap marked count := by
  apply Array.ext_getElem?
  intro i
  by_cases same : i = count
  · subst same
    rw [Array.getD_eq_getD_getElem?] at gone
    simp only [marksBelow,Array.getElem?_mapIdx]
    cases mark : marked[i]? with
    | none => rfl
    | some b =>
      obtain rfl : b = false := by simpa [mark] using gone
      simp
  · simp only [marksBelow,Array.getElem?_mapIdx,lt_succ_of_ne same]

theorem visit_swept (heap : Heap) (marked : Array Bool) (count : Nat) :
    (swept heap marked count).visit count = swept heap marked (count + 1) := by
  have here : (swept heap marked count).heap.slots[count]? = heap.slots[count]? := by
    refine (getElem?_slotsBelow count).trans (if_neg fun both => ?_)
    exact Nat.lt_irrefl count both.1
  have alive : (swept heap marked count).heap.isAlive ⟨count⟩ = heap.isAlive ⟨count⟩ := by
    rw [Heap.isAlive,Heap.get?,here]
    rfl
  have size : (swept heap marked count).heap.sizeAt count = heap.sizeAt count := by
    rw [Heap.sizeAt,here]
    rfl
  have mark : (swept heap marked count).marked.getD count false = marked.getD count false := by
    simp only [swept,marksBelow,Array.getD_eq_getD_getElem?,Array.getElem?_mapIdx]
    cases marked[count]? <;> simp
  have dead := deadBelow_succ heap marked count
  rw [visit,alive,mark]
  cases there : heap.isAlive ⟨count⟩ with
  | false =>
    rw [if_neg (by simp [there]),List.append_nil] at dead
    rw [if_neg Bool.false_ne_true,swept,swept,dead,slotsBelow_kept (by simp [there]),
      marksBelow_vacant there]
  | true =>
    rw [if_pos rfl]
    cases reached : marked.getD count false with
    | true =>
      rw [if_neg (by simp [reached]),List.append_nil] at dead
      rw [if_pos rfl,swept,swept,dead,slotsBelow_kept fun _ => reached,marksBelow_alive there]
    | false =>
      rw [if_pos ⟨there,reached⟩] at dead
      rw [if_neg Bool.false_ne_true,release,size]
      simp only [swept,dead,slotsBelow_dead reached,marksBelow_unmarked reached,List.reverse_append,
        List.foldl_append]
      rfl

theorem foldl_visit (heap : Heap) (marked : Array Bool) (count : Nat) :
    (List.range count).foldl visit (swept heap marked 0) = swept heap marked count := by
  induction count with
  | zero => rfl
  | succ count ih => rw [List.range_succ,List.foldl_append,ih,List.foldl_cons,List.foldl_nil,visit_swept]

theorem swept_zero (heap : Heap) (marked : Array Bool) : swept heap marked 0 = ⟨heap,marked,[]⟩ := by
  have slots : slotsBelow heap marked 0 = heap.slots := by
    refine Array.ext_getElem? fun i => ?_
    simp [slotsBelow]
  have marks : marksBelow heap marked 0 = marked := by
    refine Array.ext_getElem? fun i => ?_
    simp [marksBelow]
  rw [swept,slots,marks]
  rfl

/-- If only objects are marked, no mark remains. -/
theorem sweep_eq {marked : Array Bool} (size : marked.size = heap.slots.size)
    (sound : ∀ i, marked.getD i false = true → heap.isAlive ⟨i⟩ = true) :
    sweep ⟨heap,marked,[]⟩ = ⟨{ heap.sweep marked with strings := heap.strings },
      Array.replicate heap.slots.size false,[]⟩ := by
  have slots : slotsBelow heap marked heap.slots.size = (heap.sweep marked).slots := by
    refine Array.ext (by simp [slotsBelow,Heap.sweep]) fun i inside bound => ?_
    rw [slotsBelow,Array.size_mapIdx] at inside
    simp [slotsBelow,Heap.sweep,inside]
  have marks : marksBelow heap marked heap.slots.size = Array.replicate heap.slots.size false := by
    refine Array.ext (by simp [marksBelow,size]) fun i inside bound => ?_
    rw [marksBelow,Array.size_mapIdx] at inside
    have mark := sound i
    rw [Array.getD_eq_getD_getElem?,Array.getElem?_eq_getElem inside,Option.getD_some] at mark
    simp only [marksBelow,Array.getElem_mapIdx,Array.getElem_replicate,size ▸ inside,if_true]
    cases there : marked[i] with
    | false => exact Bool.and_false _
    | true =>
      rw [mark there]
      rfl
  have visited := foldl_visit heap marked heap.slots.size
  rw [swept_zero,swept,slots,marks] at visited
  exact visited

/-- Every object that is reached is there. -/
theorem reaches_alive (rooted : ∀ h ∈ roots, heap.isAlive h = true)
    (sound : ∀ h, ∀ r ∈ heap.references h, heap.isAlive r = true) {h : Handle}
    (reaches : heap.Reaches roots h) : heap.isAlive h = true := by
  cases reaches with
  | root member => exact rooted h member
  | next _ member => exact sound _ h member

/-- A collection comes to its end, with no mark and no work left. -/
theorem run_eq (rooted : ∀ h ∈ roots, heap.isAlive h = true)
    (sound : ∀ h, ∀ r ∈ heap.references h, heap.isAlive r = true) :
    run heap roots = ⟨heap.collect roots,Array.replicate heap.slots.size false,[]⟩ := by
  have size := Heap.size_reached heap roots
  have marks (i : Nat) (marked : (heap.reached roots).getD i false = true) :
      heap.isAlive ⟨i⟩ = true := by
    have inside : i < heap.slots.size := by
      by_contra outside
      rw [← size] at outside
      simp [outside] at marked
    exact reaches_alive rooted sound ((Heap.reached_iff inside).mp marked)
  have pruned : sweep (prune ⟨heap,heap.reached roots,[]⟩) =
      ⟨heap.sweep (heap.reached roots),Array.replicate heap.slots.size false,[]⟩ :=
    sweep_eq size marks
  rw [run,trace_start,pruned]
  rfl

end Collector

namespace Heap

variable {heap : Heap} {roots : List Handle}

/-- After a collection there is what the roots reach, as it was, and nothing else. Freed places are
free again in ascending order, the latest first, and the table knows the strings that remain. -/
structure Exact (heap : Heap) (roots : List Handle) (after : Heap) : Prop where
  alive : ∀ h, after.isAlive h = true ↔ heap.Reaches roots h
  kept : ∀ h, heap.Reaches roots h →
    after.get? h = heap.get? h ∧ after.sizeAt h.index = heap.sizeAt h.index
  freed : ∃ dead : List Nat, dead.Pairwise (· < ·) ∧
    (∀ i, i ∈ dead ↔ heap.isAlive ⟨i⟩ = true ∧ ¬heap.Reaches roots ⟨i⟩) ∧
    after.bytes + (dead.map heap.sizeAt).sum = heap.bytes ∧ after.free = dead.reverse ++ heap.free
  strings : ∀ text h, after.find? text = some h ↔ after.get? h = some (.string text)

theorem inside_of_alive {h : Handle} (alive : heap.isAlive h = true) :
    h.index < heap.slots.size := by
  obtain ⟨o,found⟩ := Option.isSome_iff_exists.mp alive
  exact index_lt found

theorem Arises.exact (arises : heap.Arises) (rooted : ∀ h ∈ roots, heap.isAlive h = true)
    (sound : ∀ h, ∀ r ∈ heap.references h, heap.isAlive r = true) :
    heap.Exact roots (heap.collect roots) where
  alive h := by
    have swept : (heap.collect roots).get? h = _ := heap.get?_sweep (heap.reached roots) h
    refine ⟨fun alive => ?_,fun reaches => ?_⟩
    · rw [isAlive,swept] at alive
      split at alive
      next marked => exact (reached_iff (inside_of_alive alive)).mp marked
      next => contradiction
    · rw [isAlive,get?_collect reaches]
      exact Collector.reaches_alive rooted sound reaches
  kept h reaches := by
    have inside := inside_of_alive (Collector.reaches_alive rooted sound reaches)
    have size : (heap.collect roots).sizeAt h.index = _ :=
      heap.sizeAt_sweep (heap.reached roots) h.index
    exact ⟨get?_collect reaches,size.trans (if_pos (reached_complete reaches inside))⟩
  freed := by
    refine ⟨heap.freed roots,heap.freed_sorted roots,fun i => ?_,
      arises.accounted.bytes_collect roots,rfl⟩
    rw [freed,mem_unreached]
    refine and_congr_right fun alive => ?_
    rw [← reached_iff (inside_of_alive alive),Bool.not_eq_true]
  strings := (arises.tidy.collect roots).interned

/-- Only what the roots reach matters, and so only which handles are among them. -/
theorem collect_congr {others : List Handle} (same : ∀ h, h ∈ others ↔ h ∈ roots) :
    heap.collect others = heap.collect roots := by
  have reaches (h : Handle) : heap.Reaches others h ↔ heap.Reaches roots h := by
    constructor <;> intro there
    all_goals
      induction there with
      | root member => exact .root (by simpa [same] using member)
      | next _ member ih => exact .next ih member
  have marks : heap.reached others = heap.reached roots := by
    refine Array.ext (by rw [size_reached,size_reached]) fun i inside bound => ?_
    have bound' : i < heap.slots.size := by rwa [size_reached] at bound
    have mark := (reached_iff (h := ⟨i⟩) bound').trans
      ((reaches ⟨i⟩).trans (reached_iff (h := ⟨i⟩) bound').symm)
    simp only [Array.getD_eq_getD_getElem?,Array.getElem?_eq_getElem inside,
      Array.getElem?_eq_getElem bound,Option.getD_some] at mark
    exact Bool.eq_iff_iff.mpr mark
  rw [collect,collect,marks]

/-- A collection ends after a bounded number of rounds without marks and work, and is exact. The order
of the roots does not matter. -/
theorem Arises.collect_exact (arises : heap.Arises) (rooted : ∀ h ∈ roots, heap.isAlive h = true)
    (sound : ∀ h, ∀ r ∈ heap.references h, heap.isAlive r = true) :
    (∃ count ≤ roots.length + ∑ i ∈ range heap.slots.size, (heap.references ⟨i⟩).length,
      (Collector.start heap roots).trace = Collector.round^[count] (Collector.start heap roots) ∧
        (Collector.round^[count] (Collector.start heap roots)).work = []) ∧
    Collector.run heap roots = ⟨heap.collect roots,Array.replicate heap.slots.size false,[]⟩ ∧
    heap.Exact roots (heap.collect roots) ∧
    ∀ others : List Handle, (∀ h, h ∈ others ↔ h ∈ roots) →
      heap.collect others = heap.collect roots := by
  obtain ⟨count,less,rounds⟩ := Collector.trace_eq (Collector.start heap roots)
  have bound : (Collector.start heap roots).remaining ≤
      roots.length + ∑ i ∈ range heap.slots.size, (heap.references ⟨i⟩).length := by
    rw [Collector.start_eq,Collector.remaining,List.length_reverse]
    refine Nat.add_le_add_left (Finset.sum_le_sum_of_subset ?_) _
    simp [Collector.unmarked]
  have idle := Collector.work_trace (Collector.start heap roots)
  exact ⟨⟨count,less.trans bound,rounds,rounds ▸ idle⟩,Collector.run_eq rooted sound,arises.exact rooted sound,
    fun _ => collect_congr⟩

/-- Two records that refer to themselves, of which one is reached. -/
def knotted : Heap :=
  let named := ((empty ⟨0, 2, false⟩).insertString (ascii "p")).2
  let shaped := (named.insert (.struct ⟨0⟩ [⟨0⟩]) 60).2
  let first := (shaped.insert (.record ⟨1⟩ #[.object ⟨2⟩]) 72).2
  (first.insert (.record ⟨1⟩ #[.object ⟨3⟩]) 72).2

theorem knotted_arises : knotted.Arises := by
  have missing : (empty ⟨0,2,false⟩).find? (ascii "p") = none := by decide +kernel
  exact (((((Arises.empty _).insertString missing).insert (by simp) 60).insert (by simp) 72).insert
    (by simp) 72)

theorem collect_exact_knotted : knotted.Arises ∧ (∀ h ∈ [⟨2⟩], knotted.isAlive h = true) ∧
    (∀ h, ∀ r ∈ knotted.references h, knotted.isAlive r = true) ∧
    knotted.Exact [⟨2⟩] (knotted.collect [⟨2⟩]) := by
  have rooted : ∀ h ∈ [⟨2⟩], knotted.isAlive h = true := by decide +kernel
  have inside : ∀ i < 4, ∀ r ∈ knotted.references ⟨i⟩, knotted.isAlive r = true := by decide +kernel
  have sound : ∀ h, ∀ r ∈ knotted.references h, knotted.isAlive r = true := by
    intro h r member
    refine inside h.index ?_ r member
    cases found : knotted.get? h with
    | none => simp [references,found] at member
    | some o => exact index_lt found
  exact ⟨knotted_arises,rooted,sound,(knotted_arises.collect_exact rooted sound).2.2.1⟩

end Heap

end ScriptMachine
